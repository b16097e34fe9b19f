import InfinibandWorkshop.Machine
import InfinibandWorkshop.Rally
import InfinibandWorkshop.MultistreamLoop
import InfinibandWorkshop.MultistreamSystem
import InfinibandWorkshop.MultistreamGuarantees
import InfinibandWorkshop.MultistreamLimits
import InfinibandWorkshop.VerbsTransfer
import InfinibandWorkshop.MultithreadLoop
import InfinibandWorkshop.AddressRecord
import InfinibandWorkshop.AddressExchange
import InfinibandWorkshop.AddressAlignment
import InfinibandWorkshop.Descriptors
import InfinibandWorkshop.MultithreadServer
import InfinibandWorkshop.RoundHandover
import InfinibandWorkshop.QpConnection
import InfinibandWorkshop.Session
import InfinibandWorkshop.SharedSocketData
import InfinibandWorkshop.TcpEcho
import InfinibandWorkshop.EchoBuffer
import InfinibandWorkshop.SelectLoop
import InfinibandWorkshop.SlotTable
import InfinibandWorkshop.SelectTable
import InfinibandWorkshop.SelectCalls
import InfinibandWorkshop.BufferSegments
import InfinibandWorkshop.MessageSplit
import InfinibandWorkshop.RoundSizes
import InfinibandWorkshop.AddressRefusal
import InfinibandWorkshop.PollLoop
import InfinibandWorkshop.Interleaving
import InfinibandWorkshop.OneQpAgreement
import InfinibandWorkshop.ResultTable
import InfinibandWorkshop.CompletionOrder
import InfinibandWorkshop.Loops
import InfinibandWorkshop.SendVerifier
import InfinibandWorkshop.ConnectionSetup
import InfinibandWorkshop.ReceiveLoop
import InfinibandWorkshop.ContextLifetime
import InfinibandWorkshop.CallTraces
import InfinibandWorkshop.PingPongThread
import InfinibandWorkshop.Measurement
import InfinibandWorkshop.LoopAnswers
import InfinibandWorkshop.Progress
import InfinibandWorkshop.RoundEnds
import InfinibandWorkshop.EventLoop
import InfinibandWorkshop.Payload
import InfinibandWorkshop.RoundTraffic
import InfinibandWorkshop.SessionEnds
import InfinibandWorkshop.Family
import InfinibandWorkshop.Turns
import InfinibandWorkshop.InfinibandSweeps
import InfinibandWorkshop.ObjectStacks
import InfinibandWorkshop.ThreadContexts
import InfinibandWorkshop.EchoRounds
import InfinibandWorkshop.TcpBenchmark
import InfinibandWorkshop.SelectClients
import InfinibandWorkshop.SelectRefinement
import InfinibandWorkshop.SelectTurns
import InfinibandWorkshop.SelectRunning
import InfinibandWorkshop.SelectRank
import InfinibandWorkshop.SelectProgress
import InfinibandWorkshop.SelectHanging
import InfinibandWorkshop.SelectRounds
import InfinibandWorkshop.Decimals
import InfinibandWorkshop.ResultText
