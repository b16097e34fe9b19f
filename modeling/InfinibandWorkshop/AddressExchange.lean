import InfinibandWorkshop.AddressRecord
import InfinibandWorkshop.ByteStream
import InfinibandWorkshop.Machine

/-!
# The address exchange of multistreamTestRunner.c

Client and server exchange one address record per queue pair over one TCP
connection, in rounds: record, record, `"done"`. A read returns any non-empty part
of what has been written, up to the length it asks for; the segmentation of the
stream is chosen with the action. The client checks the length of its read, the
server that of its first read in each round but not that of its last one.
-/
namespace InfinibandWorkshop.Exchange
open CText

inductive QpState
  | init
  | rtr
  | rts
  deriving DecidableEq, Repr

/-- The attributes that connecting a queue pair sets from the exchanged records. -/
structure Qp where
  qpState : QpState
  destQpNum : BitVec 32
  dlid : BitVec 32
  rqPsn : BitVec 32
  sqPsn : BitVec 32
  dgid : Option Gid
  deriving DecidableEq

/-- `dest->gid.global.interface_id` is the second half of the gid. -/
def interfaceIdSet (gid : Gid) : Bool := decide (∃ k : Fin 16, 8 ≤ k.val ∧ gid k ≠ 0)

/-- `pp_connect_ctx_per_qp`: to RTR with the peer's record, then to RTS. -/
def ppConnectCtxPerQp (qp : Qp) (myPsn : BitVec 32) (dest : PingpongDest) : Qp :=
  let rtr : Qp := { qp with
    qpState := .rtr, destQpNum := dest.qpn, rqPsn := dest.psn, dlid := dest.lid
    dgid := if interfaceIdSet dest.gid then some dest.gid else none }
  { rtr with qpState := .rts, sqPsn := myPsn }

inductive Op
  | writeDest
  | readDest
  | connect
  | writeDone
  | readDone
  deriving DecidableEq, Repr

/-- One round: `pp_client_exch_dest` and the connecting after it, or
`pp_server_exch_dest`. -/
def exchDest : Role → List Op
  | .client => [.writeDest, .readDest, .writeDone, .connect]
  | .server => [.readDest, .connect, .writeDest, .readDone]

/-- The read of a record that returned `n` bytes instead of a whole record. -/
structure Failure where
  n : ℕ
  size : ℕ
  deriving DecidableEq, Repr

structure Config where
  peerNum : ℕ
  myDest : Role → Fin peerNum → LocalDest
  endian : Role → Endian
  old : Role → Fin peerNum → Leftover

/-- One side: the rounds not yet finished, the current one first, what is left of
the current one, and what the exchange has produced. -/
structure Side (n : ℕ) where
  rounds : List (Fin n)
  ops : List Op
  failure : Option Failure
  remDest : Fin n → Option PingpongDest
  qp : Fin n → Qp

namespace Side

variable {n : ℕ}

def current (s : Side n) : Option (Fin n × Op) :=
  match s.failure, s.rounds, s.ops with
  | none, k :: _, op :: _ => some (k, op)
  | _, _, _ => none

/-- On to the next operation, or to the next round. -/
def next (X : Role) (s : Side n) : Side n :=
  match s.ops with
  | _ :: op :: ops => { s with ops := op :: ops }
  | _ => { s with rounds := s.rounds.tail, ops := exchDest X }

def Finished (s : Side n) : Prop := s.failure = none ∧ s.rounds = []

instance (s : Side n) : Decidable s.Finished := inferInstanceAs (Decidable (_ ∧ _))

/-- The connection is closed after the last round, and on failure. -/
def Closed (s : Side n) : Prop := s.failure ≠ none ∨ s.rounds = []

instance (s : Side n) : Decidable s.Closed := inferInstanceAs (Decidable (_ ∨ _))

end Side

/-- Both sides, and the bytes each has written that the peer has not read. -/
structure State (n : ℕ) where
  side : Role → Side n
  wire : Role → List Byte

inductive Action
  | run (X : Role)
  | read (X : Role) (n : ℕ)
  deriving DecidableEq, Repr

/-- The string `"done"` with its terminator. -/
def doneMsg : List Byte := [ch 'd', ch 'o', ch 'n', ch 'e', 0]

namespace State

variable {n : ℕ}

def setSide (s : State n) (X : Role) (a : Side n) : State n :=
  { s with side := Function.update s.side X a }

def write (s : State n) (X : Role) (bytes : List Byte) : State n :=
  { s with wire := Function.update s.wire X (s.wire X ++ bytes) }

def consume (s : State n) (X : Role) (m : ℕ) : State n :=
  { s with wire := Function.update s.wire X ((s.wire X).drop m) }

/-- `X` can get `m` bytes when it asks for a whole record: some of those that are
there, or none when the peer has closed and nothing is left. -/
def Readable (s : State n) (X : Role) (m : ℕ) : Prop :=
  (0 < m ∧ m ≤ msgSize ∧ m ≤ (s.wire X.peer).length) ∨
    (m = 0 ∧ s.wire X.peer = [] ∧ (s.side X.peer).Closed)

instance (s : State n) (X : Role) (m : ℕ) : Decidable (s.Readable X m) :=
  inferInstanceAs (Decidable (_ ∨ _))

end State

variable (c : Config)

def step (s : State c.peerNum) : Action → Option (State c.peerNum)
  | .run X =>
    let side := s.side X
    match side.current with
    | some (k, .writeDest) =>
      some ((s.write X (encode (c.endian X) (c.myDest X k).toPingpongDest)).setSide X (side.next X))
    | some (_, .writeDone) => some ((s.write X doneMsg).setSide X (side.next X))
    | some (k, .connect) =>
      match side.remDest k with
      | some dest =>
        let qp := ppConnectCtxPerQp (side.qp k) (c.myDest X k).psn dest
        some (s.setSide X ({ side with qp := Function.update side.qp k qp }.next X))
      | none => none
    | _ => none
  | .read X m =>
    let side := s.side X
    match side.current with
    | some (k, .readDest) =>
      if s.Readable X m then
        if m = msgSize then
          let dest := decode (c.endian X) (c.old X k) ((s.wire X.peer).take m)
          some ((s.consume X.peer m).setSide X
            ({ side with remDest := Function.update side.remDest k (some dest) }.next X))
        else some ((s.consume X.peer m).setSide X { side with failure := some ⟨m, msgSize⟩ })
      else none
    | some (_, .readDone) =>
      if s.Readable X m then some ((s.consume X.peer m).setSide X (side.next X)) else none
    | _ => none

def system : Machine (State c.peerNum) Action where
  init :=
    { side := fun X =>
        ⟨List.finRange c.peerNum, exchDest X, none, fun _ => none,
          fun _ => ⟨.init, 0, 0, 0, 0, none⟩⟩
      wire := fun _ => [] }
  step := step c

end InfinibandWorkshop.Exchange
