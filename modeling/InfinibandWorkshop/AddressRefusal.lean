import InfinibandWorkshop.AddressExchange

/-!
# Blocks that are not address records

`pp_server_exch_dest` and `pp_client_exch_dest` check how many bytes their read
returns, and nothing of what these bytes are: the scan's result is not looked at, so
a field that it does not reach keeps what the memory held before, and its last
conversion stores a word of any length in the 33 bytes of `gid`. What they make of a
block is its record exactly when the block is text as the sender prints it.
-/
namespace InfinibandWorkshop.Exchange
open CText

section Text

/-- A field of a record as it is printed: `w` digits, in lower case. -/
def IsField (w : ℕ) (s : List Byte) : Prop := s.length = w ∧ ∀ b ∈ s, ∃ d < 16, b = digit d

/-- The text of a record with its terminator. -/
def IsRecord (block : List Byte) : Prop :=
  ∃ lid qpn psn gid, IsField 4 lid ∧ IsField 6 qpn ∧ IsField 6 psn ∧ IsField 32 gid ∧
    block = lid ++ ch ':' :: (qpn ++ ch ':' :: (psn ++ ch ':' :: (gid ++ [0])))

variable {w : ℕ} {s : List Byte}

/-- A field is what printing some number gives. -/
theorem IsField.exists_formatHex (hw : w ≤ 8) (h : IsField w s) : ∃ v, s = formatHex w v := by
  have hdigits : ∀ s : List Byte, (∀ b ∈ s, ∃ d < 16, b = digit d) →
      ∃ ds : List ℕ, (∀ d ∈ ds, d < 16) ∧ s = ds.map digit := by
    intro s hs
    induction s with
    | nil => exact ⟨[], by simp, rfl⟩
    | cons b s ih =>
      obtain ⟨⟨d, hd, hb⟩, hs⟩ := List.forall_mem_cons.mp hs
      obtain ⟨ds, hds, heq⟩ := ih hs
      exact ⟨d :: ds, List.forall_mem_cons.mpr ⟨hd, hds⟩, by rw [hb, heq, List.map_cons]⟩
  obtain ⟨ds, hds, rfl⟩ := hdigits s h.2
  have hlen : ds.length = w := by simpa using h.1
  exact ⟨BitVec.ofNat 32 (value ds), (formatHex_value hw hds hlen).symm⟩

theorem IsField.take_drop {k : ℕ} (h : IsField (w + k) s) :
    IsField w (s.take w) ∧ IsField k (s.drop w) := by
  have hlen := h.1
  refine ⟨⟨by rw [List.length_take]; omega, ?_⟩, ⟨by rw [List.length_drop]; omega, ?_⟩⟩
  · exact fun b hb => h.2 b (List.mem_of_mem_take hb)
  · exact fun b hb => h.2 b (List.mem_of_mem_drop hb)

theorem IsField.exists_words {m : ℕ} (h : IsField (8 * m) s) :
    ∃ ws : List (BitVec 32), ws.length = m ∧ s = ws.flatMap (formatHex 8) := by
  induction m generalizing s with
  | zero => exact ⟨[], rfl, List.length_eq_zero_iff.mp h.1⟩
  | succ m ih =>
    have hsize : 8 * (m + 1) = 8 + 8 * m := by omega
    rw [hsize] at h
    obtain ⟨hhead, htail⟩ := h.take_drop
    obtain ⟨v, hv⟩ := hhead.exists_formatHex le_rfl
    obtain ⟨ws, hlen, hws⟩ := ih htail
    refine ⟨v :: ws, by rw [List.length_cons, hlen], ?_⟩
    rw [List.flatMap_cons, ← hv, ← hws, List.take_append_drop]

theorem wordOf_bytesOf (v : BitVec 32) : wordOf .big (bytesOf .big v) = v := by
  have hv := v.isLt
  apply BitVec.eq_of_toNat_eq
  simp only [wordOf, bytesOf, BitVec.toNat_ofNat]
  simp
  omega

/-- Every text of 32 digits is that of a gid. -/
theorem IsField.exists_gid (h : IsField 32 s) : ∃ gid : Gid, ∀ e, gidToWireGid e gid = s := by
  obtain ⟨ws, hlen, rfl⟩ := IsField.exists_words (m := 4) h
  let gid : Gid := fun k => bytesOf .big (ws.getD (k.val / 4) 0) ⟨k.val % 4, by omega⟩
  have hword : ∀ (i : ℕ) (hi : i < 4) (hlt : i < ws.length),
      gidWord gid ⟨i, hi⟩ = bytesOf .big ws[i] := by
    intro i hi hlt
    funext j
    have hdiv : (4 * i + j.val) / 4 = i := by omega
    have hmod : (4 * i + j.val) % 4 = j.val := by omega
    simp only [gidWord, gid, hdiv, hmod, List.getD_eq_getElem?_getD,
      List.getElem?_eq_getElem hlt, Option.getD_some]
  refine ⟨gid, fun e => ?_⟩
  rw [gidToWireGid_eq]
  congr 1
  apply List.ext_getElem
  · simp [hlen]
  · intro i hi hlt
    rw [List.getElem_map, List.getElem_finRange, Fin.cast_mk, hword i (by omega) hlt,
      wordOf_bytesOf]

/-- So the text of a record is what printing some record gives, on any host. -/
theorem IsRecord.exists_encode {block : List Byte} (h : IsRecord block) :
    ∃ dest, ∀ e, encode e dest = block := by
  obtain ⟨lid, qpn, psn, gid, hlid, hqpn, hpsn, hgid, rfl⟩ := h
  obtain ⟨lid, rfl⟩ := hlid.exists_formatHex (by decide)
  obtain ⟨qpn, rfl⟩ := hqpn.exists_formatHex (by decide)
  obtain ⟨psn, rfl⟩ := hpsn.exists_formatHex (by decide)
  obtain ⟨gid, hgid⟩ := hgid.exists_gid
  exact ⟨⟨lid, qpn, psn, gid⟩, fun e => by rw [encode, hgid e]⟩

/-- And a record that is printed into a block of the message's size has fields of
exactly their widths. -/
theorem isRecord_encode {e : Endian} {dest : PingpongDest}
    (hlen : (encode e dest).length = msgSize) : IsRecord (encode e dest) := by
  have hlid := le_formatHex_length 4 dest.lid
  have hqpn := le_formatHex_length 6 dest.qpn
  have hpsn := le_formatHex_length 6 dest.psn
  have hgid := gidToWireGid_length e dest.gid
  simp only [encode, msgSize, List.length_append, List.length_cons, List.length_nil] at hlen
  refine ⟨formatHex 4 dest.lid, formatHex 6 dest.qpn, formatHex 6 dest.psn,
    gidToWireGid e dest.gid, ⟨by omega, ?_⟩, ⟨by omega, ?_⟩, ⟨by omega, ?_⟩, ⟨hgid, ?_⟩, rfl⟩
  · exact fun b hb => mem_formatHex hb
  · exact fun b hb => mem_formatHex hb
  · exact fun b hb => mem_formatHex hb
  · exact fun b hb => mem_gidToWireGid hb

/-- The string in `msg` ends with the text, whatever the memory behind it holds. -/
theorem cstr_encode_append (e : Endian) (dest : PingpongDest) (beyond : List Byte) :
    cstr (encode e dest ++ beyond) = cstr (encode e dest) := by
  have hne : ∀ b ∈ cstr (encode e dest), b ≠ 0 := by
    intro b hb
    simpa using List.mem_takeWhile_imp hb
  rw [encode_eq_cstr, List.append_assoc, List.singleton_append, cstr_append_zero hne,
    ← encode_eq_cstr]

end Text

/-- What surrounds the block that the read delivers: the byte order, what the memory
held before and holds behind `msg`, and which of the calls that follow succeed. -/
structure Delivery where
  endian : Endian
  old : Leftover
  beyond : List Byte
  malloc : Bool
  modifyToRtr : Bool
  modifyToRts : Bool
  write : Bool

/-- What the call leaves: the pointer it returns, what it has stored in the record it
allocated, how many bytes each string stored in `gid` took, and the queue pair. -/
structure Outcome where
  remDest : Option PingpongDest
  stored : Option PingpongDest
  gidStores : List ℕ
  qp : Qp

namespace Delivery

variable (d : Delivery)

/-- The two calls of `ibv_modify_qp` in `pp_connect_ctx_per_qp` succeed. -/
def Connects : Prop := d.modifyToRtr = true ∧ d.modifyToRts = true

instance : Decidable d.Connects := inferInstanceAs (Decidable (_ ∧ _))

/-- `pp_connect_ctx_per_qp`, up to the call that fails. -/
def connect (qp : Qp) (myPsn : BitVec 32) (dest : PingpongDest) : Qp :=
  let connected := ppConnectCtxPerQp qp myPsn dest
  if d.modifyToRtr then
    if d.modifyToRts then connected else { connected with qpState := .rtr, sqPsn := qp.sqPsn }
  else qp

end Delivery

/-- The string that `sscanf` makes of the gid field. -/
def gidField (msg : List Byte) : Option (List Byte) := (scanRecord (cstr msg)).gid

/-- The bytes that it stores for it, with the terminator. -/
def gidStore (msg : List Byte) : ℕ := ((gidField msg).map (fun w => w.length + 1)).getD 0

/-- `pp_client_exch_dest` after a read of `sizeof msg` bytes; `gid` still holds the
client's own. -/
def ppClientExchDest (d : Delivery) (myDest : LocalDest) (qp : Qp) (block : List Byte) :
    Outcome :=
  let wgid := gidToWireGid d.endian myDest.gid
  let msg := block ++ d.beyond
  if d.malloc then
    let dest := decode d.endian { d.old with gid := wgid ++ [0] } msg
    ⟨some dest, some dest, [wgid.length + 1, gidStore msg], qp⟩
  else ⟨none, none, [wgid.length + 1], qp⟩

/-- `pp_server_exch_dest`, which also connects the queue pair and answers. -/
def ppServerExchDest (d : Delivery) (myDest : LocalDest) (qp : Qp) (block : List Byte) :
    Outcome :=
  let wgid := gidToWireGid d.endian myDest.gid
  let msg := block ++ d.beyond
  if d.malloc then
    let dest := decode d.endian d.old msg
    let qp := d.connect qp myDest.psn dest
    if d.Connects then
      ⟨if d.write then some dest else none, some dest, [gidStore msg, wgid.length + 1], qp⟩
    else ⟨none, some dest, [gidStore msg], qp⟩
  else ⟨none, none, [], qp⟩

def ppExchDest : Role → Delivery → LocalDest → Qp → List Byte → Outcome
  | .client => ppClientExchDest
  | .server => ppServerExchDest

/-- The block is refused and the queue pair left as it was, or the block is the text of
the record that was stored; `gid` gets 32 characters and a terminator at most. -/
structure Handled (e : Endian) (qp : Qp) (block : List Byte) (o : Outcome) : Prop where
  refused : (o.remDest = none ∧ o.qp = qp) ∨
    ∃ dest, o.stored = some dest ∧ encode e dest = block
  gid_fits : ∀ n ∈ o.gidStores, n ≤ 33

section Handled

variable (d : Delivery) (myDest : LocalDest) (qp : Qp) {block : List Byte}

/-- The first call that succeeds gives the queue pair its destination, and no later failure
takes it away again. -/
theorem connect_eq_self_iff (myPsn : BitVec 32) (dest : PingpongDest)
    (hinit : qp.qpState = .init) : d.connect qp myPsn dest = qp ↔ d.modifyToRtr = false := by
  unfold Delivery.connect
  cases hrtr : d.modifyToRtr with
  | false => simp
  | true =>
    have hne : ∀ state, state ≠ .init → ∀ qp' : Qp, qp'.qpState = state → qp' ≠ qp := by
      rintro state hstate qp' hqp' rfl
      exact hstate (hqp'.symm.trans hinit)
    cases d.modifyToRts with
    | false => simpa using hne .rtr (by decide) _ rfl
    | true => simpa using hne .rts (by decide) _ rfl

/-- The text of a record is read as the record, and its gid fills `gid`. -/
theorem decode_isRecord (h : IsRecord block) (old : Leftover) :
    encode d.endian (decode d.endian old (block ++ d.beyond)) = block ∧
      gidStore (block ++ d.beyond) = 33 := by
  obtain ⟨dest, hdest⟩ := h.exists_encode
  have hcstr := cstr_encode_append d.endian dest d.beyond
  rw [← hdest d.endian]
  constructor
  · have hdecode : decode d.endian old (encode d.endian dest ++ d.beyond) =
        decode d.endian old (encode d.endian dest) := by
      simp only [decode, hcstr]
    rw [hdecode, decode_encode]
  · rw [gidStore, gidField, hcstr, scanRecord_encode, Option.map_some, Option.getD_some,
      gidToWireGid_length]

theorem isRecord_of_encode (hlen : block.length = msgSize) {dest : PingpongDest}
    (h : encode d.endian dest = block) : IsRecord block := by
  rw [← h] at hlen ⊢
  exact isRecord_encode hlen

theorem gidStore_le_iff (msg : List Byte) :
    gidStore msg ≤ 33 ↔ ∀ w ∈ gidField msg, w.length ≤ 32 := by
  rw [gidStore]
  cases hfield : gidField msg with
  | none => simp
  | some w =>
    simp only [Option.map_some, Option.getD_some, Option.mem_some_iff, forall_eq']
    omega

/-- The client's caller connects to whatever record it is given. -/
theorem handled_client (hlen : block.length = msgSize) :
    Handled d.endian qp block (ppClientExchDest d myDest qp block) ↔
      IsRecord block ∨ d.malloc = false := by
  have hown := gidToWireGid_length d.endian myDest.gid
  rw [ppClientExchDest]
  by_cases hmalloc : d.malloc = true
  · rw [if_pos hmalloc]
    constructor
    · intro h
      obtain ⟨hnone, -⟩ | ⟨dest, -, hdest⟩ := h.refused
      · cases hnone
      · exact Or.inl (isRecord_of_encode d hlen hdest)
    · intro h
      have hrecord : IsRecord block := h.resolve_right (by simp [hmalloc])
      obtain ⟨hencode, hstore⟩ := decode_isRecord d hrecord
        { d.old with gid := gidToWireGid d.endian myDest.gid ++ [0] }
      exact ⟨Or.inr ⟨_, rfl, hencode⟩, by simp [hown, hstore]⟩
  · rw [if_neg hmalloc]
    have hfalse : d.malloc = false := by simpa using hmalloc
    exact iff_of_true ⟨Or.inl ⟨rfl, rfl⟩, by simp [hown]⟩ (Or.inr hfalse)

/-- The server frees the record where the queue pair cannot be connected; but one that has
got as far as RTR stays bound to it. -/
theorem handled_server (hlen : block.length = msgSize) (hinit : qp.qpState = .init) :
    Handled d.endian qp block (ppServerExchDest d myDest qp block) ↔
      IsRecord block ∨ d.malloc = false ∨
        (d.modifyToRtr = false ∧ ∀ w ∈ gidField (block ++ d.beyond), w.length ≤ 32) := by
  have hown := gidToWireGid_length d.endian myDest.gid
  have hconnect := connect_eq_self_iff d qp myDest.psn
    (decode d.endian d.old (block ++ d.beyond)) hinit
  rw [ppServerExchDest, ← gidStore_le_iff]
  by_cases hmalloc : d.malloc = true
  · rw [if_pos hmalloc]
    have hdecoded := fun h : IsRecord block => decode_isRecord d h d.old
    by_cases hrtr : d.modifyToRtr = false
    · have hconnects : ¬ d.Connects := fun h => by simp [h.1] at hrtr
      rw [if_neg hconnects]
      constructor
      · intro h
        exact Or.inr (Or.inr ⟨hrtr, h.gid_fits _ (by simp)⟩)
      · intro h
        refine ⟨Or.inl ⟨rfl, hconnect.mpr hrtr⟩, ?_⟩
        have hle : gidStore (block ++ d.beyond) ≤ 33 := by
          obtain hrecord | hfalse | ⟨-, hle⟩ := h
          · exact (hdecoded hrecord).2.le
          · simp [hmalloc] at hfalse
          · exact hle
        simpa using hle
    · have hbound := fun h => hrtr (hconnect.mp h)
      constructor
      · intro h
        obtain ⟨-, hqp⟩ | ⟨dest, -, hdest⟩ := h.refused
        · split_ifs at hqp
          all_goals exact absurd hqp hbound
        · exact Or.inl (isRecord_of_encode d hlen hdest)
      · intro h
        have hrecord : IsRecord block := h.resolve_right (by simp [hmalloc, hrtr])
        obtain ⟨hencode, hstore⟩ := hdecoded hrecord
        split_ifs
        all_goals exact ⟨Or.inr ⟨_, rfl, hencode⟩, by simp [hown, hstore]⟩
  · rw [if_neg hmalloc]
    have hfalse : d.malloc = false := by simpa using hmalloc
    exact iff_of_true ⟨Or.inl ⟨rfl, rfl⟩, by simp⟩ (Or.inr (Or.inl hfalse))

/-- A block that is not the text of a record is refused only where a later call happens
to fail, on the server the first one that would change the queue pair. -/
theorem handled_iff (X : Role) (hlen : block.length = msgSize) (hinit : qp.qpState = .init) :
    Handled d.endian qp block (ppExchDest X d myDest qp block) ↔
      IsRecord block ∨ d.malloc = false ∨ (X = .server ∧ d.modifyToRtr = false ∧
        ∀ w ∈ gidField (block ++ d.beyond), w.length ≤ 32) := by
  cases X with
  | client => simpa [ppExchDest] using handled_client d myDest qp hlen
  | server => simpa [ppExchDest] using handled_server d myDest qp hlen hinit

end Handled

/-- The zeros of a connection that sends nothing else. -/
def zeroBlock : List Byte := List.replicate msgSize 0

def deliveredZeros : Delivery :=
  ⟨.little, ⟨⟨0, 0, 0, fun _ => 0⟩, [], 0⟩, [], true, true, true, true⟩

def zeroDest : LocalDest := ⟨⟨0, 0, 0, fun _ => 0⟩, by decide, by decide, by decide⟩

def initQp : Qp := ⟨.init, 0, 0, 0, 0, none⟩

theorem handled_iff_zeros :
    Handled .little initQp zeroBlock
        (ppExchDest .client deliveredZeros zeroDest initQp zeroBlock) ↔
      IsRecord zeroBlock ∨ true = false ∨ (Role.client = .server ∧ true = false ∧
        ∀ w ∈ gidField (zeroBlock ++ []), w.length ≤ 32) :=
  handled_iff deliveredZeros zeroDest initQp .client rfl rfl

/-- The client takes 52 zeros for a record. -/
theorem zeros_not_handled : ¬ ∀ (X : Role) (d : Delivery) (myDest : LocalDest) (qp : Qp)
    (block : List Byte), block.length = msgSize → qp.qpState = .init →
      Handled d.endian qp block (ppExchDest X d myDest qp block) := by
  intro h
  have hzeros := h .client deliveredZeros zeroDest initQp zeroBlock rfl rfl
  have hnot : ¬ IsRecord zeroBlock := by
    rintro ⟨lid, qpn, psn, gid, ⟨hlen, hlid⟩, -, -, -, heq⟩
    obtain ⟨b, lid, rfl⟩ := List.exists_cons_of_length_eq_add_one hlen
    obtain ⟨d, hd, rfl⟩ := hlid b (by simp)
    have hhead : (0 : Byte) = digit d := (List.cons.inj heq).1
    exact (digit_plain hd).1 hhead.symm
  obtain hrecord | hmalloc := (handled_client deliveredZeros zeroDest initQp rfl).mp hzeros
  · exact hnot hrecord
  · cases hmalloc

end InfinibandWorkshop.Exchange
