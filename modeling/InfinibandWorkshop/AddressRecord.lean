import InfinibandWorkshop.CText
import Mathlib.Data.Fintype.Pi
import Mathlib.Tactic.FinCases

/-!
# The address records of the exchange

A queue pair's address travels as text, `lid:qpn:psn:gid` in fixed-width hex with
its terminator. The gid is converted word by word through host byte order on
either side, so the text does not depend on the byte order of the hosts.
-/
namespace InfinibandWorkshop.Exchange
open CText

inductive Endian
  | little
  | big
  deriving DecidableEq, Repr

abbrev Gid := Fin 16 → Byte

/-- `struct pingpong_dest`, with `union ibv_gid` as its raw bytes. -/
@[ext] structure PingpongDest where
  lid : BitVec 32
  qpn : BitVec 32
  psn : BitVec 32
  gid : Gid
  deriving DecidableEq

/-- A record as a host makes it for its own queue pairs: `lid` comes from the 16
bits of a port attribute, queue pair numbers have 24 bits, and so has the masked
random `psn`. -/
structure LocalDest extends PingpongDest where
  lid_lt : lid.toNat < 16 ^ 4
  qpn_lt : qpn.toNat < 16 ^ 6
  psn_lt : psn.toNat < 16 ^ 6

section Words

/-- The four bytes of a word in memory. -/
def bytesOf (e : Endian) (v : BitVec 32) : Fin 4 → Byte :=
  let byte (k : ℕ) : Byte := BitVec.ofNat 8 (v.toNat / 256 ^ k)
  match e with
  | .little => fun j => byte j.val
  | .big => fun j => byte (3 - j.val)

/-- The word that four bytes in memory hold. -/
def wordOf (e : Endian) (b : Fin 4 → Byte) : BitVec 32 :=
  let word (b₀ b₁ b₂ b₃ : Byte) : BitVec 32 :=
    BitVec.ofNat 32 (b₀.toNat + 256 * (b₁.toNat + 256 * (b₂.toNat + 256 * b₃.toNat)))
  match e with
  | .little => word (b 0) (b 1) (b 2) (b 3)
  | .big => word (b 3) (b 2) (b 1) (b 0)

def bswap (v : BitVec 32) : BitVec 32 := wordOf .big (bytesOf .little v)

/-- `htonl`, and `ntohl`, which is the same function. -/
def htonl (e : Endian) (v : BitVec 32) : BitVec 32 :=
  match e with
  | .little => bswap v
  | .big => v

theorem bytesOf_wordOf (e : Endian) (b : Fin 4 → Byte) : bytesOf e (wordOf e b) = b := by
  have h₀ := (b 0).isLt
  have h₁ := (b 1).isLt
  have h₂ := (b 2).isLt
  have h₃ := (b 3).isLt
  funext j
  apply BitVec.eq_of_toNat_eq
  cases e <;> fin_cases j <;> simp only [bytesOf, wordOf, BitVec.toNat_ofNat] <;> simp <;> omega

/-- On any host, `htonl` of a word in memory reads it most significant byte first. -/
theorem htonl_wordOf (e : Endian) (b : Fin 4 → Byte) :
    htonl e (wordOf e b) = wordOf .big b := by
  cases e with
  | little => rw [htonl, bswap, bytesOf_wordOf]
  | big => rfl

theorem bswap_wordOf (b : Fin 4 → Byte) : bswap (wordOf .big b) = wordOf .little b := by
  have hrev : bytesOf .little (wordOf .big b) = fun j => b (3 - j) := by
    funext j
    rw [← congrFun (bytesOf_wordOf .big b) (3 - j)]
    fin_cases j <;> rfl
  rw [bswap, hrev]
  rfl

/-- And `ntohl` puts it back into memory as it was. -/
theorem bytesOf_htonl (e : Endian) (b : Fin 4 → Byte) :
    bytesOf e (htonl e (wordOf .big b)) = b := by
  cases e with
  | little => rw [htonl, bswap_wordOf, bytesOf_wordOf]
  | big => exact bytesOf_wordOf .big b

end Words

section Codec

/-- `sizeof "0000:000000:000000:00000000000000000000000000000000"`. -/
def msgSize : ℕ := 52

/-- Word `i` of a gid in memory. -/
def gidWord (gid : Gid) (i : Fin 4) : Fin 4 → Byte := fun j => gid ⟨4 * i.val + j.val, by omega⟩

/-- `gid_to_wire_gid`. -/
def gidToWireGid (e : Endian) (gid : Gid) : List Byte :=
  (List.finRange 4).flatMap (fun i => formatHex 8 (htonl e (wordOf e (gidWord gid i))))

/-- What `sprintf` leaves in `msg`, terminator included. -/
def encode (e : Endian) (dest : PingpongDest) : List Byte :=
  formatHex 4 dest.lid ++ ch ':' :: (formatHex 6 dest.qpn ++ ch ':' ::
    (formatHex 6 dest.psn ++ ch ':' :: (gidToWireGid e dest.gid ++ [0])))

/-- The words that the loop of `wire_gid_to_gid` scans; where a scan fails `v32`
keeps the value it had. -/
def gidWords : ℕ → List Byte → BitVec 32 → List (BitVec 32)
  | 0, _, _ => []
  | n + 1, wgid, v32 =>
    let v32 := ((scanHex (cstr (wgid.take 8))).map Prod.fst).getD v32
    v32 :: gidWords n (wgid.drop 8) v32

/-- `wire_gid_to_gid`, from what `v32` held before. -/
def wireGidToGid (e : Endian) (wgid : List Byte) (v32 : BitVec 32) : Gid :=
  let words := gidWords 4 wgid v32
  fun k => bytesOf e (htonl e (words.getD (k.val / 4) 0)) ⟨k.val % 4, by omega⟩

/-- What `sscanf` with `"%x:%x:%x:%s"` stores. -/
structure Scanned where
  lid : Option (BitVec 32)
  qpn : Option (BitVec 32)
  psn : Option (BitVec 32)
  gid : Option (List Byte)

/-- The conversions run until one of them fails. -/
def scanRecord (s : List Byte) : Scanned :=
  match scanHex s with
  | none => ⟨none, none, none, none⟩
  | some (lid, s) =>
    match (scanChar (ch ':') s).bind scanHex with
    | none => ⟨some lid, none, none, none⟩
    | some (qpn, s) =>
      match (scanChar (ch ':') s).bind scanHex with
      | none => ⟨some lid, some qpn, none, none⟩
      | some (psn, s) => ⟨some lid, some qpn, some psn, (scanChar (ch ':') s).bind scanWord⟩

/-- Memory that the decoding side has not initialised, or filled for another
use: the allocated record, the buffer `gid`, and `v32`. -/
structure Leftover where
  dest : PingpongDest
  gid : List Byte
  v32 : BitVec 32

/-- `sscanf` into the record and `gid`, and `wire_gid_to_gid`; neither result is
checked. -/
def decode (e : Endian) (old : Leftover) (msg : List Byte) : PingpongDest :=
  let found := scanRecord (cstr msg)
  let gid := match found.gid with
    | some w => w ++ 0 :: old.gid.drop (w.length + 1)
    | none => old.gid
  { lid := found.lid.getD old.dest.lid
    qpn := found.qpn.getD old.dest.qpn
    psn := found.psn.getD old.dest.psn
    gid := wireGidToGid e gid old.v32 }

theorem word_lt (v : BitVec 32) : v.toNat < 16 ^ 8 := v.isLt

/-- The text of a gid is its bytes in memory order, on any host. -/
theorem gidToWireGid_eq (e : Endian) (gid : Gid) : gidToWireGid e gid =
    ((List.finRange 4).map (fun i => wordOf .big (gidWord gid i))).flatMap (formatHex 8) := by
  simp only [gidToWireGid, htonl_wordOf, List.flatMap_map]

theorem gidToWireGid_length (e : Endian) (gid : Gid) : (gidToWireGid e gid).length = 32 := by
  simp [gidToWireGid_eq, List.length_flatMap, formatHex_length (word_lt _), Function.comp_def]

theorem mem_gidToWireGid {e : Endian} {gid : Gid} {b : Byte} (hb : b ∈ gidToWireGid e gid) :
    ∃ d < 16, b = digit d := by
  obtain ⟨i, _, hb⟩ := List.mem_flatMap.mp hb
  exact mem_formatHex hb

/-- A host's own record fills the message buffer exactly. -/
theorem encode_length (e : Endian) (dest : LocalDest) :
    (encode e dest.toPingpongDest).length = msgSize := by
  simp [encode, msgSize, formatHex_length dest.lid_lt, formatHex_length dest.qpn_lt,
    formatHex_length dest.psn_lt, gidToWireGid_length]

theorem stops_colon (s : List Byte) : Stops (ch ':' :: s) := by
  simp only [Stops, List.head?_cons, Option.mem_some_iff, forall_eq']
  decide

theorem cstr_encode (e : Endian) (dest : PingpongDest) : cstr (encode e dest) =
    formatHex 4 dest.lid ++ ch ':' :: (formatHex 6 dest.qpn ++ ch ':' ::
      (formatHex 6 dest.psn ++ ch ':' :: gidToWireGid e dest.gid)) := by
  have hcolon : ch ':' ≠ 0 := by decide
  have hgid : ∀ b ∈ gidToWireGid e dest.gid, b ≠ 0 := by
    intro b hb
    obtain ⟨d, hd, rfl⟩ := mem_gidToWireGid hb
    exact (digit_plain hd).1
  have hassoc : encode e dest = (formatHex 4 dest.lid ++ ch ':' :: (formatHex 6 dest.qpn ++
      ch ':' :: (formatHex 6 dest.psn ++ ch ':' :: gidToWireGid e dest.gid))) ++ 0 :: [] := by
    simp [encode]
  rw [hassoc, cstr_append_zero]
  intro b hb
  simp only [List.mem_append, List.mem_cons] at hb
  rcases hb with hb | rfl | hb | rfl | hb | rfl | hb
  · exact formatHex_ne_zero hb
  · exact hcolon
  · exact formatHex_ne_zero hb
  · exact hcolon
  · exact formatHex_ne_zero hb
  · exact hcolon
  · exact hgid b hb

theorem scanRecord_encode (e : Endian) (dest : PingpongDest) :
    scanRecord (cstr (encode e dest)) =
      ⟨some dest.lid, some dest.qpn, some dest.psn, some (gidToWireGid e dest.gid)⟩ := by
  have hne : gidToWireGid e dest.gid ≠ [] := by
    intro he
    have hlen := gidToWireGid_length e dest.gid
    rw [he] at hlen
    cases hlen
  have hchar : ∀ s, scanChar (ch ':') (ch ':' :: s) = some s := by
    simp [scanChar]
  rw [cstr_encode, scanRecord, scanHex_formatHex (by decide) _ (stops_colon _)]
  simp only [hchar, Option.bind_some, scanHex_formatHex (w := 6) (by decide) _ (stops_colon _),
    scanWord_digits (fun b hb => mem_gidToWireGid hb) hne]

/-- Printed words are scanned back whatever follows them. -/
theorem gidWords_flatMap {m : ℕ} {ws : List (BitVec 32)} (hm : ws.length = m) (s : List Byte)
    (v32 : BitVec 32) : gidWords m (ws.flatMap (formatHex 8) ++ s) v32 = ws := by
  subst m
  induction ws generalizing v32 with
  | nil => rfl
  | cons v ws ih =>
    have hlen := formatHex_length (word_lt v)
    have hscan : scanHex (cstr (formatHex 8 v)) = some (v, []) := by
      have hstops : Stops [] := by simp [Stops]
      rw [cstr_eq_self (fun b hb => formatHex_ne_zero hb)]
      simpa using scanHex_formatHex (w := 8) (by decide) v hstops
    simp only [List.length_cons, gidWords, List.flatMap_cons, List.append_assoc,
      List.take_left' hlen, List.drop_left' hlen, hscan, Option.map_some, Option.getD_some, ih]

/-- What one host writes, another reads, whatever their byte orders and whatever
was in the memory it is read into. -/
theorem decode_encode (e e' : Endian) (old : Leftover) (dest : PingpongDest) :
    decode e' old (encode e dest) = dest := by
  have hwords : ∀ s, gidWords 4 (gidToWireGid e dest.gid ++ s) old.v32 =
      (List.finRange 4).map (fun i => wordOf .big (gidWord dest.gid i)) := by
    intro s
    rw [gidToWireGid_eq]
    exact gidWords_flatMap (by simp) s old.v32
  have hgid : ∀ s, wireGidToGid e' (gidToWireGid e dest.gid ++ s) old.v32 = dest.gid := by
    intro s
    funext k
    have hk : k.val / 4 < 4 := by omega
    have hget : ((List.finRange 4).map (fun i => wordOf .big (gidWord dest.gid i))).getD
        (k.val / 4) 0 = wordOf .big (gidWord dest.gid ⟨k.val / 4, hk⟩) := by
      simp [List.getD, hk]
    simp only [wireGidToGid, hwords, hget, bytesOf_htonl, gidWord]
    exact congrArg dest.gid (Fin.ext (Nat.div_add_mod k.val 4))
  simp only [decode, scanRecord_encode, Option.getD_some, hgid]

theorem encode_eq_cstr (e : Endian) (dest : PingpongDest) :
    encode e dest = cstr (encode e dest) ++ [0] := by
  rw [cstr_encode]
  simp [encode]

/-- The text of a host's own record fills `msg`, comes back as the record on the other
host, and is the text of no other record. -/
structure RoundTrips (e e' : Endian) (old : Leftover) (dest : LocalDest) : Prop where
  characters : (cstr (encode e dest.toPingpongDest)).length = 51
  terminated : encode e dest.toPingpongDest = cstr (encode e dest.toPingpongDest) ++ [0]
  fills : (encode e dest.toPingpongDest).length = msgSize
  decoded : decode e' old (encode e dest.toPingpongDest) = dest.toPingpongDest
  unique : ∀ (e₁ : Endian) (other : LocalDest),
    encode e₁ other.toPingpongDest = encode e dest.toPingpongDest →
      other.toPingpongDest = dest.toPingpongDest

theorem record_round_trip (e e' : Endian) (old : Leftover) (dest : LocalDest) :
    RoundTrips e e' old dest where
  characters := by
    have hlen := encode_length e dest
    rw [encode_eq_cstr, List.length_append, List.length_singleton, msgSize] at hlen
    omega
  terminated := encode_eq_cstr e dest.toPingpongDest
  fills := encode_length e dest
  decoded := decode_encode e e' old dest.toPingpongDest
  unique := by
    intro e₁ other h
    calc other.toPingpongDest
      _ = decode e' old (encode e₁ other.toPingpongDest) := (decode_encode e₁ e' old _).symm
      _ = decode e' old (encode e dest.toPingpongDest) := by rw [h]
      _ = dest.toPingpongDest := decode_encode e e' old _

end Codec

end InfinibandWorkshop.Exchange
