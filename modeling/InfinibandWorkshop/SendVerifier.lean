import InfinibandWorkshop.EchoBuffer
import InfinibandWorkshop.Loops

/-!
# What `sendVerifier` reports

`sendVerifier` of NonBlockingTcpServer.cpp repeats `send` until all is taken or a call
fails, and then goes by what its local `n` holds. Nothing is stored there before the
first call, and there may be none: the length that `main` passes is taken from the
contents of its buffer and is 0 for a chunk that starts with a NUL byte.
-/
namespace InfinibandWorkshop.EchoBuffer
open CText (Byte)

/-- The results of the calls of `send`: `none` for -1, or a part of what is asked for. -/
structure SendCalls where
  result : ℕ → ℕ → Option ℕ
  bounds : ∀ call asked k, 0 < asked → result call asked = some k → 0 < k ∧ k ≤ asked

/-- The locals of `sendVerifier`, with the number of calls made and the bytes that they
have taken. -/
structure Sending where
  call : ℕ
  total : ℕ
  bytesleft : ℕ
  n : ℤ
  sent : List Byte

def Sending.start (len : ℕ) (n : ℤ) : Sending := ⟨0, 0, len, n, []⟩

/-- The loop of `sendVerifier` without a bound on its turns. -/
def verifierLoop (send : ℕ → ℕ → Option ℕ) (mem : ℕ → Byte) (len : ℕ) : Loop Sending Sending where
  turn v :=
    if v.total < len then
      match send v.call v.bytesleft with
      | none => .inr { v with n := -1 }
      | some k =>
        .inl ⟨v.call + 1, v.total + k, v.bytesleft - k, k, v.sent ++ slice mem v.total k⟩
    else .inr v

section Turns

variable {calls : SendCalls} {mem : ℕ → Byte} {len : ℕ} {n : ℤ} {v w : Sending}

/-- The counters are in step with the bytes taken, and `n` is the last result once
there is one. -/
structure Sending.InStep (mem : ℕ → Byte) (len : ℕ) (n : ℤ) (v : Sending) : Prop where
  split : v.total + v.bytesleft = len
  sent : v.sent = slice mem 0 v.total
  result : 0 < v.total ∧ 0 ≤ v.n ∨ v.total = 0 ∧ v.n = n

theorem inStep_start : (Sending.start len n).InStep mem len n where
  split := Nat.zero_add len
  sent := rfl
  result := Or.inr ⟨rfl, rfl⟩

/-- A turn that goes on has made a call that took something. -/
theorem turn_again (hturn : (verifierLoop calls.result mem len).turn v = .inl w)
    (hsplit : v.total + v.bytesleft = len) :
    ∃ k, 0 < k ∧ k ≤ v.bytesleft ∧ v.total < len ∧ calls.result v.call v.bytesleft = some k ∧
      w = ⟨v.call + 1, v.total + k, v.bytesleft - k, k, v.sent ++ slice mem v.total k⟩ := by
  simp only [verifierLoop] at hturn
  split_ifs at hturn with hlt
  cases hcall : calls.result v.call v.bytesleft with
  | none =>
    rw [hcall] at hturn
    cases hturn
  | some k =>
    rw [hcall] at hturn
    obtain ⟨hpos, hle⟩ := calls.bounds _ _ _ (by omega) hcall
    exact ⟨k, hpos, hle, hlt, rfl, (Sum.inl.inj hturn).symm⟩

/-- The loop is left by a call that fails or when everything has been taken. -/
theorem turn_done (hturn : (verifierLoop calls.result mem len).turn v = .inr w) :
    v.total < len ∧ calls.result v.call v.bytesleft = none ∧ w = { v with n := -1 } ∨
      len ≤ v.total ∧ w = v := by
  simp only [verifierLoop] at hturn
  split_ifs at hturn with hlt
  · cases hcall : calls.result v.call v.bytesleft with
    | none =>
      rw [hcall] at hturn
      exact Or.inl ⟨hlt, rfl, (Sum.inr.inj hturn).symm⟩
    | some k =>
      rw [hcall] at hturn
      cases hturn
  · exact Or.inr ⟨not_lt.mp hlt, (Sum.inr.inj hturn).symm⟩

theorem inStep_again (hv : v.InStep mem len n)
    (hturn : (verifierLoop calls.result mem len).turn v = .inl w) :
    w.InStep mem len n ∧ w.bytesleft < v.bytesleft := by
  obtain ⟨k, hpos, hle, -, -, rfl⟩ := turn_again hturn hv.split
  have hsplit := hv.split
  refine ⟨⟨?_, ?_, Or.inl ⟨?_, Int.natCast_nonneg k⟩⟩, ?_⟩
  · show v.total + k + (v.bytesleft - k) = len
    omega
  · show v.sent ++ slice mem v.total k = slice mem 0 (v.total + k)
    rw [hv.sent, ← slice_append, Nat.zero_add]
  · exact Nat.add_pos_right _ hpos
  · exact Nat.sub_lt (by omega) hpos

/-- Where the loop is left, it has handed over a beginning of the buffer. -/
theorem inStep_leaves (h : (verifierLoop calls.result mem len).Leaves (.start len n) w) :
    w.sent = slice mem 0 w.total ∧
      (w.total < len ∧ w.n = -1 ∨ w.total = len ∧ (0 < len ∧ 0 ≤ w.n ∨ len = 0 ∧ w.n = n)) := by
  obtain ⟨v, hv, hturn⟩ := h.invariant inStep_start (fun u u' hu hturn => (inStep_again hu hturn).1)
  have hsplit := hv.split
  rcases turn_done hturn with ⟨hlt, -, rfl⟩ | ⟨hle, rfl⟩
  · exact ⟨hv.sent, Or.inl ⟨hlt, rfl⟩⟩
  · have htotal : w.total = len := by omega
    have hresult := hv.result
    rw [htotal] at hresult
    exact ⟨hv.sent, Or.inr ⟨htotal, hresult⟩⟩

/-- `sendLoop`, which is given as many turns as there are bytes, computes what the loop
is left with. -/
theorem sendLoop_of_leaves {fuel : ℕ} (h : (verifierLoop calls.result mem len).Leaves v w)
    (hsplit : v.total + v.bytesleft = len) (hfuel : v.bytesleft ≤ fuel) :
    v.sent ++ (sendLoop calls.result mem len fuel v.call v.total v.bytesleft v.n).1 = w.sent ∧
      (sendLoop calls.result mem len fuel v.call v.total v.bytesleft v.n).2 = w.n := by
  induction fuel generalizing v with
  | zero =>
    have hturn : (verifierLoop calls.result mem len).turn v = .inr v := by
      simp only [verifierLoop]
      rw [if_neg (by omega)]
    obtain rfl := (Loop.leaves_done hturn).mp h
    exact ⟨List.append_nil _, rfl⟩
  | succ fuel ih =>
    cases hturn : (verifierLoop calls.result mem len).turn v with
    | inl u =>
      obtain ⟨k, hpos, hle, hlt, hcall, rfl⟩ := turn_again hturn hsplit
      have hrest := ih ((Loop.leaves_again hturn).mp h) (by simp only; omega) (by simp only; omega)
      rw [List.append_assoc] at hrest
      rw [sendLoop, if_pos hlt, hcall]
      exact hrest
    | inr u =>
      obtain rfl := (Loop.leaves_done hturn).mp h
      rcases turn_done hturn with ⟨hlt, hcall, rfl⟩ | ⟨hle, rfl⟩
      · rw [sendLoop, if_pos hlt, hcall]
        exact ⟨List.append_nil _, rfl⟩
      · rw [sendLoop, if_neg (not_lt.mpr hle)]
        exact ⟨List.append_nil _, rfl⟩

end Turns

section Reporting

variable (calls : SendCalls) (mem : ℕ → Byte) (len : ℕ) (n : ℤ)

/-- `sendVerifier` comes to an end, what was taken is a beginning of the bytes that it
was given, and it returns 0 when that is all of them and -1 otherwise. -/
structure Reports : Prop where
  terminates : ∃ w, (verifierLoop calls.result mem len).Leaves (.start len n) w ∧
    sendVerifier calls.result mem len n = (w.sent, if w.n = -1 then -1 else 0)
  taken : (sendVerifier calls.result mem len n).1 <+: slice mem 0 len
  succeeds : (sendVerifier calls.result mem len n).2 = 0 ↔
    (sendVerifier calls.result mem len n).1 = slice mem 0 len
  fails : (sendVerifier calls.result mem len n).2 = -1 ↔
    (sendVerifier calls.result mem len n).1 ≠ slice mem 0 len

/-- Every call that does not fail takes a byte, so the loop is left. -/
theorem sendVerifier_terminates :
    ∃ w, (verifierLoop calls.result mem len).Leaves (.start len n) w ∧
      sendVerifier calls.result mem len n = (w.sent, if w.n = -1 then -1 else 0) := by
  obtain ⟨w, hrun⟩ := Loop.exists_run (L := verifierLoop calls.result mem len)
    Sending.bytesleft (inStep_start (n := n)) (fun u u' hu hturn => inStep_again hu hturn)
  have hleaves : (verifierLoop calls.result mem len).Leaves (.start len n) w := ⟨_, hrun⟩
  obtain ⟨hsent, hn⟩ := sendLoop_of_leaves hleaves (Nat.zero_add len) (le_refl len)
  exact ⟨w, hleaves, Prod.ext hsent (by simp only [← hn, sendVerifier, Sending.start])⟩

variable {mem len}

theorem slice_prefix {k : ℕ} (h : k ≤ len) : slice mem 0 k <+: slice mem 0 len := by
  obtain ⟨m, rfl⟩ := Nat.exists_eq_add_of_le h
  exact ⟨slice mem (0 + k) m, slice_append mem 0 k m⟩

theorem slice_eq_iff {k : ℕ} : slice mem 0 k = slice mem 0 len ↔ k = len := by
  constructor
  · intro h
    have hlength := congrArg List.length h
    rwa [slice_length, slice_length] at hlength
  · rintro rfl
    rfl

end Reporting

/-- The report is right exactly when a byte is to be sent, so that `send` is called at
all, or what happens to be in `n` is not -1. -/
theorem sendVerifier_reports_iff (calls : SendCalls) (mem : ℕ → Byte) (len : ℕ) (n : ℤ) :
    Reports calls mem len n ↔ 0 < len ∨ n ≠ -1 := by
  obtain ⟨w, hleaves, hreturn⟩ := sendVerifier_terminates calls mem len n
  obtain ⟨hsent, hexit⟩ := inStep_leaves hleaves
  constructor
  · intro h
    by_contra hnone
    obtain ⟨hlen, hn⟩ := not_or.mp hnone
    have hn := not_not.mp hn
    -- no call is made: all of nothing is taken, and -1 is returned
    rcases hexit with ⟨hlt, -⟩ | ⟨htotal, ⟨hpos, -⟩ | ⟨-, hw⟩⟩
    · omega
    · exact hlen hpos
    · have hsucceeds := h.succeeds
      rw [hreturn, hsent, htotal, hw, hn] at hsucceeds
      have hzero := hsucceeds.mpr rfl
      simp only [if_true] at hzero
      omega
  · intro hcond
    have hall : (if w.n = -1 then (-1 : ℤ) else 0) = 0 ↔ w.total = len := by
      rcases hexit with ⟨hlt, hw⟩ | ⟨htotal, ⟨hpos, hw⟩ | ⟨hzero, hw⟩⟩
      · rw [if_pos hw]
        omega
      · rw [if_neg (by omega)]
        exact iff_of_true rfl htotal
      · rw [hw, if_neg (hcond.resolve_left (by omega))]
        exact iff_of_true rfl htotal
    have hle : w.total ≤ len := by omega
    refine ⟨⟨w, hleaves, hreturn⟩, ?_, ?_, ?_⟩
    · rw [hreturn, hsent]
      exact slice_prefix hle
    · rw [hreturn, hsent]
      exact hall.trans slice_eq_iff.symm
    · rw [hreturn, hsent, Ne, slice_eq_iff, ← hall]
      by_cases hw : w.n = -1
      · rw [if_pos hw]
        exact iff_of_true rfl (by omega)
      · rw [if_neg hw]
        exact iff_of_false (by omega) (not_not.mpr rfl)

/-- Nothing is asked for, and what the stack has left in `n` is -1. -/
theorem nothing_reported_failed :
    ¬ ∀ (calls : SendCalls) (mem : ℕ → Byte) (len : ℕ) (n : ℤ), Reports calls mem len n := by
  intro h
  have hreports := h ⟨fun _ asked => some asked, fun _ asked k hpos hk => by
    obtain rfl := Option.some.inj hk
    exact ⟨hpos, le_rfl⟩⟩ (fun _ => 0) 0 (-1)
  have hzero : (-1 : ℤ) = 0 := hreports.succeeds.mpr rfl
  omega

end InfinibandWorkshop.EchoBuffer
