import Mathlib.Data.List.Basic
import Mathlib.Order.Nat

/-!
# Programs followed along the calls they make

A program asks its surroundings for one answer after another and may return early. It is
followed along a trace of answers: each question takes the next one, and a program whose
trace is used up is still in a call. A rule for each construct tells when an early return
and a failed call are the same thing.
-/
namespace InfinibandWorkshop

/-- Where a program stands after a trace: it goes on with a value, or has returned, and
some answers are left; or it is in a call; or the trace is not one of this program. -/
inductive Followed (ε ρ α : Type) where
  | done (a : α) (rest : List ε)
  | returned (r : ρ) (rest : List ε)
  | waiting
  | strayed

/-- Every answer of the trace was asked for. -/
def Followed.Whole {ε ρ α : Type} : Followed ε ρ α → Prop
  | done _ rest | returned _ rest => rest = []
  | waiting => True
  | strayed => False

def Calls (ε ρ α : Type) : Type := List ε → Followed ε ρ α

namespace Calls

variable {ε ρ σ α β : Type}

instance : Monad (Calls ε ρ) where
  pure a := fun as => .done a as
  bind x f := fun as =>
    match x as with
    | .done a rest => f a rest
    | .returned r rest => .returned r rest
    | .waiting => .waiting
    | .strayed => .strayed

/-- Return early. -/
def ret (r : ρ) : Calls ε ρ α := fun as => .returned r as

/-- A call, with the answers that it can have. -/
def ask (answer : ε → Option α) : Calls ε ρ α
  | [] => .waiting
  | e :: as =>
    match answer e with
    | some a => .done a as
    | none => .strayed

/-- `if (!ok) return r`. -/
def require (ok : Bool) (r : ρ) : Calls ε ρ Unit := if ok then pure () else ret r

/-- At most this many turns of a loop. -/
def turns (again : σ → Bool) (body : σ → Calls ε ρ σ) : ℕ → σ → Calls ε ρ σ
  | 0, _ => fun _ => .strayed
  | fuel + 1, s => if again s then body s >>= turns again body fuel else pure s

/-- A `while` loop. A body that asks something takes no more turns than there are answers. -/
def loop (again : σ → Bool) (body : σ → Calls ε ρ σ) (s : σ) : Calls ε ρ σ :=
  fun as => turns again body (as.length + 1) s as

section Equations

variable {x : Calls ε ρ α} {f : α → Calls ε ρ β} {as rest : List ε} {r : ρ} {b : β}

theorem bind_of_done {a : α} (h : x as = .done a rest) : (x >>= f) as = f a rest := by
  simp only [bind, h]

theorem bind_eq_done : (x >>= f) as = .done b rest ↔
    ∃ a mid, x as = .done a mid ∧ f a mid = .done b rest := by
  cases hx : x as with
  | done a mid => simp [bind, hx]
  | _ => simp [bind, hx]

theorem bind_eq_returned : (x >>= f) as = .returned r rest ↔
    x as = .returned r rest ∨ ∃ a mid, x as = .done a mid ∧ f a mid = .returned r rest := by
  cases hx : x as with
  | done a mid => simp [bind, hx]
  | _ => simp [bind, hx]

theorem bind_congr_of {g : α → Calls ε ρ β}
    (h : ∀ a rest, x as = .done a rest → f a rest = g a rest) : (x >>= f) as = (x >>= g) as := by
  cases hx : x as with
  | done a rest => rw [bind_of_done hx, bind_of_done hx, h a rest hx]
  | _ => simp only [bind, hx]

theorem ret_bind (r : ρ) (f : α → Calls ε ρ β) : (ret r : Calls ε ρ α) >>= f = ret r := rfl

theorem require_bind_of {ok : Bool} (h : ok = true) (r : ρ) (f : Unit → Calls ε ρ β) :
    require ok r >>= f = f () := by
  rw [h]
  rfl

theorem require_bind_of_not {ok : Bool} (h : ok = false) (r : ρ) (f : Unit → Calls ε ρ β) :
    require ok r >>= f = ret r := by
  rw [h]
  rfl

theorem ask_eq_done {answer : ε → Option α} {a : α} :
    ask (ρ := ρ) answer as = .done a rest ↔ ∃ e, as = e :: rest ∧ answer e = some a := by
  cases as with
  | nil => simp [ask]
  | cons e as =>
    cases he : answer e with
    | none => simp [ask, he]
    | some b => simp [ask, he, and_comm]

theorem ask_ne_returned {answer : ε → Option α} :
    ask (ρ := ρ) answer as ≠ .returned r rest := by
  cases as with
  | nil => simp [ask]
  | cons e as => cases he : answer e <;> simp [ask, he]

end Equations

section Ends

variable {x : Calls ε ρ α} {f : α → Calls ε ρ β} {Q : β → Prop}

/-- Where the program goes on, it is with such a value. -/
def Ends (x : Calls ε ρ β) (Q : β → Prop) : Prop := ∀ as b rest, x as = .done b rest → Q b

theorem ends_pure {b : β} (h : Q b) : Ends (pure b : Calls ε ρ β) Q := by
  intro as b' rest hdone
  cases hdone
  exact h

theorem Ends.bind {P : α → Prop} (hx : Ends x P) (hf : ∀ a, P a → Ends (f a) Q) :
    Ends (x >>= f) Q := by
  intro as b rest hdone
  obtain ⟨a, mid, ha, hb⟩ := bind_eq_done.mp hdone
  exact hf a (hx as a mid ha) mid b rest hb

theorem ends_bind (hf : ∀ a, Ends (f a) Q) : Ends (x >>= f) Q := by
  have hx : Ends x (fun _ => True) := fun _ _ _ _ => trivial
  exact hx.bind (fun a _ => hf a)

end Ends

section Loops

variable {again : σ → Bool} {body : σ → Calls ε ρ σ} {x : Calls ε ρ α} {f : α → Calls ε ρ β}

/-- Where the program goes on, answers have been taken. -/
def Consumes (x : Calls ε ρ α) : Prop :=
  ∀ as a rest, x as = .done a rest → rest.length < as.length

/-- And none have been added. -/
def Keeps (x : Calls ε ρ α) : Prop :=
  ∀ as a rest, x as = .done a rest → rest.length ≤ as.length

theorem keeps_pure (a : α) : Keeps (pure a : Calls ε ρ α) := by
  intro as b rest h
  cases h
  exact le_rfl

theorem keeps_ret (r : ρ) : Keeps (ret r : Calls ε ρ α) := by
  intro as a rest h
  cases h

theorem consumes_ask (answer : ε → Option α) : Consumes (ask (ρ := ρ) answer) := by
  intro as a rest h
  obtain ⟨e, rfl, -⟩ := ask_eq_done.mp h
  exact Nat.lt_succ_self _

theorem Consumes.keeps (h : Consumes x) : Keeps x := fun as a rest hdone => (h as a rest hdone).le

theorem Keeps.bind (hx : Keeps x) (hf : ∀ a, Keeps (f a)) : Keeps (x >>= f) := by
  intro as b rest h
  obtain ⟨a, mid, ha, hb⟩ := bind_eq_done.mp h
  exact (hf a mid b rest hb).trans (hx as a mid ha)

theorem Consumes.bind (hx : Consumes x) (hf : ∀ a, Keeps (f a)) : Consumes (x >>= f) := by
  intro as b rest h
  obtain ⟨a, mid, ha, hb⟩ := bind_eq_done.mp h
  exact (hf a mid b rest hb).trans_lt (hx as a mid ha)

theorem keeps_turns (h : ∀ s, Keeps (body s)) (fuel : ℕ) (s : σ) :
    Keeps (turns again body fuel s) := by
  induction fuel generalizing s with
  | zero =>
    intro as a rest hdone
    cases hdone
  | succ fuel ih =>
    rw [turns]
    split_ifs
    · exact (h s).bind ih
    · exact keeps_pure s

theorem keeps_loop (h : ∀ s, Keeps (body s)) (s : σ) : Keeps (loop again body s) :=
  fun as => keeps_turns h (as.length + 1) s as

theorem turns_again {s : σ} (h : again s = true) (fuel : ℕ) :
    turns again body (fuel + 1) s = body s >>= turns again body fuel := if_pos h

theorem turns_left {s : σ} (h : ¬ again s = true) (fuel : ℕ) :
    turns again body (fuel + 1) s = pure s := if_neg h

theorem turns_congr (h : ∀ s, Consumes (body s)) {fuel fuel' : ℕ} {s : σ} {as : List ε}
    (hlt : as.length < fuel) (hlt' : as.length < fuel') :
    turns again body fuel s as = turns again body fuel' s as := by
  induction fuel generalizing fuel' s as with
  | zero => omega
  | succ fuel ih =>
    cases fuel' with
    | zero => omega
    | succ fuel' =>
      by_cases hagain : again s = true
      · rw [turns_again hagain, turns_again hagain]
        apply bind_congr_of
        intro s' rest hbody
        have hless := h s as s' rest hbody
        exact ih (by omega) (by omega)
      · rw [turns_left hagain, turns_left hagain]

/-- The bound on the turns of a loop is never reached. -/
theorem loop_eq (h : ∀ s, Consumes (body s)) (s : σ) :
    loop again body s = if again s then body s >>= loop again body else pure s := by
  funext as
  by_cases hagain : again s = true
  · rw [loop, turns_again hagain, if_pos hagain]
    apply bind_congr_of
    intro s' rest hbody
    have hless := h s as s' rest hbody
    exact turns_congr h hless (Nat.lt_succ_self _)
  · rw [loop, turns_left hagain, if_neg hagain]

end Loops

section Honesty

variable {failed : ε → Prop} {code : ρ → Prop}

/-- As long as the program goes on, no call has failed; it returns early, with a code,
when one has. -/
structure Honest (failed : ε → Prop) (code : ρ → Prop) (x : Calls ε ρ α) : Prop where
  done : ∀ as a rest, x as = .done a rest →
    ∃ used, as = used ++ rest ∧ ∀ e ∈ used, ¬ failed e
  returned : ∀ as r rest, x as = .returned r rest →
    code r ∧ ∃ used, as = used ++ rest ∧ ∃ e ∈ used, failed e

theorem honest_pure (a : α) : Honest failed code (pure a : Calls ε ρ α) where
  done := by
    intro as b rest h
    cases h
    exact ⟨[], rfl, fun e he => absurd he List.not_mem_nil⟩
  returned := by
    intro as r rest h
    cases h

theorem honest_strayed : Honest failed code (fun _ => .strayed : Calls ε ρ α) where
  done := by
    intro as a rest h
    cases h
  returned := by
    intro as r rest h
    cases h

/-- The sequence rule. The first part may itself go on after a failed call, if the second
one then returns at once. -/
theorem honest_bind_of {x : Calls ε ρ α} {f : α → Calls ε ρ β}
    (hreturned : ∀ as r rest, x as = .returned r rest →
      code r ∧ ∃ used, as = used ++ rest ∧ ∃ e ∈ used, failed e)
    (hdone : ∀ as a rest, x as = .done a rest → ∃ used, as = used ++ rest ∧
      ((∀ e ∈ used, ¬ failed e) ∧ Honest failed code (f a) ∨
        (∃ e ∈ used, failed e) ∧ ∃ r, code r ∧ f a = ret r)) :
    Honest failed code (x >>= f) where
  done := by
    intro as b rest h
    obtain ⟨a, mid, hx, hf⟩ := bind_eq_done.mp h
    obtain ⟨used, rfl, hgood | hbad⟩ := hdone as a mid hx
    · obtain ⟨hused, hhonest⟩ := hgood
      obtain ⟨used', rfl, hused'⟩ := hhonest.done mid b rest hf
      refine ⟨used ++ used', (List.append_assoc _ _ _).symm, ?_⟩
      intro e he
      rcases List.mem_append.mp he with he | he
      · exact hused e he
      · exact hused' e he
    · obtain ⟨-, r, -, hret⟩ := hbad
      rw [hret] at hf
      cases hf
  returned := by
    intro as r rest h
    rcases bind_eq_returned.mp h with hx | ⟨a, mid, hx, hf⟩
    · exact hreturned as r rest hx
    · obtain ⟨used, rfl, hgood | hbad⟩ := hdone as a mid hx
      · obtain ⟨-, hhonest⟩ := hgood
        obtain ⟨hcode, used', rfl, e, he, hfailed⟩ := hhonest.returned mid r rest hf
        exact ⟨hcode, used ++ used', (List.append_assoc _ _ _).symm, e,
          List.mem_append_right used he, hfailed⟩
      · obtain ⟨hfailed, r', hcode, hret⟩ := hbad
        rw [hret] at hf
        cases hf
        exact ⟨hcode, used, rfl, hfailed⟩

theorem Honest.bind {x : Calls ε ρ α} {f : α → Calls ε ρ β} (hx : Honest failed code x)
    (hf : ∀ a, Honest failed code (f a)) : Honest failed code (x >>= f) := by
  apply honest_bind_of hx.returned
  intro as a rest hdone
  obtain ⟨used, hused, hgood⟩ := hx.done as a rest hdone
  exact ⟨used, hused, Or.inl ⟨hgood, hf a⟩⟩

/-- A call whose failure is looked at next. -/
theorem honest_ask_bind {answer : ε → Option α} {f : α → Calls ε ρ β}
    (h : ∀ e a, answer e = some a → ¬ failed e ∧ Honest failed code (f a) ∨
      failed e ∧ ∃ r, code r ∧ f a = ret r) : Honest failed code (ask answer >>= f) := by
  apply honest_bind_of (fun as r rest h => absurd h ask_ne_returned)
  intro as a rest hdone
  obtain ⟨e, rfl, hanswer⟩ := ask_eq_done.mp hdone
  refine ⟨[e], rfl, (h e a hanswer).imp ?_ ?_⟩
  · exact fun hgood => ⟨List.forall_mem_singleton.mpr hgood.1, hgood.2⟩
  · exact fun hbad => ⟨⟨e, List.mem_singleton_self e, hbad.1⟩, hbad.2⟩

theorem honest_turns {again : σ → Bool} {body : σ → Calls ε ρ σ}
    (h : ∀ s, Honest failed code (body s)) (fuel : ℕ) (s : σ) :
    Honest failed code (turns again body fuel s) := by
  induction fuel generalizing s with
  | zero => exact honest_strayed
  | succ fuel ih =>
    rw [turns]
    split_ifs
    · exact (h s).bind ih
    · exact honest_pure s

theorem honest_loop {again : σ → Bool} {body : σ → Calls ε ρ σ}
    (h : ∀ s, Honest failed code (body s)) (s : σ) : Honest failed code (loop again body s) where
  done := fun as => (honest_turns h (as.length + 1) s).done as
  returned := fun as => (honest_turns h (as.length + 1) s).returned as

/-- On a whole trace, an honest program goes on to its end exactly when no call fails. -/
theorem Honest.done_of_whole {x : Calls ε ρ α} (h : Honest failed code x) {as rest : List ε}
    {a : α} (hdone : x as = .done a rest) (hwhole : (x as).Whole) : ∀ e ∈ as, ¬ failed e := by
  obtain ⟨used, hused, hgood⟩ := h.done as a rest hdone
  rw [hdone] at hwhole
  obtain rfl : rest = [] := hwhole
  rw [hused, List.append_nil]
  exact hgood

theorem Honest.returned_of_whole {x : Calls ε ρ α} (h : Honest failed code x) {as rest : List ε}
    {r : ρ} (hreturned : x as = .returned r rest) (hwhole : (x as).Whole) :
    code r ∧ ∃ e ∈ as, failed e := by
  obtain ⟨hcode, used, hused, hbad⟩ := h.returned as r rest hreturned
  rw [hreturned] at hwhole
  obtain rfl : rest = [] := hwhole
  rw [hused, List.append_nil]
  exact ⟨hcode, hbad⟩

/-- An honest program puts no answers back. -/
theorem Honest.keeps {x : Calls ε ρ α} (h : Honest failed code x) : Keeps x := by
  intro as a rest hdone
  obtain ⟨used, rfl, -⟩ := h.done as a rest hdone
  rw [List.length_append]
  exact Nat.le_add_left _ _

end Honesty

end Calls

end InfinibandWorkshop
