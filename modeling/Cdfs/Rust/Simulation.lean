/-
Two calls side by side. The first may stop before it is through, by a
panic or for want of fuel; if it does not, it comes to what the second
comes to. Such a pair arises where the first build of a program checks
more than the second, where the first run has less fuel, and where the
two read their input through sources that answer alike.

`Upto` is the relation for calls without a state, `Sim` the one for
calls that pass a state on. Both are kept by sequencing: a stop
stops the caller, and the same outcome is handled in the same way.
-/
import Cdfs.Rust.Outcome
import Cdfs.Rust.Service

namespace Rust

variable {ε δ α β S S' U U' : Type}

/-- What ends a call before there is a result. -/
inductive Stop where
  | panic
  | running
  deriving DecidableEq, Repr

def Stop.outcome : Stop → Outcome ε α
  | .panic => .panic
  | .running => .running

variable {t : Stop}

namespace Stop

/-- A stop stops the caller. -/
@[simp] theorem bind_outcome (t : Stop) (f : α → Outcome ε β) :
    ((t.outcome : Outcome ε α) >>= f) = t.outcome := by
  cases t with
  | panic => rfl
  | running => rfl

@[simp] theorem map_outcome (t : Stop) (f : α → β) :
    (t.outcome : Outcome ε α).map f = t.outcome := by
  cases t with
  | panic => rfl
  | running => rfl

/-- There is no result. -/
theorem not_returned (t : Stop) :
    ¬ (t.outcome : Outcome ε α).Returned := by
  cases t with
  | panic => exact id
  | running => exact id

end Stop

-- ================================================= calls without a state

namespace Outcome

/-- The first call is stopped, or both come to the same. -/
def Upto (t : Stop) (x y : Outcome ε α) : Prop := x = t.outcome ∨ x = y

namespace Upto

theorem refl (x : Outcome ε α) : Upto t x x := Or.inr rfl

theorem stopped (y : Outcome ε α) : Upto t t.outcome y := Or.inl rfl

theorem trans {x y z : Outcome ε α} (h : Upto t x y) (h' : Upto t y z) :
    Upto t x z := by
  rcases h with h | h
  · exact Or.inl h
  · rw [h]
    exact h'

theorem bind {x y : Outcome ε α} {f g : α → Outcome ε β}
    (h : Upto t x y) (hfg : ∀ a, Upto t (f a) (g a)) :
    Upto t (x >>= f) (y >>= g) := by
  rcases h with h | h
  · rw [h, Stop.bind_outcome]
    exact stopped _
  · rw [h]
    cases y with
    | ok a => exact hfg a
    | err | panic | running => exact refl _

theorem map {x y : Outcome ε α} (h : Upto t x y) (f : α → β) :
    Upto t (x.map f) (y.map f) := by
  rcases h with h | h
  · rw [h, Stop.map_outcome]
    exact stopped _
  · rw [h]
    exact refl _

/-- A loop over a list, turn by turn. -/
theorem foldlM {f g : β → α → Outcome ε β}
    (h : ∀ b a, Upto t (f b a) (g b a)) (l : List α) :
    ∀ b, Upto t (l.foldlM f b) (l.foldlM g b) := by
  induction l with
  | nil => exact fun _ => refl _
  | cons a l ih =>
      intro b
      rw [List.foldlM_cons, List.foldlM_cons]
      exact (h b a).bind ih

end Upto

/-- An assertion that is compiled into the first build only. -/
theorem upto_assert {compiled compiled' : Bool}
    (h : compiled = compiled' ∨ t = .panic ∧ compiled' = false)
    (cond : Bool) :
    Upto t (assert compiled cond : Outcome ε Unit)
      (assert compiled' cond) := by
  rcases h with rfl | ⟨rfl, rfl⟩
  · exact .refl _
  · rcases assert_eq_ok_or_panic (ε := ε) compiled cond with h | h
    · rw [h]
      exact .refl _
    · rw [h]
      exact .stopped _

end Outcome

-- ================================================ fixed-width arithmetic

section Arithmetic

variable {checks checks' : Bool}

/-- What is computed at a fixed width: a value, or a panic in a build
with overflow checks and the wrapped value in one without. -/
theorem upto_checked
    (h : checks = checks' ∨ t = .panic ∧ checks' = false)
    (fits : Prop) [Decidable fits] (exact wrapped : α) :
    Outcome.Upto t
      (if fits then .ok exact else if checks then .panic else .ok wrapped :
        Outcome ε α)
      (if fits then .ok exact else if checks' then .panic else .ok wrapped)
        := by
  by_cases hfits : fits
  · simp only [if_pos hfits]
    exact .refl _
  · simp only [if_neg hfits]
    rcases h with rfl | ⟨rfl, rfl⟩
    · exact .refl _
    · cases checks with
      | true => exact .stopped _
      | false => exact .refl _

theorem upto_addW (h : checks = checks' ∨ t = .panic ∧ checks' = false)
    (w a b : Nat) :
    Outcome.Upto t (addW w checks a b : Outcome ε Nat)
      (addW w checks' a b) :=
  upto_checked h _ _ _

theorem upto_subW (h : checks = checks' ∨ t = .panic ∧ checks' = false)
    (w a b : Nat) :
    Outcome.Upto t (subW w checks a b : Outcome ε Nat)
      (subW w checks' a b) :=
  upto_checked h _ _ _

theorem upto_mulW (h : checks = checks' ∨ t = .panic ∧ checks' = false)
    (w a b : Nat) :
    Outcome.Upto t (mulW w checks a b : Outcome ε Nat)
      (mulW w checks' a b) :=
  upto_checked h _ _ _

theorem upto_addI64 (h : checks = checks' ∨ t = .panic ∧ checks' = false)
    (a b : Int) :
    Outcome.Upto t (addI64 checks a b : Outcome ε Int)
      (addI64 checks' a b) :=
  upto_checked h _ _ _

end Arithmetic

-- ==================================================== calls with a state

/-- The first call is stopped, or both come to the same and leave related
states. -/
def Sim (t : Stop) (R : S → S' → Prop) (r : Outcome ε α × S)
    (r' : Outcome ε α × S') : Prop :=
  r.1 = t.outcome ∨ r.1 = r'.1 ∧ R r.2 r'.2

namespace Sim

variable {R : S → S' → Prop} {Q : U → U' → Prop}

theorem done {s : S} {s' : S'} (h : R s s') (x : Outcome ε α) :
    Sim t R (x, s) (x, s') :=
  Or.inr ⟨rfl, h⟩

/-- An outcome without a state, beside states that are related. -/
theorem of_upto {x y : Outcome ε α} {s : S} {s' : S'} (h : x.Upto t y)
    (hs : R s s') : Sim t R (x, s) (y, s') := by
  rcases h with h | h
  · exact Or.inl h
  · rw [h]
    exact done hs y

/-- The first call is stopped, or there is one outcome for both. -/
theorem cases {r : Outcome ε α × S} {r' : Outcome ε α × S'}
    (h : Sim t R r r') :
    (∃ s, r = (t.outcome, s))
      ∨ ∃ x s s', r = (x, s) ∧ r' = (x, s') ∧ R s s' := by
  obtain ⟨x, s⟩ := r
  obtain ⟨x', s'⟩ := r'
  rcases h with h | ⟨h, hs⟩
  · exact Or.inl ⟨s, by rw [show x = t.outcome from h]⟩
  · exact Or.inr ⟨x', s, s', by rw [show x = x' from h], rfl, hs⟩

/-- A result is that of the second call, too. -/
theorem of_returned {r : Outcome ε α × S} {r' : Outcome ε α × S'}
    (h : Sim t R r r') (hr : r.1.Returned) : r'.1 = r.1 ∧ R r.2 r'.2 := by
  rcases h with h | ⟨h, hs⟩
  · rw [h] at hr
    exact absurd hr t.not_returned
  · exact ⟨h.symm, hs⟩

end Sim

-- ============================================================ services

section Services

open Service

variable {Req Rep : Type} {handle : S → Req → Outcome ε Rep × S}
  {handle' : S' → Req → Outcome ε Rep × S'} {R : S → S' → Prop}

/-- A run of requests that were all answered is one of the second
service, with the same answers. -/
theorem Service.Run.simulate
    (hstep : ∀ s s' q, R s s' → Sim t R (handle s q) (handle' s' q))
    {s₀ s : S} {s₀' : S'} (h₀ : R s₀ s₀')
    {log : List (Req × Outcome ε Rep)}
    (h : Run handle (fun _ _ => True) s₀ log s) :
    ∃ s', Run handle' (fun _ _ => True) s₀' log s' ∧ R s s' := by
  induction h with
  | start => exact ⟨s₀', .start, h₀⟩
  | serve q _ _ hreturned ih =>
      obtain ⟨s', hrun, hs⟩ := ih
      obtain ⟨heq, hs'⟩ := (hstep _ s' q hs).of_returned hreturned
      have hnext := hrun.serve q trivial (by
        rw [heq]
        exact hreturned)
      rw [heq] at hnext
      exact ⟨_, hnext, hs'⟩

end Services

end Rust
