/-
A service handles one request after the other: what it answers and the
state behind it are a function of the request and of the state before.
A run is a sequence of requests that were all answered; a request that
panics ends the process, so there is no run behind it.

The log of a run has the latest request first. `Run.inv` is the
induction over runs.
-/
import Cdfs.Rust.Outcome

namespace Rust.Service

variable {ε S Q R : Type} {handle : S → Q → Outcome ε R × S}
  {Meets : S → Q → Prop} {s₀ s : S} {log : List (Q × Outcome ε R)}

/-- The runs from a state whose requests all meet a condition: what was
asked and answered, and the state that it led to. -/
inductive Run (handle : S → Q → Outcome ε R × S) (Meets : S → Q → Prop)
    (s₀ : S) : List (Q × Outcome ε R) → S → Prop
  | start : Run handle Meets s₀ [] s₀
  | serve {log : List (Q × Outcome ε R)} {s : S} (q : Q) :
      Run handle Meets s₀ log s → Meets s q → (handle s q).1.Returned →
      Run handle Meets s₀ ((q, (handle s q).1) :: log) (handle s q).2

/-- What holds at first and is kept by every request holds after every
run. -/
theorem Run.inv {I : S → Prop} (h : Run handle Meets s₀ log s)
    (h₀ : I s₀)
    (hstep : ∀ s q, I s → Meets s q → (handle s q).1.Returned →
      I (handle s q).2) : I s := by
  induction h with
  | start => exact h₀
  | serve q _ hmeets hreturned ih => exact hstep _ q ih hmeets hreturned

/-- What was asked decides where a run leads to. -/
theorem Run.unique {s' : S} (h : Run handle Meets s₀ log s)
    (h' : Run handle Meets s₀ log s') : s = s' := by
  induction h generalizing s' with
  | start =>
      cases h'
      rfl
  | @serve log s q _ _ _ ih =>
      generalize hlog : (q, (handle s q).1) :: log = log' at h'
      cases h' with
      | start => cases hlog
      | serve q' h' =>
          injection hlog with hstep hlog
          injection hstep with hq
          subst hq hlog
          rw [ih h']

-- ====================================================== steps of a run

/-- Something holds of each request of a run, with the log and the state
that it is handled in. -/
def EachStep (handle : S → Q → Outcome ε R × S) (Meets : S → Q → Prop)
    (s₀ : S) (P : List (Q × Outcome ε R) → S → Q → Prop)
    (log : List (Q × Outcome ε R)) : Prop :=
  ∀ early s q a, (q, a) :: early <:+ log → Run handle Meets s₀ early s →
    P early s q

variable {P : List (Q × Outcome ε R) → S → Q → Prop}

theorem EachStep.nil : EachStep handle Meets s₀ P [] := by
  intro early s q a hsuffix
  cases List.suffix_nil.mp hsuffix

/-- The last request of a run, and those before. -/
theorem eachStep_cons {q : Q} {a : Outcome ε R}
    (h : Run handle Meets s₀ log s) :
    EachStep handle Meets s₀ P ((q, a) :: log)
      ↔ P log s q ∧ EachStep handle Meets s₀ P log := by
  constructor
  · intro hall
    exact ⟨hall log s q a (List.suffix_refl _) h, fun early s' q' a' hsuffix =>
      hall early s' q' a' (hsuffix.trans (List.suffix_cons _ _))⟩
  · rintro ⟨hlast, hall⟩ early s' q' a' hsuffix hrun
    rcases List.suffix_cons_iff.mp hsuffix with heq | hsuffix
    · injection heq with hstep hearly
      injection hstep with hq
      subst hq hearly
      rw [hrun.unique h]
      exact hlast
    · exact hall early s' q' a' hsuffix hrun

-- ============================================== each of some requests

/-- Something holds of each of some requests in the state that it is
handled in, up to one that is not answered. -/
def Each (handle : S → Q → Outcome ε R × S) (P : S → Q → Prop) :
    S → List Q → Prop
  | _, [] => True
  | s, q :: qs =>
      P s q ∧ ((handle s q).1.Returned → Each handle P (handle s q).2 qs)

/-- What is equivalent for one request is so for each. -/
theorem Each.iff {L P P' : S → Q → Prop}
    (h : ∀ s q, L s q → (P s q ↔ P' s q)) (qs : List Q) :
    ∀ s, Each handle L s qs → (Each handle P s qs ↔ Each handle P' s qs) := by
  induction qs with
  | nil => exact fun _ _ => Iff.rfl
  | cons q qs ih =>
      rintro s ⟨hq, hqs⟩
      exact and_congr (h s q hq)
        (forall_congr' fun hreturned => ih _ (hqs hreturned))

-- ============================================================= execution

/-- The log and the state after some requests. -/
def serveAll (handle : S → Q → Outcome ε R × S) :
    S → List Q → List (Q × Outcome ε R) → List (Q × Outcome ε R) × S
  | s, [], log => (log, s)
  | s, q :: qs, log =>
      serveAll handle (handle s q).2 qs ((q, (handle s q).1) :: log)

/-- If all of them are answered and meet the condition, that was a
run. -/
theorem run_serveAll (qs : List Q) :
    ∀ {log : List (Q × Outcome ε R)} {s : S},
      Run handle Meets s₀ log s → (∀ s, ∀ q ∈ qs, Meets s q) →
      (∀ e ∈ (serveAll handle s qs log).1, e.2.Returned) →
      Run handle Meets s₀ (serveAll handle s qs log).1
        (serveAll handle s qs log).2 := by
  induction qs with
  | nil => exact fun hrun _ _ => hrun
  | cons q qs ih =>
      intro log s hrun hmeets hreturned
      have hkeep : ∀ (qs : List Q) (s : S) (log : List (Q × Outcome ε R)),
          log <:+ (serveAll handle s qs log).1 := by
        intro qs
        induction qs with
        | nil => exact fun s log => List.suffix_refl log
        | cons q qs ih =>
            exact fun s log =>
              (List.suffix_cons _ log).trans (ih _ _)
      refine ih (.serve q hrun (hmeets s q List.mem_cons_self) ?_)
        (fun s q hq => hmeets s q (List.mem_cons_of_mem _ hq)) hreturned
      exact hreturned _ ((hkeep qs _ _).subset List.mem_cons_self)

end Rust.Service
