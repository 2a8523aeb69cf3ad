/-
A service given by what it may do: from a state and a request there may
be several answers, each with the state behind it. Its histories are the
logs of requests with their answers, the latest first, as in the runs of
a service that is a function (`Rust.Service.Run`).

`Run.refine` connects the two. If a relation between the states is kept,
and every answer of the function is one that the relation allows, then
the log of every run is a history. What is proved of histories then
holds of runs.
-/
import Cdfs.Rust.Service

namespace Rust.Service

variable {ε S T Q A R : Type} {Allows : T → Q → A → T → Prop} {t₀ t : T}
  {log : List (Q × A)}

inductive History (Allows : T → Q → A → T → Prop) (t₀ : T) :
    List (Q × A) → T → Prop
  | start : History Allows t₀ [] t₀
  | step {log : List (Q × A)} {t t' : T} {q : Q} {a : A} :
      History Allows t₀ log t → Allows t q a t' →
      History Allows t₀ ((q, a) :: log) t'

/-- What holds at first and is kept by every step, with the log grown by
it, holds of every history. -/
theorem History.inv {I : List (Q × A) → T → Prop}
    (h : History Allows t₀ log t) (h₀ : I [] t₀)
    (hstep : ∀ log t q a t', I log t → Allows t q a t' →
      I ((q, a) :: log) t') : I log t := by
  induction h with
  | start => exact h₀
  | step _ hallows ih => exact hstep _ _ _ _ _ ih hallows

variable {handle : S → Q → Outcome ε R × S} {Meets : S → Q → Prop}
  {s₀ s : S} {Rel : T → S → Prop}
  {Allowed : T → Q → Outcome ε R → T → Prop}

/-- The log of a run is a history of what the function refines. -/
theorem Run.refine {log : List (Q × Outcome ε R)}
    (h : Run handle Meets s₀ log s)
    (hstep : ∀ t s q, Rel t s → Meets s q → (handle s q).1.Returned →
      ∃ t', Allowed t q (handle s q).1 t' ∧ Rel t' (handle s q).2)
    (h₀ : Rel t₀ s₀) : ∃ t, History Allowed t₀ log t ∧ Rel t s := by
  induction h with
  | start => exact ⟨t₀, .start, h₀⟩
  | serve q _ hmeets hreturned ih =>
      obtain ⟨t, hhistory, hrel⟩ := ih
      obtain ⟨t', hallowed, hrel'⟩ := hstep t _ q hrel hmeets hreturned
      exact ⟨t', hhistory.step hallowed, hrel'⟩

end Rust.Service
