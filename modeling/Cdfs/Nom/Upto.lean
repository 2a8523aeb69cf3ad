/-
Parsers side by side: on every input the first one is stopped or
answers as the second does (`Upto`). Every combinator keeps the
relation, because none of them recovers from a panic or from a parser
that is not through.
-/
import Cdfs.Nom.Combinators
import Cdfs.Rust.Simulation

namespace Nom

open Rust

variable {α β : Type} {t : Stop}

/-- The first parser is stopped, or answers as the second. -/
def Upto (t : Stop) (p p' : Parser α) : Prop :=
  ∀ i, Outcome.Upto t (p i) (p' i)

namespace Upto

/-- A parser answers as it does itself. -/
theorem refl (p : Parser α) : Upto t p p := fun _ => .refl _

/-- A sequence: its first parser, then what follows. -/
theorem step {p p' : Parser α} (hp : Upto t p p')
    {f g : Input × α → Outcome Err (Input × β)}
    (hfg : ∀ i a, Outcome.Upto t (f (i, a)) (g (i, a))) (i : Input) :
    Outcome.Upto t (p i >>= f) (p' i >>= g) :=
  (hp i).bind fun r => hfg r.1 r.2

/-- A function of the result computes the same from the same. -/
theorem map {p p' : Parser α} (hp : Upto t p p') (f : α → β) :
    Upto t (map p f) (map p' f) :=
  hp.step fun _ _ => .refl _

/-- And so does one that may refuse it: the refusal is an error of both. -/
theorem mapRes {p p' : Parser α} (hp : Upto t p p') (f : α → Option β) :
    Upto t (mapRes p f) (mapRes p' f) :=
  hp.step fun _ _ => .refl _

/-- A second parser on what the first has taken. The second of either
side may be stopped where the first is not. -/
theorem mapParser {p p' : Parser Input} {q q' : Parser β}
    (hp : Upto t p p') (hq : Upto t q q') :
    Upto t (mapParser p q) (mapParser p' q') :=
  hp.step fun _ o => (hq o).bind fun _ => .refl _

/-- The parser that is allowed to fail. It turns an error into a success,
but passes a stop on. -/
theorem opt {p p' : Parser α} (hp : Upto t p p') :
    Upto t (opt p) (opt p') := by
  intro i
  unfold Nom.opt
  rcases hp i with h | h
  · rw [h]
    cases t with
    | panic => exact .stopped _
    | running => exact .stopped _
  · rw [h]
    exact .refl _

/-- A choice goes on to the next parser behind an error only. So a stop of
one of the first parsers is a stop of the choice, and otherwise both
sides go on together. The induction is on the list of alternatives. -/
theorem alt {ps ps' : List (Parser α)} (h : List.Forall₂ (Upto t) ps ps') :
    Upto t (alt ps) (alt ps') := by
  intro i
  induction h with
  | nil => exact .refl _
  | @cons p p' ps ps' hp hps ih =>
      cases hps with
      | nil => exact hp i
      | @cons q q' qs qs' hq hqs =>
          unfold Nom.alt
          rcases hp i with hstop | heq
          · rw [hstop]
            cases t with
            | panic => exact .stopped _
            | running => exact .stopped _
          · rw [heq]
            cases p' i with
            | err e =>
                cases e with
                | error => exact ih
                | incomplete => exact .refl _
            | ok | panic | running => exact .refl _

/-- Repetition with a bound on the turns. Both sides take the same number
of turns up to the first stop. -/
theorem many {p p' : Parser α} (hp : Upto t p p') (fuel : Nat) :
    Upto t (many p fuel) (many p' fuel) := by
  induction fuel with
  | zero => exact fun _ => .refl _
  | succ fuel ih =>
      intro i
      unfold Nom.many
      rcases hp i with hstop | heq
      · rw [hstop]
        cases t with
        | panic => exact .stopped _
        | running => exact .stopped _
      · rw [heq]
        cases p' i with
        | ok r =>
            dsimp only
            split
            · exact .refl _
            · exact (ih r.1).bind fun _ => .refl _
        | err e =>
            cases e with
            | error => exact .refl _
            | incomplete => exact .refl _
        | panic | running => exact .refl _

/-- Repetition with at least one turn. -/
theorem many1 {p p' : Parser α} (hp : Upto t p p') :
    Upto t (many1 p) (many1 p') :=
  hp.step fun i _ => (hp.many (i.length + 1) i).bind fun _ => .refl _

end Upto

end Nom
