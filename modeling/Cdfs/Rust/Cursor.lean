/-
Iteration by cursor. An iterator of this kind holds the position of its
next item; one call reads the item there and learns the position after
it, or that there is none. A failed read leaves the position where it
is, so a failure repeats: the stream has no end behind it.

`Yields` says what such a stream amounts to as a list, `Reached` is the
chain of positions from a start, and `ends_iff` is the account of when
the stream ends: exactly when no read on the chain fails, provided that
successful reads make progress. A stream without failures then amounts
to a list (`exists_yields`).
-/
import Cdfs.Rust.Outcome
import Mathlib.Logic.Function.Iterate

namespace Rust.Cursor

variable {ε α β : Type} (step : α → Outcome ε (β × Option α))

/-- The position after one call. -/
def advance : Option α → Option α
  | none => none
  | some a =>
      match step a with
      | .ok (_, next) => next
      | _ => some a

/-- The outcome of the `n`-th call from a position. -/
def itemFrom (pos : Option α) : Nat → Option (Outcome ε β)
  | 0 => pos.map fun a => (step a).map Prod.fst
  | n + 1 => itemFrom (advance step pos) n

/-- The `n`-th call is at the position that the calls before lead to. -/
theorem itemFrom_eq (pos : Option α) (n : Nat) :
    itemFrom step pos n = ((advance step)^[n] pos).map
      fun a => (step a).map Prod.fst := by
  induction n generalizing pos with
  | zero => rfl
  | succ n ih => exact ih (advance step pos)

/-- Past the end there is nothing more. -/
theorem itemFrom_none (n : Nat) : itemFrom step none n = none := by
  induction n with
  | zero => rfl
  | succ n ih => exact ih

variable {step}

/-- A failing read is repeated for ever. -/
theorem itemFrom_stuck {a : α} (h : ∀ r, step a ≠ .ok r) (n : Nat) :
    itemFrom step (some a) n = some ((step a).map Prod.fst) := by
  induction n with
  | zero => rfl
  | succ n ih =>
      have hadvance : advance step (some a) = some a := by
        cases hstep : step a with
        | ok r => exact absurd hstep (h r)
        | err | panic | running => simp only [advance, hstep]
      rw [itemFrom, hadvance]
      exact ih

-- ===================================================== streams as lists

/-- From `pos`, the stream is the values of `bs` and then ends. -/
def Yields (step : α → Outcome ε (β × Option α)) (pos : Option α)
    (bs : List β) : Prop :=
  ∀ n, itemFrom step pos n = (bs[n]?).map .ok

theorem yields_nil : Yields step none [] := by
  intro n
  rw [itemFrom_none]
  rfl

theorem Yields.cons {a : α} {b : β} {next : Option α} {bs : List β}
    (ha : step a = .ok (b, next)) (hbs : Yields step next bs) :
    Yields step (some a) (b :: bs) := by
  intro n
  cases n with
  | zero =>
      simp only [itemFrom, Option.map_some, ha, Outcome.map,
        List.getElem?_cons_zero]
  | succ n =>
      simp only [itemFrom, advance, ha, List.getElem?_cons_succ]
      exact hbs n

/-- A stream that amounts to a nonempty list starts with a successful
read, and goes on as the rest of the list. -/
theorem Yields.uncons {pos : Option α} {b : β} {bs : List β}
    (h : Yields step pos (b :: bs)) :
    ∃ a next, pos = some a ∧ step a = .ok (b, next)
      ∧ Yields step next bs := by
  have h₀ := h 0
  match pos with
  | none => simp [itemFrom] at h₀
  | some a =>
      match hstep : step a with
      | .ok (b', next) =>
          simp only [itemFrom, Option.map_some, hstep, Outcome.map,
            List.getElem?_cons_zero, Option.some.injEq,
            Outcome.ok.injEq] at h₀
          refine ⟨a, next, rfl, by rw [hstep, h₀], fun n => ?_⟩
          have hn := h (n + 1)
          simpa only [itemFrom, advance, hstep, List.getElem?_cons_succ]
            using hn
      | .err _ | .panic | .running =>
          simp [itemFrom, hstep, Outcome.map] at h₀

/-- What a stream amounts to is unique. -/
theorem Yields.unique {pos : Option α} {bs bs' : List β}
    (h : Yields step pos bs) (h' : Yields step pos bs') : bs = bs' := by
  have hsome : ∀ {x y : Option β},
      x.map (Outcome.ok (ε := ε)) = y.map .ok → x = y := by
    intro x y heq
    cases x with
    | none =>
        cases y with
        | none => rfl
        | some => cases heq
    | some =>
        cases y with
        | none => cases heq
        | some =>
            injection heq with heq
            injection heq with heq
            rw [heq]
  apply List.ext_getElem?
  intro n
  exact hsome ((h n).symm.trans (h' n))

/-- A stream with nothing in it is at its end. -/
theorem Yields.none_of_nil {pos : Option α} (h : Yields step pos []) :
    pos = none := by
  have hfirst := h 0
  cases pos with
  | none => rfl
  | some a => cases hfirst

theorem Yields.nil_of_none {bs : List β} (h : Yields step none bs) :
    bs = [] := by
  cases bs with
  | nil => rfl
  | cons b bs =>
      obtain ⟨a, _, ha, -⟩ := h.uncons
      cases ha

/-- Where successful reads make progress a stream is no longer than the
way that there is to go. -/
theorem Yields.length_le {measure : α → Nat}
    (progress : ∀ a b a', step a = .ok (b, some a') →
      measure a' < measure a) {bs : List β} :
    ∀ {a : α}, Yields step (some a) bs → bs.length ≤ measure a + 1 := by
  induction bs with
  | nil => exact fun _ => Nat.zero_le _
  | cons b bs ih =>
      intro a h
      obtain ⟨a', next, ha, hstep, hrest⟩ := h.uncons
      injection ha with ha
      rw [← ha] at hstep
      rw [List.length_cons]
      cases next with
      | none =>
          rw [hrest.nil_of_none, List.length_nil]
          omega
      | some a'' =>
          have hlt := progress a b a'' hstep
          have := ih hrest
          omega

/-- There a stream without failures amounts to a list. -/
theorem exists_yields {measure : α → Nat}
    (progress : ∀ a b a', step a = .ok (b, some a') →
      measure a' < measure a) :
    ∀ a, (∀ n o, itemFrom step (some a) n = some o → ∃ b, o = .ok b) →
      ∃ bs, Yields step (some a) bs := by
  intro a
  induction hm : measure a using Nat.strongRecOn generalizing a with
  | ind m ih =>
      intro hok
      obtain ⟨b, hb⟩ := hok 0 _ rfl
      match hstep : step a with
      | .ok (b, none) => exact ⟨[b], yields_nil.cons hstep⟩
      | .ok (b, some a') =>
          have hlt := progress a b a' hstep
          obtain ⟨bs, hbs⟩ := ih (measure a') (hm ▸ hlt) a' rfl
            fun n o hn => hok (n + 1) o (by
              simp only [itemFrom, advance, hstep]
              exact hn)
          exact ⟨b :: bs, hbs.cons hstep⟩
      | .err _ | .panic | .running =>
          change (step a).map Prod.fst = .ok b at hb
          rw [hstep] at hb
          cases hb

-- ================================================== chains of positions

/-- The positions that successful reads from `a` lead to. -/
inductive Reached (step : α → Outcome ε (β × Option α)) (a : α) : α → Prop
  | start : Reached step a a
  | next {a' a'' : α} {b : β} :
      Reached step a a' → step a' = .ok (b, some a'') → Reached step a a''

/-- The chain can be entered at its second position. -/
theorem Reached.head {a a' a'' : α} {b : β}
    (ha : step a = .ok (b, some a')) (h : Reached step a' a'') :
    Reached step a a'' := by
  induction h with
  | start => exact .next .start ha
  | next _ hstep ih => exact .next ih hstep

/-- Some number of calls leads to a position of the chain. -/
theorem Reached.exists_calls {a a' : α} (h : Reached step a a') :
    ∃ n, (advance step)^[n] (some a) = some a' := by
  induction h with
  | start => exact ⟨0, rfl⟩
  | next _ hstep ih =>
      obtain ⟨n, hn⟩ := ih
      refine ⟨n + 1, ?_⟩
      rw [Function.iterate_succ_apply', hn]
      simp only [advance, hstep]

/-- A chain is its start alone or goes through the start's successor. -/
theorem Reached.cases_head {a a'' : α} (h : Reached step a a'') :
    a'' = a ∨ ∃ b a', step a = .ok (b, some a') ∧ Reached step a' a'' := by
  induction h with
  | start => exact Or.inl rfl
  | next h hstep ih =>
      rcases ih with rfl | ⟨b, a', ha, h'⟩
      · exact Or.inr ⟨_, _, hstep, .start⟩
      · exact Or.inr ⟨b, a', ha, .next h' hstep⟩

/-- Behind a position that has a successor is the chain from there, -/
theorem reached_iff_next {a a' o : α} {b : β}
    (h : step a = .ok (b, some a')) :
    Reached step a o ↔ o = a ∨ Reached step a' o := by
  constructor
  · intro ho
    rcases ho.cases_head with rfl | ⟨_, _, hstep, ho⟩
    · exact Or.inl rfl
    · cases h.symm.trans hstep
      exact Or.inr ho
  · intro ho
    rcases ho with rfl | ho
    · exact .start
    · exact .head h ho

/-- and behind the last one there is nothing. -/
theorem reached_iff_last {a o : α} {b : β} (h : step a = .ok (b, none)) :
    Reached step a o ↔ o = a := by
  constructor
  · intro ho
    rcases ho.cases_head with rfl | ⟨_, _, hstep, -⟩
    · rfl
    · cases h.symm.trans hstep
  · intro ho
    rw [ho]
    exact .start

/-- Every read on the chain from `a` succeeds. -/
def Sound (step : α → Outcome ε (β × Option α)) (a : α) : Prop :=
  ∀ a', Reached step a a' → ∃ r, step a' = .ok r

/-- A stream that ends had no failing read on its chain. -/
theorem sound_of_ends (n : Nat) :
    ∀ a, itemFrom step (some a) n = none → Sound step a := by
  induction n with
  | zero =>
      intro a h
      cases h
  | succ n ih =>
      intro a h
      rw [itemFrom] at h
      match hstep : step a with
      | .ok (b, next) =>
          simp only [advance, hstep] at h
          intro a'' hreach
          rcases hreach.cases_head with rfl | ⟨b', a', ha, hreach⟩
          · exact ⟨_, hstep⟩
          · rw [hstep] at ha
            injection ha with ha
            injection ha with _ ha
            subst ha
            exact ih a' h a'' hreach
      | .err _ | .panic | .running =>
          -- the position has not moved, so the rest is the same stream
          simp only [advance, hstep] at h
          exact ih a h

/-- Without a failing read on its chain, and with every successful read
making progress, the stream ends. -/
theorem ends_of_sound (measure : α → Nat)
    (progress : ∀ a b a', step a = .ok (b, some a') →
      measure a' < measure a) :
    ∀ a, Sound step a → ∃ n, itemFrom step (some a) n = none := by
  intro a
  induction hm : measure a using Nat.strongRecOn generalizing a with
  | ind m ih =>
      intro hsound
      obtain ⟨⟨b, next⟩, hstep⟩ := hsound a .start
      match next with
      | none =>
          refine ⟨1, ?_⟩
          simp only [itemFrom, advance, hstep, Option.map_none]
      | some a' =>
          have hlt := progress a b a' hstep
          have hsound' : Sound step a' :=
            fun a'' h => hsound a'' (h.head hstep)
          obtain ⟨n, hn⟩ := ih (measure a') (hm ▸ hlt) a' rfl hsound'
          refine ⟨n + 1, ?_⟩
          simp only [itemFrom, advance, hstep]
          exact hn

/-- The stream ends exactly when no read on its chain fails. -/
theorem ends_iff (measure : α → Nat)
    (progress : ∀ a b a', step a = .ok (b, some a') →
      measure a' < measure a) (a : α) :
    (∃ n, itemFrom step (some a) n = none) ↔ Sound step a :=
  ⟨fun ⟨n, hn⟩ => sound_of_ends n a hn, ends_of_sound measure progress a⟩

end Rust.Cursor
