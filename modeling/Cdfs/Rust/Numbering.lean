/-
Numbered tables. Objects are entered under numbers, and where the
numbers come from is one of two things for the whole table: a counter
(`generated`), or the objects themselves (`own`).

`Enters` says what entering some objects, one after the other, does to a
table. With a counter whatever is in the table stays there (`Fresh`,
`Enters.stays`). With the objects' own numbers an object can be replaced
by another with the same number, and the account of what that changes is
`Enters.own_spec`.
-/
import Mathlib.Data.Nat.Notation
import Mathlib.Logic.Function.Basic

namespace Rust.Numbering

/-- A table of objects by number. -/
structure Table (α : Type) where
  bound : ℕ → Option α
  next : ℕ
  generated : Bool

variable {α β : Type} {own : α → Option ℕ} {P : α → Prop}
  {t t' t'' : Table α}

namespace Table

/-- The number that an object is to have. -/
def number (own : α → Option ℕ) (t : Table α) (a : α) : Option ℕ :=
  if t.generated then some t.next else own a

/-- Puts an entry under a number, in place of what is there. -/
def insert (t : Table α) (n : ℕ) (a : α) : Table α :=
  { t with bound := Function.update t.bound n (some a) }

/-- Takes what is under a number out. -/
def drop (t : Table α) (n : ℕ) : Table α :=
  { t with bound := Function.update t.bound n none }

/-- Counts a number that was given out. -/
def advance (t : Table α) : Table α :=
  if t.generated then { t with next := t.next + 1 } else t

@[simp] theorem bound_advance (t : Table α) :
    t.advance.bound = t.bound := by
  unfold advance
  split
  · rfl
  · rfl

@[simp] theorem generated_advance (t : Table α) :
    t.advance.generated = t.generated := by
  unfold advance
  split
  · rfl
  · rfl

/-- The counter moves by one where numbers are generated, and not at all
where they are not. -/
theorem next_advance_add (t : Table α) :
    t.advance.next = t.next + if t.generated then 1 else 0 := by
  unfold advance
  split
  · rfl
  · rfl

theorem next_advance (h : t.generated = true) :
    t.advance.next = t.next + 1 := by
  rw [next_advance_add, if_pos h]

theorem bound_insert (t : Table α) (n : ℕ) (a : α) :
    (t.insert n a).bound n = some a := Function.update_self _ _ _

/-- An entry under one number leaves the others as they are, -/
theorem bound_insert_of_ne {n m : ℕ} (h : m ≠ n) (a : α) :
    (t.insert n a).bound m = t.bound m := Function.update_of_ne h _ _

/-- What is there already can be entered again. -/
theorem insert_self {n : ℕ} {a : α} (h : t.bound n = some a) :
    t.insert n a = t := by
  unfold insert
  rw [← h, Function.update_eq_self]

theorem bound_drop (t : Table α) (n : ℕ) : (t.drop n).bound n = none :=
  Function.update_self _ _ _

/-- and so does the loss of one. -/
theorem bound_drop_of_ne {n m : ℕ} (h : m ≠ n) :
    (t.drop n).bound m = t.bound m := Function.update_of_ne h _ _

/-- What is left when a number is dropped. -/
theorem bound_drop_eq_some {n m : ℕ} {a : α} :
    (t.drop n).bound m = some a ↔ m ≠ n ∧ t.bound m = some a := by
  by_cases h : m = n
  · rw [h, bound_drop]
    exact ⟨fun hno => (nomatch hno), fun hm => absurd rfl hm.1⟩
  · rw [bound_drop_of_ne h]
    exact ⟨fun hm => ⟨h, hm⟩, fun hm => hm.2⟩

theorem number_of_generated (h : t.generated = true) (a : α) :
    t.number own a = some t.next := if_pos h

theorem number_of_own (h : t.generated = false) (a : α) :
    t.number own a = own a :=
  if_neg (by rw [h]; exact Bool.false_ne_true)

end Table

-- ============================================================== entering

/-- The table after some objects, each with the property, have got
numbers; a number can be passed over. -/
inductive Enters (own : α → Option ℕ) (P : α → Prop) (t : Table α) :
    Table α → Prop
  | refl : Enters own P t t
  | enter {t' : Table α} {n : ℕ} {a : α} :
      Enters own P t t' → P a → t'.number own a = some n →
      Enters own P t (t'.insert n a).advance
  | pass {t' : Table α} : Enters own P t t' → Enters own P t t'.advance

@[simp] theorem Enters.generated (h : Enters own P t t') :
    t'.generated = t.generated := by
  induction h with
  | refl => rfl
  | enter _ _ _ ih => exact (Table.generated_advance _).trans ih
  | pass _ ih => exact (Table.generated_advance _).trans ih

/-- The counter never goes back. -/
theorem Enters.next_le (h : Enters own P t t') : t.next ≤ t'.next := by
  have hadvance : ∀ t : Table α, t.next ≤ t.advance.next := by
    intro t
    unfold Table.advance
    split
    · exact Nat.le_succ _
    · exact Nat.le_refl _
  induction h with
  | refl => exact Nat.le_refl _
  | @enter t' n a _ _ _ ih =>
      exact Nat.le_trans ih (hadvance (t'.insert n a))
  | pass _ ih => exact Nat.le_trans ih (hadvance _)

/-- A number that is in the table stays in it. -/
theorem Enters.known (h : Enters own P t t') {n : ℕ}
    (hn : t.bound n ≠ none) : t'.bound n ≠ none := by
  induction h with
  | refl => exact hn
  | @enter t' m a _ _ _ ih =>
      rw [Table.bound_advance]
      by_cases hm : n = m
      · rw [hm, Table.bound_insert]
        exact Option.some_ne_none a
      · rw [Table.bound_insert_of_ne hm]
        exact ih
  | pass _ ih =>
      rw [Table.bound_advance]
      exact ih

-- ========================================================== with a counter

/-- All numbers in the table were given out before. -/
def Fresh (t : Table α) : Prop := ∀ n, t.bound n ≠ none → n < t.next

/-- A counter that is ahead of all numbers in use stays ahead when one of
them is given up. -/
theorem Fresh.drop (h : Fresh t) (n : ℕ) : Fresh (t.drop n) := by
  intro m hm
  obtain ⟨a, ha⟩ := Option.ne_none_iff_exists'.mp hm
  refine h m ?_
  rw [(Table.bound_drop_eq_some.mp ha).2]
  exact Option.some_ne_none a

/-- Entering an object under the next number. -/
theorem Fresh.insert_advance (h : Fresh t) (hgen : t.generated = true)
    (a : α) : Fresh (t.insert t.next a).advance := by
  intro m hm
  rw [Table.bound_advance] at hm
  have hnext : (t.insert t.next a).advance.next = t.next + 1 :=
    Table.next_advance (t := t.insert t.next a) hgen
  rw [hnext]
  by_cases heq : m = t.next
  · omega
  · rw [Table.bound_insert_of_ne heq] at hm
    have := h m hm
    omega

/-- Replacing an object in the table. -/
theorem Fresh.insert_known (h : Fresh t) {n : ℕ} (hn : t.bound n ≠ none)
    (a : α) : Fresh (t.insert n a) := by
  intro m hm
  by_cases heq : m = n
  · rw [heq]
    exact h n hn
  · rw [Table.bound_insert_of_ne heq] at hm
    exact h m hm

/-- With a counter nothing changes at the numbers given out before. -/
theorem Enters.bound_eq (h : Enters own P t t') (hgen : t.generated = true)
    {n : ℕ} (hn : n < t.next) : t'.bound n = t.bound n := by
  induction h with
  | refl => rfl
  | @enter t' m a hent _ hnum ih =>
      rw [Table.number_of_generated (hent.generated.trans hgen)] at hnum
      injection hnum with hm
      have hle := hent.next_le
      rw [Table.bound_advance, Table.bound_insert_of_ne (by omega)]
      exact ih
  | pass _ ih =>
      rw [Table.bound_advance]
      exact ih

/-- Entering what has numbers from the counter keeps it ahead of them. The
induction is on the entries. -/
theorem Enters.fresh (h : Enters own P t t') (hgen : t.generated = true)
    (hfresh : Fresh t) : Fresh t' := by
  induction h with
  | refl => exact hfresh
  | @enter t' m a hent _ hnum ih =>
      have hgen' : t'.generated = true := hent.generated.trans hgen
      rw [Table.number_of_generated hgen'] at hnum
      injection hnum with hm
      rw [← hm]
      exact ih.insert_advance hgen' a
  | @pass t' hent ih =>
      intro n hn
      rw [Table.bound_advance] at hn
      rw [Table.next_advance (hent.generated.trans hgen)]
      exact Nat.lt_succ_of_lt (ih n hn)

/-- With a counter an object that is in the table stays where it is. -/
theorem Enters.stays (h : Enters own P t t') (hgen : t.generated = true)
    (hfresh : Fresh t) :
    Fresh t' ∧ ∀ n a, t.bound n = some a → t'.bound n = some a := by
  refine ⟨h.fresh hgen hfresh, fun n a ha => ?_⟩
  have hlt : n < t.next :=
    hfresh n (by rw [ha]; exact Option.some_ne_none a)
  exact (h.bound_eq hgen hlt).trans ha

-- ==================================================== with own numbers

/-- With own numbers: if every object in the table, and every one that is
entered, stands at its number in a relation `At`, then so do all
afterwards; and where entered objects have the same view as what is at
their number, no view changes. -/
theorem Enters.own_spec {At : ℕ → α → Prop} {view : α → β}
    (h : Enters own P t t') (hgen : t.generated = false)
    (hat : ∀ n a, t.bound n = some a → At n a)
    (henter : ∀ a n, P a → own a = some n →
      At n a ∧ ∀ c, At n c → view a = view c) :
    (∀ n a, t'.bound n = some a → At n a)
      ∧ ∀ n a, t.bound n = some a →
        ∃ a', t'.bound n = some a' ∧ view a' = view a := by
  induction h with
  | refl => exact ⟨hat, fun n a ha => ⟨a, ha, rfl⟩⟩
  | @enter t' m a hent ha hnum ih =>
      obtain ⟨hat', hview⟩ := ih
      rw [Table.number_of_own (hent.generated.trans hgen)] at hnum
      obtain ⟨hatm, hsame⟩ := henter a m ha hnum
      rw [Table.bound_advance]
      constructor
      · intro n c hc
        by_cases heq : n = m
        · rw [heq, Table.bound_insert] at hc
          injection hc with hc
          rw [heq, ← hc]
          exact hatm
        · rw [Table.bound_insert_of_ne heq] at hc
          exact hat' n c hc
      · intro n c hc
        obtain ⟨c', hc', hvc⟩ := hview n c hc
        by_cases heq : n = m
        · rw [heq] at hc' ⊢
          exact ⟨a, Table.bound_insert _ _ _,
            (hsame c' (hat' m c' hc')).trans hvc⟩
        · rw [Table.bound_insert_of_ne heq]
          exact ⟨c', hc', hvc⟩
  | pass _ ih =>
      rw [Table.bound_advance]
      exact ih

-- ======================================== everything that was entered

/-- What the first assignment has, the second one has too. -/
def Extends (m m' : ℕ → Option α) : Prop :=
  ∀ n a, m n = some a → m' n = some a

/-- An assignment of all that was ever entered in a table with a counter:
what was dropped is still in it, and nothing has a number that is still to
be given out. -/
structure Register (m : ℕ → Option α) (t : Table α) : Prop where
  generated : t.generated = true
  bound : Extends t.bound m
  issued : ∀ n, m n ≠ none → n < t.next

theorem Extends.refl (m : ℕ → Option α) : Extends m m := fun _ _ h => h

/-- What is registered once is registered in all later registers. -/
theorem Extends.trans {m m' m'' : ℕ → Option α} (h : Extends m m')
    (h' : Extends m' m'') : Extends m m'' := fun n a ha => h' n a (h n a ha)

namespace Register

variable {m : ℕ → Option α}

/-- A register covers a table also after one of its entries is gone. -/
theorem drop (h : Register m t) (n : ℕ) : Register m (t.drop n) where
  generated := h.generated
  bound k a hk := h.bound k a (Table.bound_drop_eq_some.mp hk).2
  issued := h.issued

theorem advance (h : Register m t) : Register m t.advance where
  generated := (Table.generated_advance t).trans h.generated
  bound k a hk := by
    rw [Table.bound_advance] at hk
    exact h.bound k a hk
  issued k hk := by
    rw [Table.next_advance h.generated]
    exact Nat.lt_succ_of_lt (h.issued k hk)

/-- What is entered under the next number is new in it. -/
theorem extends_update (h : Register m t) (a : α) :
    Extends m (Function.update m t.next (some a)) := by
  intro k c hk
  have hlt := h.issued k (by rw [hk]; exact Option.some_ne_none c)
  rw [Function.update_of_ne (Nat.ne_of_lt hlt)]
  exact hk

/-- An entry under the next number is registered there, and nothing was
before. -/
theorem enter (h : Register m t) (a : α) :
    Register (Function.update m t.next (some a))
      (t.insert t.next a).advance where
  generated := (Table.generated_advance _).trans h.generated
  bound k c hk := by
    rw [Table.bound_advance] at hk
    by_cases heq : k = t.next
    · subst heq
      rw [Table.bound_insert] at hk
      rw [Function.update_self, hk]
    · rw [Table.bound_insert_of_ne heq] at hk
      rw [Function.update_of_ne heq]
      exact h.bound k c hk
  issued k hk := by
    rw [Table.next_advance (t := t.insert t.next a) h.generated]
    by_cases heq : k = t.next
    · subst heq
      exact Nat.lt_succ_self _
    · rw [Function.update_of_ne heq] at hk
      exact Nat.lt_succ_of_lt (h.issued k hk)

end Register

-- ============================================================ two tables

/-- Two tables that have related objects under the same numbers. -/
structure Table.Alike (R : α → β → Prop) (t : Table α) (t' : Table β) :
    Prop where
  bound : ∀ n, Option.Rel R (t.bound n) (t'.bound n)
  next : t.next = t'.next
  generated : t.generated = t'.generated

namespace Table.Alike

variable {R : α → β → Prop} {t : Table α} {u : Table β} {n : ℕ}

/-- What one table does not have, the other one does not have, -/
theorem of_none (h : Alike R t u) (hn : u.bound n = none) :
    t.bound n = none := by
  have hrel := h.bound n
  rw [hn] at hrel
  generalize t.bound n = x at hrel ⊢
  cases hrel
  rfl

/-- and what it has is related to what the other one has. -/
theorem of_some (h : Alike R t u) {b : β} (hn : u.bound n = some b) :
    ∃ a, t.bound n = some a ∧ R a b := by
  have hrel := h.bound n
  rw [hn] at hrel
  generalize t.bound n = x at hrel ⊢
  cases hrel with
  | some hab => exact ⟨_, rfl, hab⟩

/-- Related entries under one number keep the tables alike. -/
theorem insert (h : Alike R t u) (n : ℕ) {a : α} {b : β} (hab : R a b) :
    Alike R (t.insert n a) (u.insert n b) where
  bound m := by
    by_cases hm : m = n
    · subst hm
      rw [bound_insert, bound_insert]
      exact .some hab
    · rw [bound_insert_of_ne hm, bound_insert_of_ne hm]
      exact h.bound m
  next := h.next
  generated := h.generated

theorem drop (h : Alike R t u) (n : ℕ) : Alike R (t.drop n) (u.drop n) where
  bound m := by
    by_cases hm : m = n
    · subst hm
      rw [bound_drop, bound_drop]
      exact .none
    · rw [bound_drop_of_ne hm, bound_drop_of_ne hm]
      exact h.bound m
  next := h.next
  generated := h.generated

theorem advance (h : Alike R t u) : Alike R t.advance u.advance where
  bound m := by
    rw [bound_advance, bound_advance]
    exact h.bound m
  next := by
    rw [next_advance_add, next_advance_add, h.next, h.generated]
  generated := by
    rw [generated_advance, generated_advance]
    exact h.generated

end Table.Alike

end Rust.Numbering
