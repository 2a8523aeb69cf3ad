/-
Things of some size, packed in their order into groups that have room
for a bounded size each.
-/
import Mathlib.Algebra.BigOperators.Group.List.Basic
import Mathlib.Algebra.GroupWithZero.Nat

namespace Rust

variable {α β : Type}

/-- The groups: a thing goes in front of the first group if there is room,
and else into a group of its own. -/
def pack (size : α → ℕ) (room : ℕ) : List α → List (List α)
  | [] => []
  | a :: as =>
      match pack size room as with
      | [] => [[a]]
      | g :: gs =>
          if size a + (g.map size).sum ≤ room then (a :: g) :: gs
          else [a] :: g :: gs

variable {size : α → ℕ} {room : ℕ}

/-- The two ways to pack one thing more. -/
theorem pack_cons (a : α) (as : List α) :
    (∃ g gs, pack size room as = g :: gs
        ∧ size a + (g.map size).sum ≤ room
        ∧ pack size room (a :: as) = (a :: g) :: gs)
      ∨ pack size room (a :: as) = [a] :: pack size room as := by
  rw [pack]
  cases pack size room as with
  | nil => exact Or.inr rfl
  | cons g gs =>
      dsimp only
      by_cases hroom : size a + (g.map size).sum ≤ room
      · rw [if_pos hroom]
        exact Or.inl ⟨g, gs, rfl, hroom, rfl⟩
      · rw [if_neg hroom]
        exact Or.inr rfl

/-- Nothing is lost, and the order is kept. -/
theorem flatten_pack (as : List α) : (pack size room as).flatten = as := by
  induction as with
  | nil => rfl
  | cons a as ih =>
      rcases @pack_cons _ size room a as with
        ⟨g, gs, has, -, hpack⟩ | hpack
      · rw [has, List.flatten_cons] at ih
        rw [hpack, List.flatten_cons, List.cons_append, ih]
      · rw [hpack, List.flatten_cons, ih]
        rfl

/-- No group is empty, and none is too large if no thing is. -/
theorem of_mem_pack {as : List α} (hroom : ∀ a ∈ as, size a ≤ room) :
    ∀ g ∈ pack size room as, g ≠ [] ∧ (g.map size).sum ≤ room := by
  induction as with
  | nil => exact fun _ h => nomatch h
  | cons a as ih =>
      have ih := ih fun a ha => hroom a (List.mem_cons_of_mem _ ha)
      intro g hg
      rcases @pack_cons _ size room a as with
        ⟨g', gs, has, hfits, hpack⟩ | hpack
      · rw [hpack] at hg
        rcases List.mem_cons.mp hg with rfl | hg
        · exact ⟨List.cons_ne_nil _ _, by simpa using hfits⟩
        · exact ih g (has ▸ List.mem_cons_of_mem _ hg)
      · rw [hpack] at hg
        rcases List.mem_cons.mp hg with rfl | hg
        · exact ⟨List.cons_ne_nil _ _,
            by simpa using hroom a List.mem_cons_self⟩
        · exact ih g hg

/-- Things of the same sizes are packed alike. -/
theorem pack_map (f : β → α) (bs : List β) :
    pack size room (bs.map f)
      = (pack (size ∘ f) room bs).map (List.map f) := by
  induction bs with
  | nil => rfl
  | cons b bs ih =>
      rw [List.map_cons, pack, pack, ih]
      cases pack (size ∘ f) room bs with
      | nil => rfl
      | cons g gs =>
          simp only [List.map_cons, List.map_map, Function.comp_apply]
          split
          · rfl
          · rfl

end Rust
