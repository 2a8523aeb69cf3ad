/-
A list without its repetitions, where one is beside the other
(`List.destutter` for `≠`), as it grows at its end: what is added is there
already or it is not. A cache of one thing has this list for its misses.
-/
import Mathlib.Data.List.Destutter

namespace Rust

variable {α : Type} [DecidableEq α]

theorem destutter'_concat (l : List α) (x : α) : ∀ a,
    (l ++ [x]).destutter' (· ≠ ·) a
      = if l.getLast?.getD a = x then l.destutter' (· ≠ ·) a
        else l.destutter' (· ≠ ·) a ++ [x] := by
  induction l with
  | nil =>
      intro a
      by_cases h : a = x <;> simp [h]
  | cons b l ih =>
      intro a
      have hlast : (b :: l).getLast?.getD a = l.getLast?.getD b := by
        rw [List.getLast?_cons]
        rfl
      rw [hlast, List.cons_append]
      by_cases h : a = b
      · rw [List.destutter'_cons_neg _ (not_not.mpr h),
          List.destutter'_cons_neg _ (not_not.mpr h), ih, h]
      · rw [List.destutter'_cons_pos _ h, List.destutter'_cons_pos _ h, ih]
        by_cases hx : l.getLast?.getD b = x <;> simp [hx]

/-- One more element. -/
theorem destutter_concat (l : List α) (x : α) :
    (l ++ [x]).destutter (· ≠ ·)
      = if l.getLast? = some x then l.destutter (· ≠ ·)
        else l.destutter (· ≠ ·) ++ [x] := by
  cases l with
  | nil => rfl
  | cons a l =>
      show (l ++ [x]).destutter' (· ≠ ·) a = _
      rw [destutter'_concat, List.getLast?_cons]
      simp only [Option.some.injEq]
      rfl

/-- The same element, any number of times. -/
theorem destutter_append_replicate (l : List α) (x : α) {n : ℕ}
    (hn : n ≠ 0) :
    (l ++ List.replicate n x).destutter (· ≠ ·)
      = if l.getLast? = some x then l.destutter (· ≠ ·)
        else l.destutter (· ≠ ·) ++ [x] := by
  obtain ⟨n, rfl⟩ := Nat.exists_eq_succ_of_ne_zero hn
  clear hn
  induction n with
  | zero => exact destutter_concat l x
  | succ n ih =>
      rw [List.replicate_succ', ← List.append_assoc, destutter_concat,
        if_pos (by rw [List.replicate_succ', ← List.append_assoc,
          List.getLast?_concat])]
      exact ih

/-- Numbers in order, by their quotients: each quotient once. -/
theorem destutter_quotients (start : ℕ) {size : ℕ} (hsize : 0 < size)
    (n : ℕ) :
    ((List.range n).map fun k => start + k / size).destutter (· ≠ ·)
      = (List.range ((n + (size - 1)) / size)).map (start + ·) := by
  induction n with
  | zero =>
      have hnone : (0 + (size - 1)) / size = 0 :=
        Nat.div_eq_of_lt (by omega)
      rw [hnone]
      rfl
  | succ n ih =>
      rw [List.range_succ, List.map_append, List.map_singleton,
        destutter_concat, ih]
      have hround : (n + 1 + (size - 1)) / size = n / size + 1 := by
        rw [show n + 1 + (size - 1) = n + size by omega,
          Nat.add_div_right _ hsize]
      rw [hround, List.getLast?_map]
      cases n with
      | zero =>
          have hnone : (0 + (size - 1)) / size = 0 :=
            Nat.div_eq_of_lt (by omega)
          rw [hnone]
          simp
      | succ n =>
          have hround' : (n + 1 + (size - 1)) / size = n / size + 1 := by
            rw [show n + 1 + (size - 1) = n + size by omega,
              Nat.add_div_right _ hsize]
          have hlast : (List.range (n + 1)).getLast? = some n := by
            rw [List.range_succ, List.getLast?_concat]
          rw [hround', hlast]
          by_cases hsame : n / size = (n + 1) / size
          · rw [if_pos (by simp [hsame]), hsame]
          · have hstep : (n + 1) / size = n / size + 1 := by
              have hle : n / size ≤ (n + 1) / size :=
                Nat.div_le_div_right (Nat.le_succ n)
              have hup : (n + 1) / size ≤ n / size + 1 := by
                rw [← Nat.add_div_right _ hsize]
                exact Nat.div_le_div_right (by omega)
              omega
            rw [if_neg (by simp [hsame]), hstep,
              List.range_succ (n := n / size + 1), List.map_append]
            rfl

end Rust
