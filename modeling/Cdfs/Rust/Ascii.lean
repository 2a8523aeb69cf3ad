/-
Text in ASCII: one byte for a character, so that a field of a fixed
width can be cut anywhere and both parts are text again.

Two ways of filling a field are covered, spaces behind the text
(`trimEnd_padded`) and digits (`parseI32_digits`).
-/
import Cdfs.Rust.Path
import Cdfs.Rust.Str
import Mathlib.Data.List.DropRight
import Mathlib.Tactic.Ring

namespace Rust

/-- The characters are ASCII. -/
abbrev Ascii (l : List Char) : Prop := ∀ c ∈ l, c.toNat < 0x80

instance (l : List Char) : Decidable (Ascii l) :=
  List.decidableBAll (fun c => c.toNat < 0x80) l

/-- Their bytes. -/
def asciiBytes (l : List Char) : List UInt8 :=
  l.map fun c => UInt8.ofNat c.toNat

theorem asciiBytes_append (l r : List Char) :
    asciiBytes (l ++ r) = asciiBytes l ++ asciiBytes r := List.map_append

theorem length_asciiBytes (l : List Char) :
    (asciiBytes l).length = l.length := List.length_map _

theorem asBytes_ofList {l : List Char} (h : Ascii l) :
    asBytes (String.ofList l) = asciiBytes l := by
  rw [asBytes_eq_flatMap, String.toList_ofList]
  induction l with
  | nil => rfl
  | cons c l ih =>
      have hc : c.toNat < 0x80 := h c List.mem_cons_self
      have hone : String.utf8EncodeChar c = [UInt8.ofNat c.toNat] := by
        unfold String.utf8EncodeChar
        dsimp only
        rw [if_pos (by show c.toNat ≤ 0x7f; omega)]
        rfl
      rw [List.flatMap_cons, hone,
        ih fun d hd => h d (List.mem_cons_of_mem c hd)]
      rfl

theorem fromUtf8_asciiBytes {l : List Char} (h : Ascii l) :
    fromUtf8 (asciiBytes l) = some (String.ofList l) := by
  rw [← asBytes_ofList h]
  exact fromUtf8_asBytes _

/-- A character has a byte or more. -/
theorem length_le_asBytes (s : String) : s.length ≤ (asBytes s).length := by
  rw [asBytes_eq_flatMap, ← String.length_toList, List.length_flatMap]
  induction s.toList with
  | nil => exact Nat.le_refl 0
  | cons c l ih =>
      have hc := List.length_pos_iff.mpr (String.utf8EncodeChar_ne_nil (c := c))
      rw [List.map_cons, List.sum_cons, List.length_cons]
      omega

-- ============================================================= spaces

/-- What is dropped at the end is dropped with more of it behind. -/
theorem rdropWhile_append_of_all {α : Type} {p : α → Bool} {l r : List α}
    (h : ∀ a ∈ r, p a = true) :
    (l ++ r).rdropWhile p = l.rdropWhile p := by
  unfold List.rdropWhile
  rw [List.reverse_append, List.dropWhile_append_of_pos]
  intro a ha
  exact h a (List.mem_reverse.mp ha)

/-- Text with spaces up to a width. -/
def padded (width : Nat) (s : String) : List Char :=
  s.toList ++ List.replicate (width - s.length) ' '

theorem trimEnd_padded (width : Nat) (s : String) :
    trimEnd (String.ofList (padded width s)) = trimEnd s := by
  unfold trimEnd padded
  rw [String.toList_ofList, rdropWhile_append_of_all]
  intro c hc
  rw [List.eq_of_mem_replicate hc]
  decide

/-- Without its first element a list is trimmed to the same only if there
is nothing but white space in it. -/
theorem rdropWhile_tail_ne {α : Type} {p : α → Bool} {a : α} {l : List α}
    (h : (a :: l).rdropWhile p ≠ []) :
    l.rdropWhile p ≠ (a :: l).rdropWhile p := by
  intro heq
  have hlen := congrArg List.length heq
  by_cases hnil : l.rdropWhile p = []
  · rw [heq] at hnil
    exact h hnil
  · have hcons : (a :: l).rdropWhile p = a :: l.rdropWhile p := by
      unfold List.rdropWhile at hnil ⊢
      rw [List.reverse_eq_nil_iff, ← List.isEmpty_iff] at hnil
      rw [List.reverse_cons, List.dropWhile_append, if_neg hnil,
        List.reverse_append, List.reverse_singleton, List.singleton_append]
    rw [hcons, List.length_cons] at hlen
    omega

-- ============================================================= digits

/-- A decimal digit as text. -/
def digitChar (d : Fin 10) : Char := Char.ofNat ('0'.toNat + d)

theorem digitChar_spec : ∀ d : Fin 10,
    (digitChar d).toNat - '0'.toNat = d ∧ (digitChar d).isDigit = true
      ∧ (digitChar d).toNat < 0x80 ∧ digitChar d ≠ '+'
      ∧ digitChar d ≠ '-' := by
  decide

theorem ascii_digits (ds : List (Fin 10)) : Ascii (ds.map digitChar) := by
  intro c hc
  obtain ⟨d, -, rfl⟩ := List.mem_map.mp hc
  exact (digitChar_spec d).2.2.1

/-- The number that digits stand for. -/
def numeral (ds : List (Fin 10)) : Nat :=
  ds.foldl (fun n d => 10 * n + d.val) 0

theorem foldl_digits_lt {α : Type} (digit : α → Nat) :
    ∀ ds : List α, (∀ d ∈ ds, digit d < 10) →
      ∀ n k, n < 10 ^ k →
        ds.foldl (fun n d => 10 * n + digit d) n < 10 ^ (k + ds.length) := by
  intro ds
  induction ds with
  | nil => exact fun _ n k h => h
  | cons d ds ih =>
      intro hds n k h
      have hd := hds d List.mem_cons_self
      have hpow : 10 ^ (k + 1) = 10 * 10 ^ k := by ring
      have hstep := ih (fun d' h' => hds d' (List.mem_cons_of_mem d h'))
        (10 * n + digit d) (k + 1) (by omega)
      rw [List.foldl_cons, List.length_cons, Nat.add_comm ds.length,
        ← Nat.add_assoc]
      exact hstep

theorem numeral_lt (ds : List (Fin 10)) : numeral ds < 10 ^ ds.length := by
  have h := foldl_digits_lt Fin.val ds (fun d _ => d.isLt) 0 0 (by decide)
  rwa [Nat.zero_add] at h

/-- Up to nine digits are read as their number. -/
theorem parseI32_digits {ds : List (Fin 10)} (hne : ds ≠ [])
    (hlen : ds.length ≤ 9) :
    parseI32 (String.ofList (ds.map digitChar)) = some (numeral ds : Int) := by
  have hstep : ∀ (n : Nat) (d : Fin 10),
      10 * n + ((digitChar d).toNat - '0'.toNat) = 10 * n + d.val := by
    intro n d
    rw [(digitChar_spec d).1]
  have hfold : (ds.map digitChar).foldl
      (fun n d => 10 * n + (d.toNat - '0'.toNat)) 0 = numeral ds := by
    rw [List.foldl_map]
    simp only [hstep]
    rfl
  have hall : (ds.map digitChar).all Char.isDigit = true := by
    rw [List.all_eq_true]
    intro c hc
    obtain ⟨d, -, rfl⟩ := List.mem_map.mp hc
    exact (digitChar_spec d).2.1
  have hlt : numeral ds < 10 ^ 9 :=
    Nat.lt_of_lt_of_le (numeral_lt ds) (Nat.pow_le_pow_right (by decide) hlen)
  have hempty : (ds.map digitChar).isEmpty = false := by
    simpa using hne
  obtain ⟨d, hd⟩ : ∃ d : Fin 10, (ds.map digitChar).head?
      = some (digitChar d) := by
    cases ds with
    | nil => exact absurd rfl hne
    | cons d ds => exact ⟨d, rfl⟩
  unfold parseI32
  rw [String.toList_ofList]
  generalize ds.map digitChar = l at hfold hall hempty hd
  -- a digit is not taken for a sign
  split
  rename_i negative digits hsign
  split at hsign
  · injection hd with hd
    exact absurd hd.symm (digitChar_spec d).2.2.2.1
  · injection hd with hd
    exact absurd hd.symm (digitChar_spec d).2.2.2.2
  · injection hsign with hnegative hdigits
    subst hnegative hdigits
    simp only [hempty, hall, hfold, Bool.not_true, Bool.or_self,
      Bool.false_eq_true, if_false]
    rw [if_pos (by omega)]

/-- Digits are read as a number with no more of them. -/
theorem digits_lt {ds : List Char} (hall : ds.all Char.isDigit = true) :
    ds.foldl (fun n d => 10 * n + (d.toNat - '0'.toNat)) 0
      < 10 ^ ds.length := by
  have hdigit : ∀ d ∈ ds, d.toNat - '0'.toNat < 10 := by
    intro d hd
    have h := List.all_eq_true.mp hall d hd
    unfold Char.isDigit at h
    have hle : d.toNat ≤ 57 :=
      of_decide_eq_true (Bool.and_eq_true_iff.mp h).2
    have hzero : '0'.toNat = 48 := rfl
    omega
  have h := foldl_digits_lt _ _ hdigit 0 0 (by decide)
  rwa [Nat.zero_add] at h

/-- A minus sign takes the place of a digit. -/
theorem parseI32_bounds {s : String} {v : Int} (h : parseI32 s = some v) :
    ∃ n : Nat, v = n ∧ n < 10 ^ s.length
      ∨ v = -(n : Int) ∧ n < 10 ^ (s.length - 1) := by
  rw [← String.length_toList]
  unfold parseI32 at h
  generalize s.toList = l at h ⊢
  split at h
  rename_i negative digits hsign
  dsimp only at h
  split at h
  · cases h
  rename_i hdigits
  simp only [Bool.or_eq_true, Bool.not_eq_true', not_or,
    Bool.not_eq_false] at hdigits
  have hlt := digits_lt hdigits.2
  generalize digits.foldl (fun n d => 10 * n + (d.toNat - '0'.toNat)) 0 = n
    at h hlt
  rw [Option.ite_none_right_eq_some] at h
  injection h.2 with hv
  subst hv
  refine ⟨n, ?_⟩
  split at hsign
  · injection hsign with hnegative hds
    subst hnegative hds
    exact .inl ⟨rfl, Nat.lt_of_lt_of_le hlt
      (Nat.pow_le_pow_right (by decide) (Nat.le_succ _))⟩
  · injection hsign with hnegative hds
    subst hnegative hds
    exact .inr ⟨rfl, hlt⟩
  · injection hsign with hnegative hds
    subst hnegative hds
    exact .inl ⟨rfl, hlt⟩

/-- Two digits, and four. -/
def digits2 (n : Fin 100) : List (Fin 10) :=
  [⟨n / 10, by omega⟩, ⟨n % 10, by omega⟩]

def digits4 (n : Fin 10000) : List (Fin 10) :=
  digits2 ⟨n / 100, by omega⟩ ++ digits2 ⟨n % 100, by omega⟩

theorem numeral_digits2 (n : Fin 100) : numeral (digits2 n) = n := by
  show 10 * (10 * 0 + n.val / 10) + n.val % 10 = n
  omega

theorem numeral_digits4 (n : Fin 10000) : numeral (digits4 n) = n := by
  show 10 * (10 * (10 * (10 * 0 + n.val / 100 / 10) + n.val / 100 % 10)
    + n.val % 100 / 10) + n.val % 100 % 10 = n
  omega

end Rust
