/-
The result of a Rust call, as a reader of the program sees it: `Ok`,
`Err`, a panic, or no result yet. The first three are the language's
own. The fourth is the model's: a loop whose end is not known in
advance is run with a fuel argument, and `running` says that the fuel
ended before the loop did. A theorem that a call returns is therefore a
theorem that its outcome is not `running` for some fuel.

The arithmetic at the end of the file is the fixed-width arithmetic of
`+` and `-`, unsigned and signed. Overflow is an error of the program: a
build with overflow checks panics, one without wraps, and the flag says
which build runs.
-/
import Mathlib.Algebra.Group.Int.Defs
import Mathlib.Algebra.Group.Nat.Defs
import Mathlib.Data.Nat.Notation
import Mathlib.Tactic.Common

namespace Rust

/-- What a call has come to. -/
inductive Outcome (ε α : Type) where
  | ok (a : α)
  | err (e : ε)
  | panic
  | running
  deriving DecidableEq, Repr

namespace Outcome

variable {ε ε' α β γ : Type}

/-- The `?` operator: everything but `Ok` ends the caller as well. -/
protected def bind : Outcome ε α → (α → Outcome ε β) → Outcome ε β
  | .ok a, f => f a
  | .err e, _ => .err e
  | .panic, _ => .panic
  | .running, _ => .running

instance : Monad (Outcome ε) where
  pure := .ok
  bind := Outcome.bind

@[simp] theorem ok_bind (a : α) (f : α → Outcome ε β) :
    (Outcome.ok a >>= f) = f a := rfl

@[simp] theorem err_bind (e : ε) (f : α → Outcome ε β) :
    (Outcome.err e >>= f) = .err e := rfl

@[simp] theorem panic_bind (f : α → Outcome ε β) :
    (Outcome.panic >>= f) = .panic := rfl

@[simp] theorem running_bind (f : α → Outcome ε β) :
    (Outcome.running >>= f) = .running := rfl

theorem bind_assoc (x : Outcome ε α) (f : α → Outcome ε β)
    (g : β → Outcome ε γ) :
    ((x >>= f) >>= g) = (x >>= fun a => f a >>= g) := by
  cases x with
  | ok a => rfl
  | err e => rfl
  | panic => rfl
  | running => rfl

/-- A sequence succeeds exactly when both of its parts do. -/
theorem bind_eq_ok {x : Outcome ε α} {f : α → Outcome ε β} {b : β} :
    (x >>= f) = .ok b ↔ ∃ a, x = .ok a ∧ f a = .ok b := by
  cases x with
  | ok a => simp
  | err e => simp
  | panic => simp
  | running => simp

/-- A sequence is unfinished exactly when one of its parts is. -/
theorem bind_eq_running {x : Outcome ε α} {f : α → Outcome ε β} :
    (x >>= f) = .running
      ↔ x = .running ∨ ∃ a, x = .ok a ∧ f a = .running := by
  cases x with
  | ok a => simp
  | err e => simp
  | panic => simp
  | running => simp

theorem bind_ne_running {x : Outcome ε α} {f : α → Outcome ε β}
    (hx : x ≠ .running) (hf : ∀ a, f a ≠ .running) :
    (x >>= f) ≠ .running := by
  intro h
  rcases bind_eq_running.mp h with h | ⟨a, -, h⟩
  · exact hx h
  · exact hf a h

/-- A loop over a list comes to an end if each of its turns does. -/
theorem foldlM_ne_running {f : β → α → Outcome ε β}
    (hf : ∀ b a, f b a ≠ .running) (l : List α) :
    ∀ b, l.foldlM f b ≠ .running := by
  induction l with
  | nil => exact fun b h => nomatch h
  | cons a l ih =>
      intro b h
      rw [List.foldlM_cons] at h
      rcases bind_eq_running.mp h with h | ⟨b', -, h⟩
      · exact hf b a h
      · exact ih b' h

/-- A loop whose turns succeed, or panic on some elements, succeeds where
there are none of these. -/
theorem foldlM_ok_or_panic {f : β → α → Outcome ε β} {Bad : α → Prop}
    (hok : ∀ b a, ¬ Bad a → ∃ b', f b a = .ok b')
    (hbad : ∀ b a, Bad a → f b a = .panic) (l : List α) :
    ∀ b, (∃ b', l.foldlM f b = .ok b') ∧ (∀ a ∈ l, ¬ Bad a)
      ∨ l.foldlM f b = .panic ∧ ∃ a ∈ l, Bad a := by
  induction l with
  | nil => exact fun b => .inl ⟨⟨b, rfl⟩, fun _ h => nomatch h⟩
  | cons a l ih =>
      intro b
      rw [List.foldlM_cons]
      by_cases ha : Bad a
      · rw [hbad b a ha]
        exact .inr ⟨rfl, a, List.mem_cons_self, ha⟩
      · obtain ⟨b', hb'⟩ := hok b a ha
        rw [hb', ok_bind]
        rcases ih b' with ⟨hl, hgood⟩ | ⟨hl, a', hmem, hbad'⟩
        · exact .inl ⟨hl, List.forall_mem_cons.mpr ⟨ha, hgood⟩⟩
        · exact .inr ⟨hl, a', List.mem_cons_of_mem a hmem, hbad'⟩

/-- Rewrites the value of a successful call. -/
protected def map (f : α → β) : Outcome ε α → Outcome ε β
  | .ok a => .ok (f a)
  | .err e => .err e
  | .panic => .panic
  | .running => .running

theorem map_eq_ok {x : Outcome ε α} {f : α → β} {b : β} :
    x.map f = .ok b ↔ ∃ a, x = .ok a ∧ f a = b := by
  cases x with
  | ok a => simp [Outcome.map]
  | err e => simp [Outcome.map]
  | panic => simp [Outcome.map]
  | running => simp [Outcome.map]

theorem map_eq_panic {x : Outcome ε α} {f : α → β} :
    x.map f = .panic ↔ x = .panic := by
  cases x with
  | ok a => simp [Outcome.map]
  | err e => simp [Outcome.map]
  | panic => simp [Outcome.map]
  | running => simp [Outcome.map]

/-- The call came back to its caller, with `Ok` or with `Err`. -/
def Returned : Outcome ε α → Prop
  | .ok _ => True
  | .err _ => True
  | .panic => False
  | .running => False

instance (x : Outcome ε α) : Decidable x.Returned := by
  cases x <;> unfold Returned <;> infer_instance

/-- `Result::is_ok_and`. -/
def isOkAnd (x : Outcome ε α) (p : α → Bool) : Bool :=
  match x with
  | .ok a => p a
  | _ => false

theorem exists_of_isOkAnd {x : Outcome ε α} {p : α → Bool}
    (h : x.isOkAnd p = true) : ∃ a, x = .ok a ∧ p a = true := by
  cases x with
  | ok a => exact ⟨a, rfl, h⟩
  | err e => cases h
  | panic => cases h
  | running => cases h

/-- `assert!`, in a build where it is compiled in. -/
def assert (compiled cond : Bool) : Outcome ε Unit :=
  if compiled && !cond then .panic else .ok ()

@[simp] theorem assert_true (compiled : Bool) :
    (assert compiled true : Outcome ε Unit) = .ok () := by
  simp [assert]

/-- What is asserted holds, where it is compiled in. -/
theorem assert_of {compiled cond : Bool} (h : compiled = true → cond = true) :
    (assert compiled cond : Outcome ε Unit) = .ok () := by
  cases compiled with
  | false => rfl
  | true => rw [h rfl, assert_true]

/-- An assertion never reports an error and never runs on. -/
theorem assert_eq_ok_or_panic (compiled cond : Bool) :
    (assert compiled cond : Outcome ε Unit) = .ok ()
      ∨ (assert compiled cond : Outcome ε Unit) = .panic := by
  unfold assert
  split
  · exact Or.inr rfl
  · exact Or.inl rfl

theorem assert_ne_running (compiled cond : Bool) :
    (assert compiled cond : Outcome ε Unit) ≠ .running := by
  rcases assert_eq_ok_or_panic (ε := ε) compiled cond with h | h
  · rw [h]
    exact fun h => nomatch h
  · rw [h]
    exact fun h => nomatch h

end Outcome

-- ====================================== fixed-width unsigned arithmetic

variable {ε : Type}

/-- `a + b` at a width of `w` bits. -/
def addW (w : Nat) (checks : Bool) (a b : Nat) : Outcome ε Nat :=
  if a + b < 2 ^ w then .ok (a + b)
  else if checks then .panic
  else .ok ((a + b) % 2 ^ w)

/-- `a - b` at a width of `w` bits. -/
def subW (w : Nat) (checks : Bool) (a b : Nat) : Outcome ε Nat :=
  if b ≤ a then .ok (a - b)
  else if checks then .panic
  else .ok (2 ^ w + a - b)

/-- `a * b` at a width of `w` bits. -/
def mulW (w : Nat) (checks : Bool) (a b : Nat) : Outcome ε Nat :=
  if a * b < 2 ^ w then .ok (a * b)
  else if checks then .panic
  else .ok (a * b % 2 ^ w)

theorem addW_of_lt {w : Nat} {checks : Bool} {a b : Nat}
    (h : a + b < 2 ^ w) :
    (addW w checks a b : Outcome ε Nat) = .ok (a + b) := by
  simp only [addW, if_pos h]

theorem subW_of_le {w : Nat} {checks : Bool} {a b : Nat} (h : b ≤ a) :
    (subW w checks a b : Outcome ε Nat) = .ok (a - b) := by
  simp only [subW, if_pos h]

theorem subW_ne_running (w : Nat) (checks : Bool) (a b : Nat) :
    (subW w checks a b : Outcome ε Nat) ≠ .running := by
  unfold subW
  intro h
  split at h
  · cases h
  · split at h
    · cases h
    · cases h

theorem mulW_ne_running (w : Nat) (checks : Bool) (a b : Nat) :
    (mulW w checks a b : Outcome ε Nat) ≠ .running := by
  unfold mulW
  intro h
  split at h
  · cases h
  · split at h
    · cases h
    · cases h

/-- Where the difference exists, the subtraction computes it; where it
does not, what comes out is no smaller than `2 ^ w - b`. -/
theorem subW_eq_ok {w : Nat} {checks : Bool} {a b c : Nat}
    (h : (subW w checks a b : Outcome ε Nat) = .ok c) :
    (b ≤ a ∧ c = a - b) ∨ (a < b ∧ c = 2 ^ w + a - b) := by
  unfold subW at h
  split at h
  · rename_i hle
    injection h with h
    exact Or.inl ⟨hle, h.symm⟩
  · rename_i hle
    split at h
    · cases h
    · injection h with h
      exact Or.inr ⟨Nat.lt_of_not_le hle, h.symm⟩

-- ================================================ the rounded quotient

/-- `(a + d - 1) / d` at a width of `w` bits: the quotient rounded up. -/
def ceilDivW (w : Nat) (checks : Bool) (a d : Nat) : Outcome ε Nat := do
  let sum ← addW w checks a d
  let diff ← subW w checks sum 1
  .ok (diff / d)

section CeilDiv

variable {w a d : Nat} {checks : Bool}

theorem ceilDivW_of_lt (hd : 0 < d) (h : a + d < 2 ^ w) :
    (ceilDivW w checks a d : Outcome ε Nat) = .ok ((a + (d - 1)) / d) := by
  unfold ceilDivW
  rw [addW_of_lt h, Outcome.ok_bind, subW_of_le (by omega), Outcome.ok_bind,
    Nat.add_sub_assoc hd]

theorem ceilDivW_checked (h : 2 ^ w ≤ a + d) :
    (ceilDivW w true a d : Outcome ε Nat) = .panic := by
  unfold ceilDivW addW
  rw [if_neg (Nat.not_lt.mpr h)]
  rfl

theorem addW_wrapped (h : 2 ^ w ≤ a + d) :
    (addW w false a d : Outcome ε Nat) = .ok ((a + d) % 2 ^ w) := by
  unfold addW
  rw [if_neg (Nat.not_lt.mpr h), if_neg Bool.false_ne_true]

/-- A sum that wraps to zero is made up for: one less wraps back. -/
theorem ceilDivW_wrapped_eq (hd : 0 < d) (h : a + d = 2 ^ w) :
    (ceilDivW w false a d : Outcome ε Nat) = .ok ((a + (d - 1)) / d) := by
  unfold ceilDivW
  rw [addW_wrapped (Nat.le_of_eq h.symm), Outcome.ok_bind, h, Nat.mod_self]
  unfold subW
  rw [if_neg (by omega), if_neg Bool.false_ne_true, Outcome.ok_bind]
  congr 2
  omega

/-- Any other sum that wraps is less than `d`, and nothing is counted. -/
theorem ceilDivW_wrapped_lt (hw : d ≤ 2 ^ w) (ha : a < 2 ^ w)
    (h : 2 ^ w < a + d) :
    (ceilDivW w false a d : Outcome ε Nat) = .ok 0 := by
  have hmod : (a + d) % 2 ^ w = a + d - 2 ^ w := by
    rw [Nat.mod_eq_sub_mod (Nat.le_of_lt h), Nat.mod_eq_of_lt (by omega)]
  unfold ceilDivW
  rw [addW_wrapped (Nat.le_of_lt h), Outcome.ok_bind, hmod,
    subW_of_le (by omega), Outcome.ok_bind, Nat.div_eq_of_lt (by omega)]

/-- The quotient is right, or it is zero, or there is none. -/
theorem ceilDivW_cases (checks : Bool) (hd : 0 < d) (hw : d ≤ 2 ^ w)
    (ha : a < 2 ^ w) :
    (ceilDivW w checks a d : Outcome ε Nat) = .ok ((a + (d - 1)) / d)
        ∧ (a + d < 2 ^ w ∨ checks = false ∧ a + d = 2 ^ w)
      ∨ (ceilDivW w checks a d : Outcome ε Nat) = .ok 0
        ∧ checks = false ∧ 2 ^ w < a + d
      ∨ (ceilDivW w checks a d : Outcome ε Nat) = .panic
        ∧ checks = true ∧ 2 ^ w ≤ a + d := by
  rcases Nat.lt_or_ge (a + d) (2 ^ w) with hlt | hge
  · exact Or.inl ⟨ceilDivW_of_lt hd hlt, Or.inl hlt⟩
  cases checks with
  | true => exact Or.inr (Or.inr ⟨ceilDivW_checked hge, rfl, hge⟩)
  | false =>
      rcases Nat.eq_or_lt_of_le hge with heq | hgt
      · exact Or.inl ⟨ceilDivW_wrapped_eq hd heq.symm,
          Or.inr ⟨rfl, heq.symm⟩⟩
      · exact Or.inr (Or.inl ⟨ceilDivW_wrapped_lt hw ha hgt, rfl, hgt⟩)

end CeilDiv

-- ========================================= fixed-width signed arithmetic

/-- `a as u8`, for a signed `a`. -/
def asU8 (a : Int) : Nat := (a % 2 ^ 8).toNat

/-- `a as u16`, for a signed `a`. -/
def asU16 (a : Int) : Nat := (a % 2 ^ 16).toNat

/-- `a as i64`, for a 64-bit `a`. -/
def asI64 (a : Nat) : Int := (a : Int).bmod (2 ^ 64)

theorem asI64_of_lt {a : Nat} (h : a < 2 ^ 63) : asI64 a = a := by
  unfold asI64
  exact Int.bmod_eq_of_le (by omega) (by omega)

/-- `a + b` for 64-bit signed numbers. -/
def addI64 (checks : Bool) (a b : Int) : Outcome ε Int :=
  if -2 ^ 63 ≤ a + b ∧ a + b < 2 ^ 63 then .ok (a + b)
  else if checks then .panic
  else .ok ((a + b).bmod (2 ^ 64))

end Rust
