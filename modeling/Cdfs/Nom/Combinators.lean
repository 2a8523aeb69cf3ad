/-
Byte parsers in the manner of nom 7: a parser takes the rest of the
input and returns what it leaves together with a value. The
combinators here are the ones of the `complete` family, each with the
behaviour its documentation gives, errors as the plain `Error` type
reports them (the kind of the innermost failure).

Two of them deserve a warning, because their failures are not what
their neighbours' are. `lengthData` answers `Incomplete`, not `Error`,
when the length it read exceeds the input, and `Incomplete` passes
through `alt`, `opt` and `many1` untouched. `many1` treats every
`Error` after the first success as the end of the list, so an element
that fails to parse shortens the list instead of failing it.

The second half of the file is what proofs about such parsers need:
`Stable` (bytes after the ones consumed do not change the result),
`Width` (a fixed number of bytes is consumed), `Ends` (there is a
result, and no more is left than there was) and `Never` (the result is
not one of those that no combinator recovers from).
-/
import Cdfs.Rust.Outcome
import Mathlib.Data.List.Basic

namespace Nom

open Rust

/-- The failures the combinators below report. -/
inductive ErrorKind where
  | alt
  | eof
  | fail
  | many1
  | mapRes
  | tag
  deriving DecidableEq, Repr

/-- `nom::Err`: not enough input to tell, or a recoverable failure. -/
inductive Err where
  | incomplete
  | error (kind : ErrorKind)
  deriving DecidableEq, Repr

/-- The bytes still to parse. -/
abbrev Input := List UInt8

/-- A parser of values of type `α`: on success, what is left of the
input and the value. -/
abbrev Parser (α : Type) := Input → Outcome Err (Input × α)

variable {α β : Type}

-- ===================================================== the combinators

/-- The next `n` bytes. -/
def take (n : Nat) : Parser Input := fun i =>
  if n ≤ i.length then .ok (i.drop n, i.take n) else .err (.error .eof)

/-- Exactly the bytes of `t`. -/
def tag (t : Input) : Parser Input := fun i =>
  if t <+: i then .ok (i.drop t.length, t) else .err (.error .tag)

/-- One byte. -/
def leU8 : Parser UInt8
  | [] => .err (.error .eof)
  | b :: i => .ok (i, b)

/-- Two bytes, the low one first. -/
def leU16 : Parser UInt16
  | b₀ :: b₁ :: i => .ok (i, .ofNat (b₀.toNat + 2 ^ 8 * b₁.toNat))
  | _ => .err (.error .eof)

/-- Two bytes, the high one first. -/
def beU16 : Parser UInt16
  | b₁ :: b₀ :: i => .ok (i, .ofNat (b₀.toNat + 2 ^ 8 * b₁.toNat))
  | _ => .err (.error .eof)

/-- Four bytes, the low one first. -/
def leU32 : Parser UInt32
  | b₀ :: b₁ :: b₂ :: b₃ :: i =>
      .ok (i, .ofNat (b₀.toNat + 2 ^ 8 * b₁.toNat + 2 ^ 16 * b₂.toNat
        + 2 ^ 24 * b₃.toNat))
  | _ => .err (.error .eof)

/-- Four bytes, the high one first. -/
def beU32 : Parser UInt32
  | b₃ :: b₂ :: b₁ :: b₀ :: i =>
      .ok (i, .ofNat (b₀.toNat + 2 ^ 8 * b₁.toNat + 2 ^ 16 * b₂.toNat
        + 2 ^ 24 * b₃.toNat))
  | _ => .err (.error .eof)

/-- Everything that is left. -/
def rest : Parser Input := fun i => .ok ([], i)

/-- Applies a function to the value parsed. -/
def map (p : Parser α) (f : α → β) : Parser β := fun i => do
  let (i, a) ← p i
  .ok (i, f a)

/-- Applies a function that may reject the value parsed. -/
def mapRes (p : Parser α) (f : α → Option β) : Parser β := fun i => do
  let (i, a) ← p i
  match f a with
  | some b => .ok (i, b)
  | none => .err (.error .mapRes)

/-- Replaces the value parsed. -/
def value (b : β) (p : Parser α) : Parser β := map p fun _ => b

/-- Parses the bytes that another parser produced; what the second
parser leaves is dropped. -/
def mapParser (p : Parser Input) (q : Parser β) : Parser β := fun i => do
  let (i, o₁) ← p i
  let (_, o₂) ← q o₁
  .ok (i, o₂)

/-- Makes a failure a `None`; only an `Error` counts as one. -/
def opt (p : Parser α) : Parser (Option α) := fun i =>
  match p i with
  | .ok (i', a) => .ok (i', some a)
  | .err (.error _) => .ok (i, none)
  | .err .incomplete => .err .incomplete
  | .panic => .panic
  | .running => .running

/-- The first of the alternatives that does not answer `Error`. -/
def alt : List (Parser α) → Parser α
  | [], _ => .err (.error .alt)
  | [p], i => p i
  | p :: q :: ps, i =>
      match p i with
      | .err (.error _) => alt (q :: ps) i
      | r => r

/-- As many bytes as the length that the parser yields, `Incomplete`
when the input is shorter. -/
def lengthData (p : Parser UInt8) : Parser Input := fun i => do
  let (i, n) ← p i
  if n.toNat ≤ i.length then .ok (i.drop n.toNat, i.take n.toNat)
  else .err .incomplete

/-- The elements after the first: up to the first `Error`, and an error
itself if an element consumes nothing. Every element shortens the
input, so its length bounds their number. -/
def many (p : Parser α) : Nat → Parser (List α)
  | 0, _ => .running
  | fuel + 1, i =>
      match p i with
      | .err (.error _) => .ok (i, [])
      | .err .incomplete => .err .incomplete
      | .panic => .panic
      | .running => .running
      | .ok (i', a) =>
          if i'.length = i.length then .err (.error .many1)
          else do
            let (r, as) ← many p fuel i'
            .ok (r, a :: as)

/-- One element or more. -/
def many1 (p : Parser α) : Parser (List α) := fun i => do
  let (i', a) ← p i
  let (r, as) ← many p (i'.length + 1) i'
  .ok (r, a :: as)

/-- That many elements, no more and no fewer. -/
def count (p : Parser α) : Nat → Parser (List α)
  | 0, i => .ok (i, [])
  | n + 1, i => do
      let (i, a) ← p i
      let (i, as) ← count p n i
      .ok (i, a :: as)

-- ================================================ prefix independence

/-- What the parser answers depends only on the bytes it consumes. -/
def Stable (p : Parser α) : Prop :=
  ∀ (i r : Input) (a : α) (x : Input),
    p i = .ok (r, a) → p (i ++ x) = .ok (r ++ x, a)

/-- The first parser of a sequence may be moved past the appended bytes;
what remains to show is about the parsers that follow. -/
theorem Stable.step {p : Parser α} (hp : Stable p)
    {f g : Input × α → Outcome Err (Input × β)} {i r x : Input} {c : β}
    (h : (p i >>= f) = .ok (r, c))
    (hfg : ∀ i' a, f (i', a) = .ok (r, c) →
      g (i' ++ x, a) = .ok (r ++ x, c)) :
    (p (i ++ x) >>= g) = .ok (r ++ x, c) := by
  obtain ⟨⟨i', a⟩, hpi, hfi⟩ := Outcome.bind_eq_ok.mp h
  exact Outcome.bind_eq_ok.mpr ⟨(i' ++ x, a), hp i i' a x hpi, hfg i' a hfi⟩

/-- The end of a sequence: the value is returned as it is. -/
theorem stable_done {i r x : Input} {a c : α}
    (h : (.ok (i, a) : Outcome Err (Input × α)) = .ok (r, c)) :
    (.ok (i ++ x, a) : Outcome Err (Input × α)) = .ok (r ++ x, c) := by
  injection h with h
  injection h with hr ha
  rw [hr, ha]

theorem stable_take (n : Nat) : Stable (take n) := by
  intro i r a x h
  unfold take at h ⊢
  split at h
  case isFalse => cases h
  case isTrue hn =>
    have hlen : n ≤ (i ++ x).length := by
      rw [List.length_append]
      omega
    rw [if_pos hlen, List.drop_append_of_le_length hn,
      List.take_append_of_le_length hn]
    exact stable_done h

theorem stable_leU8 : Stable leU8 := by
  intro i r a x h
  match i with
  | [] => cases h
  | b :: i => exact stable_done h

theorem stable_leU16 : Stable leU16 := by
  intro i r a x h
  match i with
  | [] | [_] => cases h
  | _ :: _ :: i => exact stable_done h

theorem stable_beU16 : Stable beU16 := by
  intro i r a x h
  match i with
  | [] | [_] => cases h
  | _ :: _ :: i => exact stable_done h

theorem stable_leU32 : Stable leU32 := by
  intro i r a x h
  match i with
  | [] | [_] | [_, _] | [_, _, _] => cases h
  | _ :: _ :: _ :: _ :: i => exact stable_done h

theorem stable_beU32 : Stable beU32 := by
  intro i r a x h
  match i with
  | [] | [_] | [_, _] | [_, _, _] => cases h
  | _ :: _ :: _ :: _ :: i => exact stable_done h

/-- The second parser sees nothing but what the first one took. -/
theorem Stable.mapParser {p : Parser Input} (q : Parser β)
    (hp : Stable p) : Stable (mapParser p q) := by
  intro i r b x h
  refine hp.step h fun i' o₁ h => ?_
  obtain ⟨⟨o', o₂⟩, hqi, h⟩ := Outcome.bind_eq_ok.mp h
  exact Outcome.bind_eq_ok.mpr ⟨(o', o₂), hqi, stable_done h⟩

theorem Stable.lengthData {p : Parser UInt8} (hp : Stable p) :
    Stable (lengthData p) := by
  intro i r a x h
  refine hp.step h fun i' n h => ?_
  dsimp only at h ⊢
  split at h
  case isFalse => cases h
  case isTrue hn =>
    have hlen : n.toNat ≤ (i' ++ x).length := by
      rw [List.length_append]
      omega
    rw [if_pos hlen, List.drop_append_of_le_length hn,
      List.take_append_of_le_length hn]
    exact stable_done h

-- ===================================================== fixed widths

/-- The parser takes `n` bytes whenever it succeeds. -/
def Width (n : Nat) (p : Parser α) : Prop :=
  ∀ (i r : Input) (a : α), p i = .ok (r, a) → n ≤ i.length ∧ r = i.drop n

/-- The first parser of a sequence has taken its `n` bytes. -/
theorem Width.step {n : Nat} {p : Parser α} (hp : Width n p)
    {f : Input × α → Outcome Err (Input × β)} {i r : Input} {c : β}
    (h : (p i >>= f) = .ok (r, c)) :
    ∃ a, n ≤ i.length ∧ p i = .ok (i.drop n, a)
      ∧ f (i.drop n, a) = .ok (r, c) := by
  obtain ⟨⟨i', a⟩, hpi, hfi⟩ := Outcome.bind_eq_ok.mp h
  obtain ⟨hn, hr⟩ := hp i i' a hpi
  subst hr
  exact ⟨a, hn, hpi, hfi⟩

theorem width_take (n : Nat) : Width n (take n) := by
  intro i r a h
  unfold take at h
  split at h
  case isFalse => cases h
  case isTrue hn =>
    injection h with h
    injection h with hr ha
    exact ⟨hn, hr.symm⟩

theorem width_leU8 : Width 1 leU8 := by
  intro i r a h
  match i with
  | [] => cases h
  | b :: i =>
      injection h with h
      injection h with hr ha
      exact ⟨by simp, hr.symm⟩

theorem width_leU16 : Width 2 leU16 := by
  intro i r a h
  match i with
  | [] | [_] => cases h
  | _ :: _ :: i =>
      injection h with h
      injection h with hr ha
      exact ⟨by simp, hr.symm⟩

theorem width_beU16 : Width 2 beU16 := by
  intro i r a h
  match i with
  | [] | [_] => cases h
  | _ :: _ :: i =>
      injection h with h
      injection h with hr ha
      exact ⟨by simp, hr.symm⟩

theorem width_leU32 : Width 4 leU32 := by
  intro i r a h
  match i with
  | [] | [_] | [_, _] | [_, _, _] => cases h
  | _ :: _ :: _ :: _ :: i =>
      injection h with h
      injection h with hr ha
      exact ⟨by simp, hr.symm⟩

theorem width_beU32 : Width 4 beU32 := by
  intro i r a h
  match i with
  | [] | [_] | [_, _] | [_, _, _] => cases h
  | _ :: _ :: _ :: _ :: i =>
      injection h with h
      injection h with hr ha
      exact ⟨by simp, hr.symm⟩

/-- A second parser over the bytes taken does not change the width. -/
theorem Width.mapParser {n : Nat} {p : Parser Input} (hp : Width n p)
    (q : Parser β) : Width n (mapParser p q) := by
  intro i r c h
  obtain ⟨⟨i', o₁⟩, hpi, h⟩ := Outcome.bind_eq_ok.mp h
  obtain ⟨_, -, h⟩ := Outcome.bind_eq_ok.mp h
  injection h with h
  injection h with hr _
  exact hr ▸ hp i i' o₁ hpi

theorem width_tag (t : Input) : Width t.length (tag t) := by
  intro i r a h
  unfold tag at h
  split at h
  case isFalse => cases h
  case isTrue ht =>
    injection h with h
    injection h with hr _
    exact ⟨ht.length_le, hr.symm⟩

theorem Width.map {n : Nat} {p : Parser α} (hp : Width n p) (f : α → β) :
    Width n (Nom.map p f) := by
  intro i r c h
  obtain ⟨a, hle, -, h⟩ := hp.step h
  injection h with h
  injection h with hr _
  exact ⟨hle, hr.symm⟩

theorem Width.mapRes {n : Nat} {p : Parser α} (hp : Width n p)
    (f : α → Option β) : Width n (Nom.mapRes p f) := by
  intro i r c h
  obtain ⟨a, hle, -, h⟩ := hp.step h
  dsimp only at h
  split at h
  · injection h with h
    injection h with hr _
    exact ⟨hle, hr.symm⟩
  · cases h

/-- Elements of one width have it as often as they are counted. -/
theorem Width.count {m : Nat} {p : Parser α} (hp : Width m p) (n : Nat) :
    Width (n * m) (Nom.count p n) := by
  induction n with
  | zero =>
      intro i r as h
      injection h with h
      injection h with hr _
      rw [Nat.zero_mul]
      exact ⟨Nat.zero_le _, hr.symm⟩
  | succ n ih =>
      intro i r as h
      obtain ⟨a, hle, -, h⟩ := hp.step h
      obtain ⟨as', hle', -, h⟩ := ih.step h
      injection h with h
      injection h with hr _
      rw [List.length_drop] at hle'
      rw [List.drop_drop] at hr
      rw [Nat.succ_mul, Nat.add_comm]
      exact ⟨by omega, hr.symm⟩

theorem width_alt {n : Nat} {ps : List (Parser α)}
    (h : ∀ p ∈ ps, Width n p) : Width n (alt ps) := by
  induction ps with
  | nil =>
      intro i r a hrun
      cases hrun
  | cons p ps ih =>
      have hp := h p List.mem_cons_self
      match ps with
      | [] => exact hp
      | q :: ps =>
          have hrest := ih fun p' hp' => h p' (List.mem_cons_of_mem p hp')
          intro i r a hrun
          unfold alt at hrun
          split at hrun
          · exact hrest i r a hrun
          · exact hp i r a hrun

theorem take_of_le {n : Nat} {i : Input} (h : n ≤ i.length) :
    take n i = .ok (i.drop n, i.take n) := by
  simp only [take, if_pos h]

/-- A length byte and the bytes it announces. -/
theorem lengthData_leU8_eq_ok {i r a : Input}
    (h : lengthData leU8 i = .ok (r, a)) :
    ∃ n : UInt8, i = n :: (a ++ r) ∧ a.length = n.toNat := by
  match i with
  | [] => cases h
  | n :: i =>
      dsimp only [lengthData, leU8, Outcome.ok_bind] at h
      split at h
      case isFalse => cases h
      case isTrue hn =>
        injection h with h
        injection h with hr ha
        subst hr ha
        refine ⟨n, by rw [List.take_append_drop], ?_⟩
        rw [List.length_take, Nat.min_eq_left hn]

-- ======================================================== termination

/-- The parser comes to a result, and what it leaves is no longer than
its input. -/
structure Ends (p : Parser α) : Prop where
  returns : ∀ i, p i ≠ .running
  shrinks : ∀ i r a, p i = .ok (r, a) → r.length ≤ i.length

/-- A sequence ends if its parts do. -/
theorem Ends.step {p : Parser α} (hp : Ends p)
    {f : Input × α → Outcome Err (Input × β)}
    (hf : ∀ a, Ends fun i => f (i, a)) : Ends fun i => p i >>= f where
  returns i h := by
    rcases Outcome.bind_eq_running.mp h with h | ⟨⟨i', a⟩, _, h⟩
    · exact hp.returns i h
    · exact (hf a).returns i' h
  shrinks i r b h := by
    obtain ⟨⟨i', a⟩, hpi, hfi⟩ := Outcome.bind_eq_ok.mp h
    exact Nat.le_trans ((hf a).shrinks i' r b hfi) (hp.shrinks i i' a hpi)

/-- So does one whose first part does not read. -/
theorem Ends.check {x : Input → Outcome Err β} (hx : ∀ i, x i ≠ .running)
    {f : Input → β → Outcome Err (Input × α)}
    (hf : ∀ b, Ends fun i => f i b) : Ends fun i => x i >>= f i where
  returns i h := by
    rcases Outcome.bind_eq_running.mp h with h | ⟨b, _, h⟩
    · exact hx i h
    · exact (hf b).returns i h
  shrinks i r a h := by
    obtain ⟨b, _, h⟩ := Outcome.bind_eq_ok.mp h
    exact (hf b).shrinks i r a h

theorem ends_done (a : α) : Ends fun i => .ok (i, a) where
  returns i h := by cases h
  shrinks i r a h := by
    injection h with h
    injection h with hr _
    exact Nat.le_of_eq (hr ▸ rfl)

theorem ends_err (e : Err) : Ends fun _ => (.err e : Outcome _ (Input × α))
    where
  returns i h := by cases h
  shrinks i r a h := by cases h

theorem ends_panic : Ends fun _ => (.panic : Outcome _ (Input × α)) where
  returns i h := by cases h
  shrinks i r a h := by cases h

/-- A parser of fixed width ends if it comes to a result. -/
theorem Width.ends {n : Nat} {p : Parser α} (hp : Width n p)
    (hreturns : ∀ i, p i ≠ .running) : Ends p where
  returns := hreturns
  shrinks i r a h := by
    rw [(hp i r a h).2, List.length_drop]
    omega

theorem ends_take (n : Nat) : Ends (take n) := by
  refine (width_take n).ends fun i h => ?_
  unfold take at h
  split at h
  · cases h
  · cases h

theorem ends_tag (t : Input) : Ends (tag t) where
  returns i h := by
    unfold tag at h
    split at h
    · cases h
    · cases h
  shrinks i r a h := by
    unfold tag at h
    split at h
    · injection h with h
      injection h with hr _
      rw [← hr, List.length_drop]
      omega
    · cases h

theorem ends_leU8 : Ends leU8 :=
  width_leU8.ends fun i h => by
    match i with
    | [] => cases h
    | _ :: i => cases h

theorem ends_leU16 : Ends leU16 :=
  width_leU16.ends fun i h => by
    match i with
    | [] | [_] => cases h
    | _ :: _ :: i => cases h

theorem ends_beU16 : Ends beU16 :=
  width_beU16.ends fun i h => by
    match i with
    | [] | [_] => cases h
    | _ :: _ :: i => cases h

theorem ends_leU32 : Ends leU32 :=
  width_leU32.ends fun i h => by
    match i with
    | [] | [_] | [_, _] | [_, _, _] => cases h
    | _ :: _ :: _ :: _ :: i => cases h

theorem ends_beU32 : Ends beU32 :=
  width_beU32.ends fun i h => by
    match i with
    | [] | [_] | [_, _] | [_, _, _] => cases h
    | _ :: _ :: _ :: _ :: i => cases h

theorem ends_rest : Ends rest where
  returns i h := by cases h
  shrinks i r a h := by
    injection h with h
    injection h with hr _
    rw [← hr]
    exact Nat.zero_le _

theorem Ends.map {p : Parser α} (hp : Ends p) (f : α → β) :
    Ends (Nom.map p f) :=
  hp.step fun a => ends_done (f a)

theorem Ends.mapRes {p : Parser α} (hp : Ends p) (f : α → Option β) :
    Ends (Nom.mapRes p f) := by
  refine hp.step fun a => ?_
  dsimp only
  cases f a with
  | some b => exact ends_done b
  | none => exact ends_err _

theorem Ends.value {p : Parser α} (hp : Ends p) (b : β) :
    Ends (Nom.value b p) :=
  hp.map _

/-- The second parser need only come to a result. -/
theorem Ends.mapParser {p : Parser Input} (hp : Ends p) {q : Parser β}
    (hq : ∀ i, q i ≠ .running) : Ends (Nom.mapParser p q) :=
  hp.step fun o₁ => Ends.check (x := fun _ => q o₁) (fun _ => hq o₁)
    fun o₂ => ends_done o₂.2

theorem Ends.opt {p : Parser α} (hp : Ends p) : Ends (Nom.opt p) where
  returns i h := by
    unfold Nom.opt at h
    split at h
    case h_5 hrun => exact hp.returns i hrun
    all_goals cases h
  shrinks i r a h := by
    unfold Nom.opt at h
    split at h
    case h_1 hok =>
      injection h with h
      injection h with hr _
      exact hr ▸ hp.shrinks i _ _ hok
    case h_2 =>
      injection h with h
      injection h with hr _
      exact Nat.le_of_eq (hr ▸ rfl)
    all_goals cases h

theorem ends_alt {ps : List (Parser α)} (h : ∀ p ∈ ps, Ends p) :
    Ends (alt ps) := by
  induction ps with
  | nil => exact ends_err _
  | cons p ps ih =>
      have hp := h p List.mem_cons_self
      match ps with
      | [] => exact hp
      | q :: ps =>
          have hrest := ih fun p' hp' => h p' (List.mem_cons_of_mem p hp')
          refine ⟨fun i hrun => ?_, fun i r a hok => ?_⟩
          · unfold alt at hrun
            split at hrun
            · exact hrest.returns i hrun
            · exact hp.returns i hrun
          · unfold alt at hok
            split at hok
            · exact hrest.shrinks i r a hok
            · exact hp.shrinks i r a hok

theorem Ends.lengthData {p : Parser UInt8} (hp : Ends p) :
    Ends (Nom.lengthData p) := by
  refine hp.step fun n => ⟨fun i h => ?_, fun i r a h => ?_⟩
  · dsimp only at h
    split at h
    · cases h
    · cases h
  · dsimp only at h
    split at h
    · injection h with h
      injection h with hr _
      rw [← hr, List.length_drop]
      omega
    · cases h

/-- Elements that end are listed with as much fuel as there is input. -/
theorem Ends.many {p : Parser α} (hp : Ends p) (fuel : Nat) :
    ∀ i : Input, i.length < fuel → Nom.many p fuel i ≠ .running
      ∧ ∀ r as, Nom.many p fuel i = .ok (r, as) → r.length ≤ i.length := by
  induction fuel with
  | zero => exact fun i h => absurd h (Nat.not_lt_zero _)
  | succ fuel ih =>
      intro i hfuel
      unfold Nom.many
      cases hpi : p i with
      | err e =>
          cases e with
          | error kind =>
              refine ⟨(fun h => nomatch h), fun r as h => ?_⟩
              injection h with h
              injection h with hr _
              exact Nat.le_of_eq (hr ▸ rfl)
          | incomplete =>
              exact ⟨(fun h => nomatch h), fun _ _ h => nomatch h⟩
      | panic => exact ⟨(fun h => nomatch h), fun _ _ h => nomatch h⟩
      | running => exact absurd hpi (hp.returns i)
      | ok r =>
          obtain ⟨i', a⟩ := r
          have hle := hp.shrinks i i' a hpi
          dsimp only
          split
          · exact ⟨(fun h => nomatch h), fun _ _ h => nomatch h⟩
          · obtain ⟨hreturns, hshrinks⟩ := ih i' (by omega)
            refine ⟨fun h => ?_, fun r as h => ?_⟩
            · rcases Outcome.bind_eq_running.mp h with h | ⟨_, _, h⟩
              · exact hreturns h
              · cases h
            · obtain ⟨⟨r', as'⟩, hmany, h⟩ := Outcome.bind_eq_ok.mp h
              injection h with h
              injection h with hr _
              have hshort := hshrinks r' as' hmany
              change r' = r at hr
              rw [← hr]
              omega

theorem Ends.count {p : Parser α} (hp : Ends p) (n : Nat) :
    Ends (Nom.count p n) := by
  induction n with
  | zero => exact ends_done []
  | succ n ih => exact hp.step fun a => ih.step fun as => ends_done (a :: as)

theorem Ends.many1 {p : Parser α} (hp : Ends p) : Ends (Nom.many1 p) := by
  refine hp.step fun a => ⟨fun i h => ?_, fun i r as h => ?_⟩
  · rcases Outcome.bind_eq_running.mp h with h | ⟨_, _, h⟩
    · exact (hp.many _ i (Nat.lt_succ_self _)).1 h
    · cases h
  · obtain ⟨⟨r', as'⟩, hmany, h⟩ := Outcome.bind_eq_ok.mp h
    injection h with h
    injection h with hr _
    exact hr ▸ (hp.many _ i (Nat.lt_succ_self _)).2 r' as' hmany

/-- What comes to a result, and after it the rest does, does so in all. -/
theorem step_ne_running {x : Outcome Err (Input × α)}
    {f : Input × α → Outcome Err β} (hx : x ≠ .running)
    (hf : ∀ i a, f (i, a) ≠ .running) : (x >>= f) ≠ .running :=
  Outcome.bind_ne_running hx fun r => hf r.1 r.2

-- ================================================ unrecoverable answers

/-- What a parser may answer besides a value and an `Error`, and no
combinator recovers from. -/
inductive Trouble where
  | incomplete
  | panic

def Trouble.outcome : Trouble → Outcome Err α
  | .incomplete => .err .incomplete
  | .panic => .panic

theorem Trouble.ne_ok (t : Trouble) (a : α) :
    (.ok a : Outcome Err α) ≠ t.outcome := by
  cases t with
  | incomplete => exact fun h => nomatch h
  | panic => exact fun h => nomatch h

theorem Trouble.ne_error (t : Trouble) (kind : ErrorKind) :
    (.err (.error kind) : Outcome Err α) ≠ t.outcome := by
  cases t with
  | incomplete => exact fun h => nomatch h
  | panic => exact fun h => nomatch h

/-- A sequence is in trouble exactly when one of its parts is. -/
theorem Trouble.bind_eq {t : Trouble} {x : Outcome Err α}
    {f : α → Outcome Err β} :
    (x >>= f) = t.outcome
      ↔ x = t.outcome ∨ ∃ a, x = .ok a ∧ f a = t.outcome := by
  cases t with
  | incomplete => cases x <;> simp [Trouble.outcome]
  | panic => cases x <;> simp [Trouble.outcome]

variable {t : Trouble}

/-- An option is in trouble exactly when its parser is. -/
theorem opt_eq_trouble {p : Parser α} {i : Input} :
    opt p i = t.outcome ↔ p i = t.outcome := by
  unfold opt
  cases p i with
  | ok r => exact iff_of_false (t.ne_ok _) (t.ne_ok _)
  | err e =>
      cases e with
      | error kind => exact iff_of_false (t.ne_ok _) (t.ne_error _)
      | incomplete => cases t <;> simp [Trouble.outcome]
  | panic => cases t <;> simp [Trouble.outcome]
  | running => cases t <;> simp [Trouble.outcome]

/-- A repetition is in trouble exactly when its first round or the rest
is. -/
theorem many_eq_trouble {p : Parser α} {fuel : Nat} {i : Input} :
    many p (fuel + 1) i = t.outcome
      ↔ p i = t.outcome ∨ ∃ i' a, p i = .ok (i', a)
        ∧ i'.length ≠ i.length ∧ many p fuel i' = t.outcome := by
  rw [many]
  cases p i with
  | ok r =>
      obtain ⟨i', a⟩ := r
      have hok := t.ne_ok (i', a)
      dsimp only
      by_cases hlen : i'.length = i.length
      · rw [if_pos hlen]
        refine iff_of_false (t.ne_error _) ?_
        simp [hok, hlen]
      · rw [if_neg hlen, Trouble.bind_eq]
        have hdone : ∀ r : Input × List α,
            (.ok (r.1, a :: r.2) : Outcome Err _) ≠ t.outcome :=
          fun r => t.ne_ok _
        simp [hok, hlen, hdone]
  | err e =>
      cases e with
      | error kind =>
          refine iff_of_false (t.ne_ok _) ?_
          simp [t.ne_error kind]
      | incomplete => cases t <;> simp [Trouble.outcome]
  | panic => cases t <;> simp [Trouble.outcome]
  | running => cases t <;> simp [Trouble.outcome]

theorem many1_eq_trouble {p : Parser α} {i : Input} :
    many1 p i = t.outcome
      ↔ p i = t.outcome ∨ ∃ i' a, p i = .ok (i', a)
        ∧ many p (i'.length + 1) i' = t.outcome := by
  unfold many1
  rw [Trouble.bind_eq]
  refine or_congr_right ?_
  constructor
  · rintro ⟨⟨i', a⟩, hp, h⟩
    rcases Trouble.bind_eq.mp h with h | ⟨_, -, h⟩
    · exact ⟨i', a, hp, h⟩
    · exact absurd h (t.ne_ok _)
  · rintro ⟨i', a, hp, h⟩
    exact ⟨(i', a), hp, Trouble.bind_eq.mpr (Or.inl h)⟩

/-- The parser does not get into this trouble. -/
def Never (t : Trouble) (p : Parser α) : Prop := ∀ i, p i ≠ t.outcome

theorem Never.step {p : Parser α} (hp : Never t p)
    {f : Input × α → Outcome Err (Input × β)}
    (hf : ∀ a, Never t fun i => f (i, a)) : Never t fun i => p i >>= f := by
  intro i h
  rcases Trouble.bind_eq.mp h with h | ⟨⟨i', a⟩, -, h⟩
  · exact hp i h
  · exact hf a i' h

/-- So does one whose first part does not read. -/
theorem Never.check {x : Input → Outcome Err β} (hx : ∀ i, x i ≠ t.outcome)
    {f : Input → β → Outcome Err (Input × α)}
    (hf : ∀ b, Never t fun i => f i b) : Never t fun i => x i >>= f i := by
  intro i h
  rcases Trouble.bind_eq.mp h with h | ⟨b, -, h⟩
  · exact hx i h
  · exact hf b i h

theorem never_done (a : α) : Never t fun i => .ok (i, a) :=
  fun _ => t.ne_ok _

theorem never_error (kind : ErrorKind) :
    Never t fun _ => (.err (.error kind) : Outcome Err (Input × α)) :=
  fun _ => t.ne_error kind

theorem never_take (n : Nat) : Never t (take n) := by
  intro i
  unfold take
  split
  · exact t.ne_ok _
  · exact t.ne_error _

theorem never_tag (s : Input) : Never t (tag s) := by
  intro i
  unfold tag
  split
  · exact t.ne_ok _
  · exact t.ne_error _

theorem never_leU8 : Never t leU8 := by
  intro i
  match i with
  | [] => exact t.ne_error _
  | _ :: i => exact t.ne_ok _

theorem never_leU32 : Never t leU32 := by
  intro i
  match i with
  | [] | [_] | [_, _] | [_, _, _] => exact t.ne_error _
  | _ :: _ :: _ :: _ :: i => exact t.ne_ok _

theorem never_beU32 : Never t beU32 := by
  intro i
  match i with
  | [] | [_] | [_, _] | [_, _, _] => exact t.ne_error _
  | _ :: _ :: _ :: _ :: i => exact t.ne_ok _

theorem never_rest : Never t rest := fun _ => t.ne_ok _

theorem Never.map {p : Parser α} (hp : Never t p) (f : α → β) :
    Never t (Nom.map p f) :=
  hp.step fun a => never_done (f a)

theorem Never.mapRes {p : Parser α} (hp : Never t p) (f : α → Option β) :
    Never t (Nom.mapRes p f) := by
  refine hp.step fun a => ?_
  dsimp only
  cases f a with
  | some b => exact never_done b
  | none => exact never_error _

theorem Never.value {p : Parser α} (hp : Never t p) (b : β) :
    Never t (Nom.value b p) :=
  hp.map _

theorem Never.mapParser {p : Parser Input} (hp : Never t p) {q : Parser β}
    (hq : Never t q) : Never t (Nom.mapParser p q) := by
  refine hp.step fun o₁ i h => ?_
  rcases Trouble.bind_eq.mp h with h | ⟨_, -, h⟩
  · exact hq o₁ h
  · exact t.ne_ok _ h

theorem Never.opt {p : Parser α} (hp : Never t p) : Never t (Nom.opt p) :=
  fun i h => hp i (opt_eq_trouble.mp h)

/-- An input without trouble has an optional value. -/
theorem opt_eq_ok {p : Parser α} (hp : Ends p) {i : Input}
    (h : ∀ t : Trouble, p i ≠ t.outcome) : ∃ r, Nom.opt p i = .ok r := by
  unfold Nom.opt
  cases hcase : p i with
  | ok r => exact ⟨_, rfl⟩
  | err e =>
      cases e with
      | error kind => exact ⟨_, rfl⟩
      | incomplete => exact absurd hcase (h .incomplete)
  | panic => exact absurd hcase (h .panic)
  | running => exact absurd hcase (hp.returns _)

theorem never_alt {ps : List (Parser α)} (h : ∀ p ∈ ps, Never t p) :
    Never t (alt ps) := by
  induction ps with
  | nil => exact fun _ => t.ne_error _
  | cons p ps ih =>
      have hp := h p List.mem_cons_self
      match ps with
      | [] => exact hp
      | q :: ps =>
          have hrest := ih fun p' hp' => h p' (List.mem_cons_of_mem p hp')
          intro i hrun
          unfold alt at hrun
          split at hrun
          · exact hrest i hrun
          · exact hp i hrun

theorem Never.many {p : Parser α} (hp : Never t p) (fuel : Nat) :
    Never t (Nom.many p fuel) := by
  induction fuel with
  | zero =>
      intro i h
      cases t with
      | incomplete => cases h
      | panic => cases h
  | succ fuel ih =>
      intro i h
      rcases many_eq_trouble.mp h with h | ⟨i', _, -, -, h⟩
      · exact hp i h
      · exact ih i' h

theorem Never.many1 {p : Parser α} (hp : Never t p) :
    Never t (Nom.many1 p) := by
  intro i h
  rcases many1_eq_trouble.mp h with h | ⟨i', _, -, h⟩
  · exact hp i h
  · exact hp.many _ i' h

theorem Never.count {p : Parser α} (hp : Never t p) (n : Nat) :
    Never t (Nom.count p n) := by
  induction n with
  | zero => exact never_done []
  | succ n ih =>
      exact hp.step fun a => ih.step fun as => never_done (a :: as)

/-- A parser that comes to a result and is never in trouble answers with
a value or with an `Error`. -/
theorem ok_or_error {p : Parser α} (hreturns : ∀ i, p i ≠ .running)
    (hnever : ∀ t, Never t p) (i : Input) :
    (∃ r, p i = .ok r) ∨ ∃ kind, p i = .err (.error kind) := by
  cases hcase : p i with
  | ok r => exact Or.inl ⟨r, rfl⟩
  | err e =>
      cases e with
      | error kind => exact Or.inr ⟨kind, rfl⟩
      | incomplete => exact absurd hcase (hnever .incomplete i)
  | panic => exact absurd hcase (hnever .panic i)
  | running => exact absurd hcase (hreturns i)

-- ===================================================== lists of elements

/-- The parser reads these bytes as this value, whatever is behind
them. -/
def Takes (p : Parser α) (bytes : Input) (a : α) : Prop :=
  ∀ rest, p (bytes ++ rest) = .ok (rest, a)

/-- The first parser of a sequence has taken its bytes. -/
theorem Takes.bind {p : Parser α} {bytes : Input} {a : α}
    (h : Takes p bytes a) (f : Input × α → Outcome Err (Input × β))
    (rest : Input) : (p (bytes ++ rest) >>= f) = f (rest, a) := by
  rw [h rest, Outcome.ok_bind]

/-- The bytes have one value. -/
theorem Takes.unique {p : Parser α} {bytes : Input} {a a' : α}
    (h : Takes p bytes a) (h' : Takes p bytes a') : a = a' := by
  have heq := (h []).symm.trans (h' [])
  injection heq with heq
  injection heq

/-- Elements that the parser takes are passed by one by one. -/
theorem many_takes {p : Parser α} {bytes : List Input} {as : List α}
    (htakes : List.Forall₂ (Takes p) bytes as) {i : Input}
    (hi : ∀ r, p i ≠ .ok r) :
    ∀ fuel, (bytes.flatten ++ i).length < fuel →
      ∃ fuel', i.length < fuel'
        ∧ many p fuel (bytes.flatten ++ i)
          = (many p fuel' i >>= fun r => .ok (r.1, as ++ r.2)) := by
  induction htakes with
  | nil =>
      intro fuel hfuel
      refine ⟨fuel, hfuel, ?_⟩
      rw [List.flatten_nil, List.nil_append]
      cases many p fuel i with
      | ok r => rfl
      | err | panic | running => rfl
  | @cons bs a bytes as htake _ ih =>
      intro fuel hfuel
      have hne : bs ≠ [] := by
        intro h
        rw [h] at htake
        exact hi _ (htake i)
      have hpos := List.length_pos_iff.mpr hne
      rw [List.flatten_cons, List.append_assoc, List.length_append] at hfuel
      cases fuel with
      | zero => exact absurd hfuel (Nat.not_lt_zero _)
      | succ fuel =>
          obtain ⟨fuel', hfuel', hmany⟩ := ih fuel (by omega)
          refine ⟨fuel', hfuel', ?_⟩
          have hlen : (bs ++ (bytes.flatten ++ i)).length
              = bs.length + (bytes.flatten ++ i).length :=
            List.length_append
          rw [List.flatten_cons, List.append_assoc]
          conv => lhs; unfold many
          rw [htake]
          dsimp only
          rw [if_neg (by omega), hmany]
          cases many p fuel' i with
          | ok r => rfl
          | err | panic | running => rfl

/-- So they are at the front of a list. -/
theorem many1_cons_takes {p : Parser α} {bs : Input} {a : α}
    {bytes : List Input} {as : List α} (htake : Takes p bs a)
    (htakes : List.Forall₂ (Takes p) bytes as) {i : Input}
    (hi : ∀ r, p i ≠ .ok r) :
    ∃ fuel, i.length < fuel
      ∧ many1 p ((bs :: bytes).flatten ++ i)
        = (many p fuel i >>= fun r => .ok (r.1, a :: (as ++ r.2))) := by
  obtain ⟨fuel, hfuel, hmany⟩ :=
    many_takes htakes hi _ (Nat.lt_succ_self _)
  refine ⟨fuel, hfuel, ?_⟩
  unfold many1
  rw [List.flatten_cons, List.append_assoc, htake, Outcome.ok_bind]
  dsimp only
  rw [hmany]
  cases many p fuel i with
  | ok r => rfl
  | err | panic | running => rfl

/-- A list of elements is read to its end. -/
theorem many1_takes {p : Parser α} {bytes : List Input} {as : List α}
    (htakes : List.Forall₂ (Takes p) bytes as) (hne : bytes ≠ [])
    {i : Input} {kind : ErrorKind} (hi : p i = .err (.error kind)) :
    many1 p (bytes.flatten ++ i) = .ok (i, as) := by
  have hfail : ∀ r, p i ≠ .ok r := by
    rw [hi]
    exact fun _ h => nomatch h
  cases htakes with
  | nil => exact absurd rfl hne
  | @cons bs a bytes as htake hrest =>
      obtain ⟨fuel, hfuel, hmany⟩ := many1_cons_takes htake hrest hfail
      rw [hmany]
      cases fuel with
      | zero => exact absurd hfuel (Nat.not_lt_zero _)
      | succ fuel =>
          unfold many
          rw [hi]
          simp only [Outcome.ok_bind, List.append_nil]

/-- Trouble behind the elements is the trouble of the list. -/
theorem many1_trouble {p : Parser α} {bytes : List Input} {as : List α}
    (htakes : List.Forall₂ (Takes p) bytes as) {i : Input}
    (hi : p i = t.outcome) : many1 p (bytes.flatten ++ i) = t.outcome := by
  have hfail : ∀ r, p i ≠ .ok r := by
    rw [hi]
    exact fun r h => t.ne_ok r h.symm
  have hfirst : many1 p i = t.outcome := many1_eq_trouble.mpr (Or.inl hi)
  cases htakes with
  | nil => exact hfirst
  | @cons bs a bytes as htake hrest =>
      obtain ⟨fuel, hfuel, hmany⟩ := many1_cons_takes htake hrest hfail
      rw [hmany]
      refine Trouble.bind_eq.mpr (Or.inl ?_)
      cases fuel with
      | zero => exact absurd hfuel (Nat.not_lt_zero _)
      | succ fuel => exact many_eq_trouble.mpr (Or.inl hi)

-- ====================================================== numbers written

/-- The digits of a number to the base 256, the low one first. -/
def digits32 (n : UInt32) : List UInt8 :=
  [.ofNat n.toNat, .ofNat (n.toNat / 2 ^ 8), .ofNat (n.toNat / 2 ^ 16),
    .ofNat (n.toNat / 2 ^ 24)]

/-- They are the number again. -/
theorem ofNat_digits32 (n : UInt32) :
    UInt32.ofNat ((UInt8.ofNat n.toNat).toNat
      + 2 ^ 8 * (UInt8.ofNat (n.toNat / 2 ^ 8)).toNat
      + 2 ^ 16 * (UInt8.ofNat (n.toNat / 2 ^ 16)).toNat
      + 2 ^ 24 * (UInt8.ofNat (n.toNat / 2 ^ 24)).toNat) = n := by
  have hlt := n.toNat_lt
  simp only [UInt8.toNat_ofNat']
  have hsum : n.toNat % 2 ^ 8 + 2 ^ 8 * (n.toNat / 2 ^ 8 % 2 ^ 8)
      + 2 ^ 16 * (n.toNat / 2 ^ 16 % 2 ^ 8)
      + 2 ^ 24 * (n.toNat / 2 ^ 24 % 2 ^ 8) = n.toNat := by
    omega
  rw [hsum, UInt32.ofNat_toNat]

theorem takes_leU32 (n : UInt32) : Takes leU32 (digits32 n) n := by
  intro rest
  show Outcome.ok (rest, UInt32.ofNat _) = _
  rw [ofNat_digits32]

theorem takes_beU32 (n : UInt32) : Takes beU32 (digits32 n).reverse n := by
  intro rest
  show Outcome.ok (rest, UInt32.ofNat _) = _
  rw [ofNat_digits32]

/-- The same for two digits. -/
def digits16 (n : UInt16) : List UInt8 :=
  [.ofNat n.toNat, .ofNat (n.toNat / 2 ^ 8)]

theorem ofNat_digits16 (n : UInt16) :
    UInt16.ofNat ((UInt8.ofNat n.toNat).toNat
      + 2 ^ 8 * (UInt8.ofNat (n.toNat / 2 ^ 8)).toNat) = n := by
  have hlt := n.toNat_lt
  simp only [UInt8.toNat_ofNat']
  have hsum : n.toNat % 2 ^ 8 + 2 ^ 8 * (n.toNat / 2 ^ 8 % 2 ^ 8)
      = n.toNat := by
    omega
  rw [hsum, UInt16.ofNat_toNat]

theorem takes_leU16 (n : UInt16) : Takes leU16 (digits16 n) n := by
  intro rest
  show Outcome.ok (rest, UInt16.ofNat _) = _
  rw [ofNat_digits16]

theorem takes_beU16 (n : UInt16) : Takes beU16 (digits16 n).reverse n := by
  intro rest
  show Outcome.ok (rest, UInt16.ofNat _) = _
  rw [ofNat_digits16]

theorem takes_leU8 (n : UInt8) : Takes leU8 [n] n := fun _ => rfl

theorem takes_take {bytes : Input} {n : Nat} (h : bytes.length = n) :
    Takes (take n) bytes bytes := by
  intro rest
  have hle : n ≤ (bytes ++ rest).length := by
    rw [List.length_append]
    omega
  rw [take_of_le hle, List.drop_left' h, List.take_left' h]

-- ======================================================= any such bytes

/-- A field of `n` bytes: any `n` bytes are taken, whatever they are, and
fewer are the end of the input. -/
structure Field (n : Nat) (p : Parser α) : Prop where
  takes : ∀ bytes : Input, bytes.length = n → ∃ a, Takes p bytes a
  short : ∀ i : Input, i.length < n → p i = .err (.error .eof)

theorem field_leU8 : Field 1 leU8 where
  takes bytes h := by
    match bytes with
    | [n] => exact ⟨n, takes_leU8 n⟩
  short i h := by
    match i with
    | [] => rfl

theorem field_leU16 : Field 2 leU16 where
  takes bytes h := by
    match bytes with
    | [_, _] => exact ⟨_, fun _ => rfl⟩
  short i h := by
    match i with
    | [] | [_] => rfl

theorem field_beU16 : Field 2 beU16 where
  takes bytes h := by
    match bytes with
    | [_, _] => exact ⟨_, fun _ => rfl⟩
  short i h := by
    match i with
    | [] | [_] => rfl

theorem field_leU32 : Field 4 leU32 where
  takes bytes h := by
    match bytes with
    | [_, _, _, _] => exact ⟨_, fun _ => rfl⟩
  short i h := by
    match i with
    | [] | [_] | [_, _] | [_, _, _] => rfl

theorem field_beU32 : Field 4 beU32 where
  takes bytes h := by
    match bytes with
    | [_, _, _, _] => exact ⟨_, fun _ => rfl⟩
  short i h := by
    match i with
    | [] | [_] | [_, _] | [_, _, _] => rfl

theorem field_take (n : Nat) : Field n (take n) where
  takes bytes h := ⟨bytes, takes_take h⟩
  short _ h := if_neg (Nat.not_le_of_lt h)

theorem field_done (a : α) : Field 0 fun i => .ok (i, a) where
  takes bytes h := by
    rw [List.length_eq_zero_iff.mp h]
    exact ⟨a, fun _ => rfl⟩
  short _ h := absurd h (Nat.not_lt_zero _)

theorem Field.first {n : Nat} {p : Parser α} (hp : Field n p) {i : Input}
    (hle : n ≤ i.length) : ∃ a, p i = .ok (i.drop n, a) := by
  obtain ⟨a, ha⟩ := hp.takes (i.take n) (by rw [List.length_take]; omega)
  have hi := ha (i.drop n)
  rw [List.take_append_drop] at hi
  exact ⟨a, hi⟩

/-- A value behind a field is a field if it is one for any value of the
first; too short an input ends in one or in the other. -/
theorem Field.short_step {m n : Nat} {p : Parser α} (hp : Field m p)
    {f : Input × α → Outcome Err (Input × β)}
    (hf : ∀ a (i : Input), i.length < n →
      f (i, a) = .err (.error .eof)) {i : Input} (h : i.length < m + n) :
    (p i >>= f) = .err (.error .eof) := by
  by_cases hm : i.length < m
  · rw [hp.short i hm, Outcome.err_bind]
  · obtain ⟨a, hi⟩ := hp.first (Nat.le_of_not_lt hm)
    rw [hi, Outcome.ok_bind]
    exact hf a _ (by rw [List.length_drop]; omega)

/-- Fields behind each other are one. -/
theorem Field.step {m n : Nat} {p : Parser α} (hp : Field m p)
    {f : Input × α → Outcome Err (Input × β)}
    (hf : ∀ a, Field n fun i => f (i, a)) :
    Field (m + n) fun i => p i >>= f where
  takes bytes h := by
    obtain ⟨a, ha⟩ := hp.takes (bytes.take m)
      (by rw [List.length_take]; omega)
    obtain ⟨c, hc⟩ := (hf a).takes (bytes.drop m)
      (by rw [List.length_drop]; omega)
    refine ⟨c, fun rest => ?_⟩
    have hsplit : bytes ++ rest
        = bytes.take m ++ (bytes.drop m ++ rest) := by
      rw [← List.append_assoc, List.take_append_drop]
    show (p (bytes ++ rest) >>= f) = _
    rw [hsplit, ha, Outcome.ok_bind]
    exact hc rest
  short i h := hp.short_step (fun a => (hf a).short) h

/-- The values of all the fields of `n` bytes in an input: the `k`-th is
what is read `k` fields on. -/
def EachField (n : Nat) (p : Parser α) (i : Input) (as : List α) : Prop :=
  as.length = i.length / n
    ∧ ∀ k a, as[k]? = some a → ∃ r, p (i.drop (n * k)) = .ok (r, a)

theorem EachField.cons {n : Nat} {p : Parser α} {i : Input} {a : α}
    {as : List α} (hn : 0 < n) (hle : n ≤ i.length)
    (hi : p i = .ok (i.drop n, a)) (h : EachField n p (i.drop n) as) :
    EachField n p i (a :: as) := by
  obtain ⟨hcount, hall⟩ := h
  refine ⟨?_, fun k a' hk => ?_⟩
  · rw [List.length_cons, hcount, List.length_drop]
    exact (Nat.div_eq_sub_div hn hle).symm
  · cases k with
    | zero =>
        rw [List.getElem?_cons_zero] at hk
        injection hk with hk
        exact ⟨_, hk ▸ hi⟩
    | succ k =>
        obtain ⟨r, hr⟩ := hall k a' hk
        rw [List.drop_drop] at hr
        exact ⟨r, by rwa [Nat.mul_succ, Nat.add_comm]⟩

/-- Repeated, a field is read as often as the input holds it. -/
theorem Field.many {n : Nat} {p : Parser α} (hp : Field n p) (hn : 0 < n) :
    ∀ (fuel : Nat) (i : Input), i.length < fuel →
      ∃ r as, Nom.many p fuel i = .ok (r, as) ∧ EachField n p i as := by
  intro fuel
  induction fuel with
  | zero => exact fun _ h => absurd h (Nat.not_lt_zero _)
  | succ fuel ih =>
      intro i hfuel
      unfold Nom.many
      by_cases hshort : i.length < n
      · rw [hp.short i hshort]
        refine ⟨i, [], rfl, (Nat.div_eq_of_lt hshort).symm, fun k a h => ?_⟩
        simp at h
      · have hle : n ≤ i.length := Nat.le_of_not_lt hshort
        obtain ⟨a, hi⟩ := hp.first hle
        have hlen : (i.drop n).length = i.length - n := List.length_drop
        obtain ⟨r, as, hmany, has⟩ := ih (i.drop n) (by omega)
        rw [hi]
        dsimp only
        rw [if_neg (by omega), hmany]
        exact ⟨r, a :: as, rfl, has.cons hn hle hi⟩

theorem Field.many1 {n : Nat} {p : Parser α} (hp : Field n p) (hn : 0 < n)
    {i : Input} (hle : n ≤ i.length) :
    ∃ r as, Nom.many1 p i = .ok (r, as) ∧ EachField n p i as := by
  obtain ⟨a, hi⟩ := hp.first hle
  obtain ⟨r, as, hmany, has⟩ := hp.many hn _ (i.drop n) (Nat.lt_succ_self _)
  unfold Nom.many1
  rw [hi, Outcome.ok_bind]
  dsimp only
  rw [hmany]
  exact ⟨r, a :: as, rfl, has.cons hn hle hi⟩

end Nom
