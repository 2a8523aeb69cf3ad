/-
`Display for PosixFileMode` (`parse/susp.rs`): a mode as ten letters.

The letters show the type and the bits that `From<PosixFileMode> for
u16` keeps, and nothing else (`display_eq_iff`): the sticky bit is
neither kept nor shown.
-/
import Cdfs.DirectoryEntry.ExtraAttributes

namespace Cdfs

open Rust Parse

namespace Parse.PosixFileMode

abbrev TYPE_SOCKET : UInt32 := 0o140000
abbrev TYPE_FILE : UInt32 := 0o100000
abbrev TYPE_BLOCK_DEV : UInt32 := 0o060000
abbrev TYPE_DIRECTORY : UInt32 := 0o040000
abbrev TYPE_CHAR_DEV : UInt32 := 0o020000
abbrev TYPE_PIPE : UInt32 := 0o010000
abbrev SET_UID : UInt32 := 0o004000
abbrev SET_GID : UInt32 := 0o002000
abbrev OWN_READ : UInt32 := 0o000400
abbrev OWN_WRITE : UInt32 := 0o000200
abbrev OWN_EXEC : UInt32 := 0o000100
abbrev GROUP_READ : UInt32 := 0o000040
abbrev GROUP_WRITE : UInt32 := 0o000020
abbrev GROUP_EXEC : UInt32 := 0o000010
abbrev WORLD_READ : UInt32 := 0o000004
abbrev WORLD_WRITE : UInt32 := 0o000002
abbrev WORLD_EXEC : UInt32 := 0o000001

variable {ε : Type} (b : Build) (mode : UInt32)

/-- The letter of the type. -/
def typeLetter : Outcome ε Char :=
  if contains mode TYPE_SOCKET then .ok 's'
  else if contains mode TYPE_SYMLINK then .ok 'l'
  else if contains mode TYPE_FILE then .ok '-'
  else if contains mode TYPE_BLOCK_DEV then .ok 'b'
  else if contains mode TYPE_DIRECTORY then .ok 'd'
  else if contains mode TYPE_CHAR_DEV then .ok 'c'
  else if contains mode TYPE_PIPE then .ok 'p'
  else if b.assertions then .panic -- `unimplemented!`
  else .ok '?'

/-- The letter of a bit. -/
def bitLetter (flag : UInt32) (c : Char) : Char :=
  if contains mode flag then c else '-'

/-- The letter of two bits: may be executed, and is then run as
another. -/
def execLetter (exec set : UInt32) : Char :=
  if contains mode exec then
    if contains mode set then 'S' else 'x'
  else if contains mode set then 's'
  else '-'

/-- The letters behind the type. -/
def letters : List Char :=
  [bitLetter mode OWN_READ 'r', bitLetter mode OWN_WRITE 'w',
    execLetter mode OWN_EXEC SET_UID,
    bitLetter mode GROUP_READ 'r', bitLetter mode GROUP_WRITE 'w',
    execLetter mode GROUP_EXEC SET_GID,
    bitLetter mode WORLD_READ 'r', bitLetter mode WORLD_WRITE 'w',
    bitLetter mode WORLD_EXEC 'x']

/-- `Display::fmt`. -/
def display : Outcome ε String := do
  let c ← typeLetter b mode
  .ok (String.ofList (c :: letters mode))

-- ============================================================= the bits

variable {mode} {mode' : UInt32}

theorem bitLetter_eq_iff {flag : UInt32} {c : Char} (hc : c ≠ '-') :
    bitLetter mode flag c = bitLetter mode' flag c
      ↔ contains mode flag = contains mode' flag := by
  unfold bitLetter
  cases contains mode flag with
  | true =>
      cases contains mode' flag with
      | true => simp
      | false => simpa using hc
  | false =>
      cases contains mode' flag with
      | true => simpa using hc.symm
      | false => simp

theorem execLetter_eq_iff {exec set : UInt32} :
    execLetter mode exec set = execLetter mode' exec set
      ↔ contains mode exec = contains mode' exec
        ∧ contains mode set = contains mode' set := by
  unfold execLetter
  cases contains mode exec with
  | true | false =>
      cases contains mode' exec with
      | true | false =>
          cases contains mode set with
          | true | false =>
              cases contains mode' set with
              | true | false => decide

theorem contains_two_pow (i : ℕ) (hi : i < 32) :
    contains mode (UInt32.ofNat (2 ^ i)) = mode.toNat.testBit i := by
  have hpow : (UInt32.ofNat (2 ^ i)).toNat = 2 ^ i :=
    UInt32.toNat_ofNat_of_lt' (Nat.pow_lt_pow_right (by decide) hi)
  rw [Bool.eq_iff_iff]
  unfold contains
  rw [beq_iff_eq, ← UInt32.toNat_inj, UInt32.toNat_and, hpow]
  constructor
  · intro h
    have hbit := congrArg (Nat.testBit · i) h
    simpa using hbit
  · intro h
    apply Nat.eq_of_testBit_eq
    intro j
    rw [Nat.testBit_and, Nat.testBit_two_pow]
    by_cases hij : i = j
    · rw [← hij, h]
      simp
    · simp [hij]

/-- Numbers agree under a mask if they do in the bits of the mask. -/
theorem and_eq_and_iff {m m' mask : ℕ} :
    m &&& mask = m' &&& mask
      ↔ ∀ i, mask.testBit i = true → m.testBit i = m'.testBit i := by
  constructor
  · intro h i hi
    have hbit := congrArg (Nat.testBit · i) h
    simpa only [Nat.testBit_and, hi, Bool.and_true] using hbit
  · intro h
    apply Nat.eq_of_testBit_eq
    intro i
    rw [Nat.testBit_and, Nat.testBit_and]
    cases hi : mask.testBit i with
    | true => rw [h i hi]
    | false => simp

/-- The bits of the mask are the flags that have a letter. -/
theorem permissions_eq_iff :
    permissions mode = permissions mode'
      ↔ ∀ flag ∈ [OWN_READ, OWN_WRITE, OWN_EXEC, SET_UID, GROUP_READ,
          GROUP_WRITE, GROUP_EXEC, SET_GID, WORLD_READ, WORLD_WRITE,
          WORLD_EXEC], contains mode flag = contains mode' flag := by
  have hmask : ALL_PERMISSIONS.toNat = 0o6777 := rfl
  rw [← UInt16.toNat_inj, permissions_toNat, permissions_toNat,
    UInt32.toNat_and, UInt32.toNat_and, hmask, and_eq_and_iff]
  have hflag : ∀ i, i < 32 →
      (contains mode (UInt32.ofNat (2 ^ i))
          = contains mode' (UInt32.ofNat (2 ^ i))
        ↔ mode.toNat.testBit i = mode'.toNat.testBit i) := by
    intro i hi
    rw [contains_two_pow i hi, contains_two_pow i hi]
  constructor
  · intro h flag hmem
    have hbit : ∃ i, i < 32 ∧ flag = UInt32.ofNat (2 ^ i)
        ∧ (0o6777).testBit i = true := by
      simp only [List.mem_cons, List.not_mem_nil, or_false] at hmem
      rcases hmem with rfl | rfl | rfl | rfl | rfl | rfl | rfl | rfl | rfl |
        rfl | rfl
      · exact ⟨8, by decide⟩
      · exact ⟨7, by decide⟩
      · exact ⟨6, by decide⟩
      · exact ⟨11, by decide⟩
      · exact ⟨5, by decide⟩
      · exact ⟨4, by decide⟩
      · exact ⟨3, by decide⟩
      · exact ⟨10, by decide⟩
      · exact ⟨2, by decide⟩
      · exact ⟨1, by decide⟩
      · exact ⟨0, by decide⟩
    obtain ⟨i, hi, rfl, hset⟩ := hbit
    exact (hflag i hi).mpr (h i hset)
  · intro h i hset
    have hi : i < 12 := by
      by_contra hge
      rw [Nat.testBit_lt_two_pow (Nat.lt_of_lt_of_le (by decide :
        0o6777 < 2 ^ 12) (Nat.pow_le_pow_right (by decide)
          (Nat.not_lt.mp hge)))] at hset
      cases hset
    have hmem : ∀ i < 12, (0o6777).testBit i = true →
        UInt32.ofNat (2 ^ i) ∈ [OWN_READ, OWN_WRITE, OWN_EXEC, SET_UID,
          GROUP_READ, GROUP_WRITE, GROUP_EXEC, SET_GID, WORLD_READ,
          WORLD_WRITE, WORLD_EXEC] := by
      decide
    exact (hflag i (by omega)).mp (h _ (hmem i hi hset))

-- =========================================================== the letters

/-- The letters show the permissions. -/
theorem letters_eq_iff :
    letters mode = letters mode' ↔ permissions mode = permissions mode' := by
  rw [permissions_eq_iff]
  simp only [letters, List.cons.injEq, and_true,
    bitLetter_eq_iff (by decide : 'r' ≠ '-'),
    bitLetter_eq_iff (by decide : 'w' ≠ '-'),
    bitLetter_eq_iff (by decide : 'x' ≠ '-'), execLetter_eq_iff,
    List.mem_cons, List.not_mem_nil, or_false, forall_eq_or_imp, forall_eq]
  tauto

/-- Two modes have the same text if and only if they have the same type
letter and the same permissions. -/
theorem display_eq_iff {text : String}
    (h : display b mode = (.ok text : Outcome ε String)) :
    display b mode' = (.ok text : Outcome ε String)
      ↔ typeLetter b mode' = (typeLetter b mode : Outcome ε Char)
        ∧ permissions mode' = permissions mode := by
  unfold display at h ⊢
  obtain ⟨c, hc, htext⟩ := Outcome.bind_eq_ok.mp h
  injection htext with htext
  subst htext
  rw [hc, Outcome.bind_eq_ok, ← letters_eq_iff]
  constructor
  · rintro ⟨c', hc', heq⟩
    injection heq with heq
    have hlist := String.ofList_injective heq
    injection hlist with hchar hletters
    rw [hc', hchar]
    exact ⟨rfl, hletters⟩
  · rintro ⟨hc', hletters⟩
    exact ⟨c, hc', by rw [hletters]⟩

/-- The sticky bit has no letter. -/
theorem display_sticky :
    display ⟨true, true, false, fun _ => ("", false)⟩ 0o105755
      = (.ok "-rwSr-xr-x" : Outcome Unit String) :=
  (display_eq_iff _ (rfl : display _ 0o104755 = .ok "-rwSr-xr-x")).mpr
    ⟨rfl, rfl⟩

theorem contains_type {flag : UInt32} (h : 0o170000 &&& flag = flag) :
    contains mode flag = contains (mode &&& 0o170000) flag := by
  unfold contains
  rw [UInt32.and_assoc, h]

/-- There is a text, except where a build with assertions meets a mode
without a type. -/
theorem display_panics_iff :
    display b mode = (.panic : Outcome ε String)
      ↔ b.assertions = true ∧ mode &&& 0o170000 = 0 := by
  have htext : display b mode = (.panic : Outcome ε String)
      ↔ typeLetter b mode = (.panic : Outcome ε Char) := by
    unfold display
    cases typeLetter b mode with
    | ok | err | panic | running => simp [bind, Outcome.bind]
  rw [htext]
  constructor
  · intro h
    unfold typeLetter at h
    split_ifs at h with _ _ hfile _ hdir hchar hpipe hassert
    refine ⟨hassert, UInt32.toNat_inj.mp ?_⟩
    rw [UInt32.toNat_and]
    show mode.toNat &&& 0o170000 = 0 &&& 0o170000
    rw [and_eq_and_iff]
    intro i hset
    have hi : i < 16 := by
      by_contra hge
      rw [Nat.testBit_lt_two_pow (Nat.lt_of_lt_of_le (by decide :
        0o170000 < 2 ^ 16) (Nat.pow_le_pow_right (by decide)
          (Nat.not_lt.mp hge)))] at hset
      cases hset
    have htype : ∀ i < 16, (0o170000).testBit i = true →
        i = 12 ∨ i = 13 ∨ i = 14 ∨ i = 15 := by
      decide
    rw [Nat.zero_testBit, ← contains_two_pow i (by omega)]
    rcases htype i hi hset with rfl | rfl | rfl | rfl
    · exact Bool.eq_false_of_not_eq_true hpipe
    · exact Bool.eq_false_of_not_eq_true hchar
    · exact Bool.eq_false_of_not_eq_true hdir
    · exact Bool.eq_false_of_not_eq_true hfile
  · rintro ⟨hassert, hzero⟩
    have hnone : ∀ flag : UInt32, 0o170000 &&& flag = flag → flag ≠ 0 →
        contains mode flag = false := by
      intro flag hflag hne
      rw [contains_type hflag, hzero]
      unfold contains
      rw [UInt32.zero_and]
      simpa using hne.symm
    unfold typeLetter
    rw [hnone TYPE_SOCKET rfl (by decide),
      hnone TYPE_SYMLINK rfl (by decide), hnone TYPE_FILE rfl (by decide),
      hnone TYPE_BLOCK_DEV rfl (by decide),
      hnone TYPE_DIRECTORY rfl (by decide),
      hnone TYPE_CHAR_DEV rfl (by decide), hnone TYPE_PIPE rfl (by decide),
      hassert]
    rfl

theorem typeLetter_cases :
    (∃ c, typeLetter b mode = (.ok c : Outcome ε Char))
      ∨ typeLetter b mode = (.panic : Outcome ε Char) := by
  unfold typeLetter
  split_ifs
  all_goals first | exact Or.inl ⟨_, rfl⟩ | exact Or.inr rfl

/-- There is a text, or the program panics. -/
theorem display_cases :
    (∃ text, display b mode = (.ok text : Outcome ε String))
      ∨ display b mode = (.panic : Outcome ε String) := by
  unfold display
  rcases @typeLetter_cases ε b mode with ⟨c, h⟩ | h
  · rw [h]
    exact Or.inl ⟨_, rfl⟩
  · rw [h]
    exact Or.inr rfl

end Parse.PosixFileMode

end Cdfs
