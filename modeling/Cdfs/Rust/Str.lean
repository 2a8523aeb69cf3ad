/-
The standard library's strings and paths. A Rust `String` is a Lean
`String`: a byte sequence with a proof that it is valid UTF-8. What the
library does to the characters is written on the character list, what
it does to the bytes on `asBytes`.

A `PathBuf` on Unix is a string whose components are separated by `/`;
`pathJoin` is its `join`, with the two properties that make it more
than a concatenation: an absolute path replaces what it is joined to,
and the separator is added only where there is none yet.
-/
import Mathlib.Algebra.Group.Int.Defs
import Mathlib.Algebra.Group.Nat.Defs
import Mathlib.Data.List.DropRight

namespace Rust

-- ==================================================== bytes and UTF-8

/-- `str::as_bytes`. -/
def asBytes (s : String) : List UInt8 := s.toByteArray.data.toList

/-- `str::from_utf8`. -/
def fromUtf8 (bs : List UInt8) : Option String :=
  String.fromUTF8? bs.toByteArray

/-- Decoding succeeds exactly on the bytes of the string it returns. -/
theorem fromUtf8_eq_some {bs : List UInt8} {s : String} :
    fromUtf8 bs = some s ↔ asBytes s = bs := by
  have hinj : ∀ t : String, t.toByteArray = bs.toByteArray ↔ asBytes t = bs := by
    intro t
    constructor
    · intro h
      simp only [asBytes, h, List.data_toByteArray]
    · intro h
      apply ByteArray.ext
      rw [List.data_toByteArray, ← h]
      simp [asBytes]
  unfold fromUtf8 String.fromUTF8?
  split
  · rename_i hv
    constructor
    · intro h
      injection h with h
      subst h
      exact (hinj _).mp rfl
    · intro h
      have hs := (hinj s).mpr h
      exact congrArg some (String.toByteArray_inj.mp hs.symm)
  · rename_i hv
    constructor
    · intro h
      cases h
    · intro h
      have hs := (hinj s).mpr h
      exact absurd (hs ▸ s.isValidUTF8) hv

theorem fromUtf8_asBytes (s : String) : fromUtf8 (asBytes s) = some s :=
  fromUtf8_eq_some.mpr rfl

theorem asBytes_injective : Function.Injective asBytes := by
  intro s t h
  have hs := fromUtf8_asBytes s
  rw [h, fromUtf8_asBytes t] at hs
  injection hs with hs
  exact hs.symm

theorem asBytes_eq_nil {s : String} : asBytes s = [] ↔ s = "" :=
  ⟨fun h => asBytes_injective (h.trans (rfl : [] = asBytes "")),
    fun h => h ▸ rfl⟩

-- ======================================================== characters

/-- `char::is_whitespace`: the Unicode property `White_Space`. -/
def isWhitespace (c : Char) : Bool :=
  let n := c.toNat
  (0x9 ≤ n && n ≤ 0xD) || n == 0x20 || n == 0x85 || n == 0xA0
    || n == 0x1680 || (0x2000 ≤ n && n ≤ 0x200A) || n == 0x2028
    || n == 0x2029 || n == 0x202F || n == 0x205F || n == 0x3000

/-- `str::trim_end`. -/
def trimEnd (s : String) : String :=
  String.ofList (s.toList.rdropWhile isWhitespace)

/-- `str::trim_matches`, for a single character. -/
def trimMatches (c : Char) (s : String) : String :=
  String.ofList ((s.toList.dropWhile (· == c)).rdropWhile (· == c))

/-- `str::eq_ignore_ascii_case`. -/
def eqIgnoreAsciiCase (s t : String) : Bool :=
  s.toList.map Char.toLower == t.toList.map Char.toLower

theorem eqIgnoreAsciiCase_refl (s : String) :
    eqIgnoreAsciiCase s s = true := by
  simp [eqIgnoreAsciiCase]

/-- The text before and after the last `c`, if there is one: `rfind`
with the two slices its callers take. -/
def rsplitOnce (c : Char) (s : String) : Option (String × String) :=
  let l := s.toList
  if c ∈ l then
    let after := (l.reverse.takeWhile (· != c)).reverse
    some (String.ofList (l.take (l.length - after.length - 1)),
      String.ofList after)
  else none

/-- The text without its last character when that is `c`: `ends_with`
and `pop`. -/
def popIf (c : Char) (s : String) : String :=
  if s.toList.getLast? = some c then String.ofList s.toList.dropLast else s

/-- `u16::from_str`: one digit or more, a plus sign before them at the
most, and a value below `2 ^ 16`. -/
def parseU16 (s : String) : Option UInt16 :=
  let digits := match s.toList with
    | '+' :: ds => ds
    | ds => ds
  if digits.isEmpty || !digits.all Char.isDigit then none
  else
    let n := digits.foldl (fun n d => 10 * n + (d.toNat - '0'.toNat)) 0
    if n < 2 ^ 16 then some (.ofNat n) else none

/-- `i32::from_str`: one digit or more, a sign before them at the most,
and a value of 32 bits. -/
def parseI32 (s : String) : Option Int :=
  let (negative, digits) := match s.toList with
    | '+' :: ds => (false, ds)
    | '-' :: ds => (true, ds)
    | ds => (false, ds)
  if digits.isEmpty || !digits.all Char.isDigit then none
  else
    let n := digits.foldl (fun n d => 10 * n + (d.toNat - '0'.toNat)) 0
    let n : Int := if negative then -(n : Int) else n
    if -2 ^ 31 ≤ n ∧ n < 2 ^ 31 then some n else none

-- ============================================================== paths

/-- `Path::join`. -/
def pathJoin (acc p : String) : String :=
  if p.toList.head? = some '/' then p
  else if acc.toList.getLast?.any (· != '/') then acc ++ "/" ++ p
  else acc ++ p

example : pathJoin "a" "b" = "a/b" := by decide

end Rust
