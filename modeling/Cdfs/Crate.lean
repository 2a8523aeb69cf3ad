/-
What the whole crate shares: how it was built, the errors it reports
and the block.

A `Build` collects what the source leaves to the build: two cargo
features, the overflow checks of the profile, and the one function of a
dependency that decodes text (`encoding_rs`, used for Joliet names
only). Every definition that reads one of them takes the build as an
argument, and the theorems hold of every build.

The `verbose-error` feature changes what an error carries and nothing
else; the errors here are those of a build without it.
-/
import Cdfs.Nom.Combinators
import Cdfs.Rust.Str

namespace Cdfs

open Rust

-- ============================================================ the build

/-- A build of the crate. -/
structure Build where
  /-- the feature `assertions` -/
  assertions : Bool
  /-- the profile's `overflow-checks` -/
  overflowChecks : Bool
  /-- the feature `big-endian` -/
  bigEndian : Bool
  /-- `UTF_16BE.decode`: the text, and whether there were errors -/
  decodeUtf16be : List UInt8 → String × Bool

-- ============================================================ the errors

/-- `io::Error`, by where it was made. -/
inductive IoError where
  /-- by the block source, with its error code -/
  | device (code : Nat)
  /-- by a seek to a position before the start of the file -/
  | invalidSeek
  deriving DecidableEq, Repr

/-- The master error structure. -/
inductive ISOError where
  | io (e : IoError)
  | invalidFs (what : String)
  | parseInt
  | readSize (count : Nat)
  | nom (kind : Nom.ErrorKind)
  deriving DecidableEq, Repr

variable {α : Type}

/-- `From<nom::Err> for ISOError`, through the `?` of a caller outside
the parsers: an `Incomplete` that gets this far is a panic. -/
def liftNom : Outcome Nom.Err α → Outcome ISOError α
  | .ok a => .ok a
  | .err (.error kind) => .err (.nom kind)
  | .err .incomplete => .panic
  | .panic => .panic
  | .running => .running

theorem liftNom_eq_ok {x : Outcome Nom.Err α} {a : α} :
    liftNom x = .ok a ↔ x = .ok a := by
  match x with
  | .ok _ => simp [liftNom]
  | .err (.error _) => simp [liftNom]
  | .err .incomplete => simp [liftNom]
  | .panic => simp [liftNom]
  | .running => simp [liftNom]

theorem liftNom_eq_running {x : Outcome Nom.Err α} :
    liftNom x = .running ↔ x = .running := by
  match x with
  | .ok _ => simp [liftNom]
  | .err (.error _) => simp [liftNom]
  | .err .incomplete => simp [liftNom]
  | .panic => simp [liftNom]
  | .running => simp [liftNom]

/-- A parser in trouble is a panic of its caller. -/
theorem liftNom_eq_panic {x : Outcome Nom.Err α} :
    liftNom x = .panic ↔ ∃ t : Nom.Trouble, x = t.outcome := by
  constructor
  · intro h
    match x with
    | .err .incomplete => exact ⟨.incomplete, rfl⟩
    | .panic => exact ⟨.panic, rfl⟩
  · rintro ⟨t, rfl⟩
    cases t with
    | incomplete => rfl
    | panic => rfl

-- ============================================================= the block

/-- The size of a filesystem block, hardcoded to 2048. -/
abbrev BLOCK_SIZE : Nat := 2048

/-- A byte array big enough to hold an entire filesystem block. -/
structure BlockBuffer where
  bytes : List UInt8
  size : bytes.length = BLOCK_SIZE
  deriving DecidableEq

namespace BlockBuffer

/-- A new, zero initialized buffer. -/
def new : BlockBuffer :=
  ⟨List.replicate BLOCK_SIZE 0, List.length_replicate⟩

@[ext] theorem ext {b b' : BlockBuffer} (h : b.bytes = b'.bytes) : b = b' := by
  cases b
  cases b'
  cases h
  rfl

/-- A source that answers with a buffer answers with a block at most. -/
theorem delivered_le (b : BlockBuffer) {ε : Type} {bs : List UInt8}
    (h : (.ok b.bytes : Outcome ε (List UInt8)) = .ok bs) :
    bs.length ≤ BLOCK_SIZE := by
  injection h with h
  rw [← h]
  exact Nat.le_of_eq b.size

/-- The buffer after `bs` was written to its front. -/
def overwrite (b : BlockBuffer) (bs : List UInt8) : BlockBuffer :=
  ⟨bs.take BLOCK_SIZE ++ b.bytes.drop (bs.take BLOCK_SIZE).length, by
    have hb := b.size
    simp only [List.length_append, List.length_take, List.length_drop, hb]
    omega⟩

/-- A whole block replaces everything. -/
theorem overwrite_full (b : BlockBuffer) {bs : List UInt8}
    (h : bs.length = BLOCK_SIZE) : b.overwrite bs = ⟨bs, h⟩ := by
  apply ext
  have hb := b.size
  have htake : bs.take BLOCK_SIZE = bs := List.take_of_length_le (by omega)
  simp only [overwrite, htake]
  rw [List.drop_of_length_le (by omega), List.append_nil]

/-- The bytes written are found at the front. -/
theorem take_overwrite (b : BlockBuffer) {bs : List UInt8} {n : Nat}
    (hbs : bs.length ≤ BLOCK_SIZE) (hn : n ≤ bs.length) :
    (b.overwrite bs).bytes.take n = bs.take n := by
  have htake : bs.take BLOCK_SIZE = bs := List.take_of_length_le hbs
  simp only [overwrite, htake]
  rw [List.take_append_of_le_length hn]

theorem getElem?_overwrite (b : BlockBuffer) {bs : List UInt8} {k : Nat}
    (hbs : bs.length ≤ BLOCK_SIZE) (hk : k < bs.length) :
    (b.overwrite bs).bytes[k]? = bs[k]? := by
  have htake : bs.take BLOCK_SIZE = bs := List.take_of_length_le hbs
  simp only [overwrite, htake]
  rw [List.getElem?_append_left hk]

end BlockBuffer

end Cdfs
