/-
How names are recorded. What a record has besides the place of an extent
is up to a `Recording`: the identifier of a name, and the system use
entries behind it. It carries that a reader makes of them what is meant,
so that a disc can be laid out and read back whatever the recording is
(`Cdfs.Proofs.Mastering`, `Cdfs.Proofs.ReadBack`).

ECMA-119 alone is the recording without entries (`ecma119`); with Rock
Ridge there are names, modes, times and links (`Cdfs.Proofs.RockRidgeDisc`).
-/
import Cdfs.Examples.PrintTree
import Cdfs.Proofs.EntryAt
import Cdfs.Proofs.EntryName
import Cdfs.Proofs.RecordRoundTrip

namespace Cdfs

open Rust Parse

-- ============================================================ recordings

/-- What a directory has a record for: itself, at the top or not, its
parent, and its names. -/
inductive Label (ν : Type) where
  | own (top : Bool)
  | parent
  | leaf (name : ν)
  | folder (name : ν)

/-- What is recorded, and what is to be read. -/
structure Scheme where
  Name : Type
  /-- the name that is read -/
  text : Name → String
  /-- what a leaf of this name links to, if it is a link -/
  target : Name → Option String
  modified : Name → Option OffsetDateTime
  /-- what `print_tree` has in front of the time -/
  shownMode : Label Name → String
  identifier : Label Name → RecordedName
  entries : Label Name → List SuspRecord
  ext : Label Name → ExtraMeta

namespace Scheme

variable (S : Scheme) (l : Label S.Name)

/-- The entries as they are decoded. -/
def susp : List SystemUseEntry := (S.entries l).map (·.decoded)

/-- How many bytes the record has. -/
def size : ℕ :=
  33 + (S.identifier l).bytes.length + pad (S.identifier l).bytes.length
    + ((S.entries l).flatMap (·.frame.encode)).length

/-- The name in a record: the Rock Ridge name, if there is one. -/
def name : String := (S.ext l).name (S.identifier l).identifier

end Scheme

/-- A scheme that is read as it is meant. -/
structure Recording extends Scheme where
  size_le : ∀ l, toScheme.size l ≤ 255
  extraMeta_eq : ∀ b l, extraMeta b (toScheme.susp l) = .ok (ext l)
  noContinuation : ∀ l, continuations (toScheme.susp l) = []
  noChildLink : ∀ l, childLink (toScheme.susp l) = none
  identifier_own : ∀ top, identifier (.own top) = .self
  identifier_parent : identifier .parent = .parent
  /-- a directory does not give itself another name, or a number -/
  anonymous : ∀ top, (ext (.own top)).altName = none
    ∧ (ext (.own top)).attributes = none
  anonymous_parent : (ext .parent).altName = none
  folder_name : ∀ n, toScheme.name (.folder n) = text n
  /-- and it does not stand for a directory itself or its parent -/
  folder_text : ∀ n, text n ∉ ["\x00", "\x01", ".", ".."]
  leaf_name : ∀ n, splitVersion (toScheme.name (.leaf n)) = .ok (text n, 1)
  leaf_link : ∀ n, (ext (.leaf n)).attributes.any
    (contains ·.mode PosixFileMode.TYPE_SYMLINK) = (target n).isSome
  leaf_target : ∀ n, (ext (.leaf n)).symlinkTarget = target n
  leaf_modified : ∀ n, (ext (.leaf n)).timestamps.modify = modified n
  folder_modified : ∀ n, (ext (.folder n)).timestamps.modify = modified n
  modeText_eq : ∀ b l,
    modeText b ((ext l).attributes.map (·.mode)) = .ok (shownMode l)

-- ================================================= names without extensions

/-- A name that is read as it was written: nothing is cut off at its end,
and it does not stand for a directory itself or its parent. -/
structure FileName where
  text : String
  nonempty : text ≠ ""
  trimmed : trimEnd text = text
  noFinalDot : text.toList.getLast? ≠ some '.'
  notOwn : text ≠ "\x00"
  notParent : text ≠ "\x01"
  short : (asBytes text).length ≤ 219

namespace FileName

variable (n : FileName)

/-- The name of a file has a version behind it. -/
def versioned : String := n.text ++ ";1"

/-- The characters of a name with its version. -/
theorem toList_versioned :
    n.versioned.toList = n.text.toList ++ [';', '1'] := by
  unfold versioned
  rw [String.toList_append]
  rfl

/-- A version ends in a digit, so nothing is trimmed off it. -/
theorem trimEnd_versioned : trimEnd n.versioned = n.versioned := by
  unfold trimEnd
  rw [toList_versioned, ← List.singleton_append, ← List.append_assoc,
    List.rdropWhile_concat_neg _ _ _ (by decide), List.append_assoc,
    List.singleton_append, ← toList_versioned, String.ofList_toList]

/-- The version is split off again, and what is left is the name. -/
theorem splitVersion_versioned :
    splitVersion n.versioned = .ok (n.text, 1) := by
  have hsplit : rsplitOnce ';' n.versioned = some (n.text, "1") := by
    have h := rsplitOnce_append (c := ';') (l := n.text.toList) (r := ['1'])
      (by decide)
    rw [← toList_versioned, String.ofList_toList, String.ofList_toList] at h
    exact h
  unfold splitVersion
  rw [hsplit]
  dsimp only
  rw [popIf_eq_self_iff.mpr n.noFinalDot]
  rfl

theorem versioned_ne : n.versioned ≠ "" := by
  intro h
  have hlist := n.toList_versioned
  rw [h] at hlist
  simp at hlist

/-- A version takes two bytes. -/
theorem length_versioned :
    (asBytes n.versioned).length = (asBytes n.text).length + 2 := by
  rw [asBytes_eq_flatMap, toList_versioned, List.flatMap_append,
    List.length_append, ← asBytes_eq_flatMap]
  rfl

/-- The name is none of those that stand for a directory. -/
theorem special : n.text ∉ ["\x00", "\x01", ".", ".."] := by
  simp only [List.mem_cons, List.not_mem_nil, or_false, not_or]
  refine ⟨n.notOwn, n.notParent, fun h => ?_, fun h => ?_⟩
  · exact n.noFinalDot (by rw [h]; rfl)
  · exact n.noFinalDot (by rw [h]; rfl)

/-- The identifier of a name. -/
def identifier : Label FileName → RecordedName
  | .own _ => .self
  | .parent => .parent
  | .leaf n => .text n.versioned n.versioned_ne n.trimEnd_versioned
  | .folder n => .text n.text n.nonempty n.trimmed

end FileName

/-- Every identifier leaves room in a record for its fixed part. -/
theorem FileName.length_identifier (l : Label FileName) :
    (identifier l).bytes.length ≤ 221 := by
  cases l with
  | own | parent => exact Nat.le_of_ble_eq_true rfl
  | leaf n =>
      have hshort := n.short
      have hlen := n.length_versioned
      show (asBytes n.versioned).length ≤ 221
      omega
  | folder n => exact n.short.trans (by decide)

-- ===================================================== the plain recording

namespace Recording

/-- Identifiers, and nothing behind them. -/
def plainScheme : Scheme where
  Name := FileName
  text n := n.text
  target _ := none
  modified _ := none
  shownMode _ := ""
  identifier := FileName.identifier
  entries _ := []
  ext _ := ExtraMeta.default

/-- A record without entries is at most 255 bytes long. -/
theorem plain_size_le (l : Label FileName) : plainScheme.size l ≤ 255 := by
  have hlen := FileName.length_identifier l
  show 33 + (FileName.identifier l).bytes.length
    + pad (FileName.identifier l).bytes.length + 0 ≤ 255
  unfold pad
  omega

/-- Without entries there is no metadata. -/
theorem plain_extraMeta (b : Build) (l : Label FileName) :
    extraMeta b (plainScheme.susp l) = .ok ExtraMeta.default := rfl

theorem plain_continuations (l : Label FileName) :
    continuations (plainScheme.susp l) = [] := rfl

theorem plain_childLink (l : Label FileName) :
    childLink (plainScheme.susp l) = none := rfl

theorem plain_identifier_own (top : Bool) :
    FileName.identifier (.own top) = .self := rfl

theorem plain_identifier_parent : FileName.identifier .parent = .parent := rfl

theorem default_anonymous : ExtraMeta.default.altName = none
    ∧ ExtraMeta.default.attributes = none := ⟨rfl, rfl⟩

theorem plain_folder_name (n : FileName) :
    plainScheme.name (.folder n) = n.text := rfl

theorem default_not_link : ExtraMeta.default.attributes.any
    (contains ·.mode PosixFileMode.TYPE_SYMLINK) = false := rfl

theorem default_target : ExtraMeta.default.symlinkTarget = none := rfl

theorem default_modified : ExtraMeta.default.timestamps.modify = none := rfl

/-- And without a mode `print_tree` has nothing in front of the time. -/
theorem default_modeText (b : Build) :
    modeText b (ExtraMeta.default.attributes.map (·.mode)) = .ok "" := rfl

/-- The format as ECMA-119 has it. -/
def ecma119 : Recording where
  toScheme := plainScheme
  size_le := plain_size_le
  extraMeta_eq := plain_extraMeta
  noContinuation := plain_continuations
  noChildLink := plain_childLink
  identifier_own := plain_identifier_own
  identifier_parent := plain_identifier_parent
  anonymous _ := default_anonymous
  anonymous_parent := default_anonymous.1
  folder_name := plain_folder_name
  folder_text n := n.special
  leaf_name n := n.splitVersion_versioned
  leaf_link _ := default_not_link
  leaf_target _ := default_target
  leaf_modified _ := default_modified
  folder_modified _ := default_modified
  modeText_eq b _ := default_modeText b

end Recording

end Cdfs
