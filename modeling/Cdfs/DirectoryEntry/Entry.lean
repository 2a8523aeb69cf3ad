/-
Directory entries (`directory_entry/`, without the reading of file and
directory contents): the metadata collected from the system use
entries, and the three kinds of entry built from a record.

The metadata is a function of the list of system use entries, one
definition for each field in the order `read_entry_at` computes them.
Constructing an entry can fail in one way only, on the version number
after the last `;` of a file's or a symbolic link's name.
-/
import Cdfs.Parse.DirectoryEntry
import Mathlib.Data.Finset.Dedup
import Mathlib.Data.Finset.Empty

namespace Cdfs

open Rust Parse

-- ============================================================ metadata

/-- `Itertools::take_while_inclusive`: the elements up to the first that
fails the test, and that one too. -/
def takeWhileInclusive {α : Type} (p : α → Bool) : List α → List α
  | [] => []
  | a :: l => if p a then a :: takeWhileInclusive p l else [a]

/-- If all but the last pass the test, they are all of them. -/
theorem takeWhileInclusive_eq_self {α : Type} {p : α → Bool} {l : List α}
    (h : l.Pairwise fun a _ => p a = true) :
    takeWhileInclusive p l = l := by
  induction l with
  | nil => rfl
  | cons a l ih =>
      rw [List.pairwise_cons] at h
      unfold takeWhileInclusive
      rw [ih h.2]
      match l with
      | [] => exact ite_self _
      | a' :: l => rw [if_pos (h.1 a' List.mem_cons_self)]

/-- What the system use entries of a record add to it. -/
structure ExtraMeta where
  altName : Option String
  attributes : Option PosixAttributes
  symlinkTarget : Option String
  extensions : Finset SuspExtension
  timestamps : PosixTimestamp
  relocated : Bool
  deriving DecidableEq

/-- `ExtraMeta::default`. -/
def ExtraMeta.default : ExtraMeta :=
  ⟨none, none, none, ∅, PosixTimestamp.default, false⟩

/-- The extensions of the first `ER` entry. -/
def extensions (susp : List SystemUseEntry) : Finset SuspExtension :=
  let refs := susp.filterMap fun
    | .extensionsReference er => some er.extensions
    | _ => none
  (refs.head?.getD []).toFinset

/-- Whether there is an `RE` entry. -/
def relocated (susp : List SystemUseEntry) : Bool :=
  (susp.filterMap fun
    | .relocatedDirectory re => some re
    | _ => none).head?.isSome

/-- The first `CL` entry. -/
def childLink (susp : List SystemUseEntry) : Option ChildLink :=
  (susp.filterMap fun
    | .childLink cl => some cl
    | _ => none).head?

/-- The names of the `NM` entries, joined as long as each announces the
next. -/
def altName (susp : List SystemUseEntry) : Option String :=
  let names := susp.filterMap fun
    | .alternateName nm => some nm
    | _ => none
  (takeWhileInclusive (contains ·.flags AlternateNameFlags.CONTINUE)
    names).foldl (fun acc nm => some (acc.getD "" ++ nm.name)) none

/-- One `TF` entry on top of those before it. -/
def mergeTimestamp (acc new : PosixTimestamp) : PosixTimestamp :=
  { acc with
    creation := new.creation.or acc.creation
    modify := new.modify.or acc.modify
    access := new.access.or acc.access
    attributes := new.attributes.or acc.attributes }

/-- The stamps of all `TF` entries. -/
def timestamps (susp : List SystemUseEntry) : PosixTimestamp :=
  (susp.filterMap fun
    | .posixTimestamp tf => some tf
    | _ => none).foldl mergeTimestamp PosixTimestamp.default

section Symlink

variable (b : Build)

/-- The path of one component of an `SL` entry. -/
def componentPath (r : SymbolicLinkRecord) : Outcome ISOError String :=
  let assertEmpty : Outcome ISOError Unit :=
    Outcome.assert b.assertions (r.component == "")
  if contains r.flags SymbolicLinkRecordFlags.ROOT then do
    assertEmpty
    .ok "/"
  else if contains r.flags SymbolicLinkRecordFlags.CURRENT then do
    assertEmpty
    .ok "."
  else if contains r.flags SymbolicLinkRecordFlags.PARENT then do
    assertEmpty
    .ok ".."
  else .ok r.component

/-- The components of one `SL` entry, joined. -/
def recordsPath (records : List SymbolicLinkRecord) :
    Outcome ISOError String :=
  records.foldlM (fun acc r => do
    let p ← componentPath b r
    .ok (pathJoin acc p)) ""

/-- The paths of the `SL` entries, joined as long as each announces the
next. -/
def symlinkTarget (susp : List SystemUseEntry) :
    Outcome ISOError (Option String) :=
  let links := susp.filterMap fun
    | .symbolicLink sl => some sl
    | _ => none
  (takeWhileInclusive SymbolicLink.shouldContinue links).foldlM
    (fun acc sl => do
      let p ← recordsPath b sl.records
      .ok (some (pathJoin (acc.getD "") p))) none

end Symlink

/-- The first `PX` entry. -/
def attributes (susp : List SystemUseEntry) : Option PosixAttributes :=
  (susp.filterMap fun
    | .posixAttributes px => some px
    | _ => none).head?

/-- The metadata of a record with these system use entries. -/
def extraMeta (b : Build) (susp : List SystemUseEntry) :
    Outcome ISOError ExtraMeta := do
  let symlinkTarget ← symlinkTarget b susp
  .ok { altName := altName susp, attributes := attributes susp,
        symlinkTarget, extensions := extensions susp,
        timestamps := timestamps susp, relocated := relocated susp }

-- =========================================================== the entries

/-- A directory. -/
structure ISODirectory where
  header : DirectoryEntryHeader
  identifier : String
  ext : ExtraMeta
  deriving DecidableEq

/-- A regular file. -/
structure ISOFile where
  header : DirectoryEntryHeader
  identifier : String
  version : UInt16
  ext : ExtraMeta
  deriving DecidableEq

/-- A symbolic link. -/
structure Symlink where
  header : DirectoryEntryHeader
  identifier : String
  version : UInt16
  ext : ExtraMeta
  deriving DecidableEq

/-- An entry inside of a directory. -/
inductive DirectoryEntry where
  | directory (dir : ISODirectory)
  | file (file : ISOFile)
  | symlink (link : Symlink)
  deriving DecidableEq

def DirectoryEntry.header : DirectoryEntry → DirectoryEntryHeader
  | .directory d => d.header
  | .file f => f.header
  | .symlink l => l.header

def DirectoryEntry.ext : DirectoryEntry → ExtraMeta
  | .directory d => d.ext
  | .file f => f.ext
  | .symlink l => l.ext

/-- Returns the name of the entry. -/
def DirectoryEntry.identifier : DirectoryEntry → String
  | .directory d => d.identifier
  | .file f => f.identifier
  | .symlink l => l.identifier

/-- The Rock Ridge name, where there is one, in place of the recorded. -/
def ExtraMeta.name (ext : ExtraMeta) (identifier : String) : String :=
  ext.altName.getD identifier

/-- `ISODirectory::new`. -/
def ISODirectory.new (header : DirectoryEntryHeader) (ext : ExtraMeta)
    (identifier : String) : ISODirectory :=
  let identifier := ext.name identifier
  let identifier :=
    if identifier = "\x00" then "."
    else if identifier = "\x01" then ".."
    else identifier
  { header, identifier, ext }

/-- A name with its version: the number after the last `;`, or 1, and
what is before it without a final dot. -/
def splitVersion (identifier : String) : Outcome ISOError (String × UInt16) :=
  match rsplitOnce ';' identifier with
  | some (name, version) =>
      match parseU16 version with
      | some version => .ok (popIf '.' name, version)
      | none => .err .parseInt
  | none => .ok (popIf '.' identifier, 1)

/-- `ISOFile::new`. -/
def ISOFile.new (header : DirectoryEntryHeader) (ext : ExtraMeta)
    (identifier : String) : Outcome ISOError ISOFile := do
  let (identifier, version) ← splitVersion (ext.name identifier)
  .ok { header, identifier, version, ext }

/-- `Symlink::new`. -/
def Symlink.new (header : DirectoryEntryHeader) (ext : ExtraMeta)
    (identifier : String) : Outcome ISOError Symlink := do
  let (identifier, version) ← splitVersion (ext.name identifier)
  .ok { header, identifier, version, ext }

/-- `DirectoryEntry::new`. -/
def DirectoryEntry.new (header : DirectoryEntryHeader) (ext : ExtraMeta)
    (identifier : String) : Outcome ISOError DirectoryEntry :=
  let isDir := contains header.fileFlags FileFlags.DIRECTORY
  let isSymlink := ext.attributes.any
    (contains ·.mode PosixFileMode.TYPE_SYMLINK)
  if isDir then .ok (.directory (ISODirectory.new header ext identifier))
  else if isSymlink then do
    let link ← Symlink.new header ext identifier
    .ok (.symlink link)
  else do
    let file ← ISOFile.new header ext identifier
    .ok (.file file)

/-- An entry keeps its record's header and metadata. -/
theorem DirectoryEntry.new_frame {header : DirectoryEntryHeader}
    {ext : ExtraMeta} {identifier : String} {entry : DirectoryEntry}
    (h : DirectoryEntry.new header ext identifier = .ok entry) :
    entry.header = header ∧ entry.ext = ext := by
  unfold DirectoryEntry.new at h
  dsimp only at h
  split at h
  · injection h with h
    rw [← h]
    exact ⟨rfl, rfl⟩
  · split at h
    · obtain ⟨link, hlink, h⟩ := Outcome.bind_eq_ok.mp h
      obtain ⟨_, -, hlink⟩ := Outcome.bind_eq_ok.mp hlink
      injection h with h
      injection hlink with hlink
      rw [← h, ← hlink]
      exact ⟨rfl, rfl⟩
    · obtain ⟨file, hfile, h⟩ := Outcome.bind_eq_ok.mp h
      obtain ⟨_, -, hfile⟩ := Outcome.bind_eq_ok.mp hfile
      injection h with h
      injection hfile with hfile
      rw [← h, ← hfile]
      exact ⟨rfl, rfl⟩

-- ========================================================= termination

theorem componentPath_ne_running (b : Build) (r : SymbolicLinkRecord) :
    componentPath b r ≠ .running := by
  have hassert : ∀ {p : String}, (do
      Outcome.assert b.assertions (r.component == "")
      .ok p : Outcome ISOError String) ≠ .running := by
    intro p
    exact Outcome.bind_ne_running (Outcome.assert_ne_running _ _)
      fun _ h => nomatch h
  unfold componentPath
  dsimp only
  split
  · exact hassert
  · split
    · exact hassert
    · split
      · exact hassert
      · exact fun h => nomatch h

theorem extraMeta_ne_running (b : Build) (susp : List SystemUseEntry) :
    extraMeta b susp ≠ .running := by
  have hrecords : ∀ records, recordsPath b records ≠ .running := by
    intro records
    refine Outcome.foldlM_ne_running (fun acc r => ?_) records ""
    exact Outcome.bind_ne_running (componentPath_ne_running b r)
      fun _ h => nomatch h
  refine Outcome.bind_ne_running ?_ fun _ h => nomatch h
  refine Outcome.foldlM_ne_running (fun acc sl => ?_) _ none
  exact Outcome.bind_ne_running (hrecords _) fun _ h => nomatch h

theorem splitVersion_ne_running (identifier : String) :
    splitVersion identifier ≠ .running := by
  unfold splitVersion
  split
  · split
    · exact fun h => nomatch h
    · exact fun h => nomatch h
  · exact fun h => nomatch h

theorem DirectoryEntry.new_ne_running (header : DirectoryEntryHeader)
    (ext : ExtraMeta) (identifier : String) :
    DirectoryEntry.new header ext identifier ≠ .running := by
  unfold DirectoryEntry.new
  dsimp only
  split
  · exact fun h => nomatch h
  · split
    all_goals
      refine Outcome.bind_ne_running ?_ fun _ h => nomatch h
      exact Outcome.bind_ne_running (splitVersion_ne_running _)
        fun _ h => nomatch h

end Cdfs
