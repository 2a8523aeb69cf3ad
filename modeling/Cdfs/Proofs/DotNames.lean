/-
The names of the directory itself and of its parent.

A record has one byte for each, and the parser keeps that byte as a text
that is no name. `ISODirectory::new` puts `.` and `..` for the two, but
it takes the Rock Ridge name first where there is one, and what the flags
of an `NM` entry say is read nowhere. So the names are kept exactly when
the `NM` entries leave them alone (`KeepsDots`), and only then does
`readdir` leave the entry out of its table.
-/
import Cdfs.Proofs.AlternateName
import Cdfs.Proofs.RecordRoundTrip
import Cdfs.Proofs.ShownEntries

namespace Cdfs

open Rust Parse Nom

variable {σ : Type} {b : Build} {rd : ISO9660Reader σ} {src : Source}

-- ============================================== statement vocabulary

/-- The directory itself, and its parent. -/
inductive Dots where
  | self
  | parent

namespace Dots

/-- The identifier as recorded. -/
def byte : Dots → UInt8
  | self => 0
  | parent => 1

/-- And as parsed. -/
def raw : Dots → String
  | self => "\x00"
  | parent => "\x01"

def name : Dots → String
  | self => "."
  | parent => ".."

end Dots

/-- The `NM` entries that a name is joined from: those up to the first
that announces no other. -/
def nameParts (susp : List SystemUseEntry) : List AlternateName :=
  takeWhileInclusive (contains ·.flags AlternateNameFlags.CONTINUE)
    (susp.filterMap asName)

/-- There are such entries, and the text of all of them is this. -/
def Renamed (susp : List SystemUseEntry) (text : String) : Prop :=
  nameParts susp ≠ [] ∧ String.join ((nameParts susp).map (·.name)) = text

/-- The record is marked as a directory, or is the place of one that has
been moved. -/
def StandsForDirectory (header : DirectoryEntryHeader)
    (susp : List SystemUseEntry) : Prop :=
  contains header.fileFlags FileFlags.DIRECTORY = true
    ∨ childLink susp ≠ none

/-- The `NM` entries do not replace the name: a directory has none, or
they spell the name or its byte; anything else has them, and they spell
the name as that of a file. -/
def KeepsDots (dots : Dots) (header : DirectoryEntryHeader)
    (susp : List SystemUseEntry) : Prop :=
  (StandsForDirectory header susp ∧ (nameParts susp = []
      ∨ Renamed susp dots.name ∨ Renamed susp dots.raw))
    ∨ (¬ StandsForDirectory header susp ∧ ∃ text version,
      Renamed susp text ∧ splitVersion text = .ok (dots.name, version))

/-- No `readdir` puts the entry into the inode table. -/
def NeverRegistered (entry : DirectoryEntry) : Prop :=
  ∀ (σ : Type) (host : Host σ) (fs : ISOFuse σ) (fh : Nat)
    (offset : Int64) (accepts : Capacity) (n : Nat),
    (ISOFuse.readdir host fs fh offset accepts).2.inodes n = some entry →
      fs.inodes n = some entry

-- ========================================================== the name

theorem identifierText_dots (enc : CharacterEncoding) (dots : Dots) :
    identifierText b enc [dots.byte] = .ok ([], dots.raw) := by
  cases dots with
  | self => rfl
  | parent => rfl

theorem altName_parts (susp : List SystemUseEntry) :
    altName susp = if nameParts susp = [] then none
      else some (String.join ((nameParts susp).map (·.name))) := by
  have hfold := foldl_names (nameParts susp) none
  rw [Option.getD_none, String.empty_append] at hfold
  exact hfold

theorem altName_eq_none_iff {susp : List SystemUseEntry} :
    altName susp = none ↔ nameParts susp = [] := by
  rw [altName_parts]
  split
  · exact iff_of_true rfl ‹_›
  · exact iff_of_false (fun h => nomatch h) ‹_›

theorem altName_eq_some_iff {susp : List SystemUseEntry} {text : String} :
    altName susp = some text ↔ Renamed susp text := by
  rw [altName_parts]
  unfold Renamed
  split
  · rename_i hnil
    exact iff_of_false (fun h => nomatch h) fun h => h.1 hnil
  · rename_i hne
    rw [Option.some.injEq, and_iff_right hne]

/-- A directory's name is one of the two if it is spelled so or is the
recorded byte. -/
theorem new_dots_iff {header : DirectoryEntryHeader} {ext : ExtraMeta}
    {identifier : String} (dots : Dots) :
    (ISODirectory.new header ext identifier).identifier = dots.name
      ↔ ext.name identifier = dots.name
        ∨ ext.name identifier = dots.raw := by
  unfold ISODirectory.new
  dsimp only
  by_cases hself : ext.name identifier = "\x00"
  · rw [if_pos hself, hself]
    cases dots <;> decide
  · by_cases hparent : ext.name identifier = "\x01"
    · rw [if_neg hself, if_pos hparent, hparent]
      cases dots <;> decide
    · rw [if_neg hself, if_neg hparent]
      cases dots with
      | self => exact (or_iff_left hself).symm
      | parent => exact (or_iff_left hparent).symm

/-- Of the recorded byte or of the entries' text. -/
theorem name_dots_iff {ext : ExtraMeta} {susp : List SystemUseEntry}
    (halt : ext.altName = altName susp) (dots : Dots) :
    (ext.name dots.raw = dots.name ∨ ext.name dots.raw = dots.raw)
      ↔ nameParts susp = [] ∨ Renamed susp dots.name
        ∨ Renamed susp dots.raw := by
  unfold ExtraMeta.name
  rw [halt, ← altName_eq_none_iff, ← altName_eq_some_iff,
    ← altName_eq_some_iff]
  cases altName susp with
  | none => simp
  | some text => simp

-- ========================================================= the entry

/-- What is not marked as a directory has the name of a file. -/
theorem new_file_identifier {header : DirectoryEntryHeader}
    {ext : ExtraMeta} {identifier : String} {entry : DirectoryEntry}
    (hdir : contains header.fileFlags FileFlags.DIRECTORY ≠ true)
    (h : DirectoryEntry.new header ext identifier = .ok entry) :
    ∃ version, splitVersion (ext.name identifier)
      = .ok (entry.identifier, version) := by
  unfold DirectoryEntry.new at h
  dsimp only at h
  rw [if_neg hdir] at h
  split at h
  · obtain ⟨link, hlink, h⟩ := Outcome.bind_eq_ok.mp h
    obtain ⟨⟨name, version⟩, hsplit, hlink⟩ := Outcome.bind_eq_ok.mp hlink
    injection hlink with hlink
    injection h with h
    rw [← h, ← hlink]
    exact ⟨version, hsplit⟩
  · obtain ⟨file, hfile, h⟩ := Outcome.bind_eq_ok.mp h
    obtain ⟨⟨name, version⟩, hsplit, hfile⟩ := Outcome.bind_eq_ok.mp hfile
    injection hfile with hfile
    injection h with h
    rw [← h, ← hfile]
    exact ⟨version, hsplit⟩

/-- The recorded byte is the name of a file without anything to cut. -/
theorem splitVersion_raw (dots : Dots) :
    splitVersion dots.raw = .ok (dots.raw, 1) := by
  cases dots <;> decide

/-- And it is the name of a directory as it was. -/
theorem name_cut {ext : ExtraMeta} {dots : Dots} {identifier : String}
    {version : UInt16}
    (h : splitVersion (ext.name dots.raw) = .ok (identifier, version)) :
    ext.name identifier = ext.name dots.raw := by
  unfold ExtraMeta.name at h ⊢
  cases hsome : ext.altName with
  | some text => rfl
  | none =>
      rw [hsome, Option.getD_none, splitVersion_raw] at h
      injection h with h
      injection h with h _
      rw [h]

/-- A file's name is one of the two only if the entries' text is, as the
name of a file. -/
theorem file_dots_iff {ext : ExtraMeta} {susp : List SystemUseEntry}
    (halt : ext.altName = altName susp) {dots : Dots} {identifier : String}
    {version : UInt16}
    (h : splitVersion (ext.name dots.raw) = .ok (identifier, version)) :
    identifier = dots.name ↔ ∃ text version, Renamed susp text
      ∧ splitVersion text = .ok (dots.name, version) := by
  unfold ExtraMeta.name at h
  rw [halt] at h
  cases hsome : altName susp with
  | none =>
      rw [hsome, Option.getD_none, splitVersion_raw] at h
      injection h with h
      injection h with h _
      have hraw : dots.raw ≠ dots.name := by cases dots <;> decide
      refine iff_of_false (h ▸ hraw) ?_
      rintro ⟨text, _, htext, -⟩
      exact htext.1 (altName_eq_none_iff.mp hsome)
  | some text =>
      have htext := altName_eq_some_iff.mp hsome
      rw [hsome, Option.getD_some] at h
      constructor
      · intro heq
        exact ⟨text, version, htext, heq ▸ h⟩
      · rintro ⟨other, version', hother, hname⟩
        rw [htext.2.symm.trans hother.2, hname] at h
        injection h with h
        injection h with h _
        exact h.symm

theorem keepsDots_directory {header : DirectoryEntryHeader}
    {susp : List SystemUseEntry} {dots : Dots}
    (h : StandsForDirectory header susp) :
    KeepsDots dots header susp ↔ nameParts susp = []
      ∨ Renamed susp dots.name ∨ Renamed susp dots.raw := by
  simp [KeepsDots, h]

theorem keepsDots_file {header : DirectoryEntryHeader}
    {susp : List SystemUseEntry} {dots : Dots}
    (h : ¬ StandsForDirectory header susp) :
    KeepsDots dots header susp ↔ ∃ text version, Renamed susp text
      ∧ splitVersion text = .ok (dots.name, version) := by
  simp [KeepsDots, h]

/-- An entry keeps the name if its `NM` entries leave it alone. -/
theorem buildEntry_dots_iff {header : DirectoryEntryHeader} (dots : Dots)
    {susp : List SystemUseEntry} {entry : DirectoryEntry}
    (h : buildEntry b header dots.raw susp = .ok entry) :
    entry.identifier = dots.name ↔ KeepsDots dots header susp := by
  obtain ⟨ext, hext, h⟩ := Outcome.bind_eq_ok.mp h
  obtain ⟨built, hnew, h⟩ := Outcome.bind_eq_ok.mp h
  obtain ⟨_, -, hext⟩ := Outcome.bind_eq_ok.mp hext
  injection hext with hext
  have halt : ext.altName = altName susp := by rw [← hext]
  by_cases hdir : contains header.fileFlags FileFlags.DIRECTORY = true
  · -- a directory, which no `CL` entry may move
    have hbuilt : built
        = .directory (ISODirectory.new header ext dots.raw) := by
      unfold DirectoryEntry.new at hnew
      dsimp only at hnew
      rw [if_pos hdir] at hnew
      injection hnew with hnew
      exact hnew.symm
    rw [hbuilt] at h
    rw [keepsDots_directory (.inl hdir), ← name_dots_iff halt dots]
    cases hcl : childLink susp with
    | some cl =>
        rw [hcl] at h
        cases h
    | none =>
        rw [hcl] at h
        injection h with h
        rw [← h]
        exact new_dots_iff dots
  · obtain ⟨version, hsplit⟩ := new_file_identifier hdir hnew
    cases hcl : childLink susp with
    | some cl =>
        -- the dummy file of a directory that has been moved
        have hmoved : childLink susp ≠ none := fun h => nomatch hcl.symm.trans h
        rw [keepsDots_directory (.inr hmoved), ← name_dots_iff halt dots]
        rw [hcl] at h
        cases built with
        | directory | symlink => cases h
        | file file =>
            injection h with h
            have hfile : file.ext = ext := (DirectoryEntry.new_frame hnew).2
            rw [← h, ← name_cut hsplit, ← hfile]
            exact new_dots_iff dots
    | none =>
        have hfile : ¬ StandsForDirectory header susp :=
          fun h => h.elim hdir fun hne => hne hcl
        rw [hcl] at h
        injection h with h
        rw [keepsDots_file hfile, ← h]
        exact file_dots_iff halt hsplit

-- ========================================================= the table

/-- What a listing puts into the table is neither. -/
theorem neverRegistered_of_dots {entry : DirectoryEntry}
    (h : ¬ NotDots entry) : NeverRegistered entry := by
  intro σ host fs fh offset accepts n
  refine ISOFuse.readdir_inv
    (I := fun fs' => fs'.inodes n = some entry → fs.inodes n = some entry)
    (A := fun _ _ _ => True) (P := fun _ => True)
    (fun _ _ _ _ _ _ _ _ _ _ _ => ⟨trivial, fun _ _ => trivial⟩)
    (fun _ _ hI => hI) ?_ (fun _ _ _ => trivial) id
  intro fs' m entry' hI _ _ hmem
  rw [listed_inodes] at hmem
  split at hmem
  · rename_i hdots
    rw [Function.update_apply] at hmem
    split at hmem
    · injection hmem with hmem
      rw [hmem] at hdots
      exact absurd hdots h
    · exact hI hmem
  · exact hI hmem

-- ================================================ the directory record

/-- The entry of a record whose identifier is one of the two bytes, over
any reader and with any cache. It has the name, and stays out of the inode
table, exactly when the record's `NM` entries leave the name alone. -/
theorem readEntryAt_dots_iff (dots : Dots) {fuel : Nat}
    {dir : ISODirectory} {cache cache' : BlockCache} {offset : Nat}
    {s s' : σ} {header : DirectoryEntryHeader} {identifier : String}
    {susp : List SystemUseEntry} {entry : DirectoryEntry}
    {next : Option Nat}
    (hrecord : ReadsRecord b rd fuel dir cache offset s cache' header
      identifier susp)
    (hname : nameBytes (cache'.block.bytes.drop (offset % BLOCK_SIZE))
      = [dots.byte])
    (hread : readEntryAt b rd fuel dir cache offset s
      = (.ok (entry, next), cache', s')) :
    (entry.identifier = dots.name ∧ NeverRegistered entry)
      ↔ KeepsDots dots header susp := by
  obtain ⟨_, _, _, hrecord', hbuild, -⟩ := readEntryAt_eq_ok hread
  obtain ⟨-, rfl, rfl, rfl⟩ := hrecord.unique hrecord'
  obtain ⟨area, _, -, hparse, -⟩ := hrecord
  -- the identifier is parsed to the byte's text
  obtain ⟨⟨rest, r⟩, hparse, hr⟩ := Outcome.bind_eq_ok.mp hparse
  injection hr with hr
  subst hr
  rw [liftNom_eq_ok] at hparse
  have hshort : (cache'.block.bytes.drop (offset % BLOCK_SIZE)).length
      ≤ 2048 := by
    rw [List.length_drop, cache'.block.size]
    exact Nat.sub_le _ _
  obtain ⟨left, hid⟩ := directoryEntry_identifier (by omega) hparse
  rw [hname, identifierText_dots] at hid
  injection hid with hid
  injection hid with _ hid
  subst hid
  rw [← buildEntry_dots_iff dots hbuild, and_iff_left_iff_imp]
  intro hentry
  refine neverRegistered_of_dots fun hnot => ?_
  cases dots with
  | self => exact hnot.1 hentry
  | parent => exact hnot.2 hentry

-- ===================================================== a name spelled

/-- A directory whose first record is that of its parent, and the two
`NM` entries of it spell its name. -/
def spelledBlock : BlockBuffer :=
  BlockBuffer.new.overwrite
    [46, 0, 20, 0, 0, 0, 0, 0, 0, 20, 0, 8, 0, 0, 0, 0, 8, 0,
      100, 1, 1, 0, 0, 0, 0, 2, 0, 0, 1, 0, 0, 1, 1, 1,
      0x4E, 0x4D, 6, 1, 1, 0x2E, 0x4E, 0x4D, 6, 1, 0, 0x2E]

def spelledSource : Source where
  deliver _ := .ok spelledBlock.bytes
  atMostBlock h := spelledBlock.delivered_le h

/-- The entries, the first of which goes on in the second. -/
def spelledNames : List SystemUseEntry :=
  [.alternateName ⟨".", AlternateNameFlags.CONTINUE⟩,
    .alternateName ⟨".", 0⟩]

/-- What the record is read as. -/
def spelledDirectory : ISODirectory where
  header := { dotHeader with length := 46 }
  identifier := ".."
  ext := { ExtraMeta.default with altName := some ".." }

/-- It keeps its name. -/
theorem readEntryAt_spelled :
    (DirectoryEntry.directory spelledDirectory).identifier = ".."
      ∧ NeverRegistered (.directory spelledDirectory) := by
  have hload : loadBlock spelledSource.reader dotDirectory BlockCache.new 0 ()
      = (.ok (), ⟨spelledBlock, some 0⟩, ()) := by decide +kernel
  have hread : readEntryAt debugBuild spelledSource.reader 0 dotDirectory
      BlockCache.new 0 ()
        = (.ok (.directory spelledDirectory, none), ⟨spelledBlock, some 0⟩,
          ()) := by
    decide +kernel
  have hrecord : ReadsRecord debugBuild spelledSource.reader 0 dotDirectory
      BlockCache.new 0 () ⟨spelledBlock, some 0⟩
      { dotHeader with length := 46 } "\x01" spelledNames :=
    ⟨some spelledNames, (), hload, by decide +kernel, rfl⟩
  have hrenamed : Renamed spelledNames ".." :=
    ⟨by decide +kernel, by decide +kernel⟩
  exact (readEntryAt_dots_iff .parent hrecord (by decide +kernel) hread).mpr
    (.inl ⟨.inl rfl, .inr (.inl hrenamed)⟩)

-- ================================================== the `CURRENT` flag

/-- A directory whose own record has an `NM` entry: its `CURRENT` flag
says that the name is that of the directory itself, and there is no text. -/
def currentBlock : BlockBuffer :=
  BlockBuffer.new.overwrite
    [40, 0, 20, 0, 0, 0, 0, 0, 0, 20, 0, 8, 0, 0, 0, 0, 8, 0,
      100, 1, 1, 0, 0, 0, 0, 2, 0, 0, 1, 0, 0, 1, 1, 0,
      0x4E, 0x4D, 5, 1, 2, 0]

/-- One whose own record has an `NM` entry with the text `a`. -/
def renamedBlock : BlockBuffer :=
  BlockBuffer.new.overwrite
    [40, 0, 20, 0, 0, 0, 0, 0, 0, 20, 0, 8, 0, 0, 0, 0, 8, 0,
      100, 1, 1, 0, 0, 0, 0, 2, 0, 0, 1, 0, 0, 1, 1, 0,
      0x4E, 0x4D, 6, 1, 0, 0x61]

/-- Both records lose their name, and a listing enters the first into the
inode table. -/
theorem current_registered :
    nameBytes currentBlock.bytes = [Dots.self.byte]
      ∧ nameBytes renamedBlock.bytes = [Dots.self.byte]
      ∧ (readEntryAt quietBuild (discOf currentBlock).reader 20 discRoot
          BlockCache.new 0 ()).1.map (fun r => r.1.identifier) = .ok ""
      ∧ (readEntryAt quietBuild (discOf renamedBlock).reader 20 discRoot
          BlockCache.new 0 ()).1.map (fun r => r.1.identifier) = .ok "a"
      ∧ ∃ fs₀ log fs, ISOFuse.new (hostOf currentBlock) () = .ok fs₀
        ∧ AnyRun (hostOf currentBlock) fs₀ log fs
        ∧ (fs.inodes 2).map (·.identifier) = some "" := by
  refine ⟨by decide +kernel, by decide +kernel, by decide +kernel,
    by decide +kernel, ?_⟩
  obtain ⟨fs₀, log, fs, hnew, hrun, h⟩ := run_session currentBlock
    [.opendir 1, .readdir 0 0 (boundless 0)]
    (fun _ fs => decide ((fs.inodes 2).map (·.identifier) = some ""))
    (by decide +kernel)
  exact ⟨fs₀, log, fs, hnew, hrun, of_decide_eq_true h⟩

end Cdfs
