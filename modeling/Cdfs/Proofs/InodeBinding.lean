/-
What an inode number stands for.

A number from the counter stands for one entry as long as it is in the
table. A serial number of the disc stands for whatever was entered under
it last: for one thing throughout if no two things in the tree have the
same serial number, and nothing but the root the number 1
(`binding_stable`). Nothing in the program compares
a serial number with those in the table, and a file with the serial
number 1 takes the place of the root (`serial_one_replaces_root`).
-/
import Cdfs.Proofs.Lookup
import Cdfs.Proofs.LookupReferences

namespace Cdfs

open Rust Parse Numbering Service ISOFuse

variable {σ α : Type} {host : Host σ} {src : Source} {fs₀ fs : ISOFuse σ}
  {log : Log} {root : ISODirectory}

/-- The entries of the tree below a root directory, as they are read at
the positions of its listing and of those of the directories in it. -/
inductive InTree (b : Build) (src : Source) (fuel : ℕ)
    (root : ISODirectory) : DirectoryEntry → Prop
  | root : InTree b src fuel root (.directory root)
  | entry {dir : ISODirectory} {offset : ℕ} {entry : DirectoryEntry}
      {next : Option ℕ} :
      InTree b src fuel root (.directory dir) →
      Cursor.Reached (entryAt b src fuel dir) 0 offset →
      entryAt b src fuel dir offset = .ok (entry, next) →
      InTree b src fuel root entry

/-- In the tree a serial number stands for one object, and the number of
the filesystem's root for the root. -/
structure SerialsIdentify (object : DirectoryEntry → α) (b : Build)
    (src : Source) (fuel : ℕ) (root : ISODirectory) : Prop where
  root_eq : ∀ entry, InTree b src fuel root entry →
    serial entry = some FUSE_ROOT_ID → object entry = object (.directory root)
  object_eq : ∀ entry entry' n, InTree b src fuel root entry →
    InTree b src fuel root entry' → serial entry = some n →
    serial entry' = some n → object entry = object entry'

/-- The root is not forgotten, and with serial numbers of the disc a
listing is asked for at one of its own positions. -/
def OwnPositions (b : Build) (src : Source) (fuel : ℕ) (fs : ISOFuse σ) :
    Request → Prop
  | .forget ino _ => ino ≠ FUSE_ROOT_ID
  | .readdir fh offset _ =>
      fs.inodeAutogenerated = true
        ∨ ∀ dir, fs.openDirectories fh = some dir → 0 ≤ offset.toInt →
          Cursor.Reached (entryAt b src fuel dir) 0 offset.toInt.toNat
  | _ => True

-- ============================================================ the counter

/-- The state with generated numbers. -/
structure Counted (root : ISODirectory) (fs : ISOFuse σ) : Prop where
  generated : fs.inodeAutogenerated = true
  fresh : Fresh fs.table
  root : fs.inodes FUSE_ROOT_ID = some (.directory root)

/-- A request that is not `forget` leaves every entry in its place. -/
theorem Counted.stays (h : Counted root fs) (q : Request)
    (hq : ∀ ino nlookup, q ≠ .forget ino nlookup) :
    Counted root (fs.serve host q).2
      ∧ ∀ n entry, fs.inodes n = some entry →
        (fs.serve host q).2.inodes n = some entry := by
  have hent := serve_table host fs q hq
  obtain ⟨hfresh, hkeep⟩ := hent.stays h.generated h.fresh
  exact ⟨⟨hent.generated.trans h.generated, hfresh, hkeep _ _ h.root⟩,
    hkeep⟩

theorem Counted.serve (h : Counted root fs) (q : Request)
    (hmeets : OwnPositions host.build src host.fuel fs q) :
    Counted root (fs.serve host q).2 := by
  rcases forget_or q with ⟨m, k, rfl⟩ | hq
  · have hroot : (fs.table.drop m).bound FUSE_ROOT_ID
        = fs.table.bound FUSE_ROOT_ID :=
      Table.bound_drop_of_ne (Ne.symm hmeets)
    exact ⟨h.generated, h.fresh.drop m, hroot.trans h.root⟩
  · exact (h.stays q hq).1

-- ======================================================= serial numbers

/-- What may stand at a number. -/
def At (b : Build) (src : Source) (fuel : ℕ) (root : ISODirectory) (n : ℕ)
    (entry : DirectoryEntry) : Prop :=
  (n = FUSE_ROOT_ID ∧ entry = .directory root)
    ∨ (serial entry = some n ∧ InTree b src fuel root entry)

theorem At.inTree {b : Build} {fuel n : ℕ} {entry : DirectoryEntry}
    (h : At b src fuel root n entry) : InTree b src fuel root entry := by
  rcases h with ⟨-, rfl⟩ | ⟨-, h⟩
  · exact .root
  · exact h

/-- The state with serial numbers. -/
structure Serialled (b : Build) (src : Source) (fuel : ℕ)
    (root : ISODirectory) (fs : ISOFuse σ) : Prop where
  generated : fs.inodeAutogenerated = false
  bound : ∀ n entry, fs.table.bound n = some entry →
    At b src fuel root n entry
  directories : ∀ fh dir, fs.openDirectories fh = some dir →
    InTree b src fuel root (.directory dir)
  root : fs.table.bound FUSE_ROOT_ID ≠ none

/-- What a request enters was read in the tree. -/
theorem Serialled.enters (hserve : host.reader.Serves src)
    (h : Serialled host.build src host.fuel root fs) (q : Request)
    (hmeets : OwnPositions host.build src host.fuel fs q)
    (hq : ∀ ino nlookup, q ≠ .forget ino nlookup) :
    Enters serial (InTree host.build src host.fuel root) fs.table
      (fs.serve host q).2.table := by
  cases q with
  | lookup parent name =>
      refine lookup_enters parent name ?_
      intro dir text entry file hdir hfind
      obtain ⟨offset, next, hreach, hentry⟩ := find_found hserve
        (congrArg Prod.fst hfind)
      exact .entry (h.bound _ _ hdir).inTree hreach hentry
  | readdir fh offset accepts =>
      refine readdir_enters (A := fun dir cache offset =>
        Coherent src dir cache
          ∧ Cursor.Reached (entryAt host.build src host.fuel dir) 0 offset)
        ?_ ?_
      · intro dir hdir cache offset file entry next cache' file' hat hread
        obtain ⟨hco, hreach⟩ := hat
        obtain ⟨hentry, hco'⟩ := readEntryAt_serves (b := host.build)
          hserve host.fuel hco offset file
        rw [hread] at hentry hco'
        have hentry := hentry.symm
        refine ⟨.entry (h.directories fh dir hdir) hreach hentry, ?_⟩
        intro offset' hnext
        rw [hnext] at hentry
        exact ⟨hco', .next hreach hentry⟩
      · intro dir hdir hpos
        refine ⟨coherent_new src dir, ?_⟩
        rcases hmeets with hgen | hown
        · rw [h.generated] at hgen
          cases hgen
        · exact hown dir hdir hpos
  | forget ino nlookup => exact absurd rfl (hq ino nlookup)
  | getattr | readlink | openFile | read | release | opendir | getxattr
  | releasedir =>
      rw [serve_table_eq host fs rfl]
      exact .refl

/-- So every request keeps the account, and what a number stands for. -/
theorem Serialled.serve {object : DirectoryEntry → α}
    (hserve : host.reader.Serves src)
    (hdisc : SerialsIdentify object host.build src host.fuel root)
    (h : Serialled host.build src host.fuel root fs) (q : Request)
    (hmeets : OwnPositions host.build src host.fuel fs q) :
    Serialled host.build src host.fuel root (fs.serve host q).2
      ∧ ((∀ ino nlookup, q ≠ .forget ino nlookup) →
        ∀ n entry, fs.inodes n = some entry →
          ∃ entry', (fs.serve host q).2.inodes n = some entry'
            ∧ object entry' = object entry) := by
  have hdirs : ∀ fh dir,
      (fs.serve host q).2.openDirectories fh = some dir →
      InTree host.build src host.fuel root (.directory dir) := by
    intro fh dir hdir
    rcases serve_directories host fs q hdir with hdir | ⟨ino, hino⟩
    · exact h.directories fh dir hdir
    · exact (h.bound ino _ hino).inTree
  rcases forget_or q with ⟨m, k, rfl⟩ | hq
  · refine ⟨⟨h.generated, fun n entry hn => ?_, hdirs, ?_⟩,
      fun hq => absurd rfl (hq m k)⟩
    · change (fs.table.drop m).bound n = some entry at hn
      exact h.bound n entry (Table.bound_drop_eq_some.mp hn).2
    · show (fs.table.drop m).bound FUSE_ROOT_ID ≠ none
      rw [Table.bound_drop_of_ne (Ne.symm hmeets)]
      exact h.root
  · have hent := h.enters hserve q hmeets hq
    have hsame : ∀ entry n, InTree host.build src host.fuel root entry →
        serial entry = some n →
        At host.build src host.fuel root n entry
          ∧ ∀ entry', At host.build src host.fuel root n entry' →
            object entry = object entry' := by
      intro entry n hentry hnum
      refine ⟨Or.inr ⟨hnum, hentry⟩, ?_⟩
      rintro entry' (⟨hn, rfl⟩ | ⟨hnum', hentry'⟩)
      · rw [hn] at hnum
        exact hdisc.root_eq entry hentry hnum
      · exact hdisc.object_eq entry entry' n hentry hentry' hnum hnum'
    obtain ⟨hbound, hobject⟩ := hent.own_spec h.generated h.bound hsame
    exact ⟨⟨hent.generated.trans h.generated, hbound, hdirs,
      hent.known h.root⟩, fun _ => hobject⟩

-- ================================================================== runs

theorem mounted_root (file : σ) (root : ISODirectory) (auto : Bool) :
    (mounted file root auto).inodes FUSE_ROOT_ID
      = some (.directory root) := by
  unfold mounted
  dsimp only
  rw [Function.update_self]

theorem mounted_bound (file : σ) (root : ISODirectory) (auto : Bool) {n : ℕ}
    {entry : DirectoryEntry}
    (h : (mounted file root auto).inodes n = some entry) :
    n = FUSE_ROOT_ID ∧ entry = .directory root := by
  by_cases hn : n = FUSE_ROOT_ID
  · rw [hn, mounted_root] at h
    injection h with h
    exact ⟨hn, h.symm⟩
  · unfold mounted at h
    dsimp only at h
    rw [Function.update_of_ne hn] at h
    cases h

theorem counted_mounted (file : σ) (root : ISODirectory) :
    Counted root (mounted file root true) where
  generated := rfl
  fresh n hn := by
    obtain ⟨entry, hentry⟩ := Option.ne_none_iff_exists'.mp hn
    rw [(mounted_bound file root true hentry).1]
    exact Nat.lt_succ_self _
  root := mounted_root file root true

theorem serialled_mounted (b : Build) (src : Source) (fuel : ℕ) (file : σ)
    (root : ISODirectory) :
    Serialled b src fuel root (mounted file root false) where
  generated := rfl
  bound _ _ h := Or.inl (mounted_bound file root false h)
  directories _ _ h := nomatch h
  root := by
    show (mounted file root false).inodes FUSE_ROOT_ID ≠ none
    rw [mounted_root]
    exact Option.some_ne_none _

/-- In every run that does not forget the root, the root's number stands
for the root directory, and no request changes what a number in the table
stands for: always with generated numbers, and with those of the disc if
they identify the objects on it. -/
theorem binding_stable (object : DirectoryEntry → α)
    (hserve : host.reader.Serves src) {s : σ}
    (hnew : ISOFuse.new host s = .ok fs₀)
    (hdisc : fs₀.inodeAutogenerated = true
      ∨ ∀ root, fs₀.inodes FUSE_ROOT_ID = some (.directory root) →
        SerialsIdentify object host.build src host.fuel root)
    (hrun : Run (serve host) (OwnPositions host.build src host.fuel) fs₀
      log fs) :
    (∃ iso s' root s'',
        ISO9660.new host.build host.reader host.fuel s = (.ok iso, s')
          ∧ iso.mainRoot host.build host.reader host.fuel s'
            = (.ok root, s'')
          ∧ ∃ entry, fs.inodes FUSE_ROOT_ID = some entry
            ∧ object entry = object (.directory root))
      ∧ ∀ q, OwnPositions host.build src host.fuel fs q →
        (∀ ino nlookup, q ≠ .forget ino nlookup) →
        ∀ n entry, fs.inodes n = some entry →
          ∃ entry', (fs.serve host q).2.inodes n = some entry'
            ∧ object entry' = object entry := by
  obtain ⟨iso, s', root, s'', file, auto, hiso, hroot, rfl⟩ := new_eq_ok hnew
  cases auto with
  | true =>
      have hcounted : Counted root fs := hrun.inv
        (counted_mounted file root) fun _ q h hmeets _ => h.serve q hmeets
      refine ⟨⟨iso, s', root, s'', hiso, hroot, _, hcounted.root, rfl⟩, ?_⟩
      intro q _ hq n entry hn
      exact ⟨entry, (hcounted.stays q hq).2 n entry hn, rfl⟩
  | false =>
      have hserials : SerialsIdentify object host.build src host.fuel
          root := by
        rcases hdisc with hauto | hdisc
        · cases hauto
        · exact hdisc root (mounted_root file root false)
      have hserialled : Serialled host.build src host.fuel root fs :=
        hrun.inv (serialled_mounted _ _ _ file root)
          fun _ q h hmeets _ => (h.serve hserve hserials q hmeets).1
      obtain ⟨entry, hentry⟩ :=
        Option.ne_none_iff_exists'.mp hserialled.root
      refine ⟨⟨iso, s', root, s'', hiso, hroot, entry, hentry, ?_⟩,
        fun q hmeets => (hserialled.serve hserve hserials q hmeets).2⟩
      rcases hserialled.bound _ _ hentry with ⟨-, rfl⟩ | ⟨hnum, htree⟩
      · rfl
      · exact hserials.root_eq entry htree hnum

-- ================================================= the serial number 1

/-- What the record of `A` is read as. -/
def serialFile (ino : UInt32) : ISOFile where
  header :=
    { discHeader with
      length := 78
      extentLoc := 21
      extentLength := 0
      fileFlags := 0 }
  identifier := "A"
  version := 1
  ext := { ExtraMeta.default with
    attributes := some ⟨0o100644, 1, 0, 0, some ino⟩ }

/-- The file `A` has the serial number 1, and a lookup of it takes the
root out of the table. -/
theorem serial_one_replaces_root : ∃ fs₀ root file,
    ISOFuse.new (hostOf (serialBlock 1)) () = .ok fs₀
      ∧ fs₀.inodes FUSE_ROOT_ID = some (.directory root)
      ∧ (fs₀.serve (hostOf (serialBlock 1)) (.lookup 1 [0x41])).1.Returned
      ∧ (fs₀.serve (hostOf (serialBlock 1)) (.lookup 1 [0x41])).2.inodes
        FUSE_ROOT_ID = some (.file file) := by
  have hcheck : (mountOf (serialBlock 1)).isOkAnd (fun fs =>
      decide (fs.inodes FUSE_ROOT_ID = some (.directory discRoot)
        ∧ (fs.serve (hostOf (serialBlock 1)) (.lookup 1 [0x41])).1.Returned
        ∧ (fs.serve (hostOf (serialBlock 1)) (.lookup 1 [0x41])).2.inodes
          FUSE_ROOT_ID = some (.file (serialFile 1)))) = true := by
    decide +kernel
  obtain ⟨fs₀, hmount, htests⟩ := Outcome.exists_of_isOkAnd hcheck
  exact ⟨fs₀, discRoot, serialFile 1, (new_hostOf _).trans hmount,
    of_decide_eq_true htests⟩

-- ============================================= three serial numbers

/-- A root directory under the serial number 7, and in it two empty files
under 8 and 9. -/
def pairBlock : BlockBuffer :=
  BlockBuffer.new.overwrite
    ([96, 0, 18, 0, 0, 0, 0, 0, 0, 18, 0, 8, 0, 0, 0, 0, 8, 0,
      100, 1, 1, 0, 0, 0, 0, 2, 0, 0, 1, 0, 0, 1, 1, 0]
      ++ [0x45, 0x52, 18, 1, 10, 0, 0, 1] ++ asBytes "RRIP_1991A"
      ++ pxBytes 0o040755 7
      ++ [78, 0, 21, 0, 0, 0, 0, 0, 0, 21, 0, 0, 0, 0, 0, 0, 0, 0,
        100, 1, 1, 0, 0, 0, 0, 0, 0, 0, 1, 0, 0, 1, 1, 0x41]
      ++ pxBytes 0o100644 8
      ++ [78, 0, 21, 0, 0, 0, 0, 0, 0, 21, 0, 0, 0, 0, 0, 0, 0, 0,
        100, 1, 1, 0, 0, 0, 0, 0, 0, 0, 1, 0, 0, 1, 1, 0x42]
      ++ pxBytes 0o100644 9)

/-- What its first record is read as. -/
def selfDirectory : ISODirectory where
  header := { discHeader with length := 96 }
  identifier := "."
  ext := { ExtraMeta.default with
    attributes := some ⟨0o040755, 1, 0, 0, some 7⟩
    extensions := [SuspExtension.rockRidge1_09].toFinset }

/-- And its last one. -/
def secondFile : ISOFile := { serialFile 9 with identifier := "B" }

/-- The listing of a directory that has the block. -/
structure ListsPair (dir : ISODirectory) : Prop where
  self : entryAt quietBuild (discOf pairBlock) 20 dir 0
    = .ok (.directory selfDirectory, some 96)
  first : entryAt quietBuild (discOf pairBlock) 20 dir 96
    = .ok (.file (serialFile 8), some 174)
  second : entryAt quietBuild (discOf pairBlock) 20 dir 174
    = .ok (.file secondFile, none)

theorem listsPair_root : ListsPair discRoot :=
  ⟨by decide +kernel, by decide +kernel, by decide +kernel⟩

theorem listsPair_self : ListsPair selfDirectory :=
  ⟨by decide +kernel, by decide +kernel, by decide +kernel⟩

/-- There are three positions in it. -/
theorem ListsPair.mem {dir : ISODirectory} (h : ListsPair dir) {offset : ℕ}
    {entry : DirectoryEntry} {next : Option ℕ}
    (hreach : Cursor.Reached (entryAt quietBuild (discOf pairBlock) 20 dir)
      0 offset)
    (hentry : entryAt quietBuild (discOf pairBlock) 20 dir offset
      = .ok (entry, next)) :
    entry ∈ [.directory selfDirectory, .file (serialFile 8),
      .file secondFile] := by
  rw [Cursor.reached_iff_next h.self, Cursor.reached_iff_next h.first,
    Cursor.reached_iff_last h.second] at hreach
  rcases hreach with rfl | rfl | rfl
  · cases h.self.symm.trans hentry
    exact List.mem_cons_self
  · cases h.first.symm.trans hentry
    exact List.mem_cons_of_mem _ List.mem_cons_self
  · cases h.second.symm.trans hentry
    exact List.mem_cons_of_mem _ (List.mem_cons_of_mem _
      List.mem_cons_self)

/-- What there is in the tree. -/
def pairEntries : List DirectoryEntry :=
  [.directory discRoot, .directory selfDirectory, .file (serialFile 8),
    .file secondFile]

theorem pairBlock_inTree {entry : DirectoryEntry}
    (h : InTree quietBuild (discOf pairBlock) 20 discRoot entry) :
    entry ∈ pairEntries := by
  unfold pairEntries
  induction h with
  | root => exact List.mem_cons_self
  | @entry dir _ _ _ _ hreach hentry ih =>
      have hlists : ListsPair dir := by
        rcases List.mem_cons.mp ih with ih | ih
        · injection ih with ih
          exact ih ▸ listsPair_root
        rcases List.mem_cons.mp ih with ih | ih
        · injection ih with ih
          exact ih ▸ listsPair_self
        · simp at ih
      exact List.mem_cons_of_mem _ (hlists.mem hreach hentry)

/-- The serial numbers there identify the entries. -/
theorem pairBlock_serials :
    SerialsIdentify id quietBuild (discOf pairBlock) 20 discRoot := by
  have hserials : ∀ entry ∈ pairEntries, serial entry ≠ some FUSE_ROOT_ID
      ∧ ∀ entry' ∈ pairEntries, serial entry = serial entry' →
        serial entry = none ∨ entry = entry' := by
    decide +kernel
  constructor
  · intro entry h hone
    exact absurd hone (hserials entry (pairBlock_inTree h)).1
  · intro entry entry' n h h' hn hn'
    rcases (hserials entry (pairBlock_inTree h)).2 entry'
      (pairBlock_inTree h') (hn.trans hn'.symm) with hno | heq
    · rw [hno] at hn
      cases hn
    · exact congrArg id heq

/-- After two lookups there, no request changes what a number stands
for. -/
theorem binding_stable_pair : ∃ fs₀ log fs,
    ISOFuse.new (hostOf pairBlock) () = .ok fs₀
      ∧ fs₀.inodeAutogenerated = false
      ∧ Run (serve (hostOf pairBlock))
        (OwnPositions quietBuild (discOf pairBlock) 20) fs₀ log fs
      ∧ fs.inodes 8 = some (.file (serialFile 8))
      ∧ fs.inodes 9 = some (.file secondFile)
      ∧ ∀ q, OwnPositions quietBuild (discOf pairBlock) 20 fs q →
        (∀ ino nlookup, q ≠ .forget ino nlookup) →
        ∀ n entry, fs.inodes n = some entry →
          ∃ entry', (fs.serve (hostOf pairBlock) q).2.inodes n = some entry'
            ∧ id entry' = id entry := by
  have hcheck : (mountOf pairBlock).isOkAnd (fun fs =>
      decide (fs.inodeAutogenerated = false
        ∧ fs.inodes FUSE_ROOT_ID = some (.directory discRoot))
      && let r := serveAll (serve (hostOf pairBlock)) fs
          [.lookup 1 [0x41], .lookup 1 [0x42]] []
        decide ((∀ e ∈ r.1, e.2.Returned)
          ∧ r.2.inodes 8 = some (.file (serialFile 8))
          ∧ r.2.inodes 9
            = some (.file secondFile)))
      = true := by
    decide +kernel
  obtain ⟨fs, hmount, htests⟩ := Outcome.exists_of_isOkAnd hcheck
  rw [Bool.and_eq_true, decide_eq_true_eq, decide_eq_true_eq] at htests
  obtain ⟨⟨hauto, hroot⟩, hreturned, hfirst, hsecond⟩ := htests
  have hnew := (new_hostOf pairBlock).trans hmount
  have hrun : Run (serve (hostOf pairBlock))
      (OwnPositions quietBuild (discOf pairBlock) 20) fs _ _ :=
    run_serveAll [.lookup 1 [0x41], .lookup 1 [0x42]] .start
      (fun _ q hq => by
        rcases List.mem_cons.mp hq with rfl | hq
        · exact trivial
        · rw [List.mem_singleton.mp hq]
          exact trivial) hreturned
  refine ⟨fs, _, _, hnew, hauto, hrun, hfirst, hsecond, (binding_stable id
    (discOf pairBlock).reader_serves hnew (Or.inr fun root hroot' => ?_)
    hrun).2⟩
  rw [hroot] at hroot'
  injection hroot' with hroot'
  injection hroot' with hroot'
  exact hroot' ▸ pairBlock_serials

end Cdfs
