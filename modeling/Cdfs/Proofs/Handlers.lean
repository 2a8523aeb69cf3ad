/-
What each handler does to the state.

The inode table with its counter is a numbered table (`ISOFuse.table`),
and so is the table of open files with the counter of handles
(`ISOFuse.files`). A lookup enters one entry in the first, a listing
some (`lookup_cases`, `readdirLoop_inv`), `forget` drops a number, and
the other handlers leave it alone (`serve_table`). What a turn of the
loop of `readdir` can come to is listed once (`Turn`).
-/
import Cdfs.Fuse.ISOFuse
import Cdfs.Proofs.FileReader
import Cdfs.Rust.Numbering
import Cdfs.Rust.Service

namespace Cdfs

open Rust Parse Numbering

variable {σ : Type} {host : Host σ}

/-- The number that an entry has on the disc. -/
def serial (entry : DirectoryEntry) : Option ℕ :=
  entry.inode.map UInt32.toNat

theorem serial_eq_none {entry : DirectoryEntry} (h : entry.inode = none) :
    serial entry = none := by
  unfold serial
  rw [h]
  rfl

-- ============================================================ attributes

/-- The number of blocks of an entry is computed without an overflow that
is checked. -/
def Countable (host : Host σ) (entry : DirectoryEntry) : Prop :=
  host.build.overflowChecks = true →
    entry.header.extentLength.toNat + BLOCK_SIZE < 2 ^ 32

/-- Only the count of the blocks can fail. -/
theorem getFileattr_parts (host : Host σ) (ino : ℕ)
    (entry : DirectoryEntry) :
    (getFileattr host ino entry).map
        (fun attr => (attr.ino, attr.kind, attr.size, attr.blocks))
      = (ceilDivW 32 host.build.overflowChecks
          entry.header.extentLength.toNat BLOCK_SIZE).map
        fun count => (ino, entryToFiletype entry,
          entry.header.extentLength.toNat, count) := by
  unfold getFileattr ceilDivW
  dsimp only
  cases addW (ε := Errno) 32 host.build.overflowChecks
    entry.header.extentLength.toNat BLOCK_SIZE with
  | err | panic | running => rfl
  | ok sum =>
      rw [Outcome.ok_bind, Outcome.ok_bind]
      cases subW (ε := Errno) 32 host.build.overflowChecks sum 1 with
      | err | panic | running => rfl
      | ok diff => rfl

/-- An entry has attributes, those of the number asked for, exactly if its
blocks can be counted. -/
theorem getFileattr_cases (host : Host σ) (ino : ℕ)
    (entry : DirectoryEntry) :
    (∃ attr, getFileattr host ino entry = .ok attr ∧ attr.ino = ino
        ∧ Countable host entry)
      ∨ getFileattr host ino entry = .panic ∧ ¬ Countable host entry := by
  have hparts := getFileattr_parts host ino entry
  rcases ceilBlocks_ok_or_panic (ε := Errno) host.build.overflowChecks
    entry.header.extentLength with ⟨⟨count, hcount⟩, hfits⟩ |
      ⟨hpanic, hfits⟩
  · rw [hcount] at hparts
    obtain ⟨attr, hattr, heq⟩ := Outcome.map_eq_ok.mp hparts
    exact Or.inl ⟨attr, hattr, congrArg Prod.fst heq, hfits⟩
  · rw [hpanic] at hparts
    exact Or.inr ⟨Outcome.map_eq_panic.mp hparts, hfits⟩

theorem getFileattr_kind {ino : ℕ} {entry : DirectoryEntry}
    {attr : FileAttr} (h : getFileattr host ino entry = .ok attr) :
    attr.kind = entryToFiletype entry := by
  have hparts := getFileattr_parts host ino entry
  rw [h] at hparts
  obtain ⟨count, -, heq⟩ := Outcome.map_eq_ok.mp hparts.symm
  exact (congrArg (·.2.1) heq).symm

/-- An entry that a number can be found for. -/
def HasNumber (fs : ISOFuse σ) (entry : DirectoryEntry) : Prop :=
  fs.inodeAutogenerated = false → entry.inode ≠ none

namespace ISOFuse

variable {fs : ISOFuse σ}

/-- The inode table. -/
def table (fs : ISOFuse σ) : Table DirectoryEntry :=
  ⟨fs.inodes, fs.inodeNumber, fs.inodeAutogenerated⟩

/-- The open files. -/
def files (fs : ISOFuse σ) : Table ISOFileReader :=
  ⟨fs.openFiles, fs.fileNumber, true⟩

-- =========================================================== mounting

theorem new_of_parsed {iso : ISO9660} {s s' : σ}
    (h : ISO9660.new host.build host.reader host.fuel s = (.ok iso, s')) :
    ISOFuse.new host s = mount host iso s' := by
  unfold ISOFuse.new
  rw [h]

/-- What is mounted has a root and nothing else. -/
theorem new_eq_ok {fs : ISOFuse σ} {s : σ} (h : ISOFuse.new host s = .ok fs) :
    ∃ iso s' root s'' file auto,
      ISO9660.new host.build host.reader host.fuel s = (.ok iso, s')
        ∧ iso.mainRoot host.build host.reader host.fuel s' = (.ok root, s'')
        ∧ fs = mounted file root auto := by
  unfold ISOFuse.new at h
  split at h
  · rename_i iso s' hiso
    unfold mount at h
    split at h
    · rename_i root s'' hroot
      split at h
      · split at h
        · injection h with h
          exact ⟨iso, s', root, s'', _, _, hiso, hroot, h.symm⟩
        all_goals cases h
      all_goals cases h
    all_goals cases h
  all_goals cases h

/-- The descriptor itself is not looked at any more. -/
theorem mount_primary (host : Host σ) (root : ISODirectory)
    (supRoot : Option ISODirectory) (primary primary' : VolumeDescriptor)
    (s : σ) :
    mount host ⟨root, supRoot, primary⟩ s
      = mount host ⟨root, supRoot, primary'⟩ s := rfl

-- ================================================== numbers for entries

/-- The number does not depend on the position in the image. -/
theorem numberFor_file (fs : ISOFuse σ) (file : σ)
    (entry : DirectoryEntry) :
    ({ fs with file } : ISOFuse σ).numberFor entry = fs.numberFor entry :=
  rfl

theorem numberFor_cases (fs : ISOFuse σ) (entry : DirectoryEntry) :
    (∃ n, fs.numberFor entry = .ok n
        ∧ fs.table.number serial entry = some n)
      ∨ fs.numberFor entry = .panic
        ∧ fs.inodeAutogenerated = false ∧ entry.inode = none := by
  unfold numberFor Table.number serial table
  cases fs.inodeAutogenerated with
  | true => exact Or.inl ⟨_, rfl, rfl⟩
  | false =>
      cases entry.inode with
      | none => exact Or.inr ⟨rfl, rfl, rfl⟩
      | some ino => exact Or.inl ⟨_, rfl, rfl⟩

theorem numberFor_eq_panic {entry : DirectoryEntry} :
    fs.numberFor entry = .panic
      ↔ fs.inodeAutogenerated = false ∧ entry.inode = none := by
  unfold numberFor
  cases fs.inodeAutogenerated with
  | true => simp
  | false =>
      cases entry.inode with
      | none => simp
      | some ino => simp

theorem numberFor_eq_ok {entry : DirectoryEntry} {n : ℕ} :
    fs.numberFor entry = .ok n
      ↔ fs.table.number serial entry = some n := by
  rcases fs.numberFor_cases entry with ⟨m, hm, hnum⟩ | ⟨hpanic, hgen, hino⟩
  · rw [hm, hnum, Outcome.ok.injEq, Option.some.injEq]
  · have hown : fs.table.generated = false := hgen
    rw [hpanic, Table.number_of_own hown, serial_eq_none hino]
    exact ⟨(fun h => nomatch h), fun h => nomatch h⟩

@[simp] theorem table_insert (fs : ISOFuse σ) (n : ℕ)
    (entry : DirectoryEntry) :
    (fs.insert n entry).table = fs.table.insert n entry := rfl

@[simp] theorem table_advance (fs : ISOFuse σ) :
    fs.advance.table = fs.table.advance := by
  unfold advance Table.advance
  show _ = if fs.inodeAutogenerated = true then _ else _
  split
  · rfl
  · rfl

/-- Reading a file does not touch it. -/
theorem table_reading (fs : ISOFuse σ) (openFiles : ℕ → Option ISOFileReader)
    (file : σ) : ({ fs with openFiles, file } : ISOFuse σ).table = fs.table :=
  rfl

/-- A listed entry is entered or passed over. -/
theorem table_listed (fs : ISOFuse σ) (n : ℕ) (entry : DirectoryEntry) :
    (fs.listed n entry).table = (fs.table.insert n entry).advance
      ∨ (fs.listed n entry).table = fs.table.advance := by
  unfold listed
  rw [table_advance]
  split
  · exact Or.inl rfl
  · exact Or.inr rfl

-- ================================================================ lookup

/-- A lookup that succeeds has found an entry and entered it; any other
leaves the tables alone, and `EINVAL` is for a number that is not in the
table. -/
theorem lookup_cases (host : Host σ) (fs : ISOFuse σ) (parent : ℕ)
    (name : List UInt8) :
    ((∃ file, (lookup host fs parent name).2 = { fs with file })
        ∧ (∀ reply, (lookup host fs parent name).1 ≠ .ok reply)
        ∧ ((lookup host fs parent name).1 = .err .EINVAL →
          fs.inodes parent = none))
      ∨ ∃ dir text entry attr file,
          fs.inodes parent = some (.directory dir)
          ∧ fs.inodeNumber ≠ u64Max
          ∧ fromUtf8 name = some text
          ∧ find host.build host.reader host.fuel dir text fs.file
              = (.ok (some entry), file)
          ∧ fs.numberFor entry = .ok attr.ino
          ∧ getFileattr host attr.ino entry = .ok attr
          ∧ lookup host fs parent name
              = (.ok (.entry attr),
                (({ fs with file }).insert attr.ino entry).advance) := by
  unfold lookup
  split
  · rename_i hnone
    exact Or.inl ⟨⟨fs.file, rfl⟩, (fun _ h => nomatch h), fun _ => hnone⟩
  · rename_i dir hdir
    split
    · exact Or.inl ⟨⟨fs.file, rfl⟩, (fun _ h => nomatch h),
        fun h => nomatch h⟩
    · rename_i hnum
      cases htext : fromUtf8 name with
      | none => exact Or.inl ⟨⟨fs.file, rfl⟩, (fun _ h => nomatch h),
          fun h => nomatch h⟩
      | some text =>
          dsimp only
          split
          · rename_i entry file hfind
            rw [numberFor_file]
            rcases fs.numberFor_cases entry with ⟨n, hn, -⟩ | ⟨hpanic, -, -⟩
            · rw [hn]
              dsimp only
              rcases getFileattr_cases host n entry with
                ⟨attr, hattr, rfl, -⟩ | ⟨hattr, -⟩
              · rw [hattr]
                exact Or.inr ⟨dir, text, entry, attr, file, hdir, hnum,
                  rfl, hfind, hn, hattr, rfl⟩
              · rw [hattr]
                exact Or.inl ⟨⟨file, rfl⟩, (fun _ h => nomatch h),
                  fun h => nomatch h⟩
            · rw [hpanic]
              exact Or.inl ⟨⟨file, rfl⟩, (fun _ h => nomatch h),
                fun h => nomatch h⟩
          all_goals exact Or.inl ⟨⟨_, rfl⟩, (fun _ h => nomatch h),
            fun h => nomatch h⟩
  · exact Or.inl ⟨⟨fs.file, rfl⟩, (fun _ h => nomatch h),
      fun h => nomatch h⟩

/-- A lookup that finds an entry, and its attributes, enters it. -/
theorem lookup_found {fs : ISOFuse σ} {parent : ℕ} {name : List UInt8}
    {dir : ISODirectory} {text : String} {entry : DirectoryEntry} {file : σ}
    {attr : FileAttr} (hdir : fs.inodes parent = some (.directory dir))
    (hnum : fs.inodeNumber ≠ u64Max) (htext : fromUtf8 name = some text)
    (hfind : find host.build host.reader host.fuel dir text fs.file
      = (.ok (some entry), file))
    (hino : fs.numberFor entry = .ok attr.ino)
    (hattr : getFileattr host attr.ino entry = .ok attr) :
    lookup host fs parent name
      = (.ok (.entry attr),
        (({ fs with file }).insert attr.ino entry).advance) := by
  unfold lookup
  rw [hdir]
  dsimp only
  rw [if_neg hnum, htext]
  dsimp only
  rw [hfind]
  dsimp only
  rw [numberFor_file, hino]
  dsimp only
  rw [hattr]

/-- What a lookup that replied has done: the entry that it found got the
number in the reply. -/
theorem lookup_entered {parent : ℕ} {name : List UInt8} {attr : FileAttr}
    (h : (lookup host fs parent name).1 = .ok (.entry attr)) :
    ∃ dir text entry, fs.inodes parent = some (.directory dir)
      ∧ (find host.build host.reader host.fuel dir text fs.file).1
        = .ok (some entry)
      ∧ fs.table.number serial entry = some attr.ino
      ∧ getFileattr host attr.ino entry = .ok attr
      ∧ (lookup host fs parent name).2.table
        = (fs.table.insert attr.ino entry).advance
      ∧ (lookup host fs parent name).2.inodes attr.ino = some entry := by
  rcases lookup_cases host fs parent name with ⟨-, hno, -⟩ |
    ⟨dir, text, entry, attr', file, hdir, -, -, hfind, hn, hattr, hcall⟩
  · exact absurd h (hno _)
  · rw [hcall] at h
    injection Outcome.ok.inj h with h
    subst h
    have htable : (lookup host fs parent name).2.table
        = (fs.table.insert attr'.ino entry).advance := by
      rw [hcall, table_advance, table_insert]
      rfl
    refine ⟨dir, text, entry, hdir, congrArg Prod.fst hfind,
      numberFor_eq_ok.mp hn, hattr, htable, ?_⟩
    show (lookup host fs parent name).2.table.bound attr'.ino = some entry
    rw [htable, Table.bound_advance, Table.bound_insert]

/-- With a counter it is the counter's number, and the counter moves on. -/
theorem lookup_counted (hgen : fs.inodeAutogenerated = true) {parent : ℕ}
    {name : List UInt8} {attr : FileAttr}
    (h : (lookup host fs parent name).1 = .ok (.entry attr)) :
    attr.ino = fs.inodeNumber
      ∧ (lookup host fs parent name).2.inodeNumber = fs.inodeNumber + 1 := by
  obtain ⟨-, -, entry, -, -, hnum, -, htable, -⟩ := lookup_entered h
  constructor
  · exact Option.some.inj
      (hnum.symm.trans (Table.number_of_generated hgen entry))
  · show (lookup host fs parent name).2.table.next = _
    rw [htable]
    exact Table.next_advance hgen

-- ======================================================= open and close

/-- A file is opened under the next handle, or not at all; `EINVAL` is
for a number that is not in the table. -/
theorem openFile_cases (fs : ISOFuse σ) (ino : ℕ) :
    (∃ e, fs.openFile ino = (.err e, fs)
        ∧ (e = .EINVAL → fs.inodes ino = none))
      ∨ ∃ file, fs.inodes ino = some (.file file)
        ∧ fs.openFile ino = (.ok (.opened fs.fileNumber),
          { fs with
            openFiles := Function.update fs.openFiles fs.fileNumber
              (some file.read)
            fileNumber := fs.fileNumber + 1 }) := by
  unfold openFile
  split
  · rename_i hnone
    exact Or.inl ⟨_, rfl, fun _ => hnone⟩
  · rename_i file hino
    split
    · exact Or.inl ⟨_, rfl, fun h => nomatch h⟩
    · exact Or.inr ⟨file, hino, rfl⟩
  · exact Or.inl ⟨_, rfl, fun h => nomatch h⟩

theorem opendir_cases (fs : ISOFuse σ) (ino : ℕ) :
    (∃ e, fs.opendir ino = (.err e, fs)
        ∧ (e = .EINVAL → fs.inodes ino = none))
      ∨ ∃ dir, fs.inodes ino = some (.directory dir)
        ∧ fs.opendir ino = (.ok (.opened fs.directoryNumber),
          { fs with
            openDirectories := Function.update fs.openDirectories
              fs.directoryNumber (some dir)
            directoryNumber := fs.directoryNumber + 1 }) := by
  unfold opendir
  split
  · rename_i hnone
    exact Or.inl ⟨_, rfl, fun _ => hnone⟩
  · rename_i dir hino
    split
    · exact Or.inl ⟨_, rfl, fun h => nomatch h⟩
    · exact Or.inr ⟨dir, hino, rfl⟩
  · exact Or.inl ⟨_, rfl, fun h => nomatch h⟩

theorem release_cases (fs : ISOFuse σ) (fh : ℕ) :
    (∃ e, fs.release fh = (.err e, fs))
      ∨ fs.release fh = (.ok .ok,
        { fs with openFiles := Function.update fs.openFiles fh none }) := by
  unfold release
  split
  · exact Or.inr rfl
  · exact Or.inl ⟨_, rfl⟩

theorem releasedir_cases (fs : ISOFuse σ) (fh : ℕ) :
    (∃ e, fs.releasedir fh = (.err e, fs))
      ∨ fs.releasedir fh = (.ok .ok,
        { fs with
          openDirectories :=
            Function.update fs.openDirectories fh none }) := by
  unfold releasedir
  split
  · exact Or.inr rfl
  · exact Or.inl ⟨_, rfl⟩

theorem readlink_cases (fs : ISOFuse σ) (ino : ℕ) :
    (∃ e, fs.readlink ino = .err e)
      ∨ ∃ data, fs.readlink ino = .ok (.data data) := by
  unfold readlink
  split
  · exact Or.inl ⟨_, rfl⟩
  · split
    · exact Or.inr ⟨_, rfl⟩
    · exact Or.inl ⟨_, rfl⟩
  · exact Or.inl ⟨_, rfl⟩

-- ================================================================== read

/-- What a request reads: into an empty buffer of its size, from its
offset on. -/
def readAt (host : Host σ) (r : ISOFileReader) (offset : Int64)
    (size : UInt32) (file : σ) : ISOFileReader.ReadResult σ :=
  ({ r with seek := offset.toInt.toNat }).read host.reader
    (List.replicate size.toNat 0) file

/-- A read is of an open file, at an offset that is not negative; its
seek always succeeds. -/
theorem read_cases (host : Host σ) (fs : ISOFuse σ) (fh : ℕ)
    (offset : Int64) (size : UInt32) :
    (read host fs fh offset size = (.err .EINVAL, fs)
        ∧ (offset.toInt < 0 ∨ fs.openFiles fh = none))
      ∨ ∃ r, 0 ≤ offset.toInt ∧ fs.openFiles fh = some r
        ∧ read host fs fh offset size
          = (dataReply (readAt host r offset size fs.file),
            { fs with
              openFiles := Function.update fs.openFiles fh
                (some (readAt host r offset size fs.file).reader)
              file := (readAt host r offset size fs.file).state }) := by
  unfold read
  split
  · rename_i hneg
    exact Or.inl ⟨rfl, Or.inl hneg⟩
  · rename_i hneg
    cases hr : fs.openFiles fh with
    | none => exact Or.inl ⟨rfl, Or.inr rfl⟩
    | some r =>
        refine Or.inr ⟨r, by omega, rfl, ?_⟩
        have hlt := offset.toInt_lt
        have hpos : (UInt64.ofNat offset.toInt.toNat).toNat
            = offset.toInt.toNat := by
          rw [UInt64.toNat_ofNat']
          exact Nat.mod_eq_of_lt (by omega)
        dsimp only
        rw [ISOFileReader.seekTo_start r (by omega), hpos]
        rfl

-- ====================================================== a turn of readdir

/-- A cookie of the source below `2 ^ 32` is one of `readdir`. -/
theorem fuseOffset_some {offset : ℕ} (h : offset < 2 ^ 32) :
    fuseOffset (some offset) = some (Int64.ofNat offset)
      ∧ (Int64.ofNat offset).toInt = offset := by
  have hlt : offset < 2 ^ 63 := by omega
  constructor
  · show (if offset < 2 ^ 63 then _ else _) = _
    rw [if_pos hlt]
  · exact Int64.toInt_ofNat_of_lt hlt

/-- Every position that a call goes on to has a cookie. -/
theorem exists_fuseOffset {dir : ISODirectory}
    {cache cache' : BlockCache} {offset : ℕ} {entry : DirectoryEntry}
    {next : Option ℕ} {file file' : σ}
    (h : readEntryAt host.build host.reader host.fuel dir cache offset file
      = (.ok (entry, next), cache', file')) :
    ∃ cookie, fuseOffset next = some cookie := by
  cases next with
  | none => exact ⟨-1, rfl⟩
  | some offset' => exact ⟨_, (fuseOffset_some (readEntryAt_progress h).2).1⟩

section Turn

variable (host) (dir : ISODirectory) (accepts : Capacity)

/-- The loop behind an entry: from the next offset, if there is one. -/
def readdirFrom (turns : ℕ) (fs : ISOFuse σ) (cache : BlockCache)
    (next : Option ℕ) (listing : List Dirent) :
    Outcome Errno Reply × ISOFuse σ :=
  match next with
  | some offset => readdirLoop host dir accepts turns fs cache offset listing
  | none => (.ok (.directory listing), fs)

/-- What a turn of the loop comes to, by what it finds. -/
inductive Turn (turns : ℕ) (fs : ISOFuse σ) (cache : BlockCache)
    (offset : ℕ) (listing : List Dirent) :
    Outcome Errno Reply × ISOFuse σ → Prop
  | out : fs.inodeNumber = u64Max →
      Turn turns fs cache offset listing (.err .ENFILE, fs)
  | failed {r : Outcome ISOError (DirectoryEntry × Option ℕ)}
      {cache' : BlockCache} {file : σ} {a : Outcome Errno Reply} :
      fs.inodeNumber ≠ u64Max →
      readEntryAt host.build host.reader host.fuel dir cache offset fs.file
        = (r, cache', file) →
      (∀ found, r ≠ .ok found) → (a.Returned ↔ r.Returned) →
      (∀ reply, a ≠ .ok reply) →
      Turn turns fs cache offset listing (a, { fs with file })
  | hidden {entry : DirectoryEntry} {next : Option ℕ} {cache' : BlockCache}
      {file : σ} :
      fs.inodeNumber ≠ u64Max →
      readEntryAt host.build host.reader host.fuel dir cache offset fs.file
        = (.ok (entry, next), cache', file) →
      entry.relocated = true →
      Turn turns fs cache offset listing
        (readdirFrom host dir accepts turns { fs with file } cache' next
          listing)
  | numberless {entry : DirectoryEntry} {next : Option ℕ}
      {cache' : BlockCache} {file : σ} :
      fs.inodeNumber ≠ u64Max →
      readEntryAt host.build host.reader host.fuel dir cache offset fs.file
        = (.ok (entry, next), cache', file) →
      entry.relocated = false → fs.numberFor entry = .panic →
      Turn turns fs cache offset listing (.panic, { fs with file })
  | full {entry : DirectoryEntry} {next : Option ℕ} {cache' : BlockCache}
      {file : σ} {n : ℕ} {cookie : Int64} :
      fs.inodeNumber ≠ u64Max →
      readEntryAt host.build host.reader host.fuel dir cache offset fs.file
        = (.ok (entry, next), cache', file) →
      entry.relocated = false → fs.numberFor entry = .ok n →
      fuseOffset next = some cookie →
      accepts listing (dirent n cookie entry) = false →
      Turn turns fs cache offset listing
        (.ok (.directory listing), { fs with file })
  | listed {entry : DirectoryEntry} {next : Option ℕ} {cache' : BlockCache}
      {file : σ} {n : ℕ} {cookie : Int64} :
      fs.inodeNumber ≠ u64Max →
      readEntryAt host.build host.reader host.fuel dir cache offset fs.file
        = (.ok (entry, next), cache', file) →
      entry.relocated = false → fs.numberFor entry = .ok n →
      fuseOffset next = some cookie →
      accepts listing (dirent n cookie entry) = true →
      Turn turns fs cache offset listing
        (readdirFrom host dir accepts turns (({ fs with file }).listed n entry)
          cache' next (listing ++ [dirent n cookie entry]))

theorem readdirLoop_turn (turns : ℕ) (fs : ISOFuse σ) (cache : BlockCache)
    (offset : ℕ) (listing : List Dirent) :
    Turn host dir accepts turns fs cache offset listing
      (readdirLoop host dir accepts (turns + 1) fs cache offset listing) := by
  rw [readdirLoop]
  by_cases hmax : fs.inodeNumber = u64Max
  · rw [if_pos hmax]
    exact .out hmax
  · rw [if_neg hmax]
    rcases hcall : readEntryAt host.build host.reader host.fuel dir cache
      offset fs.file with ⟨r, cache', file⟩
    cases r with
    | err e =>
        exact .failed hmax hcall (fun _ h => nomatch h) Iff.rfl
          fun _ h => nomatch h
    | panic =>
        exact .failed hmax hcall (fun _ h => nomatch h) Iff.rfl
          fun _ h => nomatch h
    | running =>
        exact .failed hmax hcall (fun _ h => nomatch h) Iff.rfl
          fun _ h => nomatch h
    | ok found =>
        obtain ⟨entry, next⟩ := found
        dsimp only
        cases hrel : entry.relocated with
        | true =>
            rw [if_pos rfl]
            exact .hidden hmax hcall hrel
        | false =>
            rw [if_neg Bool.false_ne_true]
            obtain ⟨cookie, hcookie⟩ := exists_fuseOffset hcall
            rw [hcookie, numberFor_file]
            dsimp only
            rcases fs.numberFor_cases entry with ⟨n, hn, -⟩ | ⟨hpanic, -, -⟩
            · rw [hn]
              dsimp only
              cases hfits : accepts listing (dirent n cookie entry) with
              | true =>
                  rw [if_pos rfl]
                  exact .listed hmax hcall hrel hn hcookie hfits
              | false =>
                  rw [if_neg Bool.false_ne_true]
                  exact .full hmax hcall hrel hn hcookie hfits
            · rw [hpanic]
              exact .numberless hmax hcall hrel hpanic

end Turn

-- =============================================================== readdir

/-- What listing an entry keeps, and reading one, the loop keeps. The
positions that it comes to satisfy `A`, and the entries that it reads
there satisfy `P`. -/
theorem readdirLoop_inv {dir : ISODirectory} {accepts : Capacity}
    {I : ISOFuse σ → Prop} {A : BlockCache → ℕ → Prop}
    {P : DirectoryEntry → Prop}
    (hread : ∀ cache offset file entry next cache' file', A cache offset →
      readEntryAt host.build host.reader host.fuel dir cache offset file
        = (.ok (entry, next), cache', file') →
      P entry ∧ ∀ offset', next = some offset' → A cache' offset')
    (hfile : ∀ fs file, I fs → I { fs with file })
    (hlisted : ∀ fs n entry, I fs → P entry → fs.numberFor entry = .ok n →
      I (fs.listed n entry)) (turns : ℕ) :
    ∀ (fs : ISOFuse σ) (cache : BlockCache) (offset : ℕ)
      (listing : List Dirent), I fs → A cache offset →
      I (readdirLoop host dir accepts turns fs cache offset listing).2 := by
  induction turns with
  | zero => exact fun fs _ _ _ hI _ => hI
  | succ turns ih =>
      intro fs cache offset listing hI hat
      have hfrom : ∀ fs cache next listing, I fs →
          (∀ offset', next = some offset' → A cache offset') →
          I (readdirFrom host dir accepts turns fs cache next
            listing).2 := by
        intro fs cache next listing hI hnext
        cases next with
        | none => exact hI
        | some offset' => exact ih _ _ _ _ hI (hnext _ rfl)
      have hturn := readdirLoop_turn host dir accepts turns fs cache offset
        listing
      generalize readdirLoop host dir accepts (turns + 1) fs cache offset
        listing = result at hturn ⊢
      cases hturn with
      | out => exact hI
      | failed | numberless | full => exact hfile fs _ hI
      | hidden _ hcall =>
          exact hfrom _ _ _ _ (hfile fs _ hI)
            (hread _ _ _ _ _ _ _ hat hcall).2
      | listed _ hcall _ hn =>
          obtain ⟨hentry, hnext⟩ := hread _ _ _ _ _ _ _ hat hcall
          exact hfrom _ _ _ _ (hlisted _ _ _ (hfile fs _ hI) hentry hn) hnext

/-- So does `readdir`, if a listing may start where it is asked to. -/
theorem readdir_inv {I : ISOFuse σ → Prop} {fs : ISOFuse σ} {fh : ℕ}
    {offset : Int64} {accepts : Capacity}
    {A : ISODirectory → BlockCache → ℕ → Prop}
    {P : DirectoryEntry → Prop}
    (hread : ∀ dir, fs.openDirectories fh = some dir →
      ∀ cache offset file entry next cache' file', A dir cache offset →
      readEntryAt host.build host.reader host.fuel dir cache offset file
        = (.ok (entry, next), cache', file') →
      P entry ∧ ∀ offset', next = some offset' → A dir cache' offset')
    (hfile : ∀ fs file, I fs → I { fs with file })
    (hlisted : ∀ fs n entry, I fs → P entry → fs.numberFor entry = .ok n →
      I (fs.listed n entry))
    (hstart : ∀ dir, fs.openDirectories fh = some dir → 0 ≤ offset.toInt →
      A dir BlockCache.new offset.toInt.toNat) (hI : I fs) :
    I (readdir host fs fh offset accepts).2 := by
  unfold readdir
  cases hdir : fs.openDirectories fh with
  | none => exact hI
  | some dir =>
      dsimp only
      split
      · exact hI
      · split
        · exact hI
        · exact readdirLoop_inv (hread dir hdir) hfile hlisted _ fs _ _ _ hI
            (hstart dir hdir (by omega))

-- ==================================================== the inode table

/-- A listing enters entries that it has read. -/
theorem readdir_enters {fs : ISOFuse σ} {fh : ℕ} {offset : Int64}
    {accepts : Capacity} {A : ISODirectory → BlockCache → ℕ → Prop}
    {P : DirectoryEntry → Prop}
    (hread : ∀ dir, fs.openDirectories fh = some dir →
      ∀ cache offset file entry next cache' file', A dir cache offset →
      readEntryAt host.build host.reader host.fuel dir cache offset file
        = (.ok (entry, next), cache', file') →
      P entry ∧ ∀ offset', next = some offset' → A dir cache' offset')
    (hstart : ∀ dir, fs.openDirectories fh = some dir → 0 ≤ offset.toInt →
      A dir BlockCache.new offset.toInt.toNat) :
    Enters serial P fs.table (readdir host fs fh offset accepts).2.table := by
  refine readdir_inv (I := fun fs' => Enters serial P fs.table fs'.table)
    hread (fun _ _ h => h) ?_ hstart .refl
  intro fs' n entry hent hentry hn
  rcases fs'.table_listed n entry with h | h
  · rw [h]
    exact .enter hent hentry (numberFor_eq_ok.mp hn)
  · rw [h]
    exact .pass hent

/-- A lookup enters the entry that it has found. -/
theorem lookup_enters {P : DirectoryEntry → Prop} (parent : ℕ)
    (name : List UInt8)
    (hfind : ∀ dir text entry file, fs.inodes parent = some (.directory dir) →
      find host.build host.reader host.fuel dir text fs.file
        = (.ok (some entry), file) → P entry) :
    Enters serial P fs.table (lookup host fs parent name).2.table := by
  rcases lookup_cases host fs parent name with ⟨⟨file, h⟩, -⟩ |
    ⟨dir, text, entry, attr, file, hdir, -, -, hcall, hn, -, h⟩
  · rw [h]
    exact .refl
  · rw [h, table_advance, table_insert]
    exact .enter .refl (hfind dir text entry file hdir hcall)
      (numberFor_eq_ok.mp hn)

/-- The requests whose handlers write to the inode table. -/
def binds : Request → Bool
  | .lookup _ _ => true
  | .forget _ _ => true
  | .readdir _ _ _ => true
  | _ => false

theorem forget_or (q : Request) :
    (∃ ino nlookup, q = .forget ino nlookup)
      ∨ ∀ ino nlookup, q ≠ .forget ino nlookup := by
  by_cases h : ∃ ino nlookup, q = .forget ino nlookup
  · exact Or.inl h
  · exact Or.inr fun ino nlookup heq => h ⟨ino, nlookup, heq⟩

theorem serve_table_eq (host : Host σ) (fs : ISOFuse σ) {q : Request}
    (hq : binds q = false) : (fs.serve host q).2.table = fs.table := by
  cases q with
  | lookup | forget | readdir => cases hq
  | getattr | readlink | getxattr => rfl
  | openFile ino =>
      show (fs.openFile ino).2.table = _
      rcases fs.openFile_cases ino with ⟨_, h, -⟩ | ⟨_, -, h⟩
      all_goals rw [h]
      rfl
  | read fh offset size =>
      show (read host fs fh offset size).2.table = _
      rcases read_cases host fs fh offset size with ⟨h, -⟩ | ⟨r, -, -, h⟩
      · rw [h]
      · rw [h, table_reading]
  | release fh =>
      show (fs.release fh).2.table = _
      rcases fs.release_cases fh with ⟨_, h⟩ | h
      all_goals rw [h]
      rfl
  | opendir ino =>
      show (fs.opendir ino).2.table = _
      rcases fs.opendir_cases ino with ⟨_, h, -⟩ | ⟨_, -, h⟩
      all_goals rw [h]
      rfl
  | releasedir fh =>
      show (fs.releasedir fh).2.table = _
      rcases fs.releasedir_cases fh with ⟨_, h⟩ | h
      all_goals rw [h]
      rfl

/-- Every request but `forget` at most enters entries. -/
theorem serve_table (host : Host σ) (fs : ISOFuse σ) (q : Request)
    (hq : ∀ ino nlookup, q ≠ .forget ino nlookup) :
    Enters serial (fun _ => True) fs.table (fs.serve host q).2.table := by
  cases q with
  | lookup parent name =>
      exact lookup_enters parent name fun _ _ _ _ _ _ => trivial
  | readdir fh offset accepts =>
      exact readdir_enters (A := fun _ _ _ => True)
        (fun _ _ _ _ _ _ _ _ _ _ _ => ⟨trivial, fun _ _ => trivial⟩)
        fun _ _ _ => trivial
  | forget ino nlookup => exact absurd rfl (hq ino nlookup)
  | getattr | readlink | openFile | read | release | opendir | getxattr
  | releasedir =>
      rw [serve_table_eq host fs rfl]
      exact .refl

/-- Where numbers come from never changes. -/
theorem serve_generated (host : Host σ) (fs : ISOFuse σ) (q : Request) :
    (fs.serve host q).2.inodeAutogenerated = fs.inodeAutogenerated := by
  rcases forget_or q with ⟨m, k, rfl⟩ | hq
  · rfl
  · exact (serve_table host fs q hq).generated

-- ============================================================== handles

/-- The same files and directories are open, under the same handles. -/
structure SameHandles (fs fs' : ISOFuse σ) : Prop where
  openFiles : fs'.openFiles = fs.openFiles
  fileNumber : fs'.fileNumber = fs.fileNumber
  openDirectories : fs'.openDirectories = fs.openDirectories
  directoryNumber : fs'.directoryNumber = fs.directoryNumber

theorem SameHandles.refl (fs : ISOFuse σ) : SameHandles fs fs :=
  ⟨rfl, rfl, rfl, rfl⟩

theorem SameHandles.trans {fs fs' fs'' : ISOFuse σ}
    (h : SameHandles fs fs') (h' : SameHandles fs' fs'') :
    SameHandles fs fs'' where
  openFiles := h'.openFiles.trans h.openFiles
  fileNumber := h'.fileNumber.trans h.fileNumber
  openDirectories := h'.openDirectories.trans h.openDirectories
  directoryNumber := h'.directoryNumber.trans h.directoryNumber

theorem sameHandles_advance (fs : ISOFuse σ) :
    SameHandles fs fs.advance := by
  unfold advance
  split
  · exact ⟨rfl, rfl, rfl, rfl⟩
  · exact .refl fs

theorem sameHandles_listed (fs : ISOFuse σ) (n : ℕ)
    (entry : DirectoryEntry) : SameHandles fs (fs.listed n entry) := by
  unfold listed
  refine SameHandles.trans ?_ (sameHandles_advance _)
  split
  · exact ⟨rfl, rfl, rfl, rfl⟩
  · exact .refl fs

theorem lookup_handles (host : Host σ) (fs : ISOFuse σ) (parent : ℕ)
    (name : List UInt8) :
    SameHandles fs (lookup host fs parent name).2 := by
  rcases lookup_cases host fs parent name with ⟨⟨file, h⟩, -⟩ |
    ⟨dir, text, entry, attr, file, -, -, -, -, -, -, h⟩
  · rw [h]
    exact ⟨rfl, rfl, rfl, rfl⟩
  · rw [h]
    have hinsert : SameHandles fs
        (({ fs with file } : ISOFuse σ).insert attr.ino entry) :=
      ⟨rfl, rfl, rfl, rfl⟩
    exact hinsert.trans (sameHandles_advance _)

theorem readdir_handles (host : Host σ) (fs : ISOFuse σ) (fh : ℕ)
    (offset : Int64) (accepts : Capacity) :
    SameHandles fs (readdir host fs fh offset accepts).2 :=
  readdir_inv (I := SameHandles fs) (A := fun _ _ _ => True)
    (P := fun _ => True)
    (fun _ _ _ _ _ _ _ _ _ _ _ => ⟨trivial, fun _ _ => trivial⟩)
    (fun _ _ h => h.trans ⟨rfl, rfl, rfl, rfl⟩)
    (fun _ _ _ h _ _ => h.trans (sameHandles_listed _ _ _))
    (fun _ _ _ => trivial) (.refl fs)

/-- A directory that is open was open before, or it is in the inode
table. -/
theorem serve_directories (host : Host σ) (fs : ISOFuse σ) (q : Request)
    {fh : ℕ} {dir : ISODirectory}
    (h : (fs.serve host q).2.openDirectories fh = some dir) :
    fs.openDirectories fh = some dir
      ∨ ∃ ino, fs.inodes ino = some (.directory dir) := by
  cases q with
  | lookup parent name =>
      rw [show (fs.serve host (.lookup parent name)).2.openDirectories
        = fs.openDirectories from
          (lookup_handles host fs parent name).openDirectories] at h
      exact Or.inl h
  | readdir fh offset accepts =>
      rw [show (fs.serve host (.readdir fh offset accepts)).2.openDirectories
        = fs.openDirectories from
          (readdir_handles host fs fh offset accepts).openDirectories] at h
      exact Or.inl h
  | forget | getattr | readlink | getxattr => exact Or.inl h
  | read fh offset size =>
      change (read host fs fh offset size).2.openDirectories _ = _ at h
      rcases read_cases host fs fh offset size with ⟨hcall, -⟩ |
        ⟨r, -, -, hcall⟩
      · rw [hcall] at h
        exact Or.inl h
      · rw [hcall] at h
        exact Or.inl h
  | openFile ino =>
      change (fs.openFile ino).2.openDirectories _ = _ at h
      rcases fs.openFile_cases ino with ⟨_, hcall, -⟩ | ⟨_, -, hcall⟩
      · rw [hcall] at h
        exact Or.inl h
      · rw [hcall] at h
        exact Or.inl h
  | release fh =>
      change (fs.release fh).2.openDirectories _ = _ at h
      rcases fs.release_cases fh with ⟨_, hcall⟩ | hcall
      · rw [hcall] at h
        exact Or.inl h
      · rw [hcall] at h
        exact Or.inl h
  | opendir ino =>
      change (fs.opendir ino).2.openDirectories _ = _ at h
      rcases fs.opendir_cases ino with ⟨_, hcall, -⟩ | ⟨directory, hino, hcall⟩
      · rw [hcall] at h
        exact Or.inl h
      · rw [hcall] at h
        by_cases hfh : fh = fs.directoryNumber
        · rw [hfh] at h
          have heq := (Function.update_self _ _ _).symm.trans h
          injection heq with heq
          exact Or.inr ⟨ino, by rw [hino, heq]⟩
        · exact Or.inl ((Function.update_of_ne hfh _ _).symm.trans h)
  | releasedir fh' =>
      change (fs.releasedir fh').2.openDirectories _ = _ at h
      rcases fs.releasedir_cases fh' with ⟨_, hcall⟩ | hcall
      · rw [hcall] at h
        exact Or.inl h
      · rw [hcall] at h
        by_cases hfh : fh = fh'
        · rw [hfh] at h
          cases (Function.update_self _ _ _).symm.trans h
        · exact Or.inl ((Function.update_of_ne hfh _ _).symm.trans h)

end ISOFuse

end Cdfs
