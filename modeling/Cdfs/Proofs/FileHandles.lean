/-
What an open file is. A handle is a reader with a buffer and a position
of its own, and every read of it seeks first; so what a read returns
depends on the file alone that the handle was opened for, and neither on
what was read before nor on the inode table (`handle_reads_file`).

The open files with their counter are a numbered table (`serve_files`).
A handle keeps what reads keep of its reader, through all requests but
its own `release` (`Opened.serve`).
-/
import Cdfs.Proofs.FileContents
import Cdfs.Proofs.LookupReferences

namespace Cdfs

open Rust Parse Numbering Service ISOFuse ISOFileReader

variable {σ : Type} {host : Host σ} {fs₀ fs fs' : ISOFuse σ}
  {log log' : Log} {image : List UInt8} {file : ISOFile} {fh : ℕ}

-- ======================================================== the open files

theorem ISOFuse.SameHandles.files (h : SameHandles fs fs') :
    fs'.files = fs.files := by
  unfold ISOFuse.files
  rw [h.openFiles, h.fileNumber]

/-- A request opens a file, moves the reader of an open one, closes one,
or leaves the open files alone. -/
theorem serve_files (host : Host σ) (fs : ISOFuse σ) (q : Request) :
    (fs.serve host q).2.files = fs.files
      ∨ (∃ ino file, q = .openFile ino
        ∧ (fs.serve host q).2.files
          = (fs.files.insert fs.fileNumber (ISOFile.read file)).advance)
      ∨ (∃ fh offset size r, fs.openFiles fh = some r
        ∧ (fs.serve host q).2.files = fs.files.insert fh
          (readAt host r offset size fs.file).reader)
      ∨ ∃ fh, q = .release fh
        ∧ (fs.serve host q).2.files = fs.files.drop fh := by
  cases q with
  | lookup parent name =>
      exact Or.inl (lookup_handles host fs parent name).files
  | readdir fh offset accepts =>
      exact Or.inl (readdir_handles host fs fh offset accepts).files
  | forget | getattr | readlink | getxattr => exact Or.inl rfl
  | openFile ino =>
      rcases fs.openFile_cases ino with ⟨_, hcall, -⟩ | ⟨file, -, hcall⟩
      · left
        show (fs.openFile ino).2.files = _
        rw [hcall]
      · refine Or.inr (Or.inl ⟨ino, file, rfl, ?_⟩)
        show (fs.openFile ino).2.files = _
        rw [hcall]
        rfl
  | read fh offset size =>
      rcases read_cases host fs fh offset size with ⟨hcall, -⟩ |
        ⟨r, -, hr, hcall⟩
      · left
        show (ISOFuse.read host fs fh offset size).2.files = _
        rw [hcall]
      · refine Or.inr (Or.inr (Or.inl ⟨fh, offset, size, r, hr, ?_⟩))
        show (ISOFuse.read host fs fh offset size).2.files = _
        rw [hcall]
        rfl
  | release fh =>
      rcases fs.release_cases fh with ⟨_, hcall⟩ | hcall
      · left
        show (fs.release fh).2.files = _
        rw [hcall]
      · refine Or.inr (Or.inr (Or.inr ⟨fh, rfl, ?_⟩))
        show (fs.release fh).2.files = _
        rw [hcall]
        rfl
  | opendir ino =>
      left
      show (fs.opendir ino).2.files = _
      rcases fs.opendir_cases ino with ⟨_, hcall, -⟩ | ⟨_, -, hcall⟩
      all_goals rw [hcall]
      rfl
  | releasedir fh =>
      left
      show (fs.releasedir fh).2.files = _
      rcases fs.releasedir_cases fh with ⟨_, hcall⟩ | hcall
      all_goals rw [hcall]
      rfl

/-- Handles are given out once. -/
theorem fresh_serve (h : Fresh fs.files) (q : Request) :
    Fresh (fs.serve host q).2.files := by
  rcases serve_files host fs q with hsame | ⟨ino, file, -, hopen⟩ |
    ⟨fh, offset, size, r, hr, hread⟩ | ⟨fh, -, hrelease⟩
  · rw [hsame]
    exact h
  · rw [hopen]
    exact h.insert_advance rfl _
  · rw [hread]
    refine h.insert_known ?_ _
    show fs.openFiles fh ≠ none
    rw [hr]
    exact Option.some_ne_none r
  · rw [hrelease]
    exact h.drop fh

theorem openFile_eq_opened {ino : ℕ}
    (h : (fs.serve host (.openFile ino)).1 = .ok (.opened fh)) :
    fh = fs.fileNumber ∧ ∃ file, fs.inodes ino = some (.file file)
      ∧ (fs.serve host (.openFile ino)).2.files
        = (fs.files.insert fh (ISOFile.read file)).advance := by
  change (fs.openFile ino).1 = _ at h
  rcases fs.openFile_cases ino with ⟨_, hcall, -⟩ | ⟨file, hino, hcall⟩
  · rw [hcall] at h
    cases h
  · rw [hcall] at h
    injection h with h
    injection h with h
    subst h
    refine ⟨rfl, file, hino, ?_⟩
    show (fs.openFile ino).2.files = _
    rw [hcall]
    rfl

-- ========================================================== the handles

/-- A handle is in use, and its reader has a property. -/
structure Opened (P : ISOFileReader → Prop) (fh : ℕ) (fs : ISOFuse σ) :
    Prop where
  fresh : Fresh fs.files
  reader : ∃ r, fs.files.bound fh = some r ∧ P r

/-- What reads keep, every request keeps but the handle's `release`. -/
theorem Opened.serve {P : ISOFileReader → Prop}
    (hread : ∀ r offset size s, P r →
      P (readAt host r offset size s).reader)
    (h : Opened P fh fs) (q : Request) (hq : q ≠ .release fh) :
    Opened P fh (fs.serve host q).2 := by
  refine ⟨fresh_serve h.fresh q, ?_⟩
  obtain ⟨r, hbound, hr⟩ := h.reader
  rcases serve_files host fs q with hsame | ⟨ino, file, -, hopen⟩ |
    ⟨fh', offset, size, r', hr', hcall⟩ | ⟨fh', hrelease, hdrop⟩
  · rw [hsame]
    exact h.reader
  · have hlt : fh < fs.fileNumber := h.fresh fh (by
      rw [hbound]
      exact Option.some_ne_none r)
    rw [hopen, Table.bound_advance, Table.bound_insert_of_ne (by omega)]
    exact h.reader
  · rw [hcall]
    by_cases hfh : fh = fh'
    · subst hfh
      rw [Table.bound_insert]
      have heq : r' = r := by
        have := hr'.symm.trans hbound
        injection this
      exact ⟨_, rfl, hread _ _ _ _ (heq ▸ hr)⟩
    · rw [Table.bound_insert_of_ne hfh]
      exact h.reader
  · rw [hdrop, Table.bound_drop_of_ne]
    · exact h.reader
    · intro heq
      exact hq (heq ▸ hrelease)

/-- So it is kept through a run without it. -/
theorem Opened.run {P : ISOFileReader → Prop}
    (hread : ∀ r offset size s, P r →
      P (readAt host r offset size s).reader)
    (h : Opened P fh fs)
    (hrun : Run (ISOFuse.serve host) (fun _ q => q ≠ .release fh) fs log
      fs') : Opened P fh fs' :=
  hrun.inv h fun _ q h hq _ => h.serve hread q hq

/-- What a read comes to. -/
theorem readAt_image (hserve : host.reader.ServesImage image)
    (hinside : BLOCK_SIZE * file.header.extentLoc.toNat + file.size.toNat
      ≤ image.length) {r : ISOFileReader}
    (hr : ReaderOf (storedAt image) file r) (offset : Int64)
    (size : UInt32) (s : σ) :
    dataReply (readAt host r offset size s)
        = .ok (.data (((bytesOf image file).drop offset.toInt.toNat).take
          size.toNat))
      ∧ ReaderOf (storedAt image) file
        (readAt host r offset size s).reader := by
  have hr' : ReaderOf (storedAt image) file
      { r with seek := offset.toInt.toNat } := hr
  obtain ⟨hresult, hbuf, -, hreader⟩ := read_image hserve hinside hr'
    (List.replicate size.toNat 0) s
  refine ⟨?_, hreader⟩
  rw [List.length_replicate] at hresult hbuf
  have hsame : ((bytesOf image file).drop offset.toInt.toNat).take
      size.toNat
      = (image.drop (BLOCK_SIZE * file.header.extentLoc.toNat
          + offset.toInt.toNat)).take
        (min size.toNat (file.size.toNat - offset.toInt.toNat)) := by
    rw [bytesOf, List.drop_take, List.drop_drop, List.take_take]
  have hlen : ((image.drop (BLOCK_SIZE * file.header.extentLoc.toNat
        + offset.toInt.toNat)).take
          (min size.toNat (file.size.toNat - offset.toInt.toNat))).length
      = min size.toNat (file.size.toNat - offset.toInt.toNat) := by
    rw [List.length_take, List.length_drop]
    omega
  have hcount : min size.toNat (file.size.toNat - offset.toInt.toNat)
      ≤ (readAt host r offset size s).buf.length := by
    unfold readAt
    rw [hbuf, List.length_append, hlen]
    exact Nat.le_add_right _ _
  unfold dataReply
  rw [show (readAt host r offset size s).result = _ from hresult]
  dsimp only
  rw [if_pos hcount, hsame]
  unfold readAt
  rw [hbuf, List.take_left' hlen]

/-- Over an image: a handle is not given out while it is in use, and as
long as it is not released every read of it replies with the bytes of the
file that its number stood for when it was opened, whatever else is asked
in between. -/
theorem handle_reads_file (hserve : host.reader.ServesImage image) {s : σ}
    (hnew : ISOFuse.new host s = .ok fs₀) (hrun : AnyRun host fs₀ log fs)
    {ino : ℕ} (hfile : fs.inodes ino = some (.file file))
    (hopen : (fs.serve host (.openFile ino)).1 = .ok (.opened fh))
    (hrun' : Run (serve host) (fun _ q => q ≠ .release fh)
      (fs.serve host (.openFile ino)).2 log' fs') :
    fs.openFiles fh = none
      ∧ (∀ ino', (fs'.serve host (.openFile ino')).1 ≠ .ok (.opened fh))
      ∧ (BLOCK_SIZE * file.header.extentLoc.toNat + file.size.toNat
          ≤ image.length →
        ∀ offset size, 0 ≤ offset.toInt →
          (fs'.serve host (.read fh offset size)).1
            = .ok (.data (((bytesOf image file).drop
              offset.toInt.toNat).take size.toNat))) := by
  have hfresh₀ : Fresh fs₀.files := by
    obtain ⟨_, _, _, _, _, _, -, -, rfl⟩ := new_eq_ok hnew
    exact fun n hn => absurd rfl hn
  have hfresh : Fresh fs.files := hrun.inv (I := fun fs => Fresh fs.files)
    hfresh₀ fun _ q h _ _ => fresh_serve h q
  obtain ⟨rfl, file', hino, hfiles⟩ := openFile_eq_opened hopen
  have heq : file' = file := by
    rw [hfile] at hino
    injection hino with hino
    injection hino with hino
    exact hino.symm
  subst heq
  have hopened : ∀ {P : ISOFileReader → Prop}, P file'.read →
      Opened P fs.fileNumber (fs.serve host (.openFile ino)).2 := by
    refine fun hP => ⟨fresh_serve hfresh _, file'.read, ?_, hP⟩
    rw [hfiles, Table.bound_advance, Table.bound_insert]
  refine ⟨?_, ?_, ?_⟩
  · by_contra hne
    exact Nat.lt_irrefl _ (hfresh _ hne)
  · intro ino' hopen'
    obtain ⟨hsame, -⟩ := openFile_eq_opened hopen'
    have hlive := (hopened (P := fun _ => True) trivial).run
      (fun _ _ _ _ _ => trivial) hrun'
    obtain ⟨r, hr, -⟩ := hlive.reader
    have hlt := hlive.fresh fs.fileNumber (by
      rw [hr]
      exact Option.some_ne_none r)
    exact Nat.ne_of_lt hlt hsame
  · intro hinside offset size hpos
    have hreading := (hopened (readerOf_read (storedAt image) file')).run
      (fun r offset size s hr =>
        (readAt_image hserve hinside hr offset size s).2) hrun'
    obtain ⟨r, hr, hreader⟩ := hreading.reader
    rcases read_cases host fs' fs.fileNumber offset size with
      ⟨-, hneg | hnone⟩ | ⟨r', -, hr', hcall⟩
    · omega
    · rw [show fs'.openFiles fs.fileNumber = some r from hr] at hnone
      cases hnone
    · show (ISOFuse.read host fs' fs.fileNumber offset size).1 = _
      rw [hcall]
      have heq : r' = r := by
        have := hr'.symm.trans hr
        injection this
      rw [heq]
      exact (readAt_image hserve hinside hreader offset size _).1

-- ============================================================== an image

/-- The directory itself, and a file `A` of six bytes: those at the start
of the primary descriptor. -/
def labelBlock : BlockBuffer :=
  BlockBuffer.new.overwrite
    ([34, 0, 18, 0, 0, 0, 0, 0, 0, 18, 0, 8, 0, 0, 0, 0, 8, 0,
      100, 1, 1, 0, 0, 0, 0, 2, 0, 0, 1, 0, 0, 1, 1, 0]
      ++ [34, 0, 16, 0, 0, 0, 0, 0, 0, 16, 6, 0, 0, 0, 0, 0, 0, 6,
        100, 1, 1, 0, 0, 0, 0, 0, 0, 0, 1, 0, 0, 1, 1, 0x41])

def labelSectors : List BlockBuffer :=
  List.replicate 16 BlockBuffer.new
    ++ [discBlock, terminatorBlock, labelBlock]

def labelImage : List UInt8 := labelSectors.flatMap (·.bytes)

def labelHost : Host Unit :=
  { hostOf labelBlock with reader := (sectorSource labelSectors).reader }

/-- The state that it is mounted in. -/
def labelMount : Outcome ISOError (ISOFuse Unit) :=
  mount labelHost ⟨discRoot, none, .volumeDescriptorSetTerminator⟩ ()

theorem new_labelHost : ISOFuse.new labelHost () = labelMount := by
  have hfirst : (sectorSource labelSectors).deliver 16
      = .ok discBlock.bytes := rfl
  have hsecond : (sectorSource labelSectors).deliver 17
      = .ok terminatorBlock.bytes := rfl
  obtain ⟨primary, hnew⟩ := new_of_deliver hfirst hsecond
  have hmount : ISOFuse.new labelHost () = mount labelHost
      ⟨discRoot, none, primary⟩ () := new_of_parsed hnew
  exact hmount.trans (mount_primary _ _ _ _ _ _)

/-- What is asked while a handle of `A` is open: another is opened, both
are read, the other is released and the number of `A` forgotten. -/
def labelRequests : List Request :=
  [.openFile 2, .read 1 0 3, .read 0 3 3, .release 1, .forget 2 1]

/-- What the record of `A` is read as. -/
def labelFile : ISOFile where
  header :=
    { discHeader with extentLoc := 16, extentLength := 6, fileFlags := 0 }
  identifier := "A"
  version := 1
  ext := ExtraMeta.default

/-- Its bytes from the second on. -/
theorem labelFile_bytes :
    ((bytesOf labelImage labelFile).drop 1).take 100 = asBytes "CD001" := by
  have hfirst : (imageBlock labelImage 16).take 6
      = bytesOf labelImage labelFile := by
    rw [imageBlock, List.take_take]
    rfl
  rw [← hfirst, labelImage, imageBlock_flatMap]
  decide +kernel

/-- After that the handle is read from its second byte on. -/
theorem handle_reads_label : ∃ fs₀ log fs log' fs',
    ISOFuse.new labelHost () = .ok fs₀
      ∧ AnyRun labelHost fs₀ log fs
      ∧ (fs.serve labelHost (.openFile 2)).1 = .ok (.opened 0)
      ∧ Run (serve labelHost) (fun _ q => q ≠ .release 0)
        (fs.serve labelHost (.openFile 2)).2 log' fs'
      ∧ (fs'.serve labelHost (.read 0 1 100)).1
        = .ok (.data (asBytes "CD001")) := by
  have hcheck : labelMount.isOkAnd (fun fs =>
      let run := serveAll (serve labelHost) fs [.lookup 1 [0x41]] []
      let opened := run.2.serve labelHost (.openFile 2)
      run.1.all (fun e => decide e.2.Returned)
        && (decide (run.2.inodes 2 = some (.file labelFile)
          ∧ opened.1 = .ok (.opened 0))
        && (serveAll (serve labelHost) opened.2 labelRequests []).1.all
          fun e => decide e.2.Returned)) = true := by
    decide +kernel
  obtain ⟨fs₀, hmount, htests⟩ := Outcome.exists_of_isOkAnd hcheck
  simp only [Bool.and_eq_true, decide_eq_true_eq, List.all_eq_true]
    at htests
  obtain ⟨hbefore, ⟨hfile, hopen⟩, hafter⟩ := htests
  have hrun : AnyRun labelHost fs₀ _ _ := run_serveAll
    [.lookup 1 [0x41]] .start (fun _ _ _ => trivial) hbefore
  have hrun' : Run (serve labelHost) (fun _ q => q ≠ .release 0) _ _ _ :=
    run_serveAll labelRequests .start (by
      intro s q hq heq
      subst heq
      simp [labelRequests] at hq) hafter
  have hserve : labelHost.reader.ServesImage labelImage :=
    sectorSource_servesImage labelSectors
  have hinside : BLOCK_SIZE * labelFile.header.extentLoc.toNat
      + labelFile.size.toNat ≤ labelImage.length := by
    rw [labelImage, length_flatMap_bytes]
    decide
  have hnew := new_labelHost.trans hmount
  refine ⟨fs₀, _, _, _, _, hnew, hrun, hopen, hrun', ?_⟩
  have hread := (handle_reads_file hserve hnew hrun hfile hopen
    hrun').2.2 hinside 1 100 (by decide)
  exact hread.trans
    (congrArg (fun bytes => Outcome.ok (Reply.data bytes)) labelFile_bytes)

end Cdfs
