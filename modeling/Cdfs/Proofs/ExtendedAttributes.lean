/-
Where the data of an extent starts.

An extent may begin with an extended attribute record. A directory record
says how many blocks that is, and the data of the file or directory is
behind them (`dataStart`). The number is parsed into the header and then
not looked at: both the reader of files and the reader of directories
take the first block of the extent for the first block of data
(`readFrom_extent`, `decodedFrom_extent`). Where the number is not zero
there is an image that shows the difference, of zeros and ones for a file
and of records for a directory.
-/
import Cdfs.Proofs.BlockCounts
import Cdfs.Proofs.FileContents
import Cdfs.Proofs.Iteration

namespace Cdfs

open Rust Parse ISOFileReader

variable {σ : Type} {b : Build} {rd : ISO9660Reader σ} {src : Source}
  {file : ISOFile} {dir : ISODirectory} {image : List UInt8}

-- ================================================ statement vocabulary

/-- The address of the first byte of data, behind the extended attribute
record. -/
def dataStart (header : DirectoryEntryHeader) : ℕ :=
  BLOCK_SIZE * (header.extentLoc.toNat
    + header.extendedAttributeRecordLength.toNat)

/-- Position `p` of the file is the image's byte at `start + p`: after any
reads and seeks a read returns the bytes from the reader's position on, as
many as its buffer takes and the file has. -/
def ReadFrom (b : Build) (rd : ISO9660Reader σ) (image : List UInt8)
    (start : ℕ) (file : ISOFile) : Prop :=
  ∀ w : Readers Unit σ, w.Run b rd (fun _ _ _ => True) (fun _ => file) →
    ∀ buf : List UInt8,
      let pos := (w.reader ()).seek
      let count := min buf.length (file.size.toNat - pos)
      (w.step b rd () (.read buf)).1
        = ⟨.ok count, (image.drop (start + pos)).take count
          ++ buf.drop count⟩

/-- A file is read from where its data starts, over every image that it is
on. -/
def FileBehind (b : Build) (file : ISOFile) : Prop :=
  ∀ (σ : Type) (rd : ISO9660Reader σ) (image : List UInt8),
    rd.ServesImage image →
    dataStart file.header + file.size.toNat ≤ image.length →
    ReadFrom b rd image (dataStart file.header) file

/-- The source delivers the blocks of the image, as far as they have a
byte offset of 64 bits. -/
def Source.Of (src : Source) (image : List UInt8) : Prop :=
  ∀ lba < 2 ^ 53, src.deliver lba = .ok (imageBlock image lba)

/-- Offset `o` of the directory is the image's byte at `start + o`: every
entry that `contents()` yields is the entry of the record that is there,
up to the end of the block, and of the record's continuation areas. -/
def DecodedFrom (b : Build) (rd : ISO9660Reader σ) (src : Source)
    (image : List UInt8) (start : ℕ) (dir : ISODirectory) : Prop :=
  ∀ (fuel : ℕ) (s : σ) (n : ℕ) (entry : DirectoryEntry),
    item b rd fuel dir s n = some (.ok entry) →
    ∃ offset header identifier area susp,
      (iterate b rd fuel dir n contents s).1.nextOffset = some offset
        ∧ DirectoryEntryHeader.parse b ((image.drop (start + offset)).take
            (BLOCK_SIZE - offset % BLOCK_SIZE))
          dir.header.characterEncoding = .ok (header, identifier, area)
        ∧ completeSusp b src fuel area = .ok susp
        ∧ buildEntry b header identifier susp = .ok entry

/-- A directory is read from where its data starts, over every image. -/
def DirectoryBehind (b : Build) (dir : ISODirectory) : Prop :=
  ∀ (σ : Type) (rd : ISO9660Reader σ) (src : Source) (image : List UInt8),
    rd.Serves src → src.Of image →
    DecodedFrom b rd src image (dataStart dir.header) dir

-- =============================================================== files

/-- Files are read from the start of the extent. -/
theorem readFrom_extent (hserve : rd.ServesImage image)
    (hinside : BLOCK_SIZE * file.header.extentLoc.toNat + file.size.toNat
      ≤ image.length) :
    ReadFrom b rd image (BLOCK_SIZE * file.header.extentLoc.toNat) file := by
  intro w hw buf
  obtain ⟨hresult, hbuf, -⟩ := read_image hserve hinside
    (hw.sound_image hserve (fun _ => hinside) ()) buf w.state
  show (⟨_, _⟩ : Answer) = _
  rw [hbuf]
  exact congrArg (Answer.mk · _) hresult

/-- That is where the data starts if there is no extended attribute
record. -/
theorem dataStart_zero {header : DirectoryEntryHeader}
    (h : header.extendedAttributeRecordLength = 0) :
    dataStart header = BLOCK_SIZE * header.extentLoc.toNat := by
  unfold dataStart
  rw [h]
  rfl

theorem dataStart_next {header : DirectoryEntryHeader}
    (h : header.extendedAttributeRecordLength ≠ 0) :
    BLOCK_SIZE * (header.extentLoc.toNat + 1) ≤ dataStart header := by
  refine Nat.mul_le_mul_left _ (Nat.add_le_add_left ?_ _)
  refine Nat.one_le_iff_ne_zero.mpr fun hzero => h ?_
  exact UInt8.toNat_inj.mp hzero

/-- Zeros up to where the data starts, and ones from there on. -/
def onesImage (file : ISOFile) : List UInt8 :=
  List.replicate (dataStart file.header) 0
    ++ List.replicate file.size.toNat 1

/-- The first byte that is read is the one at the start. -/
theorem ReadFrom.first {start : ℕ} (h : ReadFrom b rd image start file)
    (hsize : 0 < file.size.toNat) (hstart : start < image.length) (s : σ) :
    ((Readers.opened (fun _ : Unit => file) s).step b rd ()
      (.read [0])).1.buf[0]? = image[start]? := by
  have hcount : 0 < min [(0 : UInt8)].length (file.size.toNat - 0) := by
    rw [List.length_singleton]
    omega
  have hlen : 0 < ((image.drop start).take
      (min [(0 : UInt8)].length (file.size.toNat - 0))).length := by
    rw [List.length_take, List.length_drop]
    omega
  rw [h _ (.start s) [0]]
  show ((image.drop (start + 0)).take
    (min [(0 : UInt8)].length (file.size.toNat - 0)) ++ _)[0]? = _
  rw [Nat.add_zero, List.getElem?_append_left hlen,
    List.getElem?_take_of_lt hcount, List.getElem?_drop, Nat.add_zero]

/-- The first byte that is read of a file on that image is one of the
zeros. -/
theorem not_fileBehind
    (hattr : file.header.extendedAttributeRecordLength ≠ 0)
    (hsize : file.size ≠ 0) : ¬ FileBehind b file := by
  intro h
  have hpos : 0 < file.size.toNat :=
    Nat.pos_of_ne_zero fun hzero => hsize (UInt32.toNat_inj.mp hzero)
  have hlen : (onesImage file).length
      = dataStart file.header + file.size.toNat := by
    simp [onesImage]
  have hbefore : BLOCK_SIZE * file.header.extentLoc.toNat
      < dataStart file.header := by
    have hnext := dataStart_next hattr
    unfold BLOCK_SIZE at hnext ⊢
    omega
  have hserve := cursor_servesImage b (onesImage file)
  have hread := (readFrom_extent (b := b) hserve (by omega)).first hpos
    (by omega) 0
  rw [(h _ _ _ hserve hlen.ge).first hpos (by omega) 0] at hread
  unfold onesImage at hread
  rw [List.getElem?_append_right (by rw [List.length_replicate]),
    List.getElem?_append_left (by rw [List.length_replicate]; omega),
    List.length_replicate, Nat.sub_self, List.getElem?_replicate,
    if_pos hpos, List.getElem?_replicate, if_pos hbefore] at hread
  cases hread

/-- Files are read from where their data starts if there is no extended
attribute record, or nothing to read. -/
theorem fileBehind_iff (b : Build) (file : ISOFile) :
    FileBehind b file
      ↔ file.header.extendedAttributeRecordLength = 0
        ∨ file.size = 0 := by
  constructor
  · intro h
    by_contra hcond
    rw [not_or] at hcond
    exact not_fileBehind hcond.1 hcond.2 h
  · intro h σ rd image hserve hinside
    rcases h with hattr | hsize
    · rw [dataStart_zero hattr] at hinside ⊢
      exact readFrom_extent hserve hinside
    · intro w hw buf
      have hstart : BLOCK_SIZE * file.header.extentLoc.toNat
          ≤ dataStart file.header :=
        Nat.mul_le_mul_left _ (Nat.le_add_right _ _)
      have hread := readFrom_extent hserve (by omega) w hw buf
      rw [hread, hsize]
      -- either way no byte is taken
      show (⟨.ok (min _ (0 - _)), _⟩ : Answer) = _
      simp

-- ========================================================= directories

/-- What is behind a position of an image's block. -/
theorem drop_imageBlock (image : List UInt8) (lba k : ℕ) :
    (imageBlock image lba).drop k
      = (image.drop (BLOCK_SIZE * lba + k)).take (BLOCK_SIZE - k) := by
  unfold imageBlock
  rw [List.drop_take, List.drop_drop]

theorem blockAt_bytes (hof : src.Of image) {n : ℕ} {block : BlockBuffer}
    (hlba : dir.header.extentLoc.toNat + n < 2 ^ 53)
    (h : blockAt src dir n = .ok block) :
    block.bytes = imageBlock image (dir.header.extentLoc.toNat + n) := by
  unfold blockAt at h
  rw [hof _ hlba] at h
  dsimp only at h
  by_cases hfull : (imageBlock image
      (dir.header.extentLoc.toNat + n)).length = BLOCK_SIZE
  · rw [dif_pos hfull] at h
    injection h with h
    rw [← h]
  · rw [dif_neg hfull] at h
    cases h

/-- The iterator's offset has 32 bits. -/
theorem iterate_offset_lt {fuel n offset : ℕ} {s : σ}
    (h : (iterate b rd fuel dir n contents s).1.nextOffset = some offset) :
    offset < 2 ^ 32 := by
  have hcount : ∀ count, dir.blockCount b = .ok count →
      BLOCK_SIZE * count ≤ 2 ^ 32 := by
    intro count hcount
    have hlt := blockCount_lt hcount
    unfold BLOCK_SIZE
    omega
  have hstart : BlockBelow (2 ^ 32) contents := by
    intro offset hoff
    injection hoff with hoff
    rw [← hoff]
    decide
  have hblock := iterate_blockBelow hcount fuel n s hstart offset h
  unfold BLOCK_SIZE at hblock
  omega

/-- Directories are read from the start of the extent. -/
theorem decodedFrom_extent (hserve : rd.Serves src) (hof : src.Of image) :
    DecodedFrom b rd src image
      (BLOCK_SIZE * dir.header.extentLoc.toNat) dir := by
  intro fuel s n entry h
  obtain ⟨offset, next, cache, s', hoff, hcall⟩ := next_eq_ok h
  have hco := (next_iterate (b := b) hserve fuel dir n contents s
    (coherent_new src dir)).2
  have hentry := (readEntryAt_serves (b := b) hserve fuel hco offset
    (iterate b rd fuel dir n contents s).2).1
  rw [hcall] at hentry
  obtain ⟨block, header, identifier, area, susp, hparse, hsusp, hbuild, -⟩ :=
    entryAt_eq_ok.mp hentry.symm
  obtain ⟨hblock, hparse⟩ := parseAt_eq_ok.mp hparse
  have hlt := iterate_offset_lt hoff
  have hloc := dir.header.extentLoc.toNat_lt
  have haddress : BLOCK_SIZE
      * (dir.header.extentLoc.toNat + offset / BLOCK_SIZE)
      + offset % BLOCK_SIZE
      = BLOCK_SIZE * dir.header.extentLoc.toNat + offset := by
    rw [Nat.mul_add, Nat.add_assoc, Nat.div_add_mod]
  rw [blockAt_bytes hof (by unfold BLOCK_SIZE; omega) hblock,
    drop_imageBlock, haddress] at hparse
  exact ⟨offset, header, identifier, area, susp, hoff, hparse, hsusp,
    hbuild⟩

theorem cursorSource_of (b : Build) (image : List UInt8) :
    (cursorSource b image).Of image :=
  fun _ hlba => cursorSource_deliver b image hlba

/-- Over an image that ends behind the first block of the extent, which is
full of records, the first of them is read. -/
theorem not_directoryBehind
    (hattr : dir.header.extendedAttributeRecordLength ≠ 0) {count : ℕ}
    (hcount : dir.blockCount b = .ok count) : ¬ DirectoryBehind b dir := by
  intro h
  have hserve := cursor_serves b (tiledExtent b dir 1)
  have hrecords : (tileBlock b dir.header.characterEncoding).records
      = [] ++ tile b _ :: List.replicate 15 (tile b _) := rfl
  have hentry := entryAt_held (tiledExtent_held b dir (n := 1) (by omega))
    hcount 0 (i := 0) rfl hrecords
  have hitem : item b ((cursor (tiledExtent b dir 1)).reader b) 0 dir 0 0
      = some (.ok (tile b dir.header.characterEncoding).entry) := by
    have hzero : BLOCK_SIZE * 0 + (packed ([] : List
        (EncodedRecord b dir.header.characterEncoding))).length = 0 := rfl
    rw [hzero] at hentry
    rw [item_eq hserve]
    show some ((entryAt b _ 0 dir 0).map Prod.fst) = _
    rw [hentry]
    rfl
  obtain ⟨offset, header, identifier, area, susp, hoff, hparse, -⟩ :=
    h _ _ _ _ hserve (cursorSource_of b _) 0 0 0 _ hitem
  injection hoff with hoff
  -- nothing of the image is where the data starts
  have hlen : (tiledExtent b dir 1).length ≤ dataStart dir.header := by
    unfold tiledExtent
    rw [length_tiledImage]
    exact dataStart_next hattr
  rw [← hoff, Nat.add_zero, List.drop_eq_nil_of_le hlen] at hparse
  cases hparse

/-- Directories are read from where their data starts if there is no
extended attribute record, or if nothing is yielded, because the number of
their blocks overflows. -/
theorem directoryBehind_iff (b : Build) (dir : ISODirectory) :
    DirectoryBehind b dir
      ↔ dir.header.extendedAttributeRecordLength = 0
        ∨ b.overflowChecks = true
          ∧ 2 ^ 32 - BLOCK_SIZE ≤ dir.header.extentLength.toNat := by
  have hcounted := exists_ceilBlocks_iff (ε := ISOError) b.overflowChecks
    dir.header.extentLength
  rw [← blockCount_eq] at hcounted
  constructor
  · intro h
    by_contra hcond
    rw [not_or, not_and, Nat.not_le, ← hcounted] at hcond
    obtain ⟨hattr, count, hcount⟩ := hcond
    exact not_directoryBehind hattr hcount h
  · intro h σ rd src image hserve hof
    rcases h with hattr | ⟨hchecks, hlarge⟩
    · rw [dataStart_zero hattr]
      exact decodedFrom_extent hserve hof
    · intro fuel s n entry hitem
      refine absurd hitem (item_ne_ok hserve fuel (fun count hcount => ?_) s
        n entry)
      exact Nat.not_le.mpr (hcounted.mp ⟨count, hcount⟩ hchecks) hlarge

/-- Both readers find the data if there is no extended attribute record;
otherwise only where they read nothing. -/
theorem dataBehind_iff (b : Build) (file : ISOFile) (dir : ISODirectory) :
    (FileBehind b file
      ↔ file.header.extendedAttributeRecordLength = 0 ∨ file.size = 0)
    ∧ (DirectoryBehind b dir
      ↔ dir.header.extendedAttributeRecordLength = 0
        ∨ b.overflowChecks = true
          ∧ 2 ^ 32 - BLOCK_SIZE ≤ dir.header.extentLength.toNat) :=
  ⟨fileBehind_iff b file, directoryBehind_iff b dir⟩

/-- A file of one byte, and a directory of one block, behind a block of
attributes. -/
def attributedFile : ISOFile where
  header := { letterHeader 0 with
    extendedAttributeRecordLength := 1
    extentLength := 1 }
  identifier := "A"
  version := 1
  ext := plainExt

def attributedDirectory : ISODirectory :=
  { dotDirectory with
    header := { dotHeader with extendedAttributeRecordLength := 1 } }

/-- The file's byte is a one, and a zero is read. -/
theorem dataBehind_fails :
    ((Readers.opened (fun _ : Unit => attributedFile) 0).step debugBuild
        ((cursor (onesImage attributedFile)).reader debugBuild) ()
        (.read [9])).1 = ⟨.ok 1, [0]⟩
      ∧ (onesImage attributedFile)[dataStart attributedFile.header]? = some 1
      ∧ ¬ FileBehind debugBuild attributedFile
      ∧ ¬ DirectoryBehind debugBuild attributedDirectory := by
  have hcount : attributedDirectory.blockCount debugBuild = .ok 1 := by
    decide
  exact ⟨by decide +kernel, by decide +kernel,
    not_fileBehind (by decide) (by decide),
    not_directoryBehind (by decide) hcount⟩

end Cdfs
