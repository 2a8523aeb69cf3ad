/-
A disc, written from a hierarchy of files. The blocks of a directory are
its records, as many in a block as there is room for; behind them is
what is below it, name by name, a file as the blocks of its bytes and a
folder as the blocks of its directory and what is below that. So where
something goes depends on the number of blocks in front of it only, and
the number of blocks of a directory on its names only.

How a name is recorded is a parameter (`Recording`). The library has no
writer; this one is the statement of what its reader is for
(`Cdfs.Proofs.ReadBack`).
-/
import Cdfs.Proofs.DescriptorLayout
import Cdfs.Proofs.Recording
import Cdfs.Proofs.VolumeScan
import Cdfs.Proofs.VolumeTree
import Cdfs.Rust.Packing

namespace Cdfs

open Rust Parse Nom

variable {R : Recording}

-- ====================================================== what is written

/-- Where something is, from a block on, and how long it is. -/
structure Extent where
  start : ℕ
  length : ℕ

/-- A leaf that is a link has no extent, whatever its content. -/
abbrev Files (R : Recording) : Type := Hierarchy R.Name (List UInt8)

namespace Recording

variable (R) (n : R.Name) (data : List UInt8)

/-- What is stored of a leaf. -/
def bytes : List UInt8 := if (R.target n).isSome then [] else data

/-- What should be read. -/
def content : Content :=
  match R.target n with
  | some target => .link (some target)
  | none => .file data

end Recording

/-- The hierarchy that should be read. -/
def Files.tree : Files R → Tree
  | .empty => .empty
  | .leaf n bytes beside =>
      .leaf (R.text n) (R.content n bytes) (tree beside)
  | .folder n below beside => .folder (R.text n) (tree below) (tree beside)

/-- A record of a directory: for what, and where that is. -/
structure Item (R : Recording) where
  label : Label R.Name
  extent : Extent

-- ============================================================ the records

def Label.flags {ν : Type} : Label ν → UInt8
  | leaf _ => 0
  | _ => FileFlags.DIRECTORY

theorem Label.flags_defined {ν : Type} (l : Label ν) :
    Defined FileFlags.all l.flags := by
  cases l with
  | leaf => exact (rfl : Defined FileFlags.all 0)
  | own | parent | folder => exact directory_defined

namespace DirectoryRecord

variable (r : DirectoryRecord)

theorem length_encode : r.encode.length = r.length := by
  simp only [encode, fixed, named, length, both32, both16, digits32,
    digits16, List.length_append, List.length_cons, List.length_reverse,
    List.length_nil, List.length_replicate, length_bytes]
  omega

/-- A file that is not interleaved gets past the assertions. -/
theorem asserted_whole {r : DirectoryRecord} (b : Build)
    (hgap : r.interleaveGapSize = 0) (hunit : r.fileUnitSize = 0) :
    r.asserted b = .ok () := by
  rcases r.asserted_cases b with ⟨hok, -⟩ | ⟨-, hnot⟩
  · exact hok
  · exact absurd (fun _ => ⟨hgap, hunit⟩) hnot

theorem susp_getD : r.susp.getD [] = r.entries.map (·.decoded) := by
  unfold susp
  by_cases hnil : r.entries = []
  · rw [if_pos hnil, hnil]
    rfl
  · rw [if_neg hnil]
    rfl

end DirectoryRecord

namespace Item

variable (time : Stamp) (i : Item R)

theorem record_fits : 33 + (R.identifier i.label).bytes.length
    + pad (R.identifier i.label).bytes.length
    + (((R.entries i.label).flatMap (·.frame.encode)).length + 0) ≤ 255 :=
  R.size_le i.label

/-- The record, with the time that all records of a disc have. -/
def record : DirectoryRecord where
  extendedAttributeRecordLength := 0
  extentLoc := .ofNat i.extent.start
  extentLength := .ofNat i.extent.length
  time := time
  fileFlags := i.label.flags
  defined := i.label.flags_defined
  fileUnitSize := 0
  interleaveGapSize := 0
  volumeSequenceNumber := 1
  name := R.identifier i.label
  entries := R.entries i.label
  unused := 0
  fits := i.record_fits

theorem length_record : (i.record time).encode.length = R.size i.label := by
  rw [DirectoryRecord.length_encode]
  unfold DirectoryRecord.length DirectoryRecord.area Scheme.size
  rw [List.length_append, List.length_replicate]
  rfl

/-- The directory that the record stands for, -/
def directory : ISODirectory :=
  ISODirectory.new (i.record time).header (R.ext i.label)
    (R.identifier i.label).identifier

/-- the file, -/
def file (n : R.Name) (x : Extent) : ISOFile :=
  ⟨((⟨.leaf n, x⟩ : Item R).record time).header, R.text n, 1, R.ext (.leaf n)⟩

/-- or the link. -/
def link (n : R.Name) (x : Extent) : Symlink :=
  ⟨((⟨.leaf n, x⟩ : Item R).record time).header, R.text n, 1, R.ext (.leaf n)⟩

/-- The entry that a reader should make of it. -/
def entry : DirectoryEntry :=
  match i.label with
  | .leaf n =>
      if (R.target n).isSome then .symlink (link time n i.extent)
      else .file (file time n i.extent)
  | _ => .directory (i.directory time)

theorem entry_new :
    DirectoryEntry.new (i.record time).header (R.ext i.label)
      (R.identifier i.label).identifier = .ok (i.entry time) := by
  obtain ⟨l, x⟩ := i
  unfold DirectoryEntry.new
  dsimp only
  cases l with
  | own | parent | folder =>
      exact if_pos (show contains FileFlags.DIRECTORY FileFlags.DIRECTORY
        = true by decide)
  | leaf n =>
      have hname : splitVersion ((R.ext (.leaf n)).name
          (R.identifier (.leaf n)).identifier) = .ok (R.text n, 1) :=
        R.leaf_name n
      refine (if_neg (show ¬ contains 0 FileFlags.DIRECTORY = true
        by decide)).trans ?_
      rw [R.leaf_link n]
      unfold entry
      dsimp only
      by_cases hlink : (R.target n).isSome = true
      · rw [if_pos hlink, if_pos hlink]
        unfold Symlink.new
        rw [hname]
        rfl
      · rw [if_neg hlink, if_neg hlink]
        unfold ISOFile.new
        rw [hname]
        rfl

theorem entry_built (b : Build) :
    buildEntry b (i.record time).header (R.identifier i.label).identifier
      (R.susp i.label) = .ok (i.entry time) := by
  unfold buildEntry
  rw [R.extraMeta_eq, Outcome.ok_bind, i.entry_new, Outcome.ok_bind,
    R.noChildLink]

/-- The record is read as it was written. -/
def encoded (b : Build) : EncodedRecord b .iso9660 where
  bytes := (i.record time).encode
  header := (i.record time).header
  identifier := (R.identifier i.label).identifier
  area := (i.record time).susp
  entry := i.entry time
  parsed := by
    have h := directoryEntry_record b (i.record time) []
    rw [List.append_nil, DirectoryRecord.asserted_whole b rfl rfl, Outcome.ok_bind]
      at h
    exact h
  noContinuation := by
    rw [DirectoryRecord.susp_getD]
    exact R.noContinuation i.label
  noChildLink := by
    rw [DirectoryRecord.susp_getD]
    exact R.noChildLink i.label
  built := by
    rw [DirectoryRecord.susp_getD]
    exact i.entry_built time b
  bounded := by
    rw [length_record]
    exact (R.size_le i.label).trans (by decide)

end Item

-- ============================================================= the layout

/-- How many blocks so many bytes take. -/
def blocksFor (length : ℕ) : ℕ := (length + (BLOCK_SIZE - 1)) / BLOCK_SIZE

theorem le_blocksFor (length : ℕ) :
    length ≤ BLOCK_SIZE * blocksFor length := by
  unfold blocksFor BLOCK_SIZE
  omega

/-- The blocks of a file. -/
def fileBlocks (bytes : List UInt8) : List BlockBuffer :=
  (List.range (blocksFor bytes.length)).map fun i =>
    BlockBuffer.new.overwrite (imageBlock bytes i)

/-- What a directory has records for: itself, its parent and its names. -/
def directoryLabels (top : Bool) (labels : List (Label R.Name)) :
    List (Label R.Name) :=
  .own top :: .parent :: labels

/-- The records. -/
def directoryItems (top : Bool) (own parent : Extent)
    (items : List (Item R)) : List (Item R) :=
  ⟨.own top, own⟩ :: ⟨.parent, parent⟩ :: items

/-- The blocks of a directory. -/
def directoryBlocks (time : Stamp) (items : List (Item R)) :
    List BlockBuffer :=
  (pack (R.size ∘ Item.label) BLOCK_SIZE items).map fun group =>
    BlockBuffer.new.overwrite (group.flatMap fun i => (i.record time).encode)

namespace Files

def labels : Files R → List (Label R.Name)
  | .empty => []
  | .leaf n _ beside => .leaf n :: labels beside
  | .folder n _ beside => .folder n :: labels beside

/-- How many blocks the directory of the folder has. -/
def directorySize (top : Bool) (h : Files R) : ℕ :=
  (pack R.size BLOCK_SIZE (directoryLabels top h.labels)).length

/-- How many blocks there are below the directory. -/
def dataSize : Files R → ℕ
  | .empty => 0
  | .leaf n bytes beside =>
      blocksFor (R.bytes n bytes).length + dataSize beside
  | .folder _ below beside =>
      directorySize false below + dataSize below + dataSize beside

/-- The directory of the folder, from a block on. -/
def extent (top : Bool) (h : Files R) (start : ℕ) : Extent :=
  ⟨start, BLOCK_SIZE * h.directorySize top⟩

/-- The names of the folder, with what is below it from a block on. -/
def items : Files R → ℕ → List (Item R)
  | .empty, _ => []
  | .leaf n bytes beside, start =>
      ⟨.leaf n, ⟨start, (R.bytes n bytes).length⟩⟩
        :: items beside (start + blocksFor (R.bytes n bytes).length)
  | .folder n below beside, start =>
      ⟨.folder n, extent false below start⟩
        :: items beside (start + (directorySize false below + dataSize below))

/-- The blocks below the directory `own`, from a block on. -/
def data (time : Stamp) (own : Extent) : Files R → ℕ → List BlockBuffer
  | .empty, _ => []
  | .leaf n bytes beside, start =>
      fileBlocks (R.bytes n bytes)
        ++ data time own beside
          (start + blocksFor (R.bytes n bytes).length)
  | .folder _ below beside, start =>
      let x := extent false below start
      let inside := start + directorySize false below
      directoryBlocks time (directoryItems false x own (items below inside))
        ++ (data time x below inside
        ++ data time own beside
          (start + (directorySize false below + dataSize below)))

end Files

-- ===================================================== sizes and places

namespace Files

theorem map_label (h : Files R) : ∀ start,
    (h.items start).map Item.label = h.labels := by
  induction h with
  | empty => exact fun _ => rfl
  | leaf n bytes beside ih =>
      intro start
      show _ :: (items beside _).map Item.label = _
      rw [ih]
      rfl
  | folder n below beside _ ih =>
      intro start
      show _ :: (items beside _).map Item.label = _
      rw [ih]
      rfl

/-- The number of blocks does not depend on what is recorded where. -/
theorem length_directoryBlocks (h : Files R) (time : Stamp) (top : Bool)
    (own parent : Extent) (start : ℕ) :
    (directoryBlocks time
      (directoryItems top own parent (h.items start))).length
      = h.directorySize top := by
  have hlabels : (directoryItems top own parent (h.items start)).map
      Item.label = directoryLabels top h.labels := by
    unfold directoryItems
    rw [List.map_cons, List.map_cons, map_label]
    rfl
  unfold directoryBlocks directorySize
  rw [← hlabels, pack_map, List.length_map, List.length_map]

theorem length_fileBlocks (bytes : List UInt8) :
    (fileBlocks bytes).length = blocksFor bytes.length := by
  unfold fileBlocks
  rw [List.length_map, List.length_range]

theorem length_data (h : Files R) (time : Stamp) : ∀ own start,
    (h.data time own start).length = h.dataSize := by
  induction h with
  | empty => exact fun _ _ => rfl
  | leaf n bytes beside ih =>
      intro own start
      rw [data, List.length_append, length_fileBlocks, ih, dataSize]
  | folder n below beside ihbelow ih =>
      intro own start
      rw [data, List.length_append, List.length_append,
        length_directoryBlocks, ihbelow, ih, dataSize, Nat.add_assoc]

end Files

-- =============================================================== the disc

/-- The lengths of files have 32 bits, and the blocks of directories are
few enough to be counted in 32 bits. -/
def Files.Small : Files R → Prop
  | .empty => True
  | .leaf n bytes beside =>
      (R.bytes n bytes).length < 2 ^ 32 ∧ Small beside
  | .folder _ below beside =>
      directorySize false below < 2 ^ 21 - 1 ∧ Small below ∧ Small beside

/-- The record of the root that is in the descriptor. There is no room for
entries. -/
def topRecord (time : Stamp) (x : Extent) : DirectoryRecord where
  extendedAttributeRecordLength := 0
  extentLoc := .ofNat x.start
  extentLength := .ofNat x.length
  time := time
  fileFlags := FileFlags.DIRECTORY
  defined := directory_defined
  fileUnitSize := 0
  interleaveGapSize := 0
  volumeSequenceNumber := 1
  name := .self
  entries := []
  unused := 0
  fits := Nat.le_of_ble_eq_true rfl

theorem length_topRecord (time : Stamp) (x : Extent) :
    (topRecord time x).length = 34 := by
  simp [DirectoryRecord.length, DirectoryRecord.area, topRecord,
    RecordedName.bytes, pad]

/-- What can be written: all blocks have addresses. -/
structure Disc (R : Recording) where
  files : Files R
  time : Stamp
  root_small : files.directorySize true < 2 ^ 21 - 1
  small : files.Small
  addressable : 18 + (files.directorySize true + files.dataSize) < 2 ^ 32

namespace Disc

variable (d : Disc R)

def root : Extent := d.files.extent true 18

theorem length_zeros : (List.replicate 8 (0 : UInt8)).length = 8 :=
  List.length_replicate

/-- The primary descriptor, without texts. -/
def descriptor : PrimaryDescriptor where
  systemIdentifier := .blank 32
  volumeIdentifier := .blank 32
  volumeSpaceSize := .ofNat (18 + (d.files.directorySize true + d.files.dataSize))
  volumeSetSize := 1
  volumeSequenceNumber := 1
  logicalBlockSize := 2048
  pathTableSize := 0
  pathTableLoc := 0
  optionalPathTableLoc := 0
  rootRecord := topRecord d.time d.root
  rootLength := length_topRecord _ _
  volumeSetIdentifier := .blank 128
  publisherIdentifier := .blank 128
  dataPreparerIdentifier := .blank 128
  applicationIdentifier := .blank 128
  copyrightFileIdentifier := .blank 37
  abstractFileIdentifier := .blank 37
  bibliographicFileIdentifier := .blank 37
  creation := noDate
  modification := noDate
  expiration := noDate
  effective := noDate
  fileStructureVersion := 1
  unusedByte := 0
  unusedBytes := List.replicate 8 0
  pathTablesBe := List.replicate 8 0
  rest := List.replicate 1166 0
  unusedBytes_length := length_zeros
  pathTablesBe_length := length_zeros

/-- The blocks behind the descriptors. -/
def volume : List BlockBuffer :=
  directoryBlocks d.time (directoryItems true d.root d.root
      (d.files.items (18 + d.files.directorySize true)))
    ++ d.files.data d.time d.root (18 + d.files.directorySize true)

/-- All blocks. -/
def sectors : List BlockBuffer :=
  List.replicate 16 BlockBuffer.new
    ++ (BlockBuffer.new.overwrite d.descriptor.encode :: terminatorBlock
      :: d.volume)

def image : List UInt8 := d.sectors.flatMap (·.bytes)

theorem length_descriptor : d.descriptor.encode.length = BLOCK_SIZE := by
  have hroot : d.descriptor.rootRecord.encode.length = 34 := by
    rw [DirectoryRecord.length_encode]
    exact length_topRecord _ _
  have hrest : d.descriptor.rest.length = 1166 := List.length_replicate
  simp only [PrimaryDescriptor.encode, PrimaryDescriptor.files,
    List.length_cons, List.length_append, FieldText.length_bytes,
    DigitDate.length_bytes, hroot, d.descriptor.unusedBytes_length,
    d.descriptor.pathTablesBe_length, both32, both16, digits32, digits16,
    List.length_reverse, List.length_replicate, List.length_nil, hrest]

end Disc

end Cdfs
