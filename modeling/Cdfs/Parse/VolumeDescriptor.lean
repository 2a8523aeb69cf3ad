/-
The volume descriptors (`parse/volume_descriptor.rs`). A descriptor is a
type code, the five letters and the version that every one has, and what
the type code asks for; a type code that the crate does not know is no
error.

The primary and the supplementary descriptor are one table. Its texts
are cut out first and decoded at the end, in the encoding that the table
names itself.
-/
import Cdfs.Parse.DirectoryEntry

namespace Cdfs.Parse

open Rust Nom

variable (b : Build)

/-- The fields of a primary or a supplementary descriptor. -/
structure VolumeDescriptorTable where
  systemIdentifier : String
  volumeIdentifier : String
  characterEncoding : CharacterEncoding
  volumeSpaceSize : UInt32
  volumeSetSize : UInt16
  volumeSequenceNumber : UInt16
  logicalBlockSize : UInt16
  pathTableSize : UInt32
  pathTableLoc : UInt32
  optionalPathTableLoc : UInt32
  rootDirectoryEntry : DirectoryEntryHeader
  rootDirectoryEntryIdentifier : String
  volumeSetIdentifier : String
  publisherIdentifier : String
  dataPreparerIdentifier : String
  applicationIdentifier : String
  copyrightFileIdentifier : String
  abstractFileIdentifier : String
  bibliographicFileIdentifier : String
  creationTime : OffsetDateTime
  modificationTime : OffsetDateTime
  expirationTime : OffsetDateTime
  effectiveTime : OffsetDateTime
  fileStructureVersion : UInt8
  deriving DecidableEq

/-- A descriptor, as far as its kind is known. -/
inductive VolumeDescriptor where
  | primary (table : VolumeDescriptorTable)
  | supplementary (table : VolumeDescriptorTable)
  | bootRecord (bootSystemIdentifier bootIdentifier : String)
      (data : List UInt8)
  | volumeDescriptorSetTerminator
  deriving DecidableEq

-- ========================================================== the parsers

/-- A boot record: two identifiers and a block of data. -/
def bootRecord : Parser VolumeDescriptor := fun i => do
  let (i, bootSystemIdentifier) ←
    mapParser (take 32) (decodeString b .iso9660) i
  let (i, bootIdentifier) ← mapParser (take 32) (decodeString b .iso9660) i
  let (i, data) ← take 1977 i
  .ok (i, .bootRecord bootSystemIdentifier bootIdentifier data)

/-- The table, field by field in the order in which it is recorded. What is
taken and not bound is padding, or the other byte order of a number. -/
def descriptorTable : Parser VolumeDescriptorTable := fun i => do
  let (i, _) ← take 1 i -- padding
  let (i, systemIdentifier) ← take 32 i
  let (i, volumeIdentifier) ← take 32 i
  let (i, _) ← take 8 i -- padding
  let (i, volumeSpaceSize) ← bothEndian32 b i
  let (i, characterEncoding) ← characterEncoding i
  let (i, volumeSetSize) ← bothEndian16 b i
  let (i, volumeSequenceNumber) ← bothEndian16 b i
  let (i, logicalBlockSize) ← bothEndian16 b i
  let (i, pathTableSize) ← bothEndian32 b i
  let (i, pathTableLoc) ← leU32 i
  let (i, optionalPathTableLoc) ← leU32 i
  let (i, _) ← take 4 i -- the first of them again, big-endian
  let (i, _) ← take 4 i -- and the second
  let (i, rootDirectoryEntry, rootDirectoryEntryIdentifier, _) ←
    directoryEntry b characterEncoding i
  let (i, volumeSetIdentifier) ← take 128 i
  let (i, publisherIdentifier) ← take 128 i
  let (i, dataPreparerIdentifier) ← take 128 i
  let (i, applicationIdentifier) ← take 128 i
  let (i, copyrightFileIdentifier) ← take 38 i
  let (i, abstractFileIdentifier) ← take 36 i
  let (i, bibliographicFileIdentifier) ← take 37 i
  let (i, creationTime) ← dateTimeAscii b i
  let (i, modificationTime) ← dateTimeAscii b i
  let (i, expirationTime) ← dateTimeAscii b i
  let (i, effectiveTime) ← dateTimeAscii b i
  let (i, fileStructureVersion) ← leU8 i
  let decode := decodeString b characterEncoding
  let (_, systemIdentifier) ← decode systemIdentifier
  let (_, volumeIdentifier) ← decode volumeIdentifier
  let (_, volumeSetIdentifier) ← decode volumeSetIdentifier
  let (_, publisherIdentifier) ← decode publisherIdentifier
  let (_, dataPreparerIdentifier) ← decode dataPreparerIdentifier
  let (_, applicationIdentifier) ← decode applicationIdentifier
  let (_, copyrightFileIdentifier) ← decode copyrightFileIdentifier
  let (_, abstractFileIdentifier) ← decode abstractFileIdentifier
  -- the last one is not in the table's own encoding
  let (_, bibliographicFileIdentifier) ←
    decodeString b .iso9660 bibliographicFileIdentifier
  .ok (i, { systemIdentifier, volumeIdentifier, characterEncoding,
            volumeSpaceSize, volumeSetSize, volumeSequenceNumber,
            logicalBlockSize, pathTableSize, pathTableLoc,
            optionalPathTableLoc, rootDirectoryEntry,
            rootDirectoryEntryIdentifier, volumeSetIdentifier,
            publisherIdentifier, dataPreparerIdentifier,
            applicationIdentifier, copyrightFileIdentifier,
            abstractFileIdentifier, bibliographicFileIdentifier,
            creationTime, modificationTime, expirationTime, effectiveTime,
            fileStructureVersion })

def supplementaryDescriptor : Parser VolumeDescriptor :=
  map (descriptorTable b) .supplementary

def primaryDescriptor : Parser VolumeDescriptor :=
  map (descriptorTable b) .primary

/-- One block: the type, the mark of the format, and then the descriptor
of that type. A terminator has no fields, and a type that is not known is
no descriptor. -/
def volumeDescriptor : Parser (Option VolumeDescriptor) := fun i => do
  let (i, typeCode) ← leU8 i
  -- `CD001` and the version
  let (i, _) ← tag [0x43, 0x44, 0x30, 0x30, 0x31, 1] i
  if typeCode = 0 then map (bootRecord b) some i
  else if typeCode = 1 then map (primaryDescriptor b) some i
  else if typeCode = 2 then map (supplementaryDescriptor b) some i
  else if typeCode = 255 then .ok (i, some .volumeDescriptorSetTerminator)
  else .ok (i, none)

/-- `VolumeDescriptor::parse`. -/
def VolumeDescriptor.parse (bytes : Input) :
    Outcome ISOError (Option VolumeDescriptor) := do
  let (_, descriptor) ← liftNom (volumeDescriptor b bytes)
  .ok descriptor

-- ========================================================== termination

/-- No field is parsed by a loop that could run out of turns. -/
theorem descriptorTable_ne_running (i : Input) :
    descriptorTable b i ≠ .running := by
  have htake : ∀ n i, take n i ≠ .running := fun n => (ends_take n).returns
  have hdate := (ends_dateTimeAscii b).returns
  have hdecode : ∀ enc i, decodeString b enc i ≠ .running :=
    fun enc => (ends_decodeString b enc).returns
  refine step_ne_running (htake _ _) fun i _ => ?_
  refine step_ne_running (htake _ _) fun i _ => ?_
  refine step_ne_running (htake _ _) fun i _ => ?_
  refine step_ne_running (htake _ _) fun i _ => ?_
  refine step_ne_running ((ends_bothEndian32 b).returns _) fun i _ => ?_
  refine step_ne_running (characterEncoding_ne_running _) fun i enc => ?_
  refine step_ne_running ((ends_bothEndian16 b).returns _) fun i _ => ?_
  refine step_ne_running ((ends_bothEndian16 b).returns _) fun i _ => ?_
  refine step_ne_running ((ends_bothEndian16 b).returns _) fun i _ => ?_
  refine step_ne_running ((ends_bothEndian32 b).returns _) fun i _ => ?_
  refine step_ne_running (ends_leU32.returns _) fun i _ => ?_
  refine step_ne_running (ends_leU32.returns _) fun i _ => ?_
  refine step_ne_running (htake _ _) fun i _ => ?_
  refine step_ne_running (htake _ _) fun i _ => ?_
  refine step_ne_running (directoryEntry_ne_running b enc _) fun i _ => ?_
  refine step_ne_running (htake _ _) fun i _ => ?_
  refine step_ne_running (htake _ _) fun i _ => ?_
  refine step_ne_running (htake _ _) fun i _ => ?_
  refine step_ne_running (htake _ _) fun i _ => ?_
  refine step_ne_running (htake _ _) fun i _ => ?_
  refine step_ne_running (htake _ _) fun i _ => ?_
  refine step_ne_running (htake _ _) fun i _ => ?_
  refine step_ne_running (hdate _) fun i _ => ?_
  refine step_ne_running (hdate _) fun i _ => ?_
  refine step_ne_running (hdate _) fun i _ => ?_
  refine step_ne_running (hdate _) fun i _ => ?_
  refine step_ne_running (ends_leU8.returns _) fun i _ => ?_
  refine step_ne_running (hdecode _ _) fun _ _ => ?_
  refine step_ne_running (hdecode _ _) fun _ _ => ?_
  refine step_ne_running (hdecode _ _) fun _ _ => ?_
  refine step_ne_running (hdecode _ _) fun _ _ => ?_
  refine step_ne_running (hdecode _ _) fun _ _ => ?_
  refine step_ne_running (hdecode _ _) fun _ _ => ?_
  refine step_ne_running (hdecode _ _) fun _ _ => ?_
  refine step_ne_running (hdecode _ _) fun _ _ => ?_
  refine step_ne_running (hdecode _ _) fun _ _ => ?_
  exact fun h => nomatch h

theorem bootRecord_ne_running (i : Input) : bootRecord b i ≠ .running := by
  have hid : ∀ i, mapParser (take 32) (decodeString b .iso9660) i
      ≠ .running :=
    ((ends_take 32).mapParser (ends_decodeString b _).returns).returns
  refine step_ne_running (hid _) fun i _ => ?_
  refine step_ne_running (hid _) fun i _ => ?_
  refine step_ne_running ((ends_take _).returns _) fun i _ => ?_
  exact fun h => nomatch h

/-- The descriptor parser always comes to a result. -/
theorem VolumeDescriptor.parse_ne_running (bytes : Input) :
    VolumeDescriptor.parse b bytes ≠ .running := by
  have htable : ∀ {α : Type} (f : VolumeDescriptorTable → α) (i : Input),
      map (descriptorTable b) f i ≠ .running := fun f i =>
    step_ne_running (descriptorTable_ne_running b i)
      fun _ _ h => nomatch h
  have hall : volumeDescriptor b bytes ≠ .running := by
    refine step_ne_running (ends_leU8.returns _) fun i typeCode => ?_
    refine step_ne_running ((ends_tag _).returns _) fun i _ => ?_
    dsimp only
    split
    · exact step_ne_running (bootRecord_ne_running b i)
        fun _ _ h => nomatch h
    · split
      · exact step_ne_running (htable _ i) fun _ _ h => nomatch h
      · split
        · exact step_ne_running (htable _ i) fun _ _ h => nomatch h
        · split
          · exact fun h => nomatch h
          · exact fun h => nomatch h
  intro h
  rcases Outcome.bind_eq_running.mp h with h | ⟨_, -, h⟩
  · exact hall (liftNom_eq_running.mp h)
  · cases h

end Cdfs.Parse
