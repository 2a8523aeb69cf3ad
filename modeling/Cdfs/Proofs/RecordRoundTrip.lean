/-
Directory records as a writer lays them out, and that the parser gives
them back.

A `DirectoryRecord` carries what makes it well formed: a name without
white space at its end, flags without reserved bits, and a length that
a byte holds. Its fixed fields are `FixedFields`, so that what is left
to show is about the variable part: the two lengths agree, and behind
them are the name and the entries of the system use area.
-/
import Cdfs.Parse.DirectoryEntry
import Cdfs.Proofs.Layout
import Cdfs.Proofs.RecordParse
import Cdfs.Proofs.SuspRoundTrip

namespace Cdfs

open Rust Parse Nom

variable {b : Build}

-- ============================================================= the name

/-- The identifier of a record: the directory itself, its parent, or
text that does not end with white space. -/
inductive RecordedName where
  | self
  | parent
  | text (s : String) (nonempty : s ≠ "") (trimmed : trimEnd s = s)

namespace RecordedName

def bytes : RecordedName → List UInt8
  | self => [0]
  | parent => [1]
  | text s _ _ => asBytes s

/-- What the parser is to return. -/
def identifier : RecordedName → String
  | self => "\x00"
  | parent => "\x01"
  | text s _ _ => s

end RecordedName

/-- Text of one byte is no exception: the bytes 0 and 1 are the names
that they stand for. -/
theorem identifierText_bytes (name : RecordedName) :
    ∃ r, identifierText b .iso9660 name.bytes
      = .ok (r, name.identifier) := by
  cases name with
  | self => exact ⟨[], rfl⟩
  | parent => exact ⟨[], rfl⟩
  | text s nonempty trimmed =>
      have hdecode : decodeString b .iso9660 (asBytes s) = .ok ([], s) := by
        simp only [decodeString, Nom.map, mapRes, Nom.rest,
          Outcome.ok_bind, fromUtf8_asBytes, trimmed]
      show ∃ r, identifierText b .iso9660 (asBytes s) = .ok (r, s)
      unfold identifierText
      by_cases hone : (asBytes s).length = 1
      · rw [if_pos hone]
        obtain ⟨c, hc⟩ := List.length_eq_one_iff.mp hone
        have hother : ∀ d : UInt8, c ≠ d → ∀ t : String,
            value t (tag [d]) [c] = .err (.error .tag) := by
          intro d hd t
          unfold value Nom.map tag
          rw [if_neg (by simpa using fun h => hd h.symm)]
          rfl
        by_cases hself : c = 0
        · have hs : s = "\x00" := asBytes_injective (by rw [hc, hself]; rfl)
          exact ⟨[], by rw [hs]; rfl⟩
        · by_cases hparent : c = 1
          · have hs : s = "\x01" := asBytes_injective (by
              rw [hc, hparent]
              rfl)
            exact ⟨[], by rw [hs]; rfl⟩
          · refine ⟨[], ?_⟩
            rw [hc] at hdecode ⊢
            simp only [alt]
            rw [hother 0 hself, hother 1 hparent]
            exact hdecode
      · rw [if_neg hone]
        exact ⟨[], hdecode⟩

-- =========================================================== the record

/-- A directory record. Its system use area is empty or holds entries,
with unused zero bytes behind them or not. -/
structure DirectoryRecord where
  extendedAttributeRecordLength : UInt8
  extentLoc : UInt32
  extentLength : UInt32
  time : Stamp
  fileFlags : UInt8
  defined : Defined FileFlags.all fileFlags
  fileUnitSize : UInt8
  interleaveGapSize : UInt8
  volumeSequenceNumber : UInt16
  name : RecordedName
  entries : List SuspRecord
  unused : Nat
  fits : 33 + name.bytes.length + pad name.bytes.length
    + ((entries.flatMap (·.frame.encode)).length + unused) ≤ 255

namespace DirectoryRecord

variable (r : DirectoryRecord)

/-- The system use area. -/
def area : List UInt8 :=
  r.entries.flatMap (·.frame.encode) ++ List.replicate r.unused 0

def length : Nat :=
  33 + r.name.bytes.length + pad r.name.bytes.length + r.area.length

theorem length_le : r.length ≤ 255 := by
  have hfits := r.fits
  unfold length area
  rw [List.length_append, List.length_replicate]
  exact hfits

/-- The fields in front of the name. -/
def fixed : List UInt8 :=
  UInt8.ofNat r.length :: r.extendedAttributeRecordLength
    :: (both32 r.extentLoc ++ (both32 r.extentLength ++ (r.time.bytes
    ++ (r.fileFlags :: r.fileUnitSize :: r.interleaveGapSize
      :: both16 r.volumeSequenceNumber))))

/-- The name and what is behind it. The pad byte is there exactly when
the name has an even length. -/
def named : List UInt8 :=
  r.name.bytes ++ (List.replicate (pad r.name.bytes.length) 0 ++ r.area)

/-- The record's bytes. -/
def encode : List UInt8 :=
  r.fixed ++ UInt8.ofNat r.name.bytes.length :: r.named

/-- The header that a reader should find. -/
def header : DirectoryEntryHeader where
  length := UInt8.ofNat r.length
  extendedAttributeRecordLength := r.extendedAttributeRecordLength
  extentLoc := r.extentLoc
  extentLength := r.extentLength
  time := r.time.time
  fileFlags := r.fileFlags
  fileUnitSize := r.fileUnitSize
  interleaveGapSize := r.interleaveGapSize
  volumeSequenceNumber := r.volumeSequenceNumber
  characterEncoding := .iso9660

/-- And the entries, if there are any. -/
def susp : Option (List SystemUseEntry) :=
  if r.entries = [] then none else some (r.entries.map (·.decoded))

end DirectoryRecord

theorem DirectoryRecord.fixedFields (r : DirectoryRecord) :
    FixedFields b r.header r.fixed :=
  .mk (takes_bothEndian32 b _) (takes_bothEndian32 b _) r.time.takes
    r.defined (takes_bothEndian16 b _) (by
      rw [length_bytes]
      simp [both32, both16, digits32, digits16])

/-- The area is read as its entries. -/
theorem DirectoryRecord.area_read (r : DirectoryRecord) :
    ∃ rest, opt (systemUseEntries b) r.area = .ok (rest, r.susp) := by
  obtain ⟨kind, hpad⟩ := systemUseEntry_padding (b := b) r.unused
  unfold opt area susp
  by_cases hnil : r.entries = []
  · have hnone : systemUseEntries b (List.replicate r.unused 0)
        = .err (.error kind) := by
      unfold systemUseEntries many1
      rw [hpad, Outcome.err_bind]
    rw [hnil, if_pos rfl, List.flatMap_nil, List.nil_append, hnone]
    exact ⟨_, rfl⟩
  · have hmap : r.entries.map (·.frame.encode) ≠ [] := by
      rwa [ne_eq, List.map_eq_nil_iff]
    rw [if_neg hnil, List.flatMap_def,
      systemUseEntries_eq (decodes_records b r.entries) hmap hpad]
    exact ⟨_, rfl⟩

/-- What is asserted of a record, in its order. -/
def DirectoryRecord.asserted (b : Build) (r : DirectoryRecord) :
    Outcome Err Unit := do
  Outcome.assert b.assertions (r.interleaveGapSize == 0)
  Outcome.assert b.assertions (r.fileUnitSize == 0)

/-- Where assertions are compiled in, files are not interleaved. -/
def DirectoryRecord.Passes (b : Build) (r : DirectoryRecord) : Prop :=
  b.assertions = true → r.interleaveGapSize = 0 ∧ r.fileUnitSize = 0

theorem DirectoryRecord.asserted_cases (b : Build) (r : DirectoryRecord) :
    r.asserted b = .ok () ∧ r.Passes b
      ∨ r.asserted b = .panic ∧ ¬ r.Passes b := by
  unfold asserted Passes Outcome.assert
  cases b.assertions with
  | false => simp
  | true =>
      by_cases hgap : r.interleaveGapSize = 0
      · by_cases hunit : r.fileUnitSize = 0
        · simp [hgap, hunit]
        · simp [hgap, hunit]
      · simp [hgap]

/-- A record is read to its end, whatever is behind it, if it gets past
the assertions. -/
theorem directoryEntry_record (b : Build) (r : DirectoryRecord)
    (rest : List UInt8) :
    directoryEntry b .iso9660 (r.encode ++ rest)
      = (r.asserted b >>= fun _ =>
        .ok (rest, r.header, r.name.identifier, r.susp)) := by
  have hlength : r.header.length.toNat = r.length :=
    length_toNat r.length_le
  obtain ⟨left, hid⟩ := identifierText_bytes (b := b) r.name
  obtain ⟨unused, hsusp⟩ := r.area_read (b := b)
  have hpad : (List.replicate (pad r.name.bytes.length) (0 : UInt8)).length
      = pad r.name.bytes.length := List.length_replicate
  have hread := directoryEntry_assembled r.fixedFields hpad hlength hid
    hsusp rest
  rw [DirectoryRecord.asserted, Outcome.bind_assoc]
  exact hread

/-- Decoding a record undoes encoding it. Where assertions are compiled
in, only files that are not interleaved pass. -/
theorem directoryEntry_encode (b : Build) (r : DirectoryRecord)
    (hassert : b.assertions = true →
      r.interleaveGapSize = 0 ∧ r.fileUnitSize = 0)
    (rest : List UInt8) :
    directoryEntry b .iso9660 (r.encode ++ rest)
      = .ok (rest, r.header, r.name.identifier, r.susp) := by
  rw [directoryEntry_record]
  rcases r.asserted_cases b with ⟨h, -⟩ | ⟨-, h⟩
  · rw [h, Outcome.ok_bind]
  · exact absurd hassert h

theorem directory_defined : Defined FileFlags.all FileFlags.DIRECTORY := rfl

/-- The record of a file `AB`, with a name of Rock Ridge. -/
def abRecord : DirectoryRecord where
  extendedAttributeRecordLength := 0
  extentLoc := 30
  extentLength := 5
  time := millennium
  fileFlags := 0
  defined := rfl
  fileUnitSize := 0
  interleaveGapSize := 0
  volumeSequenceNumber := 1
  name := .text "AB" (by decide) (by decide)
  entries := threeRecords.take 1
  unused := 0
  fits := by decide

theorem directoryEntry_abRecord :
    directoryEntry debugBuild .iso9660 (abRecord.encode ++ [1, 2])
      = .ok ([1, 2], abRecord.header, "AB",
        some [.alternateName ⟨"a", 0⟩]) :=
  directoryEntry_encode debugBuild abRecord (fun _ => ⟨rfl, rfl⟩) [1, 2]

/-- The same file, with a gap between its units. -/
def interleavedRecord : DirectoryRecord :=
  { abRecord with interleaveGapSize := 1 }

/-- A build with the default features does not get over it. -/
theorem directoryEntry_interleaved :
    directoryEntry debugBuild .iso9660 interleavedRecord.encode = .panic := by
  decide +kernel

end Cdfs
