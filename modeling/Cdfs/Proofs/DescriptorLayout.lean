/-
The primary volume descriptor as the standard lays it out, and what the
parser reads from it.

The three file identifiers near the end have 37 bytes each. The parser
takes 38, 36 and 37: the first takes a byte of the second with it, the
third and all that is behind are in their places again. So the parse
succeeds, and it is right in every field if the abstract file
identifier is blank (`readFromPlaces_iff`).
-/
import Cdfs.ISO9660
import Cdfs.Parse.VolumeDescriptor
import Cdfs.Proofs.RecordRoundTrip
import Cdfs.Rust.Ascii

namespace Cdfs

open Rust Parse Nom

variable {b : Build}

-- =============================================================== texts

/-- The text of a field, which is padded with spaces. -/
structure FieldText (width : Nat) where
  text : String
  ascii : Ascii text.toList
  fits : text.length ≤ width

namespace FieldText

variable {width : Nat} (t : FieldText width)

def chars : List Char := padded width t.text

def bytes : List UInt8 := asciiBytes t.chars

theorem ascii_chars : Ascii t.chars := by
  intro c hc
  rcases List.mem_append.mp hc with hc | hc
  · exact t.ascii c hc
  · rw [List.eq_of_mem_replicate hc]
    decide

@[simp] theorem length_chars : t.chars.length = width := by
  have hfits := t.fits
  unfold chars padded
  rw [List.length_append, List.length_replicate, String.length_toList]
  omega

@[simp] theorem length_bytes : t.bytes.length = width := by
  unfold bytes
  rw [length_asciiBytes, length_chars]

end FieldText

/-- Text in ASCII is decoded to what is left of it without the white
space at its end. -/
theorem decodeString_ascii {l : List Char} (h : Ascii l) :
    decodeString b .iso9660 (asciiBytes l)
      = .ok ([], trimEnd (String.ofList l)) := by
  simp only [decodeString, Nom.map, mapRes, Nom.rest, Outcome.ok_bind,
    fromUtf8_asciiBytes h]

-- =============================================================== dates

/-- A date in digits, and its offset. -/
structure DigitDate where
  year : Fin 10000
  month : Fin 100
  day : Fin 100
  hour : Fin 100
  minute : Fin 100
  second : Fin 100
  hundredth : Fin 100
  offset : UInt8

def digitBytes (ds : List (Fin 10)) : List UInt8 :=
  asciiBytes (ds.map digitChar)

namespace DigitDate

variable (d : DigitDate)

def bytes : List UInt8 :=
  digitBytes (digits4 d.year) ++ (digitBytes (digits2 d.month)
    ++ (digitBytes (digits2 d.day) ++ (digitBytes (digits2 d.hour)
    ++ (digitBytes (digits2 d.minute) ++ (digitBytes (digits2 d.second)
    ++ (digitBytes (digits2 d.hundredth) ++ [d.offset]))))))

@[simp] theorem length_bytes : d.bytes.length = 17 := rfl

end DigitDate

theorem takes_asciiI32 (ds : List (Fin 10)) {n : Nat} (hn : ds.length = n)
    (hne : ds ≠ []) (hle : n ≤ 9) :
    Takes (asciiI32 n) (digitBytes ds) (numeral ds) := by
  intro rest
  have hlen : (digitBytes ds).length = n := by
    unfold digitBytes
    rw [length_asciiBytes, List.length_map, hn]
  have htake := takes_take hlen rest
  have hparse : mapRes (mapRes (take n) fromUtf8) parseI32
      (digitBytes ds ++ rest) = .ok (rest, (numeral ds : Int)) := by
    unfold mapRes
    rw [htake, Outcome.ok_bind]
    dsimp only
    rw [show fromUtf8 (digitBytes ds) = _ from
      fromUtf8_asciiBytes (ascii_digits ds)]
    dsimp only
    rw [Outcome.ok_bind]
    dsimp only
    rw [parseI32_digits hne (hn ▸ hle)]
  unfold asciiI32
  simp only [alt, hparse]

theorem yearZero_valid : -9999 ≤ (0 : Int) ∧ (0 : Int) ≤ 9999
    ∧ 1 ≤ 1 ∧ 1 ≤ 12 ∧ 1 ≤ 1 ∧ 1 ≤ daysInMonth 0 1 := by decide

/-- What the parser makes of it: years are counted from 1900, and a
date or a time that does not exist is replaced. -/
def DigitDate.decoded (d : DigitDate) : OffsetDateTime where
  date := (Date.fromCalendarDate (1900 + (d.year.val : Int))
    (if 1 ≤ d.month.val && d.month.val ≤ 12 then d.month.val else 1)
    d.day).getD ⟨0, 1, 1, yearZero_valid⟩
  time := (Time.fromHmsMilli d.hour d.minute d.second
    (d.hundredth * 10)).getD Time.midnight
  offset := (UtcOffset.fromWholeSeconds (d.offset.toNat * 15 * 60)).getD
    UtcOffset.UTC

/-- A date in digits is read, whatever the digits are. -/
theorem DigitDate.takes (d : DigitDate) :
    Takes (dateTimeAscii b) d.bytes d.decoded := by
  have h2 : ∀ n, Takes (asciiI32 2) (digitBytes (digits2 n)) n.val := by
    intro n
    have h := takes_asciiI32 (digits2 n) rfl (List.cons_ne_nil _ _)
      (show 2 ≤ 9 by decide)
    rwa [numeral_digits2] at h
  have h4 : Takes (asciiI32 4) (digitBytes (digits4 d.year)) d.year.val := by
    have h := takes_asciiI32 (digits4 d.year) rfl
      (List.cons_ne_nil _ _) (show 4 ≤ 9 by decide)
    rwa [numeral_digits4] at h
  have hbyte : ∀ n : Fin 100, asU8 (n.val : Int) = n.val := by
    intro n
    have hlt := n.isLt
    unfold asU8
    omega
  have hword : asU16 (d.hundredth.val : Int) = d.hundredth.val := by
    have hlt := d.hundredth.isLt
    unfold asU16
    omega
  have hsmall : d.hundredth.val * 10 < 2 ^ 16 := by
    have hlt := d.hundredth.isLt
    omega
  intro rest
  unfold dateTimeAscii DigitDate.bytes
  simp only [List.append_assoc]
  rw [h4, Outcome.ok_bind]
  dsimp only
  rw [h2, Outcome.ok_bind]
  dsimp only
  rw [h2, Outcome.ok_bind]
  dsimp only
  rw [h2, Outcome.ok_bind]
  dsimp only
  rw [h2, Outcome.ok_bind]
  dsimp only
  rw [h2, Outcome.ok_bind]
  dsimp only
  rw [h2, Outcome.ok_bind]
  simp only [List.singleton_append, leU8, Outcome.ok_bind, hbyte, hword]
  unfold mulW
  rw [if_pos hsmall, Outcome.ok_bind]
  rfl

-- ========================================================= the descriptor

/-- A primary volume descriptor: the values of its fields, and the bytes
that no field is made of. -/
structure PrimaryDescriptor where
  systemIdentifier : FieldText 32
  volumeIdentifier : FieldText 32
  volumeSpaceSize : UInt32
  volumeSetSize : UInt16
  volumeSequenceNumber : UInt16
  logicalBlockSize : UInt16
  pathTableSize : UInt32
  pathTableLoc : UInt32
  optionalPathTableLoc : UInt32
  rootRecord : DirectoryRecord
  rootLength : rootRecord.length = 34
  volumeSetIdentifier : FieldText 128
  publisherIdentifier : FieldText 128
  dataPreparerIdentifier : FieldText 128
  applicationIdentifier : FieldText 128
  copyrightFileIdentifier : FieldText 37
  abstractFileIdentifier : FieldText 37
  bibliographicFileIdentifier : FieldText 37
  creation : DigitDate
  modification : DigitDate
  expiration : DigitDate
  effective : DigitDate
  fileStructureVersion : UInt8
  unusedByte : UInt8
  unusedBytes : List UInt8
  pathTablesBe : List UInt8
  rest : List UInt8
  unusedBytes_length : unusedBytes.length = 8
  pathTablesBe_length : pathTablesBe.length = 8

namespace PrimaryDescriptor

variable (d : PrimaryDescriptor)

/-- From the three file identifiers on. -/
def files : List UInt8 :=
  d.copyrightFileIdentifier.bytes -- 702
    ++ (d.abstractFileIdentifier.bytes -- 739
    ++ (d.bibliographicFileIdentifier.bytes -- 776
    ++ (d.creation.bytes -- 813
    ++ (d.modification.bytes -- 830
    ++ (d.expiration.bytes -- 847
    ++ (d.effective.bytes -- 864
    ++ (d.fileStructureVersion :: d.rest))))))) -- 881

/-- The descriptor's bytes. The numbers are where a field begins. -/
def encode : List UInt8 :=
  1 :: 0x43 :: 0x44 :: 0x30 :: 0x30 :: 0x31 :: 1 :: d.unusedByte
    :: (d.systemIdentifier.bytes -- 8
    ++ (d.volumeIdentifier.bytes -- 40
    ++ (d.unusedBytes
    ++ (both32 d.volumeSpaceSize -- 80
    ++ (List.replicate 32 0
    ++ (both16 d.volumeSetSize -- 120
    ++ (both16 d.volumeSequenceNumber -- 124
    ++ (both16 d.logicalBlockSize -- 128
    ++ (both32 d.pathTableSize -- 132
    ++ (digits32 d.pathTableLoc -- 140
    ++ (digits32 d.optionalPathTableLoc -- 144
    ++ (d.pathTablesBe
    ++ (d.rootRecord.encode -- 156
    ++ (d.volumeSetIdentifier.bytes -- 190
    ++ (d.publisherIdentifier.bytes -- 318
    ++ (d.dataPreparerIdentifier.bytes -- 446
    ++ (d.applicationIdentifier.bytes -- 574
    ++ d.files)))))))))))))))))

/-- The table that the parser builds of them. -/
def table : VolumeDescriptorTable where
  systemIdentifier := trimEnd d.systemIdentifier.text
  volumeIdentifier := trimEnd d.volumeIdentifier.text
  characterEncoding := .iso9660
  volumeSpaceSize := d.volumeSpaceSize
  volumeSetSize := d.volumeSetSize
  volumeSequenceNumber := d.volumeSequenceNumber
  logicalBlockSize := d.logicalBlockSize
  pathTableSize := d.pathTableSize
  pathTableLoc := d.pathTableLoc
  optionalPathTableLoc := d.optionalPathTableLoc
  rootDirectoryEntry := d.rootRecord.header
  rootDirectoryEntryIdentifier := d.rootRecord.name.identifier
  volumeSetIdentifier := trimEnd d.volumeSetIdentifier.text
  publisherIdentifier := trimEnd d.publisherIdentifier.text
  dataPreparerIdentifier := trimEnd d.dataPreparerIdentifier.text
  applicationIdentifier := trimEnd d.applicationIdentifier.text
  -- the border between these two is one byte too far
  copyrightFileIdentifier := trimEnd (String.ofList
    (d.copyrightFileIdentifier.chars ++ d.abstractFileIdentifier.chars.take 1))
  abstractFileIdentifier := trimEnd (String.ofList
    (d.abstractFileIdentifier.chars.drop 1))
  bibliographicFileIdentifier := trimEnd d.bibliographicFileIdentifier.text
  creationTime := d.creation.decoded
  modificationTime := d.modification.decoded
  expirationTime := d.expiration.decoded
  effectiveTime := d.effective.decoded
  fileStructureVersion := d.fileStructureVersion

end PrimaryDescriptor

theorem decodeString_field {width : Nat} (t : FieldText width) :
    decodeString b .iso9660 t.bytes = .ok ([], trimEnd t.text) := by
  unfold FieldText.bytes
  rw [decodeString_ascii t.ascii_chars]
  unfold FieldText.chars
  rw [trimEnd_padded]

theorem takes_field {width : Nat} (t : FieldText width) :
    Takes (take width) t.bytes t.bytes :=
  takes_take t.length_bytes

/-- The escape sequences of a primary descriptor, all zeros. -/
theorem takes_characterEncoding :
    Takes characterEncoding (List.replicate 32 0) .iso9660 := by
  intro rest
  have hlen : (List.replicate 32 (0 : UInt8) ++ rest).length
      = 32 + rest.length := by
    rw [List.length_append, List.length_replicate]
  have halt : alt [
      value .ucs2Level1 (tag [0x25, 0x2F, 0x40]),
      value .ucs2Level2 (tag [0x25, 0x2F, 0x43]),
      value .ucs2Level3 (tag [0x25, 0x2F, 0x45]),
      value .iso9660 (tag (List.replicate 32 0))]
        (List.replicate 32 (0 : UInt8) ++ rest)
      = .ok (rest, CharacterEncoding.iso9660) := rfl
  unfold characterEncoding
  rw [halt, hlen, Outcome.ok_bind]
  dsimp only
  rw [if_neg (by omega)]

/-- The bytes of the three file identifiers, as the parser cuts them. -/
theorem files_eq (d : PrimaryDescriptor) (rest : List UInt8) :
    d.copyrightFileIdentifier.bytes ++ (d.abstractFileIdentifier.bytes
        ++ rest)
      = asciiBytes (d.copyrightFileIdentifier.chars
          ++ d.abstractFileIdentifier.chars.take 1)
        ++ (asciiBytes (d.abstractFileIdentifier.chars.drop 1) ++ rest) := by
  have hsplit : d.abstractFileIdentifier.bytes
      = asciiBytes (d.abstractFileIdentifier.chars.take 1)
        ++ asciiBytes (d.abstractFileIdentifier.chars.drop 1) := by
    rw [← asciiBytes_append, List.take_append_drop]
    rfl
  rw [hsplit, asciiBytes_append, List.append_assoc, List.append_assoc]
  rfl

/-- The table is read to its end, if the root record gets past the
assertions. -/
theorem descriptorTable_encode (b : Build) (d : PrimaryDescriptor) :
    descriptorTable b (d.encode.drop 7)
      = (d.rootRecord.asserted b >>= fun _ => .ok (d.rest, d.table)) := by
  have hfirst : (asciiBytes (d.copyrightFileIdentifier.chars
      ++ d.abstractFileIdentifier.chars.take 1)).length = 38 := by
    simp [length_asciiBytes]
  have hsecond : (asciiBytes
      (d.abstractFileIdentifier.chars.drop 1)).length = 36 := by
    simp [length_asciiBytes]
  obtain ⟨be, be', hbe, hlen, hlen'⟩ :=
    exists_append (m := 4) (n := 4) d.pathTablesBe_length
  unfold PrimaryDescriptor.encode PrimaryDescriptor.files
  rw [files_eq, hbe]
  simp only [List.drop_succ_cons, List.drop_zero, List.append_assoc]
  unfold descriptorTable
  rw [← List.singleton_append, (takes_take (n := 1) rfl).bind]
  dsimp only
  rw [(takes_field _).bind]
  dsimp only
  rw [(takes_field _).bind]
  dsimp only
  rw [(takes_take d.unusedBytes_length).bind]
  dsimp only
  rw [(takes_bothEndian32 b _).bind]
  dsimp only
  rw [takes_characterEncoding.bind]
  dsimp only
  rw [(takes_bothEndian16 b _).bind]
  dsimp only
  rw [(takes_bothEndian16 b _).bind]
  dsimp only
  rw [(takes_bothEndian16 b _).bind]
  dsimp only
  rw [(takes_bothEndian32 b _).bind]
  dsimp only
  rw [(takes_leU32 _).bind]
  dsimp only
  rw [(takes_leU32 _).bind]
  dsimp only
  rw [(takes_take hlen).bind]
  dsimp only
  rw [(takes_take hlen').bind]
  dsimp only
  rw [directoryEntry_record]
  rcases d.rootRecord.asserted_cases b with ⟨hpass, -⟩ | ⟨hpass, -⟩
  case inr =>
    rw [hpass]
    rfl
  rw [hpass, Outcome.ok_bind, Outcome.ok_bind]
  dsimp only
  rw [(takes_field _).bind]
  dsimp only
  rw [(takes_field _).bind]
  dsimp only
  rw [(takes_field _).bind]
  dsimp only
  rw [(takes_field _).bind]
  dsimp only
  rw [(takes_take hfirst).bind]
  dsimp only
  rw [(takes_take hsecond).bind]
  dsimp only
  rw [(takes_field _).bind]
  dsimp only
  rw [d.creation.takes.bind]
  dsimp only
  rw [d.modification.takes.bind]
  dsimp only
  rw [d.expiration.takes.bind]
  dsimp only
  rw [d.effective.takes.bind]
  simp only [leU8, Outcome.ok_bind, decodeString_field]
  rw [decodeString_ascii, decodeString_ascii]
  · rfl
  · intro c hc
    exact d.abstractFileIdentifier.ascii_chars c (List.mem_of_mem_drop hc)
  · intro c hc
    rcases List.mem_append.mp hc with hc | hc
    · exact d.copyrightFileIdentifier.ascii_chars c hc
    · exact d.abstractFileIdentifier.ascii_chars c (List.mem_of_mem_take hc)

/-- The descriptor is the table behind its type, if its root record gets
past the assertions. -/
theorem parse_encode (b : Build) (d : PrimaryDescriptor) :
    VolumeDescriptor.parse b d.encode
      = liftNom (d.rootRecord.asserted b >>= fun _ =>
        .ok (some (.primary d.table))) := by
  have htag : ∀ i : Input, tag [0x43, 0x44, 0x30, 0x30, 0x31, 1]
      (0x43 :: 0x44 :: 0x30 :: 0x30 :: 0x31 :: 1 :: i)
      = .ok (i, [0x43, 0x44, 0x30, 0x30, 0x31, 1]) := by
    intro i
    simp [tag]
  have hbytes : d.encode = 1 :: 0x43 :: 0x44 :: 0x30 :: 0x30 :: 0x31 :: 1
      :: d.encode.drop 7 := rfl
  have hdescriptor : volumeDescriptor b d.encode
      = map (primaryDescriptor b) some (d.encode.drop 7) := by
    rw [hbytes]
    unfold volumeDescriptor
    simp only [leU8, Outcome.ok_bind, htag]
    rfl
  unfold VolumeDescriptor.parse
  rw [hdescriptor]
  unfold primaryDescriptor Nom.map
  rw [descriptorTable_encode]
  cases d.rootRecord.asserted b with
  | ok _ => rfl
  | err e => cases e <;> rfl
  | panic | running => rfl

/-- The texts and the numbers of a table are the values that were
recorded. -/
structure FromPlaces (d : PrimaryDescriptor) (t : VolumeDescriptorTable) :
    Prop where
  systemIdentifier :
    t.systemIdentifier = trimEnd d.systemIdentifier.text
  volumeIdentifier :
    t.volumeIdentifier = trimEnd d.volumeIdentifier.text
  volumeSpaceSize : t.volumeSpaceSize = d.volumeSpaceSize
  volumeSetSize : t.volumeSetSize = d.volumeSetSize
  volumeSequenceNumber : t.volumeSequenceNumber = d.volumeSequenceNumber
  logicalBlockSize : t.logicalBlockSize = d.logicalBlockSize
  pathTableSize : t.pathTableSize = d.pathTableSize
  pathTableLoc : t.pathTableLoc = d.pathTableLoc
  optionalPathTableLoc : t.optionalPathTableLoc = d.optionalPathTableLoc
  rootDirectoryEntry : t.rootDirectoryEntry = d.rootRecord.header
  rootDirectoryEntryIdentifier :
    t.rootDirectoryEntryIdentifier = d.rootRecord.name.identifier
  volumeSetIdentifier :
    t.volumeSetIdentifier = trimEnd d.volumeSetIdentifier.text
  publisherIdentifier :
    t.publisherIdentifier = trimEnd d.publisherIdentifier.text
  dataPreparerIdentifier :
    t.dataPreparerIdentifier = trimEnd d.dataPreparerIdentifier.text
  applicationIdentifier :
    t.applicationIdentifier = trimEnd d.applicationIdentifier.text
  copyrightFileIdentifier :
    t.copyrightFileIdentifier = trimEnd d.copyrightFileIdentifier.text
  abstractFileIdentifier :
    t.abstractFileIdentifier = trimEnd d.abstractFileIdentifier.text
  bibliographicFileIdentifier :
    t.bibliographicFileIdentifier
      = trimEnd d.bibliographicFileIdentifier.text
  fileStructureVersion : t.fileStructureVersion = d.fileStructureVersion

/-- What the accessors of a filesystem are to return. -/
structure Accessed (d : PrimaryDescriptor) (iso : ISO9660) : Prop where
  volumeSetIdentifier :
    iso.volumeSetIdentifier = .ok (trimEnd d.volumeSetIdentifier.text)
  publisherIdentifier :
    iso.publisherIdentifier = .ok (trimEnd d.publisherIdentifier.text)
  dataPreparerIdentifier :
    iso.dataPreparerIdentifier
      = .ok (trimEnd d.dataPreparerIdentifier.text)
  applicationIdentifier :
    iso.applicationIdentifier = .ok (trimEnd d.applicationIdentifier.text)
  copyrightFileIdentifier :
    iso.copyrightFileIdentifier
      = .ok (trimEnd d.copyrightFileIdentifier.text)
  abstractFileIdentifier :
    iso.abstractFileIdentifier = .ok (trimEnd d.abstractFileIdentifier.text)
  bibliographicFileIdentifier :
    iso.bibliographicFileIdentifier
      = .ok (trimEnd d.bibliographicFileIdentifier.text)

/-- The parse succeeds, and every field and every accessor is right. -/
def ReadFromPlaces (b : Build) (d : PrimaryDescriptor) : Prop :=
  ∃ t, VolumeDescriptor.parse b d.encode = .ok (some (.primary t))
    ∧ FromPlaces d t
    ∧ ∀ iso : ISO9660, iso.primary = .primary t → Accessed d iso

/-- An accessor reads the table's field. -/
theorem primaryPropStr_eq {iso : ISO9660} {t : VolumeDescriptorTable}
    (h : iso.primary = .primary t) (prop : VolumeDescriptorTable → String) :
    iso.primaryPropStr prop = .ok (prop t) := by
  unfold ISO9660.primaryPropStr
  rw [h]

theorem accessed_of_fromPlaces {d : PrimaryDescriptor}
    {t : VolumeDescriptorTable} (h : FromPlaces d t) {iso : ISO9660}
    (hiso : iso.primary = .primary t) : Accessed d iso where
  volumeSetIdentifier := by
    rw [← h.volumeSetIdentifier]
    exact primaryPropStr_eq hiso _
  publisherIdentifier := by
    rw [← h.publisherIdentifier]
    exact primaryPropStr_eq hiso _
  dataPreparerIdentifier := by
    rw [← h.dataPreparerIdentifier]
    exact primaryPropStr_eq hiso _
  applicationIdentifier := by
    rw [← h.applicationIdentifier]
    exact primaryPropStr_eq hiso _
  copyrightFileIdentifier := by
    rw [← h.copyrightFileIdentifier]
    exact primaryPropStr_eq hiso _
  abstractFileIdentifier := by
    rw [← h.abstractFileIdentifier]
    exact primaryPropStr_eq hiso _
  bibliographicFileIdentifier := by
    rw [← h.bibliographicFileIdentifier]
    exact primaryPropStr_eq hiso _

/-- There is nothing but white space in the text. -/
abbrev Blank (s : String) : Prop := trimEnd s = ""

theorem blank_iff {l : List Char} :
    Blank (String.ofList l) ↔ ∀ c ∈ l, isWhitespace c = true := by
  unfold Blank trimEnd
  rw [String.toList_ofList, ← List.rdropWhile_eq_nil_iff,
    ← String.toList_inj, String.toList_ofList, String.toList_empty]

/-- A blank abstract file identifier is not missed where it is not read,
nor seen where it is read. -/
theorem fromPlaces_of_blank {d : PrimaryDescriptor}
    (h : Blank d.abstractFileIdentifier.text) : FromPlaces d d.table := by
  have hall : ∀ c ∈ d.abstractFileIdentifier.chars,
      isWhitespace c = true := by
    rw [← blank_iff]
    exact (trimEnd_padded _ _).trans h
  refine ⟨rfl, rfl, rfl, rfl, rfl, rfl, rfl, rfl, rfl, rfl, rfl, rfl, rfl,
    rfl, rfl, ?_, ?_, rfl, rfl⟩
  · rw [← trimEnd_padded 37]
    show String.ofList (List.rdropWhile _ _) = String.ofList _
    rw [String.toList_ofList, String.toList_ofList, rdropWhile_append_of_all]
    · rfl
    · exact fun c hc => hall c (List.mem_of_mem_take hc)
  · rw [h]
    exact blank_iff.mpr fun c hc => hall c (List.mem_of_mem_drop hc)

/-- Any other loses its first character. -/
theorem blank_of_fromPlaces {d : PrimaryDescriptor}
    (h : FromPlaces d d.table) : Blank d.abstractFileIdentifier.text := by
  have hlen := d.abstractFileIdentifier.length_chars
  have hpad : trimEnd d.abstractFileIdentifier.text
      = trimEnd (String.ofList d.abstractFileIdentifier.chars) :=
    (trimEnd_padded _ _).symm
  have habstract := h.abstractFileIdentifier
  unfold Blank
  rw [hpad] at habstract ⊢
  change trimEnd (String.ofList (d.abstractFileIdentifier.chars.drop 1))
    = _ at habstract
  match hchars : d.abstractFileIdentifier.chars with
  | [] =>
      rw [hchars] at hlen
      cases hlen
  | c :: l =>
      rw [hchars] at habstract
      unfold trimEnd at habstract ⊢
      rw [String.toList_ofList, String.toList_ofList, List.drop_succ_cons,
        List.drop_zero] at habstract
      rw [String.toList_ofList]
      by_contra hne
      refine rdropWhile_tail_ne (fun hnil => hne ?_)
        (String.ofList_injective habstract)
      rw [hnil]

/-- There is one table that can be right. -/
theorem readFromPlaces_iff_table (b : Build) (d : PrimaryDescriptor) :
    ReadFromPlaces b d
      ↔ FromPlaces d d.table ∧ d.rootRecord.Passes b := by
  have hparse := parse_encode b d
  rcases d.rootRecord.asserted_cases b with ⟨h, hpass⟩ | ⟨h, hpass⟩
  · rw [h] at hparse
    constructor
    · intro ⟨t, ht, hplaces, _⟩
      rw [ht] at hparse
      injection hparse with hparse
      injection hparse with hparse
      injection hparse with hparse
      exact ⟨hparse ▸ hplaces, hpass⟩
    · intro ⟨hplaces, _⟩
      exact ⟨d.table, hparse, hplaces,
        fun iso hiso => accessed_of_fromPlaces hplaces hiso⟩
  · rw [h] at hparse
    constructor
    · intro ⟨t, ht, _⟩
      rw [ht] at hparse
      cases hparse
    · exact fun h => absurd h.2 hpass

/-- The descriptor is read from its places exactly when its abstract file
identifier is blank, and its root record gets past the assertions. -/
theorem readFromPlaces_iff (b : Build) (d : PrimaryDescriptor) :
    ReadFromPlaces b d
      ↔ Blank d.abstractFileIdentifier.text ∧ d.rootRecord.Passes b := by
  rw [readFromPlaces_iff_table]
  exact and_congr_left fun _ =>
    ⟨blank_of_fromPlaces, fun h => fromPlaces_of_blank h⟩

-- ================================================== a descriptor to read

def FieldText.blank (width : Nat) : FieldText width :=
  ⟨"", (fun _ h => nomatch h), Nat.zero_le _⟩

/-- The record of a root directory of one block, at block 20. -/
def licensedRoot : DirectoryRecord where
  extendedAttributeRecordLength := 0
  extentLoc := 20
  extentLength := 2048
  time := millennium
  fileFlags := FileFlags.DIRECTORY
  defined := rfl
  fileUnitSize := 0
  interleaveGapSize := 0
  volumeSequenceNumber := 1
  name := .self
  entries := []
  unused := 0
  fits := by decide

/-- A date in zeros. -/
def noDate : DigitDate := ⟨0, 0, 0, 0, 0, 0, 0, 0⟩

/-- A disc that names a copyright file and an abstract file. -/
def licensedDescriptor : PrimaryDescriptor where
  systemIdentifier := .blank 32
  volumeIdentifier := .blank 32
  volumeSpaceSize := 21
  volumeSetSize := 1
  volumeSequenceNumber := 1
  logicalBlockSize := 2048
  pathTableSize := 10
  pathTableLoc := 18
  optionalPathTableLoc := 0
  rootRecord := licensedRoot
  rootLength := rfl
  volumeSetIdentifier := .blank 128
  publisherIdentifier := .blank 128
  dataPreparerIdentifier := .blank 128
  applicationIdentifier := .blank 128
  copyrightFileIdentifier := ⟨"COPYING.;1", by decide, by decide⟩
  abstractFileIdentifier := ⟨"ABOUT.TXT;1", by decide, by decide⟩
  bibliographicFileIdentifier := .blank 37
  creation := noDate
  modification := noDate
  expiration := noDate
  effective := noDate
  fileStructureVersion := 1
  unusedByte := 0
  unusedBytes := List.replicate 8 0
  pathTablesBe := List.replicate 8 0
  rest := List.replicate 1166 0
  unusedBytes_length := rfl
  pathTablesBe_length := rfl

/-- The second name loses its first letter to the first, which has it
behind all its spaces. -/
theorem licensedDescriptor_shifted :
    VolumeDescriptor.parse debugBuild licensedDescriptor.encode
        = .ok (some (.primary licensedDescriptor.table))
      ∧ licensedDescriptor.table.abstractFileIdentifier = "BOUT.TXT;1"
      ∧ licensedDescriptor.table.copyrightFileIdentifier
        = "COPYING.;1                           A"
      ∧ ¬ ReadFromPlaces debugBuild licensedDescriptor := by
  refine ⟨?_, by decide +kernel, by decide +kernel, fun h => ?_⟩
  · rw [parse_encode]
    rfl
  · have hplaces := ((readFromPlaces_iff_table _ _).mp h).1
    have habout := hplaces.abstractFileIdentifier
    revert habout
    decide +kernel

end Cdfs
