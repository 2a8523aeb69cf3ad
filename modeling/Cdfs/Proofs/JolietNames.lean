/-
The identifiers of a Joliet directory hierarchy.

They are UTF-16 with the high byte of a unit first, and no byte order mark
has any business in them. The decoder looks for one all the same, and what
it decodes loses the white space at its end (`directoryEntry_joliet`). So
no identifier comes back that has either (`unaltered_of_directoryEntry`);
one that ends in white space comes back as the name of another file.
-/
import Cdfs.Proofs.RecordRoundTrip
import Cdfs.Rust.Encoding

namespace Cdfs

open Rust Parse Nom

variable {b : Build} {enc : CharacterEncoding}

-- ============================================== statement vocabulary

/-- A name of characters of the basic multilingual plane. Joliet leaves
some of them out; nothing here depends on which. -/
structure JolietName where
  text : String
  oneUnit : OneUnit text.toList

namespace JolietName

/-- The identifier that records it. -/
def bytes (name : JolietName) : Input := ucs2Bytes name.text.toList

/-- It does not end in white space and does not begin like a byte order
mark. -/
def Unaltered (name : JolietName) : Prop :=
  (∀ c ∈ name.text.toList.getLast?, isWhitespace c = false)
    ∧ marked name.text.toList = false

end JolietName

-- ======================================================== the identifier

theorem trimEnd_eq_self_iff {s : String} :
    trimEnd s = s ↔ ∀ c ∈ s.toList.getLast?, isWhitespace c = false := by
  unfold trimEnd
  rw [← String.toList_inj, String.toList_ofList,
    List.rdropWhile_eq_self_iff]
  constructor
  · intro h c hc
    obtain ⟨hne, rfl⟩ := List.mem_getLast?_eq_getLast hc
    exact Bool.eq_false_iff.mpr (h hne)
  · intro h hne
    exact Bool.eq_false_iff.mp (h _ (List.getLast_mem_getLast? hne))

/-- Trimming leaves a prefix. -/
theorem exists_of_trimEnd {s t : String} (h : trimEnd s = t) :
    ∃ more, s = String.ofList (t.toList ++ more) := by
  unfold trimEnd at h
  obtain ⟨more, hmore⟩ := List.rdropWhile_prefix isWhitespace s.toList
  refine ⟨more, ?_⟩
  rw [← h, String.toList_ofList, hmore, String.ofList_toList]

/-- An identifier of whole units goes through the decoder, whatever the
level. -/
theorem identifierText_joliet (hdecode : b.decodeUtf16be = utf16beDecode)
    (henc : enc ≠ .iso9660) (name : JolietName) :
    identifierText b enc name.bytes = (do
      Outcome.assert b.assertions (!(utf16beDecode name.bytes).2)
      .ok ([], trimEnd (utf16beDecode name.bytes).1)) := by
  have heven : name.bytes.length ≠ 1 := by
    unfold JolietName.bytes
    rw [length_ucs2Bytes]
    omega
  unfold identifierText
  rw [if_neg heven, ← hdecode]
  cases enc with
  | iso9660 => exact absurd rfl henc
  | ucs2Level1 | ucs2Level2 | ucs2Level3 => rfl

/-- Without a byte order mark in front the name is decoded and trimmed. -/
theorem identifierText_unmarked (hdecode : b.decodeUtf16be = utf16beDecode)
    (henc : enc ≠ .iso9660) {name : JolietName}
    (hmark : marked name.text.toList = false) :
    identifierText b enc name.bytes = .ok ([], trimEnd name.text) := by
  rw [identifierText_joliet hdecode henc]
  unfold JolietName.bytes
  rw [utf16beDecode_ucs2 name.oneUnit hmark]
  dsimp only
  rw [String.ofList_toList, Outcome.assert_of fun _ => Bool.not_false]
  rfl

/-- With something like one the name is not what is decoded. -/
theorem unmarked_of_identifierText
    (hdecode : b.decodeUtf16be = utf16beDecode) (henc : enc ≠ .iso9660)
    {name : JolietName} {left : Input}
    (h : identifierText b enc name.bytes = .ok (left, name.text)) :
    marked name.text.toList = false := by
  rw [identifierText_joliet hdecode henc] at h
  obtain ⟨_, -, h⟩ := Outcome.bind_eq_ok.mp h
  injection h with h
  injection h with _ h
  obtain ⟨more, hmore⟩ := exists_of_trimEnd h
  exact Bool.eq_false_iff.mpr fun hmark =>
    utf16beDecode_marked name.oneUnit hmark more hmore

-- ============================================================ the record

section Record

variable {header : DirectoryEntryHeader} {fixed padding area left : Input}
  {susp : Option (List SystemUseEntry)} (name : JolietName)

/-- A record with one of the three encodings whose identifier records a
name, over a decoder that looks for byte order marks. A name that does not
begin like one comes back without the white space at its end, and so it is
the name that was recorded if it does not end in any. -/
theorem directoryEntry_joliet
    (hdecode : b.decodeUtf16be = utf16beDecode)
    (henc : header.characterEncoding ≠ .iso9660)
    (hplain : b.assertions = true →
      header.interleaveGapSize = 0 ∧ header.fileUnitSize = 0)
    (hfixed : FixedFields b header fixed)
    (hpad : padding.length = pad name.bytes.length)
    (hlen : header.length.toNat = 33 + name.bytes.length
      + pad name.bytes.length + area.length)
    (hsusp : opt (systemUseEntries b) area = .ok (left, susp))
    (hmark : marked name.text.toList = false) (rest : Input) :
    directoryEntry b header.characterEncoding
        (fixed ++ UInt8.ofNat name.bytes.length
          :: (name.bytes ++ (padding ++ area)) ++ rest)
      = .ok (rest, header, trimEnd name.text, susp)
      ∧ (trimEnd name.text = name.text
        ↔ ∀ c ∈ name.text.toList.getLast?, isWhitespace c = false) := by
  refine ⟨?_, trimEnd_eq_self_iff⟩
  rw [directoryEntry_assembled hfixed hpad hlen
    (identifierText_unmarked hdecode henc hmark) hsusp]
  rw [Outcome.assert_of fun h => beq_iff_eq.mpr (hplain h).1,
    Outcome.assert_of fun h => beq_iff_eq.mpr (hplain h).2]
  rfl

/-- No other name comes back. -/
theorem unaltered_of_directoryEntry
    (hdecode : b.decodeUtf16be = utf16beDecode)
    (henc : header.characterEncoding ≠ .iso9660)
    (hfixed : FixedFields b header fixed)
    (hlen : header.length.toNat = 33 + name.bytes.length
      + pad name.bytes.length + area.length) {rest r : Input}
    (h : directoryEntry b header.characterEncoding
        (fixed ++ UInt8.ofNat name.bytes.length
          :: (name.bytes ++ (padding ++ area)) ++ rest)
      = .ok (r, header, name.text, susp)) :
    name.Unaltered := by
  have hn : (UInt8.ofNat name.bytes.length).toNat = name.bytes.length := by
    have hbyte := header.length.toNat_lt
    exact length_toNat (by omega)
  rw [List.append_assoc, List.cons_append, directoryEntry_fixed hfixed] at h
  obtain ⟨_, -, h⟩ := Outcome.bind_eq_ok.mp h
  obtain ⟨_, -, h⟩ := Outcome.bind_eq_ok.mp h
  obtain ⟨left, hid⟩ := variablePart_identifier h
  rw [hn, List.append_assoc, List.take_left] at hid
  have hmark := unmarked_of_identifierText hdecode henc hid
  rw [identifierText_unmarked hdecode henc hmark] at hid
  injection hid with hid
  injection hid with _ hid
  exact ⟨trimEnd_eq_self_iff.mp hid, hmark⟩

end Record

-- ========================================================= some records

/-- A build over that decoder. -/
def jolietBuild : Build :=
  { debugBuild with decodeUtf16be := utf16beDecode }

/-- The name `日`, which is as long as `AB` is on an ISO 9660 disc. -/
def sunName : JolietName := ⟨"日", by decide⟩

def sunHeader : DirectoryEntryHeader :=
  { abRecord.header with characterEncoding := .ucs2Level3 }

theorem directoryEntry_sunName :
    directoryEntry jolietBuild .ucs2Level3 (abRecord.fixed
        ++ 2 :: ([0x65, 0xE5] ++ ([0] ++ abRecord.area)) ++ [])
      = .ok ([], sunHeader, "日", abRecord.susp) := by
  have hfixed : FixedFields jolietBuild sunHeader abRecord.fixed :=
    abRecord.fixedFields.reencode _
  obtain ⟨left, hsusp⟩ := abRecord.area_read (b := jolietBuild)
  have hpad : ([0] : Input).length = pad sunName.bytes.length := rfl
  exact (directoryEntry_joliet sunName rfl (by decide)
    (fun _ => ⟨rfl, rfl⟩) hfixed hpad rfl hsusp (by decide) []).1

/-- The record of a file with an identifier, and without a system use
area. -/
def jolietRecord (identifier : Input) : Input :=
  [UInt8.ofNat (34 + identifier.length), 0, 30, 0, 0, 0, 0, 0, 0, 30,
    5, 0, 0, 0, 0, 0, 0, 5, 100, 1, 1, 0, 0, 0, 0, 0, 0, 0, 1, 0, 0, 1,
    UInt8.ofNat identifier.length] ++ identifier ++ [0]

/-- The name `a` followed by a space, or behind a byte order mark, is
decoded to `a`, which is the name of another file. -/
theorem joliet_collides :
    [['a'], ['a', ' '], ['\ufeff', 'a']].map (fun text =>
      (directoryEntry jolietBuild .ucs2Level3
        (jolietRecord (ucs2Bytes text))).map fun r => r.2.2.1)
      = [.ok "a", .ok "a", .ok "a"] := by
  decide +kernel

end Cdfs
