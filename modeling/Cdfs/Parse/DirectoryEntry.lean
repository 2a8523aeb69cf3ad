/-
The directory record parser (`parse/directory_entry.rs`): the fixed
fields, the identifier, the pad byte and the system use area.

`directoryEntry` is given everything from the record's first byte to
the end of the block, while the record's own end is a number in its
first byte. The main fact here is that the number decides: what is
parsed from the record alone is parsed from the record followed by
anything (`stable_directoryEntry`), and a record that parses is at least
34 bytes long and lies inside the input (`directoryEntry_length`).
-/
import Cdfs.Parse.Susp

namespace Cdfs.Parse

open Rust Nom

variable (b : Build)

namespace FileFlags
abbrev EXISTANCE : UInt8 := 0x01
abbrev DIRECTORY : UInt8 := 0x02
abbrev ASSOCIATED_FILE : UInt8 := 0x04
abbrev RECORD : UInt8 := 0x08
abbrev PROTECTION : UInt8 := 0x10
abbrev MULTIEXTENT : UInt8 := 0x80
/-- bits 5 and 6 are reserved -/
abbrev all : UInt8 := EXISTANCE ||| DIRECTORY ||| ASSOCIATED_FILE
  ||| RECORD ||| PROTECTION ||| MULTIEXTENT
end FileFlags

structure DirectoryEntryHeader where
  length : UInt8
  extendedAttributeRecordLength : UInt8
  extentLoc : UInt32
  extentLength : UInt32
  time : OffsetDateTime
  fileFlags : UInt8
  fileUnitSize : UInt8
  interleaveGapSize : UInt8
  volumeSequenceNumber : UInt16
  characterEncoding : CharacterEncoding
  deriving DecidableEq

/-- The identifier field. The single bytes 0 and 1 are the names of the
directory itself and of its parent and are not text. -/
def identifierText (enc : CharacterEncoding) : Parser String := fun bytes =>
  if bytes.length = 1 then
    alt [value "\x00" (tag [0]), value "\x01" (tag [1]), decodeString b enc]
      bytes
  else decodeString b enc bytes

/-- The pad byte after an identifier field, whose length byte is counted
in `identifierLen`. -/
def padding (identifierLen : Nat) : Parser Input := fun i =>
  if identifierLen % 2 = 0 then .ok (i, []) else take 1 i

/-- The system use area, which may be empty or malformed. -/
def systemUseArea (remainder : Nat) : Parser (Option (List SystemUseEntry)) :=
  mapParser (take remainder) (opt (systemUseEntries b))

/-- One directory record at the front of the input. -/
def directoryEntry (enc : CharacterEncoding) :
    Parser (DirectoryEntryHeader × String × Option (List SystemUseEntry)) :=
  fun i => do
    let origLen := i.length
    let (i, length) ← leU8 i
    let (i, extendedAttributeRecordLength) ← leU8 i
    let (i, extentLoc) ← bothEndian32 b i
    let (i, extentLength) ← bothEndian32 b i
    let (i, time) ← dateTime i
    let (i, fileFlags) ← leU8 i
    let fileFlags := fromBitsTruncate FileFlags.all fileFlags
    let (i, fileUnitSize) ← leU8 i
    let (i, interleaveGapSize) ← leU8 i
    let (i, volumeSequenceNumber) ← bothEndian16 b i
    Outcome.assert b.assertions (interleaveGapSize == 0)
    Outcome.assert b.assertions (fileUnitSize == 0)
    let identifierLen := i.length
    let (i, identifier) ← mapParser (lengthData leU8) (identifierText b enc) i
    let identifierLen := identifierLen - i.length
    let (i, _) ← padding identifierLen i
    let offset := origLen - i.length
    let remainder ← subW 64 b.overflowChecks length.toNat offset
    let (i, susp) ← systemUseArea b remainder i
    .ok (i, { length, extendedAttributeRecordLength, extentLoc,
              extentLength, time, fileFlags, fileUnitSize,
              interleaveGapSize, volumeSequenceNumber,
              characterEncoding := enc }, identifier, susp)

/-- `DirectoryEntryHeader::parse`. -/
def DirectoryEntryHeader.parse (input : Input) (enc : CharacterEncoding) :
    Outcome ISOError
      (DirectoryEntryHeader × String × Option (List SystemUseEntry)) := do
  let (_, r) ← liftNom (directoryEntry b enc input)
  .ok r

-- ==================================================== prefix independence

theorem stable_systemUseArea (remainder : Nat) :
    Stable (systemUseArea b remainder) :=
  (stable_take remainder).mapParser _

theorem stable_padding (identifierLen : Nat) :
    Stable (padding identifierLen) := by
  intro i r a x h
  unfold padding at h ⊢
  split at h
  case isTrue hpar =>
    rw [if_pos hpar]
    exact stable_done h
  case isFalse hpar =>
    rw [if_neg hpar]
    exact stable_take 1 i r a x h

/-- What is parsed from a record does not depend on what follows it. -/
theorem stable_directoryEntry (enc : CharacterEncoding) :
    Stable (directoryEntry b enc) := by
  intro i r a x h
  refine stable_leU8.step h fun i₁ length h => ?_
  refine stable_leU8.step h fun i₂ _ h => ?_
  refine (stable_bothEndian32 b).step h fun i₃ _ h => ?_
  refine (stable_bothEndian32 b).step h fun i₄ _ h => ?_
  refine stable_dateTime.step h fun i₅ _ h => ?_
  refine stable_leU8.step h fun i₆ _ h => ?_
  refine stable_leU8.step h fun i₇ _ h => ?_
  refine stable_leU8.step h fun i₈ _ h => ?_
  refine (stable_bothEndian16 b).step h fun i₉ _ h => ?_
  obtain ⟨_, hgap, h⟩ := Outcome.bind_eq_ok.mp h
  obtain ⟨_, hunit, h⟩ := Outcome.bind_eq_ok.mp h
  refine Outcome.bind_eq_ok.mpr ⟨_, hgap, ?_⟩
  refine Outcome.bind_eq_ok.mpr ⟨_, hunit, ?_⟩
  have hid := (stable_leU8.lengthData).mapParser (identifierText b enc)
  refine hid.step h fun i₁₀ _ h => ?_
  -- every length read from here on is a difference, so `x` cancels
  simp only [List.length_append, Nat.add_sub_add_right] at h ⊢
  refine (stable_padding _).step h fun i₁₁ _ h => ?_
  obtain ⟨remainder, hsub, h⟩ := Outcome.bind_eq_ok.mp h
  refine Outcome.bind_eq_ok.mpr ⟨remainder, ?_, ?_⟩
  · simpa only [List.length_append, Nat.add_sub_add_right] using hsub
  · refine (stable_systemUseArea b remainder).step h fun i₁₂ _ h => ?_
    exact stable_done h

-- ============================================================= the length

theorem width_padding (identifierLen : Nat) :
    Width (identifierLen % 2) (padding identifierLen) := by
  intro i r a h
  unfold padding at h
  split at h
  case isTrue hpar =>
    injection h with h
    injection h with hr _
    rw [hpar]
    exact ⟨Nat.zero_le _, hr.symm⟩
  case isFalse hpar =>
    have hone : identifierLen % 2 = 1 := by omega
    rw [hone]
    exact width_take 1 i r a h

/-- The identifier field is a length byte `n` and `n` bytes. -/
theorem identifier_field {enc : CharacterEncoding} {i r : Input} {id : String}
    (h : mapParser (lengthData leU8) (identifierText b enc) i = .ok (r, id)) :
    ∃ n, 1 + n ≤ i.length ∧ r = i.drop (1 + n) := by
  obtain ⟨⟨i', text⟩, hdata, h⟩ := Outcome.bind_eq_ok.mp h
  obtain ⟨_, -, h⟩ := Outcome.bind_eq_ok.mp h
  injection h with h
  injection h with hr _
  obtain ⟨n, hn, htext⟩ := lengthData_leU8_eq_ok hdata
  refine ⟨n.toNat, ?_, ?_⟩
  · rw [hn, List.length_cons, List.length_append]
    omega
  · rw [hn, ← hr, ← htext, Nat.add_comm, List.drop_succ_cons,
      List.drop_left]

/-- A record that parses has a length of at least 34 in its first byte
and lies inside the input; the parser consumes exactly the record. -/
theorem directoryEntry_length {enc : CharacterEncoding} {i r : Input}
    {header : DirectoryEntryHeader} {id : String}
    {susp : Option (List SystemUseEntry)} (hi : i.length < 2 ^ 64)
    (h : directoryEntry b enc i = .ok (r, header, id, susp)) :
    34 ≤ header.length.toNat ∧ header.length.toNat ≤ i.length
      ∧ r = i.drop header.length.toNat ∧ i.head? = some header.length := by
  obtain ⟨length, h₁, hhead, h⟩ := width_leU8.step h
  obtain ⟨_, h₂, -, h⟩ := width_leU8.step h
  obtain ⟨_, h₃, -, h⟩ := (width_bothEndian32 b).step h
  obtain ⟨_, h₄, -, h⟩ := (width_bothEndian32 b).step h
  obtain ⟨_, h₅, -, h⟩ := width_dateTime.step h
  obtain ⟨_, h₆, -, h⟩ := width_leU8.step h
  obtain ⟨_, h₇, -, h⟩ := width_leU8.step h
  obtain ⟨_, h₈, -, h⟩ := width_leU8.step h
  obtain ⟨_, h₉, -, h⟩ := (width_bothEndian16 b).step h
  obtain ⟨_, -, h⟩ := Outcome.bind_eq_ok.mp h
  obtain ⟨_, -, h⟩ := Outcome.bind_eq_ok.mp h
  simp only [List.drop_drop, List.length_drop] at h h₂ h₃ h₄ h₅ h₆ h₇ h₈ h₉
  obtain ⟨⟨i₁₀, id'⟩, hid, h⟩ := Outcome.bind_eq_ok.mp h
  obtain ⟨n, hn⟩ := identifier_field b hid
  obtain ⟨_, h₁₁, -, h⟩ := (width_padding _).step h
  obtain ⟨remainder, hsub, h⟩ := Outcome.bind_eq_ok.mp h
  obtain ⟨_, h₁₂, -, h⟩ :=
    ((width_take remainder).mapParser (opt (systemUseEntries b))).step h
  injection h with h
  injection h with hr h
  injection h with hheader _
  subst hheader
  dsimp only at h₁₁ hsub h₁₂ hr ⊢
  have hfield : 33 + n ≤ i.length := by
    have hn₁ := hn.1
    rw [List.length_drop] at hn₁
    omega
  have hid : i₁₀ = i.drop (33 + n) := by
    rw [hn.2, List.drop_drop]
    congr 1
    omega
  have hlen : i₁₀.length = i.length - (33 + n) := by
    rw [hid, List.length_drop]
  have hpar : i.length - (1 + 1 + 8 + 8 + 7 + 1 + 1 + 1 + 4) - i₁₀.length
      = 1 + n := by omega
  simp only [List.length_drop] at h₁₁ hsub h₁₂
  rw [hpar] at h₁₁ hsub h₁₂ hr
  rw [hlen] at h₁₁ hsub h₁₂
  have hr' : r = i.drop (33 + n + (1 + n) % 2 + remainder) := by
    rw [← hr, hid, List.drop_drop, List.drop_drop]
    congr 1
    omega
  -- a wrapped remainder is larger than any input, so it was not wrapped
  rcases subW_eq_ok hsub with ⟨hle, hrem⟩ | ⟨hlt, hrem⟩
  · have htotal : 33 + n + (1 + n) % 2 + remainder = length.toNat := by
      omega
    refine ⟨by omega, by omega, htotal ▸ hr', ?_⟩
    match i with
    | [] => simp at h₁
    | c :: i =>
        injection hhead with hhead
        injection hhead with _ hc
        rw [hc]
        rfl
  · omega

/-- The header keeps the encoding it was parsed with. -/
theorem directoryEntry_encoding {enc : CharacterEncoding} {i r : Input}
    {header : DirectoryEntryHeader} {id : String}
    {susp : Option (List SystemUseEntry)}
    (h : directoryEntry b enc i = .ok (r, header, id, susp)) :
    header.characterEncoding = enc := by
  obtain ⟨_, -, h⟩ := Outcome.bind_eq_ok.mp h
  obtain ⟨_, -, h⟩ := Outcome.bind_eq_ok.mp h
  obtain ⟨_, -, h⟩ := Outcome.bind_eq_ok.mp h
  obtain ⟨_, -, h⟩ := Outcome.bind_eq_ok.mp h
  obtain ⟨_, -, h⟩ := Outcome.bind_eq_ok.mp h
  obtain ⟨_, -, h⟩ := Outcome.bind_eq_ok.mp h
  obtain ⟨_, -, h⟩ := Outcome.bind_eq_ok.mp h
  obtain ⟨_, -, h⟩ := Outcome.bind_eq_ok.mp h
  obtain ⟨_, -, h⟩ := Outcome.bind_eq_ok.mp h
  obtain ⟨_, -, h⟩ := Outcome.bind_eq_ok.mp h
  obtain ⟨_, -, h⟩ := Outcome.bind_eq_ok.mp h
  obtain ⟨_, -, h⟩ := Outcome.bind_eq_ok.mp h
  obtain ⟨_, -, h⟩ := Outcome.bind_eq_ok.mp h
  obtain ⟨_, -, h⟩ := Outcome.bind_eq_ok.mp h
  obtain ⟨_, -, h⟩ := Outcome.bind_eq_ok.mp h
  injection h with h
  injection h with _ h
  injection h with h _
  rw [← h]

-- ========================================================= termination

theorem identifierText_ne_running (enc : CharacterEncoding) (i : Input) :
    identifierText b enc i ≠ .running := by
  unfold identifierText
  split
  · refine Ends.returns (ends_alt fun p hp => ?_) i
    simp only [List.mem_cons, List.not_mem_nil, or_false] at hp
    rcases hp with rfl | rfl | rfl
    · exact (ends_tag _).value _
    · exact (ends_tag _).value _
    · exact ends_decodeString b enc
  · exact (ends_decodeString b enc).returns i

theorem ends_padding (identifierLen : Nat) : Ends (padding identifierLen) := by
  refine (width_padding identifierLen).ends fun i h => ?_
  unfold padding at h
  split at h
  · cases h
  · exact (ends_take 1).returns i h

theorem ends_systemUseArea (remainder : Nat) :
    Ends (systemUseArea b remainder) :=
  (ends_take remainder).mapParser (ends_systemUseEntries b).opt.returns

/-- The record parser always comes to a result. -/
theorem directoryEntry_ne_running (enc : CharacterEncoding) (i : Input) :
    directoryEntry b enc i ≠ .running := by
  refine step_ne_running (ends_leU8.returns _) fun _ _ => ?_
  refine step_ne_running (ends_leU8.returns _) fun _ _ => ?_
  refine step_ne_running ((ends_bothEndian32 b).returns _) fun _ _ => ?_
  refine step_ne_running ((ends_bothEndian32 b).returns _) fun _ _ => ?_
  refine step_ne_running (ends_dateTime.returns _) fun _ _ => ?_
  refine step_ne_running (ends_leU8.returns _) fun _ _ => ?_
  refine step_ne_running (ends_leU8.returns _) fun _ _ => ?_
  refine step_ne_running (ends_leU8.returns _) fun _ _ => ?_
  refine step_ne_running ((ends_bothEndian16 b).returns _) fun _ _ => ?_
  refine Outcome.bind_ne_running (Outcome.assert_ne_running _ _) fun _ => ?_
  refine Outcome.bind_ne_running (Outcome.assert_ne_running _ _) fun _ => ?_
  refine step_ne_running ((ends_leU8.lengthData.mapParser
    (identifierText_ne_running b enc)).returns _) fun _ _ => ?_
  refine step_ne_running ((ends_padding _).returns _) fun _ _ => ?_
  refine Outcome.bind_ne_running (subW_ne_running _ _ _ _) fun _ => ?_
  refine step_ne_running ((ends_systemUseArea b _).returns _) fun _ _ => ?_
  exact fun h => nomatch h

end Cdfs.Parse
