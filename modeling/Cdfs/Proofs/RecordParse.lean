/-
What the record parser makes of any input (`parse/directory_entry.rs`).

The 32 bytes in front of the identifier hold fields of fixed width, and
any bytes are such fields (`FixedFields`). Behind them everything hangs
on two lengths: the identifier's own, and the record's, from which the
parser takes away what it has read. `variablePart` is the parser from
there on with the two lengths as numbers.

The subtraction is where a record that is too short for its own
identifier ends: it has no result, so a build that checks overflow
panics, and one that does not goes on with a remainder that no input
has.
-/
import Cdfs.Parse.DirectoryEntry
import Cdfs.Proofs.SuspTotality

namespace Cdfs

open Rust Parse Nom

variable {b : Build} {enc : CharacterEncoding}

-- ===================================================== the fixed fields

/-- The bytes of a header's fields, in front of the identifier. -/
inductive FixedFields (b : Build) : DirectoryEntryHeader → Input → Prop
  | mk {header : DirectoryEntryHeader} {loc len time seq : Input}
      {flags : UInt8}
      (hloc : Takes (bothEndian32 b) loc header.extentLoc)
      (hlen : Takes (bothEndian32 b) len header.extentLength)
      (htime : Takes dateTime time header.time)
      (hflags : fromBitsTruncate FileFlags.all flags = header.fileFlags)
      (hseq : Takes (bothEndian16 b) seq header.volumeSequenceNumber)
      (hwidth : loc.length + len.length + time.length + seq.length = 27) :
      FixedFields b header (header.length
        :: header.extendedAttributeRecordLength
        :: (loc ++ (len ++ (time ++ (flags :: header.fileUnitSize
          :: header.interleaveGapSize :: seq)))))

/-- They do not say how the identifier is encoded. -/
theorem FixedFields.reencode {header : DirectoryEntryHeader} {bytes : Input}
    (h : FixedFields b header bytes) (enc : CharacterEncoding) :
    FixedFields b { header with characterEncoding := enc } bytes := by
  cases h with
  | mk hloc hlen htime hflags hseq hwidth =>
      exact .mk hloc hlen htime hflags hseq hwidth

/-- They start with the length of the record. -/
theorem FixedFields.head_eq {header : DirectoryEntryHeader} {bytes : Input}
    (h : FixedFields b header bytes) : bytes.head? = some header.length := by
  cases h
  rfl

theorem exists_append {m n : Nat} {bytes : Input}
    (h : bytes.length = m + n) :
    ∃ l r, bytes = l ++ r ∧ l.length = m ∧ r.length = n := by
  refine ⟨bytes.take m, bytes.drop m, (List.take_append_drop _ _).symm,
    ?_, ?_⟩
  · rw [List.length_take]
    omega
  · rw [List.length_drop]
    omega

/-- Any 32 bytes are the fields of some header. -/
theorem exists_fixedFields (b : Build) (enc : CharacterEncoding)
    {bytes : Input} (h : bytes.length = 32) :
    ∃ header, FixedFields b header bytes
      ∧ header.characterEncoding = enc := by
  obtain ⟨head, bytes, rfl, hhead, h⟩ := exists_append (m := 2) (n := 30) h
  obtain ⟨loc, bytes, rfl, hlocl, h⟩ := exists_append (m := 8) (n := 22) h
  obtain ⟨len, bytes, rfl, hlenl, h⟩ := exists_append (m := 8) (n := 14) h
  obtain ⟨time, bytes, rfl, htimel, h⟩ := exists_append (m := 7) (n := 7) h
  obtain ⟨mid, seq, rfl, hmid, hseql⟩ := exists_append (m := 3) (n := 4) h
  obtain ⟨extentLoc, hloc⟩ := (field_bothEndian32 b).takes loc hlocl
  obtain ⟨extentLength, hlen⟩ := (field_bothEndian32 b).takes len hlenl
  obtain ⟨recorded, htime⟩ := field_dateTime.takes time htimel
  obtain ⟨number, hseq⟩ := (field_bothEndian16 b).takes seq hseql
  have hwidth : loc.length + len.length + time.length + seq.length = 27 := by
    omega
  match head, mid with
  | [length, ext], [flags, unit, gap] =>
      exact ⟨⟨length, ext, extentLoc, extentLength, recorded,
        fromBitsTruncate FileFlags.all flags, unit, gap, number, enc⟩,
        .mk hloc hlen htime rfl hseq hwidth, rfl⟩

-- ==================================================== the variable part

/-- Whether an identifier of `n` bytes is followed by a pad byte. -/
def pad (n : Nat) : Nat := (1 + n) % 2

/-- Reading from behind the length byte `n` of the identifier on. -/
def variablePart (b : Build) (header : DirectoryEntryHeader) (n : UInt8) :
    Parser (DirectoryEntryHeader × String × Option (List SystemUseEntry)) :=
  fun i =>
    if n.toNat ≤ i.length then do
      let (_, identifier) ← identifierText b header.characterEncoding
        (i.take n.toNat)
      let (i, _) ← padding (1 + n.toNat) (i.drop n.toNat)
      let remainder ← subW 64 b.overflowChecks header.length.toNat
        (33 + n.toNat + pad n.toNat)
      let (i, susp) ← systemUseArea b remainder i
      .ok (i, header, identifier, susp)
    else .err .incomplete

/-- The parser is the fixed fields, what is asserted of them, and the
variable part. -/
theorem directoryEntry_fixed {header : DirectoryEntryHeader} {bytes : Input}
    (h : FixedFields b header bytes) (n : UInt8) (rest : Input) :
    directoryEntry b header.characterEncoding (bytes ++ n :: rest)
      = (do
        Outcome.assert b.assertions (header.interleaveGapSize == 0)
        Outcome.assert b.assertions (header.fileUnitSize == 0)
        variablePart b header n rest) := by
  cases h with
  | @mk loc len time seq flags hloc hlen htime hflags hseq hwidth =>
      have hlist : (header.length :: header.extendedAttributeRecordLength
          :: (loc ++ (len ++ (time ++ (flags :: header.fileUnitSize
            :: header.interleaveGapSize :: seq))))) ++ n :: rest
          = header.length :: header.extendedAttributeRecordLength
          :: (loc ++ (len ++ (time ++ (flags :: header.fileUnitSize
            :: header.interleaveGapSize :: (seq ++ n :: rest))))) := by
        simp only [List.cons_append, List.append_assoc]
      rw [hlist]
      unfold directoryEntry
      simp only [leU8, Outcome.ok_bind]
      rw [hloc, Outcome.ok_bind]
      dsimp only
      rw [hlen, Outcome.ok_bind]
      dsimp only
      rw [htime, Outcome.ok_bind]
      simp only [Outcome.ok_bind]
      rw [hseq, Outcome.ok_bind]
      simp only [hflags]
      congr 1
      funext _
      congr 1
      funext _
      unfold variablePart mapParser lengthData
      simp only [leU8, Outcome.ok_bind]
      split
      · rename_i hn
        simp only [Outcome.ok_bind]
        have hone : (n :: rest).length - (rest.drop n.toNat).length
            = 1 + n.toNat := by
          rw [List.length_cons, List.length_drop]
          omega
        cases identifierText b header.characterEncoding
          (rest.take n.toNat) with
        | err e | panic | running => rfl
        | ok id =>
            simp only [Outcome.ok_bind]
            rw [hone]
            cases hpad : padding (1 + n.toNat) (rest.drop n.toNat) with
            | err e | panic | running => rfl
            | ok r =>
                obtain ⟨i, x⟩ := r
                obtain ⟨hle, hi⟩ := width_padding _ _ _ _ hpad
                rw [List.length_drop] at hle
                -- what is left tells how much has been read
                have hread : (header.length
                    :: header.extendedAttributeRecordLength
                    :: (loc ++ (len ++ (time ++ (flags
                      :: header.fileUnitSize :: header.interleaveGapSize
                      :: (seq ++ n :: rest)))))).length - i.length
                    = 33 + n.toNat + pad n.toNat := by
                  rw [hi]
                  simp only [List.length_cons, List.length_append,
                    List.length_drop, pad]
                  omega
                simp only [Outcome.ok_bind]
                rw [hread]
      · rfl

-- ================================================= what becomes of it

/-- Without assertions text is decoded or it is an error. -/
theorem never_decodeString (hoff : b.assertions = false)
    (enc : CharacterEncoding) (t : Trouble) :
    Never t (decodeString b enc) := by
  cases enc with
  | iso9660 => exact (never_rest.mapRes _).map _
  | ucs2Level1 | ucs2Level2 | ucs2Level3 =>
      refine never_rest.step fun input => ?_
      refine Never.check (fun _ h => ?_) fun _ => never_done _
      rw [hoff] at h
      exact t.ne_ok _ h

/-- So is the identifier. -/
theorem identifierText_ok_or_error (hoff : b.assertions = false)
    (enc : CharacterEncoding) (i : Input) :
    (∃ r, identifierText b enc i = .ok r)
      ∨ ∃ kind, identifierText b enc i = .err (.error kind) := by
  have hdecode := never_decodeString hoff enc
  refine ok_or_error (identifierText_ne_running b enc) (fun t i => ?_) i
  unfold identifierText
  split
  · refine never_alt (fun p hp => ?_) i
    simp only [List.mem_cons, List.not_mem_nil, or_false] at hp
    rcases hp with rfl | rfl | rfl
    · exact (never_tag _).value _
    · exact (never_tag _).value _
    · exact hdecode t
  · exact hdecode t i

theorem padding_eq (n : Nat) (i : Input) :
    (∃ x, padding (1 + n) i = .ok (i.drop (pad n), x))
      ∧ pad n ≤ i.length
      ∨ padding (1 + n) i = .err (.error .eof) ∧ i.length < pad n := by
  unfold padding pad
  split
  · rename_i heven
    rw [heven]
    exact Or.inl ⟨⟨[], rfl⟩, Nat.zero_le _⟩
  · have hone : (1 + n) % 2 = 1 := by omega
    rw [hone]
    unfold take
    split
    · rename_i hle
      exact Or.inl ⟨⟨_, rfl⟩, hle⟩
    · rename_i hle
      exact Or.inr ⟨rfl, Nat.lt_of_not_le hle⟩

/-- Behind an identifier that is text and its pad byte. -/
theorem variablePart_identified {header : DirectoryEntryHeader} {n : UInt8}
    {rest r : Input} {id : String}
    (hid : identifierText b header.characterEncoding (rest.take n.toNat)
      = .ok (r, id)) (hfits : n.toNat + pad n.toNat ≤ rest.length) :
    variablePart b header n rest = (do
      let remainder ← subW 64 b.overflowChecks header.length.toNat
        (33 + n.toNat + pad n.toNat)
      let (i, susp) ← systemUseArea b remainder
        (rest.drop (n.toNat + pad n.toNat))
      .ok (i, header, id, susp)) := by
  unfold variablePart
  rw [if_pos (by omega), hid, Outcome.ok_bind]
  rcases padding_eq n.toNat (rest.drop n.toNat) with ⟨⟨x, hpad⟩, -⟩ | h
  · dsimp only
    rw [hpad, Outcome.ok_bind]
    dsimp only
    rw [List.drop_drop]
  · have hlt := h.2
    rw [List.length_drop] at hlt
    omega

/-- The system use area of a record, by its length and its identifier's. -/
def suspArea (length : Nat) (n : Nat) (rest : Input) : Input :=
  (rest.drop (n + pad n)).take (length - (33 + n + pad n))

/-- A record that is as long as its parts and not longer than the input:
its area decides. -/
theorem variablePart_area {header : DirectoryEntryHeader} {n : UInt8}
    {rest r : Input} {id : String}
    (hid : identifierText b header.characterEncoding (rest.take n.toNat)
      = .ok (r, id))
    (hlong : 33 + n.toNat + pad n.toNat ≤ header.length.toNat)
    (hfits : header.length.toNat ≤ 33 + rest.length) :
    variablePart b header n rest = (do
      let (_, susp) ← opt (systemUseEntries b)
        (suspArea header.length.toNat n.toNat rest)
      .ok (rest.drop (header.length.toNat - 33), header, id, susp)) := by
  rw [variablePart_identified hid (by omega), subW_of_le hlong,
    Outcome.ok_bind]
  unfold systemUseArea mapParser suspArea
  rw [take_of_le (by rw [List.length_drop]; omega), Outcome.ok_bind,
    List.drop_drop]
  have hsum : n.toNat + pad n.toNat
      + (header.length.toNat - (33 + n.toNat + pad n.toNat))
      = header.length.toNat - 33 := by omega
  rw [hsum, Outcome.bind_assoc]
  rfl

theorem variablePart_whole {header : DirectoryEntryHeader} {n : UInt8}
    {rest r r' : Input} {id : String} {susp : Option (List SystemUseEntry)}
    (hid : identifierText b header.characterEncoding (rest.take n.toNat)
      = .ok (r, id))
    (hlong : 33 + n.toNat + pad n.toNat ≤ header.length.toNat)
    (hfits : header.length.toNat ≤ 33 + rest.length)
    (hsusp : opt (systemUseEntries b)
      (suspArea header.length.toNat n.toNat rest) = .ok (r', susp)) :
    variablePart b header n rest
      = .ok (rest.drop (header.length.toNat - 33), header, id, susp) := by
  rw [variablePart_area hid hlong hfits, hsusp]
  rfl

/-- A record put together from its parts is read to its end, whatever is
behind it, if it gets past the assertions. -/
theorem directoryEntry_assembled {header : DirectoryEntryHeader}
    {fixed name padding area r r' : Input} {id : String}
    {susp : Option (List SystemUseEntry)}
    (hfixed : FixedFields b header fixed)
    (hpad : padding.length = pad name.length)
    (hlen : header.length.toNat
      = 33 + name.length + pad name.length + area.length)
    (hid : identifierText b header.characterEncoding name = .ok (r, id))
    (hsusp : opt (systemUseEntries b) area = .ok (r', susp)) (rest : Input) :
    directoryEntry b header.characterEncoding
        (fixed ++ UInt8.ofNat name.length :: (name ++ (padding ++ area))
          ++ rest)
      = (do
        Outcome.assert b.assertions (header.interleaveGapSize == 0)
        Outcome.assert b.assertions (header.fileUnitSize == 0)
        .ok (rest, header, id, susp)) := by
  have hbyte := header.length.toNat_lt
  have hn : (UInt8.ofNat name.length).toNat = name.length :=
    length_toNat (by omega)
  have hsplit : fixed ++ UInt8.ofNat name.length
        :: (name ++ (padding ++ area)) ++ rest
      = fixed ++ UInt8.ofNat name.length
        :: (name ++ (padding ++ (area ++ rest))) := by
    simp only [List.append_assoc, List.cons_append]
  have hbehind : (name ++ (padding ++ (area ++ rest))).drop
      (name.length + pad name.length) = area ++ rest := by
    rw [← List.drop_drop, List.drop_left]
    exact List.drop_left' hpad
  have harea : suspArea header.length.toNat name.length
      (name ++ (padding ++ (area ++ rest))) = area := by
    unfold suspArea
    rw [hbehind, hlen, Nat.add_sub_cancel_left, List.take_left]
  have hwhole : variablePart b header (UInt8.ofNat name.length)
        (name ++ (padding ++ (area ++ rest)))
      = .ok ((name ++ (padding ++ (area ++ rest))).drop
          (header.length.toNat - 33), header, id, susp) := by
    refine variablePart_whole (by rw [hn, List.take_left]; exact hid) ?_ ?_
      (by rw [hn, harea]; exact hsusp)
    · rw [hn, hlen]
      exact Nat.le_add_right _ _
    · simp only [List.length_append]
      omega
  have hdrop : (name ++ (padding ++ (area ++ rest))).drop
      (header.length.toNat - 33) = rest := by
    have hsum : header.length.toNat - 33
        = name.length + pad name.length + area.length := by omega
    rw [hsum, ← List.drop_drop, hbehind, List.drop_left]
  rw [hsplit, directoryEntry_fixed hfixed, hwhole, hdrop]

/-- What becomes of a record whose length is not below its parts': it is
taken whole, and nothing behind it matters, unless its area wants more
bytes; or it is an error. -/
theorem variablePart_cases (hoff : b.assertions = false)
    {header : DirectoryEntryHeader} {n : UInt8} {rest : Input}
    (hquiet : systemUseEntries b
      (suspArea header.length.toNat n.toNat rest) ≠ .panic)
    (hlong : 33 + n.toNat + pad n.toNat ≤ 33 + rest.length →
      (∃ r, identifierText b header.characterEncoding (rest.take n.toNat)
        = .ok r) →
      33 + n.toNat + pad n.toNat ≤ header.length.toNat) :
    (33 + n.toNat + pad n.toNat ≤ header.length.toNat
        ∧ header.length.toNat ≤ 33 + rest.length
        ∧ (∃ r, identifierText b header.characterEncoding
          (rest.take n.toNat) = .ok r)
        ∧ ((∃ x, ∀ rest' : Input, rest'.take (header.length.toNat - 33)
              = rest.take (header.length.toNat - 33) →
            variablePart b header n rest'
              = .ok (rest'.drop (header.length.toNat - 33), x))
          ∨ systemUseEntries b (suspArea header.length.toNat n.toNat rest)
              = .err .incomplete
            ∧ variablePart b header n rest = .err .incomplete))
      ∨ ∃ e, variablePart b header n rest = .err e
        ∧ (n.toNat ≤ rest.length → ∃ kind, e = .error kind) := by
  by_cases hn : n.toNat ≤ rest.length
  case neg =>
    exact Or.inr ⟨.incomplete, if_neg hn, fun h => absurd h hn⟩
  rcases identifierText_ok_or_error hoff header.characterEncoding
    (rest.take n.toNat) with ⟨⟨r, id⟩, hid⟩ | ⟨kind, hid⟩
  case inr =>
    refine Or.inr ⟨.error kind, ?_, fun _ => ⟨kind, rfl⟩⟩
    unfold variablePart
    rw [if_pos hn, hid, Outcome.err_bind]
  rcases padding_eq n.toNat (rest.drop n.toNat) with ⟨-, hpad⟩ | ⟨hpad, -⟩
  case inr =>
    refine Or.inr ⟨.error .eof, ?_, fun _ => ⟨.eof, rfl⟩⟩
    unfold variablePart
    rw [if_pos hn, hid, Outcome.ok_bind]
    dsimp only
    rw [hpad, Outcome.err_bind]
  rw [List.length_drop] at hpad
  have hused := hlong (by omega) ⟨_, hid⟩
  by_cases hfits : header.length.toNat ≤ 33 + rest.length
  case neg =>
    refine Or.inr ⟨.error .eof, ?_, fun _ => ⟨.eof, rfl⟩⟩
    rw [variablePart_identified hid (by omega), subW_of_le hused,
      Outcome.ok_bind]
    unfold systemUseArea mapParser take
    rw [if_neg (by rw [List.length_drop]; omega), Outcome.err_bind,
      Outcome.err_bind]
  refine Or.inl ⟨hused, hfits, ⟨_, hid⟩, ?_⟩
  by_cases hcut : systemUseEntries b
      (suspArea header.length.toNat n.toNat rest) = .err .incomplete
  case pos =>
    refine Or.inr ⟨hcut, ?_⟩
    rw [variablePart_area hid hused hfits]
    unfold opt
    rw [hcut]
    rfl
  obtain ⟨⟨r', susp⟩, hsusp⟩ := opt_eq_ok (ends_systemUseEntries b)
    fun t => match t with
      | .incomplete => hcut
      | .panic => hquiet
  refine Or.inl ⟨⟨header, id, susp⟩, fun rest' hrest' => ?_⟩
  -- a prefix of the record's length has the same parts
  have hlen := congrArg List.length hrest'
  simp only [List.length_take] at hlen
  have hname : rest'.take n.toNat = rest.take n.toNat := by
    have h := congrArg (List.take n.toNat) hrest'
    rwa [List.take_take, List.take_take, Nat.min_eq_left (by omega)] at h
  have harea : suspArea header.length.toNat n.toNat rest'
      = suspArea header.length.toNat n.toNat rest := by
    have h := congrArg (List.drop (n.toNat + pad n.toNat)) hrest'
    rw [List.drop_take, List.drop_take] at h
    have hsub : header.length.toNat - 33 - (n.toNat + pad n.toNat)
        = header.length.toNat - (33 + n.toNat + pad n.toNat) := by omega
    rwa [hsub] at h
  exact variablePart_whole (hname ▸ hid) hused (by omega) (harea ▸ hsusp)

-- ========================================================= any input

/-- The length byte of a record, and that of its identifier. -/
def recordLength (i : Input) : Nat := (i.headD 0).toNat

def nameLength (i : Input) : Nat := ((i.drop 32).headD 0).toNat

/-- The identifier of the record at the front of an input. -/
def nameBytes (i : Input) : Input := (i.drop 33).take (nameLength i)

/-- What an identifier is parsed to is the text of its bytes. -/
theorem variablePart_identifier {header header' : DirectoryEntryHeader}
    {n : UInt8} {i r : Input} {id : String}
    {area : Option (List SystemUseEntry)}
    (h : variablePart b header n i = .ok (r, header', id, area)) :
    ∃ left, identifierText b header.characterEncoding (i.take n.toNat)
      = .ok (left, id) := by
  unfold variablePart at h
  split at h
  · obtain ⟨⟨left, id'⟩, hid, h⟩ := Outcome.bind_eq_ok.mp h
    obtain ⟨_, -, h⟩ := Outcome.bind_eq_ok.mp h
    obtain ⟨_, -, h⟩ := Outcome.bind_eq_ok.mp h
    obtain ⟨_, -, h⟩ := Outcome.bind_eq_ok.mp h
    injection h with h
    injection h with _ h
    injection h with _ h
    injection h with h _
    rw [← h]
    exact ⟨left, hid⟩
  · cases h

/-- So is a record's. -/
theorem directoryEntry_identifier {i r : Input}
    {header : DirectoryEntryHeader} {id : String}
    {area : Option (List SystemUseEntry)} (hi : i.length < 2 ^ 64)
    (h : directoryEntry b enc i = .ok (r, header, id, area)) :
    ∃ left, identifierText b enc (nameBytes i) = .ok (left, id) := by
  have hlen := directoryEntry_length b hi h
  obtain ⟨fixed, i, rfl, hfixed, hi⟩ :=
    exists_append (show i.length = 32 + (i.length - 32) by omega)
  rw [List.length_append] at hlen hi
  match i with
  | [] =>
      rw [List.length_nil] at hlen
      omega
  | n :: i =>
      obtain ⟨fields, hfields, rfl⟩ := exists_fixedFields b enc hfixed
      have hdrop : (fixed ++ n :: i).drop 33 = i := by
        rw [← List.drop_drop (i := 1), ← hfixed, List.drop_left]
        rfl
      have hname : nameLength (fixed ++ n :: i) = n.toNat := by
        unfold nameLength
        rw [← hfixed, List.drop_left]
        rfl
      rw [directoryEntry_fixed hfields] at h
      obtain ⟨_, -, h⟩ := Outcome.bind_eq_ok.mp h
      obtain ⟨_, -, h⟩ := Outcome.bind_eq_ok.mp h
      unfold nameBytes
      rw [hdrop, hname]
      exact variablePart_identifier h

/-- The system use area of the record at the front of an input. -/
def areaOf (i : Input) : Input :=
  suspArea (recordLength i) (nameLength i) (i.drop 33)

/-- A whole record at the front of an input, with this header and this
identifier, whatever is in its system use area. -/
structure RecordAt (b : Build) (enc : CharacterEncoding) (i : Input)
    (header : DirectoryEntryHeader) (identifier : String) : Prop where
  long : 33 + nameLength i + pad (nameLength i) ≤ recordLength i
  fits : recordLength i ≤ i.length
  fields : FixedFields b header (i.take 32)
  encoding : header.characterEncoding = enc
  text : ∃ left, identifierText b enc (nameBytes i) = .ok (left, identifier)
  asserted : b.assertions = true →
    header.interleaveGapSize = 0 ∧ header.fileUnitSize = 0

/-- It is parsed as its area is decoded. -/
theorem RecordAt.directoryEntry_eq {i : Input}
    {header : DirectoryEntryHeader} {identifier : String}
    (h : RecordAt b enc i header identifier) :
    directoryEntry b enc i = (do
      let (_, susp) ← opt (systemUseEntries b) (areaOf i)
      .ok (i.drop (recordLength i), header, identifier, susp)) := by
  obtain ⟨hlong, hfits, hfields, henc, ⟨left, htext⟩, hasserted⟩ := h
  have hlength : header.length.toNat = recordLength i := by
    have hhead := hfields.head_eq
    rw [List.head?_take, if_neg (by decide)] at hhead
    unfold recordLength
    rw [List.headD_eq_head?_getD, hhead]
    rfl
  have hsplit : i = i.take 32 ++ (i.drop 32).headD 0 :: i.drop 33 := by
    have hlen : 32 < i.length := by omega
    conv_lhs => rw [← List.take_append_drop 32 i]
    rw [List.drop_eq_getElem_cons hlen, List.headD_cons]
  have hpass : ∀ {x : UInt8}, (b.assertions = true → x = 0) →
      (Outcome.assert b.assertions (x == 0) : Outcome Err Unit)
        = .ok () := by
    intro x hx
    cases hon : b.assertions with
    | true => rw [hx hon]; rfl
    | false => rfl
  rw [hsplit, ← henc, directoryEntry_fixed hfields,
    hpass fun hon => (hasserted hon).1, hpass fun hon => (hasserted hon).2,
    Outcome.ok_bind, Outcome.ok_bind, ← hsplit]
  unfold nameBytes nameLength at htext
  rw [variablePart_area (henc ▸ htext) (by rw [hlength]; exact hlong)
    (by rw [List.length_drop]; omega), List.drop_drop, hlength,
    show 33 + (recordLength i - 33) = recordLength i by omega]
  rfl

/-- Without assertions an input is a header's fields and the variable
part behind them. -/
theorem directoryEntry_parts (hoff : b.assertions = false)
    (enc : CharacterEncoding) {i : Input} (h : 33 ≤ i.length) :
    ∃ (header : DirectoryEntryHeader) (n : UInt8),
      header.characterEncoding = enc
      ∧ header.length.toNat = recordLength i ∧ n.toNat = nameLength i
      ∧ ∀ rest, directoryEntry b enc (i.take 33 ++ rest)
        = variablePart b header n rest := by
  obtain ⟨fixed, i, rfl, hfixed, hi⟩ :=
    exists_append (show i.length = 32 + (i.length - 32) by omega)
  rw [List.length_append] at h hi
  match i with
  | [] => simp at h; omega
  | n :: i =>
      obtain ⟨header, hfields, henc⟩ := exists_fixedFields b enc hfixed
      refine ⟨header, n, henc, ?_, ?_, fun rest => ?_⟩
      · cases hfields
        rfl
      · unfold nameLength
        rw [← hfixed, List.drop_left]
        rfl
      · have htake : (fixed ++ n :: i).take 33 = fixed ++ [n] := by
          rw [List.take_append, hfixed,
            List.take_of_length_le (by omega)]
          rfl
        rw [htake, List.append_assoc, List.singleton_append, ← henc,
          directoryEntry_fixed hfields, hoff]
        rfl

/-- An input that ends before the identifier's length byte. -/
theorem directoryEntry_short (hoff : b.assertions = false)
    (enc : CharacterEncoding) {i : Input} (h : i.length < 33) :
    directoryEntry b enc i = .err (.error .eof) := by
  have hlen : i.length < 1 + (1 + (8 + (8 + (7 + (1 + (1 + (1 + (4 + 1))))))))
    := h
  unfold directoryEntry
  refine field_leU8.short_step (fun _ i hi => ?_) hlen
  refine field_leU8.short_step (fun _ i hi => ?_) hi
  refine (field_bothEndian32 b).short_step (fun _ i hi => ?_) hi
  refine (field_bothEndian32 b).short_step (fun _ i hi => ?_) hi
  refine field_dateTime.short_step (fun _ i hi => ?_) hi
  refine field_leU8.short_step (fun _ i hi => ?_) hi
  refine field_leU8.short_step (fun _ i hi => ?_) hi
  refine field_leU8.short_step (fun _ i hi => ?_) hi
  refine (field_bothEndian16 b).short_step (fun _ i hi => ?_) hi
  rw [hoff]
  match i with
  | [] => rfl

/-- A record whose identifier and pad byte are in the input and decode,
but reach beyond the record's length. -/
def OverrunsLength (b : Build) (enc : CharacterEncoding) (i : Input) :
    Prop :=
  33 + nameLength i + pad (nameLength i) ≤ i.length
    ∧ recordLength i < 33 + nameLength i + pad (nameLength i)
    ∧ ∃ r, identifierText b enc ((i.drop 33).take (nameLength i)) = .ok r

/-- A record that is in the input whole, and its identifier decodes. -/
def FitsLength (b : Build) (enc : CharacterEncoding) (i : Input) : Prop :=
  33 + nameLength i + pad (nameLength i) ≤ recordLength i
    ∧ recordLength i ≤ i.length
    ∧ ∃ r, identifierText b enc ((i.drop 33).take (nameLength i)) = .ok r

/-- The same build with overflow checks. -/
def Build.checked (b : Build) : Build := { b with overflowChecks := true }

/-- Only whole records are accepted, and every other input is an error.
The subtraction has a result where the build that checks it does not
panic. -/
structure WholeRecord (b : Build) (enc : CharacterEncoding) (i : Input) :
    Prop where
  accepted : ∀ r x, directoryEntry b enc i = .ok (r, x) →
    33 + nameLength i + pad (nameLength i) ≤ recordLength i
      ∧ recordLength i ≤ i.length ∧ r = i.drop (recordLength i)
      ∧ ∀ i' : Input, i'.take (recordLength i) = i.take (recordLength i) →
        directoryEntry b enc i' = .ok (i'.drop (recordLength i), x)
  rejected : (∀ r, directoryEntry b enc i ≠ .ok r) →
    ∃ e, directoryEntry b enc i = .err e
  noUnderflow : directoryEntry b.checked enc i ≠ .panic

/-- Any input that does not overrun its own length is accepted with
nothing behind the record mattering, unless its area wants more bytes, or
it is an error. -/
theorem directoryEntry_cases (hoff : b.assertions = false)
    {enc : CharacterEncoding} {i : Input}
    (hquiet : systemUseEntries b (areaOf i) ≠ .panic)
    (hover : ¬ OverrunsLength b enc i) :
    (FitsLength b enc i
        ∧ ((∃ x, ∀ i' : Input,
            i'.take (recordLength i) = i.take (recordLength i) →
            directoryEntry b enc i' = .ok (i'.drop (recordLength i), x))
          ∨ systemUseEntries b (areaOf i) = .err .incomplete
            ∧ directoryEntry b enc i = .err .incomplete))
      ∨ ∃ e, directoryEntry b enc i = .err e
        ∧ (33 + nameLength i ≤ i.length → ∃ kind, e = .error kind) := by
  by_cases hi : 33 ≤ i.length
  case neg =>
    exact Or.inr ⟨_, directoryEntry_short hoff enc (Nat.lt_of_not_le hi),
      fun _ => ⟨.eof, rfl⟩⟩
  obtain ⟨header, n, henc, hlength, hn, hparts⟩ :=
    directoryEntry_parts hoff enc hi
  have hwhole : i.take 33 ++ i.drop 33 = i := List.take_append_drop _ _
  have hrest : 33 + (i.drop 33).length = i.length := by
    rw [List.length_drop]
    omega
  unfold areaOf at hquiet ⊢
  unfold OverrunsLength at hover
  unfold FitsLength
  rw [← hlength, ← hn, ← henc] at hover
  rw [← hlength, ← hn] at hquiet ⊢
  have hcases := variablePart_cases hoff hquiet (by
    intro hfits hid
    by_contra hlt
    exact hover ⟨by omega, by omega, hid⟩)
  have hi := hparts (i.drop 33)
  rw [hwhole] at hi
  rcases hcases with ⟨hlong, hfits, hid, ⟨x, hx⟩ | ⟨hcut, herr⟩⟩ |
    ⟨e, he, hkind⟩
  · refine Or.inl ⟨⟨hlong, by omega, henc ▸ hid⟩,
      Or.inl ⟨x, fun i' hi' => ?_⟩⟩
    have htake : i'.take 33 = i.take 33 := by
      have h := congrArg (List.take 33) hi'
      rwa [List.take_take, List.take_take, Nat.min_eq_left (by omega)] at h
    have hdrop : (i'.drop 33).take (header.length.toNat - 33)
        = (i.drop 33).take (header.length.toNat - 33) := by
      have h := congrArg (List.drop 33) hi'
      rwa [List.drop_take, List.drop_take] at h
    have hwhole' : i.take 33 ++ i'.drop 33 = i' := by
      rw [← htake, List.take_append_drop]
    have h := hparts (i'.drop 33)
    rw [hwhole', hx _ hdrop, List.drop_drop] at h
    rwa [show 33 + (header.length.toNat - 33) = header.length.toNat by
      omega] at h
  · exact Or.inl ⟨⟨hlong, by omega, henc ▸ hid⟩,
      Or.inr ⟨hcut, hi.trans herr⟩⟩
  · exact Or.inr ⟨e, hi.trans he, fun hname => hkind (by omega)⟩

/-- One that fits its length is a whole record. -/
theorem FitsLength.recordAt (hoff : b.assertions = false)
    {enc : CharacterEncoding} {i : Input} (h : FitsLength b enc i) :
    ∃ header identifier, RecordAt b enc i header identifier := by
  obtain ⟨hlong, hfits, ⟨left, identifier⟩, htext⟩ := h
  obtain ⟨header, hfields, henc⟩ := @exists_fixedFields b enc (i.take 32)
    (by rw [List.length_take]; omega)
  exact ⟨header, identifier, hlong, hfits, hfields, henc, ⟨left, htext⟩,
    fun hon => absurd (hoff.symm.trans hon) Bool.false_ne_true⟩

/-- And accepted, or its area wants more bytes. -/
theorem directoryEntry_fits (hoff : b.assertions = false)
    {enc : CharacterEncoding} {i : Input}
    (hquiet : systemUseEntries b (areaOf i) ≠ .panic)
    (h : FitsLength b enc i) :
    (systemUseEntries b (areaOf i) ≠ .err .incomplete →
        ∃ x, directoryEntry b enc i = .ok (i.drop (recordLength i), x))
      ∧ (systemUseEntries b (areaOf i) = .err .incomplete →
        directoryEntry b enc i = .err .incomplete) := by
  obtain ⟨header, identifier, hrecord⟩ := h.recordAt hoff
  rw [hrecord.directoryEntry_eq]
  constructor
  · intro hmore
    obtain ⟨⟨r', susp⟩, hsusp⟩ := opt_eq_ok (ends_systemUseEntries b)
      fun t => match t with
        | .incomplete => hmore
        | .panic => hquiet
    rw [hsusp]
    exact ⟨_, rfl⟩
  · intro hcut
    unfold opt
    rw [hcut]
    rfl

/-- One that does is not: the length has nothing left to subtract. -/
theorem directoryEntry_overruns (hoff : b.assertions = false)
    {enc : CharacterEncoding} {i : Input} (hover : OverrunsLength b enc i) :
    directoryEntry b.checked enc i = .panic := by
  obtain ⟨hfits, hlt, ⟨r, id⟩, hid⟩ := hover
  obtain ⟨header, n, henc, hlength, hn, hparts⟩ :=
    directoryEntry_parts (b := b.checked) hoff enc (i := i) (by omega)
  have h := hparts (i.drop 33)
  rw [List.take_append_drop] at h
  have hid' : identifierText b.checked header.characterEncoding
      ((i.drop 33).take n.toNat) = .ok (r, id) := by
    rw [henc, hn]
    exact hid
  rw [h, variablePart_identified hid' (by rw [List.length_drop, hn]; omega)]
  unfold subW
  rw [if_neg (by rw [hlength, hn]; omega)]
  rfl

/-- Record parsing accepts exactly whole records, as long as a record's
length is not below that of the identifier in it. -/
theorem wholeRecord_iff (hoff : b.assertions = false)
    {enc : CharacterEncoding} {i : Input}
    (hquiet : ∀ checks : Bool, systemUseEntries
      { b with overflowChecks := checks } (areaOf i) ≠ .panic) :
    WholeRecord b enc i ↔ ¬ OverrunsLength b enc i := by
  constructor
  · intro h hover
    exact h.noUnderflow (directoryEntry_overruns hoff hover)
  · intro hover
    have hcases := directoryEntry_cases hoff (hquiet b.overflowChecks) hover
    refine ⟨fun r x h => ?_, fun h => ?_, ?_⟩
    · rcases hcases with ⟨⟨hlong, hfits, -⟩, ⟨x', hx'⟩ | ⟨-, he⟩⟩ | ⟨e, he, -⟩
      · have hi := hx' i rfl
        rw [h] at hi
        injection hi with hi
        injection hi with hr hx
        exact ⟨hlong, hfits, hr, hx ▸ hx'⟩
      · rw [h] at he
        cases he
      · rw [h] at he
        cases he
    · rcases hcases with ⟨-, ⟨x', hx'⟩ | ⟨-, he⟩⟩ | ⟨e, he, -⟩
      · exact absurd (hx' i rfl) (h _)
      · exact ⟨_, he⟩
      · exact ⟨e, he⟩
    · rcases directoryEntry_cases (b := b.checked) hoff (hquiet true) hover
        with ⟨-, ⟨x', hx'⟩ | ⟨-, he⟩⟩ | ⟨e, he, -⟩
      · rw [hx' i rfl]
        exact fun h => nomatch h
      · rw [he]
        exact fun h => nomatch h
      · rw [he]
        exact fun h => nomatch h

/-- Zeros are a record of length 0 with an empty identifier. -/
theorem zeros_not_wholeRecord :
    directoryEntry quietBuild .iso9660 (List.replicate 34 0) = .panic
      ∧ ¬ WholeRecord quietBuild .iso9660 (List.replicate 34 0) := by
  have hpanic : directoryEntry quietBuild .iso9660 (List.replicate 34 0)
      = .panic := by decide +kernel
  exact ⟨hpanic, fun h => h.noUnderflow hpanic⟩

/-- The record that a directory has of itself, without an area. -/
def selfBytes : Input :=
  [34, 0, 20, 0, 0, 0, 0, 0, 0, 20, 0, 8, 0, 0, 0, 0, 8, 0,
    100, 1, 1, 0, 0, 0, 0, 2, 0, 0, 1, 0, 0, 1, 1, 0]

theorem selfBytes_wholeRecord : WholeRecord quietBuild .iso9660 selfBytes := by
  have harea : areaOf selfBytes = [] := by decide
  refine (wholeRecord_iff rfl fun checks => ?_).mpr fun h => ?_
  · rw [harea]
    exact fun h => nomatch h
  · exact absurd h.2.1 (by decide)

end Cdfs
