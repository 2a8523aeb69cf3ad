/-
The field parsers of `parse/`: both-endian integers, the 7-byte date
and identifier text. The dates and offsets of the `time` crate carry
their validity as a field, so a date that does not exist cannot be
built, and the parser's fallbacks are visible where they are taken.

Every parser of fixed width is stable: it reads a field and nothing
behind it.
-/
import Cdfs.Crate

namespace Cdfs.Parse

open Rust Nom

variable (b : Build)

-- ================================================ both-endian integers

/-- A 16-bit number recorded twice. The two copies may differ; the
build says which one is read. -/
def bothEndian16 : Parser UInt16 := fun i => do
  let (i, littleEndian) ← leU16 i
  let (i, bigEndian) ← beU16 i
  .ok (i, if b.bigEndian then bigEndian else littleEndian)

/-- A 32-bit number recorded twice. -/
def bothEndian32 : Parser UInt32 := fun i => do
  let (i, littleEndian) ← leU32 i
  let (i, bigEndian) ← beU32 i
  .ok (i, if b.bigEndian then bigEndian else littleEndian)

theorem stable_bothEndian16 : Stable (bothEndian16 b) := by
  intro i r a x h
  refine stable_leU16.step h fun i _ h => ?_
  refine stable_beU16.step h fun i _ h => ?_
  exact stable_done h

theorem stable_bothEndian32 : Stable (bothEndian32 b) := by
  intro i r a x h
  refine stable_leU32.step h fun i _ h => ?_
  refine stable_beU32.step h fun i _ h => ?_
  exact stable_done h

theorem width_bothEndian16 : Width 4 (bothEndian16 b) := by
  intro i r a h
  obtain ⟨_, hle, -, h⟩ := width_leU16.step h
  obtain ⟨_, hbe, -, h⟩ := width_beU16.step h
  injection h with h
  injection h with hr _
  rw [List.length_drop] at hbe
  exact ⟨by omega, by rw [← hr, List.drop_drop]⟩

theorem width_bothEndian32 : Width 8 (bothEndian32 b) := by
  intro i r a h
  obtain ⟨_, hle, -, h⟩ := width_leU32.step h
  obtain ⟨_, hbe, -, h⟩ := width_beU32.step h
  injection h with h
  injection h with hr _
  rw [List.length_drop] at hbe
  exact ⟨by omega, by rw [← hr, List.drop_drop]⟩

/-- A 32-bit number as it is recorded twice. -/
def both32 (n : UInt32) : List UInt8 := digits32 n ++ (digits32 n).reverse

/-- Two equal copies are read as that number in any build. -/
theorem takes_bothEndian32 (n : UInt32) :
    Takes (bothEndian32 b) (both32 n) n := by
  intro rest
  unfold bothEndian32 both32
  rw [List.append_assoc, takes_leU32, Outcome.ok_bind]
  dsimp only
  rw [takes_beU32, Outcome.ok_bind]
  dsimp only
  rw [ite_self]

/-- A 16-bit number as it is recorded twice. -/
def both16 (n : UInt16) : List UInt8 := digits16 n ++ (digits16 n).reverse

theorem takes_bothEndian16 (n : UInt16) :
    Takes (bothEndian16 b) (both16 n) n := by
  intro rest
  unfold bothEndian16 both16
  rw [List.append_assoc, takes_leU16, Outcome.ok_bind]
  dsimp only
  rw [takes_beU16, Outcome.ok_bind]
  dsimp only
  rw [ite_self]

theorem field_bothEndian16 : Field 4 (bothEndian16 b) :=
  field_leU16.step (n := 2) fun _ =>
    field_beU16.step (n := 0) fun _ => field_done _

theorem field_bothEndian32 : Field 8 (bothEndian32 b) :=
  field_leU32.step (n := 4) fun _ =>
    field_beU32.step (n := 0) fun _ => field_done _

-- ================================================================ dates

/-- The Gregorian leap years. -/
def isLeapYear (year : Int) : Bool :=
  year % 4 == 0 && (year % 100 != 0 || year % 400 == 0)

def daysInMonth (year : Int) (month : Nat) : Nat :=
  if month == 2 then if isLeapYear year then 29 else 28
  else if month == 4 || month == 6 || month == 9 || month == 11 then 30
  else 31

/-- A calendar date. -/
structure Date where
  year : Int
  month : Nat
  day : Nat
  valid : -9999 ≤ year ∧ year ≤ 9999 ∧ 1 ≤ month ∧ month ≤ 12
    ∧ 1 ≤ day ∧ day ≤ daysInMonth year month
  deriving DecidableEq

/-- `Date::from_calendar_date`. -/
def Date.fromCalendarDate (year : Int) (month day : Nat) : Option Date :=
  if h : -9999 ≤ year ∧ year ≤ 9999 ∧ 1 ≤ month ∧ month ≤ 12
      ∧ 1 ≤ day ∧ day ≤ daysInMonth year month then
    some ⟨year, month, day, h⟩
  else none

/-- A time of day. -/
structure Time where
  hour : Nat
  minute : Nat
  second : Nat
  millisecond : Nat
  valid : hour < 24 ∧ minute < 60 ∧ second < 60 ∧ millisecond < 1000
  deriving DecidableEq

/-- `Time::from_hms`. -/
def Time.fromHms (hour minute second : Nat) : Option Time :=
  if h : hour < 24 ∧ minute < 60 ∧ second < 60 ∧ 0 < 1000 then
    some ⟨hour, minute, second, 0, h⟩
  else none

/-- `Time::from_hms_milli`. -/
def Time.fromHmsMilli (hour minute second millisecond : Nat) :
    Option Time :=
  if h : hour < 24 ∧ minute < 60 ∧ second < 60 ∧ millisecond < 1000 then
    some ⟨hour, minute, second, millisecond, h⟩
  else none

def Time.midnight : Time := ⟨0, 0, 0, 0, by decide⟩

/-- An offset from UTC, below 24 hours either way. -/
structure UtcOffset where
  seconds : Int
  valid : -86400 < seconds ∧ seconds < 86400
  deriving DecidableEq

/-- `UtcOffset::from_whole_seconds`. -/
def UtcOffset.fromWholeSeconds (seconds : Int) : Option UtcOffset :=
  if h : -86400 < seconds ∧ seconds < 86400 then some ⟨seconds, h⟩ else none

def UtcOffset.UTC : UtcOffset := ⟨0, by decide⟩

/-- A local date and time with its offset. -/
structure OffsetDateTime where
  date : Date
  time : Time
  offset : UtcOffset
  deriving DecidableEq

/-- The seven bytes of a recording date. A month, a day or a time that
does not exist is replaced by a default, each on its own. -/
def dateTime : Parser OffsetDateTime := fun i => do
  let (i, year) ← leU8 i
  let (i, month) ← leU8 i
  let (i, day) ← leU8 i
  let (i, hour) ← leU8 i
  let (i, minute) ← leU8 i
  let (i, second) ← leU8 i
  let (i, gmtOffset) ← leU8 i
  let month := if 1 ≤ month.toNat && month.toNat ≤ 12 then month.toNat else 1
  let date := (Date.fromCalendarDate (1900 + year.toNat) month day.toNat).getD
    ⟨0, 1, 1, by decide⟩
  let time := (Time.fromHms hour.toNat minute.toNat second.toNat).getD
    Time.midnight
  -- the byte is read as unsigned, in intervals of 15 minutes
  let offset := (UtcOffset.fromWholeSeconds (gmtOffset.toNat * 15 * 60)).getD
    UtcOffset.UTC
  .ok (i, ⟨date, time, offset⟩)

/-- A number in `n` digits, or `n` zero bytes for none. -/
def asciiI32 (n : Nat) : Parser Int := alt [
  mapRes (mapRes (take n) fromUtf8) parseI32,
  value 0 (count (tag [0]) n)]

/-- The seventeen bytes of a descriptor's date. Its year is taken as one
after 1900, too. -/
def dateTimeAscii : Parser OffsetDateTime := fun i => do
  let (i, tmYear) ← asciiI32 4 i
  let (i, tmMon) ← asciiI32 2 i
  let (i, tmMday) ← asciiI32 2 i
  let (i, tmHour) ← asciiI32 2 i
  let (i, tmMin) ← asciiI32 2 i
  let (i, tmSec) ← asciiI32 2 i
  let (i, centisecond) ← asciiI32 2 i
  let (i, gmtOffset) ← leU8 i
  let month :=
    if 1 ≤ asU8 tmMon && asU8 tmMon ≤ 12 then asU8 tmMon else 1
  let date := (Date.fromCalendarDate (1900 + tmYear) month
    (asU8 tmMday)).getD ⟨0, 1, 1, by decide⟩
  -- a negative number of hundredths is a large one after the cast
  let millisecond ← mulW 16 b.overflowChecks (asU16 centisecond) 10
  let time := (Time.fromHmsMilli (asU8 tmHour) (asU8 tmMin) (asU8 tmSec)
    millisecond).getD Time.midnight
  let offset := (UtcOffset.fromWholeSeconds (gmtOffset.toNat * 15 * 60)).getD
    UtcOffset.UTC
  .ok (i, ⟨date, time, offset⟩)

theorem stable_dateTime : Stable dateTime := by
  intro i r a x h
  refine stable_leU8.step h fun i year h => ?_
  refine stable_leU8.step h fun i month h => ?_
  refine stable_leU8.step h fun i day h => ?_
  refine stable_leU8.step h fun i hour h => ?_
  refine stable_leU8.step h fun i minute h => ?_
  refine stable_leU8.step h fun i second h => ?_
  refine stable_leU8.step h fun i gmtOffset h => ?_
  exact stable_done h

/-- Any seven bytes are a date. -/
theorem field_dateTime : Field 7 dateTime where
  takes bytes h := by
    match bytes with
    | [_, _, _, _, _, _, _] => exact ⟨_, fun _ => rfl⟩
  short i h := by
    match i with
    | [] | [_] | [_, _] | [_, _, _] | [_, _, _, _] | [_, _, _, _, _]
    | [_, _, _, _, _, _] => rfl

theorem width_asciiI32 (n : Nat) : Width n (asciiI32 n) := by
  refine width_alt fun p hp => ?_
  simp only [List.mem_cons, List.not_mem_nil, or_false] at hp
  rcases hp with rfl | rfl
  · exact ((width_take n).mapRes _).mapRes _
  · have h := (width_tag [0]).count n
    rw [List.length_singleton, Nat.mul_one] at h
    exact h.map _

theorem width_dateTime : Width 7 dateTime := by
  intro i r a h
  obtain ⟨_, h₁, -, h⟩ := width_leU8.step h
  obtain ⟨_, h₂, -, h⟩ := width_leU8.step h
  obtain ⟨_, h₃, -, h⟩ := width_leU8.step h
  obtain ⟨_, h₄, -, h⟩ := width_leU8.step h
  obtain ⟨_, h₅, -, h⟩ := width_leU8.step h
  obtain ⟨_, h₆, -, h⟩ := width_leU8.step h
  obtain ⟨_, h₇, -, h⟩ := width_leU8.step h
  injection h with h
  injection h with hr _
  simp only [List.length_drop] at h₇
  refine ⟨by omega, ?_⟩
  rw [← hr]
  simp only [List.drop_drop]

-- ============================================================ the text

/-- How the identifiers of a directory hierarchy are encoded. -/
inductive CharacterEncoding where
  | iso9660
  | ucs2Level1
  | ucs2Level2
  | ucs2Level3
  deriving DecidableEq, Repr

/-- The escape sequences of a volume descriptor: those of UCS-2, or 32
zero bytes. -/
def characterEncoding : Parser CharacterEncoding := fun bytes => do
  let origLen := bytes.length
  let (bytes, encoding) ← alt [
    value .ucs2Level1 (tag [0x25, 0x2F, 0x40]),
    value .ucs2Level2 (tag [0x25, 0x2F, 0x43]),
    value .ucs2Level3 (tag [0x25, 0x2F, 0x45]),
    value .iso9660 (tag (List.replicate 32 0))] bytes
  let len := origLen - bytes.length
  if len < 32 then do
    let (bytes, _) ← take (32 - len) bytes
    .ok (bytes, encoding)
  else .ok (bytes, encoding)

/-- UCS-2 text, all of the input. -/
def decodeUcs2 : Parser String := fun i => do
  let (i, input) ← rest i
  let (cow, hadErrors) := b.decodeUtf16be input
  Outcome.assert b.assertions (!hadErrors)
  .ok (i, trimEnd cow)

/-- Identifier text, all of the input. -/
def decodeString : CharacterEncoding → Parser String
  | .ucs2Level1 | .ucs2Level2 | .ucs2Level3 => decodeUcs2 b
  | .iso9660 => map (mapRes rest fromUtf8) trimEnd

-- ========================================================= termination

theorem ends_bothEndian16 : Ends (bothEndian16 b) :=
  ends_leU16.step fun _ => ends_beU16.step fun _ => ends_done _

theorem ends_bothEndian32 : Ends (bothEndian32 b) :=
  ends_leU32.step fun _ => ends_beU32.step fun _ => ends_done _

theorem ends_dateTime : Ends dateTime := by
  refine ends_leU8.step fun _ => ?_
  refine ends_leU8.step fun _ => ?_
  refine ends_leU8.step fun _ => ?_
  refine ends_leU8.step fun _ => ?_
  refine ends_leU8.step fun _ => ?_
  refine ends_leU8.step fun _ => ?_
  refine ends_leU8.step fun _ => ?_
  exact ends_done _

theorem ends_asciiI32 (n : Nat) : Ends (asciiI32 n) := by
  refine ends_alt fun p hp => ?_
  simp only [List.mem_cons, List.not_mem_nil, or_false] at hp
  rcases hp with rfl | rfl
  · exact ((ends_take n).mapRes _).mapRes _
  · exact ((ends_tag _).count n).value _

theorem ends_dateTimeAscii : Ends (dateTimeAscii b) := by
  refine (ends_asciiI32 4).step fun _ => ?_
  refine (ends_asciiI32 2).step fun _ => ?_
  refine (ends_asciiI32 2).step fun _ => ?_
  refine (ends_asciiI32 2).step fun _ => ?_
  refine (ends_asciiI32 2).step fun _ => ?_
  refine (ends_asciiI32 2).step fun _ => ?_
  refine (ends_asciiI32 2).step fun _ => ?_
  refine ends_leU8.step fun _ => ?_
  exact Ends.check (fun _ => mulW_ne_running _ _ _ _) fun _ => ends_done _

theorem characterEncoding_ne_running (i : Input) :
    characterEncoding i ≠ .running := by
  intro h
  rcases Outcome.bind_eq_running.mp h with h | ⟨_, -, h⟩
  · refine Ends.returns (ends_alt fun p hp => ?_) i h
    simp only [List.mem_cons, List.not_mem_nil, or_false] at hp
    rcases hp with rfl | rfl | rfl | rfl
    all_goals exact (ends_tag _).value _
  · dsimp only at h
    split at h
    · rcases Outcome.bind_eq_running.mp h with h | ⟨_, -, h⟩
      · exact (ends_take _).returns _ h
      · cases h
    · cases h

theorem ends_decodeUcs2 : Ends (decodeUcs2 b) := by
  refine ends_rest.step fun input => ?_
  exact Ends.check (fun _ => Outcome.assert_ne_running _ _)
    fun _ => ends_done _

theorem ends_decodeString (enc : CharacterEncoding) :
    Ends (decodeString b enc) := by
  cases enc with
  | iso9660 => exact (ends_rest.mapRes _).map _
  | ucs2Level1 | ucs2Level2 | ucs2Level3 => exact ends_decodeUcs2 b

-- ================================================ unrecoverable answers

variable {t : Trouble}

theorem never_bothEndian32 : Never t (bothEndian32 b) :=
  never_leU32.step fun _ => never_beU32.step fun _ => never_done _

theorem never_asciiI32 (n : Nat) : Never t (asciiI32 n) := by
  refine never_alt fun p hp => ?_
  simp only [List.mem_cons, List.not_mem_nil, or_false] at hp
  rcases hp with rfl | rfl
  · exact ((never_take n).mapRes _).mapRes _
  · exact ((never_tag _).count n).value _

theorem never_dateTime : Never t dateTime := by
  refine never_leU8.step fun _ => ?_
  refine never_leU8.step fun _ => ?_
  refine never_leU8.step fun _ => ?_
  refine never_leU8.step fun _ => ?_
  refine never_leU8.step fun _ => ?_
  refine never_leU8.step fun _ => ?_
  refine never_leU8.step fun _ => ?_
  exact never_done _

end Cdfs.Parse
