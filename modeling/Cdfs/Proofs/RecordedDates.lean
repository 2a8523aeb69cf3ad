/-
Dates as the standard records them, in 7 bytes and in 17, each with an
offset from GMT in a signed byte.

Both decoders read that byte as unsigned. An offset of 0 or more is
read as it is; a negative one is no offset below 24 hours then, and UTC
is taken in its place (`read_eq_iff`). The year of the 17 bytes is
taken as one after 1900, although its four digits are the year.
-/
import Cdfs.Proofs.DescriptorLayout
import Cdfs.Proofs.TimestampForms

namespace Cdfs

open Rust Parse Nom

variable {b : Build}

-- ============================================================ the offset

/-- An offset from GMT, in intervals of 15 minutes. -/
structure Quarters where
  count : Int
  within : -48 ≤ count ∧ count ≤ 52

namespace Quarters

variable (q : Quarters)

/-- The signed byte. -/
def byte : UInt8 := UInt8.ofInt q.count

def offset : UtcOffset where
  seconds := q.count * 15 * 60
  valid := by
    have h := q.within
    omega

/-- What both decoders make of the byte. -/
def read : UtcOffset :=
  (UtcOffset.fromWholeSeconds (q.byte.toNat * 15 * 60)).getD UtcOffset.UTC

theorem toNat_byte : (q.byte.toNat : Int) = q.count % 256 := by
  have h : q.byte.toNat = (q.count % 2 ^ 8).toNat % 2 ^ 8 :=
    UInt8.toNat_ofNat'
  omega

theorem read_of_nonneg (h : 0 ≤ q.count) : q.read = q.offset := by
  have hbyte := q.toNat_byte
  have hwithin := q.within
  have hcount : (q.byte.toNat : Int) = q.count := by omega
  have hvalid : -86400 < q.count * 15 * 60 ∧ q.count * 15 * 60 < 86400 :=
    q.offset.valid
  unfold read UtcOffset.fromWholeSeconds
  rw [hcount, dif_pos hvalid]
  rfl

theorem read_of_neg (h : q.count < 0) : q.read = UtcOffset.UTC := by
  have hbyte := q.toNat_byte
  have hwithin := q.within
  unfold read UtcOffset.fromWholeSeconds
  rw [dif_neg (by omega)]
  rfl

/-- The offset is read as it was recorded exactly if it is not negative. -/
theorem read_eq_iff : q.read = q.offset ↔ 0 ≤ q.count := by
  refine ⟨fun h => ?_, q.read_of_nonneg⟩
  by_contra hneg
  rw [q.read_of_neg (by omega)] at h
  have hseconds : 0 = q.count * 15 * 60 := congrArg UtcOffset.seconds h
  omega

end Quarters

-- ============================================================ seven bytes

/-- A date that seven bytes can record. -/
structure ShortDate where
  date : Date
  time : Time
  zone : Quarters
  year : 1900 ≤ date.year ∧ date.year ≤ 1900 + 255
  whole : time.millisecond = 0

namespace ShortDate

variable (d : ShortDate)

def instant : OffsetDateTime := ⟨d.date, d.time, d.zone.offset⟩

def bytes : List UInt8 := [
  UInt8.ofNat (d.date.year - 1900).toNat, UInt8.ofNat d.date.month,
  UInt8.ofNat d.date.day, UInt8.ofNat d.time.hour,
  UInt8.ofNat d.time.minute, UInt8.ofNat d.time.second, d.zone.byte]

/-- The instant, with the offset that is read. -/
def decoded : OffsetDateTime := ⟨d.date, d.time, d.zone.read⟩

end ShortDate

theorem daysInMonth_le (year : Int) (month : Nat) :
    daysInMonth year month ≤ 31 := by
  unfold daysInMonth
  repeat' split
  all_goals decide

/-- A date's own fields make that date again. -/
theorem fromCalendarDate_self (d : Date) :
    Date.fromCalendarDate d.year d.month d.day = some d := by
  unfold Date.fromCalendarDate
  rw [dif_pos d.valid]

theorem fromHms_self {t : Time} (h : t.millisecond = 0) :
    Time.fromHms t.hour t.minute t.second = some t := by
  obtain ⟨hour, minute, second, millisecond, hvalid⟩ := t
  subst h
  unfold Time.fromHms
  rw [dif_pos hvalid]

theorem toNat_ofNat_of_lt {n : Nat} (h : n < 256) :
    (UInt8.ofNat n).toNat = n := by
  rw [UInt8.toNat_ofNat']
  exact Nat.mod_eq_of_lt h

/-- Seven bytes are read as the date and the time that they record. -/
theorem ShortDate.takes (d : ShortDate) : Takes dateTime d.bytes d.decoded := by
  obtain ⟨-, -, hone, hmonth, -, hday⟩ := d.date.valid
  obtain ⟨hhour, hminute, hsecond, -⟩ := d.time.valid
  have hyear := d.year
  have hlast := daysInMonth_le d.date.year d.date.month
  have hfromYear : 1900 + ((d.date.year - 1900).toNat : Int) = d.date.year := by
    omega
  have hname : (1 ≤ d.date.month && d.date.month ≤ 12) = true := by
    simp [hone, hmonth]
  intro rest
  unfold dateTime ShortDate.bytes
  simp only [List.cons_append, List.nil_append, leU8, Outcome.ok_bind]
  rw [toNat_ofNat_of_lt (show (d.date.year - 1900).toNat < 256 by omega),
    toNat_ofNat_of_lt (show d.date.month < 256 by omega),
    toNat_ofNat_of_lt (show d.date.day < 256 by omega),
    toNat_ofNat_of_lt (show d.time.hour < 256 by omega),
    toNat_ofNat_of_lt (show d.time.minute < 256 by omega),
    toNat_ofNat_of_lt (show d.time.second < 256 by omega),
    if_pos hname, hfromYear, fromCalendarDate_self, fromHms_self d.whole]
  rfl

/-- Seven bytes decode to the instant that they record exactly if its
offset is not negative. -/
theorem takes_instant_iff (d : ShortDate) :
    Takes dateTime d.bytes d.instant ↔ 0 ≤ d.zone.count := by
  rw [← d.zone.read_eq_iff]
  constructor
  · intro h
    have heq : d.decoded = d.instant := d.takes.unique h
    unfold ShortDate.decoded ShortDate.instant at heq
    injection heq
  · intro h
    have heq : d.decoded = d.instant := by
      unfold ShortDate.decoded ShortDate.instant
      rw [h]
    exact heq ▸ d.takes

/-- The last second of 1999, in New York. -/
def newYork : ShortDate where
  date := ⟨1999, 12, 31, by decide⟩
  time := ⟨23, 59, 59, 0, by decide⟩
  zone := ⟨-20, by decide⟩
  year := by decide
  whole := rfl

/-- Its offset is lost. -/
theorem newYork_read : newYork.bytes = [99, 12, 31, 23, 59, 59, 236]
    ∧ dateTime newYork.bytes = .ok ([], ⟨newYork.date, newYork.time, .UTC⟩)
    ∧ newYork.instant.offset ≠ .UTC := by
  decide +kernel

-- ====================================================== seventeen bytes

/-- A date that seventeen bytes can record. -/
structure LongDate where
  date : Date
  time : Time
  zone : Quarters
  year : 1 ≤ date.year
  hundredths : time.millisecond % 10 = 0

namespace LongDate

variable (d : LongDate)

def instant : OffsetDateTime := ⟨d.date, d.time, d.zone.offset⟩

/-- The digits of each number. -/
def digits : DigitDate where
  year := ⟨d.date.year.toNat, by
    have h := d.date.valid
    omega⟩
  month := ⟨d.date.month, by
    have h := d.date.valid
    omega⟩
  day := ⟨d.date.day, by
    have h := d.date.valid
    have hlast := daysInMonth_le d.date.year d.date.month
    omega⟩
  hour := ⟨d.time.hour, by
    have h := d.time.valid
    omega⟩
  minute := ⟨d.time.minute, by
    have h := d.time.valid
    omega⟩
  second := ⟨d.time.second, by
    have h := d.time.valid
    omega⟩
  hundredth := ⟨d.time.millisecond / 10, by
    have h := d.time.valid
    omega⟩
  offset := d.zone.byte

def bytes : List UInt8 := d.digits.bytes

end LongDate

theorem getD_fromCalendarDate (year : Int) (month day : Nat) (d : Date) :
    ((Date.fromCalendarDate year month day).getD d).year = year
      ∨ (Date.fromCalendarDate year month day).getD d = d := by
  unfold Date.fromCalendarDate
  split
  · exact .inl rfl
  · exact .inr rfl

/-- The year is counted from 1900, or it is 0. -/
theorem year_decoded (d : DigitDate) :
    d.decoded.date.year = 1900 + (d.year.val : Int)
      ∨ d.decoded.date.year = 0 := by
  unfold DigitDate.decoded
  rcases getD_fromCalendarDate (1900 + (d.year.val : Int))
      (if 1 ≤ d.month.val && d.month.val ≤ 12 then d.month.val else 1)
      d.day ⟨0, 1, 1, yearZero_valid⟩ with h | h
  · exact .inl h
  · exact .inr (congrArg Date.year h)

/-- So it is never the one that the digits say. -/
theorem LongDate.year_ne (d : LongDate) :
    d.digits.decoded.date.year ≠ d.date.year := by
  have hyear := d.year
  have hdigits : (d.digits.year.val : Int) = d.date.year :=
    Int.toNat_of_nonneg (by omega)
  rcases year_decoded d.digits with h | h
  · omega
  · omega

/-- Seventeen bytes never decode to the instant that they record, nor to
what seven bytes with that instant decode to: they are taken, but the
year is another one. -/
theorem instant_never_taken (b : Build) (d : LongDate) :
    (∃ w, Takes (dateTimeAscii b) d.bytes w)
      ∧ ¬ Takes (dateTimeAscii b) d.bytes d.instant
      ∧ ∀ s : ShortDate, s.instant = d.instant → ∀ v w,
        Takes dateTime s.bytes v → Takes (dateTimeAscii b) d.bytes w →
        v ≠ w := by
  have htakes : Takes (dateTimeAscii b) d.bytes d.digits.decoded :=
    d.digits.takes
  refine ⟨⟨_, htakes⟩, fun h => ?_, fun s hs v w hv hw heq => ?_⟩
  · have hinstant : d.digits.decoded = d.instant := htakes.unique h
    exact d.year_ne (by rw [hinstant]; rfl)
  · have hshort : s.decoded = v := s.takes.unique hv
    have hlong : d.digits.decoded = w := htakes.unique hw
    have hdate : s.date = d.date := congrArg OffsetDateTime.date hs
    have hread : d.digits.decoded.date = s.date := by
      rw [hlong, ← heq, ← hshort]
      rfl
    exact d.year_ne (by rw [hread, hdate])

/-- The last hundredth of 1999, in London. -/
def london : LongDate where
  date := ⟨1999, 12, 31, by decide⟩
  time := ⟨23, 59, 59, 990, by decide⟩
  zone := ⟨0, by decide⟩
  year := by decide
  hundredths := by decide

/-- Its digits are `1999123123595999`, and they are read as a date in the
year 3899. -/
theorem london_read : london.bytes
      = [49, 57, 57, 57, 49, 50, 51, 49, 50, 51, 53, 57, 53, 57, 57, 57, 0]
    ∧ dateTimeAscii debugBuild london.bytes
      = .ok ([], ⟨⟨3899, 12, 31, by decide⟩, london.time, .UTC⟩)
    ∧ london.instant.date.year = 1999 := by
  decide +kernel

end Cdfs
