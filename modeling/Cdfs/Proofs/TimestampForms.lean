/-
The two forms of a `TF` payload. A flag says whether its stamps have 7
bytes or 17; the decoder drops the flag and reads 7 bytes for a stamp in
either case. It hands them out in the order of the other flags, so that
the right fields are there, and with the long form each field has the
date that seven bytes of digits happen to be.

`nextStamp` is one turn of the handing out; what all seven turns do is
an induction on the list of flags.
-/
import Cdfs.Proofs.Layout
import Cdfs.Proofs.SuspRoundTrip

namespace Cdfs

open Rust Parse Nom

variable {b : Build}

-- ========================================================== handing out

/-- The stamps behind a list of flags, with the flag that each is for. -/
def deal (flags : UInt8) :
    List UInt8 → List OffsetDateTime → List (UInt8 × Option OffsetDateTime)
  | [], _ => []
  | flag :: rest, it =>
      (flag, (nextStamp flags flag it).1)
        :: deal flags rest (nextStamp flags flag it).2

/-- Nothing is handed out for a flag that is not set. -/
theorem deal_unselected {flags : UInt8} {rest : List UInt8}
    {it : List OffsetDateTime} {x : UInt8 × Option OffsetDateTime}
    (hx : x ∈ deal flags rest it) (h : contains flags x.1 = false) :
    x.2 = none := by
  induction rest generalizing it with
  | nil => cases hx
  | cons flag rest ih =>
      unfold deal at hx
      rcases List.mem_cons.mp hx with rfl | hx
      · show (nextStamp flags flag it).1 = none
        unfold nextStamp
        rw [if_neg (by rw [h]; exact Bool.false_ne_true)]
      · exact ih hx

/-- For those that are set, the stamps in their order. -/
theorem deal_selected {flags : UInt8} {rest : List UInt8} :
    ∀ {it : List OffsetDateTime},
      (rest.filter (contains flags)).length ≤ it.length →
      ((deal flags rest it).filter fun x => contains flags x.1).map (·.2)
        = (it.take (rest.filter (contains flags)).length).map some := by
  induction rest with
  | nil => exact fun _ => rfl
  | cons flag rest ih =>
      intro it hlen
      unfold deal nextStamp
      by_cases hflag : contains flags flag = true
      · rw [List.filter_cons_of_pos hflag, List.length_cons] at hlen ⊢
        match it with
        | t :: it =>
            rw [List.length_cons] at hlen
            rw [if_pos hflag]
            show List.map _
              (List.filter _ ((flag, some t) :: deal flags rest it))
              = _
            rw [List.filter_cons_of_pos
                (p := fun x : UInt8 × Option OffsetDateTime =>
                  contains flags x.1) hflag,
              List.map_cons, ih (by omega), List.take_succ_cons, List.map_cons]
      · rw [List.filter_cons_of_neg hflag] at hlen ⊢
        rw [if_neg hflag, List.filter_cons_of_neg
            (p := fun x : UInt8 × Option OffsetDateTime => contains flags x.1)
            hflag]
        exact ih hlen

-- ============================================================ the fields

/-- The flags of the seven stamps, from bit 0 to bit 6. -/
def stampFlags : List UInt8 := [
  PosixTimestampFlags.CREATION, PosixTimestampFlags.MODIFY,
  PosixTimestampFlags.ACCESS, PosixTimestampFlags.ATTRIBUTES,
  PosixTimestampFlags.BACKUP, PosixTimestampFlags.EXPIRATION,
  PosixTimestampFlags.EFFECTIVE]

/-- The fields of a decoded entry, each with its flag. -/
def stampFields (t : PosixTimestamp) : List (UInt8 × Option OffsetDateTime) := [
  (PosixTimestampFlags.CREATION, t.creation),
  (PosixTimestampFlags.MODIFY, t.modify),
  (PosixTimestampFlags.ACCESS, t.access),
  (PosixTimestampFlags.ATTRIBUTES, t.attributes),
  (PosixTimestampFlags.BACKUP, t.backup),
  (PosixTimestampFlags.EXPIRATION, t.expiration),
  (PosixTimestampFlags.EFFECTIVE, t.effective)]

/-- The flags that select a stamp. -/
def selected (flags : UInt8) : List UInt8 :=
  stampFlags.filter (contains flags)

def longForm (flags : UInt8) : Bool :=
  contains flags PosixTimestampFlags.LONG_FORM

/-- The bytes of a stamp in the form that the flags tell. -/
def stampWidth (flags : UInt8) : Nat := if longForm flags then 17 else 7

/-- A `TF` payload: flags that select a stamp or more, and one stamp for
each that is selected. -/
structure TfPayload where
  flags : UInt8
  stamps : List (List UInt8)
  selects : selected flags ≠ []
  count : stamps.length = (selected flags).length
  width : ∀ s ∈ stamps, s.length = stampWidth flags

namespace TfPayload

variable (p : TfPayload)

/-- The stamps' bytes, one behind the other. -/
def body : List UInt8 := p.stamps.flatten

def bytes : List UInt8 := p.flags :: p.body

end TfPayload

/-- The decoder of a stamp in the form that the flags tell. -/
def stampParser (b : Build) (flags : UInt8) : Parser OffsetDateTime :=
  if longForm flags then dateTimeAscii b else dateTime

/-- What an entry with this payload says: nothing in the fields that are
not selected, and in those that are the stamps in their order, each in
the form that the flags tell. -/
def StampsInPlace (b : Build) (p : TfPayload) (t : PosixTimestamp) : Prop :=
  (∀ x ∈ stampFields t, contains p.flags x.1 = false → x.2 = none)
    ∧ List.Forall₂
        (fun field stamp => ∃ d, (∃ r, stampParser b p.flags stamp = .ok (r, d))
          ∧ field = some d)
        (((stampFields t).filter fun x => contains p.flags x.1).map (·.2))
        p.stamps

theorem fromBitsTruncate_stamps (flags : UInt8) :
    fromBitsTruncate PosixTimestampFlags.all flags = flags :=
  UInt8.and_neg_one

/-- The decoder hands out what it reads seven bytes at a time. -/
theorem parseData_timestamp {version : UInt8} (sig : UInt8 × UInt8)
    (hversion : b.assertions = true → version = 1) (flags : UInt8)
    {body : List UInt8} (hbody : 7 ≤ body.length) :
    ∃ r t it, (PosixTimestamp.parseSusp b).parseData sig version
        (flags :: body) = .ok (r, t)
      ∧ EachField 7 dateTime body it
      ∧ stampFields t = deal flags stampFlags it := by
  obtain ⟨r, it, hmany, hit⟩ := field_dateTime.many1 (by decide) hbody
  have hassert : assertVersion b version = .ok () := by
    unfold assertVersion
    cases hon : b.assertions with
    | false => rfl
    | true =>
        rw [hversion hon]
        rfl
  unfold PosixTimestamp.parseSusp
  dsimp only
  rw [hassert, Outcome.ok_bind]
  simp only [Nom.map, leU8, Outcome.ok_bind, fromBitsTruncate_stamps]
  rw [hmany, Outcome.ok_bind]
  exact ⟨r, _, it, rfl, hit, rfl⟩

-- ============================================================ the stamps

/-- Each field is told by what is read at its place. -/
theorem getElem?_eachField {n : Nat} {α : Type} {p : Parser α} {i : Input}
    {as : List α} (h : EachField n p i as) {k : Nat} (hk : k < as.length)
    {a : α} : as[k]? = some a ↔ ∃ r, p (i.drop (n * k)) = .ok (r, a) := by
  obtain ⟨_, hall⟩ := h
  constructor
  · exact hall k a
  · rintro ⟨r, hr⟩
    obtain ⟨r', hr'⟩ := hall k as[k] (List.getElem?_eq_getElem hk)
    rw [hr] at hr'
    injection hr' with hr'
    injection hr' with _ ha
    rw [List.getElem?_eq_getElem hk, ha]

/-- Values against as many elements, one by one. -/
theorem forall₂_take_iff_getElem {α β : Type} {R : α → β → Prop} :
    ∀ {as : List α} {ss : List β}, ss.length ≤ as.length →
      (List.Forall₂ (fun x s => ∃ a, R a s ∧ x = some a)
          ((as.take ss.length).map some) ss
        ↔ ∀ (k : Nat) (s : β), ss[k]? = some s →
          ∃ a, R a s ∧ as[k]? = some a) := by
  intro as ss
  induction ss generalizing as with
  | nil =>
      intro _
      simp
  | cons s ss ih =>
      intro hlen
      match as with
      | a :: as =>
          rw [List.length_cons, List.take_succ_cons, List.map_cons,
            List.forall₂_cons, ih (Nat.le_of_succ_le_succ hlen)]
          constructor
          · rintro ⟨h0, hrest⟩ k s' hk
            cases k with
            | zero =>
                injection hk with hk
                exact hk ▸ h0
            | succ k => exact hrest k s' hk
          · intro h
            exact ⟨h 0 s rfl, fun k => h (k + 1)⟩

/-- Stamps of one width lie at the multiples of it. -/
theorem drop_flatten_of_width {w : Nat} :
    ∀ {ss : List (List UInt8)}, (∀ s ∈ ss, s.length = w) →
      ∀ k, ss.flatten.drop (w * k) = (ss.drop k).flatten := by
  intro ss
  induction ss with
  | nil =>
      intro _ k
      simp
  | cons s ss ih =>
      intro hw k
      cases k with
      | zero => rfl
      | succ k =>
          have hs : s.length = w := hw s List.mem_cons_self
          rw [List.flatten_cons, Nat.mul_succ, Nat.add_comm, ← hs,
            List.drop_length_add_append, hs, List.drop_succ_cons]
          exact ih (fun s h => hw s (List.mem_cons_of_mem _ h)) k

theorem length_flatten_of_width {w : Nat} {ss : List (List UInt8)}
    (hw : ∀ s ∈ ss, s.length = w) : ss.flatten.length = ss.length * w := by
  induction ss with
  | nil => simp
  | cons s ss ih =>
      rw [List.flatten_cons, List.length_append, hw s List.mem_cons_self,
        ih fun s h => hw s (List.mem_cons_of_mem _ h), List.length_cons,
        Nat.succ_mul, Nat.add_comm]

namespace TfPayload

variable (p : TfPayload)

theorem seven_le_width : 7 ≤ stampWidth p.flags := by
  unfold stampWidth
  split <;> omega

theorem length_body : p.body.length = p.stamps.length * stampWidth p.flags :=
  length_flatten_of_width p.width

theorem stamps_pos : 0 < p.stamps.length := by
  rw [p.count]
  exact List.length_pos_iff.mpr p.selects

theorem seven_le_body : 7 ≤ p.body.length := by
  rw [p.length_body]
  exact Nat.le_trans p.seven_le_width (Nat.le_mul_of_pos_left _ p.stamps_pos)

/-- Read seven bytes at a time, the body has a date for each stamp. -/
theorem count_le : p.stamps.length ≤ p.body.length / 7 := by
  rw [p.length_body, Nat.le_div_iff_mul_le (by decide)]
  exact Nat.mul_le_mul_left _ p.seven_le_width

/-- In the short form the seven bytes are the stamp's. -/
theorem short_stamp (h : longForm p.flags = false) {k : Nat}
    {stamp : List UInt8} (hk : p.stamps[k]? = some stamp) :
    ∃ d, (∃ r, stampParser b p.flags stamp = .ok (r, d))
      ∧ ∃ r, dateTime (p.body.drop (7 * k)) = .ok (r, d) := by
  have hwidth : stampWidth p.flags = 7 := by
    unfold stampWidth
    rw [h]
    rfl
  obtain ⟨d, hd⟩ := field_dateTime.takes stamp
    ((p.width _ (List.mem_of_getElem? hk)).trans hwidth)
  have hbody : p.body.drop (7 * k)
      = stamp ++ (p.stamps.drop (k + 1)).flatten := by
    obtain ⟨hlt, rfl⟩ := List.getElem?_eq_some_iff.mp hk
    unfold body
    rw [drop_flatten_of_width (fun s hs => (p.width s hs).trans hwidth),
      List.drop_eq_getElem_cons hlt, List.flatten_cons]
  refine ⟨d, ⟨[], ?_⟩, _, by rw [hbody]; exact hd _⟩
  unfold stampParser
  rw [h, if_neg Bool.false_ne_true, ← hd [], List.append_nil]

end TfPayload

-- ============================================================== the form

/-- The stamps that the decoder finds are in place exactly where each of
them reads as the seven bytes at its multiple of seven do. -/
theorem stampsInPlace_iff {p : TfPayload} {t : PosixTimestamp}
    {it : List OffsetDateTime} (hit : EachField 7 dateTime p.body it)
    (ht : stampFields t = deal p.flags stampFlags it) :
    StampsInPlace b p t ↔ ∀ k stamp, p.stamps[k]? = some stamp →
      ∃ d, (∃ r, stampParser b p.flags stamp = .ok (r, d))
        ∧ ∃ r, dateTime (p.body.drop (7 * k)) = .ok (r, d) := by
  have hcount : p.stamps.length ≤ it.length := by
    rw [hit.1]
    exact p.count_le
  unfold StampsInPlace
  rw [ht, and_iff_right fun x hx => deal_unselected hx,
    deal_selected (p.count ▸ hcount), ← selected, ← p.count,
    forall₂_take_iff_getElem hcount]
  refine forall_congr' fun k => forall_congr' fun stamp =>
    forall_congr' fun hk => exists_congr fun d => and_congr_right fun _ => ?_
  obtain ⟨hlt, _⟩ := List.getElem?_eq_some_iff.mp hk
  exact getElem?_eachField hit (Nat.lt_of_lt_of_le hlt hcount)

/-- The stamps of a payload get into their fields exactly where it has the
short form, or where each long stamp is the date that the seven bytes at
its place in the short form's layout are. -/
theorem stampsInPlace_parseData {version : UInt8} (sig : UInt8 × UInt8)
    (hversion : b.assertions = true → version = 1) (p : TfPayload) :
    (∃ r t, (PosixTimestamp.parseSusp b).parseData sig version p.bytes
          = .ok (r, t)
        ∧ StampsInPlace b p t)
      ↔ longForm p.flags = false
        ∨ ∀ k stamp, p.stamps[k]? = some stamp →
            ∃ d, (∃ r, dateTimeAscii b stamp = .ok (r, d))
              ∧ ∃ r, dateTime (p.body.drop (7 * k)) = .ok (r, d) := by
  obtain ⟨r, t, it, hparse, hit, ht⟩ :=
    parseData_timestamp sig hversion p.flags p.seven_le_body
  have hiff : (∃ r t, (PosixTimestamp.parseSusp b).parseData sig version p.bytes
        = .ok (r, t) ∧ StampsInPlace b p t) ↔ StampsInPlace b p t := by
    constructor
    · rintro ⟨r', t', h, hplace⟩
      have h := hparse.symm.trans h
      injection h with h
      injection h with _ h
      exact h ▸ hplace
    · exact fun h => ⟨r, t, hparse, h⟩
  rw [hiff, stampsInPlace_iff hit ht]
  cases hform : longForm p.flags with
  | false =>
      exact iff_of_true (fun k stamp hk => p.short_stamp hform hk) (.inl rfl)
  | true =>
      have hlong : stampParser b p.flags = dateTimeAscii b := by
        unfold stampParser
        rw [hform, if_pos rfl]
      rw [hlong]
      exact ⟨.inr, fun h => h.resolve_left Bool.noConfusion⟩

/-- Two stamps in the short form, for the creation and the access. -/
def shortPayload : TfPayload where
  flags := 5
  stamps := [[99, 1, 2, 3, 4, 5, 0], [100, 12, 31, 23, 59, 58, 4]]
  selects := by decide
  count := by decide
  width := by decide

/-- They get into their fields. -/
theorem stampsInPlace_shortPayload : ∃ r t,
    (PosixTimestamp.parseSusp debugBuild).parseData (0x54, 0x46) 1
        shortPayload.bytes = .ok (r, t)
      ∧ StampsInPlace debugBuild shortPayload t :=
  (stampsInPlace_parseData (0x54, 0x46) (fun _ => rfl) shortPayload).mpr
    (.inl (by decide))

/-- One stamp in the long form, for the creation: the first of January
in the year 1999, at noon. -/
def longPayload : TfPayload where
  flags := 0x81
  stamps :=
    [[49, 57, 57, 57, 48, 49, 48, 49, 49, 50, 48, 48, 48, 48, 48, 48, 0]]
  selects := by decide
  count := by decide
  width := by decide

/-- Its first seven digits are no date, and the field has the default. -/
theorem longPayload_misplaced : ¬ ∃ r t,
    (PosixTimestamp.parseSusp debugBuild).parseData (0x54, 0x46) 1
        longPayload.bytes = .ok (r, t)
      ∧ StampsInPlace debugBuild longPayload t := by
  rintro ⟨r, t, hparse, hplace⟩
  have hversion : debugBuild.assertions = true → (1 : UInt8) = 1 :=
    fun _ => rfl
  obtain ⟨_, t', it, hparse', hit, ht⟩ := parseData_timestamp (0x54, 0x46)
    hversion longPayload.flags longPayload.seven_le_body
  have heq := hparse'.symm.trans hparse
  injection heq with heq
  injection heq with _ heq
  obtain ⟨d, ⟨_, hlong⟩, _, hshort⟩ :=
    (stampsInPlace_iff hit ht).mp (heq ▸ hplace) 0 _ rfl
  have hdigits : (dateTimeAscii debugBuild longPayload.body >>=
      fun x => .ok x.2.date.year) = (.ok 3899 : Outcome Err Int) := by
    decide +kernel
  have hbytes : (dateTime longPayload.body >>= fun x => .ok x.2.date.year)
      = (.ok 0 : Outcome Err Int) := by
    decide +kernel
  have hlong' : dateTimeAscii debugBuild longPayload.body = .ok (_, d) := hlong
  have hshort' : dateTime longPayload.body = .ok (_, d) := hshort
  rw [hlong', Outcome.ok_bind] at hdigits
  rw [hshort', Outcome.ok_bind] at hbytes
  have hyears := hdigits.symm.trans hbytes
  injection hyears with hyears
  exact absurd hyears (by decide)

end Cdfs
