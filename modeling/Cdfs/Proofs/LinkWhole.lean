/-
What a symbolic link keeps of its payload.

Any bytes are component records, and then either nothing or a component
that cannot be decoded (`exists_components`): it is cut off, so that its
length byte announces more than there is, or it has no length byte at
all, or its text is not UTF-8. The first of these is `Incomplete`, and
the entry is rejected. The other two are an `Error`, at which `many1`
stops; what it leaves is dropped by `ParseSusp::parse`. So a payload is
decoded whole or rejected unless one of the two follows a component that
can be decoded (`wholeOrRejected_iff`).
-/
import Cdfs.Proofs.Layout
import Cdfs.Proofs.SuspRoundTrip

namespace Cdfs

open Rust Parse Nom

variable {b : Build}

-- ================================================ statement vocabulary

/-- The link accounts for every byte of the payload: for the flag byte,
and record by record for the others. -/
def MadeOf (payload : List UInt8) (link : SymbolicLink) : Prop :=
  ∃ records : List TextRecord,
    payload = (if link.shouldContinue then 1 else 0)
        :: records.flatMap TextRecord.encode
      ∧ link.records = records.map TextRecord.decoded

/-- A component that is an error: a single byte, or one with a text that
is not UTF-8, and anything behind it. -/
inductive Dropped : List UInt8 → Prop
  | lone (flags : UInt8) : Dropped [flags]
  | notUtf8 {flags length : UInt8} {rest : List UInt8} :
      length.toNat ≤ rest.length →
      fromUtf8 (rest.take length.toNat) = none →
      Dropped (flags :: length :: rest)

/-- A component that is longer than what there is. -/
inductive CutOff : List UInt8 → Prop
  | short {flags length : UInt8} {rest : List UInt8} :
      rest.length < length.toNat → CutOff (flags :: length :: rest)

/-- The decoder of links accepts the frame's payload as a whole or not at
all: what it returns accounts for every byte, and it returns nothing if
any component is truncated or not UTF-8. -/
structure WholeOrRejected (b : Build) (f : Frame) : Prop where
  whole {rest i : List UInt8} {link : SymbolicLink} :
    (SymbolicLink.parseSusp b).parse b (f.encode ++ rest) = .ok (i, link) →
    MadeOf f.payload link
  rejected {flag : UInt8} {records : List TextRecord} {bad : List UInt8} :
    f.payload = flag :: (records.flatMap TextRecord.encode ++ bad) →
    Dropped bad ∨ CutOff bad → ∀ rest r,
    (SymbolicLink.parseSusp b).parse b (f.encode ++ rest) ≠ .ok r

/-- Behind the flag byte and at least one component there is one that is
an error, and the version is not objected to. -/
def DropsRest (b : Build) (f : Frame) : Prop :=
  f.sig = (0x53, 0x4C) ∧ (b.assertions = true → f.version = 1)
    ∧ ∃ (more : Bool) (records : List TextRecord) (bad : List UInt8),
      records ≠ []
        ∧ f.payload = (if more then 1 else 0)
          :: (records.flatMap TextRecord.encode ++ bad)
        ∧ Dropped bad

-- ========================================================== components

theorem Dropped.parse {bad : List UInt8} (h : Dropped bad) :
    ∃ kind, SymbolicLinkRecord.parse bad = .err (.error kind) := by
  cases h with
  | lone flags => exact ⟨.eof, rfl⟩
  | notUtf8 hle htext =>
      refine ⟨.mapRes, ?_⟩
      rw [symbolicLinkRecord_parse, if_pos hle, htext]

theorem parse_end {bad : List UInt8} (h : bad = [] ∨ Dropped bad) :
    ∃ kind, SymbolicLinkRecord.parse bad = .err (.error kind) := by
  rcases h with rfl | h
  · exact ⟨.eof, rfl⟩
  · exact h.parse

theorem CutOff.parse {bad : List UInt8} (h : CutOff bad) :
    SymbolicLinkRecord.parse bad = .err .incomplete := by
  cases h with
  | short hshort =>
      rw [symbolicLinkRecord_parse, if_neg (Nat.not_le.mpr hshort)]

/-- Any bytes are components up to one that cannot be decoded. -/
theorem exists_components (i : List UInt8) :
    ∃ (records : List TextRecord) (bad : List UInt8),
      i = records.flatMap TextRecord.encode ++ bad
        ∧ (bad = [] ∨ Dropped bad ∨ CutOff bad) := by
  induction hlen : i.length using Nat.strongRecOn generalizing i with
  | ind n ih =>
      match i with
      | [] => exact ⟨[], [], rfl, Or.inl rfl⟩
      | [flags] => exact ⟨[], [flags], rfl, Or.inr (Or.inl (.lone flags))⟩
      | flags :: length :: rest =>
          by_cases hle : length.toNat ≤ rest.length
          · cases htext : fromUtf8 (rest.take length.toNat) with
            | none =>
                exact ⟨[], _, rfl, Or.inr (Or.inl (.notUtf8 hle htext))⟩
            | some text =>
                -- a component, and those behind it
                have hlt : (rest.drop length.toNat).length < n := by
                  rw [← hlen, List.length_drop, List.length_cons,
                    List.length_cons]
                  omega
                obtain ⟨r, hr⟩ := TextRecord.exists_encode hle htext
                obtain ⟨records, bad, hrest, hbad⟩ := ih _ hlt _ rfl
                refine ⟨r :: records, bad, ?_, hbad⟩
                rw [List.flatMap_cons, List.append_assoc, ← hrest, hr]
          · exact ⟨[], _, rfl,
              Or.inr (Or.inr (.short (Nat.not_le.mp hle)))⟩

theorem takes_components (records : List TextRecord) :
    List.Forall₂ (Takes SymbolicLinkRecord.parse)
      (records.map TextRecord.encode) (records.map TextRecord.decoded) := by
  rw [List.forall₂_map_left_iff, List.forall₂_map_right_iff,
    List.forall₂_same]
  exact fun r _ => r.takes_decoded

/-- The components are what the decoder gives, and the rest is what it
leaves. -/
theorem many1_components {records : List TextRecord} {bad : List UInt8}
    (hne : records ≠ []) (hbad : bad = [] ∨ Dropped bad) :
    many1 SymbolicLinkRecord.parse
        (records.flatMap TextRecord.encode ++ bad)
      = .ok (bad, records.map TextRecord.decoded) := by
  obtain ⟨kind, hkind⟩ := parse_end hbad
  rw [List.flatMap_def]
  exact many1_takes (takes_components records)
    (by rwa [ne_eq, List.map_eq_nil_iff]) hkind

/-- Without a component there is an error. -/
theorem many1_end {bad : List UInt8} (hbad : bad = [] ∨ Dropped bad) :
    ∃ kind, many1 SymbolicLinkRecord.parse bad = .err (.error kind) := by
  obtain ⟨kind, hkind⟩ := parse_end hbad
  refine ⟨kind, ?_⟩
  unfold many1
  rw [hkind]
  rfl

/-- A component that is cut off spoils them all. -/
theorem many1_cutOff (records : List TextRecord) {bad : List UInt8}
    (hbad : CutOff bad) :
    many1 SymbolicLinkRecord.parse
        (records.flatMap TextRecord.encode ++ bad)
      = .err .incomplete := by
  rw [List.flatMap_def]
  exact many1_trouble (t := .incomplete) (takes_components records)
    hbad.parse

/-- What the decoder accepts is components, and what it leaves is an
error. -/
theorem many1_eq_ok {i left : Input} {ds : List SymbolicLinkRecord}
    (h : many1 SymbolicLinkRecord.parse i = .ok (left, ds)) :
    ∃ records : List TextRecord, records ≠ []
      ∧ i = records.flatMap TextRecord.encode ++ left
      ∧ ds = records.map TextRecord.decoded
      ∧ (left = [] ∨ Dropped left) := by
  obtain ⟨records, bad, rfl, hbad⟩ := exists_components i
  rcases or_assoc.mpr hbad with hbad | hbad
  · by_cases hne : records = []
    · obtain ⟨kind, hkind⟩ := many1_end hbad
      rw [hne, List.flatMap_nil, List.nil_append, hkind] at h
      cases h
    · rw [many1_components hne hbad] at h
      injection h with h
      injection h with hleft hds
      subst hleft hds
      exact ⟨records, hne, rfl, rfl, hbad⟩
  · rw [many1_cutOff records hbad] at h
    cases h

-- ============================================================== frames

/-- The decoder sees the payload of a frame of its own kind. -/
theorem parse_link {f : Frame} {rest i : List UInt8} {link : SymbolicLink} :
    (SymbolicLink.parseSusp b).parse b (f.encode ++ rest) = .ok (i, link)
      ↔ f.sig = (0x53, 0x4C) ∧ i = rest ∧ ∃ left,
        (SymbolicLink.parseSusp b).parseData f.sig f.version f.payload
          = .ok (left, link) := by
  by_cases hsig : f.sig = (0x53, 0x4C)
  · have hself : (SymbolicLink.parseSusp b).sig (f.encode ++ rest)
        = .ok (f.encode.drop 2 ++ rest, [f.sig.1, f.sig.2]) := by
      unfold Frame.encode
      rw [hsig]
      exact sig_some rfl _
    rw [parse_frame hself, Outcome.bind_eq_ok]
    constructor
    · rintro ⟨⟨left, link'⟩, hdata, h⟩
      injection h with h
      injection h with hi hlink
      exact ⟨hsig, hi.symm, left, hlink ▸ hdata⟩
    · rintro ⟨-, rfl, left, hdata⟩
      exact ⟨_, hdata, rfl⟩
  · have hother := parse_other (k := SymbolicLink.parseSusp b) (b := b) rfl
      (fun h => hsig (Prod.ext h.1.symm h.2.symm)) .symbolicLink
      (f.encode.drop 2 ++ rest)
    refine iff_of_false (fun h => ?_) fun h => hsig h.1
    change Nom.map _ _ (f.encode ++ rest) = _ at hother
    unfold Nom.map at hother
    rw [h] at hother
    cases hother

/-- The decoder accepts a frame if it is a link's, its version is not
objected to, and there are components behind the flag byte. -/
theorem parse_link_iff {f : Frame} {rest i : List UInt8}
    {link : SymbolicLink} :
    (SymbolicLink.parseSusp b).parse b (f.encode ++ rest) = .ok (i, link)
      ↔ f.sig = (0x53, 0x4C) ∧ (b.assertions = true → f.version = 1)
        ∧ i = rest ∧ ∃ i' left,
          f.payload = (if link.shouldContinue then 1 else 0) :: i'
            ∧ many1 SymbolicLinkRecord.parse i' = .ok (left, link.records) := by
  rw [parse_link]
  refine and_congr_right fun _ => ?_
  unfold SymbolicLink.parseSusp assertVersion Outcome.assert
  dsimp only
  by_cases hversion : b.assertions = true → f.version = 1
  · rw [if_neg (by simpa using hversion), Outcome.ok_bind,
      and_iff_right hversion]
    refine and_congr_right fun _ => ?_
    rcases alt_flag_cases f.payload with ⟨more, i', hpay, hflag⟩ |
      ⟨hnot, kind, hkind⟩
    · rw [hflag, Outcome.ok_bind]
      constructor
      · rintro ⟨left, h⟩
        obtain ⟨⟨left', ds⟩, hmany, h⟩ := Outcome.bind_eq_ok.mp h
        injection h with h
        injection h with _ hlink
        rw [← hlink]
        exact ⟨i', left', hpay, hmany⟩
      · rintro ⟨i'', left, hpay', hmany⟩
        rw [hpay', alt_flag] at hflag
        injection hflag with hflag
        injection hflag with hi hmore
        refine ⟨left, ?_⟩
        dsimp only
        rw [← hi, ← hmore, hmany]
        rfl
    · rw [hkind]
      refine iff_of_false (fun h => nomatch h.choose_spec) ?_
      rintro ⟨i', left, hpay, -⟩
      rw [hpay, alt_flag] at hkind
      cases hkind
  · rw [if_pos (by simpa using hversion)]
    refine iff_of_false ?_ fun h => hversion h.1
    rintro ⟨-, left, h⟩
    cases h

/-- A payload is decoded whole or rejected exactly if no component that
is an error follows one that is not. -/
theorem wholeOrRejected_iff (b : Build) (f : Frame) :
    WholeOrRejected b f ↔ ¬ DropsRest b f := by
  constructor
  · rintro h ⟨hsig, hversion, more, records, bad, hne, hpay, hbad⟩
    have hmany := many1_components hne (Or.inr hbad)
    exact h.rejected hpay (Or.inl hbad) [] ([], ⟨more, _⟩)
      (parse_link_iff.mpr ⟨hsig, hversion, rfl, _, _, hpay, hmany⟩)
  · intro hkeeps
    constructor
    · intro rest i link h
      obtain ⟨hsig, hversion, -, i', left, hpay, hmany⟩ :=
        parse_link_iff.mp h
      obtain ⟨records, hne, rfl, hrecords, hleft⟩ := many1_eq_ok hmany
      rcases hleft with rfl | hleft
      · rw [List.append_nil] at hpay
        exact ⟨records, hpay, hrecords⟩
      · exact absurd ⟨hsig, hversion, _, records, left, hne, hpay, hleft⟩
          hkeeps
    · rintro flag records bad hpay hbad rest ⟨i, link⟩ h
      obtain ⟨hsig, hversion, -, i', left, hpay', hmany⟩ :=
        parse_link_iff.mp h
      rw [hpay] at hpay'
      injection hpay' with hflag hi
      rw [← hi] at hmany
      rcases hbad with hbad | hbad
      · by_cases hne : records = []
        · obtain ⟨kind, hkind⟩ := many1_end (Or.inr hbad)
          rw [hne, List.flatMap_nil, List.nil_append, hkind] at hmany
          cases hmany
        · rw [hflag] at hpay
          exact hkeeps ⟨hsig, hversion, _, records, bad, hne, hpay, hbad⟩
      · rw [many1_cutOff records hbad] at hmany
        cases hmany

/-- The component `a`. -/
def letterRecord : TextRecord := ⟨0, "a", by decide⟩

/-- The target `a/é`, in Latin-1. -/
def latinFrame : Frame where
  sig := (0x53, 0x4C)
  version := 1
  payload := [0, 0, 1, 0x61, 0, 1, 0xE9]
  fits := by decide

/-- It is decoded as `a`. -/
theorem wholeOrRejected_latin :
    (SymbolicLink.parseSusp debugBuild).parse debugBuild
        (latinFrame.encode ++ [])
      = .ok ([], ⟨false, [⟨0, "a"⟩]⟩)
    ∧ ¬ WholeOrRejected debugBuild latinFrame := by
  have hbad : Dropped [0, 1, 0xE9] :=
    .notUtf8 (by decide) (by decide +kernel)
  have hpay : latinFrame.payload
      = 0 :: ([letterRecord].flatMap TextRecord.encode ++ [0, 1, 0xE9]) := by
    decide
  have hmany : many1 SymbolicLinkRecord.parse
      ([letterRecord].flatMap TextRecord.encode ++ [0, 1, 0xE9])
        = .ok ([0, 1, 0xE9], [⟨0, "a"⟩]) :=
    many1_components (List.cons_ne_nil _ _) (Or.inr hbad)
  have hparse : (SymbolicLink.parseSusp debugBuild).parse debugBuild
      (latinFrame.encode ++ []) = .ok ([], ⟨false, [⟨0, "a"⟩]⟩) :=
    parse_link_iff.mpr ⟨rfl, fun _ => rfl, rfl, _, _, hpay, hmany⟩
  exact ⟨hparse, fun h => h.rejected hpay (Or.inl hbad) [] _ hparse⟩

end Cdfs
