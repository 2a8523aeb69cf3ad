/-
What the descriptor parser makes of any block.

Every block is read before anything is checked, and an addition, a
subtraction or a product that has no result is a panic of a build with
overflow checks. There are two of them: the root record's length may be
below what has been read of it, and the hundredths of a second, a signed
number in two bytes, are cast to an unsigned one and taken by ten.

`PanicsOn` says of a part of the parser on which inputs it does so; the
rules below it put the parts together, in the order of the source.
-/
import Cdfs.Parse.VolumeDescriptor
import Cdfs.Proofs.ParseAgreement
import Cdfs.Proofs.RecordParse
import Cdfs.Rust.Ascii

namespace Cdfs

open Rust Parse Nom

variable {b : Build} {α β : Type} {checks : Bool} {P Q : Prop}

-- ============================================================= the rules

/-- Trouble on `P`, if overflow is checked, and none but on `P`. -/
structure PanicsOn (checks : Bool) (P : Prop) (x : Outcome Err α) :
    Prop where
  panics : checks = true → P → ∃ t : Trouble, x = t.outcome
  passes : ¬ P → ∀ t : Trouble, x ≠ t.outcome

/-- A part that is read up to `r` on `Fits`, with trouble on `Over` if
overflow is checked, and is an error otherwise. -/
structure ReadsUpTo (checks : Bool) (Over Fits : Prop) (r : Input)
    (x : Outcome Err (Input × α)) : Prop where
  panics : checks = true → Over → ∃ t : Trouble, x = t.outcome
  accepts : ¬ Over → Fits → ∃ a, x = .ok (r, a)
  rejects : ¬ Over → ¬ Fits → ∃ kind, x = .err (.error kind)

theorem PanicsOn.ok (a : α) : PanicsOn checks False (.ok a) where
  panics _ h := h.elim
  passes _ t := t.ne_ok a

theorem PanicsOn.error (kind : ErrorKind) :
    PanicsOn checks False (.err (.error kind) : Outcome Err α) where
  panics _ h := h.elim
  passes _ t := t.ne_error kind

theorem PanicsOn.congr {x : Outcome Err α} (h : PanicsOn checks P x)
    (hiff : P ↔ Q) : PanicsOn checks Q x :=
  propext hiff ▸ h

/-- A part that is never in trouble. -/
theorem PanicsOn.never {p : Parser α} {i : Input}
    (hp : ∀ t, Never t p) {f : Input × α → Outcome Err β}
    (hf : ∀ r, PanicsOn checks False (f r)) :
    PanicsOn checks False (p i >>= f) where
  panics _ h := h.elim
  passes _ t h := by
    rcases Trouble.bind_eq.mp h with h | ⟨r, -, h⟩
    · exact hp t i h
    · exact (hf r).passes id t h

theorem PanicsOn.map {p : Parser α} {i : Input}
    (h : PanicsOn checks P (p i)) (f : α → β) :
    PanicsOn checks P (Nom.map p f i) where
  panics hchecks hP := by
    obtain ⟨t, ht⟩ := h.panics hchecks hP
    exact ⟨t, Trouble.bind_eq.mpr (.inl ht)⟩
  passes hP t htrouble := by
    rcases Trouble.bind_eq.mp htrouble with htrouble | ⟨r, -, htrouble⟩
    · exact h.passes hP t htrouble
    · exact t.ne_ok _ htrouble

/-- A field that the input holds, `m` bytes from its front. -/
theorem PanicsOn.field {n : Nat} {p : Parser α} (hp : Field n p)
    {i : Input} {m : Nat} (hle : m + n ≤ i.length)
    {f : Input × α → Outcome Err β}
    (hf : ∀ a, PanicsOn checks P (f (i.drop (m + n), a))) :
    PanicsOn checks P (p (i.drop m) >>= f) := by
  obtain ⟨a, hi⟩ := hp.first (i := i.drop m)
    (by rw [List.length_drop]; omega)
  rw [List.drop_drop] at hi
  rw [hi]
  exact hf a

/-- A part that may panic itself, or let the rest do so. -/
theorem ReadsUpTo.bind {Over Fits : Prop} {r : Input}
    {x : Outcome Err (Input × α)} (hx : ReadsUpTo checks Over Fits r x)
    {f : Input × α → Outcome Err β}
    (hf : ∀ a, PanicsOn checks P (f (r, a))) :
    PanicsOn checks (Over ∨ Fits ∧ P) (x >>= f) where
  panics hchecks h := by
    by_cases hover : Over
    · obtain ⟨t, ht⟩ := hx.panics hchecks hover
      exact ⟨t, Trouble.bind_eq.mpr (.inl ht)⟩
    · obtain ⟨hfits, hP⟩ := h.resolve_left hover
      obtain ⟨a, ha⟩ := hx.accepts hover hfits
      rw [ha]
      exact (hf a).panics hchecks hP
  passes h t := by
    have hover : ¬ Over := fun hover => h (.inl hover)
    by_cases hfits : Fits
    · obtain ⟨a, ha⟩ := hx.accepts hover hfits
      rw [ha]
      exact (hf a).passes (fun hP => h (.inr ⟨hfits, hP⟩)) t
    · obtain ⟨kind, hkind⟩ := hx.rejects hover hfits
      rw [hkind]
      exact t.ne_error kind

-- ============================================================= the dates

/-- There is a number in the next `n` bytes. -/
def Number (n : Nat) (i : Input) : Prop :=
  ∃ v, asciiI32 n i = .ok (i.drop n, v)

/-- The seven numbers of a date and its offset. -/
def DateNumbers (i : Input) : Prop :=
  Number 4 i ∧ Number 2 (i.drop 4) ∧ Number 2 (i.drop 6)
    ∧ Number 2 (i.drop 8) ∧ Number 2 (i.drop 10) ∧ Number 2 (i.drop 12)
    ∧ Number 2 (i.drop 14) ∧ 17 ≤ i.length

/-- The hundredths of a second are below zero. -/
def NegativeHundredths (i : Input) : Prop :=
  ∃ r v, asciiI32 2 (i.drop 14) = .ok (r, v) ∧ v < 0

/-- A part that is a value of `Q` on `P`, and an error otherwise. -/
def Decided (P : Prop) (Q : Outcome Err α → Prop) (x : Outcome Err α) :
    Prop :=
  P ∧ Q x ∨ ¬ P ∧ ∃ kind, x = .err (.error kind)

theorem decided_number {n : Nat} {i : Input}
    {f : Input × Int → Outcome Err α} {R : Outcome Err α → Prop}
    (hf : ∀ v, asciiI32 n i = .ok (i.drop n, v) →
      Decided P R (f (i.drop n, v))) :
    Decided (Number n i ∧ P) R (asciiI32 n i >>= f) := by
  rcases ok_or_error (ends_asciiI32 n).returns
    (fun _ => never_asciiI32 n) i with ⟨⟨r, v⟩, hi⟩ | ⟨kind, hi⟩
  · obtain ⟨-, rfl⟩ := width_asciiI32 n i r v hi
    rw [hi]
    rcases hf v hi with ⟨hP, hQ⟩ | ⟨hP, herr⟩
    · exact .inl ⟨⟨⟨v, hi⟩, hP⟩, hQ⟩
    · exact .inr ⟨fun h => hP h.2, herr⟩
  · rw [hi]
    refine .inr ⟨fun ⟨⟨v, hv⟩, _⟩ => ?_, kind, rfl⟩
    rw [hi] at hv
    cases hv

/-- A date in digits up to its product. -/
theorem decided_dateTimeAscii (b : Build) (i : Input) :
    Decided (DateNumbers i)
      (fun x => ∃ (v : Int) (g : Nat → OffsetDateTime),
        asciiI32 2 (i.drop 14) = .ok (i.drop 16, v)
        ∧ x = (mulW 16 b.overflowChecks (asU16 v) 10 >>= fun millisecond =>
          .ok (i.drop 17, g millisecond)))
      (dateTimeAscii b i) := by
  have hnumbers : DateNumbers i ↔ Number 4 i ∧ Number 2 (i.drop 4)
      ∧ Number 2 ((i.drop 4).drop 2)
      ∧ Number 2 (((i.drop 4).drop 2).drop 2)
      ∧ Number 2 ((((i.drop 4).drop 2).drop 2).drop 2)
      ∧ Number 2 (((((i.drop 4).drop 2).drop 2).drop 2).drop 2)
      ∧ Number 2 ((((((i.drop 4).drop 2).drop 2).drop 2).drop 2).drop 2)
      ∧ 17 ≤ i.length := by
    simp only [List.drop_drop]
    rfl
  rw [hnumbers]
  unfold dateTimeAscii
  refine decided_number fun _ _ => ?_
  refine decided_number fun _ _ => ?_
  refine decided_number fun _ _ => ?_
  refine decided_number fun _ _ => ?_
  refine decided_number fun _ _ => ?_
  refine decided_number fun _ _ => ?_
  refine decided_number fun v hv => ?_
  simp only [List.drop_drop, Nat.reduceAdd] at hv ⊢
  by_cases hlen : 17 ≤ i.length
  · obtain ⟨a, ha⟩ := field_leU8.first (i := i.drop 16)
      (by rw [List.length_drop]; omega)
    rw [List.drop_drop] at ha
    rw [ha]
    exact .inl ⟨hlen, v, _, hv, rfl⟩
  · refine .inr ⟨hlen, .eof, ?_⟩
    rw [field_leU8.short (i.drop 16) (by rw [List.length_drop]; omega)]
    rfl

/-- A number in two bytes has two digits, or a sign and a digit. -/
theorem asciiI32_two {i r : Input} {v : Int}
    (h : asciiI32 2 i = .ok (r, v)) : -10 < v ∧ v < 100 := by
  unfold asciiI32 alt at h
  split at h
  case h_1 =>
    -- two zero bytes
    obtain ⟨_, -, h⟩ := Outcome.bind_eq_ok.mp h
    injection h with h
    injection h with _ hv
    have hzero : 0 = v := hv
    omega
  obtain ⟨⟨_, s⟩, htext, h⟩ := Outcome.bind_eq_ok.mp h
  obtain ⟨bytes, -, htake, htext⟩ := (width_take 2).step htext
  dsimp only at h htext
  split at h
  case h_2 => cases h
  injection h with h
  injection h with _ hv
  subst hv
  split at htext
  case h_2 => cases htext
  injection htext with htext
  injection htext with _ hs
  subst hs
  rename_i s hdecode _ hparse
  unfold take at htake
  split at htake
  case isFalse => cases htake
  injection htake with htake
  injection htake with _ hbytes
  have hchars := length_le_asBytes s
  rw [fromUtf8_eq_some.mp hdecode, ← hbytes] at hchars
  have htwo := Nat.le_trans hchars (List.length_take_le _ _)
  obtain ⟨n, h | h⟩ := parseI32_bounds hparse
  · have hpow := Nat.pow_le_pow_right (show 0 < 10 by decide) htwo
    omega
  · have hpow := Nat.pow_le_pow_right (show 0 < 10 by decide)
      (Nat.sub_le_sub_right htwo 1)
    omega

/-- The product of the hundredths has a result unless they are negative. -/
theorem mulW_hundredths (checks : Bool) {v : Int} (hv : -10 < v ∧ v < 100) :
    (v < 0 → checks = true →
        (mulW 16 checks (asU16 v) 10 : Outcome Err Nat) = .panic)
      ∧ (¬ v < 0 →
        ∃ n, (mulW 16 checks (asU16 v) 10 : Outcome Err Nat) = .ok n) := by
  unfold asU16 mulW
  refine ⟨fun hneg hchecks => ?_, fun hneg => ?_⟩
  · rw [if_neg (by omega), if_pos hchecks]
  · rw [if_pos (by omega)]
    exact ⟨_, rfl⟩

theorem readsUpTo_dateTimeAscii (b : Build) (i : Input) :
    ReadsUpTo b.overflowChecks (DateNumbers i ∧ NegativeHundredths i)
      (DateNumbers i) (i.drop 17) (dateTimeAscii b i) := by
  rcases decided_dateTimeAscii b i with
    ⟨hnumbers, v, g, hv, hdate⟩ | ⟨hnumbers, kind, hdate⟩
  · obtain ⟨hpanics, haccepts⟩ :=
      mulW_hundredths b.overflowChecks (asciiI32_two hv)
    refine ⟨fun hchecks ⟨_, r, v', hv', hneg⟩ => ?_, fun hover _ => ?_,
      fun _ h => absurd hnumbers h⟩
    · rw [hv] at hv'
      injection hv' with hv'
      injection hv' with _ hv'
      rw [hdate, hpanics (hv' ▸ hneg) hchecks]
      exact ⟨.panic, rfl⟩
    · obtain ⟨n, hn⟩ :=
        haccepts fun hneg => hover ⟨hnumbers, _, v, hv, hneg⟩
      rw [hdate, hn]
      exact ⟨g n, rfl⟩
  · exact ⟨fun _ h => absurd h.1 hnumbers, fun _ h => absurd h hnumbers,
      fun _ _ => ⟨kind, hdate⟩⟩

-- ======================================================== the root record

/-- A record that is whole, but for its area, whose decoder wants more
bytes than there are. -/
def AreaCutOff (b : Build) (enc : CharacterEncoding) (i : Input) : Prop :=
  FitsLength b enc i ∧ systemUseEntries b (areaOf i) = .err .incomplete

/-- A record whose identifier is in the input. -/
theorem readsUpTo_directoryEntry (hoff : b.assertions = false)
    {enc : CharacterEncoding} {i : Input}
    (hquiet : systemUseEntries b (areaOf i) ≠ .panic)
    (hname : 33 + nameLength i ≤ i.length) :
    ReadsUpTo b.overflowChecks (OverrunsLength b enc i ∨ AreaCutOff b enc i)
      (FitsLength b enc i) (i.drop (recordLength i))
      (directoryEntry b enc i) where
  panics hchecks hbad := by
    rcases hbad with hover | ⟨hfits, hcut⟩
    · have hsame : b.checked = b := by
        unfold Build.checked
        rw [← hchecks]
      rw [← hsame]
      exact ⟨.panic, directoryEntry_overruns hoff hover⟩
    · exact ⟨.incomplete, (directoryEntry_fits hoff hquiet hfits).2 hcut⟩
  accepts hgood hfits :=
    (directoryEntry_fits hoff hquiet hfits).1 fun hcut =>
      hgood (.inr ⟨hfits, hcut⟩)
  rejects hgood hfits := by
    rcases directoryEntry_cases hoff hquiet fun hover => hgood (.inl hover)
      with ⟨h, -⟩ | ⟨e, he, hkind⟩
    · exact absurd h hfits
    · obtain ⟨kind, rfl⟩ := hkind hname
      exact ⟨kind, he⟩

-- ============================================================== the table

/-- Among the next `n` dates there is one with negative hundredths, and
the numbers of all dates up to it can be read. -/
def DatesOverflow : Nat → Input → Prop
  | 0, _ => False
  | n + 1, i =>
      DateNumbers i ∧ NegativeHundredths i
        ∨ DateNumbers i ∧ DatesOverflow n (i.drop 17)

/-- The escape sequences are known or an error. -/
theorem characterEncoding_cases {i : Input} (h : 32 ≤ i.length) :
    (∃ enc, characterEncoding i = .ok (i.drop 32, enc))
      ∨ ∃ kind, characterEncoding i = .err (.error kind) := by
  have htags : ∀ x, alt ([
      value .ucs2Level1 (tag [0x25, 0x2F, 0x40]),
      value .ucs2Level2 (tag [0x25, 0x2F, 0x43]),
      value .ucs2Level3 (tag [0x25, 0x2F, 0x45]),
      value .iso9660 (tag (List.replicate 32 0))]
        : List (Parser CharacterEncoding)) i = x →
      (∃ n enc, n ≤ 32 ∧ x = .ok (i.drop n, enc))
        ∨ ∃ kind, x = .err (.error kind) := by
    rintro x rfl
    simp only [alt, value, Nom.map, tag]
    by_cases h1 : [0x25, 0x2F, 0x40] <+: i
    · rw [if_pos h1]
      exact .inl ⟨3, _, by decide, rfl⟩
    rw [if_neg h1]
    by_cases h2 : [0x25, 0x2F, 0x43] <+: i
    · rw [if_pos h2]
      exact .inl ⟨3, _, by decide, rfl⟩
    rw [if_neg h2]
    by_cases h3 : [0x25, 0x2F, 0x45] <+: i
    · rw [if_pos h3]
      exact .inl ⟨3, _, by decide, rfl⟩
    rw [if_neg h3]
    by_cases h4 : List.replicate 32 0 <+: i
    · rw [if_pos h4]
      exact .inl ⟨32, _, by decide, rfl⟩
    · rw [if_neg h4]
      exact .inr ⟨.tag, rfl⟩
  unfold characterEncoding
  rcases htags _ rfl with ⟨n, enc, hn, htag⟩ | ⟨kind, htag⟩
  · refine .inl ⟨enc, ?_⟩
    have hlen : i.length - (i.drop n).length = n := by
      rw [List.length_drop]
      omega
    rw [htag, Outcome.ok_bind]
    dsimp only
    rw [hlen]
    split
    · rw [take_of_le (by rw [List.length_drop]; omega), Outcome.ok_bind,
        List.drop_drop, Nat.add_sub_cancel' hn]
    · rw [show n = 32 by omega]
  · refine .inr ⟨kind, ?_⟩
    rw [htag, Outcome.err_bind]

/-- The lengths of the root record, its area, and the dates of the table
behind it. -/
def RootOverflows (b : Build) (enc : CharacterEncoding) (i : Input) : Prop :=
  (OverrunsLength b enc i ∨ AreaCutOff b enc i)
    ∨ FitsLength b enc i ∧ DatesOverflow 4 (i.drop (recordLength i + 623))

theorem recordLength_lt (i : Input) : recordLength i < 256 :=
  UInt8.toNat_lt _

theorem nameLength_lt (i : Input) : nameLength i < 256 :=
  UInt8.toNat_lt _

/-- The table behind the root record. -/
theorem panicsOn_descriptorTable (hoff : b.assertions = false) {i : Input}
    (hquiet : systemUseEntries b (areaOf (i.drop 149)) ≠ .panic)
    (hlen : 2041 ≤ i.length) :
    PanicsOn b.overflowChecks
      (∃ r enc, characterEncoding (i.drop 81) = .ok (r, enc)
        ∧ RootOverflows b enc (i.drop 149))
      (descriptorTable b i) := by
  have hrecord := recordLength_lt (i.drop 149)
  have hname := nameLength_lt (i.drop 149)
  have hroot : (i.drop 149).length = i.length - 149 := List.length_drop
  unfold descriptorTable
  show PanicsOn _ _ (take 1 (i.drop 0) >>= _)
  refine .field (field_take 1) (by omega) fun _ => ?_
  refine .field (field_take 32) (by omega) fun _ => ?_
  refine .field (field_take 32) (by omega) fun _ => ?_
  refine .field (field_take 8) (by omega) fun _ => ?_
  refine .field (field_bothEndian32 b) (by omega) fun _ => ?_
  simp only [Nat.reduceAdd]
  rcases characterEncoding_cases (i := i.drop 81)
      (by rw [List.length_drop]; omega) with ⟨enc, henc⟩ | ⟨kind, herr⟩
  case inr =>
    rw [herr]
    refine (PanicsOn.error kind).congr (iff_of_false id ?_)
    rintro ⟨_, _, h, -⟩
    cases h
  rw [henc, Outcome.ok_bind, List.drop_drop]
  refine .field (field_bothEndian16 b) (by omega) fun _ => ?_
  refine .field (field_bothEndian16 b) (by omega) fun _ => ?_
  refine .field (field_bothEndian16 b) (by omega) fun _ => ?_
  refine .field (field_bothEndian32 b) (by omega) fun _ => ?_
  refine .field field_leU32 (by omega) fun _ => ?_
  refine .field field_leU32 (by omega) fun _ => ?_
  refine .field (field_take 4) (by omega) fun _ => ?_
  refine .field (field_take 4) (by omega) fun _ => ?_
  simp only [Nat.reduceAdd]
  have hiff : (∃ r enc', (Outcome.ok (i.drop 113, enc) : Outcome Err _)
        = .ok (r, enc') ∧ RootOverflows b enc' (i.drop 149))
      ↔ RootOverflows b enc (i.drop 149) := by
    refine ⟨fun ⟨_, _, h, hover⟩ => ?_, fun h => ⟨_, enc, rfl, h⟩⟩
    injection h with h
    injection h with _ h
    exact h ▸ hover
  refine PanicsOn.congr ?_ hiff.symm
  refine (readsUpTo_directoryEntry hoff hquiet (by omega)).bind fun x => ?_
  obtain ⟨_, _, _⟩ := x
  generalize recordLength (i.drop 149) = l at hrecord ⊢
  generalize i.drop 149 = i at hroot ⊢
  refine .field (field_take 128) (by omega) fun _ => ?_
  refine .field (field_take 128) (by omega) fun _ => ?_
  refine .field (field_take 128) (by omega) fun _ => ?_
  refine .field (field_take 128) (by omega) fun _ => ?_
  refine .field (field_take 38) (by omega) fun _ => ?_
  refine .field (field_take 36) (by omega) fun _ => ?_
  refine .field (field_take 37) (by omega) fun _ => ?_
  simp only [Nat.add_assoc, Nat.reduceAdd]
  refine (readsUpTo_dateTimeAscii b _).bind fun _ => ?_
  refine (readsUpTo_dateTimeAscii b _).bind fun _ => ?_
  refine (readsUpTo_dateTimeAscii b _).bind fun _ => ?_
  refine (readsUpTo_dateTimeAscii b _).bind fun _ => ?_
  have hdecode : ∀ enc t, Never t (decodeString b enc) :=
    never_decodeString hoff
  refine .never (fun _ => never_leU8) fun (_, _) => ?_
  refine .never (hdecode enc) fun (_, _) => ?_
  refine .never (hdecode enc) fun (_, _) => ?_
  refine .never (hdecode enc) fun (_, _) => ?_
  refine .never (hdecode enc) fun (_, _) => ?_
  refine .never (hdecode enc) fun (_, _) => ?_
  refine .never (hdecode enc) fun (_, _) => ?_
  refine .never (hdecode enc) fun (_, _) => ?_
  refine .never (hdecode enc) fun (_, _) => ?_
  refine .never (hdecode .iso9660) fun (_, _) => ?_
  exact .ok _

-- ========================================================= the descriptor

theorem panicsOn_bootRecord (hoff : b.assertions = false) (i : Input) :
    PanicsOn checks False (bootRecord b i) := by
  have htext : ∀ t, Never t
      (mapParser (take 32) (decodeString b .iso9660)) := fun t =>
    (never_take 32).mapParser (never_decodeString hoff .iso9660 t)
  refine .never htext fun (_, _) => ?_
  refine .never htext fun (_, _) => ?_
  refine .never (fun _ => never_take 1977) fun (_, _) => ?_
  exact .ok _

/-- A primary or a supplementary descriptor whose escape sequences are
known, and whose root record has too small a length or an area that wants
more bytes, or one of the dates behind it negative hundredths. -/
def DescriptorOverflows (b : Build) (block : Input) : Prop :=
  (∃ typeCode : UInt8, (typeCode = 1 ∨ typeCode = 2)
      ∧ typeCode :: [0x43, 0x44, 0x30, 0x30, 0x31, 1] <+: block)
    ∧ ∃ r enc, characterEncoding (block.drop 88) = .ok (r, enc)
      ∧ RootOverflows b enc (block.drop 156)

theorem panicsOn_volumeDescriptor (hoff : b.assertions = false)
    {block : Input} (hblock : block.length = 2048)
    (hquiet : systemUseEntries b (areaOf (block.drop 156)) ≠ .panic) :
    PanicsOn b.overflowChecks (DescriptorOverflows b block)
      (volumeDescriptor b block) := by
  match block with
  | [] => cases hblock
  | typeCode :: i =>
      have hfront : ∀ {t : UInt8}, t :: [0x43, 0x44, 0x30, 0x30, 0x31, 1]
            <+: typeCode :: i
          ↔ t = typeCode ∧ [0x43, 0x44, 0x30, 0x30, 0x31, 1] <+: i :=
        List.cons_prefix_cons
      unfold DescriptorOverflows
      simp only [hfront, List.drop_succ_cons]
      unfold volumeDescriptor
      simp only [leU8, tag, Outcome.ok_bind]
      by_cases htag : [0x43, 0x44, 0x30, 0x30, 0x31, 1] <+: i
      case neg =>
        rw [if_neg htag]
        refine (PanicsOn.error _).congr (iff_of_false id ?_)
        rintro ⟨⟨_, _, _, h⟩, _⟩
        exact htag h
      rw [if_pos htag, Outcome.ok_bind]
      dsimp only [List.length_cons, List.length_nil]
      have htable := panicsOn_descriptorTable (b := b) hoff
        (i := i.drop 6) (by rwa [List.drop_drop]) (by
          rw [List.length_cons] at hblock
          rw [List.length_drop]
          omega)
      simp only [List.drop_drop, Nat.reduceAdd] at htable
      have hother : ¬ (typeCode = 1 ∨ typeCode = 2) →
          ∀ {P : Prop}, ¬ ((∃ t, (t = 1 ∨ t = 2) ∧ t = typeCode
            ∧ [0x43, 0x44, 0x30, 0x30, 0x31, 1] <+: i) ∧ P) := by
        rintro h _ ⟨⟨_, ht, heq, _⟩, _⟩
        exact h (heq ▸ ht)
      by_cases h0 : typeCode = 0
      · rw [if_pos h0]
        exact ((panicsOn_bootRecord hoff _).map some).congr
          (iff_of_false id (hother (by rw [h0]; decide)))
      rw [if_neg h0]
      by_cases h1 : typeCode = 1
      · rw [if_pos h1]
        exact ((htable.map VolumeDescriptor.primary).map some).congr
          ⟨fun h => ⟨⟨1, .inl rfl, h1.symm, htag⟩, h⟩, And.right⟩
      rw [if_neg h1]
      by_cases h2 : typeCode = 2
      · rw [if_pos h2]
        exact ((htable.map VolumeDescriptor.supplementary).map some).congr
          ⟨fun h => ⟨⟨2, .inr rfl, h2.symm, htag⟩, h⟩, And.right⟩
      rw [if_neg h2]
      refine PanicsOn.congr ?_
        (iff_of_false id (hother (not_or.mpr ⟨h1, h2⟩)))
      split
      · exact .ok _
      · exact .ok _

/-- A parser in trouble is what a call does not return from. -/
theorem parse_returned_iff {block : Input} :
    (VolumeDescriptor.parse b block).Returned
      ↔ ∀ t : Trouble, volumeDescriptor b block ≠ t.outcome := by
  have hends := VolumeDescriptor.parse_ne_running b block
  unfold VolumeDescriptor.parse at hends ⊢
  cases hx : volumeDescriptor b block with
  | ok r => exact iff_of_true trivial fun t => t.ne_ok r
  | err e =>
      cases e with
      | error kind => exact iff_of_true trivial fun t => t.ne_error kind
      | incomplete => exact iff_of_false id fun h => h .incomplete rfl
  | panic => exact iff_of_false id fun h => h .panic rfl
  | running =>
      rw [hx] at hends
      exact absurd rfl hends

/-- A build is less strict than the one that checks for overflow. -/
theorem Build.checked_tightens (b : Build) :
    b.checked.Tightens .panic b where
  assertions := Or.inl rfl
  overflowChecks := by
    cases hchecks : b.overflowChecks with
    | true => exact Or.inl rfl
    | false => exact Or.inr ⟨rfl, rfl⟩
  bigEndian := rfl
  decodeUtf16be := rfl

/-- Without assertions the parse of a block returns in every build, with
an overflow check for each operation or without, exactly if none of the
operations on the root record and on the dates overflows, and the root
record's area does not want more bytes. -/
theorem parse_block_returned_iff (hoff : b.assertions = false)
    {block : Input} (hblock : block.length = 2048)
    (hquiet : systemUseEntries b.checked (areaOf (block.drop 156))
      ≠ .panic) :
    (∀ checks : Bool, (VolumeDescriptor.parse
        { b with overflowChecks := checks } block).Returned)
      ↔ ¬ DescriptorOverflows b.checked block := by
  have hpanics : PanicsOn true (DescriptorOverflows b.checked block)
      (volumeDescriptor b.checked block) :=
    panicsOn_volumeDescriptor (b := b.checked) hoff hblock hquiet
  constructor
  · intro h hover
    obtain ⟨t, ht⟩ := hpanics.panics rfl hover
    exact parse_returned_iff.mp (h true) t ht
  · intro hover checks
    have hchecked : (VolumeDescriptor.parse b.checked block).Returned :=
      parse_returned_iff.mpr (hpanics.passes hover)
    have hupto : (VolumeDescriptor.parse b.checked block).Upto .panic
        (VolumeDescriptor.parse { b with overflowChecks := checks } block) :=
      upto_descriptorParse (Build.checked_tightens
        { b with overflowChecks := checks }) block
    rcases hupto with hstop | hsame
    · rw [hstop] at hchecked
      exact hchecked.elim
    · exact hsame ▸ hchecked

theorem not_datesOverflow {n : Nat} {i : Input}
    (h : ∀ k < n, ¬ NegativeHundredths (i.drop (17 * k))) :
    ¬ DatesOverflow n i := by
  induction n generalizing i with
  | zero => exact id
  | succ n ih =>
      rintro (⟨-, hneg⟩ | ⟨-, hrest⟩)
      · exact h 0 (by omega) hneg
      · refine ih (fun k hk => ?_) hrest
        rw [List.drop_drop, show 17 + 17 * k = 17 * (k + 1) by omega]
        exact h (k + 1) (by omega)

/-- Noon of the first day of 2000. -/
def noonDigits : Input := asBytes "2000010112000000" ++ [0]

/-- A primary descriptor with a root record and four dates. -/
def datedDescriptor : Input :=
  [1, 0x43, 0x44, 0x30, 0x30, 0x31, 1] ++ List.replicate 149 0
    ++ selfBytes ++ List.replicate 623 0
    ++ (List.replicate 4 noonDigits).flatten ++ List.replicate 1167 0

theorem datedDescriptor_returned :
    (VolumeDescriptor.parse { quietBuild with overflowChecks := true }
        datedDescriptor).Returned
      ∧ (VolumeDescriptor.parse { quietBuild with overflowChecks := false }
        datedDescriptor).Returned := by
  have harea : systemUseEntries quietBuild.checked
      (areaOf (datedDescriptor.drop 156)) = .err (.error .eof) := by
    decide +kernel
  have hdates : ∀ k < 4, (asciiI32 2 (((datedDescriptor.drop 156).drop
      (recordLength (datedDescriptor.drop 156) + 623 + 17 * k)).drop 14)).map
        Prod.snd = .ok 0 := by
    decide +kernel
  have hlength : datedDescriptor.length = 2048 := by decide +kernel
  have hquiet : systemUseEntries quietBuild.checked
      (areaOf (datedDescriptor.drop 156)) ≠ .panic := by
    rw [harea]
    exact fun h => nomatch h
  have hsound : ¬ DescriptorOverflows quietBuild.checked datedDescriptor := by
    rintro ⟨-, r, enc, -, (⟨-, hshort, -⟩ | ⟨-, hcut⟩) | ⟨-, hover⟩⟩
    · revert hshort
      decide +kernel
    · rw [harea] at hcut
      cases hcut
    · refine not_datesOverflow (fun k hk => ?_) hover
      rintro ⟨r, v, hv, hneg⟩
      have hzero := hdates k hk
      rw [← List.drop_drop, hv] at hzero
      injection hzero with hzero
      rw [show v = 0 from hzero] at hneg
      exact absurd hneg (by decide)
  -- the bytes themselves are not looked at any more
  generalize datedDescriptor = block at hlength hquiet hsound ⊢
  have hall := (parse_block_returned_iff (b := quietBuild) rfl hlength
    hquiet).mpr hsound
  exact ⟨hall true, hall false⟩

/-- A primary descriptor and zeros: a root record of length 0. -/
def zeroDescriptor : Input :=
  1 :: 0x43 :: 0x44 :: 0x30 :: 0x30 :: 0x31 :: 1 :: List.replicate 2041 0

theorem zeroDescriptor_panics : zeroDescriptor.length = 2048
    ∧ systemUseEntries quietBuild (areaOf (zeroDescriptor.drop 156))
      = .err (.error .eof)
    ∧ VolumeDescriptor.parse quietBuild zeroDescriptor = .panic := by
  decide +kernel

end Cdfs
