/-
What the decoder of a system use area makes of arbitrary bytes, in a
build without assertions.

It reads frames as long as there are any and keeps what it cannot decode
as bytes, with two exceptions. A symbolic link whose last component is
cut off answers `Incomplete`, which no alternative catches; and behind
the last frame a length byte of 1, 2 or 3 is larger than the zero that
the code checks for and smaller than the four that it subtracts.
-/
import Cdfs.Proofs.SuspFrames
import Mathlib.Data.List.Forall2

namespace Cdfs

open Rust Parse Nom

variable {b : Build} {t : Trouble}

-- ========================================================= alternatives

/-- If no alternative accepts, there is an error. -/
theorem alt_error {α : Type} {i : Input} {ps : List (Parser α)}
    (h : ∀ p ∈ ps, ∃ kind, p i = .err (.error kind)) :
    ∃ kind, alt ps i = .err (.error kind) := by
  induction ps with
  | nil => exact ⟨.alt, rfl⟩
  | cons p ps ih =>
      have hp := h p List.mem_cons_self
      match ps with
      | [] => exact hp
      | q :: ps =>
          obtain ⟨kind, hkind⟩ := hp
          rw [alt_skip hkind]
          exact ih fun p' hp' => h p' (List.mem_cons_of_mem p hp')

/-- If the last alternative is in trouble and none before it accepts, so
are they all. -/
theorem alt_trouble {α : Type} {i : Input} {ps : List (Parser α)}
    {q : Parser α}
    (h : ∀ p ∈ ps, p i = t.outcome ∨ ∃ kind, p i = .err (.error kind))
    (hq : q i = t.outcome) : alt (ps ++ [q]) i = t.outcome := by
  induction ps with
  | nil => exact hq
  | cons p ps ih =>
      have hrest := ih fun p' hp' => h p' (List.mem_cons_of_mem p hp')
      have hcons : ∃ q' qs, ps ++ [q] = q' :: qs :=
        List.exists_cons_of_ne_nil (List.append_ne_nil_of_right_ne_nil _
          (List.cons_ne_nil _ _))
      obtain ⟨q', qs, hqs⟩ := hcons
      rw [hqs] at hrest
      rw [List.cons_append, hqs]
      rcases h p List.mem_cons_self with hp | ⟨kind, hkind⟩
      · cases t with
        | incomplete => simp only [alt, hp, Trouble.outcome]
        | panic => simp only [alt, hp, Trouble.outcome]
      · rw [alt_skip hkind]
        exact hrest

-- ================================================== behind the last frame

/-- The bytes go on with a length of 1, 2 or 3. -/
def DeclaresShort (i : List UInt8) : Prop :=
  ∃ s₀ s₁ length version rest, i = s₀ :: s₁ :: length :: version :: rest
    ∧ 1 ≤ length.toNat ∧ length.toNat < 4

/-- The signature of a kind is two bytes. -/
theorem sig_eq_ok {α : Type} {k : ParseSusp α} {i i' : Input} {sig : Input}
    (h : k.sig i = .ok (i', sig)) : ∃ s₀ s₁, i = s₀ :: s₁ :: i' := by
  unfold ParseSusp.sig at h
  cases hk : k.signature with
  | some sig' =>
      rw [hk] at h
      dsimp only [tag] at h
      split at h
      · rename_i hbegin
        obtain ⟨i'', hi⟩ := hbegin
        injection h with h
        injection h with hrest _
        rw [← hrest, ← hi]
        exact ⟨_, _, rfl⟩
      · cases h
  | none =>
      rw [hk] at h
      dsimp only [take] at h
      split at h
      · rename_i hlen
        injection h with h
        injection h with hrest _
        match i with
        | [] | [_] => simp at hlen
        | s₀ :: s₁ :: i => exact ⟨s₀, s₁, by rw [← hrest]; rfl⟩
      · cases h

theorem sig_ok_or_error {α : Type} (k : ParseSusp α) (i : Input) :
    (∃ r, k.sig i = .ok r) ∨ ∃ kind, k.sig i = .err (.error kind) := by
  refine ok_or_error (ends_sig k).returns (fun t => ?_) i
  unfold ParseSusp.sig
  split
  · exact never_tag _
  · exact never_take 2

/-- No kind accepts what is not a frame. A length of 1, 2 or 3 is not
rejected but subtracted from, which is a panic where that is checked. -/
theorem parse_noFrame {α : Type} (k : ParseSusp α)
    (wrap : α → SystemUseEntry) {i : Input} (hframe : frameAt i = none) :
    (∃ kind, Nom.map (k.parse b) wrap i = .err (.error kind))
      ∨ (DeclaresShort i ∧ (b.overflowChecks = true →
        Nom.map (k.parse b) wrap i = Trouble.panic.outcome)) := by
  rcases sig_ok_or_error k i with ⟨⟨i', sig⟩, hsig⟩ | ⟨kind, hsig⟩
  · obtain ⟨s₀, s₁, hi⟩ := sig_eq_ok hsig
    unfold Nom.map ParseSusp.parse ParseSusp.parseSig
    rw [hsig]
    subst hi
    match i' with
    | [] | [_] => exact Or.inl ⟨.eof, rfl⟩
    | length :: version :: rest =>
        simp only [Outcome.ok_bind, leU8]
        by_cases hzero : length = 0
        · rw [if_pos hzero]
          exact Or.inl ⟨.fail, rfl⟩
        · rw [if_neg hzero]
          have hpos : 1 ≤ length.toNat := by
            have hne : length.toNat ≠ 0 := fun h =>
              hzero (UInt8.toNat_inj.mp h)
            omega
          by_cases hfour : 4 ≤ length.toNat
          · rw [subW_of_le hfour]
            simp only [frameAt, dite_eq_right_iff, reduceCtorEq,
              imp_false] at hframe
            have hlong : ¬ length.toNat - 4 ≤ rest.length := fun h =>
              hframe ⟨hfour, h⟩
            simp only [Outcome.ok_bind, take, if_neg hlong]
            exact Or.inl ⟨.eof, rfl⟩
          · refine Or.inr ⟨⟨s₀, s₁, length, version, rest, rfl, hpos,
              by omega⟩, fun hchecks => ?_⟩
            simp only [subW, if_neg hfour, hchecks, if_true]
            rfl
  · refine Or.inl ⟨kind, ?_⟩
    unfold Nom.map ParseSusp.parse ParseSusp.parseSig
    rw [hsig]
    rfl

/-- The catch-all subtracts from any signature's length. -/
theorem unknown_short {i : Input} (hshort : DeclaresShort i)
    (hchecks : b.overflowChecks = true) :
    Nom.map (Unknown.parseSusp.parse b) SystemUseEntry.unknown i
      = Trouble.panic.outcome := by
  obtain ⟨s₀, s₁, length, version, rest, hi, hpos, hlt⟩ := hshort
  have hzero : length ≠ 0 := by
    intro h
    rw [h] at hpos
    exact absurd hpos (by decide)
  have hsub : (subW 64 b.overflowChecks length.toNat 4 : Outcome Err Nat)
      = .panic := by
    simp only [subW, if_neg (Nat.not_le.mpr hlt), hchecks, if_true]
  have hsig : Unknown.parseSusp.sig i
      = .ok (length :: version :: rest, [s₀, s₁]) := by
    rw [hi]
    rfl
  unfold Nom.map ParseSusp.parse ParseSusp.parseSig
  rw [hsig]
  simp only [Outcome.ok_bind, leU8, if_neg hzero, hsub]
  rfl

/-- Behind the last frame there is no entry, unless the bytes go on with
a short length. -/
theorem systemUseEntry_noFrame {i : Input} (hframe : frameAt i = none) :
    (¬ DeclaresShort i →
        ∃ kind, systemUseEntry b i = .err (.error kind))
      ∧ (DeclaresShort i → b.overflowChecks = true →
        systemUseEntry b i = Trouble.panic.outcome) := by
  constructor
  · intro hshort
    refine alt_error fun p hp => ?_
    have hkind : ∀ {α : Type} (k : ParseSusp α)
        (wrap : α → SystemUseEntry),
        ∃ kind, Nom.map (k.parse b) wrap i = .err (.error kind) := by
      intro α k wrap
      exact (parse_noFrame k wrap hframe).resolve_right
        fun h => hshort h.1
    simp only [List.mem_cons, List.not_mem_nil, or_false] at hp
    rcases hp with rfl | rfl | rfl | rfl | rfl | rfl | rfl | rfl | rfl
      | rfl | rfl
    all_goals exact hkind _ _
  · intro hshort hchecks
    have hkind : ∀ {α : Type} (k : ParseSusp α)
        (wrap : α → SystemUseEntry),
        Nom.map (k.parse b) wrap i = Trouble.panic.outcome
          ∨ ∃ kind, Nom.map (k.parse b) wrap i = .err (.error kind) := by
      intro α k wrap
      rcases parse_noFrame k wrap hframe with h | ⟨-, h⟩
      · exact Or.inr h
      · exact Or.inl (h hchecks)
    show alt ([_, _, _, _, _, _, _, _, _, _] ++ [_]) i = _
    refine alt_trouble (fun p hp => ?_) (unknown_short hshort hchecks)
    simp only [List.mem_cons, List.not_mem_nil, or_false] at hp
    rcases hp with rfl | rfl | rfl | rfl | rfl | rfl | rfl | rfl | rfl
      | rfl
    all_goals exact hkind _ _

-- ============================================================ the payloads

/-- In a build without assertions none fails. -/
theorem assert_ne_trouble (hassert : b.assertions = false) (cond : Bool) :
    (Outcome.assert b.assertions cond : Outcome Err Unit) ≠ t.outcome := by
  rw [hassert]
  exact t.ne_ok ()

/-- The trouble of a kind is that of its decoder. -/
theorem decodeWith_eq_trouble {α : Type} {k : ParseSusp α}
    {wrap : α → SystemUseEntry} {f : Frame} :
    decodeWith k wrap f = t.outcome
      ↔ k.parseData f.sig f.version f.payload = t.outcome := by
  unfold decodeWith
  cases t with
  | incomplete =>
      cases k.parseData f.sig f.version f.payload <;>
        simp [Outcome.map, Trouble.outcome]
  | panic =>
      cases k.parseData f.sig f.version f.payload <;>
        simp [Outcome.map, Trouble.outcome]

theorem never_decodeWith {α : Type} {k : ParseSusp α}
    (hk : ∀ sig version, Never t (k.parseData sig version))
    (wrap : α → SystemUseEntry) (f : Frame) :
    decodeWith k wrap f ≠ t.outcome := by
  rw [ne_eq, decodeWith_eq_trouble]
  exact hk f.sig f.version f.payload

theorem never_suspExtension : Never .incomplete suspExtension := by
  refine never_leU8.step fun _ => ?_
  refine never_leU8.step fun _ => ?_
  refine never_leU8.step fun _ => ?_
  refine never_leU8.step fun _ => ?_
  refine (((never_take _).mapRes _).map _).step fun _ => ?_
  refine (((never_take _).mapRes _).map _).step fun _ => ?_
  refine (((never_take _).mapRes _).map _).step fun _ => ?_
  dsimp only
  split
  · exact never_done _
  · split
    · exact never_done _
    · split
      · exact never_done _
      · exact fun _ h => nomatch h

theorem never_symbolicLinkRecord :
    Never .panic SymbolicLinkRecord.parse := by
  have hdata : Never .panic (lengthData leU8) := by
    refine never_leU8.step fun n i h => ?_
    dsimp only at h
    split at h
    · cases h
    · cases h
  exact (never_leU8.map _).step fun _ =>
    (hdata.mapRes _).step fun _ => never_done _

/-- Without assertions two decoders can get into trouble: a link's
answers `Incomplete`, and an unknown extension is a panic. -/
theorem decode_ne_trouble (hassert : b.assertions = false) {k : Kind}
    (hk : k ∈ kinds b) (f : Frame)
    (hlink : k.sig = (0x53, 0x4C) → t = .panic)
    (hext : k.sig = (0x45, 0x52) → t = .incomplete) :
    k.decode f ≠ t.outcome := by
  have hcheck : ∀ (cond : Bool) {α : Type} {p : Parser α}, Never t p →
      Never t fun i => (do
        Outcome.assert b.assertions cond
        p i) :=
    fun cond _ _ hp => Never.check
      (fun _ => assert_ne_trouble hassert cond) fun _ => hp
  have hinput : ∀ (cond : Input → Bool) {α : Type} {p : Parser α},
      Never t p → Never t fun i => (do
        Outcome.assert b.assertions (cond i)
        p i) :=
    fun cond _ _ hp => Never.check
      (fun i => assert_ne_trouble hassert (cond i)) fun _ => hp
  simp only [kinds, List.mem_cons, List.not_mem_nil, or_false] at hk
  rcases hk with rfl | rfl | rfl | rfl | rfl | rfl | rfl | rfl | rfl | rfl
  · refine never_decodeWith (fun _ _ => hcheck _ ?_) _ f
    exact (never_tag _).step fun _ => never_leU8.step fun _ => never_done _
  · refine never_decodeWith (fun _ _ => hcheck _ (hinput _ ?_)) _ f
    refine (never_bothEndian32 b).step fun _ => ?_
    refine (never_bothEndian32 b).step fun _ => ?_
    exact (never_bothEndian32 b).step fun _ => never_done _
  · cases hext rfl
    refine never_decodeWith (fun _ _ => hcheck _ ?_) _ f
    exact never_suspExtension.many1.step fun _ => never_done _
  · refine never_decodeWith (fun _ _ => hcheck _ ?_) _ f
    refine (never_leU8.map _).step fun _ => ?_
    exact never_dateTime.many1.step fun _ => never_done _
  · refine never_decodeWith (fun _ _ => hcheck _ ?_) _ f
    refine (never_leU8.map _).step fun _ => ?_
    exact ((never_rest.mapRes _).map _).step fun _ => never_done _
  · refine never_decodeWith (fun _ _ => hcheck _ (hinput _ ?_)) _ f
    refine ((never_bothEndian32 b).map _).step fun _ => ?_
    refine (never_bothEndian32 b).step fun _ => ?_
    refine (never_bothEndian32 b).step fun _ => ?_
    refine (never_bothEndian32 b).step fun _ => ?_
    exact (never_bothEndian32 b).opt.step fun _ => never_done _
  · refine never_decodeWith (fun _ _ => hinput _ (hcheck _ ?_)) _ f
    exact (never_leU8.map _).step fun _ => never_done _
  · refine never_decodeWith (fun _ _ => hcheck _ ?_) _ f
    exact (never_bothEndian32 b).step fun _ => never_done _
  · exact never_decodeWith
      (fun _ _ => hcheck _ (hinput _ (never_done _))) _ f
  · cases hlink rfl
    refine never_decodeWith (fun _ _ => hcheck _ ?_) _ f
    refine (never_alt fun p hp => ?_).step fun _ => ?_
    · simp only [List.mem_cons, List.not_mem_nil, or_false] at hp
      rcases hp with rfl | rfl
      · exact (never_tag _).value _
      · exact (never_tag _).value _
    · exact never_symbolicLinkRecord.many1.step fun _ => never_done _

-- ================================================== truncated components

/-- A component record with a text. -/
structure TextRecord where
  flags : UInt8
  text : String
  fits : (asBytes text).length ≤ 255

def TextRecord.encode (r : TextRecord) : List UInt8 :=
  r.flags :: UInt8.ofNat (asBytes r.text).length :: asBytes r.text

/-- Behind component records with a text there is one whose length byte
announces more than is left. -/
def Truncated (i : List UInt8) : Prop :=
  ∃ (records : List TextRecord) (flags length : UInt8) (rest : List UInt8),
    i = records.flatMap TextRecord.encode ++ flags :: length :: rest
      ∧ rest.length < length.toNat

/-- One record of any bytes. -/
theorem symbolicLinkRecord_parse (flags length : UInt8)
    (rest : List UInt8) :
    SymbolicLinkRecord.parse (flags :: length :: rest)
      = if length.toNat ≤ rest.length then
          match fromUtf8 (rest.take length.toNat) with
          | some text => .ok (rest.drop length.toNat,
              ⟨fromBitsTruncate SymbolicLinkRecordFlags.all flags, text⟩)
          | none => .err (.error .mapRes)
        else .err .incomplete := by
  unfold SymbolicLinkRecord.parse
  simp only [Nom.map, leU8, Outcome.ok_bind, mapRes, lengthData]
  by_cases hle : length.toNat ≤ rest.length
  · rw [if_pos hle, if_pos hle, Outcome.ok_bind]
    dsimp only
    cases fromUtf8 (rest.take length.toNat) with
    | some text => rfl
    | none => rfl
  · rw [if_neg hle, if_neg hle]
    rfl

theorem length_toNat {n : Nat} (h : n ≤ 255) : (UInt8.ofNat n).toNat = n := by
  have hlt : n < 256 := by omega
  exact UInt8.toNat_ofNat_of_lt' hlt

/-- What is in front of the other bytes is a record with a text. -/
theorem TextRecord.exists_encode {flags length : UInt8} {rest : List UInt8}
    {text : String} (hle : length.toNat ≤ rest.length)
    (htext : fromUtf8 (rest.take length.toNat) = some text) :
    ∃ r : TextRecord,
      r.encode ++ rest.drop length.toNat = flags :: length :: rest := by
  have hbytes := fromUtf8_eq_some.mp htext
  have hlen : (asBytes text).length = length.toNat := by
    rw [hbytes, List.length_take]
    omega
  have hlt := length.toNat_lt
  refine ⟨⟨flags, text, by omega⟩, ?_⟩
  unfold TextRecord.encode
  dsimp only
  rw [hlen, UInt8.ofNat_toNat, hbytes, List.cons_append, List.cons_append,
    List.take_append_drop]

/-- Whether the records are truncated is decided record by record. -/
theorem truncated_cons {flags length : UInt8} {rest : List UInt8} :
    Truncated (flags :: length :: rest)
      ↔ rest.length < length.toNat
        ∨ ∃ text, fromUtf8 (rest.take length.toNat) = some text
          ∧ length.toNat ≤ rest.length
          ∧ Truncated (rest.drop length.toNat) := by
  constructor
  · intro ⟨records, flags', length', rest', hi, hshort⟩
    match records with
    | [] =>
        injection hi with _ hi
        injection hi with hlength hrest
        left
        rw [hlength, hrest]
        exact hshort
    | r :: records =>
        rw [List.flatMap_cons, List.append_assoc] at hi
        injection hi with _ hi
        injection hi with hlength hrest
        change rest = asBytes r.text ++ _ at hrest
        have hlen : length.toNat = (asBytes r.text).length := by
          rw [hlength, length_toNat r.fits]
        refine Or.inr ⟨r.text, ?_, ?_, ?_⟩
        · rw [hrest, hlen, List.take_left]
          exact fromUtf8_asBytes r.text
        · rw [hrest, hlen, List.length_append]
          omega
        · rw [hrest, hlen, List.drop_left]
          exact ⟨records, flags', length', rest', rfl, hshort⟩
  · intro h
    rcases h with hshort | ⟨text, htext, hle, records, flags', length',
      rest', hrest, hshort⟩
    · exact ⟨[], flags, length, rest, rfl, hshort⟩
    · obtain ⟨r, hr⟩ := TextRecord.exists_encode hle htext
      refine ⟨r :: records, flags', length', rest', ?_, hshort⟩
      rw [List.flatMap_cons, List.append_assoc, ← hrest, hr]

theorem not_truncated_short {i : List UInt8} (h : i.length < 2) :
    ¬ Truncated i := by
  intro ⟨records, flags, length, rest, hi, _⟩
  rw [hi, List.length_append, List.length_cons, List.length_cons] at h
  omega

/-- One record is rejected, cut off, or read. -/
theorem record_cases (i : Input) :
    (∃ kind, SymbolicLinkRecord.parse i = .err (.error kind)
        ∧ ¬ Truncated i)
      ∨ (SymbolicLinkRecord.parse i = .err .incomplete ∧ Truncated i)
      ∨ ∃ i' d, SymbolicLinkRecord.parse i = .ok (i', d)
        ∧ i'.length < i.length ∧ (Truncated i ↔ Truncated i') := by
  match i with
  | [] => exact Or.inl ⟨.eof, rfl, not_truncated_short (by simp)⟩
  | [_] => exact Or.inl ⟨.eof, rfl, not_truncated_short (by simp)⟩
  | flags :: length :: rest =>
      rw [symbolicLinkRecord_parse, truncated_cons]
      by_cases hle : length.toNat ≤ rest.length
      · rw [if_pos hle]
        cases htext : fromUtf8 (rest.take length.toNat) with
        | none =>
            refine Or.inl ⟨.mapRes, rfl, fun h => ?_⟩
            rcases h with h | ⟨_, h, -⟩
            · omega
            · cases h
        | some text =>
            refine Or.inr (Or.inr ⟨_, _, rfl, ?_, fun h => ?_, fun h =>
              Or.inr ⟨text, rfl, hle, h⟩⟩)
            · rw [List.length_drop, List.length_cons, List.length_cons]
              omega
            · rcases h with h | ⟨_, -, -, h⟩
              · omega
              · exact h
      · rw [if_neg hle]
        exact Or.inr (Or.inl ⟨rfl, Or.inl (by omega)⟩)

/-- The records of a link answer `Incomplete` exactly when they are
truncated. -/
theorem many_incomplete_iff (fuel : Nat) :
    ∀ i : Input, i.length < fuel →
      (many SymbolicLinkRecord.parse fuel i = Trouble.incomplete.outcome
        ↔ Truncated i) := by
  induction fuel with
  | zero => exact fun i h => absurd h (Nat.not_lt_zero _)
  | succ fuel ih =>
      intro i hfuel
      rw [many_eq_trouble]
      rcases record_cases i with ⟨kind, hone, hnot⟩ | ⟨hone, hcut⟩
        | ⟨i', d, hone, hlt, hiff⟩
      · rw [hone]
        refine iff_of_false ?_ hnot
        rintro (h | ⟨_, _, h, -⟩)
        · exact absurd h (Trouble.ne_error _ kind)
        · cases h
      · exact iff_of_true (Or.inl hone) hcut
      · rw [hone, hiff, ← ih i' (by omega)]
        constructor
        · rintro (h | ⟨_, _, ⟨⟩, -, h⟩)
          · exact absurd h (Trouble.ne_ok _ _)
          · exact h
        · intro h
          exact Or.inr ⟨i', d, rfl, by omega, h⟩

theorem many1_incomplete_iff (i : Input) :
    many1 SymbolicLinkRecord.parse i = Trouble.incomplete.outcome
      ↔ Truncated i := by
  rw [many1_eq_trouble]
  rcases record_cases i with ⟨kind, hone, hnot⟩ | ⟨hone, hcut⟩
    | ⟨i', d, hone, hlt, hiff⟩
  · rw [hone]
    refine iff_of_false ?_ hnot
    rintro (h | ⟨_, _, h, -⟩)
    · exact absurd h (Trouble.ne_error _ kind)
    · cases h
  · exact iff_of_true (Or.inl hone) hcut
  · rw [hone, hiff, ← many_incomplete_iff _ i' (Nat.lt_succ_self _)]
    constructor
    · rintro (h | ⟨_, _, ⟨⟩, h⟩)
      · exact absurd h (Trouble.ne_ok _ _)
      · exact h
    · intro h
      exact Or.inr ⟨i', d, rfl, h⟩

/-- A symbolic link whose components are truncated. -/
def TruncatedLink (f : Frame) : Prop :=
  f.sig = (0x53, 0x4C) ∧ ∃ flag i, f.payload = flag :: i
    ∧ (flag = 0 ∨ flag = 1) ∧ Truncated i

/-- The decoder of links answers `Incomplete` exactly then. -/
theorem link_incomplete_iff (hassert : b.assertions = false) {f : Frame}
    (hsig : f.sig = (0x53, 0x4C)) :
    decodeWith (SymbolicLink.parseSusp b) .symbolicLink f
        = Trouble.incomplete.outcome ↔ TruncatedLink f := by
  rw [decodeWith_eq_trouble]
  unfold TruncatedLink SymbolicLink.parseSusp assertVersion
  simp only [hassert, Outcome.assert, Bool.false_and, Bool.false_eq_true,
    if_false, Outcome.ok_bind]
  rcases alt_flag_cases f.payload with ⟨more, i, hpay, hflag⟩ |
    ⟨hnot, kind, hkind⟩
  · rw [hflag, hpay, Outcome.ok_bind]
    dsimp only
    rw [Trouble.bind_eq, many1_incomplete_iff]
    constructor
    · intro h
      rcases h with h | ⟨_, -, h⟩
      · refine ⟨hsig, _, i, rfl, ?_, h⟩
        cases more with
        | true => exact Or.inr rfl
        | false => exact Or.inl rfl
      · cases h
    · rintro ⟨_, flag, i', hi, _, h⟩
      injection hi with _ hi
      rw [hi]
      exact Or.inl h
  · rw [hkind]
    constructor
    · intro h
      exact absurd h (Trouble.ne_error .incomplete kind)
    · rintro ⟨_, flag, i', hi, hzero, _⟩
      exact absurd hzero (hnot flag i' hi)

-- =============================================================== the area

/-- The entry that a frame stands for: what its decoder makes of it, or
else its bytes. -/
def Frame.expected (b : Build) (f : Frame) : SystemUseEntry :=
  match f.typed b with
  | some (.ok e) => e
  | _ => .unknown f.unknown

/-- No `ER` frame names an extension that is `unimplemented!`. -/
def NamesKnown (b : Build) (i : List UInt8) : Prop :=
  ∀ f ∈ (splitFrames i).1, f.sig = (0x45, 0x52) → f.typed b ≠ some .panic

/-- The area is read frame by frame: an entry for each, and what is
behind the last is left; without a frame there is an error. -/
def ReadByFrames (b : Build) (i : List UInt8) : Prop :=
  if (splitFrames i).1 = [] then
    ∃ kind, systemUseEntries b i = .err (.error kind)
  else systemUseEntries b i
    = .ok ((splitFrames i).2, (splitFrames i).1.map (·.expected b))

theorem typed_link {f : Frame} (hsig : f.sig = (0x53, 0x4C)) :
    f.typed b
      = some (decodeWith (SymbolicLink.parseSusp b) .symbolicLink f) := by
  unfold Frame.typed
  rw [hsig]
  rfl

/-- A frame is decoded or kept, unless it is a truncated link. -/
theorem entry_cases (hassert : b.assertions = false) {f : Frame}
    (hknown : f.sig = (0x45, 0x52) → f.typed b ≠ some .panic) :
    (¬ TruncatedLink f → f.entry b = .ok (f.expected b))
      ∧ (TruncatedLink f → f.entry b = Trouble.incomplete.outcome) := by
  have htrunc : TruncatedLink f → f.typed b = some (.err .incomplete) := by
    intro h
    rw [typed_link h.1]
    exact congrArg some ((link_incomplete_iff hassert h.1).mpr h)
  refine ⟨fun hnot => ?_, fun h => ?_⟩
  · have hends := (ends_systemUseEntry b).returns (f.encode ++ [])
    rw [systemUseEntry_frame] at hends
    unfold Frame.entry Frame.expected at *
    cases htyped : f.typed b with
    | none => rfl
    | some r =>
        obtain ⟨k, hfind, hdec⟩ := Option.map_eq_some_iff.mp htyped
        have hmem := List.mem_of_find?_eq_some hfind
        have hsig : k.sig = f.sig := by
          simpa using List.find?_some hfind
        rw [htyped] at hends hknown
        cases r with
        | ok e => rfl
        | err e =>
            cases e with
            | error kind => rfl
            | incomplete =>
                -- only a link's decoder answers so
                by_cases hlink : f.sig = (0x53, 0x4C)
                · rw [typed_link hlink] at htyped
                  injection htyped with htyped
                  exact absurd ((link_incomplete_iff hassert hlink).mp htyped)
                    hnot
                · exact absurd hdec (decode_ne_trouble (t := .incomplete)
                    hassert hmem f (fun h => absurd (hsig ▸ h) hlink)
                    fun _ => rfl)
        | panic =>
            by_cases hext : f.sig = (0x45, 0x52)
            · exact absurd rfl (hknown hext)
            · exact absurd hdec (decode_ne_trouble (t := .panic)
                hassert hmem f (fun _ => rfl)
                fun h => absurd (hsig ▸ h) hext)
        | running => exact absurd rfl hends
  · unfold Frame.entry
    rw [htrunc h]
    rfl

/-- Frames that are no truncated links are decoded or kept. -/
theorem frames_decode (hassert : b.assertions = false)
    {frames : List Frame}
    (hknown : ∀ f ∈ frames, f.sig = (0x45, 0x52) → f.typed b ≠ some .panic)
    (hwhole : ∀ f ∈ frames, ¬ TruncatedLink f) :
    List.Forall₂ (Decodes b) (frames.map Frame.encode)
      (frames.map (·.expected b)) := by
  rw [List.forall₂_map_left_iff, List.forall₂_map_right_iff,
    List.forall₂_same]
  intro f hf
  exact decodes_frame ((entry_cases hassert (hknown f hf)).1 (hwhole f hf))

/-- What a decoder makes of a frame does not depend on the overflow
checks. -/
theorem typed_checks (b : Build) (checks : Bool) (f : Frame) :
    f.typed { b with overflowChecks := checks } = f.typed b := rfl

/-- A frame is decoded or kept, or the whole area is in trouble. -/
theorem ReadByFrames.ne_trouble {i : List UInt8} (h : ReadByFrames b i)
    (t : Trouble) : systemUseEntries b i ≠ t.outcome := by
  unfold ReadByFrames at h
  split at h
  · obtain ⟨kind, h⟩ := h
    rw [h]
    exact t.ne_error kind
  · rw [h]
    exact t.ne_ok _

/-- A truncated link in an area is trouble. -/
theorem systemUseEntries_truncated (hassert : b.assertions = false)
    {i : List UInt8} (hknown : NamesKnown b i)
    (hcut : ∃ f ∈ (splitFrames i).1, TruncatedLink f) :
    systemUseEntries b i = Trouble.incomplete.outcome := by
  classical
  obtain ⟨hsplit, -⟩ := splitFrames_spec i
  unfold NamesKnown at hknown
  generalize (splitFrames i).1 = frames at *
  -- the first of them
  have hfirst : (frames.find? fun f => decide (TruncatedLink f)).isSome := by
    obtain ⟨f, hf, hcut⟩ := hcut
    exact List.find?_isSome.mpr ⟨f, hf, decide_eq_true hcut⟩
  obtain ⟨f, hfind⟩ := Option.isSome_iff_exists.mp hfirst
  obtain ⟨hcut, before, after, hfs, hbefore⟩ :=
    List.find?_eq_some_iff_append.mp hfind
  have hdecodes : List.Forall₂ (Decodes b) (before.map Frame.encode)
      (before.map (·.expected b)) := by
    refine frames_decode hassert (fun g hg => ?_) (fun g hg => ?_)
    · exact hknown g (hfs ▸ List.mem_append_left _ hg)
    · simpa using hbefore g hg
  have hentry := (entry_cases hassert (hknown f (List.mem_of_find?_eq_some
    hfind))).2 (of_decide_eq_true hcut)
  rw [hsplit, hfs, List.map_append, List.flatten_append, List.append_assoc,
    List.map_cons, List.flatten_cons, List.append_assoc]
  refine many1_trouble hdecodes ?_
  rw [systemUseEntry_frame, hentry]
  rfl

/-- An area of other frames is read up to its last frame; whether it is
read at all depends on what is behind that. -/
theorem readByFrames_whole (hassert : b.assertions = false)
    {i : List UInt8} (hknown : NamesKnown b i)
    (hwhole : ∀ f ∈ (splitFrames i).1, ¬ TruncatedLink f) :
    (¬ DeclaresShort (splitFrames i).2 → ReadByFrames b i)
      ∧ (DeclaresShort (splitFrames i).2 → b.overflowChecks = true →
        systemUseEntries b i = Trouble.panic.outcome) := by
  obtain ⟨hsplit, hend⟩ := splitFrames_spec i
  have hdecodes := frames_decode hassert hknown hwhole
  obtain ⟨hrest, hpanic⟩ := systemUseEntry_noFrame (b := b) hend
  unfold ReadByFrames
  generalize (splitFrames i).1 = frames at *
  generalize (splitFrames i).2 = tail at *
  constructor
  · intro hshort
    obtain ⟨kind, hkind⟩ := hrest hshort
    by_cases hnil : frames = []
    · rw [if_pos hnil]
      rw [hnil, List.map_nil, List.flatten_nil, List.nil_append] at hsplit
      rw [hsplit]
      refine ⟨kind, ?_⟩
      unfold systemUseEntries many1
      rw [hkind]
      rfl
    · rw [if_neg hnil, hsplit]
      refine systemUseEntries_eq hdecodes ?_ hkind
      rwa [ne_eq, List.map_eq_nil_iff]
  · intro hshort hchecks
    rw [hsplit]
    exact many1_trouble hdecodes (hpanic hshort hchecks)

/-- In a build without assertions any bytes are read frame by frame, with
overflow checks and without, exactly when no frame is a symbolic link
with truncated components and the bytes behind the last frame do not go
on with a length of 1, 2 or 3. -/
theorem readByFrames_iff (hassert : b.assertions = false) {i : List UInt8}
    (hknown : NamesKnown b i) :
    (∀ checks, ReadByFrames { b with overflowChecks := checks } i)
      ↔ (∀ f ∈ (splitFrames i).1, ¬ TruncatedLink f)
        ∧ ¬ DeclaresShort (splitFrames i).2 := by
  have hknown' : ∀ checks,
      NamesKnown { b with overflowChecks := checks } i := by
    intro checks f hf hsig
    rw [typed_checks]
    exact hknown f hf hsig
  constructor
  · intro h
    have hwhole : ∀ f ∈ (splitFrames i).1, ¬ TruncatedLink f := by
      intro f hf hcut
      have hincomplete := systemUseEntries_truncated
        (b := { b with overflowChecks := true }) hassert (hknown' true)
        ⟨f, hf, hcut⟩
      exact (h true).ne_trouble .incomplete hincomplete
    refine ⟨hwhole, fun hshort => ?_⟩
    obtain ⟨-, hpanic⟩ := readByFrames_whole
      (b := { b with overflowChecks := true }) hassert (hknown' true) hwhole
    exact (h true).ne_trouble .panic (hpanic hshort rfl)
  · intro ⟨hwhole, hshort⟩ checks
    obtain ⟨hread, -⟩ := readByFrames_whole
      (b := { b with overflowChecks := checks }) hassert (hknown' checks)
      hwhole
    exact hread hshort

-- ========================================================= bytes to run on

/-- A build that checks overflow and has no assertions. -/
def quietBuild : Build where
  assertions := false
  overflowChecks := true
  bigEndian := false
  decodeUtf16be _ := ("", false)

/-- An `RE` entry. -/
def relocatedFrame : Frame := ⟨(0x52, 0x45), 1, [], by decide⟩

/-- An `SL` entry whose only component is said to have five bytes and has
none. -/
def cutLinkFrame : Frame := ⟨(0x53, 0x4C), 1, [0, 0, 5], by decide⟩

/-- The `RE` entry, and behind it a length of 1. -/
def shortArea : List UInt8 := relocatedFrame.encode ++ [0x52, 0x52, 1, 1]

/-- The `RE` entry and the `SL` entry. -/
def cutArea : List UInt8 := relocatedFrame.encode ++ cutLinkFrame.encode

theorem splitFrames_shortArea :
    splitFrames shortArea = ([relocatedFrame], [0x52, 0x52, 1, 1]) := by
  have hend : frameAt [0x52, 0x52, 1, 1] = none := by decide
  have h : splitFrames (([relocatedFrame].map Frame.encode).flatten
      ++ [0x52, 0x52, 1, 1]) = ([relocatedFrame], [0x52, 0x52, 1, 1]) :=
    splitFrames_eq hend
  exact h

theorem splitFrames_cutArea :
    splitFrames cutArea = ([relocatedFrame, cutLinkFrame], []) := by
  have h : splitFrames (([relocatedFrame, cutLinkFrame].map
      Frame.encode).flatten ++ []) = ([relocatedFrame, cutLinkFrame], []) :=
    splitFrames_eq rfl
  exact h

/-- The short length is a panic, and the cut link takes the `RE` entry
with it. -/
theorem readByFrames_fails :
    (NamesKnown quietBuild shortArea
        ∧ systemUseEntries quietBuild shortArea = .panic
        ∧ ¬ ReadByFrames quietBuild shortArea)
      ∧ (NamesKnown quietBuild cutArea
        ∧ systemUseEntries quietBuild cutArea = .err .incomplete
        ∧ ¬ ReadByFrames quietBuild cutArea) := by
  have hshort : systemUseEntries quietBuild shortArea
      = Trouble.panic.outcome := by decide +kernel
  have hcut : systemUseEntries quietBuild cutArea
      = Trouble.incomplete.outcome := by decide +kernel
  refine ⟨⟨?_, hshort, fun h => h.ne_trouble .panic hshort⟩,
    ⟨?_, hcut, fun h => h.ne_trouble .incomplete hcut⟩⟩
  · unfold NamesKnown
    rw [splitFrames_shortArea]
    decide
  · unfold NamesKnown
    rw [splitFrames_cutArea]
    decide

/-- Attributes with three bytes for all the numbers. -/
def shortAttributesFrame : Frame := ⟨(0x50, 0x58), 1, [1, 2, 3], by decide⟩

/-- The cut link once more, but with a continue byte that is neither 0
nor 1. -/
def strayLinkFrame : Frame := ⟨(0x53, 0x4C), 1, [2, 0, 5], by decide⟩

def mixedFrames : List Frame :=
  [shortAttributesFrame, relocatedFrame, strayLinkFrame]

/-- The three of them with padding behind. -/
def mixedArea : List UInt8 := (mixedFrames.map Frame.encode).flatten ++ [0, 0]

/-- The `RE` entry is read, and what their decoders reject is kept as it
is before and behind it. -/
theorem readByFrames_mixed :
    ReadByFrames quietBuild mixedArea
      ∧ mixedFrames.map (·.expected quietBuild)
        = [.unknown shortAttributesFrame.unknown, .relocatedDirectory ⟨true⟩,
          .unknown strayLinkFrame.unknown] := by
  have hsplit : splitFrames mixedArea = (mixedFrames, [0, 0]) :=
    splitFrames_eq rfl
  have hknown : NamesKnown quietBuild mixedArea := by
    unfold NamesKnown
    rw [hsplit]
    decide
  have hwhole : ∀ f ∈ mixedFrames, ¬ TruncatedLink f := by
    rintro f hf ⟨hsig, flag, i, hpay, hflag, -⟩
    rcases List.mem_cons.mp hf with rfl | hf
    · exact absurd hsig (by decide)
    rcases List.mem_cons.mp hf with rfl | hf
    · exact absurd hsig (by decide)
    rw [List.mem_singleton.mp hf] at hpay
    injection hpay with hpay
    rw [← hpay] at hflag
    exact absurd hflag (by decide)
  refine ⟨(readByFrames_iff rfl hknown).mpr ⟨?_, ?_⟩ true, by decide +kernel⟩
  · rw [hsplit]
    exact hwhole
  · rw [hsplit]
    intro ⟨_, _, _, _, _, h, _⟩
    cases h

end Cdfs
