/-
Two builds at the parsers: what the one with more checks computes the
other computes too, unless the first is stopped on the way.

Assertions and overflow checks are the two things that a build may have
more of than another. Both only ever panic (`Build.Tightens`), and no
combinator recovers from a panic (`Nom.Upto`), so that each parser is as
its parts are, in the order of the source.
-/
import Cdfs.Nom.Upto
import Cdfs.Parse.DirectoryEntry
import Cdfs.Parse.VolumeDescriptor

namespace Cdfs

open Rust Parse

-- ========================================================= the builds

/-- The two builds differ in checks only, and only the first has checks
that the other lacks. Where the stop is not a panic they do not
differ. -/
structure Build.Tightens (t : Stop) (b b' : Build) : Prop where
  assertions : b.assertions = b'.assertions
    ∨ t = .panic ∧ b'.assertions = false
  overflowChecks : b.overflowChecks = b'.overflowChecks
    ∨ t = .panic ∧ b'.overflowChecks = false
  bigEndian : b.bigEndian = b'.bigEndian
  decodeUtf16be : b.decodeUtf16be = b'.decodeUtf16be

/-- A build against itself, for either kind of stop. -/
theorem Build.Tightens.refl (t : Stop) (b : Build) : b.Tightens t b :=
  ⟨Or.inl rfl, Or.inl rfl, rfl, rfl⟩

variable {t : Stop} {b b' : Build} {α : Type}

-- ========================================================= the parsers

namespace Parse

open Nom

section Parsers

variable (h : b.Tightens t b')

include h

/-- A number recorded in both byte orders. Which of the two is taken is
the same in both builds. -/
theorem upto_bothEndian16 :
    Upto t (bothEndian16 b) (bothEndian16 b') := by
  unfold bothEndian16
  rw [h.bigEndian]
  exact .refl _

/-- The same for four bytes. -/
theorem upto_bothEndian32 :
    Upto t (bothEndian32 b) (bothEndian32 b') := by
  unfold bothEndian32
  rw [h.bigEndian]
  exact .refl _

/-- A date in digits. The one thing a build can check here is the
multiplication of the hundredths, after the eight fields are taken. -/
theorem upto_dateTimeAscii :
    Upto t (dateTimeAscii b) (dateTimeAscii b') := by
  refine (Upto.refl _).step fun _ _ => ?_
  refine (Upto.refl _).step (fun _ _ => ?_) _
  refine (Upto.refl _).step (fun _ _ => ?_) _
  refine (Upto.refl _).step (fun _ _ => ?_) _
  refine (Upto.refl _).step (fun _ _ => ?_) _
  refine (Upto.refl _).step (fun _ _ => ?_) _
  refine (Upto.refl _).step (fun _ _ => ?_) _
  refine (Upto.refl _).step (fun _ _ => ?_) _
  exact (upto_mulW h.overflowChecks _ _ _).bind fun _ => .refl _

/-- A text in some encoding. Those of two bytes assert that there is
nothing malformed in it. -/
theorem upto_decodeString (enc : CharacterEncoding) :
    Upto t (decodeString b enc) (decodeString b' enc) := by
  have hucs2 : Upto t (decodeUcs2 b) (decodeUcs2 b') := by
    refine (Upto.refl rest).step fun i input => ?_
    show Outcome.Upto t (do
        Outcome.assert b.assertions (!(b.decodeUtf16be input).2)
        .ok (i, trimEnd (b.decodeUtf16be input).1)) _
    rw [h.decodeUtf16be]
    exact (Outcome.upto_assert h.assertions _).bind fun _ => .refl _
  cases enc with
  | iso9660 => exact .refl _
  | ucs2Level1 | ucs2Level2 | ucs2Level3 => exact hucs2

/-- A kind of entry, if its payload decoders are related. -/
theorem upto_parse {k k' : ParseSusp α} (hsig : k.signature = k'.signature)
    (hdata : ∀ sig version, Upto t (k.parseData sig version)
      (k'.parseData sig version)) :
    Upto t (k.parse b) (k'.parse b') := by
  have hparseSig : Upto t (k.parseSig b) (k'.parseSig b') := by
    have hsig' : k.sig = k'.sig := by
      unfold ParseSusp.sig
      rw [hsig]
    unfold ParseSusp.parseSig
    rw [hsig']
    refine (Upto.refl _).step fun _ _ => ?_
    refine (Upto.refl _).step (fun _ _ => ?_) _
    refine (Upto.refl _).step (fun _ _ => ?_) _
    dsimp only
    split
    · exact .refl _
    · exact (upto_subW h.overflowChecks _ _ _).bind fun _ => .refl _
  refine hparseSig.step fun _ r => ?_
  exact (hdata r.1 r.2.2.1 r.2.2.2).bind fun _ => .refl _

/-- The same as one of the kinds of entry. -/
theorem upto_kind {k k' : ParseSusp α} (f : α → SystemUseEntry)
    (hsig : k.signature = k'.signature)
    (hdata : ∀ sig version, Upto t (k.parseData sig version)
      (k'.parseData sig version)) :
    Upto t (map (k.parse b) f) (map (k'.parse b') f) :=
  (upto_parse h hsig hdata).map f

/-- The version is asserted, and then the payload is decoded. -/
theorem upto_assertVersion {p p' : Parser α} (hp : Upto t p p')
    (version : UInt8) :
    Upto t (fun i => (do
        assertVersion b version
        p i)) fun i => (do
        assertVersion b' version
        p' i) :=
  fun i => (Outcome.upto_assert h.assertions _).bind fun _ => hp i

/-- The payload is asserted to be as it should, and then decoded. -/
theorem upto_assertInput {p p' : Parser α} (hp : Upto t p p')
    (cond : Input → Bool) :
    Upto t (fun i => (do
        Outcome.assert b.assertions (cond i)
        p i)) fun i => (do
        Outcome.assert b'.assertions (cond i)
        p' i) :=
  fun i => (Outcome.upto_assert h.assertions _).bind fun _ => hp i

/-- One entry of a system use area: the choice between the kinds, in the
order in which the source tries them. -/
theorem upto_systemUseEntry :
    Upto t (systemUseEntry b) (systemUseEntry b') := by
  have h32 := upto_bothEndian32 h
  unfold systemUseEntry
  refine .alt (.cons ?sp (.cons ?ce (.cons ?er (.cons ?tf (.cons ?nm
    (.cons ?px (.cons ?rr (.cons ?cl (.cons ?re (.cons ?sl (.cons ?unknown
    .nil)))))))))))
  case sp =>
    refine upto_kind h _ rfl fun _ version => ?_
    exact upto_assertVersion h (.refl _) version
  case ce =>
    refine upto_kind h _ rfl fun _ version => ?_
    refine upto_assertVersion h (upto_assertInput h ?_ _) version
    refine h32.step fun _ _ => ?_
    refine h32.step (fun _ _ => ?_) _
    exact h32.step (fun _ _ => .refl _) _
  case er =>
    refine upto_kind h _ rfl fun _ version => ?_
    exact upto_assertVersion h (.refl _) version
  case tf =>
    refine upto_kind h _ rfl fun _ version => ?_
    exact upto_assertVersion h (.refl _) version
  case nm =>
    refine upto_kind h _ rfl fun _ version => ?_
    exact upto_assertVersion h (.refl _) version
  case px =>
    refine upto_kind h _ rfl fun _ version => ?_
    refine upto_assertVersion h (upto_assertInput h ?_ _) version
    refine (h32.map _).step fun _ _ => ?_
    refine h32.step (fun _ _ => ?_) _
    refine h32.step (fun _ _ => ?_) _
    refine h32.step (fun _ _ => ?_) _
    exact h32.opt.step (fun _ _ => .refl _) _
  case rr =>
    refine upto_kind h _ rfl fun _ version => ?_
    exact upto_assertInput h (upto_assertVersion h (.refl _) version) _
  case cl =>
    refine upto_kind h _ rfl fun _ version => ?_
    refine upto_assertVersion h ?_ version
    exact h32.step fun _ _ => .refl _
  case re =>
    refine upto_kind h _ rfl fun _ version => ?_
    exact upto_assertVersion h (upto_assertInput h (.refl _) _) version
  case sl =>
    refine upto_kind h _ rfl fun _ version => ?_
    exact upto_assertVersion h (.refl _) version
  case unknown => exact upto_kind h _ rfl fun _ _ => .refl _

/-- A whole area. -/
theorem upto_systemUseEntries :
    Upto t (systemUseEntries b) (systemUseEntries b') :=
  (upto_systemUseEntry h).many1

/-- A directory record. It is stopped by the assertions about its fields,
by the subtraction of what has been consumed from its length, and by
what stops its name or its area. -/
theorem upto_directoryEntry (enc : CharacterEncoding) :
    Upto t (directoryEntry b enc) (directoryEntry b' enc) := by
  have h32 := upto_bothEndian32 h
  have hid : Upto t (identifierText b enc) (identifierText b' enc) := by
    intro i
    unfold identifierText
    split
    · exact Upto.alt (.cons (.refl _) (.cons (.refl _)
        (.cons (upto_decodeString h enc) .nil))) i
    · exact upto_decodeString h enc i
  intro i
  refine (Upto.refl _).step (fun _ _ => ?_) _
  refine (Upto.refl _).step (fun _ _ => ?_) _
  refine h32.step (fun _ _ => ?_) _
  refine h32.step (fun _ _ => ?_) _
  refine (Upto.refl _).step (fun _ _ => ?_) _
  refine (Upto.refl _).step (fun _ _ => ?_) _
  refine (Upto.refl _).step (fun _ _ => ?_) _
  refine (Upto.refl _).step (fun _ _ => ?_) _
  refine (upto_bothEndian16 h).step (fun _ _ => ?_) _
  refine (Outcome.upto_assert h.assertions _).bind fun _ => ?_
  refine (Outcome.upto_assert h.assertions _).bind fun _ => ?_
  refine ((Upto.refl _).mapParser hid).step (fun _ _ => ?_) _
  refine (Upto.refl _).step (fun _ _ => ?_) _
  refine (upto_subW h.overflowChecks _ _ _).bind fun _ => ?_
  exact ((Upto.refl _).mapParser (upto_systemUseEntries h).opt).step
    (fun _ _ => .refl _) _

/-- The fields of a primary or supplementary descriptor in their order,
among them the root record, the four dates and the texts. -/
theorem upto_descriptorTable :
    Upto t (descriptorTable b) (descriptorTable b') := by
  have hdate := upto_dateTimeAscii h
  have hdecode := upto_decodeString h
  intro i
  refine (Upto.refl _).step (fun _ _ => ?_) _
  refine (Upto.refl _).step (fun _ _ => ?_) _
  refine (Upto.refl _).step (fun _ _ => ?_) _
  refine (Upto.refl _).step (fun _ _ => ?_) _
  refine (upto_bothEndian32 h).step (fun _ _ => ?_) _
  refine (Upto.refl characterEncoding).step (fun _ enc => ?_) _
  refine (upto_bothEndian16 h).step (fun _ _ => ?_) _
  refine (upto_bothEndian16 h).step (fun _ _ => ?_) _
  refine (upto_bothEndian16 h).step (fun _ _ => ?_) _
  refine (upto_bothEndian32 h).step (fun _ _ => ?_) _
  refine (Upto.refl _).step (fun _ _ => ?_) _
  refine (Upto.refl _).step (fun _ _ => ?_) _
  refine (Upto.refl _).step (fun _ _ => ?_) _
  refine (Upto.refl _).step (fun _ _ => ?_) _
  refine (upto_directoryEntry h enc).step (fun _ _ => ?_) _
  refine (Upto.refl _).step (fun _ _ => ?_) _
  refine (Upto.refl _).step (fun _ _ => ?_) _
  refine (Upto.refl _).step (fun _ _ => ?_) _
  refine (Upto.refl _).step (fun _ _ => ?_) _
  refine (Upto.refl _).step (fun _ _ => ?_) _
  refine (Upto.refl _).step (fun _ _ => ?_) _
  refine (Upto.refl _).step (fun _ _ => ?_) _
  refine hdate.step (fun _ _ => ?_) _
  refine hdate.step (fun _ _ => ?_) _
  refine hdate.step (fun _ _ => ?_) _
  refine hdate.step (fun _ _ => ?_) _
  refine (Upto.refl _).step (fun _ _ => ?_) _
  refine (hdecode enc).step (fun _ _ => ?_) _
  refine (hdecode enc).step (fun _ _ => ?_) _
  refine (hdecode enc).step (fun _ _ => ?_) _
  refine (hdecode enc).step (fun _ _ => ?_) _
  refine (hdecode enc).step (fun _ _ => ?_) _
  refine (hdecode enc).step (fun _ _ => ?_) _
  refine (hdecode enc).step (fun _ _ => ?_) _
  refine (hdecode enc).step (fun _ _ => ?_) _
  exact (hdecode .iso9660).step (fun _ _ => .refl _) _

/-- A descriptor of any kind. -/
theorem upto_volumeDescriptor :
    Upto t (volumeDescriptor b) (volumeDescriptor b') := by
  have htable := upto_descriptorTable h
  have hid : Upto t (mapParser (take 32) (decodeString b .iso9660))
      (mapParser (take 32) (decodeString b' .iso9660)) :=
    (Upto.refl _).mapParser (upto_decodeString h .iso9660)
  have hboot : Upto t (bootRecord b) (bootRecord b') := by
    refine hid.step fun _ _ => ?_
    exact hid.step (fun _ _ => .refl _) _
  refine (Upto.refl _).step fun i _ => ?_
  refine (Upto.refl _).step (fun i _ => ?_) _
  dsimp only
  split
  · exact hboot.map some i
  · split
    · exact (htable.map VolumeDescriptor.primary).map some i
    · split
      · exact (htable.map VolumeDescriptor.supplementary).map some i
      · exact .refl _

end Parsers

end Parse

-- ======================================================== the errors

/-- The caller of a parser. -/
theorem upto_liftNom {x y : Outcome Nom.Err α} (h : x.Upto t y) :
    (liftNom x).Upto t (liftNom y) := by
  rcases h with rfl | rfl
  · cases t with
    | panic => exact .stopped _
    | running => exact .stopped _
  · exact .refl _

/-- What the iterator calls to parse a record. -/
theorem upto_headerParse (h : b.Tightens t b') (input : Nom.Input)
    (enc : CharacterEncoding) :
    (DirectoryEntryHeader.parse b input enc).Upto t
      (DirectoryEntryHeader.parse b' input enc) :=
  (upto_liftNom (upto_directoryEntry h enc input)).bind fun _ => .refl _

/-- What the scan of the volume calls to parse a block. -/
theorem upto_descriptorParse (h : b.Tightens t b') (bytes : Nom.Input) :
    (VolumeDescriptor.parse b bytes).Upto t
      (VolumeDescriptor.parse b' bytes) :=
  (upto_liftNom (upto_volumeDescriptor h bytes)).bind fun _ => .refl _

end Cdfs
