/-
Entries as they are recorded, and that the decoder gives them back.

A `SuspRecord` is an entry that a writer may record: its fields carry
what makes it well formed, so that what `frame` lays out is a frame, and
`decoded` is what a reader should find. Each kind has a lemma about its
payload; the list is then read frame by frame, and the padding behind it
is no frame.
-/
import Cdfs.Proofs.SuspTotality

namespace Cdfs

open Rust Parse Nom

variable {b : Build}

-- ========================================================== time stamps

/-- A recorded stamp: its seven bytes, and the time that `date_time`
reads them as. -/
structure Stamp where
  bytes : List UInt8
  time : OffsetDateTime
  read : dateTime bytes = .ok ([], time)

theorem Stamp.takes (s : Stamp) : Takes dateTime s.bytes s.time := by
  intro rest
  exact stable_dateTime s.bytes [] s.time rest s.read

/-- The stamps of a `TF` entry, in the order in which they are
recorded. -/
structure Stamps where
  creation : Option Stamp
  modify : Option Stamp
  access : Option Stamp
  attributes : Option Stamp
  backup : Option Stamp
  expiration : Option Stamp
  effective : Option Stamp

namespace Stamps

def all (s : Stamps) : List Stamp :=
  s.creation.toList ++ (s.modify.toList ++ (s.access.toList
    ++ (s.attributes.toList ++ (s.backup.toList ++ (s.expiration.toList
    ++ s.effective.toList)))))

/-- The flag byte that says which stamps there are, in the short form. -/
def flagByte (creation modify access attributes backup expiration
    effective : Bool) : UInt8 :=
  (if creation then PosixTimestampFlags.CREATION else 0)
    ||| (if modify then PosixTimestampFlags.MODIFY else 0)
    ||| (if access then PosixTimestampFlags.ACCESS else 0)
    ||| (if attributes then PosixTimestampFlags.ATTRIBUTES else 0)
    ||| (if backup then PosixTimestampFlags.BACKUP else 0)
    ||| (if expiration then PosixTimestampFlags.EXPIRATION else 0)
    ||| (if effective then PosixTimestampFlags.EFFECTIVE else 0)

def flags (s : Stamps) : UInt8 :=
  flagByte s.creation.isSome s.modify.isSome s.access.isSome
    s.attributes.isSome s.backup.isSome s.expiration.isSome
    s.effective.isSome

def payload (s : Stamps) : List UInt8 := s.flags :: s.all.flatMap (·.bytes)

/-- The times. -/
def decoded (s : Stamps) : PosixTimestamp where
  creation := s.creation.map (·.time)
  modify := s.modify.map (·.time)
  access := s.access.map (·.time)
  attributes := s.attributes.map (·.time)
  backup := s.backup.map (·.time)
  expiration := s.expiration.map (·.time)
  effective := s.effective.map (·.time)

end Stamps

/-- Each flag can be read from the byte, and none is dropped. -/
theorem contains_flagByte : ∀ c m a t k x e : Bool,
    let flags := fromBitsTruncate PosixTimestampFlags.all
      (Stamps.flagByte c m a t k x e)
    contains flags PosixTimestampFlags.CREATION = c
      ∧ contains flags PosixTimestampFlags.MODIFY = m
      ∧ contains flags PosixTimestampFlags.ACCESS = a
      ∧ contains flags PosixTimestampFlags.ATTRIBUTES = t
      ∧ contains flags PosixTimestampFlags.BACKUP = k
      ∧ contains flags PosixTimestampFlags.EXPIRATION = x
      ∧ contains flags PosixTimestampFlags.EFFECTIVE = e := by
  decide

theorem nextStamp_eq {flags flag : UInt8} {o : Option Stamp}
    (h : contains flags flag = o.isSome) (rest : List Stamp) :
    nextStamp flags flag ((o.toList ++ rest).map (·.time))
      = (o.map (·.time), rest.map (·.time)) := by
  unfold nextStamp
  rw [h]
  cases o with
  | none => rfl
  | some s => rfl

theorem length_bytes (s : Stamp) : s.bytes.length = 7 := by
  obtain ⟨hle, hrest⟩ := width_dateTime _ _ _ s.read
  have hdrop := congrArg List.length hrest
  rw [List.length_drop, List.length_nil] at hdrop
  omega

/-- At most seven stamps fit into an entry. -/
theorem Stamps.fits (s : Stamps) : s.payload.length ≤ 251 := by
  have hone : ∀ o : Option Stamp, o.toList.length ≤ 1 := by
    intro o
    cases o with
    | none => exact Nat.zero_le _
    | some _ => exact Nat.le_refl _
  have hall : s.all.length ≤ 7 := by
    have h₁ := hone s.creation
    have h₂ := hone s.modify
    have h₃ := hone s.access
    have h₄ := hone s.attributes
    have h₅ := hone s.backup
    have h₆ := hone s.expiration
    have h₇ := hone s.effective
    unfold all
    simp only [List.length_append]
    omega
  have hsum : ∀ l : List Stamp, (l.flatMap (·.bytes)).length
      = 7 * l.length := by
    intro l
    induction l with
    | nil => rfl
    | cons s l ih =>
        rw [List.flatMap_cons, List.length_append, length_bytes, ih,
          List.length_cons]
        omega
  unfold payload
  rw [List.length_cons, hsum]
  omega

-- =========================================================== extensions

/-- The registered extensions that the crate recognises, by name. -/
def registered : List (String × SuspExtension) := [
  ("RRIP_1991A", .rockRidge1_09),
  ("IEEE_P1282", .rockRidge1_12),
  ("IEEE_1282", .rockRidge1_12)]

/-- An extension as an `ER` entry records it, the name padded at its end
or not. -/
structure ExtensionRecord where
  id : String
  description : String
  source : String
  extension : SuspExtension
  recognised : (trimEnd id, extension) ∈ registered
  fitsId : (asBytes id).length ≤ 255
  fitsDescription : (asBytes description).length ≤ 255
  fitsSource : (asBytes source).length ≤ 255

def ExtensionRecord.encode (e : ExtensionRecord) : List UInt8 :=
  UInt8.ofNat (asBytes e.id).length
    :: UInt8.ofNat (asBytes e.description).length
    :: UInt8.ofNat (asBytes e.source).length :: 1
    :: (asBytes e.id ++ (asBytes e.description ++ asBytes e.source))

/-- Bytes that are a text or are rejected. -/
theorem text_eq {bytes : List UInt8} {n : Nat} (hn : n = bytes.length)
    (f : String → String) (rest : List UInt8) :
    Nom.map (mapRes (take n) fromUtf8) f (bytes ++ rest)
      = (fromUtf8 bytes).elim (.err (.error .mapRes)) fun s =>
        .ok (rest, f s) := by
  unfold Nom.map mapRes
  rw [takes_take hn.symm, Outcome.ok_bind]
  dsimp only
  cases fromUtf8 bytes with
  | none => rfl
  | some s => rfl

/-- A text whose length is known. -/
theorem takes_text {s : String} {n : Nat} (hn : n = (asBytes s).length)
    (f : String → String) :
    Takes (Nom.map (mapRes (take n) fromUtf8) f) (asBytes s) (f s) := by
  intro rest
  rw [text_eq hn, fromUtf8_asBytes, Option.elim_some]

theorem ExtensionRecord.takes (e : ExtensionRecord) :
    Takes suspExtension e.encode e.extension := by
  intro rest
  unfold suspExtension ExtensionRecord.encode
  simp only [List.cons_append, List.append_assoc, leU8, Outcome.ok_bind]
  rw [takes_text (length_toNat e.fitsId), Outcome.ok_bind]
  dsimp only
  rw [takes_text (length_toNat e.fitsDescription), Outcome.ok_bind]
  dsimp only
  rw [takes_text (length_toNat e.fitsSource), Outcome.ok_bind]
  dsimp only
  have hid := e.recognised
  simp only [registered, List.mem_cons, Prod.mk.injEq, List.not_mem_nil,
    or_false] at hid
  rcases hid with ⟨hid, hext⟩ | ⟨hid, hext⟩ | ⟨hid, hext⟩
  · rw [hid, hext]
    rfl
  · rw [hid, hext]
    rfl
  · rw [hid, hext]
    rfl

-- ============================================================== records

/-- A flag byte or word without undefined bits. -/
abbrev Defined {α : Type} [AndOp α] (all bits : α) : Prop :=
  fromBitsTruncate all bits = bits

/-- The signatures of the ten kinds. -/
def typedSignatures : List (UInt8 × UInt8) := [
  (0x53, 0x50), (0x43, 0x45), (0x45, 0x52), (0x54, 0x46), (0x4E, 0x4D),
  (0x50, 0x58), (0x52, 0x52), (0x43, 0x4C), (0x52, 0x45), (0x53, 0x4C)]

/-- A well-formed entry of an area. -/
inductive SuspRecord where
  | suspIndicator (e : SuspIndicator)
  | continuationArea (e : ContinuationArea)
  | extensionsReference (extensions : List ExtensionRecord)
      (nonempty : extensions ≠ [])
      (fits : (extensions.flatMap (·.encode)).length ≤ 251)
  | posixTimestamp (stamps : Stamps) (nonempty : stamps.all ≠ [])
  | alternateName (e : AlternateName)
      (defined : Defined AlternateNameFlags.all e.flags)
      (leading : e.name.toList.head? ≠ some '\x00')
      (trailing : e.name.toList.getLast? ≠ some '\x00')
      (fits : (asBytes e.name).length ≤ 250)
  | posixAttributes (e : PosixAttributes)
      (defined : Defined PosixFileMode.all e.mode)
  | rockRidge (e : RockRidge)
  | childLink (e : ChildLink)
  | relocatedDirectory
  | symbolicLink (shouldContinue : Bool) (records : List TextRecord)
      (nonempty : records ≠ [])
      (defined : ∀ r ∈ records, Defined SymbolicLinkRecordFlags.all r.flags)
      (fits : (records.flatMap (·.encode)).length ≤ 250)
  | unknown (f : Frame) (other : f.sig ∉ typedSignatures)

namespace SuspRecord

/-- The entry as it is recorded. -/
def frame : SuspRecord → Frame
  | suspIndicator e => ⟨(0x53, 0x50), 1, [0xBE, 0xEF, e.skip], by simp⟩
  | continuationArea e => ⟨(0x43, 0x45), 1, both32 e.blockLocation
      ++ (both32 e.offset ++ both32 e.length), by simp [both32, digits32]⟩
  | extensionsReference extensions _ fits =>
      ⟨(0x45, 0x52), 1, extensions.flatMap (·.encode), fits⟩
  | posixTimestamp stamps _ => ⟨(0x54, 0x46), 1, stamps.payload, stamps.fits⟩
  | alternateName e _ _ _ fits =>
      ⟨(0x4E, 0x4D), 1, e.flags :: asBytes e.name, Nat.succ_le_succ fits⟩
  | posixAttributes e _ => ⟨(0x50, 0x58), 1, both32 e.mode
      ++ (both32 e.links ++ (both32 e.uid ++ (both32 e.gid
      ++ e.inode.elim [] both32))), by
        cases e.inode <;> simp [both32, digits32]⟩
  | rockRidge e => ⟨(0x52, 0x52), 1, [e.flags], by simp⟩
  | childLink e => ⟨(0x43, 0x4C), 1, both32 e.lba, by simp [both32, digits32]⟩
  | relocatedDirectory => ⟨(0x52, 0x45), 1, [], by simp⟩
  | symbolicLink shouldContinue records _ _ fits =>
      ⟨(0x53, 0x4C), 1, (if shouldContinue then 1 else 0)
        :: records.flatMap (·.encode), Nat.succ_le_succ fits⟩
  | unknown f _ => f

/-- The entry that it stands for. -/
def decoded : SuspRecord → SystemUseEntry
  | suspIndicator e => .suspIndicator e
  | continuationArea e => .continuationArea e
  | extensionsReference extensions _ _ =>
      .extensionsReference ⟨extensions.map (·.extension)⟩
  | posixTimestamp stamps _ => .posixTimestamp stamps.decoded
  | alternateName e _ _ _ _ => .alternateName e
  | posixAttributes e _ => .posixAttributes e
  | rockRidge e => .rockRidge e
  | childLink e => .childLink e
  | relocatedDirectory => .relocatedDirectory ⟨true⟩
  | symbolicLink shouldContinue records _ _ _ => .symbolicLink
      ⟨shouldContinue, records.map fun r => ⟨r.flags, r.text⟩⟩
  | unknown f _ => .unknown f.unknown

end SuspRecord

-- ============================================================= payloads

theorem assertVersion_one : assertVersion b 1 = .ok () :=
  Outcome.assert_true _

/-- Elements that fill the payload. -/
theorem many1_all {α β : Type} {p : Parser α} {l : List β}
    {encode : β → List UInt8} {value : β → α}
    (htakes : ∀ x ∈ l, Takes p (encode x) (value x)) (hne : l ≠ [])
    {kind : ErrorKind} (hend : p [] = .err (.error kind)) :
    many1 p (l.flatMap encode) = .ok ([], l.map value) := by
  have hall : List.Forall₂ (Takes p) (l.map encode) (l.map value) := by
    rw [List.forall₂_map_left_iff, List.forall₂_map_right_iff,
      List.forall₂_same]
    exact htakes
  have hmap : l.map encode ≠ [] := by
    rwa [ne_eq, List.map_eq_nil_iff]
  have h := many1_takes hall hmap hend
  rwa [List.append_nil, ← List.flatMap_def] at h

/-- Without the character at either end nothing is trimmed. -/
theorem trimMatches_eq {c : Char} {s : String}
    (hhead : s.toList.head? ≠ some c)
    (hlast : s.toList.getLast? ≠ some c) : trimMatches c s = s := by
  unfold trimMatches
  have hdrop : s.toList.dropWhile (· == c) = s.toList := by
    cases h : s.toList with
    | nil => rfl
    | cons d ds =>
        rw [h, List.head?_cons] at hhead
        have hd : ¬ (d == c) = true := fun hdc =>
          hhead (congrArg some (beq_iff_eq.mp hdc))
        exact List.dropWhile_cons_of_neg hd
  have hrdrop : s.toList.rdropWhile (· == c) = s.toList := by
    rw [List.rdropWhile_eq_self_iff]
    intro hne heq
    refine hlast ?_
    rw [List.getLast?_eq_some_getLast hne, beq_iff_eq.mp heq]
  rw [hdrop, hrdrop, String.ofList_toList]

/-- The record that the decoder gives: flags without a meaning are
dropped. -/
def TextRecord.decoded (r : TextRecord) : SymbolicLinkRecord :=
  ⟨fromBitsTruncate SymbolicLinkRecordFlags.all r.flags, r.text⟩

theorem TextRecord.takes_decoded (r : TextRecord) :
    Takes SymbolicLinkRecord.parse r.encode r.decoded := by
  intro rest
  unfold TextRecord.encode
  rw [List.cons_append, List.cons_append, symbolicLinkRecord_parse,
    length_toNat r.fits, if_pos (by rw [List.length_append]; omega),
    List.take_left, List.drop_left, fromUtf8_asBytes]
  rfl

theorem TextRecord.takes {r : TextRecord}
    (hdefined : Defined SymbolicLinkRecordFlags.all r.flags) :
    Takes SymbolicLinkRecord.parse r.encode ⟨r.flags, r.text⟩ := by
  have h := r.takes_decoded
  unfold TextRecord.decoded at h
  rwa [hdefined] at h

theorem posixTimestamp_payload {s : Stamps} (hne : s.all ≠ [])
    (sig : UInt8 × UInt8) :
    (PosixTimestamp.parseSusp b).parseData sig 1 s.payload
      = .ok ([], s.decoded) := by
  obtain ⟨hc, hm, ha, ht, hk, hx, he⟩ := contains_flagByte
    s.creation.isSome s.modify.isSome s.access.isSome s.attributes.isSome
    s.backup.isSome s.expiration.isSome s.effective.isSome
  unfold PosixTimestamp.parseSusp Stamps.payload Stamps.flags
  dsimp only
  rw [assertVersion_one, Outcome.ok_bind]
  simp only [Nom.map, leU8, Outcome.ok_bind]
  rw [many1_all (fun x _ => x.takes) hne rfl, Outcome.ok_bind]
  -- the stamps are handed out in the order of the flags
  unfold Stamps.all Stamps.decoded
  dsimp only
  rw [nextStamp_eq hc]
  dsimp only
  rw [nextStamp_eq hm]
  dsimp only
  rw [nextStamp_eq ha]
  dsimp only
  rw [nextStamp_eq ht]
  dsimp only
  rw [nextStamp_eq hk]
  dsimp only
  rw [nextStamp_eq hx]
  dsimp only
  have hlast := nextStamp_eq he []
  rw [List.append_nil] at hlast
  rw [hlast]

theorem posixAttributes_payload {e : PosixAttributes}
    (hdefined : Defined PosixFileMode.all e.mode) (sig : UInt8 × UInt8) :
    (PosixAttributes.parseSusp b).parseData sig 1
        (both32 e.mode ++ (both32 e.links ++ (both32 e.uid ++ (both32 e.gid
          ++ e.inode.elim [] both32))))
      = .ok ([], e) := by
  have hlen : ((both32 e.mode ++ (both32 e.links ++ (both32 e.uid
      ++ (both32 e.gid ++ e.inode.elim [] both32)))).length == 32
      || (both32 e.mode ++ (both32 e.links ++ (both32 e.uid
        ++ (both32 e.gid ++ e.inode.elim [] both32)))).length == 40)
      = true := by
    cases e.inode <;> simp [both32, digits32]
  have hinode : Nom.opt (bothEndian32 b) (e.inode.elim [] both32)
      = .ok ([], e.inode) := by
    cases e.inode with
    | none => rfl
    | some n =>
        have h := takes_bothEndian32 b n []
        rw [List.append_nil] at h
        simp only [Option.elim, Nom.opt, h]
  unfold PosixAttributes.parseSusp
  dsimp only
  rw [assertVersion_one, Outcome.ok_bind, hlen, Outcome.assert_true,
    Outcome.ok_bind]
  unfold Nom.map
  rw [takes_bothEndian32, Outcome.ok_bind, Outcome.ok_bind]
  dsimp only
  rw [takes_bothEndian32, Outcome.ok_bind]
  dsimp only
  rw [takes_bothEndian32, Outcome.ok_bind]
  dsimp only
  rw [takes_bothEndian32, Outcome.ok_bind]
  dsimp only
  rw [hinode, Outcome.ok_bind, hdefined]

theorem symbolicLink_payload {more : Bool} {records : List TextRecord}
    (hne : records ≠ [])
    (hdefined : ∀ r ∈ records, Defined SymbolicLinkRecordFlags.all r.flags)
    (sig : UInt8 × UInt8) :
    (SymbolicLink.parseSusp b).parseData sig 1
        ((if more then 1 else 0) :: records.flatMap (·.encode))
      = .ok ([], ⟨more, records.map fun r => ⟨r.flags, r.text⟩⟩) := by
  unfold SymbolicLink.parseSusp
  dsimp only
  rw [assertVersion_one, Outcome.ok_bind, alt_flag, Outcome.ok_bind]
  dsimp only
  rw [many1_all (fun r hr => TextRecord.takes (hdefined r hr)) hne rfl,
    Outcome.ok_bind]

-- ============================================================== entries

/-- What a kind's own decoder gives. -/
theorem entry_typed {α : Type} {k : ParseSusp α}
    {wrap : α → SystemUseEntry} {f : Frame} {i : Input} {a : α}
    (htyped : f.typed b = some (decodeWith k wrap f))
    (hdata : k.parseData f.sig f.version f.payload = .ok (i, a)) :
    f.entry b = .ok (wrap a) := by
  unfold Frame.entry
  rw [htyped]
  unfold decodeWith
  rw [hdata]
  rfl

/-- A frame of no kind. -/
theorem entry_unknown {f : Frame} (hother : f.sig ∉ typedSignatures) :
    f.entry b = .ok (.unknown f.unknown) := by
  have hnone : ((kinds b).find? fun k => k.sig == f.sig) = none := by
    rw [List.find?_eq_none]
    intro k hk heq
    refine hother ?_
    have hsigs : (kinds b).map (·.sig) = typedSignatures := rfl
    rw [← beq_iff_eq.mp heq, ← hsigs]
    exact List.mem_map_of_mem hk
  unfold Frame.entry Frame.typed
  rw [hnone]
  rfl

/-- A recorded entry is decoded to what it stands for. -/
theorem SuspRecord.entry_frame (r : SuspRecord) :
    r.frame.entry b = .ok r.decoded := by
  cases r with
  | suspIndicator e =>
      refine entry_typed (k := SuspIndicator.parseSusp b) (i := []) rfl ?_
      show (do assertVersion b 1; _) = _
      rw [assertVersion_one]
      rfl
  | continuationArea e =>
      refine entry_typed (k := ContinuationArea.parseSusp b) (i := []) rfl ?_
      have hlen : ((both32 e.blockLocation ++ (both32 e.offset
          ++ both32 e.length)).length == 24) = true := by
        simp [both32, digits32]
      have hlast := takes_bothEndian32 b e.length []
      rw [List.append_nil] at hlast
      show (do assertVersion b 1; _) = _
      rw [assertVersion_one, Outcome.ok_bind]
      unfold frame
      dsimp only
      rw [hlen, Outcome.assert_true, Outcome.ok_bind, takes_bothEndian32,
        Outcome.ok_bind]
      dsimp only
      rw [takes_bothEndian32, Outcome.ok_bind]
      dsimp only
      rw [hlast, Outcome.ok_bind]
  | extensionsReference extensions nonempty fits =>
      refine entry_typed (k := ExtensionsReference.parseSusp b) (i := []) rfl
        ?_
      show (do assertVersion b 1; _) = _
      rw [assertVersion_one, Outcome.ok_bind]
      unfold frame
      dsimp only
      rw [many1_all (fun e _ => e.takes) nonempty rfl, Outcome.ok_bind]
  | posixTimestamp stamps nonempty =>
      exact entry_typed (k := PosixTimestamp.parseSusp b) rfl
        (posixTimestamp_payload nonempty _)
  | alternateName e defined leading trailing fits =>
      refine entry_typed (k := AlternateName.parseSusp b) (i := []) rfl ?_
      show (do assertVersion b 1; _) = _
      rw [assertVersion_one, Outcome.ok_bind]
      unfold frame
      simp only [Nom.map, mapRes, leU8, Nom.rest, Outcome.ok_bind,
        fromUtf8_asBytes, trimMatches_eq leading trailing]
      rw [defined]
  | posixAttributes e defined =>
      exact entry_typed (k := PosixAttributes.parseSusp b) rfl
        (posixAttributes_payload defined _)
  | rockRidge e =>
      refine entry_typed (k := RockRidge.parseSusp b) (i := []) rfl ?_
      have hall : fromBitsTruncate RockRidgeFlags.all e.flags = e.flags :=
        UInt8.and_neg_one
      show (do Outcome.assert b.assertions true; assertVersion b 1; _) = _
      rw [Outcome.assert_true, Outcome.ok_bind, assertVersion_one,
        Outcome.ok_bind]
      unfold frame
      simp only [Nom.map, leU8, Outcome.ok_bind]
      rw [hall]
  | childLink e =>
      refine entry_typed (k := ChildLink.parseSusp b) (i := []) rfl ?_
      have h := takes_bothEndian32 b e.lba []
      rw [List.append_nil] at h
      show (do assertVersion b 1; _) = _
      rw [assertVersion_one, Outcome.ok_bind]
      unfold frame
      dsimp only
      rw [h, Outcome.ok_bind]
  | relocatedDirectory =>
      refine entry_typed (k := RelocatedDirectory.parseSusp b) (i := []) rfl
        ?_
      show (do assertVersion b 1; _) = _
      rw [assertVersion_one, Outcome.ok_bind]
      show (do Outcome.assert b.assertions true; _) = _
      rw [Outcome.assert_true, Outcome.ok_bind]
      rfl
  | symbolicLink more records nonempty defined fits =>
      exact entry_typed (k := SymbolicLink.parseSusp b) rfl
        (symbolicLink_payload nonempty defined _)
  | unknown f other => exact entry_unknown other

-- ============================================================= the area

/-- Padding is no frame and declares no length. -/
theorem systemUseEntry_padding (n : Nat) :
    ∃ kind, systemUseEntry b (List.replicate n 0) = .err (.error kind) := by
  have hframe : frameAt (List.replicate n 0) = none := by
    match n with
    | 0 | 1 | 2 | 3 => rfl
    | n + 4 => rfl
  have hshort : ¬ DeclaresShort (List.replicate n 0) := by
    intro ⟨s₀, s₁, length, version, rest, hi, hpos, _⟩
    have hmem : length ∈ List.replicate n (0 : UInt8) := by
      rw [hi]
      simp
    rw [List.eq_of_mem_replicate hmem] at hpos
    exact absurd hpos (by decide)
  exact (systemUseEntry_noFrame hframe).1 hshort

theorem decodes_records (b : Build) (records : List SuspRecord) :
    List.Forall₂ (Decodes b) (records.map (·.frame.encode))
      (records.map (·.decoded)) := by
  rw [List.forall₂_map_left_iff, List.forall₂_map_right_iff,
    List.forall₂_same]
  exact fun r _ => decodes_frame r.entry_frame

/-- Entries that are recorded back to back, with zero bytes behind them,
are read as those entries; the zero bytes are left. -/
theorem systemUseEntries_records (b : Build) {records : List SuspRecord}
    (hne : records ≠ []) (n : Nat) :
    systemUseEntries b
        (records.flatMap (·.frame.encode) ++ List.replicate n 0)
      = .ok (List.replicate n 0, records.map (·.decoded)) := by
  obtain ⟨kind, hpad⟩ := systemUseEntry_padding (b := b) n
  have hdecodes : List.Forall₂ (Decodes b)
      (records.map (·.frame.encode)) (records.map (·.decoded)) := by
    rw [List.forall₂_map_left_iff, List.forall₂_map_right_iff,
      List.forall₂_same]
    exact fun r _ => decodes_frame r.entry_frame
  have hmap : records.map (·.frame.encode) ≠ [] := by
    rwa [ne_eq, List.map_eq_nil_iff]
  rw [List.flatMap_def]
  exact systemUseEntries_eq hdecodes hmap hpad

theorem millennium_valid : -9999 ≤ (2000 : Int) ∧ (2000 : Int) ≤ 9999
    ∧ 1 ≤ 1 ∧ 1 ≤ 12 ∧ 1 ≤ 1 ∧ 1 ≤ daysInMonth 2000 1 := by decide

/-- The first second of 2000. -/
def millennium : Stamp where
  bytes := [100, 1, 1, 0, 0, 0, 0]
  time := ⟨⟨2000, 1, 1, millennium_valid⟩, Time.midnight, UtcOffset.UTC⟩
  read := by decide +kernel

/-- An `NM` entry, a `TF` entry with one stamp and an entry of a foreign
signature. -/
def threeRecords : List SuspRecord := [
  .alternateName ⟨"a", 0⟩ rfl (by decide) (by decide) (by decide),
  .posixTimestamp ⟨none, some millennium, none, none,
    none, none, none⟩ (List.cons_ne_nil _ _),
  .unknown ⟨(0x5A, 0x5A), 7, [1, 2], by decide⟩ (by decide)]

/-- Their bytes with five bytes of padding. -/
theorem systemUseEntries_threeRecords :
    systemUseEntries quietBuild [
        0x4E, 0x4D, 6, 1, 0, 0x61,
        0x54, 0x46, 12, 1, 2, 100, 1, 1, 0, 0, 0, 0,
        0x5A, 0x5A, 6, 7, 1, 2, 0, 0, 0, 0, 0]
      = .ok ([0, 0, 0, 0, 0], [
        .alternateName ⟨"a", 0⟩,
        .posixTimestamp { PosixTimestamp.default with
          modify := some millennium.time },
        .unknown ⟨(0x5A, 0x5A), 7, [1, 2]⟩]) := by
  have hbytes : threeRecords.flatMap (·.frame.encode) ++ List.replicate 5 0
      = [0x4E, 0x4D, 6, 1, 0, 0x61,
        0x54, 0x46, 12, 1, 2, 100, 1, 1, 0, 0, 0, 0,
        0x5A, 0x5A, 6, 7, 1, 2, 0, 0, 0, 0, 0] := by decide
  have hdecoded : threeRecords.map (·.decoded) = [
        .alternateName ⟨"a", 0⟩,
        .posixTimestamp { PosixTimestamp.default with
          modify := some millennium.time },
        .unknown ⟨(0x5A, 0x5A), 7, [1, 2]⟩] := rfl
  have hne : threeRecords ≠ [] := List.cons_ne_nil _ _
  rw [← hbytes, ← hdecoded]
  exact systemUseEntries_records quietBuild hne 5

end Cdfs
