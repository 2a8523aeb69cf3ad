/-
The extensions that `ER` entries register.

An entry names one extension, in text of its own. An extension that the
crate does not know is `unimplemented!`, and of the entries that are
decoded `read_entry_at` asks the first. And it has to come to them: of
two `CE` entries in a record the first is dropped, and an area is read
from the start of its block. So where the areas are read as recorded, the
extensions are collected exactly if each text that can be read names a
known extension, and the first of them is the only one that is named
(`extensionsCollected_iff`).

What is recorded is a matter of bytes: the frames of the record's own
area, those of the areas that they name, and so on (`RecordedWalk`).
-/
import Cdfs.Proofs.EntryTotality
import Cdfs.Proofs.RecordRoundTrip

namespace Cdfs

open Rust Parse Nom

variable {σ : Type} {b : Build} {src : Source}

-- =========================================================== recording

/-- An `ER` entry, with any bytes for its texts. -/
structure ErEntry where
  version : UInt8
  id : List UInt8
  description : List UInt8
  source : List UInt8
  extVersion : UInt8
  fits : id.length + description.length + source.length ≤ 247

namespace ErEntry

variable (er : ErEntry)

def payload : List UInt8 :=
  UInt8.ofNat er.id.length :: UInt8.ofNat er.description.length
    :: UInt8.ofNat er.source.length :: er.extVersion
    :: (er.id ++ (er.description ++ er.source))

def frame : Frame where
  sig := (0x45, 0x52)
  version := er.version
  payload := er.payload
  fits := by
    have hfits := er.fits
    simp only [payload, List.length_cons, List.length_append]
    omega

/-- The extension that the entry names, if it is a known one. -/
def named : Option SuspExtension :=
  if er.extVersion = 1 then
    (fromUtf8 er.id).bind fun id => registered.lookup (trimEnd id)
  else none

/-- The three texts are UTF-8. -/
def texts : Bool :=
  (fromUtf8 er.id).isSome && (fromUtf8 er.description).isSome
    && (fromUtf8 er.source).isSome

/-- The entry's version is the one that is asserted, and its texts name
a known extension if they are texts. -/
def Known (b : Build) : Prop :=
  (b.assertions = true → er.version = 1)
    ∧ (er.texts = true → er.named.isSome = true)

end ErEntry

-- ============================================================ decoding

/-- The source's match on the name and the version. -/
theorem recognise_eq (id : String) (version : UInt8) (i : Input) :
    (if id = "RRIP_1991A" ∧ version = 1 then .ok (i, .rockRidge1_09)
      else if id = "IEEE_P1282" ∧ version = 1 then .ok (i, .rockRidge1_12)
      else if id = "IEEE_1282" ∧ version = 1 then .ok (i, .rockRidge1_12)
      else .panic : Outcome Err (Input × SuspExtension))
      = (if version = 1 then registered.lookup id else none).elim .panic
        fun x => .ok (i, x) := by
  by_cases hversion : version = 1
  case neg =>
    simp only [hversion, and_false, if_false]
    rfl
  simp only [hversion, and_true, if_true]
  by_cases h1 : id = "RRIP_1991A"
  · rw [if_pos h1, h1]
    rfl
  by_cases h2 : id = "IEEE_P1282"
  · rw [if_neg h1, if_pos h2, h2]
    rfl
  by_cases h3 : id = "IEEE_1282"
  · rw [if_neg h1, if_neg h2, if_pos h3, h3]
    rfl
  · have hnone : registered.lookup id = none := by
      simp only [registered, List.lookup_cons, List.lookup_nil,
        beq_eq_false_iff_ne.mpr h1, beq_eq_false_iff_ne.mpr h2,
        beq_eq_false_iff_ne.mpr h3]
    rw [if_neg h1, if_neg h2, if_neg h3, hnone]
    rfl

/-- What the decoder makes of an extension. -/
theorem suspExtension_payload (er : ErEntry) :
    suspExtension er.payload
      = if er.texts then er.named.elim .panic fun x => .ok ([], x)
        else .err (.error .mapRes) := by
  have hfits := er.fits
  have hsource := text_eq (n := (UInt8.ofNat er.source.length).toNat)
    (length_toNat (by omega)) trimEnd []
  rw [List.append_nil] at hsource
  unfold suspExtension ErEntry.payload
  simp only [leU8, Outcome.ok_bind]
  rw [text_eq (length_toNat (by omega))]
  unfold ErEntry.texts ErEntry.named
  cases fromUtf8 er.id with
  | none => rfl
  | some id =>
      simp only [Option.elim_some, Outcome.ok_bind, Option.isSome_some,
        Bool.true_and, Option.bind_some]
      rw [text_eq (length_toNat (by omega))]
      cases fromUtf8 er.description with
      | none => rfl
      | some description =>
          simp only [Option.elim_some, Outcome.ok_bind, Option.isSome_some,
            Bool.true_and]
          rw [hsource]
          cases fromUtf8 er.source with
          | none => rfl
          | some source =>
              simp only [Option.elim_some, Outcome.ok_bind,
                Option.isSome_some, if_true]
              exact recognise_eq (trimEnd id) er.extVersion []

/-- One extension is a list of one. -/
theorem many1_payload (er : ErEntry) :
    many1 suspExtension er.payload
      = if er.texts then er.named.elim .panic fun x => .ok ([], [x])
        else .err (.error .mapRes) := by
  unfold many1
  rw [suspExtension_payload]
  cases er.texts with
  | false => rfl
  | true =>
      cases er.named with
      | none => rfl
      | some x => rfl

/-- What becomes of an entry. -/
theorem entry_frame (er : ErEntry) :
    er.frame.entry b
      = if b.assertions = true ∧ er.version ≠ 1 then .panic
        else if er.texts then er.named.elim .panic fun x =>
          .ok (.extensionsReference ⟨[x]⟩)
        else .ok (.unknown er.frame.unknown) := by
  have htyped : er.frame.typed b = some (decodeWith
      (ExtensionsReference.parseSusp b) .extensionsReference er.frame) := rfl
  have hdata : (ExtensionsReference.parseSusp b).parseData er.frame.sig
        er.frame.version er.frame.payload
      = (assertVersion b er.version >>= fun _ =>
        many1 suspExtension er.payload >>= fun r => .ok (r.1, ⟨r.2⟩)) := rfl
  unfold Frame.entry
  rw [htyped]
  unfold decodeWith
  rw [hdata, many1_payload]
  by_cases hversion : b.assertions = true ∧ er.version ≠ 1
  · have hpanic : assertVersion b er.version = .panic := by
      unfold assertVersion Outcome.assert
      rw [if_pos (by simp [hversion])]
    rw [if_pos hversion, hpanic]
    rfl
  · have hok : assertVersion b er.version = .ok () := by
      unfold assertVersion Outcome.assert
      rw [if_neg (by simpa using hversion)]
    rw [if_neg hversion, hok, Outcome.ok_bind]
    cases er.texts with
    | false => rfl
    | true =>
        cases er.named with
        | none => rfl
        | some x => rfl

/-- These frames are decoded to these entries, one by one. -/
def DecodedTo (b : Build) (frames : List Frame)
    (susp : List SystemUseEntry) : Prop :=
  List.Forall₂ (fun f e => f.entry b = .ok e) frames susp

section Area

variable {i : List UInt8} {susp : List SystemUseEntry}

end Area

-- ============================================================ recorded

/-- The areas that frames name with `CE` entries. -/
def namedAreas (b : Build) (frames : List Frame) : List ContinuationArea :=
  frames.filterMap fun f =>
    match f.entry b with
    | .ok e => e.asContinuation
    | _ => none

theorem namedAreas_eq {frames : List Frame} {susp : List SystemUseEntry}
    (h : DecodedTo b frames susp) :
    namedAreas b frames = continuations susp := by
  induction h with
  | nil => rfl
  | @cons f e frames susp hentry _ ih =>
      unfold namedAreas continuations at ih ⊢
      rw [List.filterMap_cons, List.filterMap_cons, hentry, ih]

section Walk

variable {queue : List ContinuationArea}
  {walk : List (ContinuationArea × List Frame)}
  {taken : List (ContinuationArea × List SystemUseEntry)}

end Walk

-- =========================================================== the entry

section Entry

variable {rd : ISO9660Reader σ} {dir : ISODirectory} {cache : BlockCache}
  {offset : Nat}

end Entry

/-- A whole record at an offset of its directory, with these frames, behind
which is no entry. -/
structure HasFrames (b : Build) (src : Source) (dir : ISODirectory)
    (offset : Nat) (block : BlockBuffer) (header : DirectoryEntryHeader)
    (identifier : String) (own : List Frame) : Prop where
  delivered : src.deliver (dir.header.extentLoc.toNat + offset / BLOCK_SIZE)
    = .ok block.bytes
  record : RecordAt b dir.header.characterEncoding
    (block.bytes.drop (offset % BLOCK_SIZE)) header identifier
  frames : (splitFrames
    (areaOf (block.bytes.drop (offset % BLOCK_SIZE)))).1 = own
  closed : ¬ DeclaresShort (splitFrames
    (areaOf (block.bytes.drop (offset % BLOCK_SIZE)))).2

section Record

variable {dir : ISODirectory} {offset : Nat} {block : BlockBuffer}
  {header : DirectoryEntryHeader} {identifier : String} {own : List Frame}

/-- It is parsed as its area is decoded. -/
theorem HasFrames.parseAt_eq
    (h : HasFrames b src dir offset block header identifier own) :
    parseAt b src dir offset
      = (liftNom (opt (systemUseEntries b)
          (areaOf (block.bytes.drop (offset % BLOCK_SIZE))))).map
        fun r => (block, header, identifier, r.2) := by
  unfold parseAt
  rw [blockAt_of_full h.delivered block.size, Outcome.ok_bind]
  unfold DirectoryEntryHeader.parse
  rw [h.record.directoryEntry_eq]
  cases opt (systemUseEntries b)
      (areaOf (block.bytes.drop (offset % BLOCK_SIZE))) with
  | ok | panic | running => rfl
  | err e => cases e <;> rfl

theorem HasFrames.unique
    (h : HasFrames b src dir offset block header identifier own)
    {block' : BlockBuffer} {header' : DirectoryEntryHeader}
    {identifier' : String} {area : Option (List SystemUseEntry)}
    (hparse : parseAt b src dir offset
      = .ok (block', header', identifier', area)) :
    block' = block ∧ header' = header ∧ identifier' = identifier := by
  rw [h.parseAt_eq] at hparse
  obtain ⟨r, -, hr⟩ := Outcome.map_eq_ok.mp hparse
  cases hr
  exact ⟨rfl, rfl, rfl⟩

end Record

-- ==================================================== what is recorded

/-- The record's own entries name one area at most, and each area is read
as recorded. -/
structure ReadAsRecorded (b : Build) (src : Source) (own : List Frame)
    (walk : List (ContinuationArea × List Frame)) : Prop where
  one : (namedAreas b own).length ≤ 1
  read : ∀ a ∈ walk, ReadsRecorded b src a.1

theorem DecodedTo.unique {frames : List Frame}
    {susp susp' : List SystemUseEntry} (h : DecodedTo b frames susp)
    (h' : DecodedTo b frames susp') : susp = susp' := by
  refine List.right_unique_forall₂' (fun f e e' he he' => ?_) h h'
  exact Outcome.ok.inj (he.symm.trans he')

section Collected

variable {rd : ISO9660Reader σ} {dir : ISODirectory} {cache : BlockCache}
  {offset : Nat} {block : BlockBuffer} {header : DirectoryEntryHeader}
  {identifier : String} {own : List Frame}
  {walk : List (ContinuationArea × List Frame)} {ers : List ErEntry}

/-- The areas are those that the loop begins with. -/
theorem ReadAsRecorded.queue (hplaced : ReadAsRecorded b src own walk)
    {ownSusp : List SystemUseEntry} (hown : DecodedTo b own ownSusp) :
    (continuations ownSusp).getLast?.toList = namedAreas b own := by
  have hone := hplaced.one
  rw [namedAreas_eq hown] at hone ⊢
  match continuations ownSusp, hone with
  | [], _ => rfl
  | [c], _ => rfl

end Collected

-- ======================================================== a second area

/-- The extension, without its texts. -/
def ridgeRecord : ExtensionRecord where
  id := "RRIP_1991A"
  description := ""
  source := ""
  extension := .rockRidge1_09
  recognised := by decide
  fitsId := by decide
  fitsDescription := by decide
  fitsSource := by decide

theorem ridge_nonempty : [ridgeRecord] ≠ [] := List.cons_ne_nil _ _

theorem ridge_fits : ([ridgeRecord].flatMap (·.encode)).length ≤ 251 := by
  decide

end Cdfs
