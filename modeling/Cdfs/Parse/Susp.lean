/-
The System Use Sharing Protocol entries (`parse/susp.rs`). An entry is
a two byte signature, a length, a version and a payload; each kind is
one `ParseSusp`, and `systemUseEntries` tries the kinds in order and
falls back on `Unknown`, so a payload that its own decoder rejects is
kept as bytes.

Three outcomes of a payload decoder are not a rejection and therefore
do not fall back: a panic (an extension reference nobody knows, a
failed assertion, a length byte below four where overflow is checked)
and the `Incomplete` of a truncated symbolic link component.
-/
import Cdfs.Parse.Fields

namespace Cdfs.Parse

open Rust Nom

-- ================================================================ flags

/-- `contains` of the `bitflags` crate: every bit of `flag` is set. -/
def contains {α : Type} [AndOp α] [BEq α] (bits flag : α) : Bool :=
  bits &&& flag == flag

/-- `from_bits_truncate`: the bits that no flag of the type names are
dropped. -/
def fromBitsTruncate {α : Type} [AndOp α] (all bits : α) : α := bits &&& all

namespace AlternateNameFlags
abbrev CONTINUE : UInt8 := 0x01
abbrev CURRENT : UInt8 := 0x02
abbrev PARENT : UInt8 := 0x04
abbrev HOST : UInt8 := 0x20
abbrev all : UInt8 := CONTINUE ||| CURRENT ||| PARENT ||| HOST
end AlternateNameFlags

namespace PosixTimestampFlags
abbrev CREATION : UInt8 := 0x01
abbrev MODIFY : UInt8 := 0x02
abbrev ACCESS : UInt8 := 0x04
abbrev ATTRIBUTES : UInt8 := 0x08
abbrev BACKUP : UInt8 := 0x10
abbrev EXPIRATION : UInt8 := 0x20
abbrev EFFECTIVE : UInt8 := 0x40
abbrev LONG_FORM : UInt8 := 0x80
abbrev all : UInt8 := 0xFF
end PosixTimestampFlags

namespace PosixFileMode
abbrev TYPE_SYMLINK : UInt32 := 0o120000
/-- all but the sticky bit -/
abbrev ALL_PERMISSIONS : UInt32 := 0o6777
/-- the six type bits and the twelve permission bits -/
abbrev all : UInt32 := 0o177777
end PosixFileMode

namespace RockRidgeFlags
abbrev all : UInt8 := 0xFF
end RockRidgeFlags

namespace SymbolicLinkRecordFlags
abbrev CONTINUE : UInt8 := 0x01
abbrev CURRENT : UInt8 := 0x02
abbrev PARENT : UInt8 := 0x04
abbrev ROOT : UInt8 := 0x08
abbrev VOLUME_ROOT : UInt8 := 0x10
abbrev HOSTNAME : UInt8 := 0x20
abbrev all : UInt8 := CONTINUE ||| CURRENT ||| PARENT ||| ROOT
  ||| VOLUME_ROOT ||| HOSTNAME
end SymbolicLinkRecordFlags

-- ============================================================== entries

/-- `SP`. -/
structure SuspIndicator where
  skip : UInt8
  deriving DecidableEq

/-- `CE`: where more entries are recorded. -/
structure ContinuationArea where
  blockLocation : UInt32
  offset : UInt32
  length : UInt32
  deriving DecidableEq

/-- The registered extensions that the crate knows. -/
inductive SuspExtension where
  | rockRidge1_09
  | rockRidge1_12
  deriving DecidableEq

/-- `ER`. -/
structure ExtensionsReference where
  extensions : List SuspExtension
  deriving DecidableEq

/-- `TF`. -/
structure PosixTimestamp where
  access : Option OffsetDateTime
  attributes : Option OffsetDateTime
  backup : Option OffsetDateTime
  creation : Option OffsetDateTime
  effective : Option OffsetDateTime
  expiration : Option OffsetDateTime
  modify : Option OffsetDateTime
  deriving DecidableEq

/-- `PosixTimestamp::default`. -/
def PosixTimestamp.default : PosixTimestamp :=
  ⟨none, none, none, none, none, none, none⟩

/-- `NM`. -/
structure AlternateName where
  name : String
  flags : UInt8
  deriving DecidableEq

/-- `PX`. -/
structure PosixAttributes where
  mode : UInt32
  links : UInt32
  uid : UInt32
  gid : UInt32
  inode : Option UInt32
  deriving DecidableEq

/-- `RR`. -/
structure RockRidge where
  flags : UInt8
  deriving DecidableEq

/-- `CL`: the block of the directory that was moved away. -/
structure ChildLink where
  lba : UInt32
  deriving DecidableEq

/-- `RE`. -/
structure RelocatedDirectory where
  relocated : Bool
  deriving DecidableEq

/-- One component of a symbolic link. -/
structure SymbolicLinkRecord where
  flags : UInt8
  component : String
  deriving DecidableEq

/-- `SL`. -/
structure SymbolicLink where
  shouldContinue : Bool
  records : List SymbolicLinkRecord
  deriving DecidableEq

/-- Any other signature, or a payload that its decoder rejected. -/
structure Unknown where
  sig : UInt8 × UInt8
  version : UInt8
  data : List UInt8
  deriving DecidableEq

inductive SystemUseEntry where
  | continuationArea (e : ContinuationArea)
  | extensionsReference (e : ExtensionsReference)
  | suspIndicator (e : SuspIndicator)
  | alternateName (e : AlternateName)
  | posixAttributes (e : PosixAttributes)
  | posixTimestamp (e : PosixTimestamp)
  | rockRidge (e : RockRidge)
  | symbolicLink (e : SymbolicLink)
  | childLink (e : ChildLink)
  | relocatedDirectory (e : RelocatedDirectory)
  | unknown (e : Unknown)
  deriving DecidableEq

/-- The continuation area an entry is, if it is one. -/
def SystemUseEntry.asContinuation : SystemUseEntry → Option ContinuationArea
  | .continuationArea c => some c
  | _ => none

-- ======================================================== the framework

/-- The trait `ParseSusp`: a signature, if the kind has one, and the
decoder of its payload, which is given the signature and the version
found. -/
structure ParseSusp (α : Type) where
  signature : Option (UInt8 × UInt8)
  parseData : UInt8 × UInt8 → UInt8 → Parser α

variable {α : Type} (b : Build)

/-- The two signature bytes: the kind's own, or any. -/
def ParseSusp.sig (k : ParseSusp α) : Parser Input :=
  match k.signature with
  | some (s₀, s₁) => tag [s₀, s₁]
  | none => take 2

/-- Signature, length, version and payload of one entry. -/
def ParseSusp.parseSig (k : ParseSusp α) :
    Parser ((UInt8 × UInt8) × UInt8 × UInt8 × Input) := fun i => do
  let (i, sig) ← k.sig i
  let (i, length) ← leU8 i
  let (i, version) ← leU8 i
  if length = 0 then .err (.error .fail)
  else do
    let remainder ← subW 64 b.overflowChecks length.toNat 4
    let (i, data) ← take remainder i
    -- `sig` is two bytes long either way, so `try_into` cannot fail
    .ok (i, (sig.headD 0, sig.tail.headD 0), length, version, data)

/-- One entry. What its payload decoder leaves is dropped. -/
def ParseSusp.parse (k : ParseSusp α) : Parser α := fun i => do
  let (i, sig, _, version, data) ← k.parseSig b i
  let (_, entry) ← k.parseData sig version data
  .ok (i, entry)

/-- What each decoder asserts about the version it was given. -/
def assertVersion (version : UInt8) : Outcome Err Unit :=
  Outcome.assert b.assertions (version == 1)

-- ======================================================= the ten kinds

def AlternateName.parseSusp : ParseSusp AlternateName where
  signature := some (0x4E, 0x4D)
  parseData _ version := fun i => do
    assertVersion b version
    let (i, flags) ← map leU8 (fromBitsTruncate AlternateNameFlags.all) i
    let (i, name) ← map (mapRes rest fromUtf8) (trimMatches '\x00') i
    .ok (i, { flags, name })

def ChildLink.parseSusp : ParseSusp ChildLink where
  signature := some (0x43, 0x4C)
  parseData _ version := fun i => do
    assertVersion b version
    let (i, lba) ← bothEndian32 b i
    .ok (i, ⟨lba⟩)

def ContinuationArea.parseSusp : ParseSusp ContinuationArea where
  signature := some (0x43, 0x45)
  parseData _ version := fun i => do
    assertVersion b version
    Outcome.assert b.assertions (i.length == 24)
    let (i, blockLocation) ← bothEndian32 b i
    let (i, offset) ← bothEndian32 b i
    let (i, length) ← bothEndian32 b i
    .ok (i, { blockLocation, offset, length })

/-- One extension of an `ER` entry; one that the crate does not know is
`unimplemented!`. -/
def suspExtension : Parser SuspExtension := fun i => do
  let (i, idLen) ← leU8 i
  let (i, descriptionLen) ← leU8 i
  let (i, sourceLen) ← leU8 i
  let (i, version) ← leU8 i
  let (i, id) ← map (mapRes (take idLen.toNat) fromUtf8) trimEnd i
  let (i, _) ← map (mapRes (take descriptionLen.toNat) fromUtf8) trimEnd i
  let (i, _) ← map (mapRes (take sourceLen.toNat) fromUtf8) trimEnd i
  if id = "RRIP_1991A" ∧ version = 1 then .ok (i, .rockRidge1_09)
  else if id = "IEEE_P1282" ∧ version = 1 then .ok (i, .rockRidge1_12)
  else if id = "IEEE_1282" ∧ version = 1 then .ok (i, .rockRidge1_12)
  else .panic

def ExtensionsReference.parseSusp : ParseSusp ExtensionsReference where
  signature := some (0x45, 0x52)
  parseData _ version := fun i => do
    assertVersion b version
    let (i, extensions) ← many1 suspExtension i
    .ok (i, { extensions })

/-- `it.next()` behind a flag: the next stamp and those after it. -/
def nextStamp (flags flag : UInt8) (it : List OffsetDateTime) :
    Option OffsetDateTime × List OffsetDateTime :=
  if contains flags flag then (it.head?, it.tail) else (none, it)

def PosixTimestamp.parseSusp : ParseSusp PosixTimestamp where
  signature := some (0x54, 0x46)
  parseData _ version := fun i => do
    assertVersion b version
    let (i, flags) ← map leU8 (fromBitsTruncate PosixTimestampFlags.all) i
    let (i, timestamps) ← many1 dateTime i
    let (creation, it) := nextStamp flags PosixTimestampFlags.CREATION timestamps
    let (modify, it) := nextStamp flags PosixTimestampFlags.MODIFY it
    let (access, it) := nextStamp flags PosixTimestampFlags.ACCESS it
    let (attributes, it) := nextStamp flags PosixTimestampFlags.ATTRIBUTES it
    let (backup, it) := nextStamp flags PosixTimestampFlags.BACKUP it
    let (expiration, it) := nextStamp flags PosixTimestampFlags.EXPIRATION it
    let (effective, _) := nextStamp flags PosixTimestampFlags.EFFECTIVE it
    .ok (i, { creation, modify, access, attributes, backup, expiration,
              effective })

def PosixAttributes.parseSusp : ParseSusp PosixAttributes where
  signature := some (0x50, 0x58)
  parseData _ version := fun i => do
    assertVersion b version
    Outcome.assert b.assertions (i.length == 32 || i.length == 40)
    let (i, mode) ← map (bothEndian32 b) (fromBitsTruncate PosixFileMode.all) i
    let (i, links) ← bothEndian32 b i
    let (i, uid) ← bothEndian32 b i
    let (i, gid) ← bothEndian32 b i
    let (i, inode) ← opt (bothEndian32 b) i
    .ok (i, { mode, links, uid, gid, inode })

def RelocatedDirectory.parseSusp : ParseSusp RelocatedDirectory where
  signature := some (0x52, 0x45)
  parseData _ version := fun i => do
    assertVersion b version
    Outcome.assert b.assertions (i.length == 0)
    .ok (i, ⟨true⟩)

def RockRidge.parseSusp : ParseSusp RockRidge where
  signature := some (0x52, 0x52)
  parseData _ version := fun i => do
    Outcome.assert b.assertions (i.length == 1)
    assertVersion b version
    let (i, flags) ← map leU8 (fromBitsTruncate RockRidgeFlags.all) i
    .ok (i, { flags })

def SuspIndicator.parseSusp : ParseSusp SuspIndicator where
  signature := some (0x53, 0x50)
  parseData _ version := fun i => do
    assertVersion b version
    let (i, _) ← tag [0xBE, 0xEF] i
    let (i, skip) ← leU8 i
    .ok (i, { skip })

/-- Flag byte, length byte and text of one component. -/
def SymbolicLinkRecord.parse : Parser SymbolicLinkRecord := fun i => do
  let (i, flags) ← map leU8 (fromBitsTruncate SymbolicLinkRecordFlags.all) i
  let (i, component) ← mapRes (lengthData leU8) fromUtf8 i
  .ok (i, { flags, component })

def SymbolicLink.parseSusp : ParseSusp SymbolicLink where
  signature := some (0x53, 0x4C)
  parseData _ version := fun i => do
    assertVersion b version
    let (i, shouldContinue) ← alt [value true (tag [0x01]),
      value false (tag [0x00])] i
    let (i, records) ← many1 SymbolicLinkRecord.parse i
    .ok (i, { shouldContinue, records })

def Unknown.parseSusp : ParseSusp Unknown where
  signature := none
  parseData sig version := fun i => .ok (i, { sig, data := i, version })

-- ===================================================== the whole area

/-- One entry of any kind. -/
def systemUseEntry : Parser SystemUseEntry := alt [
  map ((SuspIndicator.parseSusp b).parse b) .suspIndicator,
  map ((ContinuationArea.parseSusp b).parse b) .continuationArea,
  map ((ExtensionsReference.parseSusp b).parse b) .extensionsReference,
  map ((PosixTimestamp.parseSusp b).parse b) .posixTimestamp,
  map ((AlternateName.parseSusp b).parse b) .alternateName,
  map ((PosixAttributes.parseSusp b).parse b) .posixAttributes,
  map ((RockRidge.parseSusp b).parse b) .rockRidge,
  map ((ChildLink.parseSusp b).parse b) .childLink,
  map ((RelocatedDirectory.parseSusp b).parse b) .relocatedDirectory,
  map ((SymbolicLink.parseSusp b).parse b) .symbolicLink,
  map (Unknown.parseSusp.parse b) .unknown]

/-- The entries of a system use area. -/
def systemUseEntries : Parser (List SystemUseEntry) := many1 (systemUseEntry b)

-- ========================================================= termination

/-- Every payload decoder of the kind comes to a result. -/
def ParseSusp.DataEnds (k : ParseSusp α) : Prop :=
  ∀ sig version, Ends (k.parseData sig version)

theorem ends_sig (k : ParseSusp α) : Ends k.sig := by
  unfold ParseSusp.sig
  split
  · exact ends_tag _
  · exact ends_take 2

theorem ends_parseSig (k : ParseSusp α) : Ends (k.parseSig b) := by
  refine (ends_sig k).step fun sig => ?_
  refine ends_leU8.step fun length => ?_
  refine ends_leU8.step fun version => ?_
  dsimp only
  split
  · exact ends_err _
  · refine Ends.check (fun _ => subW_ne_running _ _ _ _) fun remainder => ?_
    exact (ends_take remainder).step fun data =>
      ends_done ((sig.headD 0, sig.tail.headD 0), length, version, data)

theorem ends_parse {k : ParseSusp α} (hk : k.DataEnds) :
    Ends (k.parse b) := by
  refine (ends_parseSig b k).step fun r => ?_
  obtain ⟨sig, length, version, data⟩ := r
  exact Ends.check (x := fun _ => k.parseData sig version data)
    (fun _ => (hk sig version).returns data) fun r => ends_done r.2

/-- The check of the version comes before the payload. -/
theorem ends_assertVersion {version : UInt8} {p : Parser α} (hp : Ends p) :
    Ends fun i => (do
      assertVersion b version
      p i) :=
  Ends.check (fun _ => Outcome.assert_ne_running _ _) fun _ => hp

theorem ends_assertInput {cond : Input → Bool} {p : Parser α}
    (hp : Ends p) :
    Ends fun i => (do
      Outcome.assert b.assertions (cond i)
      p i) :=
  Ends.check (fun _ => Outcome.assert_ne_running _ _) fun _ => hp

theorem ends_suspExtension : Ends suspExtension := by
  refine ends_leU8.step fun idLen => ?_
  refine ends_leU8.step fun descriptionLen => ?_
  refine ends_leU8.step fun sourceLen => ?_
  refine ends_leU8.step fun version => ?_
  refine (((ends_take _).mapRes _).map _).step fun id => ?_
  refine (((ends_take _).mapRes _).map _).step fun _ => ?_
  refine (((ends_take _).mapRes _).map _).step fun _ => ?_
  dsimp only
  split
  · exact ends_done _
  · split
    · exact ends_done _
    · split
      · exact ends_done _
      · exact ends_panic

theorem ends_symbolicLinkRecord : Ends SymbolicLinkRecord.parse := by
  refine (ends_leU8.map _).step fun _ => ?_
  exact (ends_leU8.lengthData.mapRes _).step fun _ => ends_done _

theorem ends_systemUseEntry : Ends (systemUseEntry b) := by
  refine ends_alt fun p hp => ?_
  simp only [List.mem_cons, List.not_mem_nil, or_false] at hp
  rcases hp with rfl | rfl | rfl | rfl | rfl | rfl | rfl | rfl | rfl | rfl
    | rfl
  · refine (ends_parse b fun _ _ => ends_assertVersion b ?_).map _
    refine (ends_tag _).step fun _ => ?_
    exact ends_leU8.step fun _ => ends_done _
  · refine (ends_parse b fun _ _ => ends_assertVersion b ?_).map _
    refine ends_assertInput b ?_
    refine (ends_bothEndian32 b).step fun _ => ?_
    refine (ends_bothEndian32 b).step fun _ => ?_
    exact (ends_bothEndian32 b).step fun _ => ends_done _
  · refine (ends_parse b fun _ _ => ends_assertVersion b ?_).map _
    exact ends_suspExtension.many1.step fun _ => ends_done _
  · refine (ends_parse b fun _ _ => ends_assertVersion b ?_).map _
    refine (ends_leU8.map _).step fun _ => ?_
    exact ends_dateTime.many1.step fun _ => ends_done _
  · refine (ends_parse b fun _ _ => ends_assertVersion b ?_).map _
    refine (ends_leU8.map _).step fun _ => ?_
    exact ((ends_rest.mapRes _).map _).step fun _ => ends_done _
  · refine (ends_parse b fun _ _ => ends_assertVersion b ?_).map _
    refine ends_assertInput b ?_
    refine ((ends_bothEndian32 b).map _).step fun _ => ?_
    refine (ends_bothEndian32 b).step fun _ => ?_
    refine (ends_bothEndian32 b).step fun _ => ?_
    refine (ends_bothEndian32 b).step fun _ => ?_
    exact (ends_bothEndian32 b).opt.step fun _ => ends_done _
  · refine (ends_parse b fun _ _ => ends_assertInput b ?_).map _
    refine ends_assertVersion b ?_
    exact (ends_leU8.map _).step fun _ => ends_done _
  · refine (ends_parse b fun _ _ => ends_assertVersion b ?_).map _
    exact (ends_bothEndian32 b).step fun _ => ends_done _
  · refine (ends_parse b fun _ _ => ends_assertVersion b ?_).map _
    exact ends_assertInput b (ends_done _)
  · refine (ends_parse b fun _ _ => ends_assertVersion b ?_).map _
    refine (ends_alt fun p hp => ?_).step fun _ => ?_
    · simp only [List.mem_cons, List.not_mem_nil, or_false] at hp
      rcases hp with rfl | rfl
      · exact (ends_tag _).value _
      · exact (ends_tag _).value _
    · exact ends_symbolicLinkRecord.many1.step fun _ => ends_done _
  · refine (ends_parse b fun sig version => ⟨fun i h => ?_, ?_⟩).map _
    · cases h
    · intro i r a h
      injection h with h
      injection h with hr _
      exact Nat.le_of_eq (hr ▸ rfl)

theorem ends_systemUseEntries : Ends (systemUseEntries b) :=
  (ends_systemUseEntry b).many1

end Cdfs.Parse
