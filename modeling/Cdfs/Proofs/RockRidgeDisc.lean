/-
Names recorded with Rock Ridge. Behind the identifier of a name are its
attributes (`PX`), its times (`TF`), the name itself (`NM`) and, for a
link, its target (`SL`); the record of the root says which extension
that is (`SP`, `ER`). A disc that is written so is read back with the
names, the modes, the times and the targets (`Disc.rockRidge_read_back`).
-/
import Cdfs.Proofs.ReadBack
import Cdfs.Proofs.SymlinkTarget

namespace Cdfs

open Rust Parse Nom

-- ============================================================== the links

/-- A component that has room in a record. -/
structure LinkPart where
  component : LinkComponent
  short : (asBytes component.text).length ≤ 255

namespace LinkComponent

/-- The flags of a component: those for `.` and `..` replace its text. -/
def flags : LinkComponent → UInt8
  | current => SymbolicLinkRecordFlags.CURRENT
  | parent => SymbolicLinkRecordFlags.PARENT
  | name _ => 0

/-- The text that is recorded: only a name has one. -/
def recorded : LinkComponent → String
  | name n => n.text
  | _ => ""

/-- They are flags that the crate knows. -/
theorem flags_defined (c : LinkComponent) :
    Defined SymbolicLinkRecordFlags.all c.flags := by
  cases c with
  | current | parent => rfl
  | name n => exact UInt8.zero_and

/-- A component that its flags stand for has no text, as is asserted. -/
theorem assert_empty (b : Build) (p : String) :
    (Outcome.assert b.assertions (("" : String) == "")
      >>= fun _ => (.ok p : Outcome ISOError String)) = .ok p := by
  rw [beq_self_eq_true, Outcome.assert_true, Outcome.ok_bind]

/-- What the reader makes of it. -/
theorem componentPath_eq (b : Build) (c : LinkComponent) :
    componentPath b ⟨c.flags, c.recorded⟩ = .ok c.text := by
  unfold componentPath
  dsimp only
  cases c with
  | current =>
      rw [if_neg (by decide), if_pos (by decide)]
      exact assert_empty b "."
  | parent =>
      rw [if_neg (by decide), if_neg (by decide), if_pos (by decide)]
      exact assert_empty b ".."
  | name n =>
      have hnone (flag : UInt8) (h : flag ≠ 0) : ¬ contains 0 flag = true := by
        unfold contains
        rw [UInt8.zero_and]
        simpa using h.symm
      exact (if_neg (hnone _ (by decide))).trans
        ((if_neg (hnone _ (by decide))).trans (if_neg (hnone _ (by decide))))

end LinkComponent

/-- The record of a component. -/
def LinkPart.record (p : LinkPart) : TextRecord where
  flags := p.component.flags
  text := p.component.recorded
  fits := by
    obtain ⟨component, short⟩ := p
    cases component with
    | current | parent => exact Nat.zero_le _
    | name n => exact short

/-- The record of a root. -/
def rootLinkRecord : TextRecord where
  flags := SymbolicLinkRecordFlags.ROOT
  text := ""
  fits := Nat.zero_le _

/-- The records of a target. -/
def linkRecords (root : Bool) (parts : List LinkPart) : List TextRecord :=
  (if root then [rootLinkRecord] else []) ++ parts.map (·.record)

/-- The target of a link, as one `SL` entry records it. -/
structure RockLink where
  root : Bool
  parts : List LinkPart
  nonempty : linkRecords root parts ≠ []
  fits : ((linkRecords root parts).flatMap (·.encode)).length ≤ 250

namespace RockLink

variable (t : RockLink)

/-- What it links to. -/
def target : LinkTarget := ⟨t.root, t.parts.map (·.component)⟩

def records : List TextRecord := linkRecords t.root t.parts

/-- No record has a flag that is cut off when it is read. -/
theorem defined : ∀ r ∈ t.records,
    Defined SymbolicLinkRecordFlags.all r.flags := by
  intro r hr
  rcases List.mem_append.mp hr with hroot | hpart
  · cases h : t.root with
    | false =>
        rw [h] at hroot
        cases hroot
    | true =>
        rw [h] at hroot
        rw [List.mem_singleton.mp hroot]
        rfl
  · obtain ⟨p, -, rfl⟩ := List.mem_map.mp hpart
    exact p.component.flags_defined

/-- The records in one `SL` entry. -/
def entry : SuspRecord :=
  .symbolicLink false t.records t.nonempty t.defined t.fits

end RockLink

/-- Records that have texts are joined. -/
theorem recordsPath_eq_joinAll {b : Build}
    {records : List SymbolicLinkRecord} {texts : List String}
    (h : List.Forall₂ (fun r s => componentPath b r = .ok s) records texts) :
    recordsPath b records = .ok (joinAll texts) := by
  unfold recordsPath joinAll
  generalize "" = acc
  induction h generalizing acc with
  | nil => rfl
  | cons hpath _ ih =>
      rw [List.foldlM_cons, hpath, List.foldl_cons]
      exact ih _

/-- The records of a target are joined to its path. -/
theorem RockLink.recordsPath_eq (b : Build) (t : RockLink) :
    recordsPath b (t.records.map fun r => ⟨r.flags, r.text⟩)
      = .ok t.target.path := by
  have hparts : List.Forall₂ (fun r s => componentPath b r = .ok s)
      ((t.parts.map (·.record)).map fun r => ⟨r.flags, r.text⟩)
      (t.target.components.map (·.text)) := by
    unfold target
    rw [List.map_map, List.map_map, List.forall₂_map_left_iff,
      List.forall₂_map_right_iff, List.forall₂_same]
    exact fun p _ => p.component.componentPath_eq b
  have hroot : componentPath b ⟨SymbolicLinkRecordFlags.ROOT, ""⟩
      = .ok "/" := by
    unfold componentPath
    dsimp only
    rw [if_pos (by decide)]
    exact LinkComponent.assert_empty b "/"
  rw [LinkTarget.path_eq]
  refine recordsPath_eq_joinAll ?_
  unfold records linkRecords
  rw [List.map_append]
  show List.Forall₂ _ _ ((if t.root = true then ["/"] else []) ++ _)
  cases t.root with
  | true => exact .cons hroot hparts
  | false => exact hparts

-- ============================================================== the modes

/-- A mask on a mode is one on its parts. -/
theorem or_and_distrib (a b m : UInt32) :
    (a ||| b) &&& m = a &&& m ||| b &&& m := by
  apply UInt32.toBitVec_inj.mp
  exact BitVec.and_or_distrib_right

/-- What a name can be of. -/
inductive RockKind where
  | file
  | directory
  | link

namespace RockKind

/-- The type in a mode. -/
def bits : RockKind → UInt32
  | file => PosixFileMode.TYPE_FILE
  | directory => PosixFileMode.TYPE_DIRECTORY
  | link => PosixFileMode.TYPE_SYMLINK

/-- What `ls` shows for the type. -/
def letter : RockKind → Char
  | file => '-'
  | directory => 'd'
  | link => 'l'

/-- The type with permissions. -/
def mode (k : RockKind) (permissions : UInt32) : UInt32 :=
  k.bits ||| permissions

section Mode

variable (k : RockKind) {permissions : UInt32}
  (h : permissions &&& 0o7777 = permissions)

include h

/-- Every bit of the mode is one that the crate knows. -/
theorem mode_defined : Defined PosixFileMode.all (k.mode permissions) := by
  have hperm : permissions &&& PosixFileMode.all = permissions := by
    rw [← h, UInt32.and_assoc]
    rfl
  unfold Defined fromBitsTruncate mode
  rw [or_and_distrib, hperm]
  cases k with
  | file | directory | link => rfl

/-- The type is the part above the permissions. -/
theorem mode_type : k.mode permissions &&& 0o170000 = k.bits := by
  have hperm : permissions &&& 0o170000 = 0 := by
    rw [← h, UInt32.and_assoc]
    exact UInt32.and_zero
  unfold mode
  rw [or_and_distrib, hperm, UInt32.or_zero]
  cases k with
  | file | directory | link => rfl

/-- Whether a mode is of a type does not depend on the permissions. -/
theorem contains_mode {flag : UInt32} (hflag : 0o170000 &&& flag = flag) :
    contains (k.mode permissions) flag = contains k.bits flag := by
  rw [PosixFileMode.contains_type hflag, k.mode_type h]

/-- A mode is shown as the letter of its type and those of its
permissions. -/
theorem display_mode (b : Build) :
    PosixFileMode.display b (k.mode permissions)
      = (.ok (String.ofList (k.letter
        :: PosixFileMode.letters (k.mode permissions))) :
          Outcome ISOError String) := by
  have hletter : PosixFileMode.typeLetter b (k.mode permissions)
      = (.ok k.letter : Outcome ISOError Char) := by
    unfold PosixFileMode.typeLetter
    rw [k.contains_mode h rfl, k.contains_mode h rfl, k.contains_mode h rfl,
      k.contains_mode h rfl, k.contains_mode h rfl]
    cases k with
    | file | directory | link => rfl
  unfold PosixFileMode.display
  rw [hletter]
  rfl

end Mode

end RockKind

-- ============================================================== the names

/-- What is recorded of a name. -/
structure RockFields where
  /-- the identifier, for who does not know the extension -/
  iso : FileName
  name : LinkName
  noVersion : ';' ∉ name.text.toList
  noFinalDot : name.text.toList.getLast? ≠ some '.'
  notParent : name.text ≠ "\x01"
  short : (asBytes name.text).length ≤ 250
  permissions : UInt32
  permitted : permissions &&& 0o7777 = permissions
  links : UInt32
  uid : UInt32
  gid : UInt32
  stamps : Option {s : Stamps // s.all ≠ []}
  /-- where a leaf of this name links to, if it is a link -/
  link : Option RockLink

namespace RockFields

variable (n : RockFields) (k : RockKind) (link : Option RockLink)

/-- The `PX` entry of a name. -/
def attributes : PosixAttributes where
  mode := k.mode n.permissions
  links := n.links
  uid := n.uid
  gid := n.gid
  inode := none

/-- There is no NUL in front of a name for a reader to take off, -/
theorem leading : n.name.text.toList.head? ≠ some '\x00' :=
  fun h => n.name.noNul (List.mem_of_head? h)

/-- and none behind. -/
theorem trailing : n.name.text.toList.getLast? ≠ some '\x00' :=
  fun h => n.name.noNul (List.mem_of_getLast? h)

theorem name_defined : Defined AlternateNameFlags.all 0 := rfl

/-- The entries of a name. -/
def entries : List SuspRecord :=
  .posixAttributes (n.attributes k) (k.mode_defined n.permitted)
    :: ((n.stamps.map fun s => SuspRecord.posixTimestamp s.1 s.2).toList
    ++ .alternateName ⟨n.name.text, 0⟩ name_defined n.leading n.trailing
        n.short
      :: (link.map (·.entry)).toList)

/-- The kind of a leaf. -/
def leafKind : RockKind :=
  match n.link with
  | some _ => .link
  | none => .file

def modified : Option OffsetDateTime :=
  n.stamps.bind fun s => s.1.modify.map (·.time)

/-- What is made of the entries. -/
def ext : ExtraMeta where
  altName := some n.name.text
  attributes := some (n.attributes k)
  symlinkTarget := link.map (·.target.path)
  extensions := ∅
  timestamps := n.stamps.elim PosixTimestamp.default fun s =>
    mergeTimestamp PosixTimestamp.default s.1.decoded
  relocated := false

/-- The one `SL` entry, if there is one, is read as its target, -/
theorem symlinkTarget_entries (b : Build) :
    symlinkTarget b ((n.entries k link).map (·.decoded))
      = .ok (link.map (·.target.path)) := by
  unfold entries
  cases link with
  | none =>
      cases n.stamps with
      | none | some => rfl
  | some t =>
      have hpath := t.recordsPath_eq b
      have hone : symlinkTarget b [t.entry.decoded]
          = .ok (some t.target.path) := by
        show ((recordsPath b (t.records.map fun r => ⟨r.flags, r.text⟩)
          >>= fun p => (.ok (some (pathJoin "" p)) : Outcome ISOError _))
            >>= fun found => .ok found) = _
        rw [hpath, Outcome.ok_bind, Outcome.ok_bind, empty_pathJoin]
      cases n.stamps with
      | none | some => exact hone

/-- the one `NM` entry as the name, -/
theorem altName_entries :
    altName ((n.entries k link).map (·.decoded)) = some n.name.text := by
  have hone : some ("" ++ n.name.text) = some n.name.text := by
    rw [String.empty_append]
  unfold altName entries
  cases n.stamps with
  | none | some =>
      cases link with
      | none | some =>
          show (takeWhileInclusive _ [AlternateName.mk n.name.text 0]).foldl _
            none = _
          rw [takeWhileInclusive_eq_self (List.pairwise_singleton _ _)]
          exact hone

/-- and all entries together as what was meant. -/
theorem extraMeta_entries (b : Build) :
    extraMeta b ((n.entries k link).map (·.decoded))
      = .ok (n.ext k link) := by
  unfold extraMeta
  rw [n.symlinkTarget_entries k link b, Outcome.ok_bind,
    n.altName_entries k link]
  unfold entries ext
  cases n.stamps with
  | none | some =>
      cases link with
      | none | some => rfl

/-- A name's entries are all in its own record, -/
theorem continuations_entries :
    continuations ((n.entries k link).map (·.decoded)) = [] := by
  unfold entries
  cases n.stamps with
  | none | some =>
      cases link with
      | none | some => rfl

/-- and it has not been moved. -/
theorem childLink_entries :
    childLink ((n.entries k link).map (·.decoded)) = none := by
  unfold entries
  cases n.stamps with
  | none | some =>
      cases link with
      | none | some => rfl

/-- The stamp for the modification is kept when the stamps are merged. -/
theorem modify_ext : (n.ext k link).timestamps.modify = n.modified := by
  unfold ext modified
  cases n.stamps with
  | none => rfl
  | some s => exact Option.or_none

/-- How many bytes the entries have: what the kind is does not matter. -/
theorem length_entries : ((n.entries k link).flatMap (·.frame.encode)).length
    = 41 + (asBytes n.name.text).length
      + ((n.stamps.map fun s =>
        SuspRecord.posixTimestamp s.1 s.2).toList.flatMap
          (·.frame.encode)).length
      + ((link.map (·.entry)).toList.flatMap (·.frame.encode)).length := by
  unfold entries
  simp only [List.flatMap_cons, List.flatMap_append, List.length_append,
    Frame.length_encode, SuspRecord.frame, attributes, both32, digits32,
    Option.elim, List.length_cons, List.length_reverse, List.length_nil]
  omega

end RockFields

/-- The entries have room in a record. -/
structure RockName extends RockFields where
  fits : 33 + (asBytes iso.versioned).length
    + pad (asBytes iso.versioned).length
    + ((toRockFields.entries toRockFields.leafKind link).flatMap
      (·.frame.encode)).length ≤ 255

namespace RockName

/-- The identifier of a name is a plain one, which the name in the entries
takes the place of. -/
def identifier : Label RockName → RecordedName
  | .own _ => .self
  | .parent => .parent
  | .leaf n => FileName.identifier (.leaf n.iso)
  | .folder n => FileName.identifier (.folder n.iso)

/-- The entries of a record: that the extension is used, in the first one of
the disc, and those of a name. -/
def entries : Label RockName → List SuspRecord
  | .own true => [.suspIndicator ⟨0⟩,
      .extensionsReference [ridgeRecord] ridge_nonempty ridge_fits]
  | .own false | .parent => []
  | .leaf n => n.toRockFields.entries n.leafKind n.link
  | .folder n => n.toRockFields.entries .directory none

/-- What is made of them. -/
def ext : Label RockName → ExtraMeta
  | .own true => { ExtraMeta.default with extensions := {.rockRidge1_09} }
  | .own false | .parent => ExtraMeta.default
  | .leaf n => n.toRockFields.ext n.leafKind n.link
  | .folder n => n.toRockFields.ext .directory none

end RockName

namespace RockFields

variable (n : RockFields)

/-- The letters of a mode. -/
def shown (k : RockKind) : String :=
  String.ofList (k.letter
    :: PosixFileMode.letters (k.mode n.permissions)) ++ " "

/-- A mode is printed in that way. -/
theorem modeText_attributes (b : Build) (k : RockKind) :
    modeText b (some (n.attributes k).mode) = .ok (n.shown k) := by
  unfold modeText attributes
  dsimp only
  rw [k.display_mode n.permitted]
  rfl

end RockFields

namespace Recording

/-- Names with modes, times and links. -/
def ridgeScheme : Scheme where
  Name := RockName
  text n := n.name.text
  target n := n.link.map (·.target.path)
  modified n := n.modified
  shownMode
    | .leaf n => n.shown n.leafKind
    | .folder n => n.shown .directory
    | _ => ""
  identifier := RockName.identifier
  entries := RockName.entries
  ext := RockName.ext

/-- A record is at most 255 bytes long. -/
theorem ridge_size_le (l : Label RockName) : ridgeScheme.size l ≤ 255 := by
  cases l with
  | own top =>
      cases top with
      | true | false => decide
  | parent => decide
  | leaf n => exact n.fits
  | folder n =>
      have hfits := n.fits
      have hlen := n.iso.length_versioned
      rw [RockFields.length_entries] at hfits
      show 33 + (asBytes n.iso.text).length + pad (asBytes n.iso.text).length
        + ((n.toRockFields.entries .directory none).flatMap
          (·.frame.encode)).length ≤ 255
      rw [RockFields.length_entries]
      simp only [Option.map_none, Option.toList_none, List.flatMap_nil,
        List.length_nil]
      unfold pad at *
      omega

/-- The entries of a record are read as they were meant. -/
theorem ridge_extraMeta (b : Build) (l : Label RockName) :
    extraMeta b (ridgeScheme.susp l) = .ok (RockName.ext l) := by
  cases l with
  | own top =>
      cases top with
      | true | false => rfl
  | parent => rfl
  | leaf n => exact n.extraMeta_entries _ _ b
  | folder n => exact n.extraMeta_entries _ _ b

/-- No record is continued elsewhere, -/
theorem ridge_continuations (l : Label RockName) :
    continuations (ridgeScheme.susp l) = [] := by
  cases l with
  | own top =>
      cases top with
      | true | false => rfl
  | parent => rfl
  | leaf n => exact n.continuations_entries _ _
  | folder n => exact n.continuations_entries _ _

/-- and none is a place that a directory was moved from. -/
theorem ridge_childLink (l : Label RockName) :
    childLink (ridgeScheme.susp l) = none := by
  cases l with
  | own top =>
      cases top with
      | true | false => rfl
  | parent => rfl
  | leaf n => exact n.childLink_entries _ _
  | folder n => exact n.childLink_entries _ _

theorem ridge_identifier_own (top : Bool) :
    RockName.identifier (.own top) = .self := rfl

theorem ridge_identifier_parent : RockName.identifier .parent = .parent := rfl

/-- A directory's own record has no name and no number. -/
theorem ridge_anonymous (top : Bool) : (RockName.ext (.own top)).altName = none
    ∧ (RockName.ext (.own top)).attributes = none := by
  cases top with
  | true | false => exact ⟨rfl, rfl⟩

theorem ridge_anonymous_parent : (RockName.ext .parent).altName = none := rfl

theorem ridge_folder_name (n : RockName) :
    ridgeScheme.name (.folder n) = n.name.text := rfl

/-- The names of folders are none of those that stand for a directory
itself or its parent. -/
theorem ridge_folder_text (n : RockName) :
    n.name.text ∉ ["\x00", "\x01", ".", ".."] := by
  simp only [List.mem_cons, List.not_mem_nil, or_false, not_or]
  refine ⟨fun h => n.name.noNul ?_, n.notParent, fun h => n.noFinalDot ?_,
    fun h => n.noFinalDot ?_⟩
  all_goals
    rw [h]
    decide

/-- A name without a `;` has no version. -/
theorem ridge_leaf_name (n : RockName) :
    splitVersion (ridgeScheme.name (.leaf n)) = .ok (n.name.text, 1) := by
  show splitVersion n.name.text = _
  unfold splitVersion
  rw [rsplitOnce_eq_none_iff.mpr n.noVersion,
    popIf_eq_self_iff.mpr n.noFinalDot]

/-- A leaf is a link exactly if it has a target, -/
theorem ridge_leaf_link (n : RockName) :
    (RockName.ext (.leaf n)).attributes.any
        (contains ·.mode PosixFileMode.TYPE_SYMLINK)
      = (n.link.map (·.target.path)).isSome := by
  show contains (n.leafKind.mode n.permissions) PosixFileMode.TYPE_SYMLINK = _
  rw [n.leafKind.contains_mode n.permitted rfl]
  unfold RockFields.leafKind
  cases n.link with
  | none => rfl
  | some => exact (by decide :
      contains RockKind.link.bits PosixFileMode.TYPE_SYMLINK = true)

/-- and then it is that one. -/
theorem ridge_leaf_target (n : RockName) :
    (RockName.ext (.leaf n)).symlinkTarget
      = n.link.map (·.target.path) := rfl

theorem ridge_leaf_modified (n : RockName) :
    (RockName.ext (.leaf n)).timestamps.modify = n.modified :=
  n.modify_ext n.leafKind n.link

theorem ridge_folder_modified (n : RockName) :
    (RockName.ext (.folder n)).timestamps.modify = n.modified :=
  n.modify_ext .directory none

/-- What `print_tree` shows of a record. -/
theorem ridge_modeText (b : Build) (l : Label RockName) :
    modeText b ((RockName.ext l).attributes.map (·.mode))
      = .ok (ridgeScheme.shownMode l) := by
  cases l with
  | own top =>
      cases top with
      | true | false => rfl
  | parent => rfl
  | leaf n => exact n.modeText_attributes b _
  | folder n => exact n.modeText_attributes b _

/-- Records with Rock Ridge entries. -/
def rockRidge : Recording where
  toScheme := ridgeScheme
  size_le := ridge_size_le
  extraMeta_eq := ridge_extraMeta
  noContinuation := ridge_continuations
  noChildLink := ridge_childLink
  identifier_own := ridge_identifier_own
  identifier_parent := ridge_identifier_parent
  anonymous := ridge_anonymous
  anonymous_parent := ridge_anonymous_parent
  folder_name := ridge_folder_name
  folder_text := ridge_folder_text
  leaf_name := ridge_leaf_name
  leaf_link := ridge_leaf_link
  leaf_target := ridge_leaf_target
  leaf_modified := ridge_leaf_modified
  folder_modified := ridge_folder_modified
  modeText_eq := ridge_modeText

end Recording

-- ============================================================ read back

open Recording

/-- A disc with Rock Ridge records is read back: it is mounted and
recognised, its tree is printed with the names, the modes, the times and
the targets of links that were written, and any path of these names leads
to what was written there. -/
theorem Disc.rockRidge_read_back {σ : Type} {b : Build}
    {rd : ISO9660Reader σ} {src : Source} (d : Disc rockRidge)
    (hserve : rd.Serves src) (hsrc : src.Holds d.image) {fuel : ℕ}
    (hfuel : 2 ^ 27 ≤ fuel) {how : Reading} (hroom : ∀ n, 0 < how.size n)
    (s : σ) :
    (∃ iso s', ISO9660.new b rd fuel s = (.ok iso, s')
        ∧ (iso.isRr b rd fuel s').1 = .ok true
        ∧ ∃ turns, (printTree b rd fuel turns iso.root 0 s').1 = .ok ()
          ∧ (printTree b rd fuel turns iso.root 0 s').2.1
            = d.files.lines d.time.time d.time.time 0)
      ∧ ∀ turns path, 2 ^ 32 ≤ turns →
        printFile b rd how fuel turns path s
          = printed path (resolve path (.folder d.files.tree [])) := by
  obtain ⟨s', hnew⟩ := d.new_eq (b := b) hserve hsrc
    (le_trans (by decide) hfuel) s
  obtain ⟨next, hentry⟩ := d.first_entry (b := b) hsrc fuel
  have hrr : (d.iso.isRr b rd fuel s').1 = .ok true := by
    rw [isRr_serves hserve]
    show ridgeAnswer (entryAt b src fuel d.rootDirectory 0) = _
    rw [hentry]
    rfl
  exact ⟨⟨d.iso, s', hnew, hrr, d.printed_back hserve hsrc fuel s'⟩,
    fun turns path hturns =>
      d.file_back hserve hsrc hfuel hroom hturns path s⟩

-- =========================================================== a small disc

def plansName : LinkName := ⟨"My plans", by decide, by decide, by decide⟩

/-- A directory of someone's. -/
def plansFields : RockFields where
  iso := notesName
  name := plansName
  noVersion := by decide
  noFinalDot := by decide
  notParent := by decide
  short := by decide
  permissions := 0o750
  permitted := by decide
  links := 2
  uid := 1000
  gid := 100
  stamps := none
  link := none

def draftName : LinkName :=
  ⟨"draft (2).text", by decide, by decide, by decide⟩

/-- A file. -/
def draftFields : RockFields :=
  { plansFields with
    iso := todoName
    name := draftName
    noVersion := by decide
    noFinalDot := by decide
    notParent := by decide
    short := by decide
    permissions := 0o644
    permitted := by decide
    links := 1 }

def latestName : LinkName := ⟨"latest", by decide, by decide, by decide⟩

/-- The target `./draft (2).text`. -/
def draftLink : RockLink where
  root := false
  parts := [⟨.current, by decide⟩, ⟨.name draftName, by decide⟩]
  nonempty := by decide
  fits := by decide

/-- A link to the file. -/
def latestFields : RockFields :=
  { draftFields with
    name := latestName
    noVersion := by decide
    noFinalDot := by decide
    notParent := by decide
    short := by decide
    permissions := 0o777
    permitted := by decide
    link := some draftLink }

def plansEntry : RockName := ⟨plansFields, by decide⟩
def draftEntry : RockName := ⟨draftFields, by decide⟩
def latestEntry : RockName := ⟨latestFields, by decide⟩

/-- A folder with a file and a link to it. -/
def ridgeDisc : Disc rockRidge where
  files := .folder plansEntry (.leaf draftEntry [0x68, 0x69]
    (.leaf latestEntry [] .empty)) .empty
  time := millennium
  root_small := by decide
  small := ⟨by decide, ⟨by decide, by decide, trivial⟩, trivial⟩
  addressable := by decide

/-- It is read back. -/
theorem rockRidge_read_back_small :
    (∃ iso s' turns, ISO9660.new debugBuild
        ((cursor ridgeDisc.image).reader debugBuild) (2 ^ 27) 0 = (.ok iso, s')
      ∧ (printTree debugBuild ((cursor ridgeDisc.image).reader debugBuild)
        (2 ^ 27) turns iso.root 0 s').2.1 = [
          "drwxr-x---  Jan 01 2000 00:00 My plans/",
          "-rw-r--r--  Jan 01 2000 00:00   draft (2).text",
          "lrwxrwxrwx  Jan 01 2000 00:00   latest → ./draft (2).text"])
      ∧ printFile debugBuild ((cursor ridgeDisc.image).reader debugBuild)
          wholeReads (2 ^ 27) (2 ^ 32) "my plans/./Draft (2).text" 0
        = .ok [0x68, 0x69] := by
  obtain ⟨⟨iso, s', hnew, -, turns, -, hlines⟩, hfile⟩ :=
    ridgeDisc.rockRidge_read_back (cursor_serves debugBuild _)
      (cursorSource_holds debugBuild _) le_rfl wholeReads_room 0
  refine ⟨⟨iso, s', turns, hnew, hlines.trans ?_⟩, ?_⟩
  · decide +kernel
  · rw [hfile _ _ le_rfl]
    decide +kernel

end Cdfs
