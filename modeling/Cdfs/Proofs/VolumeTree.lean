/-
A volume as a file hierarchy. A directory of the image stands for a
folder of a hierarchy if its iterator yields itself, its parent and then
an entry for each name of the folder (`Presents`), and a file stands for
the bytes of its extent. Over such a volume the library is a walk in the
hierarchy: `.` and `..` in a path go to the folder itself and to its
parent, any other text to the first name that is the same but for ASCII
case.

A directory is recognised by its place on the image (`SameExtent`),
since the entry a path ends at may have been reached as `.` or `..`.
-/
import Cdfs.ISO9660
import Cdfs.Proofs.EntryTotality
import Cdfs.Proofs.FileContents
import Cdfs.Proofs.Lookup
import Cdfs.Proofs.StepBound
import Cdfs.Rust.Hierarchy

namespace Cdfs

open Rust Parse

variable {σ : Type} {b : Build} {rd : ISO9660Reader σ} {src : Source}
  {image : List UInt8} {fuel : ℕ}

-- ================================================ statement vocabulary

/-- What a leaf of a volume holds. -/
inductive Content where
  | file (bytes : List UInt8)
  | link (target : Option String)
  deriving DecidableEq

/-- The hierarchy of a volume. -/
abbrev Tree : Type := Hierarchy String Content

/-- Both directories are the same blocks, read in the same encoding. -/
structure SameExtent (dir dir' : ISODirectory) : Prop where
  extentLoc : dir.header.extentLoc = dir'.header.extentLoc
  extentLength : dir.header.extentLength = dir'.header.extentLength
  encoding : dir.header.characterEncoding = dir'.header.characterEncoding

/-- The entry's content: for a file, the bytes of an extent that the image
holds whole. -/
inductive IsContent (image : List UInt8) : Content → DirectoryEntry → Prop
  | file {file : ISOFile} :
      BLOCK_SIZE * file.header.extentLoc.toNat + file.size.toNat
        ≤ image.length →
      IsContent image (.file (bytesOf image file)) (.file file)
  | link (link : Symlink) : IsContent image (.link link.target) (.symlink link)

/-- The iterator of a directory yields the directory, its parent, and then
these entries. -/
structure Catalog (b : Build) (src : Source) (fuel : ℕ)
    (dir parent own up : ISODirectory) (entries : List DirectoryEntry) :
    Prop where
  yields : Cursor.Yields (entryAt b src fuel dir) (some 0)
    (.directory own :: .directory up :: entries)
  own_name : own.identifier = "."
  up_name : up.identifier = ".."
  own_listed : ¬ IsAssociated (.directory own)
  up_listed : ¬ IsAssociated (.directory up)
  own_extent : SameExtent own dir
  up_extent : SameExtent up parent

def Lists (b : Build) (src : Source) (fuel : ℕ) (dir parent : ISODirectory)
    (entries : List DirectoryEntry) : Prop :=
  ∃ own up, Catalog b src fuel dir parent own up entries

/-- The entries of the directory, one for each name of the folder. -/
inductive Presents (b : Build) (src : Source) (fuel : ℕ)
    (image : List UInt8) : ISODirectory → Tree → List DirectoryEntry → Prop
  | empty {dir : ISODirectory} : Presents b src fuel image dir .empty []
  | leaf {dir : ISODirectory} {entry : DirectoryEntry} {content : Content}
      {beside : Tree} {entries : List DirectoryEntry} :
      ¬ IsAssociated entry → IsContent image content entry →
      Presents b src fuel image dir beside entries →
      Presents b src fuel image dir
        (.leaf entry.identifier content beside) (entry :: entries)
  | folder {dir sub : ISODirectory} {below beside : Tree}
      {entries inside : List DirectoryEntry} :
      ¬ IsAssociated (.directory sub) →
      sub.identifier ≠ "." → sub.identifier ≠ ".." →
      Lists b src fuel sub dir inside →
      Presents b src fuel image sub below inside →
      Presents b src fuel image dir beside entries →
      Presents b src fuel image dir (.folder sub.identifier below beside)
        (.directory sub :: entries)

/-- The directory stands for a folder, below folders that its ancestors
stand for. -/
inductive IsFolder (b : Build) (src : Source) (fuel : ℕ)
    (image : List UInt8) : Tree → List Tree → ISODirectory → Prop
  | top {dir top : ISODirectory} {here : Tree}
      {entries : List DirectoryEntry} :
      Lists b src fuel dir top entries → SameExtent dir top →
      Presents b src fuel image dir here entries →
      IsFolder b src fuel image here [] dir
  | sub {dir parent : ISODirectory} {here there : Tree}
      {above : List Tree} {entries : List DirectoryEntry} :
      IsFolder b src fuel image there above parent →
      Lists b src fuel dir parent entries →
      Presents b src fuel image dir here entries →
      IsFolder b src fuel image here (there :: above) dir

/-- What a place of the hierarchy is on the image. -/
inductive Stands (b : Build) (src : Source) (fuel : ℕ)
    (image : List UInt8) : Place String Content → DirectoryEntry → Prop
  | leaf {content : Content} {entry : DirectoryEntry} :
      IsContent image content entry →
      Stands b src fuel image (.leaf content) entry
  | folder {here : Tree} {above : List Tree} {dir : ISODirectory} :
      IsFolder b src fuel image here above dir →
      Stands b src fuel image (.folder here above) (.directory dir)

/-- A text of a path as a step. -/
def heading (segment : String) : Heading String :=
  if segment = "." then .here
  else if segment = ".." then .up
  else .down segment

/-- Where the path leads from a place. -/
def resolve (path : String) (p : Place String Content) :
    Option (Place String Content) :=
  p.walk (fun key name => eqIgnoreAsciiCase name key)
    ((segments path).map heading)

-- ================================================= the place of a directory

theorem SameExtent.refl (dir : ISODirectory) : SameExtent dir dir :=
  ⟨rfl, rfl, rfl⟩

section SameExtent

variable {dir dir' dir'' parent parent' : ISODirectory}

theorem SameExtent.symm (h : SameExtent dir dir') : SameExtent dir' dir :=
  ⟨h.extentLoc.symm, h.extentLength.symm, h.encoding.symm⟩

theorem SameExtent.trans (h : SameExtent dir dir')
    (h' : SameExtent dir' dir'') : SameExtent dir dir'' :=
  ⟨h.extentLoc.trans h'.extentLoc, h.extentLength.trans h'.extentLength,
    h.encoding.trans h'.encoding⟩

/-- What is read of a directory depends on its place only. -/
theorem SameExtent.entryAt_eq (h : SameExtent dir dir') :
    entryAt b src fuel dir = entryAt b src fuel dir' := by
  have hcount : dir.blockCount b = dir'.blockCount b := by
    rw [blockCount_eq, blockCount_eq, h.extentLength]
  funext offset
  unfold entryAt blockAt decodeEntry finishEntry
  simp only [h.extentLoc, h.encoding, hcount]

theorem Lists.of_sameExtent {entries : List DirectoryEntry}
    (h : Lists b src fuel dir parent entries) (hdir : SameExtent dir dir')
    (hparent : SameExtent parent parent') :
    Lists b src fuel dir' parent' entries := by
  obtain ⟨own, up, hyields, hown, hup, hsl, hul, hse, hue⟩ := h
  rw [hdir.entryAt_eq] at hyields
  exact ⟨own, up, hyields, hown, hup, hsl, hul, hse.trans hdir,
    hue.trans hparent⟩

theorem Presents.of_sameExtent {here : Tree} {entries : List DirectoryEntry}
    (h : Presents b src fuel image dir here entries) :
    ∀ {dir'}, SameExtent dir dir' →
      Presents b src fuel image dir' here entries := by
  induction h with
  | empty => exact fun _ => .empty
  | leaf hlisted hcontent _ ih =>
      intro dir' hsame
      exact .leaf hlisted hcontent (ih hsame)
  | folder hlisted hdot hdots hlists hbelow _ _ ih =>
      intro dir' hsame
      exact .folder hlisted hdot hdots
        (hlists.of_sameExtent (.refl _) hsame) hbelow (ih hsame)

theorem IsFolder.of_sameExtent {here : Tree} {above : List Tree}
    (h : IsFolder b src fuel image here above dir)
    (hsame : SameExtent dir dir') :
    IsFolder b src fuel image here above dir' := by
  cases h with
  | top hlists htop hpresents =>
      exact .top (hlists.of_sameExtent hsame (.refl _))
        (hsame.symm.trans htop) (hpresents.of_sameExtent hsame)
  | sub hparent hlists hpresents =>
      exact .sub hparent (hlists.of_sameExtent hsame (.refl _))
        (hpresents.of_sameExtent hsame)

end SameExtent

-- ====================================================== one step of a path

theorem toLower_eq_dot {c : Char} (h : c.toLower = '.') : c = '.' := by
  unfold Char.toLower at h
  split at h
  next hup =>
    have hval := congrArg (fun c : Char => c.val.toNat) h
    have hlow := UInt32.le_iff_toNat_le.mp hup.1
    have hhigh := UInt32.le_iff_toNat_le.mp hup.2
    simp only [UInt32.toNat_add, UInt32.toNat_sub, UInt32.reduceToNat,
      Char.reduceVal] at hval hlow hhigh
    omega
  next => exact h

/-- Dots have one case only. -/
theorem map_toLower_dots {dots : List Char} (hdots : ∀ c ∈ dots, c = '.') :
    ∀ {l : List Char}, dots.map Char.toLower = l.map Char.toLower →
      dots = l := by
  induction dots with
  | nil =>
      intro l h
      exact (List.map_eq_nil_iff.mp h.symm).symm
  | cons c dots ih =>
      intro l h
      cases l with
      | nil => cases h
      | cons c' l =>
          cases hdots c List.mem_cons_self
          injection h with hc hl
          rw [toLower_eq_dot hc.symm,
            ih (fun c hc => hdots c (List.mem_cons_of_mem _ hc)) hl]

theorem eqIgnoreAsciiCase_dots {dots key : String}
    (hdots : ∀ c ∈ dots.toList, c = '.') :
    eqIgnoreAsciiCase dots key = true ↔ dots = key := by
  constructor
  · intro h
    apply String.toList_injective
    exact map_toLower_dots hdots (beq_iff_eq.mp h)
  · rintro rfl
    exact eqIgnoreAsciiCase_refl dots

theorem matchesName_dots {dir : ISODirectory} {key : String}
    (hlisted : ¬ IsAssociated (.directory dir))
    (hdots : ∀ c ∈ dir.identifier.toList, c = '.') :
    matchesName key (.directory dir) = true ↔ dir.identifier = key := by
  rw [matchesName_iff, and_iff_right hlisted]
  exact eqIgnoreAsciiCase_dots hdots

/-- Below a directory that stands for a folder, a name of the folder finds
what it stands for. -/
theorem Presents.find {here there : Tree} {above : List Tree}
    {dir : ISODirectory} {entries : List DirectoryEntry}
    (hfolder : IsFolder b src fuel image there above dir)
    (h : Presents b src fuel image dir here entries) (key : String) :
    Option.Rel (Stands b src fuel image)
      (here.lookup (fun name => eqIgnoreAsciiCase name key) (there :: above))
      (entries.find? (matchesName key)) := by
  induction h with
  | empty => exact .none
  | @leaf dir entry content beside entries hlisted hcontent _ ih =>
      rw [Hierarchy.lookup, List.find?_cons]
      by_cases hname : eqIgnoreAsciiCase entry.identifier key = true
      · rw [if_pos hname, matchesName_iff.mpr ⟨hlisted, hname⟩]
        exact .some (.leaf hcontent)
      · rw [if_neg hname, Bool.eq_false_of_not_eq_true fun hmatch =>
          hname (matchesName_iff.mp hmatch).2]
        exact ih hfolder
  | @folder dir sub below beside entries inside hlisted _ _ hlists hbelow _
      _ ih =>
      rw [Hierarchy.lookup, List.find?_cons]
      by_cases hname : eqIgnoreAsciiCase sub.identifier key = true
      · rw [if_pos hname, matchesName_iff.mpr ⟨hlisted, hname⟩]
        exact .some (.folder (.sub hfolder hlists hbelow))
      · rw [if_neg hname, Bool.eq_false_of_not_eq_true
          (show ¬ matchesName key (.directory sub) = true from
            fun hmatch => hname (matchesName_iff.mp hmatch).2)]
        exact ih hfolder

/-- What is found in the listing of a directory. -/
theorem Catalog.find {dir parent own up : ISODirectory}
    {entries : List DirectoryEntry}
    (h : Catalog b src fuel dir parent own up entries) (key : String) :
    (.directory own :: .directory up :: entries).find? (matchesName key)
      = if key = "." then some (.directory own)
        else if key = ".." then some (.directory up)
        else entries.find? (matchesName key) := by
  have hown : matchesName key (.directory own) = true ↔ "." = key := by
    rw [matchesName_dots h.own_listed (by rw [h.own_name]; simp),
      h.own_name]
  have hup : matchesName key (.directory up) = true ↔ ".." = key := by
    rw [matchesName_dots h.up_listed (by rw [h.up_name]; simp), h.up_name]
  by_cases hdot : key = "."
  · rw [if_pos hdot, List.find?_cons_of_pos (hown.mpr hdot.symm)]
  · rw [if_neg hdot, List.find?_cons_of_neg fun hm => hdot (hown.mp hm).symm]
    by_cases hdots : key = ".."
    · rw [if_pos hdots, List.find?_cons_of_pos (hup.mpr hdots.symm)]
    · rw [if_neg hdots,
        List.find?_cons_of_neg fun hm => hdots (hup.mp hm).symm]

/-- One step: what the search in a directory finds is where the heading
leads. -/
theorem IsFolder.find {here : Tree} {above : List Tree} {dir : ISODirectory}
    (h : IsFolder b src fuel image here above dir) (key : String) :
    ∃ entries, Cursor.Yields (entryAt b src fuel dir) (some 0) entries
      ∧ Option.Rel (Stands b src fuel image)
        ((Place.folder here above).go
          (fun key name => eqIgnoreAsciiCase name key) (heading key))
        (entries.find? (matchesName key)) := by
  have hfolder := h
  unfold heading
  cases h with
  | @top _ top _ inside hlists htop hpresents =>
      obtain ⟨own, up, hopen⟩ := hlists
      refine ⟨_, hopen.yields, ?_⟩
      rw [hopen.find]
      split
      · exact .some (.folder (hfolder.of_sameExtent hopen.own_extent.symm))
      · split
        · exact .some (.folder (hfolder.of_sameExtent
            (htop.trans hopen.up_extent.symm)))
        · exact hpresents.find hfolder key
  | sub hparent hlists hpresents =>
      obtain ⟨own, up, hopen⟩ := hlists
      refine ⟨_, hopen.yields, ?_⟩
      rw [hopen.find]
      split
      · exact .some (.folder (hfolder.of_sameExtent hopen.own_extent.symm))
      · split
        · exact .some (.folder (hparent.of_sameExtent hopen.up_extent.symm))
        · exact hpresents.find hfolder key

-- ================================================ the length of a listing

/-- A listing has an entry for each call of the iterator. -/
theorem calls_of_yields {dir : ISODirectory} {entries : List DirectoryEntry} :
    ∀ {k : ℕ} {pos : Option ℕ}, Calls b src.reader dir k pos →
      Cursor.Yields (entryAt b src fuel dir) pos entries →
      Calls b src.reader dir (k + entries.length) none := by
  induction entries with
  | nil =>
      intro k pos hcalls hyields
      rw [Cursor.Yields.none_of_nil hyields] at hcalls
      exact hcalls
  | cons entry entries ih =>
      intro k pos hcalls hyields
      obtain ⟨offset, next, rfl, hentry, hrest⟩ := hyields.uncons
      have hread := (readEntryAt_serves (b := b) src.reader_serves fuel
        (coherent_new src dir) offset ()).1
      rw [hentry] at hread
      have hcall := ih (.call (s := ()) hcalls (Prod.ext hread rfl)) hrest
      rw [List.length_cons, Nat.add_comm entries.length, ← Nat.add_assoc]
      exact hcall

/-- A directory of at most 2^21 blocks has less than 2^27 entries. -/
theorem length_of_yields {dir : ISODirectory}
    {entries : List DirectoryEntry}
    (h : Cursor.Yields (entryAt b src fuel dir) (some 0) entries) :
    entries.length < 2 ^ 27 := by
  have hcalls := (calls_of_yields .start h).le_stepLimit
  have hlimit : stepLimit b dir < 2 ^ 27 := by
    unfold stepLimit
    split
    next count hcount =>
      have := blockCount_lt hcount
      omega
    next => decide
  omega

-- =================================================================== paths

/-- A search in a directory that stands for a folder. -/
theorem find_stands (hserve : rd.Serves src) (hfuel : 2 ^ 27 ≤ fuel)
    {here : Tree} {above : List Tree} {dir : ISODirectory}
    (h : IsFolder b src fuel image here above dir) (key : String) (s : σ) :
    ∃ found, (find b rd fuel dir key s).1 = .ok found
      ∧ Option.Rel (Stands b src fuel image)
        ((Place.folder here above).go
          (fun key name => eqIgnoreAsciiCase name key) (heading key))
        found := by
  obtain ⟨entries, hyields, hfound⟩ := h.find key
  refine ⟨_, find_eq ?_ (fun n => ?_) key, hfound⟩
  · exact (length_of_yields hyields).trans_le hfuel
  · rw [item_eq hserve, hyields n]

/-- A path from an entry leads where the hierarchy says. -/
theorem findSegments_stands (hserve : rd.Serves src) (hfuel : 2 ^ 27 ≤ fuel)
    (segments : List String) :
    ∀ {p : Place String Content} {entry : DirectoryEntry} (s : σ),
      Stands b src fuel image p entry →
      ∃ found, (findSegments b rd fuel segments entry s).1 = .ok found
        ∧ Option.Rel (Stands b src fuel image)
          (p.walk (fun key name => eqIgnoreAsciiCase name key)
            (segments.map heading)) found := by
  induction segments with
  | nil => exact fun s h => ⟨_, rfl, .some h⟩
  | cons segment segments ih =>
      intro p entry s h
      rw [List.map_cons, Place.walk]
      cases h with
      | leaf hcontent =>
          refine ⟨none, ?_, .none⟩
          cases hcontent with
          | file => rfl
          | link => rfl
      | folder hfolder =>
          obtain ⟨found, hfind, hgo⟩ :=
            find_stands hserve hfuel hfolder segment s
          rw [findSegments]
          rcases hres : find b rd fuel _ segment s with ⟨r, s'⟩
          rw [hres] at hfind
          dsimp only at hfind
          subst hfind
          generalize Place.go _ _ _ = place at hgo ⊢
          cases hgo with
          | none => exact ⟨none, rfl, .none⟩
          | some hstands => exact ih s' hstands

theorem findRecursive_stands (hserve : rd.Serves src) (hfuel : 2 ^ 27 ≤ fuel)
    {here : Tree} {above : List Tree} {dir : ISODirectory}
    (h : IsFolder b src fuel image here above dir) (path : String) (s : σ) :
    ∃ found, (findRecursive b rd fuel dir path s).1 = .ok found
      ∧ Option.Rel (Stands b src fuel image)
        (resolve path (.folder here above)) found :=
  findSegments_stands hserve hfuel (segments path) s (.folder h)

theorem openPath_of_mainRoot {iso : ISO9660} {s : σ} {root : ISODirectory}
    (h : (iso.mainRoot b rd fuel s).1 = .ok root) (path : String) :
    iso.openPath b rd fuel path s
      = findRecursive b rd fuel root path (iso.mainRoot b rd fuel s).2 := by
  unfold ISO9660.openPath
  rcases hmain : iso.mainRoot b rd fuel s with ⟨r, s'⟩
  rw [hmain] at h
  dsimp only at h
  subst h
  rfl

/-- Opening a path of a volume comes back with what the path leads to in
the hierarchy: nothing where it leads nowhere, and otherwise the entry
that stands for the place. -/
theorem openPath_volume (hserve : rd.Serves src) (hfuel : 2 ^ 27 ≤ fuel)
    {iso : ISO9660} {s : σ} {root : ISODirectory} {tree : Tree}
    (hroot : (iso.mainRoot b rd fuel s).1 = .ok root)
    (hvolume : IsFolder b src fuel image tree [] root) (path : String) :
    ∃ found, (iso.openPath b rd fuel path s).1 = .ok found
      ∧ Option.Rel (Stands b src fuel image)
        (resolve path (.folder tree [])) found := by
  rw [openPath_of_mainRoot hroot]
  exact findRecursive_stands hserve hfuel hvolume path _

end Cdfs
