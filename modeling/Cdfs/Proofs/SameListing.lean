/-
A directory as it is listed and as it is looked up. `readdir` leaves out
the entries that are relocated, which are to be hidden because they exist
elsewhere too. `find` leaves out those with the flag of an associated
file, and nothing hides the relocated ones from it. So the two show the
same directory exactly if the two flags go together (`sameDirectory_iff`),
and if whatever is visible can be replied to.
-/
import Cdfs.Proofs.PagedListing
import Mathlib.Data.List.Pairwise

namespace Cdfs

open Rust Parse Numbering Service ISOFuse

variable {σ : Type} {host : Host σ} {src : Source} {fs : ISOFuse σ}
  {dir : ISODirectory} {entry : DirectoryEntry}
  {entries : List DirectoryEntry}

-- ============================================================= two views

/-- The identifiers differ in more than the case of ASCII letters. -/
def Distinct (entries : List DirectoryEntry) : Prop :=
  entries.Pairwise fun e e' =>
    eqIgnoreAsciiCase e.identifier e'.identifier = false

/-- The pages list this entry, with its name and kind. -/
def ListedIn (pages : List (List Dirent)) (entry : DirectoryEntry) : Prop :=
  ∃ d ∈ pages.flatten, d.name = entry.identifier
    ∧ d.kind = entryToFiletype entry

/-- Under some name a lookup returns this entry, with its kind. -/
def FoundIn (host : Host σ) (fs : ISOFuse σ) (parent : ℕ)
    (entry : DirectoryEntry) : Prop :=
  ∃ name attr fs', lookup host fs parent name = (.ok (.entry attr), fs')
    ∧ fs'.inodes attr.ino = some entry ∧ attr.kind = entryToFiletype entry

/-- However it is paged, the listing comes to an end and shows the
entries that lookups return. -/
def SameDirectory (host : Host σ) (fs : ISOFuse σ) (fh parent : ℕ)
    (entries : List DirectoryEntry) : Prop :=
  ∀ accepts : ℕ → Capacity, (∀ k d, accepts k [] d = true) →
    ∃ pages fs', Paged host fh accepts fs 0 pages fs'
      ∧ ∀ e ∈ entries, NotDots e →
        (ListedIn pages e ↔ FoundIn host fs parent e)

/-- A lookup can return the entry. -/
structure Findable (host : Host σ) (fs : ISOFuse σ)
    (entry : DirectoryEntry) : Prop where
  notAssociated : ¬ IsAssociated entry
  hasNumber : HasNumber fs entry
  countable : Countable host entry

-- ============================================================ the listing

/-- What is distinct is told by its name. -/
theorem Distinct.eq_of_identifier (h : Distinct entries)
    {e e' : DirectoryEntry} (he : e ∈ entries) (he' : e' ∈ entries)
    (hname : e.identifier = e'.identifier) : e = e' := by
  by_contra hne
  have hsymm : Std.Symm fun e e' : DirectoryEntry =>
      eqIgnoreAsciiCase e.identifier e'.identifier = false :=
    ⟨fun x y hxy => by
      unfold eqIgnoreAsciiCase at hxy ⊢
      rw [beq_eq_false_iff_ne] at hxy ⊢
      exact hxy.symm⟩
  have hfalse := List.Pairwise.forall h he he' hne
  rw [hname, eqIgnoreAsciiCase_refl] at hfalse
  cases hfalse

theorem mem_visible : entry ∈ visible entries
    ↔ entry ∈ entries ∧ entry.relocated = false := by
  unfold visible
  rw [List.mem_filter, Bool.not_eq_true']

/-- Pages that show the visible entries list just those. -/
theorem listedIn_iff {pages : List (List Dirent)} {auto : Bool}
    (hshows : List.Forall₂ (Shows auto) pages.flatten (visible entries))
    (hdistinct : Distinct entries) (hmem : entry ∈ entries) :
    ListedIn pages entry ↔ entry.relocated = false := by
  constructor
  · rintro ⟨d, hd, hname, -⟩
    obtain ⟨k, hk, hget⟩ := List.mem_iff_getElem.mp hd
    have hk' : k < (visible entries).length := hshows.length_eq ▸ hk
    have hshow := hshows.get hk hk'
    obtain ⟨hin, hvis⟩ := mem_visible.mp (List.getElem_mem hk')
    have hsame : (visible entries)[k] = entry := by
      apply hdistinct.eq_of_identifier hin hmem
      have hshown : d.name = (visible entries)[k].identifier := by
        rw [← hget]
        exact hshow.name
      rw [← hshown, hname]
    rw [← hsame]
    exact hvis
  · intro hvis
    obtain ⟨k, hk, hget⟩ :=
      List.mem_iff_getElem.mp (mem_visible.mpr ⟨hmem, hvis⟩)
    have hk' : k < pages.flatten.length := hshows.length_eq.symm ▸ hk
    have hshow := hshows.get hk' hk
    have hentry : (visible entries).get ⟨k, hk⟩ = entry := hget
    rw [hentry] at hshow
    exact ⟨_, List.getElem_mem hk', hshow.name, hshow.kind⟩

/-- A listing that has room for everything and comes back got a number
for all it shows. -/
theorem readdirFrom_boundless (hserve : host.reader.Serves src)
    (entries : List DirectoryEntry) :
    ∀ (turns : ℕ) (fs : ISOFuse σ) (cache : BlockCache) (pos : Option ℕ)
      (listing : List Dirent) (reply : Reply) (fs' : ISOFuse σ),
      Coherent src dir cache →
      Cursor.Yields (entryAt host.build src host.fuel dir) pos entries →
      entries.length ≤ turns →
      readdirFrom host dir (boundless 0) turns fs cache pos listing
        = (.ok reply, fs') →
      NumbersSuffice fs.inodeAutogenerated fs.inodeNumber entries
        ∧ Numbered fs.inodeAutogenerated (visible entries) := by
  induction entries with
  | nil =>
      rintro _ _ _ _ _ _ _ _ _ _ -
      exact ⟨trivial, fun _ h => nomatch h⟩
  | cons entry entries ih =>
      intro turns fs cache pos listing reply fs' hco hyields hturns hcall
      obtain ⟨before, offset, next, cache', file, hbefore, hrest, hread, hco',
        hturn⟩ := readdirFrom_turn hserve (boundless 0) fs listing hco hyields
          hturns
      rw [hcall] at hturn
      generalize hresult : ((.ok reply, fs') : Outcome Errno Reply × ISOFuse σ)
        = result at hturn
      rw [visible_cons]
      cases hturn with
      | out | numberless => cases hresult
      | failed _ _ _ _ hno =>
          injection hresult with hreply
          exact absurd hreply.symm (hno _)
      | full _ _ _ _ _ hfits => cases hfits
      | hidden hmax hfound hrel =>
          cases hread.symm.trans hfound
          obtain ⟨hsuffice, hnumbered⟩ :=
            ih before _ _ next _ _ _ hco' hrest hbefore hresult.symm
          rw [if_pos hrel]
          refine ⟨⟨hmax, ?_⟩, hnumbered⟩
          rw [hrel, Bool.not_true, Bool.and_false]
          exact hsuffice
      | @listed _ _ _ _ n cookie hmax hfound hrel hn =>
          cases hread.symm.trans hfound
          obtain ⟨hsuffice, hnumbered⟩ :=
            ih before _ _ next _ _ _ hco' hrest hbefore hresult.symm
          rw [listed_inodeAutogenerated] at hsuffice hnumbered
          rw [listed_inodeNumber] at hsuffice
          rw [if_neg (by rw [hrel]; exact Bool.false_ne_true)]
          refine ⟨⟨hmax, ?_⟩, fun e he => ?_⟩
          · rw [hrel, Bool.not_false, Bool.and_true]
            exact hsuffice
          · rcases List.mem_cons.mp he with rfl | he
            · intro hauto hino
              have hgen : fs.table.generated = false := hauto
              have hnum := numberFor_eq_ok.mp hn
              rw [table_reading, Table.number_of_own hgen,
                serial_eq_none hino] at hnum
              cases hnum
            · exact hnumbered e he

theorem Paged.unique {fh : ℕ} {accepts : ℕ → Capacity} {fs : ISOFuse σ}
    {cookie : Int64} {pages pages' : List (List Dirent)}
    {fs₁ fs₂ : ISOFuse σ} (h : Paged host fh accepts fs cookie pages fs₁)
    (h' : Paged host fh accepts fs cookie pages' fs₂) : pages = pages' := by
  induction h generalizing pages' fs₂ with
  | last hcall =>
      cases h' with
      | last => rfl
      | page hcall' hlast' =>
          rw [hcall] at hcall'
          injection hcall' with hreply
          injection Outcome.ok.inj hreply with hpage
          rw [← hpage] at hlast'
          cases hlast'
  | page hcall hlast _ ih =>
      cases h' with
      | last hcall' =>
          rw [hcall] at hcall'
          injection hcall' with hreply
          injection Outcome.ok.inj hreply with hpage
          rw [hpage] at hlast
          cases hlast
      | page hcall' hlast' hrest' =>
          rw [hcall] at hcall'
          injection hcall' with hreply hstate
          injection Outcome.ok.inj hreply with hpage
          subst hpage hstate
          rw [hlast] at hlast'
          injection hlast' with hlast'
          subst hlast'
          rw [ih hrest']

/-- So did a paging that comes to its end. -/
theorem paged_boundless (hserve : host.reader.Serves src) {fh : ℕ}
    (hopen : fs.openDirectories fh = some dir)
    (hyields : Cursor.Yields (entryAt host.build src host.fuel dir) (some 0)
      entries)
    {pages : List (List Dirent)} {fs' : ISOFuse σ}
    (hpaged : Paged host fh boundless fs 0 pages fs') :
    NumbersSuffice fs.inodeAutogenerated fs.inodeNumber entries
      ∧ Numbered fs.inodeAutogenerated (visible entries) := by
  obtain ⟨page, fs₁, hcall⟩ : ∃ page fs₁,
      readdir host fs fh 0 (boundless 0) = (.ok (.directory page), fs₁) := by
    cases hpaged with
    | last hcall | page hcall => exact ⟨_, _, hcall⟩
  unfold readdir at hcall
  rw [hopen] at hcall
  dsimp only at hcall
  rw [if_neg (by decide), if_neg (by decide),
    (by decide : (0 : Int64).toInt.toNat = 0)] at hcall
  have hlen := hyields.length_le entryAt_measure
  apply readdirFrom_boundless hserve entries (2 ^ 32 + 1) fs BlockCache.new
    (some 0) [] (.directory page) fs₁ (coherent_new src dir) hyields
    (by omega)
  unfold readdirFrom
  dsimp only
  exact hcall

-- ============================================================ the lookups

/-- Some lookup in the directory returns the entry, exactly if it is one
that `find` does not pass over and that can be replied to. -/
theorem foundIn_iff {parent : ℕ}
    (hdir : fs.inodes parent = some (.directory dir))
    (hmax : fs.inodeNumber ≠ u64Max) (hfuel : entries.length < host.fuel)
    (hlist : ∀ n, item host.build host.reader host.fuel dir fs.file n
      = (entries[n]?).map .ok)
    (hdistinct : Distinct entries) (hmem : entry ∈ entries) :
    FoundIn host fs parent entry ↔ Findable host fs entry := by
  have hfinds (name : String) := find_eq (b := host.build) hfuel hlist name
  constructor
  · rintro ⟨name, attr, fs', hcall, hentered, -⟩
    obtain ⟨dir', text, found, hdir', hfind, hnum, hattr, -, hbound⟩ :=
      lookup_entered (congrArg Prod.fst hcall)
    have hfound : found = entry := by
      rw [hcall, hentered] at hbound
      exact (Option.some.inj hbound).symm
    subst hfound
    rw [hdir] at hdir'
    cases hdir'
    have hfirst := Outcome.ok.inj ((hfinds text).symm.trans hfind)
    obtain ⟨hassoc, -⟩ := matchesName_iff.mp (List.find?_some hfirst)
    refine ⟨hassoc, fun hauto hino => ?_, ?_⟩
    · have hgen : fs.table.generated = false := hauto
      rw [Table.number_of_own hgen, serial_eq_none hino] at hnum
      cases hnum
    · rcases getFileattr_cases host attr.ino found with
        ⟨-, -, -, hcount⟩ | ⟨hpanic, -⟩
      · exact hcount
      · rw [hattr] at hpanic
        cases hpanic
  · rintro ⟨hassoc, hnumber, hcount⟩
    obtain ⟨before, after, hsplit⟩ := List.append_of_mem hmem
    have hfind : (find host.build host.reader host.fuel dir entry.identifier
        fs.file).1 = .ok (some entry) := by
      rw [hfinds]
      congr 1
      rw [List.find?_eq_some_iff_append]
      refine ⟨matchesName_iff.mpr ⟨hassoc, eqIgnoreAsciiCase_refl _⟩,
        before, after, hsplit, fun e he => ?_⟩
      rw [hsplit] at hdistinct
      have hother := (List.pairwise_append.mp hdistinct).2.2 e he entry
        List.mem_cons_self
      rw [Bool.not_eq_true', ← Bool.not_eq_true, matchesName_iff, hother]
      simp
    rcases fs.numberFor_cases entry with ⟨n, hn, -⟩ | ⟨-, hauto, hino⟩
    · rcases getFileattr_cases host n entry with
        ⟨attr, hattr, rfl, -⟩ | ⟨-, hno⟩
      · refine ⟨asBytes entry.identifier, attr, _,
          lookup_found hdir hmax (fromUtf8_asBytes _) (Prod.ext hfind rfl) hn
            hattr, ?_, getFileattr_kind hattr⟩
        show (((ISOFuse.insert _ attr.ino entry).advance).table).bound
          attr.ino = _
        rw [table_advance, table_insert, Table.bound_advance,
          Table.bound_insert]
      · exact absurd hcount hno
    · exact absurd hino (hnumber hauto)

-- ============================================================== the two

/-- What every paging comes to, if numbers can be had. -/
theorem paged_listedIn (hserve : host.reader.Serves src) {fh : ℕ}
    (hopen : fs.openDirectories fh = some dir)
    (hyields : Cursor.Yields (entryAt host.build src host.fuel dir) (some 0)
      entries)
    (hdistinct : Distinct entries)
    (hsuffice : NumbersSuffice fs.inodeAutogenerated fs.inodeNumber entries)
    (hnumbered : Numbered fs.inodeAutogenerated (visible entries))
    {accepts : ℕ → Capacity} (hcap : ∀ k d, accepts k [] d = true) :
    ∃ pages fs', Paged host fh accepts fs 0 pages fs'
      ∧ ∀ e ∈ entries, ListedIn pages e ↔ e.relocated = false := by
  obtain ⟨pages, fs', hpaged, hshows⟩ := paged_visible hserve
    (visible entries).length accepts fs (some 0) 0 entries hopen hcap rfl
    hyields hsuffice hnumbered rfl
  exact ⟨pages, fs', hpaged,
    fun e he => listedIn_iff hshows hdistinct he⟩

/-- If the two are the same, numbers can be had, and lookups return just
what is not relocated. -/
theorem SameDirectory.visible_iff {fh parent : ℕ}
    (h : SameDirectory host fs fh parent entries)
    (hserve : host.reader.Serves src)
    (hopen : fs.openDirectories fh = some dir)
    (hyields : Cursor.Yields (entryAt host.build src host.fuel dir) (some 0)
      entries)
    (hdistinct : Distinct entries) :
    NumbersSuffice fs.inodeAutogenerated fs.inodeNumber entries
      ∧ (∀ e ∈ visible entries, HasNumber fs e)
      ∧ ∀ e ∈ entries, NotDots e →
        (e.relocated = false ↔ FoundIn host fs parent e) := by
  obtain ⟨pages, fs', hpaged, hviews⟩ := h boundless fun _ _ => rfl
  obtain ⟨hsuffice, hnumbered⟩ := paged_boundless hserve hopen hyields hpaged
  obtain ⟨pages', fs'', hpaged', hlisted⟩ := paged_listedIn hserve hopen
    hyields hdistinct hsuffice hnumbered
    (fun _ _ => rfl : ∀ k d, boundless k [] d = true)
  rw [hpaged.unique hpaged'] at hviews
  refine ⟨hsuffice, hnumbered, fun e he hdots => ?_⟩
  rw [← hlisted e he]
  exact hviews e he hdots

/-- A directory of distinct names is listed as it is looked up, exactly if
its listing gets all the numbers it takes, and if of the entries other
than `.` and `..` those that are not relocated are those that are not
associated files and have a number and a count of blocks. -/
theorem sameDirectory_iff (hserve : host.reader.Serves src)
    {fh parent : ℕ} (hopen : fs.openDirectories fh = some dir)
    (hdir : fs.inodes parent = some (.directory dir))
    (hfuel : entries.length < host.fuel)
    (hlist : ∀ n, item host.build host.reader host.fuel dir fs.file n
      = (entries[n]?).map .ok)
    (hdistinct : Distinct entries) :
    SameDirectory host fs fh parent entries
      ↔ NumbersSuffice fs.inodeAutogenerated fs.inodeNumber entries
        ∧ (∀ e ∈ visible entries, HasNumber fs e)
        ∧ ∀ e ∈ entries, NotDots e →
          (e.relocated = false ↔ Findable host fs e) := by
  have hyields : Cursor.Yields (entryAt host.build src host.fuel dir)
      (some 0) entries := by
    intro n
    rw [← hlist n, item_eq hserve]
  have hlookups : NumbersSuffice fs.inodeAutogenerated fs.inodeNumber
      entries → ∀ e ∈ entries,
        (FoundIn host fs parent e ↔ Findable host fs e) := by
    intro hsuffice e he
    have hmax : fs.inodeNumber ≠ u64Max := by
      cases entries with
      | nil => cases he
      | cons => exact hsuffice.1
    exact foundIn_iff hdir hmax hfuel hlist hdistinct he
  constructor
  · intro hsame
    obtain ⟨hsuffice, hnumbered, hviews⟩ :=
      hsame.visible_iff hserve hopen hyields hdistinct
    refine ⟨hsuffice, hnumbered, fun e he hdots => ?_⟩
    rw [hviews e he hdots]
    exact hlookups hsuffice e he
  · rintro ⟨hsuffice, hnumbered, hflags⟩ accepts hcap
    obtain ⟨pages, fs', hpaged, hlisted⟩ := paged_listedIn hserve hopen
      hyields hdistinct hsuffice hnumbered hcap
    refine ⟨pages, fs', hpaged, fun e he hdots => ?_⟩
    rw [hlisted e he, hflags e he hdots]
    exact (hlookups hsuffice e he).symm

-- ================================================== a relocated directory

/-- A directory with the file `A` and the directory `B`, which is
relocated; `B` has the flag of an associated file or not. -/
def movedBlock (associated : Bool) : BlockBuffer :=
  BlockBuffer.new.overwrite
    (upperRecord.bytes
      ++ [38, 0, 22, 0, 0, 0, 0, 0, 0, 22, 0, 8, 0, 0, 0, 0, 8, 0,
        100, 1, 1, 0, 0, 0, 0, if associated then 6 else 2,
        0, 0, 1, 0, 0, 1, 1, 0x42]
      ++ [0x52, 0x45, 4, 1])

theorem moved_yields (associated : Bool) : ∃ e,
    Cursor.Yields (entryAt quietBuild (discOf (movedBlock associated)) 20
        discRoot) (some 0) [upperRecord.entry, e]
      ∧ e.identifier = "B" ∧ e.relocated = true
      ∧ e.header.extentLength.toNat + BLOCK_SIZE < 2 ^ 32
      ∧ (IsAssociated e ↔ associated = true) := by
  have hfirst : entryAt quietBuild (discOf (movedBlock associated)) 20
      discRoot 0 = .ok (upperRecord.entry, some 34) := by
    revert associated
    decide +kernel
  have hcheck : (entryAt quietBuild (discOf (movedBlock associated)) 20
      discRoot 34).isOkAnd (fun r => decide (r.2 = none
        ∧ r.1.identifier = "B" ∧ r.1.relocated = true
        ∧ r.1.header.extentLength.toNat + BLOCK_SIZE < 2 ^ 32
        ∧ contains r.1.header.fileFlags FileFlags.ASSOCIATED_FILE
          = associated)) = true := by
    revert associated
    decide +kernel
  obtain ⟨⟨e, next⟩, hsecond, htests⟩ := Outcome.exists_of_isOkAnd hcheck
  obtain ⟨rfl, hname, hrel, hlength, hflag⟩ := of_decide_eq_true htests
  refine ⟨e, (Cursor.yields_nil.cons hsecond).cons hfirst, hname, hrel,
    hlength, ?_⟩
  unfold IsAssociated
  rw [hflag]

/-- The disc, and its root directory, open. -/
def movedHost (associated : Bool) : Host Unit :=
  hostOf (movedBlock associated)

theorem moved_item (associated : Bool) {e : DirectoryEntry}
    (h : Cursor.Yields (entryAt quietBuild (discOf (movedBlock associated)) 20
      discRoot) (some 0) [upperRecord.entry, e]) :
    ∀ n, item quietBuild (movedHost associated).reader 20 discRoot () n
      = ([upperRecord.entry, e][n]?).map .ok := by
  intro n
  unfold movedHost hostOf
  rw [item_eq (discOf (movedBlock associated)).reader_serves]
  exact h n

theorem moved_distinct {e : DirectoryEntry} (h : e.identifier = "B") :
    Distinct [upperRecord.entry, e] := by
  refine .cons (fun e' he' => ?_) (List.pairwise_singleton _ _)
  rw [List.mem_singleton.mp he', h]
  decide

/-- With the flag `B` is hidden from both, and `A` is shown by both. -/
theorem sameDirectory_moved : ∃ e, e.relocated = true
    ∧ SameDirectory (movedHost true) lettersOpen 0 FUSE_ROOT_ID
      [upperRecord.entry, e] := by
  obtain ⟨e, hyields, hname, hrel, -, hassoc⟩ := moved_yields true
  refine ⟨e, hrel, (sameDirectory_iff
    (discOf (movedBlock true)).reader_serves rfl rfl (by show 2 < 20; decide)
    (moved_item true hyields) (moved_distinct hname)).mpr ⟨?_, ?_, ?_⟩⟩
  · exact ⟨by decide, by decide, trivial⟩
  · exact fun _ _ hauto => nomatch hauto
  · intro e' he' _
    rcases List.mem_cons.mp he' with rfl | he'
    · exact ⟨fun _ => ⟨by unfold IsAssociated; decide, (fun h => nomatch h),
        fun _ => by decide⟩, fun _ => rfl⟩
    · rw [List.mem_singleton.mp he', hrel]
      exact ⟨(fun h => nomatch h), fun h => absurd (hassoc.mpr rfl)
        h.notAssociated⟩

/-- Without it a lookup returns the relocated `B`, which is not listed. -/
theorem relocated_found : ∃ e,
    (∀ n, item quietBuild (movedHost false).reader 20 discRoot () n
        = ([upperRecord.entry, e][n]?).map .ok)
      ∧ Distinct [upperRecord.entry, e] ∧ NotDots e ∧ e.relocated = true
      ∧ FoundIn (movedHost false) lettersOpen FUSE_ROOT_ID e
      ∧ ¬ SameDirectory (movedHost false) lettersOpen 0 FUSE_ROOT_ID
        [upperRecord.entry, e] := by
  obtain ⟨e, hyields, hname, hrel, hlength, hassoc⟩ := moved_yields false
  have hitem := moved_item false hyields
  have hdistinct := moved_distinct hname
  have hdots : NotDots e := by
    show e.identifier ≠ "." ∧ e.identifier ≠ ".."
    rw [hname]
    decide
  have hmem : e ∈ [upperRecord.entry, e] := by simp
  have hserve : (movedHost false).reader.Serves (discOf (movedBlock false)) :=
    (discOf (movedBlock false)).reader_serves
  have hroot : lettersOpen.inodes FUSE_ROOT_ID = some (.directory discRoot) :=
    rfl
  have hfound : FoundIn (movedHost false) lettersOpen FUSE_ROOT_ID e := by
    apply (foundIn_iff hroot (by decide) (by show 2 < 20; decide) hitem
      hdistinct hmem).mpr
    exact ⟨(fun h => nomatch hassoc.mp h), (fun h => nomatch h),
      fun _ => hlength⟩
  refine ⟨e, hitem, hdistinct, hdots, hrel, hfound, fun hsame => ?_⟩
  have hopen : lettersOpen.openDirectories 0 = some discRoot := rfl
  obtain ⟨-, -, hviews⟩ := hsame.visible_iff hserve hopen hyields hdistinct
  have hvisible := (hviews e hmem hdots).mpr hfound
  rw [hrel] at hvisible
  cases hvisible

end Cdfs
