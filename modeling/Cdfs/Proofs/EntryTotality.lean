/-
The calls of `read_entry_at` that do not come back. Once a record is
parsed, what is left are the loop over its continuation areas and the
building of its entry. The loop slices its block at whatever length a
`CE` entry has, and goes on for ever where the areas lead back to
themselves; the building counts the blocks of the directory in 32 bits,
and takes a `CL` entry to be that of a plain file. Everything else is a
value or an error, and `concluded_cases` says which.

A `CE` entry's offset is not looked at, and neither is the count that
the source reports for the block. So an area that is not inside of its
block is no error by itself.
-/
import Cdfs.Proofs.Continuation
import Cdfs.Proofs.Layout
import Cdfs.Proofs.SuspTotality

namespace Cdfs

open Rust Parse Nom

variable {σ : Type} {b : Build} {rd : ISO9660Reader σ} {src : Source}
  {image : List UInt8}

-- ========================================================== the metadata

/-- A component that has a text beside its mark for the root, the
directory itself or its parent. -/
def Overmarked (r : SymbolicLinkRecord) : Prop :=
  (contains r.flags SymbolicLinkRecordFlags.ROOT = true
      ∨ contains r.flags SymbolicLinkRecordFlags.CURRENT = true
      ∨ contains r.flags SymbolicLinkRecordFlags.PARENT = true)
    ∧ r.component ≠ ""

/-- Such a component does not get past the assertions. -/
def Asserted (b : Build) (r : SymbolicLinkRecord) : Prop :=
  b.assertions = true ∧ Overmarked r

/-- The `SL` entries that make up the target. -/
def targetLinks (susp : List SystemUseEntry) : List SymbolicLink :=
  takeWhileInclusive SymbolicLink.shouldContinue
    (susp.filterMap fun
      | .symbolicLink sl => some sl
      | _ => none)

/-- No component of the target fails an assertion. -/
def LinksPass (b : Build) (susp : List SystemUseEntry) : Prop :=
  ∀ sl ∈ targetLinks susp, ∀ r ∈ sl.records, ¬ Asserted b r

theorem linksPass_of_off (hoff : b.assertions = false)
    (susp : List SystemUseEntry) : LinksPass b susp := by
  intro sl _ r _ h
  exact Bool.noConfusion (hoff.symm.trans h.1)

theorem componentPath_cases (r : SymbolicLinkRecord) :
    (∃ p, componentPath b r = .ok p) ∧ ¬ Asserted b r
      ∨ componentPath b r = .panic ∧ Asserted b r := by
  have hassert : ∀ {p : String},
      contains r.flags SymbolicLinkRecordFlags.ROOT = true
        ∨ contains r.flags SymbolicLinkRecordFlags.CURRENT = true
        ∨ contains r.flags SymbolicLinkRecordFlags.PARENT = true →
      (∃ q, (do
          Outcome.assert b.assertions (r.component == "")
          .ok p : Outcome ISOError String) = .ok q) ∧ ¬ Asserted b r
        ∨ (do
          Outcome.assert b.assertions (r.component == "")
          .ok p : Outcome ISOError String) = .panic ∧ Asserted b r := by
    intro p hmark
    by_cases hbad : Asserted b r
    · right
      have hne : (r.component == "") = false := beq_false_of_ne hbad.2.2
      rw [hbad.1, hne]
      exact ⟨rfl, hbad⟩
    · left
      have hpass : (b.assertions && !(r.component == "")) = false := by
        by_contra hcond
        rw [Bool.not_eq_false, Bool.and_eq_true, Bool.not_eq_true',
          beq_eq_false_iff_ne] at hcond
        exact hbad ⟨hcond.1, hmark, hcond.2⟩
      unfold Outcome.assert
      rw [hpass]
      exact ⟨⟨p, rfl⟩, hbad⟩
  unfold componentPath
  dsimp only
  split
  · exact hassert (.inl ‹_›)
  · split
    · exact hassert (.inr (.inl ‹_›))
    · split
      · exact hassert (.inr (.inr ‹_›))
      · refine .inl ⟨⟨_, rfl⟩, fun hbad => ?_⟩
        rcases hbad.2.1 with h | h | h
        all_goals contradiction

theorem recordsPath_cases (records : List SymbolicLinkRecord) :
    (∃ p, recordsPath b records = .ok p) ∧ (∀ r ∈ records, ¬ Asserted b r)
      ∨ recordsPath b records = .panic ∧ ∃ r ∈ records, Asserted b r := by
  refine Outcome.foldlM_ok_or_panic (fun acc r hgood => ?_)
    (fun acc r hbad => ?_) records ""
  · rcases componentPath_cases (b := b) r with ⟨⟨p, hp⟩, -⟩ | ⟨-, hbad⟩
    · rw [hp]
      exact ⟨_, rfl⟩
    · exact absurd hbad hgood
  · rcases componentPath_cases (b := b) r with ⟨-, hgood⟩ | ⟨hp, -⟩
    · exact absurd hbad hgood
    · rw [hp]
      rfl

theorem symlinkTarget_cases (susp : List SystemUseEntry) :
    (∃ t, symlinkTarget b susp = .ok t) ∧ LinksPass b susp
      ∨ symlinkTarget b susp = .panic ∧ ¬ LinksPass b susp := by
  have hfold : (∃ t, symlinkTarget b susp = .ok t)
        ∧ (∀ sl ∈ targetLinks susp, ¬ ∃ r ∈ sl.records, Asserted b r)
      ∨ symlinkTarget b susp = .panic
        ∧ ∃ sl ∈ targetLinks susp, ∃ r ∈ sl.records, Asserted b r := by
    refine Outcome.foldlM_ok_or_panic (fun acc sl hgood => ?_)
      (fun acc sl hbad => ?_) (targetLinks susp) none
    · rcases recordsPath_cases (b := b) sl.records with
        ⟨⟨p, hp⟩, -⟩ | ⟨-, hbad⟩
      · rw [hp]
        exact ⟨_, rfl⟩
      · exact absurd hbad hgood
    · rcases recordsPath_cases (b := b) sl.records with ⟨-, hgood⟩ | ⟨hp, -⟩
      · obtain ⟨r, hr, hbad⟩ := hbad
        exact absurd hbad (hgood r hr)
      · rw [hp]
        rfl
  rcases hfold with ⟨hok, hgood⟩ | ⟨hpanic, sl, hsl, r, hr, hbad⟩
  · refine .inl ⟨hok, fun sl hsl r hr hbad => ?_⟩
    exact hgood sl hsl ⟨r, hr, hbad⟩
  · exact .inr ⟨hpanic, fun hpass => hpass sl hsl r hr hbad⟩

/-- The metadata is there, or a component fails an assertion. -/
theorem extraMeta_cases (susp : List SystemUseEntry) :
    (∃ ext, extraMeta b susp = .ok ext ∧ ext.altName = altName susp
        ∧ ext.attributes = attributes susp
        ∧ ext.extensions = extensions susp)
      ∧ LinksPass b susp
      ∨ extraMeta b susp = .panic ∧ ¬ LinksPass b susp := by
  unfold extraMeta
  rcases symlinkTarget_cases (b := b) susp with ⟨⟨t, ht⟩, hpass⟩ | ⟨hp, hfail⟩
  · rw [ht]
    exact .inl ⟨⟨_, rfl, rfl, rfl, rfl⟩, hpass⟩
  · rw [hp]
    exact .inr ⟨rfl, hfail⟩

theorem extraMeta_of_pass {susp : List SystemUseEntry}
    (hpass : LinksPass b susp) :
    ∃ ext, extraMeta b susp = .ok ext ∧ ext.altName = altName susp
      ∧ ext.attributes = attributes susp
      ∧ ext.extensions = extensions susp := by
  rcases extraMeta_cases (b := b) susp with ⟨h, -⟩ | ⟨-, hfail⟩
  · exact h
  · exact absurd hpass hfail

-- ============================================================= the entry

section Entry

variable {header : DirectoryEntryHeader} {identifier : String}
  {susp : List SystemUseEntry}

def IsDirectory (header : DirectoryEntryHeader) : Prop :=
  contains header.fileFlags FileFlags.DIRECTORY = true

/-- Neither a directory by its flags nor a symbolic link by its mode. -/
def PlainFile (header : DirectoryEntryHeader) (susp : List SystemUseEntry) :
    Prop :=
  ¬ IsDirectory header
    ∧ (attributes susp).any (contains ·.mode PosixFileMode.TYPE_SYMLINK) = false

/-- What is behind the last `;` of the name is no version. -/
def NameRefused (header : DirectoryEntryHeader) (identifier : String)
    (susp : List SystemUseEntry) : Prop :=
  ¬ IsDirectory header
    ∧ splitVersion ((altName susp).getD identifier) = .err .parseInt

/-- The number of the directory's blocks is computed without overflow, or
nobody looks at the overflow. -/
def CountFits (b : Build) (dir : ISODirectory) : Prop :=
  b.overflowChecks = true →
    dir.header.extentLength.toNat + BLOCK_SIZE < 2 ^ 32

/-- A `CL` entry, if there is one, is that of a plain file. -/
def LinkFits (header : DirectoryEntryHeader) (susp : List SystemUseEntry) :
    Prop :=
  ∀ cl, childLink susp = some cl → PlainFile header susp

theorem splitVersion_cases (s : String) :
    (∃ r, splitVersion s = .ok r) ∨ splitVersion s = .err .parseInt := by
  unfold splitVersion
  split
  · split
    · exact .inl ⟨_, rfl⟩
    · exact .inr rfl
  · exact .inl ⟨_, rfl⟩

/-- The three kinds of entry, or the one error. -/
theorem new_cases {ext : ExtraMeta} (halt : ext.altName = altName susp)
    (hattr : ext.attributes = attributes susp) :
    (NameRefused header identifier susp
        ∧ DirectoryEntry.new header ext identifier = .err .parseInt)
      ∨ ¬ NameRefused header identifier susp
        ∧ ∃ entry, DirectoryEntry.new header ext identifier = .ok entry
          ∧ ((∃ d, entry = .directory d ∧ d.ext = ext ∧ IsDirectory header)
            ∨ (∃ l, entry = .symlink l ∧ ¬ IsDirectory header
              ∧ ¬ PlainFile header susp)
            ∨ ∃ f, entry = .file f ∧ f.ext = ext
              ∧ PlainFile header susp) := by
  have hname : ext.name identifier = (altName susp).getD identifier := by
    unfold ExtraMeta.name
    rw [halt]
  unfold DirectoryEntry.new NameRefused
  dsimp only
  by_cases hdir : IsDirectory header
  · rw [if_pos (show contains _ _ = true from hdir)]
    exact .inr ⟨fun h => h.1 hdir, _, rfl, .inl ⟨_, rfl, rfl, hdir⟩⟩
  · rw [if_neg (show ¬ contains _ _ = true from hdir), and_iff_right hdir,
      hattr]
    unfold Symlink.new ISOFile.new
    rw [hname]
    rcases splitVersion_cases ((altName susp).getD identifier) with
      ⟨r, hr⟩ | herr
    · rw [hr]
      refine .inr ⟨(fun h => nomatch h), ?_⟩
      split
      · rename_i hlink
        refine ⟨_, rfl, .inr (.inl ⟨_, rfl, hdir, fun h => ?_⟩)⟩
        exact Bool.noConfusion (hlink.symm.trans h.2)
      · rename_i hlink
        refine ⟨_, rfl, .inr (.inr ⟨_, rfl, rfl, hdir, ?_⟩)⟩
        exact Bool.eq_false_iff.mpr hlink
    · rw [herr]
      refine .inl ⟨rfl, ?_⟩
      split
      · rfl
      · rfl

theorem nextOffset_cases (b : Build) (header : DirectoryEntryHeader)
    (dir : ISODirectory) (block : BlockBuffer) (offset : Nat) :
    (∃ next, nextOffset b dir block offset header = .ok next)
        ∧ CountFits b dir
      ∨ nextOffset b dir block offset header = .panic ∧ ¬ CountFits b dir := by
  unfold nextOffset
  rw [blockCount_eq]
  rcases ceilBlocks_ok_or_panic (ε := ISOError) b.overflowChecks
    dir.header.extentLength with ⟨⟨count, hcount⟩, hfits⟩ | ⟨hpanic, hfits⟩
  · rw [hcount]
    exact Or.inl ⟨⟨_, rfl⟩, hfits⟩
  · rw [hpanic]
    exact Or.inr ⟨rfl, hfits⟩

/-- What `read_entry_at` does when it has all system use entries. -/
def concluded (b : Build) (dir : ISODirectory) (block : BlockBuffer)
    (offset : Nat) (header : DirectoryEntryHeader) (identifier : String)
    (susp : List SystemUseEntry) :
    Outcome ISOError (DirectoryEntry × Option Nat) := do
  let entry ← buildEntry b header identifier susp
  let next ← nextOffset b dir block offset header
  .ok (entry, next)

/-- What that comes to, by what the record and the directory are like. -/
inductive Conclusion (b : Build) (dir : ISODirectory)
    (header : DirectoryEntryHeader) (identifier : String)
    (susp : List SystemUseEntry) :
    Outcome ISOError (DirectoryEntry × Option Nat) → Prop
  | asserted : ¬ LinksPass b susp →
      Conclusion b dir header identifier susp .panic
  | refused : LinksPass b susp → NameRefused header identifier susp →
      Conclusion b dir header identifier susp (.err .parseInt)
  | unfit : LinksPass b susp → ¬ NameRefused header identifier susp →
      ¬ (CountFits b dir ∧ LinkFits header susp) →
      Conclusion b dir header identifier susp .panic
  | built {entry : DirectoryEntry} {next : Option Nat} :
      LinksPass b susp → ¬ NameRefused header identifier susp →
      CountFits b dir → LinkFits header susp →
      entry.ext.extensions = extensions susp →
      ((∃ d, entry = .directory d)
        ↔ IsDirectory header ∨ childLink susp ≠ none) →
      Conclusion b dir header identifier susp (.ok (entry, next))

/-- The entry of a record, before the blocks are counted. -/
theorem buildEntry_cases (header : DirectoryEntryHeader)
    (identifier : String) (hpass : LinksPass b susp) :
    (NameRefused header identifier susp
        ∧ buildEntry b header identifier susp = .err .parseInt)
      ∨ ¬ NameRefused header identifier susp
        ∧ ((¬ LinkFits header susp
            ∧ buildEntry b header identifier susp = .panic)
          ∨ LinkFits header susp
            ∧ ∃ entry, buildEntry b header identifier susp = .ok entry
              ∧ ((∃ d, entry = .directory d)
                ↔ IsDirectory header ∨ childLink susp ≠ none)) := by
  obtain ⟨ext, hext, halt, hattr, -⟩ := extraMeta_of_pass hpass
  unfold buildEntry
  rw [hext, Outcome.ok_bind]
  rcases new_cases halt hattr with ⟨href, hnew⟩ | ⟨href, entry, hnew, hkind⟩
  · rw [hnew]
    exact .inl ⟨href, rfl⟩
  · rw [hnew, Outcome.ok_bind]
    refine .inr ⟨href, ?_⟩
    unfold LinkFits
    cases hcl : childLink susp with
    | none =>
        refine .inr ⟨(fun _ h => nomatch h), entry, rfl, ?_⟩
        rw [or_iff_left (fun h => h rfl)]
        rcases hkind with ⟨d, rfl, -, hdir⟩ | ⟨l, rfl, hdir, -⟩ |
          ⟨f, rfl, -, hfile⟩
        · exact iff_of_true ⟨d, rfl⟩ hdir
        · exact iff_of_false (fun ⟨_, h⟩ => nomatch h) hdir
        · exact iff_of_false (fun ⟨_, h⟩ => nomatch h) hfile.1
    | some cl =>
        rcases hkind with ⟨d, rfl, -, hdir⟩ | ⟨l, rfl, -, hfile⟩ |
          ⟨f, rfl, -, hfile⟩
        · exact .inl ⟨fun h => (h cl rfl).1 hdir, rfl⟩
        · exact .inl ⟨fun h => hfile (h cl rfl), rfl⟩
        · refine .inr ⟨fun _ _ => hfile, _, rfl, ?_⟩
          exact iff_of_true ⟨_, rfl⟩ (.inr fun h => nomatch h)

theorem concluded_cases (dir : ISODirectory) (block : BlockBuffer)
    (offset : Nat) :
    Conclusion b dir header identifier susp
      (concluded b dir block offset header identifier susp) := by
  unfold concluded
  by_cases hpass : LinksPass b susp
  · rcases buildEntry_cases header identifier hpass with ⟨href, hbuild⟩ |
      ⟨href, ⟨hfit, hbuild⟩ | ⟨hfit, entry, hbuild, hkind⟩⟩
    · rw [hbuild]
      exact .refused hpass href
    · rw [hbuild]
      exact .unfit hpass href fun h => hfit h.2
    · have hext := buildEntry_ext hbuild
      rw [hbuild, Outcome.ok_bind]
      rcases nextOffset_cases b header dir block offset with
        ⟨⟨next, hnext⟩, hcount⟩ | ⟨hnext, hcount⟩
      · rw [hnext]
        refine .built hpass href hcount hfit ?_ hkind
        obtain ⟨ext, hext', -, -, hsame⟩ := extraMeta_of_pass hpass
        have hsame' := Outcome.ok.inj (hext'.symm.trans hext)
        rw [← hsame', hsame]
      · rw [hnext]
        exact .unfit hpass href fun h => hcount h.1
  · rcases extraMeta_cases (b := b) susp with ⟨-, h⟩ | ⟨hpanic, -⟩
    · exact absurd h hpass
    · unfold buildEntry
      rw [hpanic]
      exact .asserted hpass

end Entry

-- ============================================================= the areas

/-- The loop over the continuation areas comes to this one. -/
def Followed (b : Build) (src : Source) (area : Option (List SystemUseEntry))
    (c : ContinuationArea) : Prop :=
  Worklist.Visits (AreaWork b src)
    (continuations (area.getD [])).getLast?.toList c

/-- The loop panics exactly where it comes to an area that it panics
on. -/
theorem completeSusp_panics_iff (b : Build) (src : Source)
    (area : Option (List SystemUseEntry)) :
    (∃ fuel, completeSusp b src fuel area = .panic)
      ↔ ∃ c, Followed b src area c ∧ areaAt b src c = .panic := by
  have hrun := @Worklist.run_panics_iff _ _ _ (expandArea b src)
    (continuations (area.getD [])).getLast?.toList
  rw [work_expandArea] at hrun
  simp only [completeSusp_eq_trace, Outcome.map_eq_panic]
  refine hrun.trans (exists_congr fun c => and_congr_right fun _ => ?_)
  unfold expandArea
  exact Outcome.map_eq_panic

/-- The loop comes to an end exactly if the record's last `CE` entry
leads to one. -/
theorem completeSusp_finishes_iff (b : Build)
    (hreturns : ∀ lba, src.deliver lba ≠ .running)
    (area : Option (List SystemUseEntry)) :
    (∃ fuel, completeSusp b src fuel area ≠ .running)
      ↔ ∀ c, (continuations (area.getD [])).getLast? = some c →
        Terminating b src c := by
  rw [← trace_finishes_iff hreturns]
  simp only [completeSusp_eq_trace, Worklist.map_ne_running]

/-- If a record's entries can be read, so can each area that the loop comes
to. -/
theorem Collects.reads {area : Option (List SystemUseEntry)}
    {susp : List SystemUseEntry} (h : Collects b src area susp)
    {c : ContinuationArea} (hc : Followed b src area c) :
    ∃ entries, AreaReads b src c entries := by
  obtain ⟨walk, hwalk, -⟩ := h
  obtain ⟨entries, hmem⟩ := hwalk.of_visits areaWork_unique hc
  obtain ⟨-, _, hreads, -⟩ := hwalk.mem hmem
  exact ⟨entries, hreads⟩

/-- And its last `CE` entry leads to an end. -/
theorem Collects.terminating (hreturns : ∀ lba, src.deliver lba ≠ .running)
    {area : Option (List SystemUseEntry)} {susp : List SystemUseEntry}
    (h : Collects b src area susp) {c : ContinuationArea}
    (hc : (continuations (area.getD [])).getLast? = some c) :
    Terminating b src c := by
  obtain ⟨fuel, hrun⟩ := completeSusp_eq_ok_iff.mpr h
  refine (completeSusp_finishes_iff b hreturns area).mp ⟨fuel, ?_⟩ c hc
  rw [hrun]
  exact fun h => nomatch h

/-- What is asked of the outcome behind the loop, where any error will do
and a panic will not: the loop has to come to an end and to panic on no
area, and what comes behind it has to be as asked whenever the loop has
the entries that are read. -/
theorem completeSusp_bind_iff {α : Type} {P : Outcome ISOError α → Prop}
    (hreturns : ∀ lba, src.deliver lba ≠ .running)
    (herr : ∀ e, P (.err e)) (hpanic : ¬ P .panic)
    (hrunning : ¬ P .running) (area : Option (List SystemUseEntry))
    (f : List SystemUseEntry → Outcome ISOError α) :
    (∃ fuel, P (completeSusp b src fuel area >>= f))
      ↔ (∀ c, (continuations (area.getD [])).getLast? = some c →
          Terminating b src c)
        ∧ (∀ c, Followed b src area c → areaAt b src c ≠ .panic)
        ∧ ∀ susp, Collects b src area susp → P (f susp) := by
  rw [← completeSusp_finishes_iff b hreturns area]
  constructor
  · rintro ⟨fuel, hgood⟩
    have hrun : completeSusp b src fuel area ≠ .running := by
      intro h
      rw [h] at hgood
      exact hrunning hgood
    refine ⟨⟨fuel, hrun⟩, fun c hc harea => ?_, fun susp hread => ?_⟩
    · obtain ⟨fuel', h⟩ :=
        (completeSusp_panics_iff b src area).mpr ⟨c, hc, harea⟩
      rw [completeSusp_unique hrun (by rw [h]; exact fun h => nomatch h), h]
        at hgood
      exact hpanic hgood
    · obtain ⟨fuel', hsusp⟩ := completeSusp_eq_ok_iff.mpr hread
      rwa [completeSusp_unique hrun
        (by rw [hsusp]; exact fun h => nomatch h), hsusp] at hgood
  · rintro ⟨⟨fuel, hfuel⟩, hquiet, hall⟩
    refine ⟨fuel, ?_⟩
    cases hsusp : completeSusp b src fuel area with
    | err e => exact herr e
    | panic =>
        obtain ⟨c, hc, harea⟩ :=
          (completeSusp_panics_iff b src area).mp ⟨fuel, hsusp⟩
        exact absurd harea (hquiet c hc)
    | running => exact absurd hsusp hfuel
    | ok susp => exact hall susp (completeSusp_eq_ok_iff.mp ⟨fuel, hsusp⟩)

/-- The reading of an area panics: with the source; on a count that the
assertion does not expect; on a slice that is longer than the block; or
in the decoder of the entries. -/
def AreaPanics (b : Build) (src : Source) (c : ContinuationArea) : Prop :=
  src.deliver c.blockLocation.toNat = .panic
    ∨ ∃ bs, src.deliver c.blockLocation.toNat = .ok bs
      ∧ (b.assertions = true ∧ bs.length ≠ BLOCK_SIZE
          ∧ bs.length ≠ c.length.toNat
        ∨ BLOCK_SIZE < c.length.toNat
        ∨ ∃ t : Trouble, systemUseEntries b (frontBytes bs c) = t.outcome)

theorem areaAt_eq_panic {c : ContinuationArea} :
    areaAt b src c = .panic ↔ AreaPanics b src c := by
  unfold areaAt readContinuation AreaPanics frontBytes
  simp only [Source.reader, Source.fill]
  cases hdel : src.deliver c.blockLocation.toNat with
  | err e => simp [liftIo]
  | panic => simp [liftIo]
  | running => simp [liftIo]
  | ok bs =>
      simp only [liftIo, Outcome.ok_bind, reduceCtorEq, false_or,
        Outcome.ok.injEq, exists_eq_left']
      by_cases hcount : b.assertions = true ∧ bs.length ≠ BLOCK_SIZE
          ∧ bs.length ≠ c.length.toNat
      · refine iff_of_true ?_ (.inl hcount)
        obtain ⟨hon, hsize, hlen⟩ := hcount
        rw [hon, beq_false_of_ne hsize, beq_false_of_ne hlen]
        rfl
      · rw [or_iff_right hcount]
        have hpass : (Outcome.assert b.assertions (bs.length == 2048
            || bs.length == c.length.toNat) : Outcome ISOError Unit)
            = .ok () := by
          rcases Outcome.assert_eq_ok_or_panic (ε := ISOError) b.assertions
            (bs.length == 2048 || bs.length == c.length.toNat) with h | h
          · exact h
          · unfold Outcome.assert at h
            split at h
            · rename_i hcond
              simp only [Bool.and_eq_true, Bool.not_eq_true',
                Bool.or_eq_false_iff, beq_eq_false_iff_ne] at hcond
              exact absurd hcond hcount
            · cases h
        rw [hpass, Outcome.ok_bind]
        by_cases hlen : c.length.toNat ≤ BLOCK_SIZE
        · rw [if_pos hlen, or_iff_right (Nat.not_lt.mpr hlen),
            ← liftNom_eq_panic]
          cases liftNom (systemUseEntries b
              ((BlockBuffer.new.overwrite bs).bytes.take c.length.toNat)) with
          | ok | err | panic | running => simp
        · rw [if_neg hlen]
          exact iff_of_true rfl (.inl (Nat.lt_of_not_le hlen))

/-- The bytes that the loop takes for an area of an image. -/
def areaBytes (image : List UInt8) (c : ContinuationArea) : List UInt8 :=
  frontBytes (imageBlock image c.blockLocation.toNat) c

/-- The area lies in its block, as far as the image has that. -/
def LiesInside (image : List UInt8) (c : ContinuationArea) : Prop :=
  c.offset.toNat + c.length.toNat
    ≤ (imageBlock image c.blockLocation.toNat).length

/-- A `CE` entry of the record names this area, or one of an area that
the loop comes to. -/
def Named (b : Build) (image : List UInt8)
    (area : Option (List SystemUseEntry)) (c : ContinuationArea) : Prop :=
  c ∈ continuations (area.getD []) ∨ Followed b (imageSource image) area c

/-- With a decoder that does not panic, an area of an image does exactly
when it is longer than a block, or the decoder wants more bytes. -/
theorem areaAt_panics_iff (hoff : b.assertions = false)
    {c : ContinuationArea}
    (hquiet : systemUseEntries b (areaBytes image c) ≠ .panic) :
    areaAt b (imageSource image) c = .panic
      ↔ BLOCK_SIZE < c.length.toNat
        ∨ systemUseEntries b (areaBytes image c) = .err .incomplete := by
  rw [areaAt_eq_panic]
  constructor
  · rintro (h | ⟨bs, h, hcases⟩)
    · cases h
    · injection h with h
      subst h
      rcases hcases with ⟨hon, -⟩ | hlen | ⟨t, ht⟩
      · exact Bool.noConfusion (hoff.symm.trans hon)
      · exact .inl hlen
      · cases t with
        | incomplete => exact .inr ht
        | panic => exact absurd ht hquiet
  · rintro (hlen | hcut)
    · exact .inr ⟨_, rfl, .inr (.inl hlen)⟩
    · exact .inr ⟨_, rfl, .inr (.inr ⟨.incomplete, hcut⟩)⟩

/-- The source answers as the image does, for every block whose byte
offset is a 64-bit number. -/
def Source.Holds (src : Source) (image : List UInt8) : Prop :=
  ∀ lba, lba < 2 ^ 53 → src.deliver lba = .ok (imageBlock image lba)

theorem cursorSource_holds (b : Build) (image : List UInt8) :
    (cursorSource b image).Holds image := by
  intro lba hlba
  have hoff : lba * BLOCK_SIZE < 2 ^ 64 := by
    show lba * 2048 < 2 ^ 64
    omega
  unfold cursorSource imageBlock
  dsimp only
  rw [if_pos (Or.inl hoff), Nat.mod_eq_of_lt hoff, Nat.mul_comm]

/-- A `CE` entry's block number has 32 bits. -/
theorem areaAt_holds (hsrc : src.Holds image) (c : ContinuationArea) :
    areaAt b src c = areaAt b (imageSource image) c := by
  have hlba := c.blockLocation.toNat_lt
  have hdel : src.fill BlockBuffer.new c.blockLocation.toNat
      = (imageSource image).fill BlockBuffer.new c.blockLocation.toNat := by
    unfold Source.fill
    rw [hsrc _ (by omega)]
    rfl
  unfold areaAt readContinuation
  simp only [Source.reader, hdel]

theorem completeSusp_holds (hsrc : src.Holds image) (fuel : Nat)
    (area : Option (List SystemUseEntry)) :
    completeSusp b src fuel area
      = completeSusp b (imageSource image) fuel area := by
  have hexpand : expandArea b src = expandArea b (imageSource image) := by
    funext c
    unfold expandArea
    rw [areaAt_holds hsrc]
  rw [completeSusp_eq_trace, completeSusp_eq_trace, continuationTrace,
    continuationTrace, hexpand]

/-- A record of the image is in a block with a 64-bit byte offset. -/
theorem parseAt_holds (hsrc : src.Holds image)
    (hsize : image.length ≤ 2 ^ 64) {dir : ISODirectory} {offset : Nat}
    {r : BlockBuffer × DirectoryEntryHeader × String
      × Option (List SystemUseEntry)}
    (hparse : parseAt b (imageSource image) dir offset = .ok r) :
    parseAt b src dir offset = .ok r := by
  obtain ⟨block, header, identifier, area⟩ := r
  obtain ⟨hblock, -⟩ := parseAt_eq_ok.mp hparse
  have hlba : dir.header.extentLoc.toNat + offset / BLOCK_SIZE < 2 ^ 53 := by
    unfold blockAt imageSource at hblock
    dsimp only at hblock
    split at hblock
    · rename_i hfull
      rw [length_imageBlock] at hfull
      unfold BLOCK_SIZE at hfull ⊢
      omega
    · cases hblock
  have hsame : blockAt src dir (offset / BLOCK_SIZE)
      = blockAt (imageSource image) dir (offset / BLOCK_SIZE) := by
    unfold blockAt
    rw [hsrc _ hlba]
    rfl
  unfold parseAt
  rw [hsame]
  exact hparse

/-- The entry of a record: its areas, and what is made of them. -/
theorem entryAt_of_parse {dir : ISODirectory} {offset : Nat}
    {block : BlockBuffer} {header : DirectoryEntryHeader}
    {identifier : String} {area : Option (List SystemUseEntry)}
    (hparse : parseAt b src dir offset
      = .ok (block, header, identifier, area)) (fuel : Nat) :
    entryAt b src fuel dir offset
      = (completeSusp b src fuel area >>=
          concluded b dir block offset header identifier) := by
  rw [entryAt_eq, hparse]
  rfl

theorem entryAt_holds (hsrc : src.Holds image)
    (hsize : image.length ≤ 2 ^ 64) {dir : ISODirectory} {offset : Nat}
    {block : BlockBuffer} {header : DirectoryEntryHeader}
    {identifier : String} {area : Option (List SystemUseEntry)}
    (hparse : parseAt b (imageSource image) dir offset
      = .ok (block, header, identifier, area)) (fuel : Nat) :
    entryAt b src fuel dir offset
      = (completeSusp b (imageSource image) fuel area >>=
          concluded b dir block offset header identifier) := by
  rw [entryAt_of_parse (parseAt_holds hsrc hsize hparse),
    completeSusp_holds hsrc]

-- ============================================================ coming back

/-- The reading of a record panics: with the source, or in the decoder of
the record, of which `Incomplete` is made a panic. -/
def RecordPanics (b : Build) (src : Source) (dir : ISODirectory)
    (offset : Nat) : Prop :=
  src.deliver (dir.header.extentLoc.toNat + offset / BLOCK_SIZE) = .panic
    ∨ ∃ bs, src.deliver (dir.header.extentLoc.toNat + offset / BLOCK_SIZE)
        = .ok bs ∧ bs.length = BLOCK_SIZE
      ∧ ∃ t : Trouble, directoryEntry b dir.header.characterEncoding
        (bs.drop (offset % BLOCK_SIZE)) = t.outcome

theorem parseAt_eq_panic {dir : ISODirectory} {offset : Nat} :
    parseAt b src dir offset = .panic ↔ RecordPanics b src dir offset := by
  unfold parseAt blockAt RecordPanics
  cases hdel : src.deliver
      (dir.header.extentLoc.toNat + offset / BLOCK_SIZE) with
  | err e => simp
  | panic => simp
  | running => simp
  | ok bs =>
      simp only [reduceCtorEq, false_or, Outcome.ok.injEq, exists_eq_left']
      by_cases hfull : bs.length = BLOCK_SIZE
      · rw [dif_pos hfull, Outcome.ok_bind, and_iff_right hfull,
          ← liftNom_eq_panic]
        unfold DirectoryEntryHeader.parse
        cases liftNom (directoryEntry b dir.header.characterEncoding
            (bs.drop (offset % BLOCK_SIZE))) with
        | ok | err | panic | running => simp
      · rw [dif_neg hfull]
        simp [hfull]

/-- What a record that decodes has to be like for a result: its areas
come to an end, none that is read panics, and if all of them decode, no
component of a link fails an assertion, and the name is refused or the
entry can be built. -/
structure Concludes (b : Build) (src : Source) (dir : ISODirectory)
    (header : DirectoryEntryHeader) (identifier : String)
    (area : Option (List SystemUseEntry)) : Prop where
  terminating : ∀ c, (continuations (area.getD [])).getLast? = some c →
    Terminating b src c
  quiet : ∀ c, Followed b src area c → ¬ AreaPanics b src c
  entry : ∀ susp, Collects b src area susp →
    LinksPass b susp ∧ (NameRefused header identifier susp
      ∨ CountFits b dir ∧ LinkFits header susp)

/-- A record whose entries can be read, for an entry that can be built. -/
theorem Collects.concludes (hreturns : ∀ lba, src.deliver lba ≠ .running)
    {dir : ISODirectory} {header : DirectoryEntryHeader}
    {identifier : String} {area : Option (List SystemUseEntry)}
    {susp : List SystemUseEntry} (h : Collects b src area susp)
    (hentry : LinksPass b susp ∧ (NameRefused header identifier susp
      ∨ CountFits b dir ∧ LinkFits header susp)) :
    Concludes b src dir header identifier area where
  terminating _ hc := h.terminating hreturns hc
  quiet c hc hpanic := by
    obtain ⟨entries, hreads⟩ := h.reads hc
    have hok := areaAt_eq_ok.mpr hreads
    rw [areaAt_eq_panic.mpr hpanic] at hok
    cases hok
  entry susp' h' := h.unique h' ▸ hentry

/-- What the record at an offset has to be like. One that does not decode
is an error, unless that panics. -/
structure Returning (b : Build) (src : Source) (dir : ISODirectory)
    (offset : Nat) : Prop where
  record : ¬ RecordPanics b src dir offset
  decoded : ∀ block header identifier area,
    parseAt b src dir offset = .ok (block, header, identifier, area) →
    Concludes b src dir header identifier area

/-- Behind the loop there is a result exactly for such names, counts and
links. -/
theorem concluded_returned_iff (dir : ISODirectory) (block : BlockBuffer)
    (offset : Nat) (header : DirectoryEntryHeader) (identifier : String)
    (susp : List SystemUseEntry) :
    (concluded b dir block offset header identifier susp).Returned
      ↔ LinksPass b susp ∧ (NameRefused header identifier susp
        ∨ CountFits b dir ∧ LinkFits header susp) := by
  have hcon : Conclusion b dir header identifier susp
      (concluded b dir block offset header identifier susp) :=
    concluded_cases dir block offset
  generalize concluded b dir block offset header identifier susp = r at hcon
  cases hcon with
  | asserted hfail => exact iff_of_false id fun h => hfail h.1
  | refused hpass href => exact iff_of_true trivial ⟨hpass, .inl href⟩
  | unfit _ href hunfit =>
      exact iff_of_false id fun h => h.2.elim href hunfit
  | built hpass _ hcount hfit =>
      exact iff_of_true trivial ⟨hpass, .inr ⟨hcount, hfit⟩⟩

theorem entryAt_returned_iff (hreturns : ∀ lba, src.deliver lba ≠ .running)
    (dir : ISODirectory) (offset : Nat) :
    (∃ fuel, (entryAt b src fuel dir offset).Returned)
      ↔ Returning b src dir offset := by
  cases hparse : parseAt b src dir offset with
  | running => exact absurd hparse (parseAt_ne_running hreturns dir offset)
  | panic =>
      refine iff_of_false ?_ fun h => h.record (parseAt_eq_panic.mp hparse)
      rintro ⟨fuel, h⟩
      rw [entryAt_eq, hparse] at h
      exact h
  | err e =>
      refine iff_of_true ⟨0, ?_⟩ ⟨fun h => ?_, fun _ _ _ _ h => ?_⟩
      · rw [entryAt_eq, hparse]
        trivial
      · rw [parseAt_eq_panic.mpr h] at hparse
        cases hparse
      · rw [hparse] at h
        cases h
  | ok r =>
      obtain ⟨block, header, identifier, area⟩ := r
      have hloop := completeSusp_bind_iff (b := b) (P := Outcome.Returned)
        hreturns
        (fun _ => trivial) id id area
        (concluded b dir block offset header identifier)
      simp only [entryAt_of_parse hparse]
      rw [hloop]
      simp only [concluded_returned_iff]
      constructor
      · rintro ⟨hterm, hquiet, hentry⟩
        refine ⟨fun h => ?_, fun block' header' identifier' area' h => ?_⟩
        · rw [parseAt_eq_panic.mpr h] at hparse
          cases hparse
        · rw [hparse] at h
          cases h
          exact ⟨hterm, fun c hc hpanic =>
            hquiet c hc (areaAt_eq_panic.mpr hpanic), hentry⟩
      · rintro ⟨-, hdecoded⟩
        obtain ⟨hterm, hquiet, hentry⟩ := hdecoded _ _ _ _ hparse
        exact ⟨hterm, fun c hc hpanic =>
          hquiet c hc (areaAt_eq_panic.mp hpanic), hentry⟩

/-- A call of `read_entry_at` comes to an end exactly when the record's
last `CE` entry, if it has one, is terminating; and it returns exactly
when nothing on the way panics either. -/
theorem readEntryAt_returned_iff (hserve : rd.Serves src)
    (hreturns : ∀ lba, src.deliver lba ≠ .running) {dir : ISODirectory}
    {cache : BlockCache} (hco : Coherent src dir cache) (offset : Nat)
    (s : σ) :
    ((∃ fuel, (readEntryAt b rd fuel dir cache offset s).1 ≠ .running)
        ↔ ∀ block header identifier area c,
            parseAt b src dir offset = .ok (block, header, identifier, area) →
            (continuations (area.getD [])).getLast? = some c →
            Terminating b src c)
      ∧ ((∃ fuel, (readEntryAt b rd fuel dir cache offset s).1.Returned)
        ↔ Returning b src dir offset) := by
  simp only [(readEntryAt_serves hserve _ hco offset s).1]
  exact ⟨entryAt_finishes_iff hreturns dir offset,
    entryAt_returned_iff hreturns dir offset⟩

-- ============================================================== the call

/-- The call comes back, and with an error where the record's entries
name an area that is not inside of a block of the image. -/
def ComesBack (b : Build) (rd : ISO9660Reader σ) (image : List UInt8)
    (dir : ISODirectory) (cache : BlockCache) (offset : Nat) (s : σ)
    (area : Option (List SystemUseEntry)) : Prop :=
  ∃ fuel, (readEntryAt b rd fuel dir cache offset s).1.Returned
    ∧ ((∃ c, Named b image area c ∧ ¬ LiesInside image c) →
      ∃ e, (readEntryAt b rd fuel dir cache offset s).1 = .err e)

/-- What a record has to be like for that: its areas come to an end, none
that is read is longer than a block or ends in the middle of an entry
that wants more bytes, and if all of them decode, the name is refused, or
the entry can be built and the areas are where they should be. -/
structure Sound (b : Build) (image : List UInt8) (dir : ISODirectory)
    (header : DirectoryEntryHeader) (identifier : String)
    (area : Option (List SystemUseEntry)) : Prop where
  terminating : ∀ c, (continuations (area.getD [])).getLast? = some c →
    Terminating b (imageSource image) c
  short : ∀ c, Followed b (imageSource image) area c →
    c.length.toNat ≤ BLOCK_SIZE
  complete : ∀ c, Followed b (imageSource image) area c →
    systemUseEntries b (areaBytes image c) ≠ .err .incomplete
  entry : ∀ susp, Collects b (imageSource image) area susp →
    NameRefused header identifier susp
      ∨ CountFits b dir ∧ LinkFits header susp
        ∧ ∀ c, Named b image area c → LiesInside image c

section Call

variable {dir : ISODirectory} {cache : BlockCache} {offset : Nat}
  {block : BlockBuffer} {header : DirectoryEntryHeader}
  {identifier : String} {area : Option (List SystemUseEntry)}

/-- A call for a record of the image. -/
theorem readEntryAt_holds (hserve : rd.Serves src) (hsrc : src.Holds image)
    (hsize : image.length ≤ 2 ^ 64) (hco : Coherent src dir cache) (s : σ)
    (hparse : parseAt b (imageSource image) dir offset
      = .ok (block, header, identifier, area)) (fuel : Nat) :
    (readEntryAt b rd fuel dir cache offset s).1
      = (completeSusp b (imageSource image) fuel area >>=
          concluded b dir block offset header identifier) :=
  (readEntryAt_serves hserve fuel hco offset s).1.trans
    (entryAt_holds hsrc hsize hparse fuel)

/-- It does not come back where the loop panics. -/
theorem not_comesBack_of_panic (hserve : rd.Serves src)
    (hsrc : src.Holds image) (hsize : image.length ≤ 2 ^ 64)
    (hco : Coherent src dir cache) (s : σ)
    (hparse : parseAt b (imageSource image) dir offset
      = .ok (block, header, identifier, area)) {fuel : Nat}
    (hpanic : completeSusp b (imageSource image) fuel area = .panic) :
    ¬ ComesBack b rd image dir cache offset s area := by
  rintro ⟨fuel', hret, -⟩
  rw [readEntryAt_holds hserve hsrc hsize hco s hparse] at hret
  have hrun : completeSusp b (imageSource image) fuel' area ≠ .running := by
    intro h
    rw [h] at hret
    exact hret
  rw [completeSusp_unique hrun (by rw [hpanic]; exact fun h => nomatch h),
    hpanic] at hret
  exact hret

/-- Behind the loop it comes back as it should exactly for such names,
counts, links and areas. -/
theorem concluded_due_iff (hoff : b.assertions = false)
    (susp : List SystemUseEntry) :
    (concluded b dir block offset header identifier susp).Returned
        ∧ ((∃ c, Named b image area c ∧ ¬ LiesInside image c) →
          ∃ e, concluded b dir block offset header identifier susp = .err e)
      ↔ NameRefused header identifier susp
        ∨ CountFits b dir ∧ LinkFits header susp
          ∧ ∀ c, Named b image area c → LiesInside image c := by
  have hcon : Conclusion b dir header identifier susp
      (concluded b dir block offset header identifier susp) :=
    concluded_cases dir block offset
  generalize concluded b dir block offset header identifier susp = r at hcon
  cases hcon with
  | asserted hfail => exact absurd (linksPass_of_off hoff susp) hfail
  | refused _ href =>
      exact iff_of_true ⟨trivial, fun _ => ⟨_, rfl⟩⟩ (.inl href)
  | unfit _ href hunfit =>
      refine iff_of_false (fun h => h.1) ?_
      rintro (href' | ⟨hcount, hfit, -⟩)
      · exact href href'
      · exact hunfit ⟨hcount, hfit⟩
  | built _ href hcount hfit =>
      constructor
      · rintro ⟨-, houtside⟩
        refine .inr ⟨hcount, hfit, fun c hc => ?_⟩
        by_contra hout
        obtain ⟨e, he⟩ := houtside ⟨c, hc, hout⟩
        cases he
      · rintro (href' | ⟨-, -, hinside⟩)
        · exact absurd href' href
        · refine ⟨trivial, fun ⟨c, hc, hout⟩ => ?_⟩
          exact absurd (hinside c hc) hout

/-- A call of `read_entry_at` for a record that decodes comes back as it
should exactly when the record is sound. -/
theorem comesBack_iff_sound (hoff : b.assertions = false)
    (hserve : rd.Serves src) (hsrc : src.Holds image)
    (hsize : image.length ≤ 2 ^ 64) (hco : Coherent src dir cache) (s : σ)
    (hparse : parseAt b (imageSource image) dir offset
      = .ok (block, header, identifier, area))
    (htotal : ∀ c, Followed b (imageSource image) area c →
      systemUseEntries b (areaBytes image c) ≠ .panic) :
    ComesBack b rd image dir cache offset s area
      ↔ Sound b image dir header identifier area := by
  have hreturns : ∀ lba, (imageSource image).deliver lba ≠ .running :=
    fun _ h => nomatch h
  have hquiet : ∀ c, Followed b (imageSource image) area c →
      (areaAt b (imageSource image) c ≠ .panic
        ↔ c.length.toNat ≤ BLOCK_SIZE
          ∧ systemUseEntries b (areaBytes image c) ≠ .err .incomplete) := by
    intro c hc
    rw [ne_eq, areaAt_panics_iff hoff (htotal c hc), not_or, Nat.not_lt]
  have hloop := completeSusp_bind_iff (b := b)
    (P := fun r => r.Returned
      ∧ ((∃ c, Named b image area c ∧ ¬ LiesInside image c) →
        ∃ e, r = .err e))
    hreturns (fun e => ⟨trivial, fun _ => ⟨e, rfl⟩⟩) (fun h => h.1)
    (fun h => h.1) area (concluded b dir block offset header identifier)
  unfold ComesBack
  simp only [readEntryAt_holds hserve hsrc hsize hco s hparse]
  rw [hloop]
  constructor
  · rintro ⟨hterm, hareas, hall⟩
    exact ⟨hterm, fun c hc => ((hquiet c hc).mp (hareas c hc)).1,
      fun c hc => ((hquiet c hc).mp (hareas c hc)).2,
      fun susp h => (concluded_due_iff hoff susp).mp (hall susp h)⟩
  · rintro ⟨hterm, hlen, hcomplete, hall⟩
    exact ⟨hterm, fun c hc => (hquiet c hc).mpr ⟨hlen c hc, hcomplete c hc⟩,
      fun susp h => (concluded_due_iff hoff susp).mpr (hall susp h)⟩

end Call

-- ========================================================= an area too long

/-- A directory of one block at the start of its image. -/
def blockZero : ISODirectory :=
  ISODirectory.new { dotHeader with extentLoc := 0 } plainExt "\x00"

/-- A block with the record of a file `L`, whose `CE` entry names 4096
bytes from the start of the same block. -/
def longAreaBlock : BlockBuffer :=
  BlockBuffer.new.overwrite
    [62, 0, 21, 0, 0, 0, 0, 0, 0, 21, 0, 0, 0, 0, 0, 0, 0, 0,
      100, 1, 1, 0, 0, 0, 0, 0, 0, 0, 1, 0, 0, 1, 1, 0x4C,
      0x43, 0x45, 28, 1, 0, 0, 0, 0, 0, 0, 0, 0,
      0, 0, 0, 0, 0, 0, 0, 0, 0, 16, 0, 0, 0, 0, 16, 0]

/-- That is its area. -/
def longArea : Option (List SystemUseEntry) :=
  some [.continuationArea ⟨0, 0, 4096⟩]

/-- The header of `L`. -/
def longAreaHeader : DirectoryEntryHeader :=
  { dotHeader with
    length := 62, extentLoc := 21, extentLength := 0, fileFlags := 0 }

theorem longArea_parse :
    parseAt quietBuild (imageSource longAreaBlock.bytes) blockZero 0
      = .ok (longAreaBlock, longAreaHeader, "L", longArea) := by
  decide +kernel

/-- The slice of the block panics. -/
theorem longArea_panics :
    parseAt quietBuild (imageSource longAreaBlock.bytes) blockZero 0
        = .ok (longAreaBlock, longAreaHeader, "L", longArea)
      ∧ ¬ ComesBack quietBuild
        (cursorSource quietBuild longAreaBlock.bytes).reader
        longAreaBlock.bytes blockZero BlockCache.new 0 () longArea := by
  refine ⟨longArea_parse, ?_⟩
  have hpanic : completeSusp quietBuild (imageSource longAreaBlock.bytes) 1
      longArea = .panic := by
    decide +kernel
  apply not_comesBack_of_panic (Source.reader_serves _)
    (cursorSource_holds quietBuild longAreaBlock.bytes) ?_
    (coherent_new _ blockZero) () longArea_parse hpanic
  rw [longAreaBlock.size]
  decide

-- ========================================================== three parts

/-- The header of `L`. -/
def partsHeader : DirectoryEntryHeader :=
  { dotHeader with
    length := 68, extentLoc := 21, extentLength := 0, fileFlags := 0 }

/-- The entries that make up the name. -/
def partsNames : List SystemUseEntry :=
  [.alternateName ⟨"a", 1⟩, .alternateName ⟨"b", 1⟩, .alternateName ⟨"c", 0⟩]

theorem parts_collects (b : Build) (hbuild : b = debugBuild ∨ b = quietBuild) :
    parseAt b (imageSource partsImage) blockZero 0
        = .ok (firstPartBlock, partsHeader, "L", partsArea)
      ∧ Collects b (imageSource partsImage) partsArea partsNames := by
  rw [← completeSusp_eq_ok_iff]
  rcases hbuild with rfl | rfl
  · exact ⟨by decide +kernel, 2, by decide +kernel⟩
  · exact ⟨by decide +kernel, 2, by decide +kernel⟩

/-- With a name in three parts the call returns. -/
theorem parts_returned :
    ∃ fuel, (readEntryAt debugBuild (imageSource partsImage).reader fuel
      blockZero BlockCache.new 0 ()).1.Returned := by
  have hreturns : ∀ lba, (imageSource partsImage).deliver lba ≠ .running :=
    fun _ h => nomatch h
  obtain ⟨hparse, hcollects⟩ := parts_collects debugBuild (.inl rfl)
  refine (readEntryAt_returned_iff (imageSource partsImage).reader_serves
    hreturns (coherent_new _ blockZero) 0 ()).2.mpr ⟨fun h => ?_, ?_⟩
  · rw [parseAt_eq_panic.mpr h] at hparse
    cases hparse
  · intro block header identifier area h
    rw [hparse] at h
    cases h
    exact hcollects.concludes hreturns ⟨(fun _ h => nomatch h),
      .inr ⟨(fun _ => by decide), fun _ h => nomatch h⟩⟩

/-- And it comes back as it should: the areas lie in their blocks. -/
theorem parts_comesBack :
    ComesBack quietBuild (cursorSource quietBuild partsImage).reader
      partsImage blockZero BlockCache.new 0 () partsArea := by
  have hreturns : ∀ lba, (imageSource partsImage).deliver lba ≠ .running :=
    fun _ h => nomatch h
  obtain ⟨hparse, hcollects⟩ := parts_collects quietBuild (.inr rfl)
  have hsize : partsImage.length ≤ 2 ^ 64 := by
    simp only [partsImage, List.length_append, firstPartBlock.size,
      middlePartBlock.size, lastPartBlock.size]
    decide
  have hfront : ∀ c, Followed quietBuild (imageSource partsImage) partsArea c →
      c.length.toNat ≤ BLOCK_SIZE ∧ ∃ r,
        systemUseEntries quietBuild (areaBytes partsImage c) = .ok r := by
    intro c hc
    obtain ⟨entries, bs, rest, hdel, -, hlen, hfront⟩ := hcollects.reads hc
    injection hdel with hdel
    exact ⟨hlen, _, hdel ▸ hfront⟩
  have hwalk : Worklist.Walk (AreaWork quietBuild (imageSource partsImage))
      [⟨1, 0, 34⟩] partsChain := by
    rw [← work_expandArea]
    exact Worklist.run_eq_ok_iff.mp ⟨2, by decide +kernel⟩
  have hinside : ∀ c, Named quietBuild partsImage partsArea c →
      LiesInside partsImage c := by
    obtain ⟨hmiddle, hlast⟩ := imageBlock_parts
    have hlies : LiesInside partsImage ⟨1, 0, 34⟩
        ∧ LiesInside partsImage ⟨2, 0, 6⟩ := by
      unfold LiesInside
      constructor
      · rw [show (UInt32.toNat 1) = 1 from rfl, hmiddle, middlePartBlock.size]
        decide
      · rw [show (UInt32.toNat 2) = 2 from rfl, hlast, lastPartBlock.size]
        decide
    rintro c (hc | hc)
    · obtain rfl := List.mem_singleton.mp hc
      exact hlies.1
    · obtain ⟨entries, hmem⟩ := hwalk.of_visits areaWork_unique hc
      unfold partsChain at hmem
      rcases List.mem_cons.mp hmem with h | h
      · cases h
        exact hlies.1
      · cases List.mem_singleton.mp h
        exact hlies.2
  refine (comesBack_iff_sound rfl (cursorSource quietBuild
    partsImage).reader_serves (cursorSource_holds quietBuild partsImage) hsize
    (coherent_new _ blockZero) () hparse fun c hc => ?_).mpr
    { terminating := fun c hc => hcollects.terminating hreturns hc
      short := fun c hc => (hfront c hc).1
      complete := fun c hc => ?_
      entry := fun susp h => ?_ }
  · obtain ⟨-, r, hr⟩ := hfront c hc
    rw [hr]
    exact fun h => nomatch h
  · obtain ⟨-, r, hr⟩ := hfront c hc
    rw [hr]
    exact fun h => nomatch h
  · obtain rfl := hcollects.unique h
    exact .inr ⟨(fun _ => by decide), (fun _ h => nomatch h), hinside⟩

end Cdfs
