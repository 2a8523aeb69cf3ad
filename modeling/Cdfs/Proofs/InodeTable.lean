/-
What is left in the inode table. A lookup enters a number and gives the
kernel a reference to it, `forget` takes the number out again. A listing
enters numbers, and the kernel gets no references by it, so that there is
nothing it could give back.

A number that has references left may be in the table, and so may the
root's (`Owed`). Nothing else is in it throughout a run, exactly if the
listings of the run show nothing but such numbers (`noLeak_iff`).
-/
import Cdfs.Proofs.InodeBinding
import Cdfs.Proofs.ShownEntries

namespace Cdfs

open Rust Parse Numbering Service ISOFuse

variable {σ : Type} {host : Host σ} {src : Source} {fs₀ fs : ISOFuse σ}
  {log : Log}

-- ================================================== what may be there

/-- The root's number, or one that the kernel has references to. -/
def Owed (log : Log) (n : ℕ) : Prop :=
  n = FUSE_ROOT_ID ∨ forgotten n log < lookups n log

instance (log : Log) (n : ℕ) : Decidable (Owed log n) :=
  inferInstanceAs (Decidable (_ ∨ _))

/-- Every number in the table is the root's or has references left, so
that only the root is left once all are given back. -/
structure NoLeak (log : Log) (fs : ISOFuse σ) : Prop where
  owed : ∀ n, fs.inodes n ≠ none → Owed log n
  root_only : (∀ n, lookups n log ≤ forgotten n log) →
    ∀ n, fs.inodes n ≠ none → n = FUSE_ROOT_ID

theorem noLeak_of_owed (h : ∀ n, fs.inodes n ≠ none → Owed log n) :
    NoLeak log fs where
  owed := h
  root_only hall n hn := by
    rcases h n hn with hroot | hless
    · exact hroot
    · exact absurd hless (Nat.not_lt.mpr (hall n))

/-- A listing shows, next to the directory and its parent, only numbers
that may be in the table already. -/
def ListsOwed (host : Host σ) (src : Source) (early : Log)
    (fs : ISOFuse σ) : Request → Prop
  | .readdir fh offset accepts =>
      ∀ p ∈ shown host src fs fh offset accepts, NotDots p.1 →
        Owed early p.2.ino
  | _ => True

-- ========================================================= the references

/-- A request other than `forget` takes no reference away. -/
theorem Owed.cons {n : ℕ} (h : Owed log n) {q : Request}
    (hq : ∀ ino nlookup, q ≠ .forget ino nlookup) (a : Outcome Errno Reply) :
    Owed ((q, a) :: log) n := by
  rcases h with hroot | hless
  · exact Or.inl hroot
  · refine Or.inr ?_
    rw [lookups_cons, forgotten_cons, givenBack_eq_zero hq]
    omega

/-- A listing gives none. -/
theorem owed_readdir_iff {n fh : ℕ} {offset : Int64} {accepts : Capacity}
    {a : Outcome Errno Reply} :
    Owed ((.readdir fh offset accepts, a) :: log) n ↔ Owed log n := by
  have hgiven : given (.readdir fh offset accepts, a) = none := rfl
  unfold Owed
  rw [lookups_cons, forgotten_cons, hgiven,
    givenBack_eq_zero (q := .readdir fh offset accepts)
      fun _ _ h => nomatch h]
  simp

/-- With restraint no more is given back than there was. -/
theorem forgotten_le_lookups (n : ℕ) :
    ∀ log, Restrained log → forgotten n log ≤ lookups n log := by
  intro log
  induction log with
  | nil => exact fun _ => Nat.le_refl 0
  | cons e log ih =>
      rintro ⟨hlast, hall⟩
      have hle := ih hall
      obtain ⟨q, a⟩ := e
      rw [lookups_cons, forgotten_cons]
      rcases forget_or q with ⟨m, k, rfl⟩ | hq
      · change forgotten m log + k ≤ lookups m log at hlast
        show (if m = n then k else 0) + _ ≤ _
        by_cases hm : m = n
        · rw [if_pos hm]
          rw [hm] at hlast
          omega
        · rw [if_neg hm]
          omega
      · rw [givenBack_eq_zero hq]
        omega

-- ================================================================== runs

/-- What a request that is not `forget` adds to the table. -/
theorem serve_adds (hserve : host.reader.Serves src) (fs : ISOFuse σ)
    (q : Request) {n : ℕ} (hn : (fs.serve host q).2.inodes n ≠ none) :
    fs.inodes n ≠ none
      ∨ given (q, (fs.serve host q).1) = some n
      ∨ ∃ fh offset accepts, q = .readdir fh offset accepts
        ∧ ∃ p ∈ shown host src fs fh offset accepts,
          NotDots p.1 ∧ p.2.ino = n := by
  cases q with
  | lookup parent name =>
      change (lookup host fs parent name).2.inodes n ≠ none at hn
      show _ ∨ given (_, (lookup host fs parent name).1) = _ ∨ _
      rcases lookup_cases host fs parent name with ⟨⟨file, h⟩, -⟩ |
        ⟨dir, text, entry, attr, file, -, -, -, -, -, -, h⟩
      · rw [h] at hn
        exact Or.inl hn
      · by_cases heq : n = attr.ino
        · rw [h, heq]
          exact Or.inr (Or.inl rfl)
        · left
          rw [h] at hn
          change (ISOFuse.table _).bound n ≠ none at hn
          rw [table_advance, table_insert, Table.bound_advance,
            Table.bound_insert_of_ne heq] at hn
          exact hn
  | readdir fh offset accepts =>
      obtain ⟨entry, hentry⟩ := Option.ne_none_iff_exists'.mp hn
      rcases (readdir_shown hserve fs fh offset accepts).entered n entry
        hentry with hold | ⟨d, hmem, hdots, hino⟩
      · exact Or.inl (by rw [hold]; exact Option.some_ne_none entry)
      · exact Or.inr (Or.inr ⟨fh, offset, accepts, rfl, _, hmem, hdots,
          hino⟩)
  | forget ino nlookup =>
      obtain ⟨entry, hentry⟩ := Option.ne_none_iff_exists'.mp hn
      change (fs.table.drop ino).bound n = some entry at hentry
      have hold : fs.inodes n = some entry :=
        (Table.bound_drop_eq_some.mp hentry).2
      exact Or.inl (by rw [hold]; exact Option.some_ne_none entry)
  | getattr | readlink | openFile | read | release | opendir | getxattr
  | releasedir =>
      change (ISOFuse.table _).bound n ≠ none at hn
      rw [serve_table_eq host fs rfl] at hn
      exact Or.inl hn

/-- If the listings show only what is owed, nothing else is in the
table. -/
theorem owed_of_listsOwed (hserve : host.reader.Serves src) {s : σ}
    (hnew : ISOFuse.new host s = .ok fs₀) (hrun : AnyRun host fs₀ log fs) :
    Restrained log →
      EachStep (serve host) (fun _ _ => True) fs₀ (ListsOwed host src) log →
      ∀ n, fs.inodes n ≠ none → Owed log n := by
  induction hrun with
  | start =>
      intro _ _ n hn
      obtain ⟨iso, s', root, s'', file, auto, -, -, rfl⟩ := new_eq_ok hnew
      obtain ⟨entry, hentry⟩ := Option.ne_none_iff_exists'.mp hn
      exact Or.inl (mounted_bound file root auto hentry).1
  | @serve log fs q hrun _ _ ih =>
      intro hrestrained heach n hn
      obtain ⟨hlast, hall⟩ := (eachStep_cons hrun).mp heach
      have hbefore := ih hrestrained.2 hall
      rcases forget_or q with ⟨m, k, rfl⟩ | hq
      · obtain ⟨entry, hentry⟩ := Option.ne_none_iff_exists'.mp hn
        change (fs.table.drop m).bound n = some entry at hentry
        obtain ⟨hne, hold⟩ := Table.bound_drop_eq_some.mp hentry
        have hknown : fs.inodes n ≠ none := by
          change fs.inodes n = some entry at hold
          rw [hold]
          exact Option.some_ne_none entry
        rcases hbefore n hknown with hroot | hless
        · exact Or.inl hroot
        · refine Or.inr ?_
          rw [lookups_cons, forgotten_cons]
          show (if m = n then k else 0) + _ < _
          rw [if_neg (Ne.symm hne)]
          omega
      · rcases serve_adds hserve fs q hn with hold | hgiven |
          ⟨fh, offset, accepts, rfl, p, hp, hdots, hino⟩
        · exact (hbefore n hold).cons hq _
        · refine Or.inr ?_
          have hle := forgotten_le_lookups n log hrestrained.2
          rw [lookups_cons, forgotten_cons, givenBack_eq_zero hq,
            if_pos (beq_iff_eq.mpr hgiven)]
          omega
        · rw [owed_readdir_iff, ← hino]
          exact hlast p hp hdots

/-- In every state of a run in which the kernel gives back what it got,
nothing is in the table that has no references, but for the root, exactly
if each listing of the run shows only numbers that have some. -/
theorem noLeak_iff (hserve : host.reader.Serves src) {s : σ}
    (hnew : ISOFuse.new host s = .ok fs₀) (hrun : AnyRun host fs₀ log fs)
    (hrestrained : Restrained log) :
    (∀ early fs', early <:+ log → AnyRun host fs₀ early fs' →
        NoLeak early fs')
      ↔ EachStep (serve host) (fun _ _ => True) fs₀ (ListsOwed host src)
        log := by
  constructor
  · intro hleak
    induction hrun with
    | start => exact .nil
    | @serve log fs q hrun hmeets hreturned ih =>
        rw [eachStep_cons hrun]
        refine ⟨?_, ih hrestrained.2 fun early fs' hearly =>
          hleak early fs' (hearly.trans (List.suffix_cons _ _))⟩
        cases q with
        | readdir fh offset accepts =>
            intro p hp hdots
            have hin := (readdir_shown hserve fs fh offset accepts).known
              p.1 p.2 hp hdots
            exact owed_readdir_iff.mp ((hleak _ _ (List.suffix_refl _)
              (.serve _ hrun hmeets hreturned)).owed p.2.ino hin)
        | lookup | forget | getattr | readlink | openFile | read | release
        | opendir | getxattr | releasedir => trivial
  · intro heach early fs' hearly hrun'
    exact noLeak_of_owed (owed_of_listsOwed hserve hnew hrun'
      (hrestrained.suffix hearly) fun early' s' q a hsuffix =>
        heach early' s' q a (hsuffix.trans hearly))

-- ================================================== listings of two discs

/-- The root is opened and listed: the numbers of its two files are in the
table, and the kernel never got a reference. -/
theorem listing_leaks : ∃ fs₀ log fs,
    ISOFuse.new lettersHost () = .ok fs₀
      ∧ AnyRun lettersHost fs₀ log fs
      ∧ Restrained log
      ∧ (∀ n, lookups n log = 0)
      ∧ fs.inodes 2 ≠ none ∧ fs.inodes 3 ≠ none
      ∧ ¬ NoLeak log fs := by
  obtain ⟨fs₀, log, fs, hnew, hrun, h⟩ := run_session lettersBlock.buffer
    [.opendir 1, .readdir 0 0 (boundless 0)]
    (fun log fs => decide (Restrained log)
      && (log.all (fun e => given e == none)
        && ((fs.inodes 2).isSome && (fs.inodes 3).isSome)))
    (by decide +kernel)
  simp only [Bool.and_eq_true, decide_eq_true_eq, List.all_eq_true,
    beq_iff_eq, Option.isSome_iff_ne_none] at h
  obtain ⟨hrestrained, hgiven, htwo, hthree⟩ := h
  have hnone : ∀ n, lookups n log = 0 := by
    intro n
    unfold lookups
    rw [List.countP_eq_zero]
    intro e he
    rw [hgiven e he]
    exact fun h => nomatch h
  refine ⟨fs₀, log, fs, hnew, hrun, hrestrained, hnone, htwo, hthree, ?_⟩
  intro hleak
  have hroot := hleak.root_only (fun n => by rw [hnone n]; omega) 2 htwo
  cases hroot

/-- On the disc with serial numbers `A` is looked up before the root is
listed, so that its number, 5, has a reference. -/
theorem noLeak_lookedUp : ∃ fs₀ log fs,
    ISOFuse.new (hostOf (serialBlock 5)) () = .ok fs₀
      ∧ AnyRun (hostOf (serialBlock 5)) fs₀ log fs
      ∧ log.length = 3 ∧ fs.inodes 5 ≠ none
      ∧ NoLeak log fs := by
  have hserve : (hostOf (serialBlock 5)).reader.Serves
      (discOf (serialBlock 5)) := (discOf (serialBlock 5)).reader_serves
  have hcheck : (mountOf (serialBlock 5)).isOkAnd (fun fs₀ =>
      let host := hostOf (serialBlock 5)
      let (a₁, fs₁) := fs₀.serve host (.lookup 1 [0x41])
      let (a₂, fs₂) := fs₁.serve host (.opendir 1)
      let (a₃, fs₃) := fs₂.serve host (.readdir 0 0 (boundless 0))
      decide (a₁.Returned ∧ a₂.Returned ∧ a₃.Returned)
        && (given (.lookup 1 [0x41], a₁) == some 5
          && ((fs₃.inodes 5).isSome
            && (shown host (discOf (serialBlock 5)) fs₂ 0 0
              (boundless 0)).all fun p =>
                decide (NotDots p.1 → p.2.ino = 5)))) = true := by
    decide +kernel
  obtain ⟨fs₀, hmount, htests⟩ := Outcome.exists_of_isOkAnd hcheck
  simp only [Bool.and_eq_true, decide_eq_true_eq, beq_iff_eq,
    Option.isSome_iff_ne_none, List.all_eq_true] at htests
  obtain ⟨⟨h₁, h₂, h₃⟩, hgiven, hfive, hshown⟩ := htests
  have hrun₁ : AnyRun (hostOf (serialBlock 5)) fs₀ _ _ :=
    .serve _ .start trivial h₁
  have hrun₂ := hrun₁.serve _ trivial h₂
  have hrun₃ := hrun₂.serve _ trivial h₃
  refine ⟨fs₀, _, _, (new_hostOf _).trans hmount, hrun₃, rfl, hfive, ?_⟩
  refine (noLeak_iff hserve ((new_hostOf _).trans hmount) hrun₃
    ⟨trivial, trivial, trivial, trivial⟩).mpr ?_ _ _ (List.suffix_refl _) hrun₃
  rw [eachStep_cons hrun₂, eachStep_cons hrun₁, eachStep_cons .start]
  refine ⟨fun p hp hdots => ?_, trivial, trivial, .nil⟩
  rw [hshown p hp hdots]
  refine Or.inr ?_
  rw [lookups_cons, lookups_cons, if_pos (beq_iff_eq.mpr hgiven)]
  show 0 < _
  omega

end Cdfs
