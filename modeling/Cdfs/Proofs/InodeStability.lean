/-
Whether the replies about a record agree on its number.

With serial numbers of the disc a reply tells the record's own number,
whatever was asked before (`Told.serial`). With generated numbers every
lookup and every listing takes the next one for each record, without a
look at the numbers that are given out: two of them never agree
(`stable_iff`), and what agrees with them is a `getattr` of the number
that was told.

The root is left out where a reply is about it as it was mounted: its
record is in no directory, and its number never changes.
-/
import Cdfs.Proofs.InodeBinding
import Cdfs.Proofs.ShownEntries

namespace Cdfs

open Rust Parse Numbering Service ISOFuse

variable {σ : Type} {host : Host σ} {src : Source} {fs₀ fs : ISOFuse σ}
  {log : Log} {q : Request} {entry entry' : DirectoryEntry} {n : ℕ}

-- ================================================================= replies

/-- The reply to the request tells the number of the entry. -/
inductive Tells (host : Host σ) (src : Source) (fs₀ fs : ISOFuse σ) :
    Request → DirectoryEntry → ℕ → Prop
  | lookup {parent : ℕ} {name : List UInt8} {attr : FileAttr}
      {entry : DirectoryEntry} :
      (ISOFuse.lookup host fs parent name).1 = .ok (.entry attr) →
      (ISOFuse.lookup host fs parent name).2.inodes attr.ino = some entry →
      Tells host src fs₀ fs (.lookup parent name) entry attr.ino
  | getattr {ino : ℕ} {attr : FileAttr} {entry : DirectoryEntry} :
      ISOFuse.getattr host fs ino = .ok (.attr attr) →
      fs.inodes ino = some entry → fs₀.inodes ino ≠ some entry →
      Tells host src fs₀ fs (.getattr ino) entry attr.ino
  | readdir {fh : ℕ} {offset : Int64} {accepts : Capacity}
      {listing : List Dirent} {entry : DirectoryEntry} {d : Dirent} :
      (ISOFuse.readdir host fs fh offset accepts).1
        = .ok (.directory listing) →
      d ∈ listing → (entry, d) ∈ shown host src fs fh offset accepts →
      Tells host src fs₀ fs (.readdir fh offset accepts) entry d.ino

/-- Some reply of the run did. -/
inductive Told (host : Host σ) (src : Source) (fs₀ : ISOFuse σ) :
    Log → DirectoryEntry → ℕ → Prop
  | now {log : Log} {fs : ISOFuse σ} {q : Request} {entry : DirectoryEntry}
      {n : ℕ} :
      AnyRun host fs₀ log fs → Tells host src fs₀ fs q entry n →
      Told host src fs₀ ((q, (fs.serve host q).1) :: log) entry n
  | before {log : Log} {e : Request × Outcome Errno Reply}
      {entry : DirectoryEntry} {n : ℕ} :
      Told host src fs₀ log entry n → Told host src fs₀ (e :: log) entry n

/-- All replies about an entry tell one number. -/
def Stable (host : Host σ) (src : Source) (fs₀ : ISOFuse σ) (log : Log) :
    Prop :=
  ∀ entry n n', Told host src fs₀ log entry n →
    Told host src fs₀ log entry n' → n = n'

/-- The request is about no entry that an earlier reply was about, and
about none twice; but `getattr` may ask for a number that was told. -/
structure AsksOnce (host : Host σ) (src : Source) (fs₀ : ISOFuse σ)
    (early : Log) (fs : ISOFuse σ) (q : Request) : Prop where
  unseen : ∀ entry n m, Tells host src fs₀ fs q entry n →
    Told host src fs₀ early entry m →
    ∃ ino entry', q = .getattr ino ∧ Told host src fs₀ early entry' ino
  nodup : ∀ fh offset accepts reply, q = .readdir fh offset accepts →
    (ISOFuse.readdir host fs fh offset accepts).1 = .ok reply →
    ((shown host src fs fh offset accepts).map Prod.fst).Nodup

theorem told_cons (hrun : AnyRun host fs₀ log fs) :
    Told host src fs₀ ((q, (fs.serve host q).1) :: log) entry n
      ↔ Tells host src fs₀ fs q entry n ∨ Told host src fs₀ log entry n := by
  constructor
  · intro h
    generalize hlog : (q, (fs.serve host q).1) :: log = log' at h
    cases h with
    | now hrun' htells =>
        obtain ⟨hstep, rfl⟩ := List.cons.inj hlog
        obtain rfl := (Prod.mk.inj hstep).1
        rw [hrun.unique hrun']
        exact Or.inl htells
    | before h =>
        obtain ⟨-, rfl⟩ := List.cons.inj hlog
        exact Or.inr h
  · rintro (h | h)
    · exact .now hrun h
    · exact .before h

theorem getattr_ino {ino : ℕ} {attr : FileAttr}
    (h : ISOFuse.getattr host fs ino = .ok (.attr attr)) :
    attr.ino = ino := by
  unfold ISOFuse.getattr at h
  split at h
  · cases h
  · rename_i entry _
    rcases getFileattr_cases host ino entry with ⟨attr', hattr, hino, -⟩ |
      ⟨hpanic, -⟩
    · rw [hattr, Outcome.ok_bind] at h
      rw [← Reply.attr.inj (Outcome.ok.inj h)]
      exact hino
    · rw [hpanic] at h
      cases h

theorem run_generated (hrun : AnyRun host fs₀ log fs) :
    fs.inodeAutogenerated = fs₀.inodeAutogenerated :=
  hrun.inv (I := fun fs =>
      fs.inodeAutogenerated = fs₀.inodeAutogenerated) rfl
    fun fs q h _ _ => (serve_generated host fs q).trans h

-- ========================================================= serial numbers

/-- With serial numbers what is in the table is at its own number, but for
what was mounted. -/
theorem bound_serial (hauto : fs₀.inodeAutogenerated = false)
    (hrun : AnyRun host fs₀ log fs) :
    fs.inodeAutogenerated = false
      ∧ ∀ n entry, fs.inodes n = some entry →
        serial entry = some n ∨ fs₀.inodes n = some entry := by
  refine hrun.inv (I := fun fs => fs.inodeAutogenerated = false
    ∧ ∀ n entry, fs.inodes n = some entry →
      serial entry = some n ∨ fs₀.inodes n = some entry)
    ⟨hauto, fun _ _ h => Or.inr h⟩ ?_
  rintro fs q ⟨hgen, hbound⟩ - -
  rcases forget_or q with ⟨m, k, rfl⟩ | hq
  · refine ⟨hgen, fun n entry hn => ?_⟩
    change (fs.table.drop m).bound n = some entry at hn
    exact hbound n entry (Table.bound_drop_eq_some.mp hn).2
  · have hent := serve_table host fs q hq
    have hview : ∀ entry n, True → Cdfs.serial entry = some n →
        (Cdfs.serial entry = some n ∨ fs₀.inodes n = some entry)
          ∧ ∀ c, (Cdfs.serial c = some n ∨ fs₀.inodes n = some c) →
            (fun _ : DirectoryEntry => ()) entry
              = (fun _ : DirectoryEntry => ()) c :=
      fun entry n _ hown => ⟨Or.inl hown, fun _ _ => rfl⟩
    exact ⟨hent.generated.trans hgen, (hent.own_spec hgen hbound hview).1⟩

/-- Then a reply tells the entry's own number. -/
theorem Tells.serial (hgen : fs.inodeAutogenerated = false)
    (hbound : ∀ n entry, fs.inodes n = some entry →
      Cdfs.serial entry = some n ∨ fs₀.inodes n = some entry)
    (h : Tells host src fs₀ fs q entry n) : Cdfs.serial entry = some n := by
  cases h with
  | lookup hreply hentered =>
      have hown : fs.table.generated = false := hgen
      obtain ⟨-, -, found, -, -, hnum, -, -, hbound⟩ :=
        lookup_entered hreply
      rw [hentered] at hbound
      cases hbound
      exact (Table.number_of_own hown entry).symm.trans hnum
  | getattr hreply hentry hother =>
      rw [getattr_ino hreply]
      rcases hbound _ _ hentry with h | h
      · exact h
      · exact absurd h hother
  | readdir _ _ hmem =>
      unfold shown at hmem
      split at hmem
      · cases hmem
      · split at hmem
        · cases hmem
        · rw [hgen] at hmem
          exact shownFrom_serial _ _ _ _ _ hmem

theorem Told.serial (hauto : fs₀.inodeAutogenerated = false)
    (h : Told host src fs₀ log entry n) : Cdfs.serial entry = some n := by
  induction h with
  | now hrun htells =>
      obtain ⟨hgen, hbound⟩ := bound_serial hauto hrun
      exact htells.serial hgen hbound
  | before _ ih => exact ih

-- ====================================================== generated numbers

/-- A listing shows the counter's numbers. -/
theorem shown_counted (hgen : fs.inodeAutogenerated = true) (fh : ℕ)
    (offset : Int64) (accepts : Capacity) :
    (shown host src fs fh offset accepts).map (fun p => p.2.ino)
      = List.range' fs.inodeNumber
        (shown host src fs fh offset accepts).length := by
  unfold shown
  split
  · rfl
  · split
    · rfl
    · rw [hgen]
      exact shownFrom_counted _ _ _ _

/-- They are numbers from the counter on, one for each entry shown. -/
theorem shown_fresh (hgen : fs.inodeAutogenerated = true) {fh : ℕ}
    {offset : Int64} {accepts : Capacity} {p : DirectoryEntry × Dirent}
    (hp : p ∈ shown host src fs fh offset accepts) :
    fs.inodeNumber ≤ p.2.ino
      ∧ p.2.ino < fs.inodeNumber
        + (shown host src fs fh offset accepts).length
      ∧ ∀ p' ∈ shown host src fs fh offset accepts,
        p'.2.ino = p.2.ino → p' = p := by
  have hcounted : (shown host src fs fh offset accepts).map
      (fun p => p.2.ino) = List.range' fs.inodeNumber
        (shown host src fs fh offset accepts).length :=
    shown_counted hgen fh offset accepts
  have hmem : p.2.ino ∈ (shown host src fs fh offset accepts).map
      (fun p => p.2.ino) := List.mem_map_of_mem hp
  have hnodup : ((shown host src fs fh offset accepts).map
      (fun p => p.2.ino)).Nodup := by
    rw [hcounted]
    exact List.nodup_range'
  rw [hcounted, List.mem_range'_1] at hmem
  exact ⟨hmem.1, hmem.2, fun p' hp' heq =>
    List.inj_on_of_nodup_map hnodup hp' hp heq⟩

/-- What the replies of a run told, with generated numbers: a number that
was told is behind the counter, and stands for that entry if for any. -/
structure Issued (host : Host σ) (src : Source) (fs₀ : ISOFuse σ)
    (log : Log) (fs : ISOFuse σ) : Prop where
  generated : fs.inodeAutogenerated = true
  fresh : Fresh fs.table
  low : ∀ entry n, Told host src fs₀ log entry n → n < fs.inodeNumber
  one : ∀ entry entry' n, Told host src fs₀ log entry n →
    fs.inodes n = some entry' → entry' = entry

/-- What a reply tells is new with it, unless it is a reply to `getattr`. -/
theorem Tells.issued (hserve : host.reader.Serves src)
    (hgen : fs.inodeAutogenerated = true) (hfresh : Fresh fs.table)
    (h : Tells host src fs₀ fs q entry n) :
    (fs.inodeNumber ≤ n ∨ q = .getattr n)
      ∧ n < (fs.serve host q).2.inodeNumber
      ∧ ∀ entry', (fs.serve host q).2.inodes n = some entry' →
        entry' = entry := by
  cases h with
  | @lookup parent name attr entry hreply hentered =>
      obtain ⟨hnext, hmoved⟩ := lookup_counted hgen hreply
      refine ⟨Or.inl hnext.ge, ?_, fun entry' h => ?_⟩
      · show attr.ino < (ISOFuse.lookup host fs parent name).2.inodeNumber
        omega
      · change (ISOFuse.lookup host fs parent name).2.inodes attr.ino
          = some entry' at h
        rw [hentered] at h
        exact (Option.some.inj h).symm
  | @getattr ino attr entry hreply hentry _ =>
      have hino := getattr_ino hreply
      subst hino
      refine ⟨Or.inr rfl, hfresh _ ?_, fun entry' h => ?_⟩
      · show fs.inodes attr.ino ≠ none
        rw [hentry]
        exact Option.some_ne_none entry
      · change fs.inodes attr.ino = some entry' at h
        rw [hentry] at h
        exact (Option.some.inj h).symm
  | @readdir fh offset accepts listing entry d hreply _ hmem =>
      have hlisted := readdir_shown hserve fs fh offset accepts
      obtain ⟨hge, hlt, hinj⟩ := shown_fresh hgen hmem
      dsimp only at hge hlt
      refine ⟨Or.inl hge, ?_, fun entry' h => ?_⟩
      · show d.ino < (ISOFuse.readdir host fs fh offset accepts).2.inodeNumber
        rw [hlisted.next, if_pos hgen]
        exact hlt
      · rcases hlisted.entered d.ino entry' h with hold |
          ⟨d', hmem', -, hino⟩
        · -- the number was not given out before
          have hless : d.ino < fs.inodeNumber := by
            apply hfresh d.ino
            show fs.inodes d.ino ≠ none
            rw [hold]
            exact Option.some_ne_none entry'
          omega
        · exact congrArg Prod.fst (hinj (entry', d') hmem' hino)

theorem Issued.serve (hserve : host.reader.Serves src)
    (hrun : AnyRun host fs₀ log fs) (h : Issued host src fs₀ log fs)
    (q : Request) :
    Issued host src fs₀ ((q, (fs.serve host q).1) :: log)
      (fs.serve host q).2 := by
  rcases forget_or q with ⟨m, k, rfl⟩ | hq
  · have hold : ∀ {entry n}, Told host src fs₀
        ((.forget m k, (fs.serve host (.forget m k)).1) :: log) entry n →
        Told host src fs₀ log entry n := by
      intro entry n htold
      rcases (told_cons hrun).mp htold with htells | htold
      · cases htells
      · exact htold
    refine ⟨h.generated, h.fresh.drop m, fun entry n htold =>
      h.low entry n (hold htold), fun entry entry' n htold hn => ?_⟩
    change (fs.table.drop m).bound n = some entry' at hn
    exact h.one entry entry' n (hold htold)
      (Table.bound_drop_eq_some.mp hn).2
  · have hent := serve_table host fs q hq
    refine ⟨hent.generated.trans h.generated,
      (hent.stays h.generated h.fresh).1, ?_, ?_⟩
    · intro entry n htold
      rcases (told_cons hrun).mp htold with htells | htold
      · exact (htells.issued hserve h.generated h.fresh).2.1
      · exact Nat.lt_of_lt_of_le (h.low entry n htold) hent.next_le
    · intro entry entry' n htold hn
      rcases (told_cons hrun).mp htold with htells | htold
      · exact (htells.issued hserve h.generated h.fresh).2.2 entry' hn
      · have hsame : (fs.serve host q).2.inodes n = fs.inodes n :=
          hent.bound_eq h.generated (h.low entry n htold)
        rw [hsame] at hn
        exact h.one entry entry' n htold hn

theorem issued_of_run (hserve : host.reader.Serves src) {s : σ}
    (hnew : ISOFuse.new host s = .ok fs₀)
    (hauto : fs₀.inodeAutogenerated = true)
    (hrun : AnyRun host fs₀ log fs) : Issued host src fs₀ log fs := by
  induction hrun with
  | start =>
      obtain ⟨iso, s', root, s'', file, auto, -, -, rfl⟩ := new_eq_ok hnew
      change auto = true at hauto
      subst hauto
      exact ⟨rfl, (counted_mounted file root).fresh, (fun _ _ h => nomatch h),
        fun _ _ _ h => nomatch h⟩
  | serve q hrun _ _ ih => exact ih.serve hserve hrun q

-- ================================================================== runs

/-- A reply that tells an entry two numbers lists it twice. -/
theorem Tells.unique {n' : ℕ} (honce : AsksOnce host src fs₀ log fs q)
    (h : Tells host src fs₀ fs q entry n)
    (h' : Tells host src fs₀ fs q entry n') : n = n' := by
  cases h with
  | lookup hreply =>
      cases h' with
      | lookup hreply' =>
          rw [hreply] at hreply'
          rw [Reply.entry.inj (Outcome.ok.inj hreply')]
  | getattr hreply =>
      cases h' with
      | getattr hreply' => rw [getattr_ino hreply, getattr_ino hreply']
  | readdir hreply _ hmem =>
      cases h' with
      | readdir _ _ hmem' =>
          have hsame := List.inj_on_of_nodup_map
            (honce.nodup _ _ _ _ rfl hreply) hmem hmem' rfl
          rw [(Prod.mk.inj hsame).2]

/-- A listing tells a number for all that it shows. -/
theorem tells_shown (hserve : host.reader.Serves src) {fh : ℕ}
    {offset : Int64} {accepts : Capacity} {reply : Reply}
    (hreply : (ISOFuse.readdir host fs fh offset accepts).1 = .ok reply)
    {p : DirectoryEntry × Dirent}
    (hp : p ∈ shown host src fs fh offset accepts) :
    Tells host src fs₀ fs (.readdir fh offset accepts) p.1 p.2.ino := by
  have hlisting := (readdir_shown hserve fs fh offset accepts).replied reply
    hreply
  rw [hlisting] at hreply
  exact .readdir hreply (List.mem_map_of_mem hp) hp

/-- A request that leaves all replies in agreement asks once. -/
theorem Issued.asksOnce (hserve : host.reader.Serves src)
    (hrun : AnyRun host fs₀ log fs) (h : Issued host src fs₀ log fs)
    (hstable : Stable host src fs₀ ((q, (fs.serve host q).1) :: log)) :
    AsksOnce host src fs₀ log fs q where
  unseen entry n m htells htold := by
    have heq : n = m :=
      hstable entry n m (.now hrun htells) (.before htold)
    have hlow := h.low entry m htold
    rcases (htells.issued hserve h.generated h.fresh).1 with hge | hq
    · omega
    · exact ⟨n, entry, hq, heq ▸ htold⟩
  nodup := by
    rintro fh offset accepts reply rfl hreply
    have hnodup : (shown host src fs fh offset accepts).Nodup := by
      apply List.Nodup.of_map (fun p => p.2.ino)
      rw [shown_counted h.generated]
      exact List.nodup_range'
    rw [List.nodup_map_iff_inj_on hnodup]
    intro p hp p' hp' heq
    have hsame : p.2.ino = p'.2.ino := by
      apply hstable p.1
      · exact .now hrun (tells_shown hserve hreply hp)
      · rw [heq]
        exact .now hrun (tells_shown hserve hreply hp')
    exact (shown_fresh h.generated hp').2.2 p hp hsame

/-- A request that asks once leaves them in agreement. -/
theorem Issued.stable (hrun : AnyRun host fs₀ log fs)
    (h : Issued host src fs₀ log fs)
    (honce : AsksOnce host src fs₀ log fs q)
    (hstable : Stable host src fs₀ log) :
    Stable host src fs₀ ((q, (fs.serve host q).1) :: log) := by
  have hmixed : ∀ entry n m, Tells host src fs₀ fs q entry n →
      Told host src fs₀ log entry m → n = m := by
    intro entry n m htells htold
    obtain ⟨ino, entry', rfl, htold'⟩ := honce.unseen entry n m htells htold
    cases htells with
    | getattr hreply hentry =>
        -- the number was told, and of no other entry
        have hsame := h.one entry' entry ino htold' hentry
        rw [getattr_ino hreply]
        exact hstable entry ino m (hsame ▸ htold') htold
  intro entry n n' htold htold'
  rcases (told_cons hrun).mp htold with htells | htold
  · rcases (told_cons hrun).mp htold' with htells' | htold'
    · exact htells.unique honce htells'
    · exact hmixed entry n n' htells htold'
  · rcases (told_cons hrun).mp htold' with htells' | htold'
    · exact (hmixed entry n' n htells' htold).symm
    · exact hstable entry n n' htold htold'

/-- In every run all replies about a record tell the same number, exactly
if it is a serial number of the disc, or if no lookup and no listing is
about a record that an earlier reply was about. -/
theorem stable_iff (hserve : host.reader.Serves src) {s : σ}
    (hnew : ISOFuse.new host s = .ok fs₀) (hrun : AnyRun host fs₀ log fs) :
    Stable host src fs₀ log
      ↔ fs₀.inodeAutogenerated = false
        ∨ EachStep (serve host) (fun _ _ => True) fs₀
          (AsksOnce host src fs₀) log := by
  cases hauto : fs₀.inodeAutogenerated with
  | false =>
      refine ⟨fun _ => Or.inl rfl, fun _ entry n n' h h' => ?_⟩
      exact Option.some.inj ((h.serial hauto).symm.trans (h'.serial hauto))
  | true =>
      rw [or_iff_right Bool.noConfusion]
      induction hrun with
      | start => exact ⟨fun _ => .nil, fun _ _ _ _ h => nomatch h⟩
      | @serve log fs q hrun _ _ ih =>
          have hissued := issued_of_run hserve hnew hauto hrun
          rw [eachStep_cons hrun, ← ih]
          constructor
          · intro hstable
            exact ⟨hissued.asksOnce hserve hrun hstable,
              fun entry n n' h h' =>
                hstable entry n n' (.before h) (.before h')⟩
          · rintro ⟨honce, hstable⟩
            exact hissued.stable hrun honce hstable

-- ============================================== two lookups of one file

/-- On the disc without serial numbers the first lookup of `A` is replied
to with the number 2, and the second with 3. -/
theorem lookup_renumbers : ∃ fs₀ log fs,
    ISOFuse.new lettersHost () = .ok fs₀
      ∧ AnyRun lettersHost fs₀ log fs
      ∧ Told lettersHost (discOf lettersBlock.buffer) fs₀ log
        upperRecord.entry 2
      ∧ Told lettersHost (discOf lettersBlock.buffer) fs₀ log
        upperRecord.entry 3
      ∧ ¬ Stable lettersHost (discOf lettersBlock.buffer) fs₀ log := by
  have hcheck : (mountOf lettersBlock.buffer).isOkAnd (fun fs₀ =>
      let (a₁, fs₁) := fs₀.serve lettersHost (.lookup 1 [0x41])
      let (a₂, fs₂) := fs₁.serve lettersHost (.lookup 1 [0x41])
      decide (a₁.Returned ∧ a₂.Returned
        ∧ given (.lookup 1 [0x41], a₁) = some 2
        ∧ given (.lookup 1 [0x41], a₂) = some 3
        ∧ fs₁.inodes 2 = some upperRecord.entry
        ∧ fs₂.inodes 3 = some upperRecord.entry)) = true := by
    decide +kernel
  obtain ⟨fs₀, hmount, htests⟩ := Outcome.exists_of_isOkAnd hcheck
  simp only [decide_eq_true_eq] at htests
  obtain ⟨h₁, h₂, hgiven, hgiven', htwo, hthree⟩ := htests
  have htells : ∀ {fs : ISOFuse Unit} {n : ℕ},
      given (.lookup 1 [0x41],
        (fs.serve lettersHost (.lookup 1 [0x41])).1) = some n →
      (fs.serve lettersHost (.lookup 1 [0x41])).2.inodes n
        = some upperRecord.entry →
      Tells lettersHost (discOf lettersBlock.buffer) fs₀ fs
        (.lookup 1 [0x41]) upperRecord.entry n := by
    intro fs n hgiven hentered
    obtain ⟨parent, name, attr, hq, hreply, rfl⟩ :=
      given_eq_some.mp hgiven
    exact .lookup hreply hentered
  have hrun₁ : AnyRun lettersHost fs₀ _ _ := .serve _ .start trivial h₁
  have hfirst := Told.now .start (htells hgiven htwo)
  have hsecond := Told.now hrun₁ (htells hgiven' hthree)
  refine ⟨fs₀, _, _, (new_hostOf _).trans hmount,
    hrun₁.serve _ trivial h₂, hfirst.before, hsecond, fun hstable => ?_⟩
  have := hstable _ _ _ hfirst.before hsecond
  cases this

/-- On the disc with serial numbers the replies agree: two lookups, and a
listing in between. -/
theorem stable_serial : ∃ fs₀ log fs,
    ISOFuse.new (hostOf (serialBlock 5)) () = .ok fs₀
      ∧ AnyRun (hostOf (serialBlock 5)) fs₀ log fs ∧ log.length = 4
      ∧ Stable (hostOf (serialBlock 5)) (discOf (serialBlock 5)) fs₀ log := by
  obtain ⟨fs₀, log, fs, hnew, hrun, h⟩ := run_session (serialBlock 5)
    [.lookup 1 [0x41], .opendir 1, .readdir 0 0 (boundless 0),
      .lookup 1 [0x41]]
    (fun log fs => decide (log.length = 4
      ∧ fs.inodeAutogenerated = false)) (by decide +kernel)
  obtain ⟨hlength, hserial⟩ := of_decide_eq_true h
  have hauto : fs₀.inodeAutogenerated = false := by
    rw [← run_generated hrun]
    exact hserial
  exact ⟨fs₀, log, fs, hnew, hrun, hlength,
    (stable_iff (discOf (serialBlock 5)).reader_serves hnew hrun).mpr
      (Or.inl hauto)⟩

end Cdfs
