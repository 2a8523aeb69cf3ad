/-
Listing a directory in pages. The kernel asks for a directory piece by
piece: first from the start, then from the cookie of the last entry that
fitted, until a reply is empty (`Paged`).

The cookie of an entry is where the entries behind it begin, so that a
page is what is visible of some entries at the front, and the next one
begins with the rest (`readdirFrom_page`). Hidden entries behind the last
visible one are passed again by the next call, and nothing is visible of
them there either. A page takes at least one entry if one is left, so all
are listed in the end, once each (`readdir_paged`).

The one thing that stops it is the guard on the numbers: every listed
entry takes one from the counter, and at `u64::MAX` there is an error
(`readdir_numbers_out`).
-/
import Cdfs.Proofs.Lookup
import Cdfs.Proofs.LookupReferences

namespace Cdfs

open Rust Parse Numbering Service ISOFuse

variable {σ : Type} {host : Host σ} {src : Source} {fs : ISOFuse σ}
  {dir : ISODirectory}

-- ============================================================== what is due

/-- The entries that are not relocated. -/
def visible (entries : List DirectoryEntry) : List DirectoryEntry :=
  entries.filter fun entry => !entry.relocated

theorem visible_cons (entry : DirectoryEntry)
    (entries : List DirectoryEntry) :
    visible (entry :: entries)
      = if entry.relocated then visible entries
        else entry :: visible entries := by
  unfold visible
  rw [List.filter_cons]
  cases entry.relocated with
  | true => rfl
  | false => rfl

/-- Neither the directory itself nor its parent. -/
abbrev NotDots (entry : DirectoryEntry) : Prop :=
  entry.identifier ≠ "." ∧ entry.identifier ≠ ".."

/-- What a reply shows of an entry; the number only if it is the entry's
own. -/
structure Shows (auto : Bool) (d : Dirent) (entry : DirectoryEntry) :
    Prop where
  kind : d.kind = entryToFiletype entry
  name : d.name = entry.identifier
  ino : auto = false → serial entry = some d.ino

theorem Shows.names {auto : Bool} {page : List Dirent}
    {entries : List DirectoryEntry}
    (h : List.Forall₂ (Shows auto) page entries) :
    page.map Dirent.name = entries.map DirectoryEntry.identifier := by
  induction h with
  | nil => rfl
  | cons hshows _ ih => rw [List.map_cons, List.map_cons, hshows.name, ih]

/-- That is what is listed for it. -/
theorem shows_dirent {entry : DirectoryEntry} {n : ℕ}
    (hn : fs.numberFor entry = .ok n) (cookie : Int64) :
    Shows fs.inodeAutogenerated (dirent n cookie entry) entry where
  kind := rfl
  name := rfl
  ino hauto := by
    have hgen : fs.table.generated = false := hauto
    exact (Table.number_of_own hgen entry).symm.trans (numberFor_eq_ok.mp hn)

/-- There are numbers for so many more entries. -/
def NumbersLast (fs : ISOFuse σ) (count : ℕ) : Prop :=
  fs.inodeNumber + (if fs.inodeAutogenerated then count else 0) < u64Max

/-- The counter is not at its end before any of the entries; it moves on
at those that are visible. -/
def NumbersSuffice (auto : Bool) : ℕ → List DirectoryEntry → Prop
  | _, [] => True
  | n, entry :: entries =>
      n ≠ u64Max ∧ NumbersSuffice auto
        (n + if auto && !entry.relocated then 1 else 0) entries

theorem numbersSuffice_of_lt {auto : Bool} (entries : List DirectoryEntry) :
    ∀ n, n + (if auto then (visible entries).length else 0) < u64Max →
      NumbersSuffice auto n entries := by
  induction entries with
  | nil => exact fun _ _ => trivial
  | cons entry entries ih =>
      intro n hlt
      refine ⟨by omega, ih _ ?_⟩
      rw [visible_cons] at hlt
      cases auto with
      | false => exact hlt
      | true =>
          cases hrel : entry.relocated with
          | true =>
              rw [hrel, if_pos rfl, if_pos rfl] at hlt
              exact hlt
          | false =>
              rw [hrel, if_pos rfl, if_neg Bool.false_ne_true,
                List.length_cons] at hlt
              show n + 1 + (visible entries).length < _
              omega

/-- Behind some entries the numbers suffice for those that are left. -/
theorem NumbersSuffice.append {auto : Bool} {rest : List DirectoryEntry}
    (front : List DirectoryEntry) :
    ∀ {n}, NumbersSuffice auto n (front ++ rest) →
      NumbersSuffice auto
        (n + if auto then (visible front).length else 0) rest := by
  induction front with
  | nil =>
      intro n h
      cases auto with
      | true => exact h
      | false => exact h
  | cons entry front ih =>
      intro n h
      have hrest := ih h.2
      rw [visible_cons]
      cases auto with
      | false => exact hrest
      | true =>
          cases hrel : entry.relocated with
          | true =>
              rw [hrel] at hrest
              exact hrest
          | false =>
              rw [hrel] at hrest
              change NumbersSuffice true (n + 1 + (visible front).length) rest
                at hrest
              rw [Nat.add_right_comm, Nat.add_assoc] at hrest
              exact hrest

/-- Every entry has a number. -/
abbrev Numbered (auto : Bool) (entries : List DirectoryEntry) : Prop :=
  ∀ entry ∈ entries, auto = false → entry.inode ≠ none

theorem listed_inodeAutogenerated (fs : ISOFuse σ) (n : ℕ)
    (entry : DirectoryEntry) :
    (fs.listed n entry).inodeAutogenerated = fs.inodeAutogenerated := by
  rcases fs.table_listed n entry with h | h
  · exact (congrArg Table.generated h).trans (Table.generated_advance _)
  · exact (congrArg Table.generated h).trans (Table.generated_advance _)

/-- Listing an entry takes one number of the counter. -/
theorem listed_inodeNumber (fs : ISOFuse σ) (n : ℕ)
    (entry : DirectoryEntry) :
    (fs.listed n entry).inodeNumber
      = fs.inodeNumber + if fs.inodeAutogenerated then 1 else 0 := by
  show (fs.listed n entry).table.next = _
  rcases fs.table_listed n entry with h | h
  · rw [h, Table.next_advance_add]
    rfl
  · rw [h, Table.next_advance_add]
    rfl

-- =============================================================== one page

/-- A page shows the first of the visible entries, and behind the cookie of
its last one are those that are left. -/
structure Page (step : ℕ → Outcome ISOError (DirectoryEntry × Option ℕ))
    (auto : Bool) (entries : List DirectoryEntry) (page : List Dirent)
    (left : List DirectoryEntry) : Prop where
  shown : ∃ seen, visible entries = seen ++ left
    ∧ List.Forall₂ (Shows auto) page seen
  onward : ∀ last, page.getLast? = some last →
    ∃ pos rest, fuseOffset pos = some last.offset
      ∧ Cursor.Yields step pos rest ∧ visible rest = left
      ∧ rest <:+ entries

variable {step : ℕ → Outcome ISOError (DirectoryEntry × Option ℕ)}
  {auto : Bool} {entry : DirectoryEntry}
  {entries left : List DirectoryEntry} {page : List Dirent}

theorem Page.nothing (step) (auto) (entries : List DirectoryEntry) :
    Page step auto entries [] (visible entries) where
  shown := ⟨[], rfl, .nil⟩
  onward _ h := nomatch h

theorem Page.hidden (h : Page step auto entries page left)
    (hrel : entry.relocated = true) :
    Page step auto (entry :: entries) page left where
  shown := by
    rw [visible_cons, if_pos hrel]
    exact h.shown
  onward last hlast := by
    obtain ⟨pos, rest, hpos, hrest, hleft, hsuffix⟩ := h.onward last hlast
    exact ⟨pos, rest, hpos, hrest, hleft,
      hsuffix.trans (List.suffix_cons _ _)⟩

theorem Page.cons (h : Page step auto entries page left)
    (hrel : ¬ entry.relocated = true) {d : Dirent} {next : Option ℕ}
    (hshows : Shows auto d entry) (hcookie : fuseOffset next = some d.offset)
    (hrest : Cursor.Yields step next entries) :
    Page step auto (entry :: entries) (d :: page) left where
  shown := by
    obtain ⟨seen, hseen, hpage⟩ := h.shown
    rw [visible_cons, if_neg hrel, hseen]
    exact ⟨entry :: seen, rfl, .cons hshows hpage⟩
  onward last hlast := by
    cases page with
    | nil =>
        -- the entry is the last of the page, and all behind it is left
        injection hlast with hlast
        obtain ⟨seen, hseen, hpage⟩ := h.shown
        cases hpage
        exact ⟨next, entries, hlast ▸ hcookie, hrest, hseen,
          List.suffix_cons _ _⟩
    | cons d' page =>
        rw [List.getLast?_cons_cons] at hlast
        obtain ⟨pos, rest, hpos, hrest, hleft, hsuffix⟩ :=
          h.onward last hlast
        exact ⟨pos, rest, hpos, hrest, hleft,
          hsuffix.trans (List.suffix_cons _ _)⟩

theorem readdirLoop_out {accepts : Capacity} {turns offset : ℕ}
    {cache : BlockCache} {listing : List Dirent}
    (h : fs.inodeNumber = u64Max) :
    (readdirLoop host dir accepts (turns + 1) fs cache offset listing).1
      = .err .ENFILE := by
  unfold readdirLoop
  rw [if_pos h]

theorem NumbersSuffice.hidden {n : ℕ}
    (h : NumbersSuffice auto n (entry :: entries))
    (hrel : entry.relocated = true) : NumbersSuffice auto n entries := by
  have hrest := h.2
  rw [hrel, Bool.not_true, Bool.and_false] at hrest
  exact hrest

theorem NumbersSuffice.listed
    (h : NumbersSuffice fs.inodeAutogenerated fs.inodeNumber
      (entry :: entries))
    (hrel : entry.relocated = false) (n : ℕ) :
    NumbersSuffice (fs.listed n entry).inodeAutogenerated
      (fs.listed n entry).inodeNumber entries := by
  have hrest := h.2
  rw [hrel, Bool.not_false, Bool.and_true] at hrest
  rw [listed_inodeNumber, listed_inodeAutogenerated]
  exact hrest

/-- Where the disc has an entry, the turn is about it. -/
theorem readdirFrom_turn (hserve : host.reader.Serves src)
    (accepts : Capacity) {turns : ℕ} (fs : ISOFuse σ) {cache : BlockCache}
    {pos : Option ℕ} (listing : List Dirent)
    (hco : Coherent src dir cache)
    (hyields : Cursor.Yields (entryAt host.build src host.fuel dir) pos
      (entry :: entries))
    (hturns : (entry :: entries).length ≤ turns) :
    ∃ before offset next cache' file,
      entries.length ≤ before
        ∧ Cursor.Yields (entryAt host.build src host.fuel dir) next entries
        ∧ readEntryAt host.build host.reader host.fuel dir cache offset fs.file
          = (.ok (entry, next), cache', file)
        ∧ Coherent src dir cache'
        ∧ Turn host dir accepts before fs cache offset listing
          (readdirFrom host dir accepts turns fs cache pos listing) := by
  obtain ⟨offset, next, rfl, hstep, hrest⟩ := hyields.uncons
  obtain ⟨before, rfl⟩ : ∃ n, turns = n + 1 :=
    Nat.exists_eq_add_one.mpr (Nat.lt_of_lt_of_le (Nat.succ_pos _) hturns)
  obtain ⟨hfound, hco'⟩ := readEntryAt_serves (b := host.build) hserve
    host.fuel hco offset fs.file
  rw [hstep] at hfound
  exact ⟨before, offset, next, _, _, Nat.le_of_succ_le_succ hturns, hrest,
    Prod.ext hfound rfl, hco',
    readdirLoop_turn host dir accepts before fs cache offset listing⟩

/-- The loop lists a page; it lists nothing only if nothing is visible.
What the counter moves on by is what is listed. -/
theorem readdirFrom_page (hserve : host.reader.Serves src)
    {accepts : Capacity} (hcap : ∀ d, accepts [] d = true)
    (entries : List DirectoryEntry) :
    ∀ (turns : ℕ) (fs : ISOFuse σ) (cache : BlockCache) (pos : Option ℕ)
      (listing : List Dirent),
      Coherent src dir cache →
      Cursor.Yields (entryAt host.build src host.fuel dir) pos entries →
      entries.length ≤ turns →
      NumbersSuffice fs.inodeAutogenerated fs.inodeNumber entries →
      Numbered fs.inodeAutogenerated (visible entries) →
      ∃ page left fs',
        readdirFrom host dir accepts turns fs cache pos listing
            = (.ok (.directory (listing ++ page)), fs')
          ∧ Page (entryAt host.build src host.fuel dir)
            fs.inodeAutogenerated entries page left
          ∧ (listing ++ page = [] → left = [])
          ∧ fs'.inodeAutogenerated = fs.inodeAutogenerated
          ∧ fs'.openDirectories = fs.openDirectories
          ∧ fs'.inodeNumber + (if fs.inodeAutogenerated then left.length else 0)
            = fs.inodeNumber + if fs.inodeAutogenerated then
              (visible entries).length else 0 := by
  induction entries with
  | nil =>
      intro turns fs cache pos listing _ hyields _ _ _
      cases pos with
      | some offset => cases hyields 0
      | none =>
          refine ⟨[], _, fs, ?_, Page.nothing _ _ _, fun _ => rfl, rfl, rfl,
            rfl⟩
          rw [List.append_nil]
          rfl
  | cons entry entries ih =>
      intro turns fs cache pos listing hco hyields hturns hsuffice hnumbered
      obtain ⟨before, offset, next, cache', file, hbefore, hrest, hread, hco',
        hturn⟩ := readdirFrom_turn hserve accepts fs listing hco hyields hturns
      rw [visible_cons] at hnumbered
      generalize readdirFrom host dir accepts turns fs cache pos listing
        = result at hturn ⊢
      cases hturn with
      | out hmax => exact absurd hmax hsuffice.1
      | failed _ hcall hno =>
          cases hread.symm.trans hcall
          exact absurd rfl (hno _)
      | hidden _ hcall hrel =>
          cases hread.symm.trans hcall
          rw [if_pos hrel] at hnumbered
          obtain ⟨page, left, fs', hloop, hpage, hmore⟩ :=
            ih before { fs with file } cache' next listing hco' hrest hbefore
              (hsuffice.hidden hrel) hnumbered
          rw [visible_cons, if_pos hrel]
          exact ⟨page, left, fs', hloop, hpage.hidden hrel, hmore⟩
      | numberless _ hcall hrel hpanic =>
          cases hread.symm.trans hcall
          rw [if_neg (by rw [hrel]; exact Bool.false_ne_true)] at hnumbered
          obtain ⟨hauto, hino⟩ := numberFor_eq_panic.mp hpanic
          exact absurd hino (hnumbered entry List.mem_cons_self hauto)
      | full _ hcall hrel _ _ hfits =>
          cases hread.symm.trans hcall
          refine ⟨[], _, { fs with file }, ?_, Page.nothing _ _ _,
            fun h => ?_, rfl, rfl, rfl⟩
          · rw [List.append_nil]
          · rw [List.append_nil] at h
            rw [h, hcap] at hfits
            cases hfits
      | @listed _ _ _ _ n cookie _ hcall hrel hn hcookie hfits =>
          cases hread.symm.trans hcall
          have hrel' : ¬ entry.relocated = true := by
            rw [hrel]
            exact Bool.false_ne_true
          have hshows : Shows fs.inodeAutogenerated (dirent n cookie entry)
            entry := shows_dirent hn cookie
          rw [if_neg hrel'] at hnumbered
          have hmoved : NumbersSuffice
              ({ fs with file } : ISOFuse σ).inodeAutogenerated
              ({ fs with file } : ISOFuse σ).inodeNumber
              (entry :: entries) := hsuffice
          have hauto := listed_inodeAutogenerated { fs with file } n entry
          have hdirs :=
            (sameHandles_listed { fs with file } n entry).openDirectories
          have hnumber := listed_inodeNumber { fs with file } n entry
          obtain ⟨page, left, fs', hloop, hpage, hempty, hsame, hdir, hcount⟩ :=
            ih before _ _ next (listing ++ [dirent n cookie entry]) hco' hrest
              hbefore (hmoved.listed hrel n)
              (by
                rw [hauto]
                exact fun e he => hnumbered e (List.mem_cons_of_mem _ he))
          rw [hauto] at hpage
          rw [hauto, hnumber] at hcount
          rw [List.append_assoc] at hloop hempty
          refine ⟨_, left, fs', hloop, hpage.cons hrel' hshows hcookie hrest,
            hempty, hsame.trans hauto, hdir.trans hdirs, ?_⟩
          rw [visible_cons, if_neg hrel', List.length_cons]
          by_cases hgen : fs.inodeAutogenerated = true
          · simp only [if_pos hgen] at hcount ⊢
            omega
          · simp only [if_neg hgen] at hcount ⊢
            omega

-- ================================================================ listings

/-- The listing by pages from a cookie on, with the room that each reply
has: what the pages are, and the state behind the last. -/
inductive Paged (host : Host σ) (fh : ℕ) :
    (ℕ → Capacity) → ISOFuse σ → Int64 → List (List Dirent) → ISOFuse σ →
      Prop
  | last {accepts : ℕ → Capacity} {fs fs' : ISOFuse σ} {cookie : Int64} :
      readdir host fs fh cookie (accepts 0) = (.ok (.directory []), fs') →
      Paged host fh accepts fs cookie [] fs'
  | page {accepts : ℕ → Capacity} {fs fs' fs'' : ISOFuse σ} {cookie : Int64}
      {page : List Dirent} {pages : List (List Dirent)} {last : Dirent} :
      readdir host fs fh cookie (accepts 0)
        = (.ok (.directory page), fs') →
      page.getLast? = some last →
      Paged host fh (fun n => accepts (n + 1)) fs' last.offset pages fs'' →
      Paged host fh accepts fs cookie (page :: pages) fs''

/-- Room for all the entries there are. -/
def boundless : ℕ → Capacity := fun _ _ _ => true

/-- A call of `readdir` lists a page. -/
theorem readdir_page (hserve : host.reader.Serves src) {fh : ℕ}
    (hopen : fs.openDirectories fh = some dir) {accepts : Capacity}
    (hcap : ∀ d, accepts [] d = true) {pos : Option ℕ} {cookie : Int64}
    (hcookie : fuseOffset pos = some cookie)
    {entries : List DirectoryEntry}
    (hyields : Cursor.Yields (entryAt host.build src host.fuel dir) pos
      entries)
    (hsuffice : NumbersSuffice fs.inodeAutogenerated fs.inodeNumber entries)
    (hnumbered : Numbered fs.inodeAutogenerated (visible entries)) :
    ∃ page left fs',
      readdir host fs fh cookie accepts = (.ok (.directory page), fs')
        ∧ Page (entryAt host.build src host.fuel dir) fs.inodeAutogenerated
          entries page left
        ∧ (page = [] → left = [])
        ∧ fs'.inodeAutogenerated = fs.inodeAutogenerated
        ∧ fs'.openDirectories = fs.openDirectories
        ∧ fs'.inodeNumber + (if fs.inodeAutogenerated then left.length else 0)
          = fs.inodeNumber + if fs.inodeAutogenerated then
            (visible entries).length else 0 := by
  unfold readdir
  rw [hopen]
  dsimp only
  cases pos with
  | none =>
      injection hcookie with hcookie
      have hnil := hyields.nil_of_none
      subst hnil
      rw [if_pos hcookie.symm]
      exact ⟨[], [], fs, rfl, Page.nothing _ _ _, fun _ => rfl, rfl, rfl,
        rfl⟩
  | some offset =>
      have hlt : offset < 2 ^ 63 := by
        by_contra hge
        change (if offset < 2 ^ 63 then _ else _) = _ at hcookie
        rw [if_neg hge] at hcookie
        cases hcookie
      have hoffset : cookie.toInt = offset := by
        change (if offset < 2 ^ 63 then _ else _) = _ at hcookie
        rw [if_pos hlt] at hcookie
        injection hcookie with hcookie
        rw [← hcookie]
        exact Int64.toInt_ofNat_of_lt hlt
      have hne : cookie ≠ -1 := by
        rintro rfl
        change (-1 : ℤ) = offset at hoffset
        omega
      have hlen := hyields.length_le entryAt_measure
      rw [if_neg hne, if_neg (by omega), hoffset, Int.toNat_natCast]
      exact readdirFrom_page hserve hcap entries (2 ^ 32 + 1) fs
        BlockCache.new (some offset) [] (coherent_new src dir) hyields
        (by omega) hsuffice hnumbered

/-- The listing from a position lists what is visible from there on. -/
theorem paged_visible (hserve : host.reader.Serves src) {fh : ℕ} (n : ℕ) :
    ∀ (accepts : ℕ → Capacity) (fs : ISOFuse σ) (pos : Option ℕ)
      (cookie : Int64) (entries : List DirectoryEntry),
      fs.openDirectories fh = some dir →
      (∀ k d, accepts k [] d = true) →
      fuseOffset pos = some cookie →
      Cursor.Yields (entryAt host.build src host.fuel dir) pos entries →
      NumbersSuffice fs.inodeAutogenerated fs.inodeNumber entries →
      Numbered fs.inodeAutogenerated (visible entries) →
      (visible entries).length = n →
      ∃ pages fs', Paged host fh accepts fs cookie pages fs'
        ∧ List.Forall₂ (Shows fs.inodeAutogenerated) pages.flatten
          (visible entries) := by
  -- by the number of visible entries that are left
  induction n using Nat.strongRecOn with
  | ind n ih =>
      intro accepts fs pos cookie entries hopen hcap hcookie hyields
        hsuffice hnumbered hn
      obtain ⟨page, left, fs', hcall, hpage, hempty, hauto, hdirs, hcount⟩ :=
        readdir_page hserve hopen (hcap 0) hcookie hyields hsuffice hnumbered
      obtain ⟨seen, hseen, hshown⟩ := hpage.shown
      cases hend : page.getLast? with
      | none =>
          rw [List.getLast?_eq_none_iff] at hend
          subst hend
          cases hshown
          rw [hempty rfl] at hseen
          refine ⟨[], fs', .last hcall, ?_⟩
          rw [hseen]
          exact .nil
      | some last =>
          obtain ⟨pos', rest, hpos', hrest, hleft, hsuffix⟩ :=
            hpage.onward last hend
          have hpos : 0 < page.length := by
            cases page with
            | nil => cases hend
            | cons => exact Nat.succ_pos _
          have hless : (visible rest).length < n := by
            rw [hleft, ← hn, hseen, List.length_append,
              ← hshown.length_eq]
            omega
          -- the counter moved on by what was passed
          obtain ⟨front, hfront⟩ := hsuffix
          have hsplit : visible entries = visible front ++ left := by
            rw [← hfront, visible, List.filter_append, ← hleft]
            rfl
          have hsuffice' : NumbersSuffice fs'.inodeAutogenerated
              fs'.inodeNumber rest := by
            rw [← hfront] at hsuffice
            have hbehind := hsuffice.append
            rw [hsplit, List.length_append] at hcount
            have hnumber : fs'.inodeNumber = fs.inodeNumber
                + if fs.inodeAutogenerated then (visible front).length
                  else 0 := by
              by_cases hgen : fs.inodeAutogenerated = true
              · simp only [if_pos hgen] at hcount ⊢
                omega
              · simp only [if_neg hgen] at hcount ⊢
                omega
            rw [hauto, hnumber]
            exact hbehind
          obtain ⟨pages, fs'', hpaged, hrestShown⟩ :=
            ih _ hless (fun k => accepts (k + 1)) fs' pos' last.offset rest
              (by rw [hdirs]; exact hopen) (fun k => hcap (k + 1)) hpos'
              hrest hsuffice'
              (by
                rw [hauto, hleft]
                exact fun e he => hnumbered e
                  (hseen ▸ List.mem_append_right _ he)) rfl
          refine ⟨page :: pages, fs'', .page hcall hend hpaged, ?_⟩
          rw [List.flatten_cons, hseen, ← hleft]
          rw [hauto] at hrestShown
          exact List.rel_append hshown hrestShown

/-- Whatever room the replies have, as long as one entry fits: the pages
of a directory that can be listed are its visible entries, each once and
in order, while there are numbers for them. -/
theorem readdir_paged (hserve : host.reader.Serves src) {fh : ℕ}
    (hopen : fs.openDirectories fh = some dir)
    (hok : ∀ n o,
      item host.build host.reader host.fuel dir fs.file n = some o →
      ∃ entry, o = .ok entry
        ∧ (fs.inodeAutogenerated = false → entry.inode ≠ none))
    {accepts : ℕ → Capacity} (hcap : ∀ k d, accepts k [] d = true) :
    ∃ entries,
      (∀ n, item host.build host.reader host.fuel dir fs.file n
          = (entries[n]?).map .ok)
        ∧ (NumbersLast fs (visible entries).length →
          ∃ pages fs', Paged host fh accepts fs 0 pages fs'
            ∧ List.Forall₂ (Shows fs.inodeAutogenerated) pages.flatten
              (visible entries)) := by
  simp only [item_eq hserve] at hok ⊢
  obtain ⟨entries, hyields⟩ : ∃ entries, Cursor.Yields
      (entryAt host.build src host.fuel dir) (some 0) entries := by
    refine Cursor.exists_yields entryAt_measure 0 fun n o ho => ?_
    obtain ⟨entry, hentry, -⟩ := hok n o ho
    exact ⟨entry, hentry⟩
  refine ⟨entries, hyields, fun hlast => ?_⟩
  have hnumbered : Numbered fs.inodeAutogenerated entries := by
    intro entry hmem hauto
    obtain ⟨n, hn⟩ := List.mem_iff_getElem?.mp hmem
    obtain ⟨entry', heq, hino⟩ := hok n (.ok entry) (by
      rw [hyields n, hn]
      rfl)
    injection heq with heq
    rw [heq]
    exact hino hauto
  exact paged_visible hserve _ accepts fs (some 0) 0 entries hopen hcap rfl
    hyields (numbersSuffice_of_lt entries _ hlast)
    (fun entry hmem => hnumbered entry (List.mem_of_mem_filter hmem)) rfl

-- ====================================================== out of numbers

/-- The disc with the files `A` and `a`, which has no serial numbers. -/
def lettersHost : Host Unit := hostOf lettersBlock.buffer

theorem letters_yields : Cursor.Yields
    (entryAt quietBuild (discOf lettersBlock.buffer) 20 discRoot) (some 0)
    [upperRecord.entry, lowerRecord.entry] := by
  have hfirst : entryAt quietBuild (discOf lettersBlock.buffer) 20 discRoot 0
      = .ok (upperRecord.entry, some 34) := by decide +kernel
  have hsecond : entryAt quietBuild (discOf lettersBlock.buffer) 20 discRoot
      34 = .ok (lowerRecord.entry, none) := by decide +kernel
  exact (Cursor.yields_nil.cons hsecond).cons hfirst

theorem letters_item : ∀ n, item quietBuild
    (discOf lettersBlock.buffer).reader 20 discRoot () n
      = ([upperRecord.entry, lowerRecord.entry][n]?).map .ok := by
  intro n
  rw [item_eq (discOf lettersBlock.buffer).reader_serves]
  exact letters_yields n

/-- The state with the root open and so many numbers given out. -/
structure Looked (k : ℕ) (fs : ISOFuse Unit) : Prop where
  inodeNumber : fs.inodeNumber = FUSE_ROOT_ID + 1 + k
  generated : fs.inodeAutogenerated = true
  root : fs.inodes FUSE_ROOT_ID = some (.directory discRoot)
  open_root : fs.openDirectories 0 = some discRoot

/-- A lookup of `A` takes one number. -/
theorem Looked.lookup {k : ℕ} {fs : ISOFuse Unit} (h : Looked k fs)
    (hk : FUSE_ROOT_ID + 1 + k < u64Max) :
    (fs.serve lettersHost (.lookup 1 [0x41])).1.Returned
      ∧ Looked (k + 1) (fs.serve lettersHost (.lookup 1 [0x41])).2 := by
  have hfind : find lettersHost.build lettersHost.reader lettersHost.fuel
      discRoot "A" fs.file = (.ok (some upperRecord.entry), ()) :=
    Prod.ext (find_eq (by decide) letters_item "A") (Subsingleton.elim _ _)
  have hino : fs.numberFor upperRecord.entry = .ok fs.inodeNumber := by
    unfold numberFor
    rw [if_pos h.generated]
  rcases getFileattr_cases lettersHost fs.inodeNumber upperRecord.entry with
    ⟨attr, hattr, heq, -⟩ | ⟨-, hno⟩
  · rw [← heq] at hattr hino
    have hcall : fs.serve lettersHost (.lookup 1 [0x41])
        = (.ok (.entry attr),
          { fs with
            inodes := Function.update fs.inodes attr.ino
              (some upperRecord.entry)
            inodeNumber := fs.inodeNumber + 1 }) :=
      (lookup_found h.root (by rw [h.inodeNumber]; omega)
        (by decide +kernel : fromUtf8 [0x41] = some "A") hfind hino
        hattr).trans (congrArg (Prod.mk _) (if_pos h.generated))
    rw [hcall]
    refine ⟨trivial, ?_, h.generated, ?_, h.open_root⟩
    · show fs.inodeNumber + 1 = _
      rw [h.inodeNumber]
      omega
    · show Function.update fs.inodes attr.ino _ FUSE_ROOT_ID = _
      rw [Function.update_of_ne (by rw [heq, h.inodeNumber]; omega)]
      exact h.root
  · exact absurd (fun _ => by decide) hno

/-- Any number of numbers can be given out. -/
theorem looked_run {fs₀ fs : ISOFuse Unit} {log : Log}
    (hrun : AnyRun lettersHost fs₀ log fs) (h : Looked 0 fs) (k : ℕ)
    (hk : FUSE_ROOT_ID + 1 + k ≤ u64Max) :
    ∃ log fs, AnyRun lettersHost fs₀ log fs ∧ Looked k fs := by
  induction k with
  | zero => exact ⟨log, fs, hrun, h⟩
  | succ k ih =>
      obtain ⟨log, fs, hrun, h⟩ := ih (by omega)
      obtain ⟨hreturned, hnext⟩ := h.lookup (by omega)
      exact ⟨_, _, .serve _ hrun trivial hreturned, hnext⟩

/-- After `2 ^ 64 - 3` lookups the two files are not listed any more. -/
theorem readdir_numbers_out : ∃ fs₀ log fs,
    ISOFuse.new lettersHost () = .ok fs₀
      ∧ AnyRun lettersHost fs₀ log fs
      ∧ fs.openDirectories 0 = some discRoot
      ∧ (∀ n, item quietBuild lettersHost.reader 20 discRoot fs.file n
        = ([upperRecord.entry, lowerRecord.entry][n]?).map .ok)
      ∧ ∀ accepts, (readdir lettersHost fs 0 0 (accepts 0)).1 = .err .ENFILE
        ∧ ¬ ∃ pages fs', Paged lettersHost 0 accepts fs 0 pages fs' := by
  have hcheck : (mountOf lettersBlock.buffer).isOkAnd (fun fs =>
      decide (fs.inodeNumber = 2 ∧ fs.inodeAutogenerated = true
        ∧ fs.inodes FUSE_ROOT_ID = some (.directory discRoot)
        ∧ fs.directoryNumber = 0)) = true := by decide +kernel
  obtain ⟨fs₀, hmount, htests⟩ := Outcome.exists_of_isOkAnd hcheck
  obtain ⟨hnumber, hauto, hroot, hfirst⟩ := of_decide_eq_true htests
  have hopen : fs₀.serve lettersHost (.opendir FUSE_ROOT_ID)
      = (.ok (.opened 0),
        { fs₀ with
          openDirectories :=
            Function.update fs₀.openDirectories 0 (some discRoot)
          directoryNumber := 1 }) := by
    show fs₀.opendir FUSE_ROOT_ID = _
    unfold opendir
    rw [hroot, hfirst]
    rfl
  have hlooked :
      Looked 0 (fs₀.serve lettersHost (.opendir FUSE_ROOT_ID)).2 := by
    rw [hopen]
    refine ⟨hnumber, hauto, hroot, ?_⟩
    show Function.update fs₀.openDirectories 0 (some discRoot) 0 = _
    rw [Function.update_self]
  obtain ⟨log, fs, hrun, h⟩ := looked_run
    (.serve _ .start trivial (by rw [hopen]; trivial)) hlooked (u64Max - 2)
    (by decide)
  have hout : ∀ accepts : Capacity,
      (readdir lettersHost fs 0 0 accepts).1 = .err .ENFILE := by
    intro accepts
    unfold readdir
    rw [h.open_root]
    dsimp only
    rw [if_neg (by decide), if_neg (by decide)]
    exact readdirLoop_out h.inodeNumber
  refine ⟨fs₀, log, fs, (new_hostOf _).trans hmount, hrun, h.open_root,
    letters_item, fun accepts => ⟨hout _, ?_⟩⟩
  rintro ⟨pages, fs', hpaged⟩
  cases hpaged with
  | last hcall | page hcall =>
      have := hout (accepts 0)
      rw [hcall] at this
      cases this

/-- The root of that disc, open. -/
def lettersOpen : ISOFuse Unit :=
  { mounted () discRoot true with
    openDirectories := fun _ => some discRoot }

/-- Replies with room for one entry. -/
def oneEach : ℕ → Capacity := fun _ listing _ => listing.isEmpty

/-- Its two files are listed on pages of one entry. -/
theorem readdir_paged_letters : ∃ pages fs',
    Paged lettersHost 0 oneEach lettersOpen 0 pages fs'
      ∧ pages.flatten.map Dirent.name = ["A", "a"] := by
  have hopen : lettersOpen.openDirectories 0 = some discRoot := rfl
  have hserve : lettersHost.reader.Serves (discOf lettersBlock.buffer) :=
    (discOf lettersBlock.buffer).reader_serves
  have hcap : ∀ k d, oneEach k [] d = true := fun _ _ => rfl
  obtain ⟨entries, hentries, hpaged⟩ := readdir_paged hserve hopen
    (fun n o ho => by
      have hitem := (letters_item n).symm.trans ho
      rw [Option.map_eq_some_iff] at hitem
      obtain ⟨entry, -, rfl⟩ := hitem
      exact ⟨entry, rfl, fun h => nomatch h⟩) hcap
  have heq : entries = [upperRecord.entry, lowerRecord.entry] := by
    apply List.ext_getElem?
    intro n
    have hn := (hentries n).symm.trans (letters_item n)
    exact Option.map_injective (fun _ _ h => Outcome.ok.inj h) hn
  subst heq
  have hvisible : visible [upperRecord.entry, lowerRecord.entry]
      = [upperRecord.entry, lowerRecord.entry] := by decide
  rw [hvisible] at hpaged
  obtain ⟨pages, fs', hpages, hshows⟩ := hpaged (by
    show 2 + 2 < u64Max
    decide)
  refine ⟨pages, fs', hpages, ?_⟩
  rw [Shows.names hshows]
  decide

end Cdfs
