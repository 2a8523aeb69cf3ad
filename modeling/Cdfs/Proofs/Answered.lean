/-
Which requests are answered. A handler that panics ends the process, and
there are three ways to get there: a lookup by a name that is not text, an
entry without a serial number where the numbers are those of the disc, and
a size whose blocks cannot be counted in 32 bits. As long as the library
returns, these are all (`answered_iff`): each request of a sequence is
answered exactly if none of the three is met (`Answerable`).

The loop of `readdir` is followed by `Comes`. That it has turns enough is
because the offsets grow (`readEntryAt_progress`).
-/
import Cdfs.Proofs.PagedListing

namespace Cdfs

open Rust Parse Numbering Service ISOFuse

variable {σ : Type} {host : Host σ} {fs : ISOFuse σ}

-- ============================================================== conditions

/-- A handler comes back, and only `forget` comes back without a reply. -/
structure Answered (host : Host σ) (fs : ISOFuse σ) (q : Request) : Prop where
  returned : (fs.serve host q).1.Returned
  replied : (fs.serve host q).1 = .ok .silent →
    ∃ ino nlookup, q = .forget ino nlookup

/-- The loop of `readdir` comes to a call of `read_entry_at` whose result
has a property. -/
inductive Comes (host : Host σ) (dir : ISODirectory) (accepts : Capacity)
    (P : ISOFuse σ → Outcome ISOError (DirectoryEntry × Option ℕ) → Prop) :
    ISOFuse σ → BlockCache → ℕ → List Dirent → Prop
  | here {fs : ISOFuse σ} {cache : BlockCache} {offset : ℕ}
      {listing : List Dirent} :
      fs.inodeNumber ≠ u64Max →
      P fs (readEntryAt host.build host.reader host.fuel dir cache offset
        fs.file).1 →
      Comes host dir accepts P fs cache offset listing
  | hidden {fs : ISOFuse σ} {cache cache' : BlockCache} {offset offset' : ℕ}
      {listing : List Dirent} {entry : DirectoryEntry} {file : σ} :
      fs.inodeNumber ≠ u64Max →
      readEntryAt host.build host.reader host.fuel dir cache offset fs.file
        = (.ok (entry, some offset'), cache', file) →
      entry.relocated = true →
      Comes host dir accepts P { fs with file } cache' offset' listing →
      Comes host dir accepts P fs cache offset listing
  | listed {fs : ISOFuse σ} {cache cache' : BlockCache} {offset offset' : ℕ}
      {listing : List Dirent} {entry : DirectoryEntry} {file : σ} {n : ℕ}
      {cookie : Int64} :
      fs.inodeNumber ≠ u64Max →
      readEntryAt host.build host.reader host.fuel dir cache offset fs.file
        = (.ok (entry, some offset'), cache', file) →
      entry.relocated = false →
      fs.numberFor entry = .ok n →
      fuseOffset (some offset') = some cookie →
      accepts listing (dirent n cookie entry) = true →
      Comes host dir accepts P (({ fs with file }).listed n entry) cache'
        offset' (listing ++ [dirent n cookie entry]) →
      Comes host dir accepts P fs cache offset listing

/-- A call that does not return. -/
def Hangs (_ : ISOFuse σ) (r : Outcome ISOError (DirectoryEntry × Option ℕ)) :
    Prop :=
  ¬ r.Returned

/-- An entry that is to be listed and has no number. -/
def Numberless (fs : ISOFuse σ)
    (r : Outcome ISOError (DirectoryEntry × Option ℕ)) : Prop :=
  ∃ entry next, r = .ok (entry, next) ∧ entry.relocated = false
    ∧ ¬ HasNumber fs entry

/-- The calls of the library that a request makes return. -/
def LibraryReturns (host : Host σ) (fs : ISOFuse σ) : Request → Prop
  | .lookup parent name => ∀ dir text,
      fs.inodes parent = some (.directory dir) →
      fromUtf8 name = some text →
      (find host.build host.reader host.fuel dir text fs.file).1.Returned
  | .read fh offset size => ∀ r, fs.openFiles fh = some r →
      0 ≤ offset.toInt → (readAt host r offset size fs.file).result.Returned
  | .readdir fh offset accepts => ∀ dir,
      fs.openDirectories fh = some dir → 0 ≤ offset.toInt →
      ¬ Comes host dir accepts Hangs fs BlockCache.new offset.toInt.toNat []
  | _ => True

/-- The three ways are not met: names that are looked up are text, what is
found and what is listed has a number, and the blocks of what attributes
are asked for can be counted. -/
def Answerable (host : Host σ) (fs : ISOFuse σ) : Request → Prop
  | .lookup parent name => ∀ dir,
      fs.inodes parent = some (.directory dir) → fs.inodeNumber ≠ u64Max →
      ∃ text, fromUtf8 name = some text
        ∧ ∀ entry, (find host.build host.reader host.fuel dir text
            fs.file).1 = .ok (some entry) →
          HasNumber fs entry ∧ Countable host entry
  | .getattr ino => ∀ entry, fs.inodes ino = some entry →
      Countable host entry
  | .readdir fh offset accepts => ∀ dir,
      fs.openDirectories fh = some dir → 0 ≤ offset.toInt →
      ¬ Comes host dir accepts Numberless fs BlockCache.new
        offset.toInt.toNat []
  | _ => True

-- ================================================================ the loop

theorem numberFor_panic_iff {entry : DirectoryEntry} :
    fs.numberFor entry = .panic ↔ ¬ HasNumber fs entry := by
  unfold HasNumber
  rw [numberFor_eq_panic, Classical.not_imp, not_not]

theorem hasNumber_of_ok {entry : DirectoryEntry} {n : ℕ}
    (h : fs.numberFor entry = .ok n) : HasNumber fs entry := by
  by_contra hno
  rw [numberFor_panic_iff.mpr hno] at h
  cases h

/-- With the call at hand: it has the property, or the loop goes on behind
it. -/
theorem comes_iff {dir : ISODirectory} {accepts : Capacity}
    {P : ISOFuse σ → Outcome ISOError (DirectoryEntry × Option ℕ) → Prop}
    {cache cache' : BlockCache} {offset : ℕ} {listing : List Dirent}
    {r : Outcome ISOError (DirectoryEntry × Option ℕ)} {file : σ}
    (hmax : fs.inodeNumber ≠ u64Max)
    (hcall : readEntryAt host.build host.reader host.fuel dir cache offset
      fs.file = (r, cache', file)) :
    Comes host dir accepts P fs cache offset listing
      ↔ P fs r ∨ ∃ entry offset', r = .ok (entry, some offset')
        ∧ (entry.relocated = true
            ∧ Comes host dir accepts P { fs with file } cache' offset' listing
          ∨ entry.relocated = false ∧ ∃ n cookie, fs.numberFor entry = .ok n
            ∧ fuseOffset (some offset') = some cookie
            ∧ accepts listing (dirent n cookie entry) = true
            ∧ Comes host dir accepts P (({ fs with file }).listed n entry)
              cache' offset' (listing ++ [dirent n cookie entry])) := by
  constructor
  · intro h
    cases h with
    | here _ hp =>
        rw [hcall] at hp
        exact Or.inl hp
    | hidden _ hcall' hrel hrest =>
        rw [hcall] at hcall'
        injection hcall' with hr hcall'
        injection hcall' with hcache hfile
        subst hr hcache hfile
        exact Or.inr ⟨_, _, rfl, Or.inl ⟨hrel, hrest⟩⟩
    | listed _ hcall' hrel hnumber hcookie hfits hrest =>
        rw [hcall] at hcall'
        injection hcall' with hr hcall'
        injection hcall' with hcache hfile
        subst hr hcache hfile
        exact Or.inr ⟨_, _, rfl,
          Or.inr ⟨hrel, _, _, hnumber, hcookie, hfits, hrest⟩⟩
  · rintro (hp | ⟨entry, offset', rfl, ⟨hrel, hrest⟩ |
      ⟨hrel, n, cookie, hnumber, hcookie, hfits, hrest⟩⟩)
    · exact .here hmax (by rw [hcall]; exact hp)
    · exact .hidden hmax hcall hrel hrest
    · exact .listed hmax hcall hrel hnumber hcookie hfits hrest

/-- The loop is answered unless it comes to an entry without a number. -/
theorem readdirLoop_answered {dir : ISODirectory} {accepts : Capacity}
    (turns : ℕ) :
    ∀ (fs : ISOFuse σ) (cache : BlockCache) (offset : ℕ)
      (listing : List Dirent), 2 ^ 32 - 1 - offset < turns →
      ¬ Comes host dir accepts Hangs fs cache offset listing →
      ((readdirLoop host dir accepts turns fs cache offset listing).1.Returned
        ↔ ¬ Comes host dir accepts Numberless fs cache offset listing) := by
  induction turns with
  | zero => exact fun _ _ _ _ h => absurd h (Nat.not_lt_zero _)
  | succ turns ih =>
      intro fs cache offset listing hturns hreturns
      -- behind the entry
      have hfrom : ∀ (fs' : ISOFuse σ) (cache' : BlockCache)
          (next : Option ℕ) (listing' : List Dirent),
          (∀ offset', next = some offset' →
            (offset < offset' ∧ offset' < 2 ^ 32)
            ∧ ¬ Comes host dir accepts Hangs fs' cache' offset' listing') →
          ((readdirFrom host dir accepts turns fs' cache' next
              listing').1.Returned
            ↔ ∀ offset', next = some offset' →
              ¬ Comes host dir accepts Numberless fs' cache' offset'
                listing') := by
        intro fs' cache' next listing' hnext
        cases next with
        | none => exact iff_of_true trivial fun _ h => nomatch h
        | some offset' =>
            obtain ⟨hless, hlib⟩ := hnext offset' rfl
            refine (ih fs' cache' offset' listing' (by omega) hlib).trans ?_
            simp
      have hturn := readdirLoop_turn host dir accepts turns fs cache offset
        listing
      generalize readdirLoop host dir accepts (turns + 1) fs cache offset
        listing = result at hturn ⊢
      cases hturn with
      | out hmax =>
          refine iff_of_true trivial fun hcomes => ?_
          cases hcomes with
          | here hne | hidden hne | listed hne => exact hne hmax
      | @failed r _ _ a hmax hcall hno hreturned =>
          rw [comes_iff hmax hcall, not_or] at hreturns
          have hr : r.Returned := not_not.mp hreturns.1
          refine iff_of_true (hreturned.mpr hr) ?_
          rw [comes_iff hmax hcall]
          rintro (⟨_, _, h, -⟩ | ⟨_, _, h, -⟩)
          · exact hno _ h
          · exact hno _ h
      | @hidden entry next cache' file hmax hcall hrel =>
          rw [comes_iff hmax hcall] at hreturns ⊢
          refine (hfrom { fs with file } cache' next listing ?_).trans ?_
          · rintro offset' rfl
            exact ⟨readEntryAt_progress hcall, fun h => hreturns
              (Or.inr ⟨entry, offset', rfl, Or.inl ⟨hrel, h⟩⟩)⟩
          · cases next with
            | none => simp [Numberless, hrel]
            | some offset' => simp [Numberless, hrel]
      | numberless hmax hcall hrel hpanic =>
          rw [comes_iff hmax hcall]
          refine iff_of_false id (not_not.mpr (Or.inl ?_))
          exact ⟨_, _, rfl, hrel, numberFor_panic_iff.mp hpanic⟩
      | full hmax hcall hrel hn hcookie hfits =>
          rw [comes_iff hmax hcall]
          refine iff_of_true trivial ?_
          have hnumber := hasNumber_of_ok hn
          rintro (⟨_, _, ⟨⟩, -, hno⟩ | ⟨_, offset', ⟨⟩,
            ⟨hyes, -⟩ | ⟨-, m, cookie', hm, hcookie', hfits', -⟩⟩)
          · exact hno hnumber
          · rw [hrel] at hyes
            cases hyes
          · cases hn.symm.trans hm
            cases hcookie.symm.trans hcookie'
            rw [hfits] at hfits'
            cases hfits'
      | @listed entry next cache' file n cookie hmax hcall hrel hn hcookie
          hfits =>
          rw [comes_iff hmax hcall] at hreturns ⊢
          have hnumber := hasNumber_of_ok hn
          refine (hfrom _ cache' next _ ?_).trans ?_
          · rintro offset' rfl
            exact ⟨readEntryAt_progress hcall, fun h => hreturns
              (Or.inr ⟨entry, offset', rfl, Or.inr
                ⟨hrel, n, cookie, hn, hcookie, hfits, h⟩⟩)⟩
          · cases next with
            | none => simp [Numberless, hnumber]
            | some offset' =>
                simp [Numberless, hnumber, hrel, hn, hcookie, hfits]

-- ============================================================ the handlers

/-- A lookup whose search returns. -/
theorem lookup_answered {parent : ℕ} {name : List UInt8}
    (hlib : LibraryReturns host fs (.lookup parent name)) :
    (lookup host fs parent name).1.Returned
      ↔ Answerable host fs (.lookup parent name) := by
  unfold lookup Answerable
  dsimp only
  cases hdir : fs.inodes parent with
  | none => exact iff_of_true trivial fun _ h => nomatch h
  | some entry =>
      cases entry with
      | file | symlink => exact iff_of_true trivial fun _ h => nomatch h
      | directory dir =>
          dsimp only
          by_cases hmax : fs.inodeNumber = u64Max
          · rw [if_pos hmax]
            exact iff_of_true trivial fun _ _ h => absurd hmax h
          · rw [if_neg hmax]
            cases htext : fromUtf8 name with
            | none =>
                refine iff_of_false id fun h => ?_
                obtain ⟨_, h, -⟩ := h dir rfl hmax
                cases h
            | some text =>
                have hreturned := hlib dir text hdir htext
                have hthis : (∀ dir', some (DirectoryEntry.directory dir)
                      = some (.directory dir') → fs.inodeNumber ≠ u64Max →
                      ∃ text', some text = some text' ∧ ∀ entry,
                        (find host.build host.reader host.fuel dir' text'
                          fs.file).1 = .ok (some entry) →
                        HasNumber fs entry ∧ Countable host entry)
                    ↔ ∀ entry, (find host.build host.reader host.fuel dir
                        text fs.file).1 = .ok (some entry) →
                      HasNumber fs entry ∧ Countable host entry := by
                  constructor
                  · intro h
                    obtain ⟨_, ⟨⟩, h⟩ := h dir rfl hmax
                    exact h
                  · rintro h _ ⟨⟩ _
                    exact ⟨text, rfl, h⟩
                rw [hthis]
                dsimp only
                rcases hfind : find host.build host.reader host.fuel dir text
                  fs.file with ⟨r, file⟩
                rw [hfind] at hreturned
                cases r with
                | panic | running => exact hreturned.elim
                | err e => exact iff_of_true trivial fun _ h => nomatch h
                | ok found =>
                    cases found with
                    | none => exact iff_of_true trivial fun _ h => nomatch h
                    | some entry =>
                        dsimp only
                        rcases fs.numberFor_cases entry with ⟨n, hn, -⟩ |
                          ⟨hpanic, -⟩
                        · have hnumber := hasNumber_of_ok hn
                          rw [numberFor_file, hn]
                          dsimp only
                          rcases getFileattr_cases host n entry with
                            ⟨attr, hattr, -, hcount⟩ | ⟨hattr, hcount⟩
                          · rw [hattr]
                            refine iff_of_true trivial ?_
                            rintro _ ⟨⟩
                            exact ⟨hnumber, hcount⟩
                          · rw [hattr]
                            exact iff_of_false id fun h =>
                              hcount (h entry rfl).2
                        · rw [numberFor_file, hpanic]
                          exact iff_of_false id fun h =>
                            numberFor_panic_iff.mp hpanic (h entry rfl).1

/-- An error, or a reply. -/
def Replies (a : Outcome Errno Reply) : Prop :=
  (∃ e, a = .err e) ∨ ∃ reply, a = .ok reply ∧ reply ≠ .silent

theorem Replies.returned {a : Outcome Errno Reply} (h : Replies a) :
    a.Returned := by
  rcases h with ⟨_, rfl⟩ | ⟨_, rfl, -⟩
  · trivial
  · trivial

theorem Replies.ne_silent {a : Outcome Errno Reply} (h : Replies a) :
    a ≠ .ok .silent := by
  rcases h with ⟨_, rfl⟩ | ⟨_, rfl, hne⟩
  · intro h
    cases h
  · intro h
    injection h with h
    exact hne h

/-- The requests that the tables are enough for. -/
def immediate : Request → Bool
  | .readlink _ | .openFile _ | .release _ => true
  | .opendir _ | .getxattr | .releasedir _ => true
  | _ => false

/-- These are always replied to. -/
theorem serve_replies (host : Host σ) (fs : ISOFuse σ) {q : Request}
    (hq : immediate q = true) : Replies (fs.serve host q).1 := by
  have herr : ∀ e, Replies (.err e) := fun e => Or.inl ⟨e, rfl⟩
  have hok : ∀ reply, reply ≠ .silent → Replies (.ok reply) :=
    fun reply hne => Or.inr ⟨reply, rfl, hne⟩
  cases q with
  | lookup | forget | getattr | read | readdir => cases hq
  | getxattr => exact herr _
  | readlink ino =>
      show Replies (fs.readlink ino)
      rcases fs.readlink_cases ino with ⟨e, h⟩ | ⟨_, h⟩
      · rw [h]
        exact herr e
      · rw [h]
        exact hok _ Reply.noConfusion
  | openFile ino =>
      show Replies (fs.openFile ino).1
      rcases fs.openFile_cases ino with ⟨e, h, -⟩ | ⟨_, -, h⟩
      · rw [h]
        exact herr e
      · rw [h]
        exact hok _ Reply.noConfusion
  | opendir ino =>
      show Replies (fs.opendir ino).1
      rcases fs.opendir_cases ino with ⟨e, h, -⟩ | ⟨_, -, h⟩
      · rw [h]
        exact herr e
      · rw [h]
        exact hok _ Reply.noConfusion
  | release fh =>
      show Replies (fs.release fh).1
      rcases fs.release_cases fh with ⟨e, h⟩ | h
      · rw [h]
        exact herr e
      · rw [h]
        exact hok _ Reply.noConfusion
  | releasedir fh =>
      show Replies (fs.releasedir fh).1
      rcases fs.releasedir_cases fh with ⟨e, h⟩ | h
      · rw [h]
        exact herr e
      · rw [h]
        exact hok _ Reply.noConfusion

/-- What a read returns is in its buffer. -/
theorem dataReply_answered (r : ISOFileReader) (offset : Int64)
    (size : UInt32) (s : σ)
    (h : (readAt host r offset size s).result.Returned) :
    (dataReply (readAt host r offset size s)).Returned := by
  unfold dataReply
  cases hresult : (readAt host r offset size s).result with
  | ok count =>
      have hle : count ≤ (readAt host r offset size s).buf.length :=
        ISOFileReader.readLoop_length _ _ _ [] _ s rfl hresult
      dsimp only
      rw [if_pos hle]
      trivial
  | err e => trivial
  | panic | running =>
      rw [hresult] at h
      exact h

/-- A request is answered exactly if none of the three ways is met. -/
theorem serve_answered_iff {q : Request} (hlib : LibraryReturns host fs q) :
    (fs.serve host q).1.Returned ↔ Answerable host fs q := by
  cases q with
  | lookup parent name => exact lookup_answered hlib
  | forget => exact iff_of_true trivial trivial
  | getattr ino =>
      show (getattr host fs ino).Returned ↔ _
      unfold getattr Answerable
      dsimp only
      cases hino : fs.inodes ino with
      | none => exact iff_of_true trivial fun _ h => nomatch h
      | some entry =>
          dsimp only
          rcases getFileattr_cases host ino entry with
            ⟨attr, hattr, -, hcount⟩ | ⟨hattr, hcount⟩
          · rw [hattr]
            refine iff_of_true trivial fun _ h => ?_
            injection h with h
            exact h ▸ hcount
          · rw [hattr]
            exact iff_of_false id fun h => hcount (h entry rfl)
  | readlink | openFile | opendir | release | releasedir | getxattr =>
      exact iff_of_true (serve_replies host fs rfl).returned trivial
  | read fh offset size =>
      refine iff_of_true ?_ trivial
      show (ISOFuse.read host fs fh offset size).1.Returned
      rcases read_cases host fs fh offset size with ⟨hcall, -⟩ |
        ⟨r, hpos, hr, hcall⟩
      · rw [hcall]
        trivial
      · rw [hcall]
        exact dataReply_answered r offset size fs.file (hlib r hr hpos)
  | readdir fh offset accepts =>
      show (readdir host fs fh offset accepts).1.Returned ↔ _
      unfold readdir Answerable
      dsimp only
      cases hdir : fs.openDirectories fh with
      | none => exact iff_of_true trivial fun _ h => nomatch h
      | some dir =>
          dsimp only
          by_cases hneg : offset.toInt < 0
          · have hanswered : (if offset = -1
                then ((.ok (.directory []), fs) : Outcome Errno Reply × _)
                else if offset.toInt < 0 then (.err .EINVAL, fs)
                else readdirLoop host dir accepts (2 ^ 32 + 1) fs
                  BlockCache.new offset.toInt.toNat []).1.Returned := by
              split
              · trivial
              · trivial
            exact iff_of_true hanswered fun _ _ h => absurd hneg (by omega)
          · have hend : offset ≠ -1 := by
              rintro rfl
              exact hneg (by decide)
            have hloop := readdirLoop_answered (2 ^ 32 + 1) fs
              BlockCache.new offset.toInt.toNat [] (by omega)
              (hlib dir hdir (by omega))
            rw [if_neg hend, if_neg hneg, hloop]
            constructor
            · intro h dir' heq _
              injection heq with heq
              exact heq ▸ h
            · exact fun h => h dir rfl (by omega)

theorem readdirLoop_ne_silent {dir : ISODirectory} {accepts : Capacity}
    (turns : ℕ) :
    ∀ (fs : ISOFuse σ) (cache : BlockCache) (offset : ℕ)
      (listing : List Dirent),
      (readdirLoop host dir accepts turns fs cache offset listing).1
        ≠ .ok .silent := by
  induction turns with
  | zero =>
      intro _ _ _ _ h
      cases h
  | succ turns ih =>
      intro fs cache offset listing
      have hfrom : ∀ fs cache next listing,
          (readdirFrom host dir accepts turns fs cache next listing).1
            ≠ .ok .silent := by
        intro fs cache next listing
        cases next with
        | none =>
            intro h
            cases h
        | some offset' => exact ih fs cache offset' listing
      have hturn := readdirLoop_turn host dir accepts turns fs cache offset
        listing
      generalize readdirLoop host dir accepts (turns + 1) fs cache offset
        listing = result at hturn ⊢
      cases hturn with
      | out | numberless | full =>
          intro h
          cases h
      | failed _ _ _ _ hno => exact hno .silent
      | hidden | listed => exact hfrom _ _ _ _

/-- Every handler but that of `forget` replies when it comes back. -/
theorem forget_of_silent {q : Request}
    (h : (fs.serve host q).1 = .ok .silent) :
    ∃ ino nlookup, q = .forget ino nlookup := by
  cases q with
  | forget ino nlookup => exact ⟨ino, nlookup, rfl⟩
  | lookup parent name =>
      change (lookup host fs parent name).1 = _ at h
      rcases lookup_cases host fs parent name with ⟨-, hno, -⟩ |
        ⟨_, _, _, _, _, -, -, -, -, -, -, hcall⟩
      · exact absurd h (hno _)
      · rw [hcall] at h
        cases h
  | getattr ino =>
      change getattr host fs ino = _ at h
      unfold getattr at h
      split at h
      · cases h
      · rcases getFileattr_cases host ino _ with ⟨attr, hattr, -⟩ |
          ⟨hattr, -⟩
        · rw [hattr] at h
          cases h
        · rw [hattr] at h
          cases h
  | readlink | openFile | opendir | release | releasedir | getxattr =>
      exact absurd h (serve_replies host fs rfl).ne_silent
  | read fh offset size =>
      change (ISOFuse.read host fs fh offset size).1 = _ at h
      rcases read_cases host fs fh offset size with ⟨hcall, -⟩ |
        ⟨r, -, -, hcall⟩
      · rw [hcall] at h
        cases h
      · rw [hcall] at h
        change dataReply _ = _ at h
        unfold dataReply at h
        split at h
        · split at h
          · cases h
          · cases h
        all_goals cases h
  | readdir fh offset accepts =>
      change (readdir host fs fh offset accepts).1 = _ at h
      unfold readdir at h
      split at h
      · cases h
      · split at h
        · cases h
        · split at h
          · cases h
          · exact absurd h (readdirLoop_ne_silent _ _ _ _ _)

/-- Of any sequence of requests, from any state, and as long as the
library returns: each is answered, with one reply, exactly if none of the
three ways is met. -/
theorem answered_iff (qs : List Request)
    (hlib : Each (serve host) (LibraryReturns host) fs qs) :
    Each (serve host) (Answered host) fs qs
      ↔ Each (serve host) (Answerable host) fs qs :=
  Each.iff (fun _ _ hlib => ⟨fun h => (serve_answered_iff hlib).mp h.returned,
    fun h => ⟨(serve_answered_iff hlib).mpr h, forget_of_silent⟩⟩) qs fs hlib

-- =========================================================== no reply

theorem libraryReturns_lookup {parent : ℕ} {name : List UInt8}
    {dir : ISODirectory} {text : String}
    (hdir : fs.inodes parent = some (.directory dir))
    (htext : fromUtf8 name = some text)
    (hfind : (find host.build host.reader host.fuel dir text
      fs.file).1.Returned) :
    LibraryReturns host fs (.lookup parent name) := by
  intro dir' text' hdir' htext'
  rw [hdir] at hdir'
  rw [htext] at htext'
  cases hdir'
  cases htext'
  exact hfind

/-- The directory itself, with Rock Ridge and a serial number, and a file
`A` without either. -/
def numberlessBlock : BlockBuffer :=
  BlockBuffer.new.overwrite
    ([96, 0, 18, 0, 0, 0, 0, 0, 0, 18, 0, 8, 0, 0, 0, 0, 8, 0,
      100, 1, 1, 0, 0, 0, 0, 2, 0, 0, 1, 0, 0, 1, 1, 0]
      ++ [0x45, 0x52, 18, 1, 10, 0, 0, 1] ++ asBytes "RRIP_1991A"
      ++ pxBytes 0o040755 7
      ++ [34, 0, 21, 0, 0, 0, 0, 0, 0, 21, 0, 0, 0, 0, 0, 0, 0, 0,
        100, 1, 1, 0, 0, 0, 0, 0, 0, 0, 1, 0, 0, 1, 1, 0x41])

/-- There is no reply to a lookup of a name that is not text, nor to one
of `A`. -/
theorem lookup_unanswered : ∃ fs₀,
    ISOFuse.new (hostOf numberlessBlock) () = .ok fs₀
      ∧ ∀ name ∈ ([[0xFF], [0x41]] : List (List UInt8)),
        0 ∉ name ∧ 0x2F ∉ name
          ∧ LibraryReturns (hostOf numberlessBlock) fs₀ (.lookup 1 name)
          ∧ ¬ Answered (hostOf numberlessBlock) fs₀ (.lookup 1 name) := by
  have hcheck : (mountOf numberlessBlock).isOkAnd (fun fs =>
      decide (fs.inodes 1 = some (.directory discRoot))
        && (decide (fs.serve (hostOf numberlessBlock)
            (.lookup 1 [0xFF])).1.Returned == false
          && decide (fs.serve (hostOf numberlessBlock)
            (.lookup 1 [0x41])).1.Returned == false)) = true := by
    decide +kernel
  obtain ⟨fs₀, hmount, htests⟩ := Outcome.exists_of_isOkAnd hcheck
  simp only [Bool.and_eq_true, decide_eq_true_eq, beq_iff_eq,
    decide_eq_false_iff_not] at htests
  obtain ⟨hroot, htext, hnumber⟩ := htests
  refine ⟨fs₀, (new_hostOf _).trans hmount, ?_⟩
  intro name hname
  rcases List.mem_cons.mp hname with rfl | hname
  · refine ⟨by decide, by decide, ?_, fun h => htext h.returned⟩
    intro dir text _ h
    rw [show fromUtf8 [0xFF] = none by decide +kernel] at h
    cases h
  · rw [List.mem_singleton.mp hname]
    have hname : fromUtf8 [0x41] = some "A" := by decide +kernel
    refine ⟨by decide, by decide, libraryReturns_lookup hroot hname ?_,
      fun h => hnumber h.returned⟩
    show (find quietBuild (discOf numberlessBlock).reader 20 discRoot "A"
      ()).1.Returned
    decide +kernel

/-- On the disc with `A` and `a` the root's attributes are given, and `A`
is found. -/
theorem answered_letters : ∃ fs₀,
    ISOFuse.new lettersHost () = .ok fs₀
      ∧ Each (serve lettersHost) (Answered lettersHost) fs₀
        [.getattr 1, .lookup 1 [0x41]] := by
  have hcheck : (mountOf lettersBlock.buffer).isOkAnd (fun fs =>
      decide (fs.inodeAutogenerated = true
        ∧ fs.inodes 1 = some (.directory discRoot))) = true := by
    decide +kernel
  obtain ⟨fs₀, hmount, htests⟩ := Outcome.exists_of_isOkAnd hcheck
  obtain ⟨hauto, hroot⟩ := of_decide_eq_true htests
  have htext : fromUtf8 [0x41] = some "A" := by decide +kernel
  have hfind : (find quietBuild lettersHost.reader 20 discRoot "A" ()).1
      = .ok (some upperRecord.entry) :=
    find_eq (by decide) letters_item "A"
  have hlib : Each (serve lettersHost) (LibraryReturns lettersHost) fs₀
      [.getattr 1, .lookup 1 [0x41]] := by
    refine ⟨trivial, fun _ => ⟨?_, fun _ => trivial⟩⟩
    refine libraryReturns_lookup hroot htext ?_
    show (find quietBuild lettersHost.reader 20 discRoot "A" ()).1.Returned
    rw [hfind]
    trivial
  refine ⟨fs₀, (new_hostOf _).trans hmount, (answered_iff _ hlib).mpr ?_⟩
  refine ⟨?_, fun _ => ⟨?_, fun _ => trivial⟩⟩
  · intro entry hentry
    rw [hroot] at hentry
    cases hentry
    exact fun _ => by decide
  · intro dir hdir _
    rw [show (fs₀.serve lettersHost (.getattr 1)).2.inodes 1 = _
      from hroot] at hdir
    cases hdir
    refine ⟨"A", htext, fun entry hentry => ?_⟩
    cases hfind.symm.trans hentry
    refine ⟨fun h => ?_, fun _ => by decide⟩
    cases hauto.symm.trans h

end Cdfs
