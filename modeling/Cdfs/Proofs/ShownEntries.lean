/-
What a listing shows, as a function of the directory on the disc, of the
room in the reply and of the counter (`shownFrom`). The loop of `readdir`
replies just that, unless it fails on the way, and whether it fails or
not it enters what it has shown by then (`readdir_shown`).
-/
import Cdfs.Proofs.PagedListing

namespace Cdfs

open Rust Parse Numbering Service ISOFuse

variable {σ : Type} {host : Host σ} {src : Source} {fs : ISOFuse σ}
  {dir : ISODirectory}

-- ======================================================== what is shown

/-- The number that an entry is to have, by the counter. -/
def numberAt (auto : Bool) (counter : ℕ) (entry : DirectoryEntry) :
    Option ℕ :=
  if auto then some counter else serial entry

/-- The counter behind an entry. -/
def countOn (auto : Bool) (counter : ℕ) : ℕ :=
  counter + if auto then 1 else 0

/-- The entries that are shown from a position on, on top of a listing,
with what is shown of them. -/
def shownFrom (step : ℕ → Outcome ISOError (DirectoryEntry × Option ℕ))
    (accepts : Capacity) (auto : Bool) :
    ℕ → ℕ → Option ℕ → List Dirent → List (DirectoryEntry × Dirent)
  | 0, _, _, _ => []
  | _ + 1, _, none, _ => []
  | turns + 1, counter, some offset, listing =>
      if counter = u64Max then []
      else
        match step offset with
        | .ok (entry, next) =>
            if entry.relocated then
              shownFrom step accepts auto turns counter next listing
            else
              match fuseOffset next, numberAt auto counter entry with
              | some cookie, some n =>
                  if accepts listing (dirent n cookie entry) then
                    (entry, dirent n cookie entry) ::
                      shownFrom step accepts auto turns
                        (countOn auto counter) next
                        (listing ++ [dirent n cookie entry])
                  else []
              | _, _ => []
        | _ => []

/-- What a request for a listing comes to show. -/
def shown (host : Host σ) (src : Source) (fs : ISOFuse σ) (fh : ℕ)
    (offset : Int64) (accepts : Capacity) :
    List (DirectoryEntry × Dirent) :=
  match fs.openDirectories fh with
  | none => []
  | some dir =>
      if offset.toInt < 0 then []
      else
        shownFrom (entryAt host.build src host.fuel dir) accepts
          fs.inodeAutogenerated (2 ^ 32 + 1) fs.inodeNumber
          (some offset.toInt.toNat) []

section Numbers

variable {step : ℕ → Outcome ISOError (DirectoryEntry × Option ℕ)}
  {accepts : Capacity}

/-- At an entry that is visible and has a number: it is shown if there is
room, and otherwise nothing is. -/
theorem shownFrom_visible {auto : Bool} {turns counter offset n : ℕ}
    {entry : DirectoryEntry} {next : Option ℕ} {cookie : Int64}
    (hmax : counter ≠ u64Max) (hstep : step offset = .ok (entry, next))
    (hrel : entry.relocated = false) (hcookie : fuseOffset next = some cookie)
    (hnum : numberAt auto counter entry = some n) (listing : List Dirent) :
    shownFrom step accepts auto (turns + 1) counter (some offset) listing
      = if accepts listing (dirent n cookie entry) then
          (entry, dirent n cookie entry) ::
            shownFrom step accepts auto turns (countOn auto counter) next
              (listing ++ [dirent n cookie entry])
        else [] := by
  rw [shownFrom, if_neg hmax, hstep]
  dsimp only
  rw [if_neg (by rw [hrel]; exact Bool.false_ne_true), hcookie, hnum]

/-- At one that has none. -/
theorem shownFrom_numberless {auto : Bool} {turns counter offset : ℕ}
    {entry : DirectoryEntry} {next : Option ℕ}
    (hmax : counter ≠ u64Max) (hstep : step offset = .ok (entry, next))
    (hrel : entry.relocated = false)
    (hnum : numberAt auto counter entry = none) (listing : List Dirent) :
    shownFrom step accepts auto (turns + 1) counter (some offset) listing
      = [] := by
  rw [shownFrom, if_neg hmax, hstep]
  dsimp only
  rw [if_neg (by rw [hrel]; exact Bool.false_ne_true), hnum]
  cases fuseOffset next with
  | none | some => rfl

/-- The numbers shown are those of the counter, one after the other. -/
theorem shownFrom_counted (turns : ℕ) :
    ∀ (counter : ℕ) (pos : Option ℕ) (listing : List Dirent),
      (shownFrom step accepts true turns counter pos listing).map
          (fun p => p.2.ino)
        = List.range' counter
          (shownFrom step accepts true turns counter pos listing).length := by
  induction turns with
  | zero => exact fun _ _ _ => rfl
  | succ turns ih =>
      intro counter pos listing
      cases pos with
      | none => rfl
      | some offset =>
          rw [shownFrom]
          split
          · rfl
          · split
            · split
              · exact ih _ _ _
              · split
                · rename_i cookie n _ hn
                  split
                  · injection hn with hn
                    rw [List.map_cons, List.length_cons, List.range'_succ]
                    subst hn
                    exact congrArg _ (ih _ _ _)
                  · rfl
                · rfl
            · rfl

/-- Or they are the entries' own. -/
theorem shownFrom_serial (turns : ℕ) :
    ∀ (counter : ℕ) (pos : Option ℕ) (listing : List Dirent),
      ∀ p ∈ shownFrom step accepts false turns counter pos listing,
        serial p.1 = some p.2.ino := by
  induction turns with
  | zero => exact fun _ _ _ _ h => nomatch h
  | succ turns ih =>
      intro counter pos listing p hp
      cases pos with
      | none => cases hp
      | some offset =>
          rw [shownFrom] at hp
          split at hp
          · cases hp
          · split at hp
            · split at hp
              · exact ih _ _ _ p hp
              · split at hp
                · rename_i cookie n _ hn
                  split at hp
                  · rcases List.mem_cons.mp hp with rfl | hp
                    · exact hn
                    · exact ih _ _ _ p hp
                  · cases hp
                · cases hp
            · cases hp

end Numbers

-- ==================================================== what is entered

/-- A state behind a listing that showed these on top of others: what was
replied, if it was not an error, and what the inode table is. -/
structure Listed (fs : ISOFuse σ) (listing : List Dirent)
    (pairs : List (DirectoryEntry × Dirent))
    (result : Outcome Errno Reply × ISOFuse σ) : Prop where
  replied : ∀ reply, result.1 = .ok reply →
    reply = .directory (listing ++ pairs.map Prod.snd)
  generated : result.2.inodeAutogenerated = fs.inodeAutogenerated
  next : result.2.inodeNumber
    = fs.inodeNumber + if fs.inodeAutogenerated then pairs.length else 0
  entered : ∀ n entry, result.2.inodes n = some entry →
    fs.inodes n = some entry
      ∨ ∃ d, (entry, d) ∈ pairs ∧ NotDots entry ∧ d.ino = n
  kept : ∀ n, fs.inodes n ≠ none → result.2.inodes n ≠ none
  known : ∀ entry d, (entry, d) ∈ pairs → NotDots entry →
    result.2.inodes d.ino ≠ none

/-- Nothing is shown, or no more. -/
theorem Listed.nothing {listing : List Dirent} {a : Outcome Errno Reply}
    (fs : ISOFuse σ) (file : σ)
    (h : ∀ reply, a = .ok reply → reply = .directory listing) :
    Listed fs listing [] (a, { fs with file }) where
  replied reply hreply := by
    rw [List.map_nil, List.append_nil]
    exact h reply hreply
  generated := rfl
  next := by
    show fs.inodeNumber = fs.inodeNumber + if _ then 0 else 0
    rw [ite_self, Nat.add_zero]
  entered _ _ h := Or.inl h
  kept _ h := h
  known _ _ h := nomatch h

theorem listed_inodes (fs : ISOFuse σ) (n : ℕ) (entry : DirectoryEntry) :
    (fs.listed n entry).inodes
      = if NotDots entry then Function.update fs.inodes n (some entry)
        else fs.inodes := by
  have hadvance : ∀ fs : ISOFuse σ, fs.advance.inodes = fs.inodes := by
    intro fs
    unfold advance
    split
    · rfl
    · rfl
  unfold ISOFuse.listed
  rw [hadvance]
  split
  · rfl
  · rfl

/-- The position in the image does not matter. -/
theorem Listed.moved {fs : ISOFuse σ} {file : σ} {listing : List Dirent}
    {pairs : List (DirectoryEntry × Dirent)}
    {result : Outcome Errno Reply × ISOFuse σ}
    (h : Listed ({ fs with file } : ISOFuse σ) listing pairs result) :
    Listed fs listing pairs result :=
  ⟨h.replied, h.generated, h.next, h.entered, h.kept, h.known⟩

/-- One entry is listed, and then the others. -/
theorem Listed.cons {fs : ISOFuse σ} {listing : List Dirent}
    {pairs : List (DirectoryEntry × Dirent)} {entry : DirectoryEntry}
    {d : Dirent} {result : Outcome Errno Reply × ISOFuse σ}
    (h : Listed (fs.listed d.ino entry) (listing ++ [d]) pairs result) :
    Listed fs listing ((entry, d) :: pairs) result where
  replied reply hreply := by
    have hrest := h.replied reply hreply
    rw [List.append_assoc] at hrest
    exact hrest
  generated := h.generated.trans (listed_inodeAutogenerated _ _ _)
  next := by
    rw [h.next, listed_inodeNumber, listed_inodeAutogenerated,
      List.length_cons]
    by_cases hauto : fs.inodeAutogenerated = true
    · simp only [if_pos hauto]
      omega
    · simp only [if_neg hauto]
  entered n e he := by
    rcases h.entered n e he with he | ⟨d', hmem, hdots, hn⟩
    · rw [listed_inodes] at he
      by_cases hdots : NotDots entry
      · rw [if_pos hdots] at he
        by_cases hn : n = d.ino
        · rw [hn, Function.update_self] at he
          injection he with he
          subst he
          exact Or.inr ⟨d, List.mem_cons_self, hdots, hn.symm⟩
        · rw [Function.update_of_ne hn] at he
          exact Or.inl he
      · rw [if_neg hdots] at he
        exact Or.inl he
    · exact Or.inr ⟨d', List.mem_cons_of_mem _ hmem, hdots, hn⟩
  kept n hn := by
    refine h.kept n ?_
    rw [listed_inodes]
    split
    · by_cases heq : n = d.ino
      · rw [heq, Function.update_self]
        exact Option.some_ne_none entry
      · rw [Function.update_of_ne heq]
        exact hn
    · exact hn
  known e d' hmem hdots := by
    rcases List.mem_cons.mp hmem with heq | hmem
    · injection heq with he hd
      subst he hd
      refine h.kept d'.ino ?_
      rw [listed_inodes, if_pos hdots, Function.update_self]
      exact Option.some_ne_none e
    · exact h.known e d' hmem hdots

/-- The loop shows what it is to show. -/
theorem readdirFrom_shown (hserve : host.reader.Serves src)
    (accepts : Capacity) (turns : ℕ) :
    ∀ (fs : ISOFuse σ) (cache : BlockCache) (pos : Option ℕ)
      (listing : List Dirent), Coherent src dir cache →
      Listed fs listing
        (shownFrom (entryAt host.build src host.fuel dir) accepts
          fs.inodeAutogenerated turns fs.inodeNumber pos listing)
        (readdirFrom host dir accepts turns fs cache pos listing) := by
  induction turns with
  | zero =>
      intro fs cache pos listing _
      cases pos with
      | none =>
          exact .nothing fs fs.file fun reply h => (Outcome.ok.inj h).symm
      | some offset => exact .nothing fs fs.file fun _ h => nomatch h
  | succ turns ih =>
      intro fs cache pos listing hco
      cases pos with
      | none =>
          exact .nothing fs fs.file fun reply h => (Outcome.ok.inj h).symm
      | some offset =>
          have hserves := readEntryAt_serves (b := host.build) hserve
            host.fuel hco offset fs.file
          have hturn := readdirLoop_turn host dir accepts turns fs cache
            offset listing
          show Listed fs listing _
            (readdirLoop host dir accepts (turns + 1) fs cache offset listing)
          generalize readdirLoop host dir accepts (turns + 1) fs cache offset
            listing = result at hturn ⊢
          cases hturn with
          | out hmax =>
              rw [shownFrom, if_pos hmax]
              exact .nothing fs fs.file fun _ h => nomatch h
          | @failed r _ _ _ hmax hcall hno _ hreply =>
              rw [hcall] at hserves
              rw [shownFrom, if_neg hmax, ← hserves.1]
              cases r with
              | ok found => exact absurd rfl (hno found)
              | err | panic | running =>
                  exact .nothing fs _ fun reply h => absurd h (hreply reply)
          | @hidden _ next _ file hmax hcall hrel =>
              rw [hcall] at hserves
              rw [shownFrom, if_neg hmax, ← hserves.1]
              dsimp only
              rw [if_pos hrel]
              exact (ih { fs with file } _ next listing hserves.2).moved
          | @numberless entry next _ file hmax hcall hrel hpanic =>
              rw [hcall] at hserves
              have hnone : numberAt fs.inodeAutogenerated fs.inodeNumber entry
                  = none := by
                obtain ⟨hauto, hino⟩ := numberFor_eq_panic.mp hpanic
                unfold numberAt
                rw [hauto, serial_eq_none hino]
                rfl
              rw [shownFrom_numberless hmax hserves.1.symm hrel hnone]
              exact .nothing fs file fun _ h => nomatch h
          | @full entry next _ file n cookie hmax hcall hrel hn hcookie hfits =>
              rw [hcall] at hserves
              have hnum : numberAt fs.inodeAutogenerated fs.inodeNumber entry
                  = some n := numberFor_eq_ok.mp hn
              rw [shownFrom_visible hmax hserves.1.symm hrel hcookie hnum,
                if_neg (by rw [hfits]; exact Bool.false_ne_true)]
              exact .nothing fs file fun reply h => (Outcome.ok.inj h).symm
          | @listed entry next _ file n cookie hmax hcall hrel hn hcookie
              hfits =>
              rw [hcall] at hserves
              have hnum : numberAt fs.inodeAutogenerated fs.inodeNumber entry
                  = some n := numberFor_eq_ok.mp hn
              rw [shownFrom_visible hmax hserves.1.symm hrel hcookie hnum,
                if_pos hfits]
              have hrest := ih (({ fs with file } : ISOFuse σ).listed n entry)
                _ next (listing ++ [dirent n cookie entry]) hserves.2
              rw [listed_inodeAutogenerated, listed_inodeNumber] at hrest
              have hshown : Listed ({ fs with file } : ISOFuse σ) listing
                  ((entry, dirent n cookie entry) :: _) _ := .cons hrest
              exact hshown.moved

/-- A request for a listing replies what it shows, and enters it. -/
theorem readdir_shown (hserve : host.reader.Serves src) (fs : ISOFuse σ)
    (fh : ℕ) (offset : Int64) (accepts : Capacity) :
    Listed fs [] (shown host src fs fh offset accepts)
      (readdir host fs fh offset accepts) := by
  unfold readdir shown
  cases fs.openDirectories fh with
  | none => exact .nothing fs fs.file fun _ h => nomatch h
  | some dir =>
      dsimp only
      by_cases hend : offset = -1
      · rw [if_pos hend, if_pos (by rw [hend]; decide)]
        exact .nothing fs fs.file fun reply h => (Outcome.ok.inj h).symm
      · rw [if_neg hend]
        by_cases hneg : offset.toInt < 0
        · rw [if_pos hneg, if_pos hneg]
          exact .nothing fs fs.file fun _ h => nomatch h
        · rw [if_neg hneg, if_neg hneg]
          exact readdirFrom_shown hserve accepts (2 ^ 32 + 1) fs
            BlockCache.new (some offset.toInt.toNat) [] (coherent_new src dir)

end Cdfs
