/-
Lookup by name. `find` is the iterator with a test: over a directory
that can be listed it returns the first entry of the listing that passes
the test (`find_eq`), for every reader, since both walk the same calls.

The test compares names up to the case of ASCII letters. So an entry is
found under its own name unless another one, earlier in the directory,
differs from it in case only.
-/
import Cdfs.Proofs.Layout

namespace Cdfs

open Rust Parse

variable {σ : Type} {b : Build} {rd : ISO9660Reader σ} {src : Source}

/-- The entry is an associated file, which `find` passes over. -/
def IsAssociated (entry : DirectoryEntry) : Prop :=
  contains entry.header.fileFlags FileFlags.ASSOCIATED_FILE = true

theorem matchesName_iff {name : String} {entry : DirectoryEntry} :
    matchesName name entry = true
      ↔ ¬ IsAssociated entry
        ∧ eqIgnoreAsciiCase entry.identifier name = true := by
  unfold matchesName IsAssociated
  rw [Bool.and_eq_true, Bool.not_eq_true']
  simp only [Bool.not_eq_true]

/-- The loop returns the first match among the entries that are left. -/
theorem findFrom_eq (fuel : Nat) (dir : ISODirectory) (name : String) :
    ∀ (entries : List DirectoryEntry) (calls : Nat)
      (it : ISODirectoryIterator) (s : σ),
      entries.length < calls →
      (∀ n, ((iterate b rd fuel dir n it s).1.next b rd fuel dir
          (iterate b rd fuel dir n it s).2).1 = (entries[n]?).map .ok) →
      (findFrom b rd fuel dir name calls it s).1
        = .ok (entries.find? (matchesName name)) := by
  intro entries
  induction entries with
  | nil =>
      intro calls it s hcalls hlist
      cases calls with
      | zero => exact absurd hcalls (Nat.not_lt_zero _)
      | succ calls =>
          have hfirst := hlist 0
          rw [iterate] at hfirst
          rcases hnext : it.next b rd fuel dir s with ⟨r, it', s'⟩
          rw [hnext] at hfirst
          change r = none at hfirst
          subst hfirst
          rw [findFrom, hnext]
          rfl
  | cons entry entries ih =>
      intro calls it s hcalls hlist
      cases calls with
      | zero => exact absurd hcalls (Nat.not_lt_zero _)
      | succ calls =>
          have hfirst := hlist 0
          have hrest := fun n => hlist (n + 1)
          simp only [iterate] at hfirst hrest
          rcases hnext : it.next b rd fuel dir s with ⟨r, it', s'⟩
          rw [hnext] at hfirst hrest
          change r = some (.ok entry) at hfirst
          subst hfirst
          rw [findFrom, hnext, List.find?_cons]
          dsimp only
          cases hmatch : matchesName name entry with
          | true => rfl
          | false =>
              rw [if_neg Bool.false_ne_true]
              refine ih calls it' s' ?_ hrest
              rw [List.length_cons] at hcalls
              omega

/-- `find` returns the first entry of the listing that matches. -/
theorem find_eq {dir : ISODirectory} {entries : List DirectoryEntry}
    {fuel : Nat} {s : σ} (hfuel : entries.length < fuel)
    (hlist : ∀ n, item b rd fuel dir s n = (entries[n]?).map .ok)
    (name : String) :
    (find b rd fuel dir name s).1
      = .ok (entries.find? (matchesName name)) :=
  findFrom_eq fuel dir name entries fuel contents s hfuel hlist

/-- What the loop returns was read at a position of the listing. -/
theorem findFrom_found (hserve : rd.Serves src) (fuel : Nat)
    {dir : ISODirectory} {name : String} {start : Nat} (calls : Nat) :
    ∀ (it : ISODirectoryIterator) (s : σ), Coherent src dir it.cache →
      (∀ offset, it.nextOffset = some offset →
        Cursor.Reached (entryAt b src fuel dir) start offset) →
      ∀ {entry : DirectoryEntry},
        (findFrom b rd fuel dir name calls it s).1 = .ok (some entry) →
        ∃ offset next,
          Cursor.Reached (entryAt b src fuel dir) start offset
            ∧ entryAt b src fuel dir offset = .ok (entry, next) := by
  induction calls with
  | zero =>
      intro it s _ _ entry h
      cases h
  | succ calls ih =>
      intro it s hco hreach entry h
      obtain ⟨hitem, hoff, hco'⟩ := next_serves (b := b) hserve fuel hco s
      rcases hnext : it.next b rd fuel dir s with ⟨r, it', s'⟩
      rw [hnext] at hitem hoff hco'
      rw [findFrom, hnext] at h
      dsimp only at hitem hoff hco' h
      cases hpos : it.nextOffset with
      | none =>
          rw [hpos] at hitem
          rw [hitem] at h
          cases h
      | some offset =>
          rw [hpos] at hitem hoff
          rw [Option.map_some] at hitem
          have hat := hreach offset hpos
          cases hentry : entryAt b src fuel dir offset with
          | err | panic | running =>
              rw [hentry] at hitem
              rw [hitem] at h
              cases h
          | ok r =>
              obtain ⟨found, next⟩ := r
              rw [hentry] at hitem
              rw [hitem] at h
              dsimp only [Option.map_some, Outcome.map] at h
              split at h
              · injection h with h
                injection h with h
                rw [← h]
                exact ⟨offset, next, hat, hentry⟩
              · refine ih it' s' hco' (fun offset' hnext' => ?_) h
                rw [hoff] at hnext'
                simp only [Cursor.advance, hentry] at hnext'
                rw [hnext'] at hentry
                exact .next hat hentry

/-- So is what `find` returns. -/
theorem find_found (hserve : rd.Serves src) {fuel : Nat}
    {dir : ISODirectory} {name : String} {s : σ} {entry : DirectoryEntry}
    (h : (find b rd fuel dir name s).1 = .ok (some entry)) :
    ∃ offset next, Cursor.Reached (entryAt b src fuel dir) 0 offset
      ∧ entryAt b src fuel dir offset = .ok (entry, next) := by
  refine findFrom_found hserve fuel fuel contents s (coherent_new src dir)
    (fun offset h => ?_) h
  injection h with h
  rw [← h]
  exact .start

/-- Lookup against the listing: an entry that is not an associated file
is found under its name, unless an earlier one has that name up to case;
whatever is found is the first such entry; and a name without any is not
found. -/
theorem find_listed {dir : ISODirectory} {entries : List DirectoryEntry}
    {fuel : Nat} {s : σ} (hfuel : entries.length < fuel)
    (hlist : ∀ n, item b rd fuel dir s n = (entries[n]?).map .ok) :
    (∀ before entry after, entries = before ++ entry :: after →
        ¬ IsAssociated entry →
        (∀ e ∈ before, ¬ IsAssociated e →
          eqIgnoreAsciiCase e.identifier entry.identifier = false) →
        (find b rd fuel dir entry.identifier s).1 = .ok (some entry))
      ∧ (∀ name entry, (find b rd fuel dir name s).1 = .ok (some entry) →
          ∃ before after, entries = before ++ entry :: after
            ∧ ¬ IsAssociated entry
            ∧ eqIgnoreAsciiCase entry.identifier name = true
            ∧ ∀ e ∈ before, ¬ IsAssociated e →
                eqIgnoreAsciiCase e.identifier name = false)
      ∧ (∀ name, (∀ e ∈ entries, ¬ IsAssociated e →
            eqIgnoreAsciiCase e.identifier name = false) →
          (find b rd fuel dir name s).1 = .ok none) := by
  have hmiss : ∀ {name : String} {e : DirectoryEntry},
      (¬ IsAssociated e → eqIgnoreAsciiCase e.identifier name = false)
        ↔ (!matchesName name e) = true := by
    intro name e
    rw [Bool.not_eq_true', ← Bool.not_eq_true, ← Bool.not_eq_true,
      matchesName_iff, not_and]
  refine ⟨?_, ?_, ?_⟩
  · intro before entry after hsplit hassoc hearlier
    rw [find_eq hfuel hlist]
    congr 1
    rw [List.find?_eq_some_iff_append]
    exact ⟨matchesName_iff.mpr ⟨hassoc, eqIgnoreAsciiCase_refl _⟩,
      before, after, hsplit, fun e he => hmiss.mp (hearlier e he)⟩
  · intro name entry hfind
    rw [find_eq hfuel hlist] at hfind
    injection hfind with hfind
    obtain ⟨hmatch, before, after, hsplit, hearlier⟩ :=
      List.find?_eq_some_iff_append.mp hfind
    obtain ⟨hassoc, heq⟩ := matchesName_iff.mp hmatch
    exact ⟨before, after, hsplit, hassoc, heq,
      fun e he => hmiss.mpr (hearlier e he)⟩
  · intro name hnone
    rw [find_eq hfuel hlist]
    congr 1
    rw [List.find?_eq_none]
    intro e he
    have := hmiss.mp (hnone e he)
    simpa using this

-- ==================================================== names up to case

/-- The file `a`, at block 22; `upperRecord` is the file `A`. -/
def lowerRecord : EncodedRecord debugBuild .iso9660 where
  bytes := [34, 0, 22, 0, 0, 0, 0, 0, 0, 22, 0, 0, 0, 0, 0, 0, 0, 0,
    100, 1, 1, 0, 0, 0, 0, 0, 0, 0, 1, 0, 0, 1, 1, 0x61]
  header := letterHeader 22
  identifier := "a"
  area := none
  entry := .file ⟨letterHeader 22, "a", 1, plainExt⟩
  parsed := by decide +kernel
  noContinuation := dotRecord.noContinuation
  noChildLink := dotRecord.noChildLink
  built := by decide +kernel
  bounded := by decide

/-- A block that holds the two. -/
def lettersBlock : RecordBlock debugBuild .iso9660 where
  records := [upperRecord, lowerRecord]
  nonempty := by decide
  fits := by decide

/-- A source of such blocks. -/
def lettersSource : Source where
  deliver _ := .ok lettersBlock.buffer.bytes
  atMostBlock h := lettersBlock.buffer.delivered_le h

/-- The two files are listed. -/
theorem letters_listed (fuel : Nat) : ∀ n,
    item debugBuild lettersSource.reader fuel dotDirectory () n
      = ([upperRecord.entry, lowerRecord.entry][n]?).map .ok := by
  intro n
  have hst : Stored lettersSource dotDirectory [lettersBlock] :=
    { encoding := rfl
      nonempty := by decide
      length := by decide
      delivered := by
        intro i blk hblk
        have hmem := List.mem_of_getElem? hblk
        rw [List.mem_singleton] at hmem
        rw [hmem]
        rfl }
  rw [item_eq lettersSource.reader_serves]
  exact stored_yields hst (by decide) fuel n

/-- The listing is of distinct names, but the file found under the name
`a` is `A`. -/
theorem find_case_collision :
    (∀ n, item debugBuild lettersSource.reader 3 dotDirectory () n
        = ([upperRecord.entry, lowerRecord.entry][n]?).map .ok)
      ∧ upperRecord.entry.identifier ≠ lowerRecord.entry.identifier
      ∧ ¬ IsAssociated lowerRecord.entry
      ∧ (find debugBuild lettersSource.reader 3 dotDirectory
          lowerRecord.entry.identifier ()).1 = .ok (some upperRecord.entry)
      ∧ upperRecord.entry ≠ lowerRecord.entry := by
  refine ⟨letters_listed 3, by decide, by unfold IsAssociated; decide, ?_,
    by decide⟩
  rw [find_eq (by decide) (letters_listed 3)]
  decide

/-- The file `A` is found. -/
theorem find_upper :
    (find debugBuild lettersSource.reader 3 dotDirectory
      upperRecord.entry.identifier ()).1 = .ok (some upperRecord.entry) :=
  (find_listed (by decide) (letters_listed 3)).1 [] upperRecord.entry
    [lowerRecord.entry] rfl (by unfold IsAssociated; decide)
    (fun _ h => nomatch h)

end Cdfs
