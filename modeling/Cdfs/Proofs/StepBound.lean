/-
How many calls it takes to go through a directory. A record has at least
34 bytes and lies in one block, so no two records of a block share a
stretch of 34 bytes, and there are 60 of these (`slot`); every successful
call moves on to a later one, in a counted block.

The bound is on chains of calls (`Calls`), whatever happens to the cache
and to the source between them, so it holds of both loops that make such
chains: the iterator of `contents()`, and `readdir`. What `readdir` does
from turn to turn is the relation `NextTurn`; the loop follows it for as
many turns as there are and then ends (`Turned.endsWithin`).
-/
import Cdfs.Proofs.ExtentBound
import Cdfs.Proofs.Handlers

namespace Cdfs

open Rust Parse

variable {σ : Type} {b : Build} {rd : ISO9660Reader σ}
  {dir : ISODirectory}

-- ================================================ statement vocabulary

/-- What a successful call has decoded, and where the next one is to
read. -/
structure Advance (b : Build) (dir : ISODirectory) (cache : BlockCache)
    (offset : ℕ) (entry : DirectoryEntry) (next : Option ℕ) : Prop where
  record : ∃ header identifier area,
    DirectoryEntryHeader.parse b
        (cache.block.bytes.drop (offset % BLOCK_SIZE))
        dir.header.characterEncoding = .ok (header, identifier, area)
      ∧ entry.header.length = header.length
      ∧ 34 ≤ header.length.toNat
      ∧ offset % BLOCK_SIZE + header.length.toNat ≤ BLOCK_SIZE
  position : ∃ count, dir.blockCount b = .ok count
    ∧ ∀ offset', next = some offset' →
      offset < offset' ∧ offset' < BLOCK_SIZE * count
        ∧ offset' % BLOCK_SIZE ≤ 2014

/-- Successful calls of `read_entry_at`, one after the other from the
start of the directory, and where the next one is to read. The block in
the cache may change between two calls, as may the source. -/
inductive Calls (b : Build) (rd : ISO9660Reader σ) (dir : ISODirectory) :
    ℕ → Option ℕ → Prop
  | start : Calls b rd dir 0 (some 0)
  | call {k offset fuel : ℕ} {cache cache' : BlockCache} {s s' : σ}
      {entry : DirectoryEntry} {next : Option ℕ} :
      Calls b rd dir k (some offset) →
      readEntryAt b rd fuel dir cache offset s
        = (.ok (entry, next), cache', s') →
      Calls b rd dir (k + 1) next

/-- The bound: 60 calls for each block, and one where no block is
counted. -/
def stepLimit (b : Build) (dir : ISODirectory) : ℕ :=
  match dir.blockCount b with
  | .ok count => max 1 (60 * count)
  | _ => 1

/-- The entry that an item is, if it is not an error. -/
def entryOf : Option (Outcome ISOError DirectoryEntry) →
    Option DirectoryEntry
  | some (.ok entry) => some entry
  | _ => none

/-- The entries among the first `n` items of `contents()`. -/
def yielded (b : Build) (rd : ISO9660Reader σ) (fuel : ℕ)
    (dir : ISODirectory) (s : σ) (n : ℕ) : List DirectoryEntry :=
  (List.range n).filterMap fun i => entryOf (item b rd fuel dir s i)

/-- The variables of the loop of `readdir`. -/
structure LoopState (σ : Type) where
  fs : ISOFuse σ
  cache : BlockCache
  offset : ℕ
  listing : List Dirent

section Loop

variable (host : Host σ) (dir : ISODirectory) (accepts : Capacity)

/-- The loop from there. -/
def LoopState.go (turns : ℕ) (l : LoopState σ) :
    Outcome Errno Reply × ISOFuse σ :=
  ISOFuse.readdirLoop host dir accepts turns l.fs l.cache l.offset l.listing

/-- A turn of the loop that another one follows. -/
inductive NextTurn (l : LoopState σ) : LoopState σ → Prop
  | hidden {entry : DirectoryEntry} {offset' : ℕ} {cache' : BlockCache}
      {file : σ} :
      l.fs.inodeNumber ≠ u64Max →
      readEntryAt host.build host.reader host.fuel dir l.cache l.offset
        l.fs.file = (.ok (entry, some offset'), cache', file) →
      entry.relocated = true →
      NextTurn l ⟨{ l.fs with file }, cache', offset', l.listing⟩
  | listed {entry : DirectoryEntry} {offset' n : ℕ} {cache' : BlockCache}
      {file : σ} {cookie : Int64} :
      l.fs.inodeNumber ≠ u64Max →
      readEntryAt host.build host.reader host.fuel dir l.cache l.offset
        l.fs.file = (.ok (entry, some offset'), cache', file) →
      entry.relocated = false → l.fs.numberFor entry = .ok n →
      ISOFuse.fuseOffset (some offset') = some cookie →
      accepts l.listing (ISOFuse.dirent n cookie entry) = true →
      NextTurn l ⟨({ l.fs with file } : ISOFuse σ).listed n entry, cache',
        offset', l.listing ++ [ISOFuse.dirent n cookie entry]⟩

/-- Some number of them, one after the other. -/
inductive Turned (start : LoopState σ) : ℕ → LoopState σ → Prop
  | start : Turned start 0 start
  | turn {k : ℕ} {l l' : LoopState σ} :
      Turned start k l → NextTurn host dir accepts l l' →
      Turned start (k + 1) l'

/-- The loop ends: the turn that no other one follows is among the first
`limit`, and more turns than that do not change what it comes to. -/
def EndsWithin (limit : ℕ) (start : LoopState σ) : Prop :=
  ∃ k l, k < limit ∧ Turned host dir accepts start k l
    ∧ (∀ l', ¬ NextTurn host dir accepts l l')
    ∧ ∀ turns, start.go host dir accepts (k + 1 + turns)
      = l.go host dir accepts 1

end Loop

-- ============================================================ one call

/-- Every successful call is one. -/
theorem readEntryAt_advance {fuel offset : ℕ} {cache cache' : BlockCache}
    {s s' : σ} {entry : DirectoryEntry} {next : Option ℕ}
    (h : readEntryAt b rd fuel dir cache offset s
      = (.ok (entry, next), cache', s')) :
    Advance b dir cache' offset entry next := by
  obtain ⟨header, identifier, area, hparse, hentry, hnext⟩ :=
    readEntryAt_record h
  have hlen := parse_length hparse
  obtain ⟨count, hcount, -⟩ := nextOffset_eq_ok.mp hnext
  refine ⟨⟨header, identifier, area, hparse, hentry, hlen⟩, count, hcount,
    ?_⟩
  intro offset' hoff
  rw [hoff] at hnext
  obtain ⟨count', hcount', hcases⟩ := nextOffset_eq_some hnext
  rw [hcount] at hcount'
  injection hcount' with hcount'
  unfold BLOCK_SIZE at hcases ⊢
  omega

/-- The stretch of 34 bytes that a record starts in; a block has 60, and
no record starts in what is left over. -/
def slot (offset : ℕ) : ℕ :=
  60 * (offset / BLOCK_SIZE) + offset % BLOCK_SIZE / 34

/-- The next record starts in a later one. -/
theorem readEntryAt_slot {fuel offset offset' : ℕ}
    {cache cache' : BlockCache} {s s' : σ} {entry : DirectoryEntry}
    (h : readEntryAt b rd fuel dir cache offset s
      = (.ok (entry, some offset'), cache', s')) :
    slot offset < slot offset' := by
  obtain ⟨header, _, _, hparse, -, hnext⟩ := readEntryAt_record h
  have hlen := parse_length hparse
  obtain ⟨_, -, hcases⟩ := nextOffset_eq_some hnext
  unfold slot
  unfold BLOCK_SIZE at hlen hcases ⊢
  omega

-- ===================================================== chains of calls

theorem stepLimit_pos (b : Build) (dir : ISODirectory) :
    0 < stepLimit b dir := by
  unfold stepLimit
  split
  · exact lt_max_of_lt_left Nat.one_pos
  · exact Nat.one_pos

/-- The slots of the counted blocks are as many as the bound says. -/
theorem slot_lt_stepLimit {count offset : ℕ}
    (hcount : dir.blockCount b = .ok count)
    (hblock : offset < BLOCK_SIZE * count)
    (hroom : offset % BLOCK_SIZE ≤ 2014) : slot offset < stepLimit b dir := by
  unfold stepLimit slot
  rw [hcount]
  refine lt_max_of_lt_right ?_
  unfold BLOCK_SIZE at hblock hroom ⊢
  omega

/-- Each call needs a slot of its own. -/
theorem Calls.le_slot {k offset : ℕ} (h : Calls b rd dir k (some offset)) :
    k ≤ slot offset := by
  generalize hpos : some offset = pos at h
  induction h generalizing offset with
  | start => exact Nat.zero_le _
  | call _ hcall ih =>
      subst hpos
      exact (ih rfl).trans_lt (readEntryAt_slot hcall)

/-- So a chain that goes on has not used all of them. -/
theorem Calls.lt_stepLimit {k offset : ℕ}
    (h : Calls b rd dir k (some offset)) : k < stepLimit b dir := by
  have hslot := h.le_slot
  generalize hpos : some offset = pos at h
  cases h with
  | start => exact stepLimit_pos b dir
  | call _ hcall =>
      obtain ⟨-, count, hcount, hnext⟩ := readEntryAt_advance hcall
      obtain ⟨-, hblock, hroom⟩ := hnext offset hpos.symm
      exact hslot.trans_lt (slot_lt_stepLimit hcount hblock hroom)

theorem Calls.le_stepLimit {k : ℕ} {next : Option ℕ}
    (h : Calls b rd dir k next) : k ≤ stepLimit b dir := by
  cases h with
  | start => exact Nat.zero_le _
  | call hcalls _ => exact hcalls.lt_stepLimit

-- ========================================================== the iterator

/-- The last of the calls of `next`. -/
theorem iterate_succ (fuel n : ℕ) : ∀ (it : ISODirectoryIterator) (s : σ),
    iterate b rd fuel dir (n + 1) it s
      = ((iterate b rd fuel dir n it s).1.next b rd fuel dir
        (iterate b rd fuel dir n it s).2).2 := by
  induction n with
  | zero => exact fun _ _ => rfl
  | succ n ih => exact fun it s => ih _ _

/-- A call of `next` adds to the chain if it yields an entry, and leaves
the iterator where it is if it does not. -/
theorem next_calls {k : ℕ} {it : ISODirectoryIterator}
    (h : Calls b rd dir k it.nextOffset) (fuel : ℕ) (s : σ) :
    Calls b rd dir
      (k + (entryOf (it.next b rd fuel dir s).1).toList.length)
      (it.next b rd fuel dir s).2.1.nextOffset := by
  unfold ISODirectoryIterator.next
  cases hoff : it.nextOffset with
  | none => exact h
  | some offset =>
      dsimp only
      rw [hoff] at h
      rcases hcall : readEntryAt b rd fuel dir it.cache offset s
        with ⟨⟨entry, next⟩ | _ | _ | _, cache, s'⟩
      · exact h.call hcall
      all_goals exact h

/-- The entries that are yielded are a chain of calls. -/
theorem yielded_calls (fuel : ℕ) (s : σ) (n : ℕ) :
    Calls b rd dir (yielded b rd fuel dir s n).length
      (iterate b rd fuel dir n contents s).1.nextOffset := by
  induction n with
  | zero => exact .start
  | succ n ih =>
      have hlast : (yielded b rd fuel dir s (n + 1)).length
          = (yielded b rd fuel dir s n).length
            + (entryOf (item b rd fuel dir s n)).toList.length := by
        unfold yielded
        rw [List.range_succ, List.filterMap_append, List.length_append,
          List.filterMap_cons, List.filterMap_nil]
        cases entryOf (item b rd fuel dir s n) with
        | none => rfl
        | some entry => rfl
      rw [hlast, iterate_succ]
      exact next_calls ih fuel _

-- ========================================================== the loop

section Loop

variable {host : Host σ} {accepts : Capacity}

/-- The loop goes on where the turn says. -/
theorem NextTurn.go {l l' : LoopState σ}
    (h : NextTurn host dir accepts l l') (turns : ℕ) :
    l.go host dir accepts (turns + 1) = l'.go host dir accepts turns := by
  unfold LoopState.go
  rw [ISOFuse.readdirLoop]
  cases h with
  | hidden hmax hcall hrel =>
      rw [if_neg hmax, hcall]
      dsimp only
      rw [if_pos hrel]
  | listed hmax hcall hrel hn hcookie hfits =>
      rw [if_neg hmax, hcall]
      dsimp only
      rw [hrel, if_neg Bool.false_ne_true, hcookie, ISOFuse.numberFor_file,
        hn]
      dsimp only
      rw [if_pos hfits]

/-- Where no turn follows the loop ends, however many there are left. -/
theorem LoopState.go_last {l : LoopState σ}
    (h : ∀ l', ¬ NextTurn host dir accepts l l') (turns : ℕ) :
    l.go host dir accepts (turns + 1) = l.go host dir accepts 1 := by
  unfold go
  rw [ISOFuse.readdirLoop, ISOFuse.readdirLoop]
  by_cases hmax : l.fs.inodeNumber = u64Max
  · rw [if_pos hmax, if_pos hmax]
  · rw [if_neg hmax, if_neg hmax]
    rcases hcall : readEntryAt host.build host.reader host.fuel dir l.cache
      l.offset l.fs.file with ⟨⟨entry, next⟩ | _ | _ | _, cache', file⟩
    · dsimp only
      cases hrel : entry.relocated with
      | true =>
          cases next with
          | none => rfl
          | some offset' => exact absurd (.hidden hmax hcall hrel) (h _)
      | false =>
          rw [if_neg Bool.false_ne_true, if_neg Bool.false_ne_true,
            ISOFuse.numberFor_file]
          cases hcookie : ISOFuse.fuseOffset next with
          | none => rfl
          | some cookie =>
              cases hn : l.fs.numberFor entry with
              | err | panic | running => rfl
              | ok n =>
                  dsimp only
                  cases hfits : accepts l.listing
                      (ISOFuse.dirent n cookie entry) with
                  | false => rfl
                  | true =>
                      cases next with
                      | none => rfl
                      | some offset' =>
                          exact absurd
                            (.listed hmax hcall hrel hn hcookie hfits) (h _)
    all_goals rfl

/-- The turns are a chain of calls. -/
theorem Turned.calls {fs : ISOFuse σ} {cache : BlockCache}
    {listing : List Dirent} {k : ℕ} {l : LoopState σ}
    (h : Turned host dir accepts ⟨fs, cache, 0, listing⟩ k l) :
    Calls host.build host.reader dir k (some l.offset) := by
  induction h with
  | start => exact .start
  | turn _ hnext ih =>
      cases hnext with
      | hidden _ hcall | listed _ hcall => exact ih.call hcall

/-- The loop goes where they lead. -/
theorem Turned.go {start l : LoopState σ} {k : ℕ}
    (h : Turned host dir accepts start k l) (turns : ℕ) :
    start.go host dir accepts (k + turns) = l.go host dir accepts turns := by
  induction h generalizing turns with
  | start => rw [Nat.zero_add]
  | turn _ hnext ih =>
      rw [Nat.add_assoc, Nat.add_comm 1, ih]
      exact hnext.go turns

/-- As long as the turns are fewer than a limit, one of them is the
last. -/
theorem Turned.endsWithin {start : LoopState σ} {limit : ℕ}
    (hlimit : ∀ k l, Turned host dir accepts start k l → k < limit) {k : ℕ}
    {l : LoopState σ} (h : Turned host dir accepts start k l) :
    EndsWithin host dir accepts limit start := by
  have hk := hlimit k l h
  by_cases hlast : ∀ l', ¬ NextTurn host dir accepts l l'
  · refine ⟨k, l, hk, h, hlast, fun turns => ?_⟩
    rw [Nat.add_assoc, Nat.add_comm 1, h.go]
    exact LoopState.go_last hlast turns
  · push Not at hlast
    obtain ⟨l', hnext⟩ := hlast
    exact Turned.endsWithin hlimit (h.turn hnext)
  termination_by limit - k

end Loop

/-- Every successful call advances, whatever is in the cache. So there
are no more successful calls in a row than the bound, from the start of
the directory on; no more entries that the iterator yields, also if calls
in between fail; and no more turns of the loop of `readdir`. -/
theorem calls_bounded (b : Build) (rd : ISO9660Reader σ)
    (dir : ISODirectory) :
    (∀ fuel cache offset s entry next cache' s',
      readEntryAt b rd fuel dir cache offset s
        = (.ok (entry, next), cache', s') →
      Advance b dir cache' offset entry next)
    ∧ (∀ k next, Calls b rd dir k next → k ≤ stepLimit b dir)
    ∧ (∀ fuel s n, (yielded b rd fuel dir s n).length ≤ stepLimit b dir)
    ∧ ∀ (host : Host σ) (accepts : Capacity) (fs : ISOFuse σ)
        (cache : BlockCache) (listing : List Dirent),
      host.build = b → host.reader = rd →
      EndsWithin host dir accepts (stepLimit b dir)
        ⟨fs, cache, 0, listing⟩ := by
  refine ⟨fun _ _ _ _ _ _ _ _ h => readEntryAt_advance h,
    fun _ _ h => h.le_stepLimit,
    fun fuel s n => (yielded_calls fuel s n).le_stepLimit, ?_⟩
  rintro host accepts fs cache listing rfl rfl
  exact Turned.endsWithin (fun _ _ h => h.calls.lt_stepLimit) .start

end Cdfs
