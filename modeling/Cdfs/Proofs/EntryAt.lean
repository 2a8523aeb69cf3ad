/-
What `read_entry_at` computes over a repeatable source.

The cache and the reader's state are arguments and results of the call,
but over a `Source` they do not matter: as long as the cached block is
the one its tag names (`Coherent`), the result is a function of the
directory and the offset alone, `entryAt`. The iterator is then a cursor
over `entryAt` (`item_eq`), and everything about iteration is proved
about that cursor.

The last part is the account of a successful call: what was read and
parsed, where the next record is, and that it is further on.
-/
import Cdfs.DirectoryEntry.ISODirectory
import Cdfs.Rust.Cursor

namespace Cdfs

open Rust Parse

variable {σ : Type} {b : Build} {rd : ISO9660Reader σ} {src : Source}

-- ============================================================= the block

/-- A whole block of the directory's extent, as `read_entry_at` accepts
it. -/
def blockAt (src : Source) (dir : ISODirectory) (blockNum : Nat) :
    Outcome ISOError BlockBuffer :=
  match src.deliver (dir.header.extentLoc.toNat + blockNum) with
  | .ok bs =>
      if h : bs.length = BLOCK_SIZE then .ok ⟨bs, h⟩
      else .err (.readSize bs.length)
  | .err e => .err (.io e)
  | .panic => .panic
  | .running => .running

/-- The cached block is the one the tag names. -/
def Coherent (src : Source) (dir : ISODirectory) (cache : BlockCache) : Prop :=
  ∀ n, cache.bufBlockNum = some n → blockAt src dir n = .ok cache.block

theorem coherent_new (src : Source) (dir : ISODirectory) :
    Coherent src dir BlockCache.new := by
  intro n h
  cases h

/-- A full delivery is the block. -/
theorem blockAt_of_full {dir : ISODirectory} {n : Nat} {bs : List UInt8}
    (hdel : src.deliver (dir.header.extentLoc.toNat + n) = .ok bs)
    (hfull : bs.length = BLOCK_SIZE) :
    blockAt src dir n = .ok ⟨bs, hfull⟩ := by
  unfold blockAt
  rw [hdel]
  dsimp only
  rw [dif_pos hfull]

/-- Loading a block with a read that answers as the source does: the
result is that of `blockAt`, the block is in the cache when there is one,
and the cache is coherent either way. -/
theorem loadBlock_of_fill {dir : ISODirectory} {cache : BlockCache}
    (hco : Coherent src dir cache) (n : Nat) (s : σ)
    (hread : cache.bufBlockNum ≠ some n →
      (rd.readAt s cache.block (dir.header.extentLoc.toNat + n)).2
        = src.fill cache.block (dir.header.extentLoc.toNat + n)) :
    (loadBlock rd dir cache n s).1 = (blockAt src dir n).map (fun _ => ())
      ∧ Coherent src dir (loadBlock rd dir cache n s).2.1
      ∧ ∀ blk, blockAt src dir n = .ok blk →
          (loadBlock rd dir cache n s).2.1.block = blk := by
  unfold loadBlock
  by_cases htag : cache.bufBlockNum = some n
  · rw [if_neg (not_not.mpr htag)]
    have hblk := hco n htag
    refine ⟨by rw [hblk]; rfl, hco, fun blk h => ?_⟩
    rw [hblk] at h
    injection h
  · rw [if_pos htag]
    have hread := hread htag
    -- a failed read changes neither the block nor the tag
    have hkeep : ∀ block, block = cache.block →
        Coherent src dir { cache with block } := by
      intro block hblock
      rw [hblock]
      exact hco
    dsimp only
    rcases hcall : rd.readAt s cache.block (dir.header.extentLoc.toNat + n)
      with ⟨s', block, r⟩
    rw [hcall] at hread
    unfold Source.fill at hread
    unfold blockAt
    cases hdel : src.deliver (dir.header.extentLoc.toNat + n) with
    | ok bs =>
        rw [hdel] at hread
        injection hread with hblock hr
        subst hr
        dsimp only
        by_cases hfull : bs.length = BLOCK_SIZE
        · rw [if_neg (not_not.mpr hfull), dif_pos hfull]
          have hbs : block = ⟨bs, hfull⟩ :=
            hblock.trans (BlockBuffer.overwrite_full _ hfull)
          refine ⟨rfl, ?_, fun blk h => ?_⟩
          · intro m hm
            injection hm with hm
            rw [← hm, hbs]
            exact blockAt_of_full hdel hfull
          · injection h with h
            rw [← h]
            exact hbs
        · rw [if_pos hfull, dif_neg hfull]
          refine ⟨rfl, fun m hm => ?_, fun blk h => ?_⟩
          · cases hm
          · cases h
    | err | panic | running =>
        rw [hdel] at hread
        injection hread with hblock hr
        subst hr
        refine ⟨rfl, hkeep block hblock, fun blk h => ?_⟩
        cases h

theorem loadBlock_serves (hserve : rd.Serves src) {dir : ISODirectory}
    {cache : BlockCache} (hco : Coherent src dir cache) (n : Nat) (s : σ) :
    (loadBlock rd dir cache n s).1 = (blockAt src dir n).map (fun _ => ())
      ∧ Coherent src dir (loadBlock rd dir cache n s).2.1
      ∧ ∀ blk, blockAt src dir n = .ok blk →
          (loadBlock rd dir cache n s).2.1.block = blk :=
  loadBlock_of_fill hco n s fun _ => hserve s cache.block _

-- ================================================== continuation areas

/-- The `CE` entries of a list. -/
def continuations (susp : List SystemUseEntry) : List ContinuationArea :=
  susp.filterMap (·.asContinuation)

/-- The other entries. -/
def plain (susp : List SystemUseEntry) : List SystemUseEntry :=
  susp.filter (·.asContinuation.isNone)

@[simp] theorem continuations_append (susp susp' : List SystemUseEntry) :
    continuations (susp ++ susp') = continuations susp ++ continuations susp' :=
  List.filterMap_append

@[simp] theorem plain_append (susp susp' : List SystemUseEntry) :
    plain (susp ++ susp') = plain susp ++ plain susp' :=
  List.filter_append _ _

theorem plain_eq_self {susp : List SystemUseEntry}
    (h : continuations susp = []) : plain susp = susp := by
  rw [plain, List.filter_eq_self]
  intro e he
  rw [Option.isNone_iff_eq_none]
  exact List.filterMap_eq_nil_iff.mp h e he

/-- Splitting keeps the other entries and the last `CE` entry. -/
theorem splitContinuation_eq (area : Option (List SystemUseEntry)) :
    splitContinuation area
      = (plain (area.getD []), (continuations (area.getD [])).getLast?) := by
  -- the body of the fold does one of two things
  have hfold : ∀ f : List SystemUseEntry × Option ContinuationArea →
        SystemUseEntry → List SystemUseEntry × Option ContinuationArea,
      (∀ acc last c, f (acc, last) (.continuationArea c) = (acc, some c)) →
      (∀ acc last e, e.asContinuation = none →
        f (acc, last) e = (acc ++ [e], last)) →
      ∀ (susp acc : List SystemUseEntry) (last : Option ContinuationArea),
        susp.foldl f (acc, last)
          = (acc ++ plain susp, (continuations susp).getLast?.or last) := by
    intro f hce hplain susp
    induction susp with
    | nil =>
        intro acc last
        simp [plain, continuations]
    | cons e susp ih =>
        intro acc last
        rw [List.foldl_cons]
        cases e with
        | continuationArea c =>
            rw [hce, ih]
            simp [plain, continuations, SystemUseEntry.asContinuation,
              List.getLast?_cons, Option.or_some]
        | _ =>
            rw [hplain _ _ _ rfl, ih]
            simp [plain, continuations, SystemUseEntry.asContinuation]
  cases area with
  | none => rfl
  | some susp =>
      refine (hfold _ (fun _ _ _ => rfl) ?_ susp [] none).trans ?_
      · intro acc last e he
        cases e with
        | continuationArea c => cases he
        | _ => rfl
      · rw [List.nil_append, Option.or_none]
        rfl

/-- Removing takes the first `CE` entry out of the list, if there is
one. -/
theorem removeContinuation_eq (susp : List SystemUseEntry) :
    (removeContinuation susp).1.toList
        ++ continuations (removeContinuation susp).2 = continuations susp
      ∧ plain (removeContinuation susp).2 = plain susp
      ∧ ((removeContinuation susp).1 = none →
        continuations (removeContinuation susp).2 = []) := by
  induction susp with
  | nil => exact ⟨rfl, rfl, fun _ => rfl⟩
  | cons e susp ih =>
      obtain ⟨hce, hplain, hnone⟩ := ih
      cases e with
      | continuationArea c => exact ⟨rfl, rfl, fun h => nomatch h⟩
      | _ => exact ⟨hce, congrArg (List.cons _) hplain, hnone⟩

theorem readContinuation_serves (hserve : rd.Serves src)
    (cont : ContinuationArea) (s : σ) :
    (readContinuation b rd cont s).1
      = (readContinuation b src.reader cont ()).1 := by
  have h := hserve s BlockBuffer.new cont.blockLocation.toNat
  simp only [readContinuation, Source.reader]
  rw [← h]

theorem pullContinuations_serves (hserve : rd.Serves src) (fuel : Nat) :
    ∀ (susp : List SystemUseEntry) (cont : Option ContinuationArea) (s : σ),
      (pullContinuations b rd fuel susp cont s).1
        = (pullContinuations b src.reader fuel susp cont ()).1 := by
  induction fuel with
  | zero =>
      intro susp cont s
      cases cont with
      | none => rfl
      | some cont => rfl
  | succ fuel ih =>
      intro susp cont s
      cases cont with
      | none => rfl
      | some cont =>
          have hread := readContinuation_serves (b := b) hserve cont s
          unfold pullContinuations
          rcases h₁ : readContinuation b rd cont s with ⟨r, s'⟩
          rcases h₂ : readContinuation b src.reader cont () with ⟨r', ⟨⟩⟩
          rw [h₁, h₂] at hread
          dsimp only at hread
          subst hread
          cases r with
          | ok contSusp => exact ih _ _ _
          | err e => rfl
          | panic => rfl
          | running => rfl

theorem decodeEntry_serves (hserve : rd.Serves src) (fuel : Nat)
    (dir : ISODirectory) (block : BlockBuffer) (blockNum blockPos : Nat)
    (s : σ) :
    (decodeEntry b rd fuel dir block blockNum blockPos s).1
      = (decodeEntry b src.reader fuel dir block blockNum blockPos ()).1 := by
  unfold decodeEntry
  cases DirectoryEntryHeader.parse b (block.bytes.drop blockPos)
      dir.header.characterEncoding with
  | ok r =>
      dsimp only
      rw [pullContinuations_serves hserve]
  | err e => rfl
  | panic => rfl
  | running => rfl

-- ============================================================ the entry

/-- The entry recorded at an offset of the directory's extent. -/
def entryAt (b : Build) (src : Source) (fuel : Nat) (dir : ISODirectory)
    (offset : Nat) : Outcome ISOError (DirectoryEntry × Option Nat) := do
  let block ← blockAt src dir (offset / BLOCK_SIZE)
  (decodeEntry b src.reader fuel dir block (offset / BLOCK_SIZE)
    (offset % BLOCK_SIZE) ()).1

/-- Over a repeatable source a call with a coherent cache computes
`entryAt`, and leaves the cache coherent. -/
theorem readEntryAt_serves (hserve : rd.Serves src) (fuel : Nat)
    {dir : ISODirectory} {cache : BlockCache}
    (hco : Coherent src dir cache) (offset : Nat) (s : σ) :
    (readEntryAt b rd fuel dir cache offset s).1
        = entryAt b src fuel dir offset
      ∧ Coherent src dir (readEntryAt b rd fuel dir cache offset s).2.1 := by
  obtain ⟨hr, hco', hblk⟩ :=
    loadBlock_serves hserve hco (offset / BLOCK_SIZE) s
  unfold readEntryAt entryAt
  dsimp only
  rcases hload : loadBlock rd dir cache (offset / BLOCK_SIZE) s
    with ⟨r, cache', s'⟩
  rw [hload] at hr hco' hblk
  dsimp only at hr hco' hblk
  cases hat : blockAt src dir (offset / BLOCK_SIZE) with
  | ok block =>
      rw [hat] at hr
      subst hr
      dsimp only [Outcome.map]
      rw [hblk block hat]
      exact ⟨decodeEntry_serves hserve fuel dir block _ _ s', hco'⟩
  | err | panic | running =>
      rw [hat] at hr
      subst hr
      exact ⟨rfl, hco'⟩

-- ========================================================== the iterator

/-- One call of `next` with a coherent cache. -/
theorem next_serves (hserve : rd.Serves src) (fuel : Nat)
    {dir : ISODirectory} {it : ISODirectoryIterator}
    (hco : Coherent src dir it.cache) (s : σ) :
    (it.next b rd fuel dir s).1
        = it.nextOffset.map
            (fun o => (entryAt b src fuel dir o).map Prod.fst)
      ∧ (it.next b rd fuel dir s).2.1.nextOffset
        = Cursor.advance (entryAt b src fuel dir) it.nextOffset
      ∧ Coherent src dir (it.next b rd fuel dir s).2.1.cache := by
  unfold ISODirectoryIterator.next
  cases hoff : it.nextOffset with
  | none => exact ⟨rfl, hoff, hco⟩
  | some offset =>
      obtain ⟨hr, hco'⟩ := readEntryAt_serves (b := b) hserve fuel hco offset s
      dsimp only
      rcases hcall : readEntryAt b rd fuel dir it.cache offset s
        with ⟨r, cache', s'⟩
      rw [hcall] at hr hco'
      dsimp only at hr hco'
      simp only [Option.map_some, Cursor.advance, ← hr]
      cases r with
      | ok r => exact ⟨rfl, rfl, hco'⟩
      | err | panic | running => exact ⟨rfl, rfl, hco'⟩

/-- The calls of `next` are a cursor over `entryAt`. -/
theorem next_iterate (hserve : rd.Serves src) (fuel : Nat)
    (dir : ISODirectory) (n : Nat) :
    ∀ (it : ISODirectoryIterator) (s : σ), Coherent src dir it.cache →
      (iterate b rd fuel dir n it s).1.nextOffset
          = (Cursor.advance (entryAt b src fuel dir))^[n] it.nextOffset
        ∧ Coherent src dir (iterate b rd fuel dir n it s).1.cache := by
  induction n with
  | zero => exact fun it s hco => ⟨rfl, hco⟩
  | succ n ih =>
      intro it s hco
      obtain ⟨-, hoff, hco'⟩ := next_serves (b := b) hserve fuel hco s
      rw [Function.iterate_succ_apply, ← hoff]
      exact ih _ _ hco'

/-- What the calls of `next` on `contents()` return. -/
theorem item_eq (hserve : rd.Serves src) (fuel : Nat) (dir : ISODirectory)
    (s : σ) (n : Nat) :
    item b rd fuel dir s n
      = Cursor.itemFrom (entryAt b src fuel dir) (some 0) n := by
  obtain ⟨hoff, hco⟩ := next_iterate (b := b) hserve fuel dir n contents s
    (coherent_new src dir)
  rw [Cursor.itemFrom_eq]
  exact (next_serves hserve fuel hco _).1.trans (by rw [hoff]; rfl)

-- ================================================== a successful call

/-- The record at an offset: the block it is in, and what is parsed from
the block there. -/
def parseAt (b : Build) (src : Source) (dir : ISODirectory) (offset : Nat) :
    Outcome ISOError (BlockBuffer × DirectoryEntryHeader × String
      × Option (List SystemUseEntry)) := do
  let block ← blockAt src dir (offset / BLOCK_SIZE)
  let r ← DirectoryEntryHeader.parse b
    (block.bytes.drop (offset % BLOCK_SIZE)) dir.header.characterEncoding
  .ok (block, r)

/-- A record's system use entries with those of its continuation
areas. -/
def completeSusp (b : Build) (src : Source) (fuel : Nat)
    (area : Option (List SystemUseEntry)) :
    Outcome ISOError (List SystemUseEntry) :=
  (pullContinuations b src.reader fuel (splitContinuation area).1
    (splitContinuation area).2 ()).1

/-- The entry of a record whose system use entries are complete. -/
def buildEntry (b : Build) (header : DirectoryEntryHeader)
    (identifier : String) (susp : List SystemUseEntry) :
    Outcome ISOError DirectoryEntry := do
  let ext ← extraMeta b susp
  let entry ← DirectoryEntry.new header ext identifier
  match childLink susp with
  | some cl =>
      match entry with
      | .file file => .ok (.directory (relocate file cl))
      | _ => .panic
  | none => .ok entry

/-- Where the record after the one at an offset is. -/
def nextOffset (b : Build) (dir : ISODirectory) (block : BlockBuffer)
    (offset : Nat) (header : DirectoryEntryHeader) :
    Outcome ISOError (Option Nat) := do
  let blockCount ← dir.blockCount b
  let next := nextPosition block (offset / BLOCK_SIZE)
    (offset % BLOCK_SIZE + header.length.toNat)
  .ok (if next.1 < blockCount then some (2048 * next.1 + next.2) else none)

theorem blockCount_eq (b : Build) (dir : ISODirectory) :
    dir.blockCount b
      = ceilDivW 32 b.overflowChecks dir.header.extentLength.toNat
          BLOCK_SIZE := rfl

/-- What the blocks of an extent are counted to be. -/
theorem ceilBlocks_cases {ε : Type} (checks : Bool) (len : UInt32) :
    (ceilDivW 32 checks len.toNat BLOCK_SIZE : Outcome ε Nat)
        = .ok ((len.toNat + (BLOCK_SIZE - 1)) / BLOCK_SIZE)
        ∧ (len.toNat + BLOCK_SIZE < 2 ^ 32
          ∨ checks = false ∧ len.toNat + BLOCK_SIZE = 2 ^ 32)
      ∨ (ceilDivW 32 checks len.toNat BLOCK_SIZE : Outcome ε Nat) = .ok 0
        ∧ checks = false ∧ 2 ^ 32 < len.toNat + BLOCK_SIZE
      ∨ (ceilDivW 32 checks len.toNat BLOCK_SIZE : Outcome ε Nat) = .panic
        ∧ checks = true ∧ 2 ^ 32 ≤ len.toNat + BLOCK_SIZE :=
  ceilDivW_cases checks (by decide) (by decide) len.toNat_lt

/-- There is a count, or an overflow that is checked. -/
theorem ceilBlocks_ok_or_panic {ε : Type} (checks : Bool) (len : UInt32) :
    (∃ n, (ceilDivW 32 checks len.toNat BLOCK_SIZE : Outcome ε Nat) = .ok n)
        ∧ (checks = true → len.toNat + BLOCK_SIZE < 2 ^ 32)
      ∨ (ceilDivW 32 checks len.toNat BLOCK_SIZE : Outcome ε Nat) = .panic
        ∧ ¬ (checks = true → len.toNat + BLOCK_SIZE < 2 ^ 32) := by
  rcases ceilBlocks_cases (ε := ε) checks len with ⟨hcount, hfit⟩ |
    ⟨hcount, hchecks, -⟩ | ⟨hcount, hchecks, hlarge⟩
  · refine Or.inl ⟨⟨_, hcount⟩, fun hon => ?_⟩
    rcases hfit with hlt | ⟨hchecks, -⟩
    · exact hlt
    · exact Bool.noConfusion (hon.symm.trans hchecks)
  · exact Or.inl ⟨⟨_, hcount⟩,
      fun hon => Bool.noConfusion (hon.symm.trans hchecks)⟩
  · exact Or.inr ⟨hcount, fun h => Nat.not_lt.mpr hlarge (h hchecks)⟩

/-- A block count is computed or its overflow is a panic. -/
theorem blockCount_cases (b : Build) (dir : ISODirectory) :
    (∃ n, dir.blockCount b = .ok n) ∨ dir.blockCount b = .panic := by
  rw [blockCount_eq]
  rcases ceilBlocks_ok_or_panic (ε := ISOError) b.overflowChecks
    dir.header.extentLength with ⟨hok, -⟩ | ⟨hpanic, -⟩
  · exact Or.inl hok
  · exact Or.inr hpanic

theorem finishEntry_eq (dir : ISODirectory) (block : BlockBuffer)
    (offset : Nat) (header : DirectoryEntryHeader) (identifier : String)
    (susp : List SystemUseEntry) :
    finishEntry b dir block (offset / BLOCK_SIZE) (offset % BLOCK_SIZE)
        header identifier susp
      = (do
        let entry ← buildEntry b header identifier susp
        let next ← nextOffset b dir block offset header
        .ok (entry, next)) := by
  unfold finishEntry buildEntry nextOffset
  cases extraMeta b susp with
  | err | panic | running => rfl
  | ok ext =>
      simp only [Outcome.ok_bind]
      cases DirectoryEntry.new header ext identifier with
      | err | panic | running =>
          simp only [Outcome.err_bind, Outcome.panic_bind,
            Outcome.running_bind]
      | ok built =>
          -- the source counts the blocks before it looks for a `CL`
          -- entry; both can only panic, so the order does not show
          rcases blockCount_cases b dir with ⟨count, hcount⟩ | hpanic
          · rw [hcount]
            cases childLink susp with
            | none => rfl
            | some cl => cases built <;> rfl
          · rw [hpanic]
            cases childLink susp with
            | none => rfl
            | some cl => cases built <;> rfl

/-- A call is the record, its system use entries, its entry and the next
offset, in this order; the directory's length matters in the last part
only. -/
theorem entryAt_eq (fuel : Nat) (dir : ISODirectory) (offset : Nat) :
    entryAt b src fuel dir offset = (do
      let (block, header, identifier, area) ← parseAt b src dir offset
      let susp ← completeSusp b src fuel area
      let entry ← buildEntry b header identifier susp
      let next ← nextOffset b dir block offset header
      .ok (entry, next)) := by
  unfold entryAt parseAt
  cases blockAt src dir (offset / BLOCK_SIZE) with
  | err | panic | running => rfl
  | ok block =>
      dsimp only [Outcome.ok_bind, decodeEntry]
      cases DirectoryEntryHeader.parse b
          (block.bytes.drop (offset % BLOCK_SIZE))
          dir.header.characterEncoding with
      | err | panic | running => rfl
      | ok r =>
          obtain ⟨header, identifier, area⟩ := r
          dsimp only [Outcome.ok_bind, completeSusp]
          simp only [finishEntry_eq]

/-- A call succeeds exactly when the record can be read, its system use
entries completed and its entry built. -/
theorem entryAt_eq_ok {fuel : Nat} {dir : ISODirectory} {offset : Nat}
    {entry : DirectoryEntry} {next : Option Nat} :
    entryAt b src fuel dir offset = .ok (entry, next)
      ↔ ∃ block header identifier area susp,
          parseAt b src dir offset = .ok (block, header, identifier, area)
          ∧ completeSusp b src fuel area = .ok susp
          ∧ buildEntry b header identifier susp = .ok entry
          ∧ nextOffset b dir block offset header = .ok next := by
  rw [entryAt_eq]
  simp only [Outcome.bind_eq_ok, Prod.exists, Outcome.ok.injEq,
    Prod.mk.injEq]
  constructor
  · rintro ⟨block, header, identifier, area, hparse, susp, hsusp, _, hbuild,
      _, hnext, rfl, rfl⟩
    exact ⟨block, header, identifier, area, susp, hparse, hsusp, hbuild,
      hnext⟩
  · rintro ⟨block, header, identifier, area, susp, hparse, hsusp, hbuild,
      hnext⟩
    exact ⟨block, header, identifier, area, hparse, susp, hsusp, _, hbuild,
      _, hnext, rfl, rfl⟩

/-- An entry has the metadata of its system use entries. -/
theorem buildEntry_ext {header : DirectoryEntryHeader} {identifier : String}
    {susp : List SystemUseEntry} {entry : DirectoryEntry}
    (h : buildEntry b header identifier susp = .ok entry) :
    extraMeta b susp = .ok entry.ext := by
  obtain ⟨ext, hext, h⟩ := Outcome.bind_eq_ok.mp h
  obtain ⟨built, hnew, h⟩ := Outcome.bind_eq_ok.mp h
  have hframe := (DirectoryEntry.new_frame hnew).2
  rw [hext]
  split at h
  · split at h
    · injection h with h
      rw [← h]
      exact congrArg Outcome.ok hframe.symm
    · cases h
  · injection h with h
    rw [← h, hframe]

/-- An entry has the length of its record, also when a `CL` entry moves
it. -/
theorem buildEntry_length {header : DirectoryEntryHeader}
    {identifier : String} {susp : List SystemUseEntry}
    {entry : DirectoryEntry}
    (h : buildEntry b header identifier susp = .ok entry) :
    entry.header.length = header.length := by
  obtain ⟨ext, hext, h⟩ := Outcome.bind_eq_ok.mp h
  obtain ⟨built, hnew, h⟩ := Outcome.bind_eq_ok.mp h
  have hframe := congrArg (·.length) (DirectoryEntry.new_frame hnew).1
  split at h
  · split at h
    · injection h with h
      rw [← h]
      exact hframe
    · cases h
  · injection h with h
    rw [← h]
    exact hframe

/-- An entry that is read has the metadata of the system use entries that
are read. -/
theorem readEntryAt_ext (hserve : rd.Serves src) {fuel : Nat}
    {dir : ISODirectory} {cache : BlockCache} {offset : Nat} {s : σ}
    {block : BlockBuffer} {header : DirectoryEntryHeader}
    {identifier : String} {area : Option (List SystemUseEntry)}
    {susp : List SystemUseEntry} {entry : DirectoryEntry}
    {next : Option Nat} (hco : Coherent src dir cache)
    (hparse : parseAt b src dir offset
      = .ok (block, header, identifier, area))
    (hcomplete : completeSusp b src fuel area = .ok susp)
    (hread : (readEntryAt b rd fuel dir cache offset s).1
      = .ok (entry, next)) :
    extraMeta b susp = .ok entry.ext := by
  rw [(readEntryAt_serves hserve fuel hco offset s).1, entryAt_eq_ok]
    at hread
  obtain ⟨block', header', identifier', area', susp', hparse', hcomplete',
    hbuild, -⟩ := hread
  rw [hparse] at hparse'
  injection hparse' with hparse'
  injection hparse' with _ hparse'
  injection hparse' with _ hparse'
  injection hparse' with _ harea
  rw [← harea, hcomplete] at hcomplete'
  injection hcomplete' with hsame
  rw [hsame]
  exact buildEntry_ext hbuild

theorem parseAt_eq_ok {dir : ISODirectory} {offset : Nat}
    {block : BlockBuffer} {header : DirectoryEntryHeader}
    {identifier : String} {area : Option (List SystemUseEntry)} :
    parseAt b src dir offset = .ok (block, header, identifier, area)
      ↔ blockAt src dir (offset / BLOCK_SIZE) = .ok block
        ∧ DirectoryEntryHeader.parse b
            (block.bytes.drop (offset % BLOCK_SIZE))
            dir.header.characterEncoding = .ok (header, identifier, area) := by
  unfold parseAt
  cases blockAt src dir (offset / BLOCK_SIZE) with
  | err | panic | running => simp
  | ok block' =>
      simp only [Outcome.ok_bind, Outcome.bind_eq_ok, Outcome.ok.injEq,
        Prod.mk.injEq]
      constructor
      · rintro ⟨r, hr, rfl, rfl⟩
        exact ⟨rfl, hr⟩
      · rintro ⟨rfl, hr⟩
        exact ⟨_, hr, rfl, rfl⟩

theorem nextOffset_eq_ok {dir : ISODirectory} {block : BlockBuffer}
    {offset : Nat} {header : DirectoryEntryHeader} {next : Option Nat} :
    nextOffset b dir block offset header = .ok next
      ↔ ∃ count, dir.blockCount b = .ok count
        ∧ next = if (nextPosition block (offset / BLOCK_SIZE)
              (offset % BLOCK_SIZE + header.length.toNat)).1 < count
            then some (2048 * (nextPosition block (offset / BLOCK_SIZE)
                (offset % BLOCK_SIZE + header.length.toNat)).1
              + (nextPosition block (offset / BLOCK_SIZE)
                (offset % BLOCK_SIZE + header.length.toNat)).2)
            else none := by
  unfold nextOffset
  rw [Outcome.bind_eq_ok]
  constructor
  · rintro ⟨count, hcount, hnext⟩
    injection hnext with hnext
    exact ⟨count, hcount, hnext.symm⟩
  · rintro ⟨count, hcount, rfl⟩
    exact ⟨count, hcount, rfl⟩

-- ============================================================= progress

/-- The block count is less than `2 ^ 21`, also when it is wrong. -/
theorem blockCount_lt {dir : ISODirectory} {count : Nat}
    (h : dir.blockCount b = .ok count) : count < 2 ^ 21 := by
  rw [blockCount_eq] at h
  rcases ceilBlocks_cases (ε := ISOError) b.overflowChecks
    dir.header.extentLength with ⟨hcount, hfit⟩ | ⟨hcount, -⟩ | ⟨hcount, -⟩
  · rw [hcount] at h
    injection h with h
    unfold BLOCK_SIZE at h hfit
    omega
  · rw [hcount] at h
    injection h with h
    omega
  · rw [hcount] at h
    cases h

/-- The count is right for whole blocks, except that with overflow checks
there is none for the longest extent. -/
theorem blockCount_whole {dir : ISODirectory} {n : Nat} (hn : 0 < n)
    (hlen : dir.header.extentLength.toNat = BLOCK_SIZE * n) :
    dir.blockCount b
      = if n < 2 ^ 21 - 1 ∨ b.overflowChecks = false then .ok n
        else .panic := by
  have hlt := dir.header.extentLength.toNat_lt
  rw [blockCount_eq]
  unfold BLOCK_SIZE at hlen
  rcases ceilBlocks_cases (ε := ISOError) b.overflowChecks
    dir.header.extentLength with ⟨hcount, hfit⟩ | ⟨-, -, hlarge⟩ |
      ⟨hcount, hchecks, hlarge⟩
  · have hquot : (dir.header.extentLength.toNat + (BLOCK_SIZE - 1))
        / BLOCK_SIZE = n := by
      unfold BLOCK_SIZE
      omega
    rw [hcount, hquot, if_pos]
    unfold BLOCK_SIZE at hfit
    exact hfit.imp (fun h => by omega) And.left
  · -- the sum is `2 ^ 32` at most
    unfold BLOCK_SIZE at hlarge
    omega
  · rw [hcount, hchecks, if_neg]
    unfold BLOCK_SIZE at hlarge
    rintro (h | h)
    · omega
    · cases h

/-- The record after this one is at the start of the next block, or
right behind this one with room for a record's fixed fields. -/
theorem nextPosition_cases (block : BlockBuffer) (blockNum blockPos : Nat) :
    nextPosition block blockNum blockPos = (blockNum + 1, 0)
      ∨ nextPosition block blockNum blockPos = (blockNum, blockPos)
        ∧ blockPos < BLOCK_SIZE - 33 := by
  unfold nextPosition
  split
  · exact Or.inl rfl
  · rename_i hcond
    simp only [Bool.or_eq_true, decide_eq_true_eq] at hcond
    refine Or.inr ⟨rfl, ?_⟩
    unfold BLOCK_SIZE
    omega

theorem parse_length {block : BlockBuffer} {blockPos : Nat}
    {enc : CharacterEncoding} {header : DirectoryEntryHeader}
    {identifier : String} {area : Option (List SystemUseEntry)}
    (h : DirectoryEntryHeader.parse b (block.bytes.drop blockPos) enc
      = .ok (header, identifier, area)) :
    34 ≤ header.length.toNat
      ∧ blockPos + header.length.toNat ≤ BLOCK_SIZE := by
  obtain ⟨⟨rest, r⟩, hparse, h⟩ := Outcome.bind_eq_ok.mp h
  injection h with h
  subst h
  rw [liftNom_eq_ok] at hparse
  have hsize := block.size
  have hdrop : (block.bytes.drop blockPos).length = 2048 - blockPos := by
    rw [List.length_drop, hsize]
  have hlen := directoryEntry_length b (by omega) hparse
  unfold BLOCK_SIZE
  omega

/-- A header keeps the encoding it was parsed with. -/
theorem parse_encoding {block : BlockBuffer} {blockPos : Nat}
    {enc : CharacterEncoding} {header : DirectoryEntryHeader}
    {identifier : String} {area : Option (List SystemUseEntry)}
    (h : DirectoryEntryHeader.parse b (block.bytes.drop blockPos) enc
      = .ok (header, identifier, area)) :
    header.characterEncoding = enc := by
  obtain ⟨⟨rest, r⟩, hparse, h⟩ := Outcome.bind_eq_ok.mp h
  injection h with h
  subst h
  rw [liftNom_eq_ok] at hparse
  exact directoryEntry_encoding b hparse

/-- The next offset is in a counted block: the start of the next one, or
right behind the record with room for another. -/
theorem nextOffset_eq_some {dir : ISODirectory} {block : BlockBuffer}
    {offset offset' : Nat} {header : DirectoryEntryHeader}
    (h : nextOffset b dir block offset header = .ok (some offset')) :
    ∃ count, dir.blockCount b = .ok count
      ∧ (offset' = BLOCK_SIZE * (offset / BLOCK_SIZE + 1)
          ∧ offset / BLOCK_SIZE + 1 < count
        ∨ offset' = offset + header.length.toNat
          ∧ offset % BLOCK_SIZE + header.length.toNat < BLOCK_SIZE - 33
          ∧ offset / BLOCK_SIZE < count) := by
  obtain ⟨count, hcount, hnext⟩ := nextOffset_eq_ok.mp h
  refine ⟨count, hcount, ?_⟩
  rcases nextPosition_cases block (offset / BLOCK_SIZE)
    (offset % BLOCK_SIZE + header.length.toNat) with hpos | ⟨hpos, hroom⟩
  · rw [hpos] at hnext
    split at hnext
    · rename_i hlt
      injection hnext with hnext
      exact Or.inl ⟨hnext, hlt⟩
    · cases hnext
  · rw [hpos] at hnext
    split at hnext
    · rename_i hlt
      injection hnext with hnext
      have hsplit := Nat.div_add_mod offset BLOCK_SIZE
      change offset' = BLOCK_SIZE * (offset / BLOCK_SIZE) + _ at hnext
      exact Or.inr ⟨by omega, hroom, hlt⟩
    · cases hnext

/-- The next offset is further on, and below `2 ^ 32`. -/
theorem nextOffset_progress {dir : ISODirectory} {block : BlockBuffer}
    {offset offset' : Nat} {header : DirectoryEntryHeader}
    (hlen : 34 ≤ header.length.toNat)
    (h : nextOffset b dir block offset header = .ok (some offset')) :
    offset < offset' ∧ offset' < 2 ^ 32 := by
  obtain ⟨count, hcount, hnext⟩ := nextOffset_eq_some h
  have hlt := blockCount_lt hcount
  unfold BLOCK_SIZE at hnext
  omega

/-- A successful call moves on, and stays below `2 ^ 32`. -/
theorem entryAt_progress {fuel : Nat} {dir : ISODirectory}
    {offset offset' : Nat} {entry : DirectoryEntry}
    (h : entryAt b src fuel dir offset = .ok (entry, some offset')) :
    offset < offset' ∧ offset' < 2 ^ 32 := by
  obtain ⟨block, header, identifier, area, susp, hparse, -, -, hnext⟩ :=
    entryAt_eq_ok.mp h
  obtain ⟨-, hparse⟩ := parseAt_eq_ok.mp hparse
  exact nextOffset_progress (parse_length hparse).1 hnext

/-- So the way to the last possible offset gets shorter. -/
theorem entryAt_measure {fuel : Nat} {dir : ISODirectory} :
    ∀ offset entry offset',
      entryAt b src fuel dir offset = .ok (entry, some offset') →
      2 ^ 32 - 1 - offset' < 2 ^ 32 - 1 - offset := by
  intro offset entry offset' h
  have := entryAt_progress h
  omega

/-- A call loads a block, parses the record at its position in it, and
reads the record's continuation areas. -/
def ReadsRecord (b : Build) (rd : ISO9660Reader σ) (fuel : Nat)
    (dir : ISODirectory) (cache : BlockCache) (offset : Nat) (s : σ)
    (cache' : BlockCache) (header : DirectoryEntryHeader)
    (identifier : String) (susp : List SystemUseEntry) : Prop :=
  ∃ area s', loadBlock rd dir cache (offset / BLOCK_SIZE) s
      = (.ok (), cache', s')
    ∧ DirectoryEntryHeader.parse b
      (cache'.block.bytes.drop (offset % BLOCK_SIZE))
      dir.header.characterEncoding = .ok (header, identifier, area)
    ∧ (pullContinuations b rd fuel (splitContinuation area).1
      (splitContinuation area).2 s').1 = .ok susp

/-- So does every call that succeeds, over any reader and with any cache:
the entry is built from the record, and the next offset is the one behind
it. -/
theorem readEntryAt_eq_ok {fuel : Nat} {dir : ISODirectory}
    {cache cache' : BlockCache} {offset : Nat} {next : Option Nat}
    {entry : DirectoryEntry} {s s' : σ}
    (h : readEntryAt b rd fuel dir cache offset s
      = (.ok (entry, next), cache', s')) :
    ∃ header identifier susp,
      ReadsRecord b rd fuel dir cache offset s cache' header identifier susp
        ∧ buildEntry b header identifier susp = .ok entry
        ∧ nextOffset b dir cache'.block offset header = .ok next := by
  unfold readEntryAt at h
  dsimp only at h
  split at h
  · rename_i cache s hload
    injection h with hdecode h
    injection h with hcache _
    subst hcache
    unfold decodeEntry at hdecode
    split at hdecode
    · rename_i header identifier area hparse
      obtain ⟨susp, hpull, hfinish⟩ := Outcome.bind_eq_ok.mp hdecode
      rw [finishEntry_eq] at hfinish
      obtain ⟨_, hbuild, hfinish⟩ := Outcome.bind_eq_ok.mp hfinish
      obtain ⟨_, hnext, heq⟩ := Outcome.bind_eq_ok.mp hfinish
      injection heq with heq
      injection heq with hentry heq
      subst hentry heq
      exact ⟨header, identifier, susp, ⟨area, s, hload, hparse, hpull⟩,
        hbuild, hnext⟩
    all_goals cases hdecode
  all_goals
    injection h with h
    cases h

/-- What a call reads is determined. -/
theorem ReadsRecord.unique {fuel : Nat} {dir : ISODirectory}
    {cache cache₁ cache₂ : BlockCache} {offset : Nat} {s : σ}
    {header₁ header₂ : DirectoryEntryHeader}
    {identifier₁ identifier₂ : String} {susp₁ susp₂ : List SystemUseEntry}
    (h₁ : ReadsRecord b rd fuel dir cache offset s cache₁ header₁
      identifier₁ susp₁)
    (h₂ : ReadsRecord b rd fuel dir cache offset s cache₂ header₂
      identifier₂ susp₂) :
    cache₁ = cache₂ ∧ header₁ = header₂ ∧ identifier₁ = identifier₂
      ∧ susp₁ = susp₂ := by
  obtain ⟨area₁, s₁, hload₁, hparse₁, hpull₁⟩ := h₁
  obtain ⟨area₂, s₂, hload₂, hparse₂, hpull₂⟩ := h₂
  rw [hload₁] at hload₂
  injection hload₂ with _ hload₂
  injection hload₂ with hcache hs
  subst hcache hs
  rw [hparse₁] at hparse₂
  injection hparse₂ with hparse₂
  injection hparse₂ with hheader hparse₂
  injection hparse₂ with hidentifier harea
  subst hheader hidentifier harea
  rw [hpull₁] at hpull₂
  injection hpull₂ with hsusp
  exact ⟨rfl, rfl, rfl, hsusp⟩

/-- The record of a call, and that the entry is as long as it. -/
theorem readEntryAt_record {fuel : Nat} {dir : ISODirectory}
    {cache cache' : BlockCache} {offset : Nat} {next : Option Nat}
    {entry : DirectoryEntry} {s s' : σ}
    (h : readEntryAt b rd fuel dir cache offset s
      = (.ok (entry, next), cache', s')) :
    ∃ header identifier area,
      DirectoryEntryHeader.parse b
          (cache'.block.bytes.drop (offset % BLOCK_SIZE))
          dir.header.characterEncoding = .ok (header, identifier, area)
        ∧ entry.header.length = header.length
        ∧ nextOffset b dir cache'.block offset header = .ok next := by
  obtain ⟨header, identifier, _, ⟨area, _, -, hparse, -⟩, hbuild, hnext⟩ :=
    readEntryAt_eq_ok h
  exact ⟨header, identifier, area, hparse, buildEntry_length hbuild, hnext⟩

/-- So it moves on as well. -/
theorem readEntryAt_progress {fuel : Nat} {dir : ISODirectory}
    {cache cache' : BlockCache} {offset offset' : Nat}
    {entry : DirectoryEntry} {s s' : σ}
    (h : readEntryAt b rd fuel dir cache offset s
      = (.ok (entry, some offset'), cache', s')) :
    offset < offset' ∧ offset' < 2 ^ 32 := by
  obtain ⟨header, _, _, hparse, -, hnext⟩ := readEntryAt_record h
  exact nextOffset_progress (parse_length hparse).1 hnext

end Cdfs
