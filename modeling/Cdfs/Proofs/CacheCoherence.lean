/-
The two block caches over a source that fails.

A file reader and a caller of `read_entry_at` both keep one block and a
tag that says which block it is. `read_at` may fail at any call, and a
call that fails may have written to the buffer. In both places the error
is returned before the tag is set, so that the tag goes on to name what
the buffer held before; a count of less than a block empties the
directory's cache, an error does not.

As long as the calls that fail leave a buffer that is in use alone, the
caches cannot be told from empty ones (`caches_coherent`). A bad sector
that leaves its traces in the buffer is enough to make them differ, and
the block that was cached before is then read wrong
(`caches_incoherent`).
-/
import Cdfs.Proofs.Continuation
import Cdfs.Proofs.FileReader

namespace Cdfs

open Rust Parse ISOFileReader

variable {σ ι : Type} {b : Build} {rd : ISO9660Reader σ}
  {blocks : Nat → BlockBuffer}

-- ========================================================== whole blocks

/-- A call that succeeds has delivered the whole block. Nothing is said
about a call that fails, nor when calls fail. -/
def ISO9660Reader.DeliversWhole (rd : ISO9660Reader σ)
    (blocks : Nat → BlockBuffer) : Prop :=
  ∀ (s s' : σ) (buf buf' : BlockBuffer) (lba count : Nat),
    rd.readAt s buf lba = (s', buf', .ok count) →
    count = BLOCK_SIZE ∧ buf' = blocks lba

/-- A call of `read_at` into a cache's buffer does no damage: it
succeeds, or nothing is cached, or the buffer is as it was. -/
def Undamaged (rd : ISO9660Reader σ) (tag : Option Nat)
    (buf : BlockBuffer) (lba : Nat) (s : σ) : Prop :=
  match (rd.readAt s buf lba).2 with
  | (_, .ok _) => True
  | (buf', _) => tag = none ∨ buf' = buf

theorem Undamaged.of_failure {tag : Option Nat} {buf buf' : BlockBuffer}
    {lba : Nat} {s s' : σ} {x : Outcome IoError Nat}
    (h : Undamaged rd tag buf lba s)
    (hread : rd.readAt s buf lba = (s', buf', x)) (hx : ∀ c, x ≠ .ok c) :
    tag = none ∨ buf' = buf := by
  unfold Undamaged at h
  rw [hread] at h
  cases x with
  | ok c => exact absurd rfl (hx c)
  | err | panic | running => exact h

/-- With nothing cached there is nothing to damage. -/
theorem Undamaged.of_empty (buf : BlockBuffer) (lba : Nat) (s : σ) :
    Undamaged rd none buf lba s := by
  unfold Undamaged
  rcases rd.readAt s buf lba with ⟨s', buf', x⟩
  cases x with
  | ok c => trivial
  | err | panic | running => exact Or.inl rfl

/-- The blocks as a source that never fails. -/
def blockSource (blocks : Nat → BlockBuffer) : Source where
  deliver lba := .ok (blocks lba).bytes
  atMostBlock {lba _} h := (blocks lba).delivered_le h

theorem blockSource_returns (lba : Nat) :
    (blockSource blocks).deliver lba ≠ .running := fun h => nomatch h

theorem blockSource_fill (blocks : Nat → BlockBuffer)
    (buf : BlockBuffer) (lba : Nat) :
    (blockSource blocks).fill buf lba = (blocks lba, .ok BLOCK_SIZE) := by
  have hsize := (blocks lba).size
  unfold Source.fill blockSource
  dsimp only
  rw [buf.overwrite_full hsize, hsize]

theorem blockSource_blockAt (dir : ISODirectory) (n : Nat) :
    blockAt (blockSource blocks) dir n
      = .ok (blocks (dir.header.extentLoc.toNat + n)) :=
  blockAt_of_full rfl (blocks _).size

-- ======================================================= the file reader

/-- The byte at an address of the blocks. -/
def byteOf (blocks : Nat → BlockBuffer) (address : Nat) : Option UInt8 :=
  (blocks (address / BLOCK_SIZE)).bytes[address % BLOCK_SIZE]?

theorem byteOf_block (lba : Nat) {k : Nat} (hk : k < BLOCK_SIZE) :
    byteOf blocks (BLOCK_SIZE * lba + k) = (blocks lba).bytes[k]? := by
  unfold byteOf
  rw [Nat.mul_add_div (by decide), Nat.div_eq_of_lt hk, Nat.add_zero,
    Nat.mul_add_mod, Nat.mod_eq_of_lt hk]

/-- The refill's call of `read_at`, if it makes one, does no damage. -/
def RefillsUndamaged (rd : ISO9660Reader σ) (r : ISOFileReader)
    (lba : Nat) (s : σ) : Prop :=
  r.bufLba ≠ some lba → Undamaged rd r.bufLba r.buf lba s

/-- The same for every refill of an operation. -/
def ReadsUndamaged (rd : ISO9660Reader σ) (w : Readers ι σ) (i : ι) :
    Op → Prop
  | .read buf =>
      ReadMeets rd (RefillsUndamaged rd) (w.reader i) buf.length w.state
  | .seek _ => True

/-- A refill that succeeds, or does no damage, keeps the invariant. -/
theorem keeps_of_undamaged (hwhole : rd.DeliversWhole blocks)
    {r : ISOFileReader} {lba : Nat} {s : σ}
    (h : (r.refill rd lba s).1 = .ok () ∨ RefillsUndamaged rd r lba s) :
    Keeps rd (byteOf blocks) r lba s := by
  by_cases htag : r.bufLba = some lba
  · intro hholds
    unfold refill
    rw [if_neg (not_not.mpr htag)]
    exact hholds
  · refine keeps_of ?_ ?_
    · intro s' buf c hread k hk
      obtain ⟨-, hbuf⟩ := hwhole _ _ _ _ _ _ hread
      have hk' : k < BLOCK_SIZE :=
        Nat.lt_of_lt_of_le hk (Nat.min_le_right _ _)
      rw [hbuf, byteOf_block lba hk']
    · intro s' buf x hread hx
      rcases h with hok | hclean
      · unfold refill at hok
        rw [if_pos htag, hread] at hok
        cases x with
        | ok c => exact absurd rfl (hx c)
        | err | panic | running => cases hok
      · exact (hclean htag).of_failure hread hx

theorem keepsAll_of_undamaged (hwhole : rd.DeliversWhole blocks)
    {w : Readers ι σ} {i : ι} {op : Op} (h : ReadsUndamaged rd w i op) :
    KeepsAll rd (byteOf blocks) w i op := by
  cases op with
  | seek pos => trivial
  | read buf =>
      exact EachRefill.mono _ _ _ _ _ (fun _ _ _ _ _ _ h =>
        keeps_of_undamaged hwhole (Or.inr h)) h

/-- A read that succeeds has made refills that succeeded, and it is as
specified whatever the calls after it do. -/
theorem read_ok_spec (hwhole : rd.DeliversWhole blocks)
    {r : ISOFileReader} (hholds : Holds (byteOf blocks) r)
    {buf : List UInt8} {s : σ} {n : Nat}
    (hn : (r.read rd buf s).result = .ok n) :
    Spec (byteOf blocks) r buf (r.read rd buf s) := by
  refine read_spec hholds buf s ?_
  refine EachRefill.mono _ _ _ _ _ ?_
    (eachRefill_of_ok buf.length r r.seek [] buf s hn)
  intro _ _ _ _ _ _ hok
  exact keeps_of_undamaged hwhole (Or.inl hok)

/-- The specification leaves one answer to a read that succeeds. -/
theorem spec_unique {image : Nat → Option UInt8} {r : ISOFileReader}
    {orig : List UInt8} {res res' : ReadResult σ} {n m : Nat}
    (h : Spec image r orig res) (h' : Spec image r orig res')
    (hn : res.result = .ok n) (hm : res'.result = .ok m) :
    n = m ∧ res.buf = res'.buf := by
  obtain ⟨hcount, -, hstored, hframe, -⟩ := h.onOk n hn
  obtain ⟨hcount', -, hstored', hframe', -⟩ := h'.onOk m hm
  have hnm : n = m := hcount.trans hcount'.symm
  subst hnm
  have hbuf : res.buf = res'.buf.take n ++ orig.drop n :=
    buf_eq_of_frame (fun k hk => (hstored k hk).trans (hstored' k hk).symm)
      hframe
  rw [← hframe', List.take_append_drop] at hbuf
  exact ⟨rfl, hbuf⟩

/-- After a run without damage a read that succeeds returns what a
reader with nothing cached returns at the same position. -/
theorem read_as_uncached [DecidableEq ι] (hwhole : rd.DeliversWhole blocks)
    {file : ι → ISOFile} {w : Readers ι σ}
    (hw : w.Run b rd (ReadsUndamaged rd) file) {i : ι} {buf : List UInt8}
    {n : Nat} (hn : (w.step b rd i (.read buf)).1.result = .ok n)
    {block : BlockBuffer} {s : σ} {m : Nat}
    (hm : (({ w.reader i with buf := block, bufLba := none }
      : ISOFileReader).read rd buf s).result = .ok m) :
    (w.step b rd i (.read buf)).1
      = ⟨.ok m, (({ w.reader i with buf := block, bufLba := none }
          : ISOFileReader).read rd buf s).buf⟩ := by
  have hsound := hw.sound fun _ _ _ _ h => keepsAll_of_undamaged hwhole h
  have hspec := read_ok_spec hwhole (hsound i).1 hn
  have hempty : Holds (byteOf blocks)
      { w.reader i with buf := block, bufLba := none } := by
    intro lba h
    cases h
  have hspec' := (read_ok_spec hwhole hempty hm).of_frame
    (r := w.reader i) rfl rfl rfl
  obtain ⟨hcount, hbuf⟩ := spec_unique hspec hspec' hn hm
  show (⟨_, _⟩ : Answer) = _
  rw [Answer.mk.injEq]
  exact ⟨hn.trans (congrArg _ hcount), hbuf⟩

-- ========================================================= the directory

/-- The states that calls of `read_entry_at` with one block and one
number lead to, from a number of `None`. Each call meets a condition on
the state it starts in, and comes back to its caller. In between the
source may be used elsewhere. -/
inductive BlockCache.Run (b : Build) (rd : ISO9660Reader σ)
    (Meets : BlockCache → Nat → σ → Prop) (dir : ISODirectory) :
    BlockCache → σ → Prop
  | start (block : BlockBuffer) (s : σ) :
      BlockCache.Run b rd Meets dir ⟨block, none⟩ s
  | call {cache : BlockCache} {s : σ} (fuel offset : Nat) :
      BlockCache.Run b rd Meets dir cache s → Meets cache offset s →
      (readEntryAt b rd fuel dir cache offset s).1.Returned →
      BlockCache.Run b rd Meets dir
        (readEntryAt b rd fuel dir cache offset s).2.1
        (readEntryAt b rd fuel dir cache offset s).2.2
  | elsewhere {cache : BlockCache} {s : σ} (s' : σ) :
      BlockCache.Run b rd Meets dir cache s →
      BlockCache.Run b rd Meets dir cache s'

/-- The call of `read_at` that brings a block of the directory into the
cache, if it is made, does no damage. -/
def LoadsUndamaged (rd : ISO9660Reader σ) (dir : ISODirectory)
    (cache : BlockCache) (offset : Nat) (s : σ) : Prop :=
  cache.bufBlockNum ≠ some (offset / BLOCK_SIZE) →
    Undamaged rd cache.bufBlockNum cache.block
      (dir.header.extentLoc.toNat + offset / BLOCK_SIZE) s

/-- Loading a block without damage leaves the cache coherent. If it
succeeds the block is in the cache, whatever calls after it do. -/
theorem loadBlock_coherent (hwhole : rd.DeliversWhole blocks)
    {dir : ISODirectory} {cache : BlockCache}
    (hco : Coherent (blockSource blocks) dir cache) (n : Nat) (s : σ) :
    ((cache.bufBlockNum ≠ some n → Undamaged rd cache.bufBlockNum
          cache.block (dir.header.extentLoc.toNat + n) s) →
        Coherent (blockSource blocks) dir (loadBlock rd dir cache n s).2.1)
      ∧ ((loadBlock rd dir cache n s).1 = .ok () →
        (loadBlock rd dir cache n s).2.1.block
          = blocks (dir.header.extentLoc.toNat + n)) := by
  unfold loadBlock
  by_cases htag : cache.bufBlockNum = some n
  · rw [if_neg (not_not.mpr htag)]
    have hblk := hco n htag
    rw [blockSource_blockAt] at hblk
    injection hblk with hblk
    exact ⟨fun _ => hco, fun _ => hblk.symm⟩
  · rw [if_pos htag]
    dsimp only
    rcases hread : rd.readAt s cache.block
      (dir.header.extentLoc.toNat + n) with ⟨s', block, x⟩
    -- a failed call has changed nothing that the tag speaks of
    have hkept : Undamaged rd cache.bufBlockNum cache.block
          (dir.header.extentLoc.toNat + n) s → (∀ c, x ≠ .ok c) →
        Coherent (blockSource blocks) dir { cache with block } := by
      intro hclean hx
      rcases hclean.of_failure hread hx with hnone | hsame
      · intro m hm
        change cache.bufBlockNum = some m at hm
        rw [hnone] at hm
        cases hm
      · rw [hsame]
        exact hco
    cases x with
    | ok c =>
        obtain ⟨hcount, hblock⟩ := hwhole _ _ _ _ _ _ hread
        dsimp only
        rw [if_neg (not_not.mpr hcount)]
        refine ⟨fun _ m hm => ?_, fun _ => hblock⟩
        injection hm with hm
        rw [← hm, blockSource_blockAt, hblock]
    | err | panic | running =>
        exact ⟨fun h => hkept (h htag) fun _ h => (nomatch h),
          fun h => nomatch h⟩

/-- What is read from a continuation area is what is stored there. The
area has a buffer of its own. -/
theorem readContinuation_whole (hwhole : rd.DeliversWhole blocks)
    {cont : ContinuationArea} {s : σ} {susp : List SystemUseEntry}
    (h : (readContinuation b rd cont s).1 = .ok susp) :
    (readContinuation b (blockSource blocks).reader cont ()).1
      = .ok susp := by
  have hfill := blockSource_fill blocks BlockBuffer.new
    cont.blockLocation.toNat
  rcases hread : rd.readAt s BlockBuffer.new cont.blockLocation.toNat
    with ⟨s', block, x⟩
  simp only [readContinuation, hread] at h
  obtain ⟨c, hc, -⟩ := Outcome.bind_eq_ok.mp h
  cases x with
  | ok count =>
      obtain ⟨hcount, hblock⟩ := hwhole _ _ _ _ _ _ hread
      subst hcount hblock
      unfold readContinuation
      simp only [Source.reader, hfill]
      exact h
  | err | panic | running => cases hc

theorem pullContinuations_whole (hwhole : rd.DeliversWhole blocks)
    (fuel : Nat) :
    ∀ (susp : List SystemUseEntry) (cont : Option ContinuationArea) (s : σ)
      {all : List SystemUseEntry},
      (pullContinuations b rd fuel susp cont s).1 = .ok all →
      (pullContinuations b (blockSource blocks).reader fuel susp cont ()).1
        = .ok all := by
  induction fuel with
  | zero =>
      intro susp cont s all h
      cases cont with
      | none => exact h
      | some cont => cases h
  | succ fuel ih =>
      intro susp cont s all h
      cases cont with
      | none => exact h
      | some cont =>
          unfold pullContinuations at h ⊢
          rcases hread : readContinuation b rd cont s with ⟨x, s'⟩
          rw [hread] at h
          cases x with
          | ok contSusp =>
              have harea := readContinuation_whole hwhole
                (congrArg Prod.fst hread)
              rcases hread' : readContinuation b (blockSource blocks).reader
                cont () with ⟨x', ⟨⟩⟩
              rw [hread'] at harea
              dsimp only at harea
              subst harea
              exact ih _ _ s' h
          | err | panic | running => cases h

/-- A call that succeeds with a coherent cache has computed the entry of
the blocks. -/
theorem readEntryAt_whole (hwhole : rd.DeliversWhole blocks)
    {dir : ISODirectory} {cache : BlockCache}
    (hco : Coherent (blockSource blocks) dir cache)
    {fuel offset : Nat} {s : σ} {r : DirectoryEntry × Option Nat}
    (h : (readEntryAt b rd fuel dir cache offset s).1 = .ok r) :
    entryAt b (blockSource blocks) fuel dir offset = .ok r := by
  have hblk := (loadBlock_coherent hwhole hco (offset / BLOCK_SIZE) s).2
  unfold readEntryAt at h
  dsimp only at h
  rcases hload : loadBlock rd dir cache (offset / BLOCK_SIZE) s
    with ⟨x, cache', s'⟩
  rw [hload] at h hblk
  cases x with
  | ok u =>
      refine Outcome.bind_eq_ok.mpr ⟨_, blockSource_blockAt dir _, ?_⟩
      rw [← hblk rfl]
      dsimp only at h ⊢
      unfold decodeEntry at h ⊢
      cases hparse : DirectoryEntryHeader.parse b
          (cache'.block.bytes.drop (offset % BLOCK_SIZE))
          dir.header.characterEncoding with
      | ok record =>
          rw [hparse] at h
          dsimp only at h ⊢
          obtain ⟨susp, hsusp, hfinish⟩ := Outcome.bind_eq_ok.mp h
          exact Outcome.bind_eq_ok.mpr
            ⟨susp, pullContinuations_whole hwhole fuel _ _ s' hsusp,
              hfinish⟩
      | err | panic | running =>
          rw [hparse] at h
          cases h
  | err | panic | running => cases h

/-- The cache after a call is the one after loading the block. -/
theorem readEntryAt_cache (fuel : Nat) (dir : ISODirectory)
    (cache : BlockCache) (offset : Nat) (s : σ) :
    (readEntryAt b rd fuel dir cache offset s).2.1
      = (loadBlock rd dir cache (offset / BLOCK_SIZE) s).2.1 := by
  unfold readEntryAt
  dsimp only
  rcases loadBlock rd dir cache (offset / BLOCK_SIZE) s with ⟨x, cache', s'⟩
  cases x with
  | ok | err | panic | running => rfl

/-- A run without damage keeps the cache coherent. -/
theorem BlockCache.Run.coherent (hwhole : rd.DeliversWhole blocks)
    {dir : ISODirectory} {cache : BlockCache} {s : σ}
    (hrun : BlockCache.Run b rd (LoadsUndamaged rd dir) dir cache s) :
    Coherent (blockSource blocks) dir cache := by
  induction hrun with
  | start block s =>
      intro n h
      cases h
  | @call cache s fuel offset _ hclean _ ih =>
      rw [readEntryAt_cache]
      exact (loadBlock_coherent hwhole ih _ s).1 hclean
  | elsewhere s' _ ih => exact ih

/-- After a run without damage a call that succeeds returns what it
returns with nothing cached. -/
theorem readEntryAt_as_uncached (hwhole : rd.DeliversWhole blocks)
    {dir : ISODirectory} {cache : BlockCache} {s : σ}
    (hrun : BlockCache.Run b rd (LoadsUndamaged rd dir) dir cache s)
    {fuel fuel' offset : Nat} {r r' : DirectoryEntry × Option Nat}
    {block : BlockBuffer} {s' : σ}
    (h : (readEntryAt b rd fuel dir cache offset s).1 = .ok r)
    (h' : (readEntryAt b rd fuel' dir ⟨block, none⟩ offset s').1 = .ok r') :
    r = r' := by
  have hempty : Coherent (blockSource blocks) dir ⟨block, none⟩ := by
    intro n hn
    cases hn
  have hr := readEntryAt_whole hwhole (hrun.coherent hwhole) h
  have hr' := readEntryAt_whole hwhole hempty h'
  have hsame : entryAt b (blockSource blocks) fuel dir offset
      = entryAt b (blockSource blocks) fuel' dir offset :=
    entryAt_unique blockSource_returns
    (by rw [hr]; exact fun h => nomatch h)
    (by rw [hr']; exact fun h => nomatch h)
  rw [hr, hr'] at hsame
  injection hsame

-- ============================================================= coherence

/-- A failed read leaves the position of a file reader as it was. After
a run whose failures do no damage, a read that succeeds answers as a
reader at the same position that has nothing cached does, and a call of
`read_entry_at` that succeeds as one with no block number. -/
theorem caches_coherent [DecidableEq ι]
    (hwhole : rd.DeliversWhole blocks) :
    (∀ (r : ISOFileReader) (buf : List UInt8) (s : σ),
        (∀ n, (r.read rd buf s).result ≠ .ok n) →
        (r.read rd buf s).reader.seek = r.seek)
      ∧ (∀ (file : ι → ISOFile) (w : Readers ι σ),
        w.Run b rd (ReadsUndamaged rd) file →
        ∀ (i : ι) (buf : List UInt8) (n : Nat),
          (w.step b rd i (.read buf)).1.result = .ok n →
          ∀ (block : BlockBuffer) (s : σ) (m : Nat),
            let empty : ISOFileReader :=
              { w.reader i with buf := block, bufLba := none }
            (empty.read rd buf s).result = .ok m →
            (w.step b rd i (.read buf)).1
              = ⟨.ok m, (empty.read rd buf s).buf⟩)
      ∧ ∀ (dir : ISODirectory) (cache : BlockCache) (s : σ),
        BlockCache.Run b rd (LoadsUndamaged rd dir) dir cache s →
        ∀ (fuel fuel' offset : Nat) (r r' : DirectoryEntry × Option Nat)
          (block : BlockBuffer) (s' : σ),
          (readEntryAt b rd fuel dir cache offset s).1 = .ok r →
          (readEntryAt b rd fuel' dir ⟨block, none⟩ offset s').1 = .ok r' →
          r = r' := by
  refine ⟨?_, ?_, ?_⟩
  · intro r buf s hfail
    exact readLoop_failure buf.length r r.seek [] buf s hfail
  · intro file w hw i buf n hn block s m empty hm
    exact read_as_uncached hwhole hw hn hm
  · intro dir cache s hrun fuel fuel' offset r r' block s' h h'
    exact readEntryAt_as_uncached hwhole hrun h h'

-- ========================================================== a bad sector

/-- A source all of whose blocks are alike, but one, which cannot be
read: an attempt leaves something else in the buffer. -/
def badSector (bad : Nat) (good junk : BlockBuffer) :
    ISO9660Reader Unit where
  readAt s _ lba :=
    if lba = bad then (s, junk, .err (.device 5))
    else (s, good, .ok BLOCK_SIZE)

theorem badSector_whole (bad : Nat) (good junk : BlockBuffer) :
    (badSector bad good junk).DeliversWhole fun _ => good := by
  intro s s' buf buf' lba count h
  simp only [badSector] at h
  split at h
  · injection h with _ h
    injection h with _ h
    cases h
  · injection h with _ h
    injection h with hbuf h
    injection h with hcount
    exact ⟨hcount.symm, hbuf.symm⟩

/-- Zeros, but for a bad sector at block 1 that leaves a one. -/
def badZeros : ISO9660Reader Unit :=
  badSector 1 BlockBuffer.new (BlockBuffer.new.overwrite [1])

/-- A file of two blocks, of which the second is the bad one. -/
def badFile : ISOFile :=
  ⟨{ letterHeader 0 with extentLength := 4096 }, "A", 1, plainExt⟩

/-- The reader of that file after some operations. -/
def badReader (ops : List Op) : Readers Unit Unit :=
  ops.foldl (fun w op => (w.step debugBuild badZeros () op).2)
    (Readers.opened (fun _ => badFile) ())

/-- A read of the bad block, and back to the start. -/
def backFromBad : List Op := [.seek (.start 2048), .read [0], .seek (.start 0)]

/-- The reader after some operations, with nothing cached. -/
def emptied (ops : List Op) : ISOFileReader :=
  { (badReader ops).reader () with bufLba := none }

/-- A directory of two blocks with the bad sector in the second. In the
buffer that leaves the record of `A`. -/
def badRecords : ISO9660Reader Unit :=
  badSector 21 dotBlock.buffer
    (BlockBuffer.new.overwrite upperRecord.bytes)

def badDirectory : ISODirectory :=
  ISODirectory.new { dotHeader with extentLength := 4096 } plainExt "\x00"

/-- The cache of a caller that has read at some offsets. -/
def badCache (offsets : List Nat) : BlockCache :=
  offsets.foldl (fun cache offset =>
      (readEntryAt debugBuild badRecords 0 badDirectory cache offset ()).2.1)
    BlockCache.new

/-- The first block is read, then the second, which fails, and then the
first again. The file reader returns a one from a file of zeros, and the
directory begins with the file `A` where its own record is. -/
theorem caches_incoherent :
    badZeros.DeliversWhole (fun _ => BlockBuffer.new)
      ∧ ((badReader [.read [0], .seek (.start 2048)]).step debugBuild badZeros
          () (.read [0])).1.result = .err (.device 5)
      ∧ ((badReader (.read [0] :: backFromBad)).step debugBuild badZeros ()
          (.read [0])).1 = ⟨.ok 1, [1]⟩
      ∧ ((emptied (.read [0] :: backFromBad)).read badZeros [0] ()).result
        = .ok 1
      ∧ ((emptied (.read [0] :: backFromBad)).read badZeros [0] ()).buf = [0]
      ∧ badRecords.DeliversWhole (fun _ => dotBlock.buffer)
      ∧ (readEntryAt debugBuild badRecords 0 badDirectory (badCache [0])
          2048 ()).1 = .err (.io (.device 5))
      ∧ (readEntryAt debugBuild badRecords 0 badDirectory
          (badCache [0, 2048]) 0 ()).1.map (fun r => r.1.identifier)
        = .ok "A"
      ∧ (readEntryAt debugBuild badRecords 0 badDirectory
          { badCache [0, 2048] with bufBlockNum := none } 0 ()).1.map
          (fun r => r.1.identifier)
        = .ok "." :=
  ⟨badSector_whole _ _ _, by decide +kernel, by decide +kernel,
    by decide +kernel, by decide +kernel, badSector_whole _ _ _,
    by decide +kernel, by decide +kernel, by decide +kernel⟩

/-- The one refill of a read of one byte does no damage in a reader that
has nothing cached. -/
theorem readMeets_empty {r : ISOFileReader} (h : r.bufLba = none) (s : σ) :
    ReadMeets rd (RefillsUndamaged rd) r 1 s := by
  unfold ReadMeets EachRefill
  split
  · refine ⟨fun _ => ?_, ?_⟩
    · rw [h]
      exact Undamaged.of_empty _ _ _
    · rcases r.refill rd (r.lbaAt r.seek) s with ⟨x, r', s'⟩
      cases x with
      | ok u =>
          dsimp only
          unfold EachRefill
          split
          · trivial
          · trivial
      | err | panic | running => trivial
  · trivial

/-- With nothing cached the same failures do no damage: after them the
first blocks are read as they are. -/
theorem caches_coherent_empty :
    ((badReader backFromBad).step debugBuild badZeros () (.read [0])).1
        = ⟨.ok 1, ((emptied backFromBad).read badZeros [0] ()).buf⟩
      ∧ ∀ r r', (readEntryAt debugBuild badRecords 0 badDirectory
          (badCache [2048]) 0 ()).1 = .ok r →
        (readEntryAt debugBuild badRecords 0 badDirectory
          BlockCache.new 0 ()).1 = .ok r' → r = r' := by
  constructor
  · have hrun : (badReader backFromBad).Run debugBuild badZeros
        (ReadsUndamaged badZeros) fun _ => badFile := by
      have hseek : (badReader [.seek (.start 2048)]).Run debugBuild badZeros
          (ReadsUndamaged badZeros) fun _ => badFile :=
        .step (.start ()) trivial (by decide +kernel)
      have hread : (badReader [.seek (.start 2048), .read [0]]).Run
          debugBuild badZeros (ReadsUndamaged badZeros) fun _ => badFile :=
        .step hseek (readMeets_empty rfl ()) (by decide +kernel)
      exact .step hread trivial (by decide +kernel)
    exact (caches_coherent (b := debugBuild)
      (badSector_whole 1 BlockBuffer.new _)).2.1 _ _ hrun () [0] 1
      (by decide +kernel) _ () 1 (by decide +kernel)
  · intro r r' h h'
    have hrun : BlockCache.Run debugBuild badRecords
        (LoadsUndamaged badRecords badDirectory) badDirectory
        (badCache [2048]) () :=
      .call 0 2048 (.start BlockBuffer.new ())
        (fun _ => Undamaged.of_empty _ _ _)
        (by decide +kernel)
    exact (caches_coherent (ι := Unit) (b := debugBuild)
      (badSector_whole 21 dotBlock.buffer _)).2.2 _ _ _ hrun 0 0 0 r r'
      _ () h h'

end Cdfs
