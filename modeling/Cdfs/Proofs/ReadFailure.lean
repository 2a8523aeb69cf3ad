/-
Reads that fail.

A reader may answer with an error where its source would have answered
with a block (`Falters`). What a lookup makes of that is, step by step,
either what it makes of the source or an error (`Follows`), since every
error ends it; and from a state in which no read fails any more it is the
former. The one place that looks at a failed read and goes on is the
choice of the root.
-/
import Cdfs.ISO9660
import Cdfs.Proofs.Lookup

namespace Cdfs

open Rust Parse

variable {σ α β : Type} {b : Build} {rd : ISO9660Reader σ} {src : Source}
  {Quiet : σ → Prop}

-- ============================================================== failures

/-- Every answer is the source's or an error, and in a quiet state and
those after it the source's. -/
structure ISO9660Reader.Falters (rd : ISO9660Reader σ) (src : Source)
    (Quiet : σ → Prop) : Prop where
  answer : ∀ s buf lba, (rd.readAt s buf lba).2 = src.fill buf lba
    ∨ ∃ buf' e, (rd.readAt s buf lba).2 = (buf', .err e)
  quiet : ∀ s buf lba, Quiet s → (rd.readAt s buf lba).2 = src.fill buf lba
    ∧ Quiet (rd.readAt s buf lba).1

/-- The call came to the result it should have or to an error, and from
a quiet state to the former. -/
structure Follows (Quiet : σ → Prop) (s : σ) (r : Outcome ISOError α × σ)
    (expected : Outcome ISOError α) : Prop where
  orErr : r.1 = expected ∨ ∃ e, r.1 = .err e
  quiet : Quiet s → r.1 = expected ∧ Quiet r.2

/-- A call that ends without another read. -/
theorem Follows.refl {s : σ} (r : Outcome ISOError α) :
    Follows Quiet s (r, s) r where
  orErr := Or.inl rfl
  quiet hs := ⟨rfl, hs⟩

/-- A call that goes on with the result of another one and passes its error
on. -/
theorem Follows.step {s s' : σ} {r r₀ : Outcome ISOError α}
    (h : Follows Quiet s (r, s') r₀)
    {k : Outcome ISOError α → Outcome ISOError β × σ}
    {expected : Outcome ISOError β}
    (hk : r = r₀ → Follows Quiet s' (k r₀) expected)
    (herr : ∀ e, ∃ e', (k (.err e)).1 = .err e') :
    Follows Quiet s (k r) expected where
  orErr := by
    rcases h.orErr with heq | ⟨e, heq⟩
    · change r = r₀ at heq
      rw [heq]
      exact (hk heq).orErr
    · change r = .err e at heq
      rw [heq]
      exact Or.inr (herr e)
  quiet hq := by
    obtain ⟨heq, hq'⟩ := h.quiet hq
    change r = r₀ at heq
    rw [heq]
    exact (hk heq).quiet hq'

-- ============================================================= one entry

/-- Loading a block. -/
theorem loadBlock_falters (hrd : rd.Falters src Quiet) {dir : ISODirectory}
    {cache : BlockCache} (hco : Coherent src dir cache) (n : Nat) (s : σ) :
    Follows Quiet s
        ((loadBlock rd dir cache n s).1, (loadBlock rd dir cache n s).2.2)
        ((blockAt src dir n).map fun _ => ())
      ∧ ∀ blk, (loadBlock rd dir cache n s).1 = .ok () →
        blockAt src dir n = .ok blk →
        (loadBlock rd dir cache n s).2.1.block = blk
          ∧ Coherent src dir (loadBlock rd dir cache n s).2.1 := by
  have hstate : cache.bufBlockNum ≠ some n →
      (loadBlock rd dir cache n s).2.2
        = (rd.readAt s cache.block (dir.header.extentLoc.toNat + n)).1 := by
    intro htag
    unfold loadBlock
    rw [if_pos htag]
    dsimp only
    rcases rd.readAt s cache.block (dir.header.extentLoc.toNat + n)
      with ⟨s', block, r⟩
    cases r with
    | ok count =>
        dsimp only
        split <;> rfl
    | err | panic | running => rfl
  have hserved : (cache.bufBlockNum ≠ some n →
      (rd.readAt s cache.block (dir.header.extentLoc.toNat + n)).2
        = src.fill cache.block (dir.header.extentLoc.toNat + n)) →
      _ := @loadBlock_of_fill _ rd _ _ _ hco n s
  by_cases htag : cache.bufBlockNum = some n
  · obtain ⟨hr, hco', hblk⟩ := hserved fun h => absurd htag h
    have hsame : (loadBlock rd dir cache n s).2.2 = s := by
      unfold loadBlock
      rw [if_neg (not_not.mpr htag)]
    refine ⟨⟨Or.inl hr, fun hq => ⟨hr, ?_⟩⟩,
      fun blk _ h => ⟨hblk blk h, hco'⟩⟩
    dsimp only
    rw [hsame]
    exact hq
  · rcases hrd.answer s cache.block (dir.header.extentLoc.toNat + n)
      with hread | ⟨buf, e, hread⟩
    · obtain ⟨hr, hco', hblk⟩ := hserved fun _ => hread
      refine ⟨⟨Or.inl hr, fun hq => ⟨hr, ?_⟩⟩,
        fun blk _ h => ⟨hblk blk h, hco'⟩⟩
      dsimp only
      rw [hstate htag]
      exact (hrd.quiet _ _ _ hq).2
    · have herr : (loadBlock rd dir cache n s).1 = .err (.io e) := by
        unfold loadBlock
        rw [if_pos htag]
        dsimp only
        rcases hcall : rd.readAt s cache.block
          (dir.header.extentLoc.toNat + n) with ⟨s', block, r⟩
        rw [hcall] at hread
        injection hread with _ hread
        rw [hread]
      refine ⟨⟨Or.inr ⟨_, herr⟩, fun hq => ?_⟩, fun blk h => ?_⟩
      · obtain ⟨hfill, hq'⟩ := hrd.quiet s cache.block
          (dir.header.extentLoc.toNat + n) hq
        obtain ⟨hr, -, -⟩ := hserved fun _ => hfill
        exact ⟨hr, hstate htag ▸ hq'⟩
      · rw [herr] at h
        cases h

theorem readContinuation_falters (hrd : rd.Falters src Quiet)
    (cont : ContinuationArea) (s : σ) :
    Follows Quiet s (readContinuation b rd cont s)
      (readContinuation b src.reader cont ()).1 := by
  have hserved : (rd.readAt s BlockBuffer.new cont.blockLocation.toNat).2
        = src.fill BlockBuffer.new cont.blockLocation.toNat →
      (readContinuation b rd cont s).1
        = (readContinuation b src.reader cont ()).1 := by
    intro h
    simp only [readContinuation, Source.reader]
    rw [← h]
  refine ⟨?_, fun hq => ?_⟩
  · rcases hrd.answer s BlockBuffer.new cont.blockLocation.toNat
      with hread | ⟨buf, e, hread⟩
    · exact Or.inl (hserved hread)
    · right
      have hcount : (rd.readAt s BlockBuffer.new
          cont.blockLocation.toNat).2.2 = .err e := congrArg Prod.snd hread
      refine ⟨.io e, ?_⟩
      show (do
        let count ← liftIo (rd.readAt s BlockBuffer.new
          cont.blockLocation.toNat).2.2
        _) = _
      rw [hcount]
      rfl
  · obtain ⟨hfill, hq'⟩ := hrd.quiet s BlockBuffer.new
      cont.blockLocation.toNat hq
    exact ⟨hserved hfill, hq'⟩

theorem pullContinuations_falters (hrd : rd.Falters src Quiet)
    (fuel : Nat) :
    ∀ (susp : List SystemUseEntry) (cont : Option ContinuationArea) (s : σ),
      Follows Quiet s (pullContinuations b rd fuel susp cont s)
        (pullContinuations b src.reader fuel susp cont ()).1 := by
  induction fuel with
  | zero =>
      intro susp cont s
      cases cont with
      | none => exact .refl _
      | some cont => exact .refl _
  | succ fuel ih =>
      intro susp cont s
      cases cont with
      | none => exact .refl _
      | some cont =>
          have hread := readContinuation_falters (b := b) hrd cont s
          unfold pullContinuations
          rcases h₁ : readContinuation b rd cont s with ⟨r, s'⟩
          rcases h₂ : readContinuation b src.reader cont () with ⟨r', ⟨⟩⟩
          rw [h₁, h₂] at hread
          apply hread.step
          · intro _
            cases r' with
            | ok contSusp => exact ih _ _ s'
            | err | panic | running => exact .refl _
          · exact fun e => ⟨e, rfl⟩

theorem decodeEntry_falters (hrd : rd.Falters src Quiet) (fuel : Nat)
    (dir : ISODirectory) (block : BlockBuffer) (blockNum blockPos : Nat)
    (s : σ) :
    Follows Quiet s (decodeEntry b rd fuel dir block blockNum blockPos s)
      (decodeEntry b src.reader fuel dir block blockNum blockPos ()).1 := by
  unfold decodeEntry
  cases DirectoryEntryHeader.parse b (block.bytes.drop blockPos)
      dir.header.characterEncoding with
  | err | panic | running => exact .refl _
  | ok r =>
      obtain ⟨header, identifier, area⟩ := r
      dsimp only
      have hpull := pullContinuations_falters (b := b) hrd fuel
        (splitContinuation area).1 (splitContinuation area).2 s
      rcases h₁ : pullContinuations b rd fuel (splitContinuation area).1
        (splitContinuation area).2 s with ⟨r, s'⟩
      rw [h₁] at hpull
      apply hpull.step
      · exact fun _ => .refl _
      · exact fun e => ⟨e, rfl⟩

/-- A call of `read_entry_at`. The cache is left coherent where the call
did not end in an error. -/
theorem readEntryAt_falters (hrd : rd.Falters src Quiet) (fuel : Nat)
    {dir : ISODirectory} {cache : BlockCache}
    (hco : Coherent src dir cache) (offset : Nat) (s : σ) :
    Follows Quiet s
        ((readEntryAt b rd fuel dir cache offset s).1,
          (readEntryAt b rd fuel dir cache offset s).2.2)
        (entryAt b src fuel dir offset)
      ∧ ∀ r, (readEntryAt b rd fuel dir cache offset s).1 = .ok r →
        Coherent src dir (readEntryAt b rd fuel dir cache offset s).2.1 := by
  obtain ⟨hload, hblock⟩ :=
    loadBlock_falters hrd hco (offset / BLOCK_SIZE) s
  unfold readEntryAt entryAt
  dsimp only
  rcases hcall : loadBlock rd dir cache (offset / BLOCK_SIZE) s
    with ⟨r, cache', s'⟩
  rw [hcall] at hload hblock
  dsimp only at hload hblock
  constructor
  · apply hload.step
    · intro heq
      cases hat : blockAt src dir (offset / BLOCK_SIZE) with
      | ok block =>
          rw [hat] at heq
          obtain ⟨hblk, -⟩ := hblock block heq hat
          show Follows Quiet s' (decodeEntry b rd fuel dir cache'.block
            (offset / BLOCK_SIZE) (offset % BLOCK_SIZE) s') _
          rw [hblk]
          exact decodeEntry_falters hrd fuel dir block _ _ s'
      | err | panic | running => exact .refl _
    · exact fun e => ⟨e, rfl⟩
  · intro found hfound
    cases r with
    | err | panic | running => cases hfound
    | ok =>
        rcases hload.orErr with h | ⟨e, h⟩
        · cases hat : blockAt src dir (offset / BLOCK_SIZE) with
          | ok block => exact (hblock block rfl hat).2
          | err | panic | running =>
              rw [hat] at h
              cases h
        · cases h

-- =============================================================== lookups

theorem findFrom_falters (hrd : rd.Falters src Quiet) (fuel : Nat)
    (dir : ISODirectory) (name : String) (calls : Nat) :
    ∀ (it it₀ : ISODirectoryIterator) (s : σ),
      it.nextOffset = it₀.nextOffset → Coherent src dir it.cache →
      Coherent src dir it₀.cache →
      Follows Quiet s (findFrom b rd fuel dir name calls it s)
        (findFrom b src.reader fuel dir name calls it₀ ()).1 := by
  induction calls with
  | zero => exact fun _ _ _ _ _ _ => .refl _
  | succ calls ih =>
      intro it it₀ s hoff hco hco₀
      unfold findFrom ISODirectoryIterator.next
      rw [← hoff]
      cases it.nextOffset with
      | none => exact .refl _
      | some offset =>
          dsimp only
          obtain ⟨hread, hcache⟩ :=
            readEntryAt_falters (b := b) hrd fuel hco offset s
          obtain ⟨hread₀, hcache₀⟩ := readEntryAt_serves (b := b)
            (Source.reader_serves src) fuel hco₀ offset ()
          rw [← hread₀] at hread
          rcases h₁ : readEntryAt b rd fuel dir it.cache offset s
            with ⟨r, cache, s'⟩
          rcases h₂ : readEntryAt b src.reader fuel dir it₀.cache offset ()
            with ⟨r', cache', ⟨⟩⟩
          rw [h₁] at hread hcache
          rw [h₂] at hread hcache₀
          dsimp only at hread hcache hcache₀
          apply hread.step
          · intro heq
            cases r' with
            | ok r =>
                obtain ⟨entry, next⟩ := r
                dsimp only
                split
                · exact .refl _
                · exact ih ⟨next, cache⟩ ⟨next, cache'⟩ s' rfl
                    (hcache _ heq) hcache₀
            | err | panic | running => exact .refl _
          · exact fun e => ⟨e, rfl⟩

theorem find_falters (hrd : rd.Falters src Quiet) (fuel : Nat)
    (dir : ISODirectory) (name : String) (s : σ) :
    Follows Quiet s (find b rd fuel dir name s)
      (find b src.reader fuel dir name ()).1 :=
  findFrom_falters hrd fuel dir name fuel contents contents s rfl
    (coherent_new src dir) (coherent_new src dir)

theorem findSegments_falters (hrd : rd.Falters src Quiet) (fuel : Nat)
    (segments : List String) :
    ∀ (entry : DirectoryEntry) (s : σ),
      Follows Quiet s (findSegments b rd fuel segments entry s)
        (findSegments b src.reader fuel segments entry ()).1 := by
  induction segments with
  | nil => exact fun _ _ => .refl _
  | cons segment segments ih =>
      intro entry s
      unfold findSegments
      cases entry with
      | file | symlink => exact .refl _
      | directory parent =>
          dsimp only
          have hfind := find_falters (b := b) hrd fuel parent segment s
          rcases h₁ : find b rd fuel parent segment s with ⟨r, s'⟩
          rcases h₂ : find b src.reader fuel parent segment ()
            with ⟨r', ⟨⟩⟩
          rw [h₁, h₂] at hfind
          apply hfind.step
          · intro _
            cases r' with
            | ok found =>
                cases found with
                | none => exact .refl _
                | some entry => exact ih entry s'
            | err | panic | running => exact .refl _
          · exact fun e => ⟨e, rfl⟩

theorem findRecursive_falters (hrd : rd.Falters src Quiet) (fuel : Nat)
    (dir : ISODirectory) (path : String) (s : σ) :
    Follows Quiet s (findRecursive b rd fuel dir path s)
      (findRecursive b src.reader fuel dir path ()).1 :=
  findSegments_falters hrd fuel _ _ s

-- ============================================================== the root

/-- The first entry of the primary root, or a failure to read it, which
counts as an entry without extensions. -/
theorem isRr_falters (hrd : rd.Falters src Quiet) (fuel : Nat)
    (iso : ISO9660) (s : σ) :
    ((iso.isRr b rd fuel s).1 = (iso.isRr b src.reader fuel ()).1
        ∨ (iso.isRr b rd fuel s).1 = .ok false)
      ∧ (Quiet s → Quiet (iso.isRr b rd fuel s).2) := by
  obtain ⟨hread, -⟩ := readEntryAt_falters (b := b) hrd fuel
    (coherent_new src iso.root) 0 s
  obtain ⟨hread₀, -⟩ := readEntryAt_serves (b := b)
    (Source.reader_serves src) fuel (coherent_new src iso.root) 0 ()
  rw [← hread₀] at hread
  unfold ISO9660.isRr ISODirectoryIterator.next contents
  dsimp only
  rcases h₁ : readEntryAt b rd fuel iso.root BlockCache.new 0 s
    with ⟨r, cache, s'⟩
  rcases h₂ : readEntryAt b src.reader fuel iso.root BlockCache.new 0 ()
    with ⟨r', cache', ⟨⟩⟩
  rw [h₁, h₂] at hread
  have hq : Quiet s → Quiet s' := fun hq => (hread.quiet hq).2
  rcases hread.orErr with h | ⟨e, h⟩
  · dsimp only at h
    subst h
    cases r with
    | ok r =>
        obtain ⟨entry, next⟩ := r
        cases entry with
        | directory | file | symlink => exact ⟨Or.inl rfl, hq⟩
    | err | panic | running => exact ⟨Or.inl rfl, hq⟩
  · dsimp only at h
    subst h
    exact ⟨Or.inr rfl, hq⟩

-- =============================================================== patterns

/-- How a read fails: with an error, and with whatever is left in the
buffer. -/
structure Failure where
  error : IoError
  scramble : BlockBuffer → BlockBuffer

/-- A source whose reads fail by a pattern: the state is the number of
reads made, and the pattern says which of them fail and how. -/
def Source.failing (src : Source) (pattern : Nat → Option Failure) :
    ISO9660Reader Nat where
  readAt n buf lba :=
    match pattern n with
    | some f => (n + 1, f.scramble buf, .err f.error)
    | none => (n + 1, src.fill buf lba)

/-- No read fails from the `n`-th on. -/
def SettledFrom (pattern : Nat → Option Failure) (n : Nat) : Prop :=
  ∀ m, n ≤ m → pattern m = none

theorem Source.failing_falters (src : Source)
    (pattern : Nat → Option Failure) :
    (src.failing pattern).Falters src (SettledFrom pattern) where
  answer n buf lba := by
    unfold Source.failing
    dsimp only
    cases pattern n with
    | none => exact Or.inl rfl
    | some f => exact Or.inr ⟨_, _, rfl⟩
  quiet n buf lba hq := by
    unfold Source.failing
    dsimp only
    rw [hq n (Nat.le_refl n)]
    exact ⟨rfl, fun m hm => hq m (Nat.le_of_succ_le hm)⟩

/-- The first read fails, and no other. -/
def firstFails : Nat → Option Failure
  | 0 => some ⟨.device 5, id⟩
  | _ + 1 => none

theorem firstFails_settled : SettledFrom firstFails 1 := by
  intro m hm
  cases m with
  | zero => exact absurd hm (by decide)
  | succ m => rfl

-- ============================================== open with failing reads

/-- The call comes to what it comes to without failures, or to an
error. -/
def Faithful (b : Build) (src : Source) (fuel : Nat) (iso : ISO9660)
    (path : String) (pattern : Nat → Option Failure) : Prop :=
  (iso.openPath b (src.failing pattern) fuel path 0).1
      = (iso.openPath b src.reader fuel path ()).1
    ∨ ∃ e, (iso.openPath b (src.failing pattern) fuel path 0).1 = .err e

/-- Looked up in the supplementary tree instead, the path gives an error
or the same. -/
def SameElsewhere (b : Build) (src : Source) (fuel : Nat) (iso : ISO9660)
    (path : String) : Prop :=
  ∀ supRoot, iso.supRoot = some supRoot →
    (findRecursive b src.reader fuel supRoot path ()).1
        = (findRecursive b src.reader fuel iso.root path ()).1
      ∨ ∃ e, (findRecursive b src.reader fuel supRoot path ()).1 = .err e

/-- Without failures the primary tree is searched. -/
theorem openPath_rr {fuel : Nat} {iso : ISO9660} {path : String} {s : σ}
    (hrr : (iso.isRr b rd fuel s).1 = .ok true) :
    iso.openPath b rd fuel path s
      = findRecursive b rd fuel iso.root path (iso.isRr b rd fuel s).2 := by
  unfold ISO9660.openPath ISO9660.mainRoot
  rcases hcall : iso.isRr b rd fuel s with ⟨r, s'⟩
  rw [hcall] at hrr
  dsimp only at hrr
  subst hrr
  rfl

/-- With the extensions gone unnoticed it is the supplementary one. -/
theorem openPath_plain {fuel : Nat} {iso : ISO9660} {path : String} {s : σ}
    (hrr : (iso.isRr b rd fuel s).1 = .ok false) :
    iso.openPath b rd fuel path s
      = findRecursive b rd fuel (iso.supRoot.getD iso.root) path
        (iso.isRr b rd fuel s).2 := by
  unfold ISO9660.openPath ISO9660.mainRoot
  rcases hcall : iso.isRr b rd fuel s with ⟨r, s'⟩
  rw [hcall] at hrr
  dsimp only at hrr
  subst hrr
  cases iso.supRoot with
  | none => rfl
  | some supRoot => rfl

/-- If the first read fails, the extensions go unnoticed. -/
theorem isRr_firstFails (b : Build) (src : Source) (fuel : Nat)
    (iso : ISO9660) :
    iso.isRr b (src.failing firstFails) fuel 0 = (.ok false, 1) := rfl

/-- A failure to read is reported as one, whatever the pattern, exactly
when the supplementary tree gives an error or the same; and with any tree
if the pattern leaves the choice of the root alone. -/
theorem open_faithful_iff {fuel : Nat} {iso : ISO9660}
    (hrr : (iso.isRr b src.reader fuel ()).1 = .ok true) (path : String) :
    ((∀ pattern, Faithful b src fuel iso path pattern)
        ↔ SameElsewhere b src fuel iso path)
      ∧ ∀ pattern,
        (iso.isRr b (src.failing pattern) fuel 0).1 = .ok true →
        Faithful b src fuel iso path pattern := by
  have hprimary : (iso.openPath b src.reader fuel path ()).1
      = (findRecursive b src.reader fuel iso.root path ()).1 := by
    rw [openPath_rr hrr]
  have hchosen : ∀ pattern,
      (iso.isRr b (src.failing pattern) fuel 0).1 = .ok true →
      Faithful b src fuel iso path pattern := by
    intro pattern h
    unfold Faithful
    rw [hprimary, openPath_rr h]
    exact (findRecursive_falters (src.failing_falters pattern) fuel _ _
      _).orErr
  refine ⟨⟨fun hall supRoot hsup => ?_, fun hsame pattern => ?_⟩, hchosen⟩
  · have hfirst := isRr_firstFails b src fuel iso
    have hopen := hall firstFails
    have hfind := (findRecursive_falters (b := b)
      (src.failing_falters firstFails) fuel supRoot path
      1).quiet firstFails_settled
    unfold Faithful at hopen
    rw [hprimary, openPath_plain (congrArg Prod.fst hfirst), hfirst, hsup,
      Option.getD_some, hfind.1] at hopen
    exact hopen
  · rcases (isRr_falters (b := b) (src.failing_falters pattern) fuel iso
      0).1 with h | h
    · exact hchosen pattern (h.trans hrr)
    · unfold Faithful
      rw [hprimary, openPath_plain h]
      have hfind := (findRecursive_falters (b := b)
        (src.failing_falters pattern) fuel (iso.supRoot.getD iso.root) path
        (iso.isRr b (src.failing pattern) fuel 0).2).orErr
      cases hsup : iso.supRoot with
      | none =>
          rw [hsup] at hfind
          exact hfind
      | some supRoot =>
          rw [hsup, Option.getD_some] at hfind
          rw [Option.getD_some]
          rcases hfind with hfind | hfind
          · rw [hfind]
            exact hsame supRoot hsup
          · exact Or.inr hfind

-- ============================================================== two trees

/-- The root of a tree with Rock Ridge: the directory itself, with an
`ER` entry, and the file `A`. -/
def ridgeBlock : BlockBuffer :=
  BlockBuffer.new.overwrite
    ([52, 0, 20, 0, 0, 0, 0, 0, 0, 20, 0, 8, 0, 0, 0, 0, 8, 0,
      100, 1, 1, 0, 0, 0, 0, 2, 0, 0, 1, 0, 0, 1, 1, 0]
      ++ [0x45, 0x52, 18, 1, 10, 0, 0, 1] ++ asBytes "RRIP_1991A"
      ++ upperRecord.bytes)

/-- The primary root in block 20, and in every other block a root with
nothing in it. -/
def twoTrees : Source where
  deliver lba :=
    .ok (if lba = 20 then ridgeBlock else dotBlock.buffer).bytes
  atMostBlock h := BlockBuffer.delivered_le _ h

/-- The tables of the image, as far as they are looked at. -/
def plainTable : VolumeDescriptorTable where
  systemIdentifier := ""
  volumeIdentifier := ""
  characterEncoding := .iso9660
  volumeSpaceSize := 23
  volumeSetSize := 1
  volumeSequenceNumber := 1
  logicalBlockSize := 2048
  pathTableSize := 0
  pathTableLoc := 0
  optionalPathTableLoc := 0
  rootDirectoryEntry := dotHeader
  rootDirectoryEntryIdentifier := "\x00"
  volumeSetIdentifier := ""
  publisherIdentifier := ""
  dataPreparerIdentifier := ""
  applicationIdentifier := ""
  copyrightFileIdentifier := ""
  abstractFileIdentifier := ""
  bibliographicFileIdentifier := ""
  creationTime := dotHeader.time
  modificationTime := dotHeader.time
  expirationTime := dotHeader.time
  effectiveTime := dotHeader.time
  fileStructureVersion := 1

/-- The image with both trees, the supplementary one at block 22. -/
def bothTrees : ISO9660 where
  root := rootDirectory (dotHeader, "\x00")
  supRoot := some (rootDirectory ({ dotHeader with extentLoc := 22 },
    "\x00"))
  primary := .primary plainTable

/-- The file `A` is found, and not found if the first read fails. -/
theorem open_failure_as_absence :
    (bothTrees.isRr debugBuild twoTrees.reader 4 ()).1 = .ok true
      ∧ (bothTrees.openPath debugBuild twoTrees.reader 4 "/A" ()).1
        = .ok (some upperRecord.entry)
      ∧ (bothTrees.openPath debugBuild (twoTrees.failing firstFails) 4 "/A"
        0).1 = .ok none :=
  ⟨by decide +kernel, by decide +kernel, by decide +kernel⟩

/-- The same with a file `A` in the supplementary root too. -/
def agreeingTrees : Source where
  deliver lba :=
    .ok (if lba = 20 then ridgeBlock
      else BlockBuffer.new.overwrite
        (dotRecord.bytes ++ upperRecord.bytes)).bytes
  atMostBlock h := BlockBuffer.delivered_le _ h

/-- There the path gives the file also when the first read fails, which
the choice of the root does not notice. -/
theorem open_agreeing :
    Faithful debugBuild agreeingTrees 4 bothTrees "/A" firstFails
      ∧ (bothTrees.openPath debugBuild (agreeingTrees.failing firstFails) 4
        "/A" 0).1 = .ok (some upperRecord.entry) := by
  have hsame : SameElsewhere debugBuild agreeingTrees 4 bothTrees "/A" := by
    intro supRoot h
    injection h with h
    rw [← h]
    left
    decide +kernel
  exact ⟨(open_faithful_iff (by decide +kernel) "/A").1.mpr hsame firstFails,
    by decide +kernel⟩

end Cdfs
