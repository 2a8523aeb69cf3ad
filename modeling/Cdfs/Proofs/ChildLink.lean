/-
A directory that was moved away, read through its `CL` entry.

The directory built for the record with the `CL` entry is at the block
the entry names, but its length is one block, whatever is recorded
there. Its iterator and the one over the directory itself make the same
calls as long as they are in the first block. So the two agree exactly
when the directory has no second block, or when neither gets that far:
an unreadable record of the first block is returned by both for ever.
-/
import Cdfs.Proofs.Iteration

namespace Cdfs

open Rust Parse

variable {σ : Type} {b : Build} {rd : ISO9660Reader σ} {src : Source}
  {fuel : Nat} {moved real : ISODirectory}

-- ============================================== the record of a child link

/-- The entry of a record with a `CL` entry is a directory of one block
where the `CL` entry says. -/
theorem entryAt_childLink {parent : ISODirectory} {offset : Nat}
    {block : BlockBuffer} {header : DirectoryEntryHeader}
    {identifier : String} {area : Option (List SystemUseEntry)}
    {susp : List SystemUseEntry} {cl : ChildLink} {entry : DirectoryEntry}
    {next : Option Nat}
    (hparse : parseAt b src parent offset
      = .ok (block, header, identifier, area))
    (hsusp : completeSusp b src fuel area = .ok susp)
    (hcl : childLink susp = some cl)
    (hentry : entryAt b src fuel parent offset = .ok (entry, next)) :
    ∃ moved, entry = .directory moved
      ∧ moved.header.extentLoc = cl.lba
      ∧ moved.header.extentLength = 2048
      ∧ moved.header.characterEncoding
        = parent.header.characterEncoding := by
  rw [entryAt_eq, hparse] at hentry
  dsimp only [Outcome.ok_bind] at hentry
  rw [hsusp, Outcome.ok_bind] at hentry
  obtain ⟨entry', hbuild, hentry⟩ := Outcome.bind_eq_ok.mp hentry
  obtain ⟨next', -, hentry⟩ := Outcome.bind_eq_ok.mp hentry
  injection hentry with hentry
  injection hentry with hentry _
  subst hentry
  obtain ⟨ext, -, hbuild⟩ := Outcome.bind_eq_ok.mp hbuild
  obtain ⟨built, hnew, hbuild⟩ := Outcome.bind_eq_ok.mp hbuild
  rw [hcl] at hbuild
  cases built with
  | directory d => cases hbuild
  | symlink l => cases hbuild
  | file f =>
      injection hbuild with hbuild
      refine ⟨_, hbuild.symm, rfl, rfl, ?_⟩
      -- the dummy file has the record's header
      have hheader : f.header = header :=
        (DirectoryEntry.new_frame hnew).1
      have henc : header.characterEncoding
          = parent.header.characterEncoding := by
        obtain ⟨-, hparse⟩ := parseAt_eq_ok.mp hparse
        exact parse_encoding hparse
      rw [← henc, ← hheader]
      rfl

-- ==================================================== the same extent

/-- The record at an offset and its entry, without the next offset. -/
def recordAt (b : Build) (src : Source) (fuel : Nat) (dir : ISODirectory)
    (offset : Nat) :
    Outcome ISOError (BlockBuffer × DirectoryEntryHeader × DirectoryEntry) :=
  do
    let (block, header, identifier, area) ← parseAt b src dir offset
    let susp ← completeSusp b src fuel area
    let entry ← buildEntry b header identifier susp
    .ok (block, header, entry)

theorem entryAt_eq_recordAt (dir : ISODirectory) (offset : Nat) :
    entryAt b src fuel dir offset = (do
      let (block, header, entry) ← recordAt b src fuel dir offset
      let next ← nextOffset b dir block offset header
      .ok (entry, next)) := by
  rw [entryAt_eq]
  unfold recordAt
  cases parseAt b src dir offset with
  | err | panic | running => rfl
  | ok r =>
      obtain ⟨block, header, identifier, area⟩ := r
      dsimp only [Outcome.ok_bind]
      cases completeSusp b src fuel area with
      | err | panic | running => rfl
      | ok susp =>
          dsimp only [Outcome.ok_bind]
          cases buildEntry b header identifier susp with
          | err | panic | running => rfl
          | ok entry => rfl

/-- A record with its entry has a header that parses. -/
theorem recordAt_header {dir : ISODirectory} {offset : Nat}
    {block : BlockBuffer} {header : DirectoryEntryHeader}
    {identifier : String} {area : Option (List SystemUseEntry)}
    {r : BlockBuffer × DirectoryEntryHeader × DirectoryEntry}
    (hparse : parseAt b src dir offset
      = .ok (block, header, identifier, area))
    (hrec : recordAt b src fuel dir offset = .ok r) :
    r = (block, header, r.2.2) := by
  unfold recordAt at hrec
  rw [hparse] at hrec
  dsimp only [Outcome.ok_bind] at hrec
  obtain ⟨susp, -, hrec⟩ := Outcome.bind_eq_ok.mp hrec
  obtain ⟨entry, -, hrec⟩ := Outcome.bind_eq_ok.mp hrec
  injection hrec with hrec
  rw [← hrec]

theorem entryAt_of_recordAt {dir : ISODirectory} {offset : Nat}
    {block : BlockBuffer} {header : DirectoryEntryHeader}
    {entry : DirectoryEntry} {next : Option Nat}
    (hrec : recordAt b src fuel dir offset = .ok (block, header, entry))
    (hnext : nextOffset b dir block offset header = .ok next) :
    entryAt b src fuel dir offset = .ok (entry, next) := by
  rw [entryAt_eq_recordAt, hrec]
  dsimp only [Outcome.ok_bind]
  rw [hnext]
  rfl

/-- Both directories are at the same place and of the same encoding. -/
structure SamePlace (moved real : ISODirectory) : Prop where
  extentLoc : moved.header.extentLoc = real.header.extentLoc
  encoding : moved.header.characterEncoding = real.header.characterEncoding

theorem SamePlace.parseAt_eq (h : SamePlace moved real) (offset : Nat) :
    parseAt b src moved offset = parseAt b src real offset := by
  unfold parseAt blockAt
  rw [h.extentLoc, h.encoding]

theorem SamePlace.recordAt_eq (h : SamePlace moved real) (offset : Nat) :
    recordAt b src fuel moved offset = recordAt b src fuel real offset := by
  unfold recordAt
  rw [h.parseAt_eq]

/-- A directory with a next offset has blocks. -/
theorem blockCount_pos {dir : ISODirectory} {block : BlockBuffer}
    {offset offset' : Nat} {header : DirectoryEntryHeader}
    (h : nextOffset b dir block offset header = .ok (some offset')) :
    ∃ count, dir.blockCount b = .ok count ∧ 0 < count := by
  obtain ⟨count, hcount, hnext⟩ := nextOffset_eq_ok.mp h
  refine ⟨count, hcount, ?_⟩
  split at hnext
  · omega
  · cases hnext

/-- In the first block the next offset is in the first block again, for
every directory with a block count, or it is the second block if the
directory has one. -/
theorem nextOffset_first (offset : Nat) (hoff : offset < BLOCK_SIZE)
    (block : BlockBuffer) (header : DirectoryEntryHeader) :
    (∃ pos, pos < BLOCK_SIZE ∧ ∀ dir count, dir.blockCount b = .ok count →
        0 < count → nextOffset b dir block offset header = .ok (some pos))
      ∨ ∀ dir count, dir.blockCount b = .ok count →
        nextOffset b dir block offset header
          = .ok (if 1 < count then some BLOCK_SIZE else none) := by
  have hdiv : offset / BLOCK_SIZE = 0 := Nat.div_eq_of_lt hoff
  rcases nextPosition_cases block 0
    (offset % BLOCK_SIZE + header.length.toNat) with hpos | ⟨hpos, hroom⟩
  · right
    intro dir count hcount
    rw [nextOffset_eq_ok]
    refine ⟨count, hcount, ?_⟩
    rw [hdiv, hpos]
    rfl
  · left
    refine ⟨offset % BLOCK_SIZE + header.length.toNat, by omega, ?_⟩
    intro dir count hcount hpositive
    rw [nextOffset_eq_ok]
    refine ⟨count, hcount, ?_⟩
    rw [hdiv, hpos, if_pos hpositive, Nat.mul_zero, Nat.zero_add]

-- ========================================================== one iterator

/-- The two iterators return the same from here on. -/
def AgreeFrom (b : Build) (src : Source) (fuel : Nat)
    (moved real : ISODirectory) (offset : Nat) : Prop :=
  ∀ n, Cursor.itemFrom (entryAt b src fuel moved) (some offset) n
    = Cursor.itemFrom (entryAt b src fuel real) (some offset) n

/-- At an unreadable record both stay and repeat the same error. -/
theorem agreeFrom_of_stuck (hplace : SamePlace moved real) {offset : Nat}
    (h : ∀ r, recordAt b src fuel real offset ≠ .ok r) :
    AgreeFrom b src fuel moved real offset := by
  have hstuck : ∀ {dir : ISODirectory},
      recordAt b src fuel dir offset = recordAt b src fuel real offset →
      ∀ r, entryAt b src fuel dir offset ≠ .ok r := by
    intro dir hsame r hr
    rw [entryAt_eq_recordAt, hsame] at hr
    obtain ⟨r', hr', -⟩ := Outcome.bind_eq_ok.mp hr
    exact h r' hr'
  have hequal : entryAt b src fuel moved offset
      = entryAt b src fuel real offset := by
    rw [entryAt_eq_recordAt, entryAt_eq_recordAt, hplace.recordAt_eq]
    cases hrec : recordAt b src fuel real offset with
    | ok r => exact absurd hrec (h r)
    | err | panic | running =>
        simp only [Outcome.err_bind, Outcome.panic_bind,
          Outcome.running_bind]
  intro n
  rw [Cursor.itemFrom_stuck (hstuck (hplace.recordAt_eq offset)),
    Cursor.itemFrom_stuck (hstuck rfl), hequal]

/-- A common successful call passes the agreement on. -/
theorem agreeFrom_of_step {offset offset' : Nat} {entry : DirectoryEntry}
    (hmoved : entryAt b src fuel moved offset = .ok (entry, some offset'))
    (hreal : entryAt b src fuel real offset = .ok (entry, some offset'))
    (h : AgreeFrom b src fuel moved real offset') :
    AgreeFrom b src fuel moved real offset := by
  intro n
  cases n with
  | zero => simp only [Cursor.itemFrom, Option.map_some, hmoved, hreal]
  | succ n =>
      simp only [Cursor.itemFrom, Cursor.advance, hmoved, hreal]
      exact h n

/-- Agreement anywhere on the walk through the first block is agreement
from the start. -/
theorem agreeFrom_of_walk (hplace : SamePlace moved real)
    (hone : moved.blockCount b = .ok 1) {offset : Nat}
    (hwalk : Walk b src real offset) :
    offset < BLOCK_SIZE → AgreeFrom b src fuel moved real offset →
      AgreeFrom b src fuel moved real 0 := by
  induction hwalk with
  | start => exact fun _ h => h
  | @next offset offset' block header identifier area hwalk hparse hnext ih =>
      intro hfirst hagree
      have hlen := (parse_length (parseAt_eq_ok.mp hparse).2).1
      have hless := (nextOffset_progress hlen hnext).1
      refine ih (by omega) ?_
      obtain ⟨count, hcount, hpositive⟩ := blockCount_pos hnext
      rcases nextOffset_first (b := b) offset (by omega) block
        header with ⟨pos, -, hpos⟩ | hblock
      · cases hrec : recordAt b src fuel real offset with
        | err | panic | running =>
            refine agreeFrom_of_stuck hplace fun r hr => ?_
            rw [hrec] at hr
            cases hr
        | ok r =>
            have hr := recordAt_header hparse hrec
            rw [hr] at hrec
            have hoff' : offset' = pos := by
              have hsame := hnext.symm.trans
                (hpos real count hcount hpositive)
              exact Option.some.inj (Outcome.ok.inj hsame)
            refine agreeFrom_of_step ?_ (entryAt_of_recordAt hrec hnext)
              hagree
            rw [← hplace.recordAt_eq] at hrec
            rw [hoff']
            exact entryAt_of_recordAt hrec
              (hpos moved 1 hone (Nat.lt_succ_self 0))
      · -- the second block is not in the first
        rw [hblock real count hcount] at hnext
        injection hnext with hnext
        split at hnext
        · injection hnext with hnext
          omega
        · cases hnext

/-- With a block count, a record with its entry is what is readable. -/
theorem readable_of_recordAt {dir : ISODirectory} {offset count : Nat}
    (hcount : dir.blockCount b = .ok count)
    {r : BlockBuffer × DirectoryEntryHeader × DirectoryEntry}
    (hrec : recordAt b src fuel dir offset = .ok r) :
    Readable b src fuel dir offset := by
  rw [readable_iff]
  obtain ⟨block, header, entry⟩ := r
  exact ⟨_, entryAt_of_recordAt hrec (nextOffset_eq_ok.mpr
    ⟨count, hcount, rfl⟩)⟩

theorem recordAt_of_readable {dir : ISODirectory} {offset : Nat}
    (h : Readable b src fuel dir offset) :
    ∃ block header identifier area entry,
      parseAt b src dir offset = .ok (block, header, identifier, area)
        ∧ recordAt b src fuel dir offset = .ok (block, header, entry) := by
  obtain ⟨block, header, identifier, area, susp, entry, next, hparse, hsusp,
    hbuild, -⟩ := h
  refine ⟨block, header, identifier, area, entry, hparse, ?_⟩
  unfold recordAt
  rw [hparse]
  dsimp only [Outcome.ok_bind]
  rw [hsusp]
  dsimp only [Outcome.ok_bind]
  rw [hbuild]
  rfl

/-- Agreement is passed on by a common successful call, backwards too. -/
theorem AgreeFrom.next {offset offset' : Nat} {entry : DirectoryEntry}
    (hmoved : entryAt b src fuel moved offset = .ok (entry, some offset'))
    (hreal : entryAt b src fuel real offset = .ok (entry, some offset'))
    (h : AgreeFrom b src fuel moved real offset) :
    AgreeFrom b src fuel moved real offset' := by
  intro n
  have hn := h (n + 1)
  simp only [Cursor.itemFrom, Cursor.advance, hmoved, hreal] at hn
  exact hn

/-- If the first block can be read and there is a second one, the two
disagree: behind the first block, or at once if the blocks of the
directory cannot be counted. -/
theorem not_agreeFrom {k : Nat} (hplace : SamePlace moved real)
    (hone : moved.blockCount b = .ok 1) (hk : 1 < k)
    (hcount : real.blockCount b = .ok k ∨ real.blockCount b = .panic)
    (hread : ∀ offset, offset < BLOCK_SIZE → Walk b src real offset →
      Readable b src fuel moved offset) :
    ∀ offset, offset < BLOCK_SIZE → Walk b src real offset →
      ¬ AgreeFrom b src fuel moved real offset := by
  intro offset
  induction hm : BLOCK_SIZE - offset using Nat.strongRecOn
    generalizing offset with
  | ind m ih =>
      intro hfirst hwalk hagree
      obtain ⟨block, header, identifier, area, entry, hparse, hrec⟩ :=
        recordAt_of_readable (hread offset hfirst hwalk)
      have hlen := (parse_length (parseAt_eq_ok.mp hparse).2).1
      rw [hplace.parseAt_eq] at hparse
      have hrec' := hrec
      rw [hplace.recordAt_eq] at hrec'
      rcases hcount with hcount | hpanic
      · rcases nextOffset_first (b := b) _ hfirst block header with
          ⟨pos, hpos, hnext⟩ | hnext
        · have hmoved := hnext moved 1 hone (Nat.lt_succ_self 0)
          have hreal := hnext real k hcount (by omega)
          have hless := (nextOffset_progress hlen hreal).1
          exact ih (BLOCK_SIZE - pos) (by omega) pos rfl hpos
            (hwalk.next hparse hreal)
            (hagree.next (entryAt_of_recordAt hrec hmoved)
              (entryAt_of_recordAt hrec' hreal))
        · -- here the one ends and the other goes on
          have hmoved := entryAt_of_recordAt hrec (hnext moved 1 hone)
          have hreal := entryAt_of_recordAt hrec' (hnext real k hcount)
          rw [if_neg (Nat.lt_irrefl 1)] at hmoved
          rw [if_pos hk] at hreal
          have hsecond := hagree 1
          simp only [Cursor.itemFrom, Cursor.advance, hmoved, hreal] at hsecond
          cases hsecond
      · have hmoved := entryAt_of_recordAt hrec
          (nextOffset_eq_ok.mpr ⟨1, hone, rfl⟩)
        have hreal : entryAt b src fuel real offset = .panic := by
          rw [entryAt_eq_recordAt, hrec']
          dsimp only [Outcome.ok_bind, nextOffset]
          rw [hpanic]
          rfl
        have hhere := hagree 0
        simp only [Cursor.itemFrom, Option.map_some, hmoved, hreal] at hhere
        cases hhere

/-- With the same length as well there is no difference at all. -/
theorem agreeFrom_of_blockCount (hplace : SamePlace moved real)
    (hcount : moved.blockCount b = real.blockCount b) (offset : Nat) :
    AgreeFrom b src fuel moved real offset := by
  have hstep : entryAt b src fuel moved = entryAt b src fuel real := by
    funext o
    rw [entryAt_eq_recordAt, entryAt_eq_recordAt, hplace.recordAt_eq]
    unfold nextOffset
    rw [hcount]
  intro n
  rw [hstep]

/-- The entry of a record with a `CL` entry is a directory that lists the
same as the directory at the block the entry names exactly when that one
has a single block, or some record of its first block cannot be read. -/
theorem childLink_contents_iff (hserve : rd.Serves src) (s s' s'' : σ)
    {parent : ISODirectory} {cache : BlockCache}
    (hco : Coherent src parent cache) {offset : Nat} {block : BlockBuffer}
    {header : DirectoryEntryHeader} {identifier : String}
    {area : Option (List SystemUseEntry)} {susp : List SystemUseEntry}
    {cl : ChildLink} {entry : DirectoryEntry} {next : Option Nat}
    (hparse : parseAt b src parent offset
      = .ok (block, header, identifier, area))
    (hsusp : completeSusp b src fuel area = .ok susp)
    (hcl : childLink susp = some cl)
    (hentry : (readEntryAt b rd fuel parent cache offset s).1
      = .ok (entry, next))
    {k : Nat} (hk : 1 ≤ k) (hloc : real.header.extentLoc = cl.lba)
    (hlen : real.header.extentLength.toNat = BLOCK_SIZE * k)
    (henc : real.header.characterEncoding
      = parent.header.characterEncoding) :
    ∃ moved, entry = .directory moved
      ∧ ((∀ n, item b rd fuel moved s' n = item b rd fuel real s'' n)
        ↔ k = 1 ∨ ∃ offset, offset < BLOCK_SIZE ∧ Walk b src real offset
            ∧ ¬ Readable b src fuel moved offset) := by
  rw [(readEntryAt_serves hserve fuel hco offset s).1] at hentry
  obtain ⟨moved, hmoved, hloc', hlen', henc'⟩ :=
    entryAt_childLink hparse hsusp hcl hentry
  have hplace : SamePlace moved real :=
    ⟨hloc'.trans hloc.symm, henc'.trans henc.symm⟩
  have hone : moved.blockCount b = .ok 1 := by
    rw [blockCount_whole (n := 1) (by omega) (by rw [hlen']; rfl),
      if_pos (Or.inl (by omega))]
  have hcount := blockCount_whole (b := b) (by omega) hlen
  refine ⟨moved, hmoved, ?_⟩
  have hitems :
      (∀ n, item b rd fuel moved s' n = item b rd fuel real s'' n)
      ↔ AgreeFrom b src fuel moved real 0 := by
    unfold AgreeFrom
    simp only [item_eq hserve]
  rw [hitems]
  constructor
  · intro hagree
    by_contra hcond
    rw [not_or] at hcond
    obtain ⟨hmany, hread⟩ := hcond
    refine not_agreeFrom hplace hone (k := k) (by omega) ?_ ?_ 0
      (by unfold BLOCK_SIZE; omega) .start hagree
    · rw [hcount]
      split
      · exact Or.inl rfl
      · exact Or.inr rfl
    · intro offset hfirst hwalk
      by_contra hunread
      exact hread ⟨offset, hfirst, hwalk, hunread⟩
  · rintro (hk | ⟨offset, hfirst, hwalk, hunread⟩)
    · subst hk
      refine agreeFrom_of_blockCount hplace ?_ 0
      rw [hone, hcount, if_pos (Or.inl (by omega))]
    · refine agreeFrom_of_walk hplace hone hwalk hfirst ?_
      refine agreeFrom_of_stuck hplace fun r hr => ?_
      rw [← hplace.recordAt_eq] at hr
      exact hunread (readable_of_recordAt hone hr)

-- ============================================== a directory of two blocks

/-- The header of the directory's records. -/
def movedHeader : DirectoryEntryHeader :=
  { dotHeader with extentLoc := 30, extentLength := 4096 }

/-- Its own record. -/
def movedRecord : EncodedRecord debugBuild .iso9660 where
  bytes := [34, 0, 30, 0, 0, 0, 0, 0, 0, 30, 0, 16, 0, 0, 0, 0, 16, 0,
    100, 1, 1, 0, 0, 0, 0, 2, 0, 0, 1, 0, 0, 1, 1, 0]
  header := movedHeader
  identifier := "\x00"
  area := none
  entry := .directory (ISODirectory.new movedHeader plainExt "\x00")
  parsed := by decide +kernel
  noContinuation := dotRecord.noContinuation
  noChildLink := dotRecord.noChildLink
  built := by decide
  bounded := by decide

/-- Its first block holds this record, its second one a file. -/
def movedBlocks : List (RecordBlock debugBuild .iso9660) :=
  [⟨[movedRecord], by decide, by decide⟩,
    ⟨[upperRecord], by decide, by decide⟩]

/-- A block with two records: the dummy file `R`, whose `CL` entry names
block 30, and the directory `MOVED`, which is there. -/
def linkBlock : BlockBuffer :=
  BlockBuffer.new.overwrite
    [46, 0, 21, 0, 0, 0, 0, 0, 0, 21, 0, 0, 0, 0, 0, 0, 0, 0,
      100, 1, 1, 0, 0, 0, 0, 0, 0, 0, 1, 0, 0, 1, 1, 0x52,
      0x43, 0x4C, 12, 1, 30, 0, 0, 0, 0, 0, 0, 30,
      38, 0, 30, 0, 0, 0, 0, 0, 0, 30, 0, 16, 0, 0, 0, 0, 16, 0,
      100, 1, 1, 0, 0, 0, 0, 2, 0, 0, 1, 0, 0, 1, 5,
      0x4D, 0x4F, 0x56, 0x45, 0x44]

/-- That block is block 20, and the directory is at 30. -/
def linkSource : Source where
  deliver lba :=
    if lba = 20 then .ok linkBlock.bytes
    else match movedBlocks[lba - 30]? with
      | some blk => .ok blk.buffer.bytes
      | none => .ok BlockBuffer.new.bytes
  atMostBlock {lba bs} h := by
    split at h
    · exact linkBlock.delivered_le h
    · split at h
      · rename_i blk _
        exact blk.buffer.delivered_le h
      · exact BlockBuffer.new.delivered_le h

/-- The header of `R`. -/
def linkHeader : DirectoryEntryHeader :=
  { dotHeader with
    length := 46, extentLoc := 21, extentLength := 0, fileFlags := 0 }

/-- The directory that is built for `R`. -/
def linkedDirectory : ISODirectory :=
  relocate ⟨linkHeader, "R", 1, plainExt⟩ ⟨30⟩

/-- The directory that is built for `MOVED`. -/
def movedDirectory : ISODirectory :=
  ISODirectory.new { movedHeader with length := 38 } plainExt "MOVED"

theorem linkSource_parse :
    parseAt debugBuild linkSource dotDirectory 0
      = .ok (linkBlock, linkHeader, "R", some [.childLink ⟨30⟩]) := by
  decide +kernel

theorem linkSource_linked :
    (readEntryAt debugBuild linkSource.reader 0 dotDirectory BlockCache.new
      0 ()).1 = .ok (.directory linkedDirectory, some 46) := by
  decide +kernel

theorem linkSource_moved :
    (readEntryAt debugBuild linkSource.reader 0 dotDirectory BlockCache.new
      46 ()).1 = .ok (.directory movedDirectory, none) := by
  decide +kernel

/-- A directory at block 30 is stored as far as it reaches. -/
theorem linkSource_stored (dir : ISODirectory)
    {blocks : List (RecordBlock debugBuild .iso9660)}
    (hbegin : blocks <+: movedBlocks) (hne : blocks ≠ [])
    (hloc : dir.header.extentLoc = 30)
    (henc : dir.header.characterEncoding = .iso9660)
    (hlen : dir.header.extentLength.toNat = BLOCK_SIZE * blocks.length) :
    Stored linkSource dir blocks where
  encoding := henc
  nonempty := hne
  length := hlen
  delivered := by
    intro i blk hblk
    obtain ⟨hi, hget⟩ := List.getElem?_eq_some_iff.mp hblk
    have hmoved := List.prefix_iff_getElem?.mp hbegin i hi
    rw [hget] at hmoved
    have hlba : dir.header.extentLoc.toNat + i - 30 = i := by
      rw [hloc]
      exact Nat.add_sub_cancel_left 30 i
    have hout : dir.header.extentLoc.toNat + i ≠ 20 := by
      rw [hloc]
      show 30 + i ≠ 20
      omega
    simp only [linkSource]
    rw [if_neg hout, hlba, hmoved]

/-- The directory at block 30 has two entries, and the second is missing
when it is listed through `R`. -/
theorem childLink_two_blocks :
    (readEntryAt debugBuild linkSource.reader 0 dotDirectory BlockCache.new
        0 ()).1 = .ok (.directory linkedDirectory, some 46)
      ∧ (readEntryAt debugBuild linkSource.reader 0 dotDirectory
        BlockCache.new 46 ()).1 = .ok (.directory movedDirectory, none)
      ∧ item debugBuild linkSource.reader 0 movedDirectory () 0
        = some (.ok movedRecord.entry)
      ∧ item debugBuild linkSource.reader 0 movedDirectory () 1
        = some (.ok upperRecord.entry)
      ∧ item debugBuild linkSource.reader 0 linkedDirectory () 1 = none := by
  have hmoved := stored_yields (linkSource_stored movedDirectory
    (List.prefix_rfl) (by decide) rfl rfl (by decide)) (by decide) 0
  have hlinked := stored_yields (linkSource_stored linkedDirectory
    (List.take_prefix 1 _) (by decide) rfl rfl
    (by decide)) (by decide) 0
  refine ⟨linkSource_linked, linkSource_moved, ?_, ?_, ?_⟩
  · rw [item_eq linkSource.reader_serves, hmoved 0]
    rfl
  · rw [item_eq linkSource.reader_serves, hmoved 1]
    rfl
  · rw [item_eq linkSource.reader_serves, hlinked 1]
    rfl

/-- What holds of `R` and the directory `MOVED`. -/
theorem childLink_moved :
    ∃ moved, DirectoryEntry.directory linkedDirectory = .directory moved
      ∧ ((∀ n, item debugBuild linkSource.reader 0 moved () n
          = item debugBuild linkSource.reader 0 movedDirectory () n)
        ↔ 2 = 1 ∨ ∃ offset, offset < BLOCK_SIZE
            ∧ Walk debugBuild linkSource movedDirectory offset
            ∧ ¬ Readable debugBuild linkSource 0 moved offset) :=
  childLink_contents_iff linkSource.reader_serves () () ()
    (coherent_new linkSource dotDirectory) linkSource_parse rfl rfl
    linkSource_linked (by omega) rfl (by decide) rfl

end Cdfs
