/-
What the iterator over a directory yields.

Over a directory as recorded it yields the records and then ends, and
the one thing that can go wrong is the block count of the longest
extent, whose sum does not fit 32 bits (`contents_eq_recorded_iff`).

Over anything else it ends exactly when no record it comes to is
unreadable (`contents_ends_iff`): a failed call does not advance the
iterator. Which records it comes to is decided by their length bytes
and the bytes behind them (`Walk`).
-/
import Cdfs.Proofs.Layout

namespace Cdfs

open Rust Parse

variable {σ : Type} {b : Build} {rd : ISO9660Reader σ} {src : Source}

-- ================================================ directories as recorded

/-- Without a block count no call succeeds. -/
theorem item_ne_ok (hserve : rd.Serves src) (fuel : Nat)
    {dir : ISODirectory} (hcount : ∀ n, dir.blockCount b ≠ .ok n) (s : σ)
    (n : Nat) (entry : DirectoryEntry) :
    item b rd fuel dir s n ≠ some (.ok entry) := by
  have hfail : ∀ r, entryAt b src fuel dir 0 ≠ .ok r := by
    rintro ⟨e, next⟩ h
    obtain ⟨_, _, _, _, _, -, -, -, hnext⟩ := entryAt_eq_ok.mp h
    obtain ⟨count, h, -⟩ := nextOffset_eq_ok.mp hnext
    exact hcount count h
  rw [item_eq hserve, Cursor.itemFrom_stuck hfail]
  intro h
  injection h with h
  cases hstep : entryAt b src fuel dir 0 with
  | ok r => exact hfail r hstep
  | err | panic | running =>
      rw [hstep] at h
      cases h

/-- A recorded directory has a first entry. -/
theorem recorded_ne_nil {enc : CharacterEncoding}
    {blocks : List (RecordBlock b enc)} (h : blocks ≠ []) :
    ∃ entry, (recorded blocks)[0]? = some entry := by
  match blocks with
  | [] => exact absurd rfl h
  | blk :: blocks =>
      match hrecords : blk.records with
      | [] => exact absurd hrecords blk.nonempty
      | r :: records =>
          refine ⟨r.entry, ?_⟩
          rw [recorded, List.flatMap_cons, hrecords]
          rfl

/-- The iterator yields exactly what is recorded, each record once and
in order, and then nothing more: for extents of less than `2 ^ 21 - 1`
blocks always, for the longest extent where overflow is not checked. -/
theorem contents_eq_recorded_iff {enc : CharacterEncoding}
    {dir : ISODirectory} {blocks : List (RecordBlock b enc)}
    (hserve : rd.Serves src) (hst : Stored src dir blocks) (fuel : Nat)
    (s : σ) :
    (∀ n, item b rd fuel dir s n = ((recorded blocks)[n]?).map .ok)
      ↔ blocks.length < 2 ^ 21 - 1 ∨ b.overflowChecks = false := by
  have hcount := blockCount_whole (b := b)
    (List.length_pos_iff.mpr hst.nonempty) hst.length
  constructor
  · intro h
    by_contra hcond
    rw [if_neg hcond] at hcount
    obtain ⟨entry, hentry⟩ := recorded_ne_nil hst.nonempty
    have hfirst := h 0
    rw [hentry] at hfirst
    refine item_ne_ok hserve fuel (fun n hn => ?_) s 0 entry hfirst
    rw [hcount] at hn
    cases hn
  · intro hcond n
    rw [if_pos hcond] at hcount
    rw [item_eq hserve]
    exact stored_yields hst hcount fuel n

/-- The directory with the longest extent of whole blocks. -/
def longestDirectory : ISODirectory :=
  { dotDirectory with
    header := { dotHeader with extentLength := 0xFFFFF800 } }

/-- A directory of `2 ^ 21 - 1` blocks, each of one record: the first
call of `next` panics. -/
theorem contents_longest :
    Stored dotSource longestDirectory (List.replicate (2 ^ 21 - 1) dotBlock)
      ∧ ¬ ∀ n, item debugBuild dotSource.reader 0 longestDirectory () n
          = ((recorded (List.replicate (2 ^ 21 - 1) dotBlock))[n]?).map
              .ok := by
  have hst : Stored dotSource longestDirectory
      (List.replicate (2 ^ 21 - 1) dotBlock) :=
    dotSource_stored _ (by omega) rfl (by decide)
  refine ⟨hst, fun h => ?_⟩
  obtain ⟨entry, hentry⟩ := recorded_ne_nil hst.nonempty
  have hfirst := h 0
  rw [hentry] at hfirst
  have hcount : longestDirectory.blockCount debugBuild = .panic := by
    decide
  refine item_ne_ok dotSource.reader_serves 0 (fun n hn => ?_) () 0 entry
    hfirst
  rw [hcount] at hn
  cases hn

/-- The file `NOTES.TXT`, at block 23. -/
def notesRecord : EncodedRecord debugBuild .iso9660 where
  bytes := [44, 0, 23, 0, 0, 0, 0, 0, 0, 23, 0, 0, 0, 0, 0, 0, 0, 0,
    100, 1, 1, 0, 0, 0, 0, 0, 0, 0, 1, 0, 0, 1, 11] ++ asBytes "NOTES.TXT;1"
  header := { letterHeader 23 with length := 44 }
  identifier := "NOTES.TXT;1"
  area := none
  entry := .file ⟨{ letterHeader 23 with length := 44 }, "NOTES.TXT", 1,
    plainExt⟩
  parsed := by decide +kernel
  noContinuation := dotRecord.noContinuation
  noChildLink := dotRecord.noChildLink
  built := by decide +kernel
  bounded := by decide

/-- Two blocks, the first with two records. -/
def wideBlocks : List (RecordBlock debugBuild .iso9660) :=
  [⟨[dotRecord, upperRecord], by decide, by decide⟩,
    ⟨[notesRecord], by decide, by decide⟩]

/-- A directory of the two. -/
def wideDirectory : ISODirectory :=
  { dotDirectory with header := { dotHeader with extentLength := 4096 } }

/-- The second block is everywhere but at the start of the directory. -/
def wideSource : Source where
  deliver lba :=
    .ok (if lba = 20 then wideBlocks[0] else wideBlocks[1]).buffer.bytes
  atMostBlock h := BlockBuffer.delivered_le _ h

theorem wideSource_stored : Stored wideSource wideDirectory wideBlocks where
  encoding := rfl
  nonempty := by decide
  length := rfl
  delivered := by
    intro i blk hblk
    match i with
    | 0 =>
        cases hblk
        rfl
    | 1 =>
        cases hblk
        rfl
    | _ + 2 => cases hblk

/-- Its records are yielded, over the end of the first block. -/
theorem contents_wide :
    item debugBuild wideSource.reader 0 wideDirectory () 1
        = some (.ok upperRecord.entry)
      ∧ item debugBuild wideSource.reader 0 wideDirectory () 2
        = some (.ok notesRecord.entry)
      ∧ item debugBuild wideSource.reader 0 wideDirectory () 3 = none := by
  have hall := (contents_eq_recorded_iff wideSource.reader_serves
    wideSource_stored 0 ()).mpr (Or.inl (by decide))
  exact ⟨hall 1, hall 2, hall 3⟩

-- ======================================================== any directory

/-- The offsets of the records the iterator comes to: the first, and
after each record that parses the next one by its length and the bytes
behind it. -/
inductive Walk (b : Build) (src : Source) (dir : ISODirectory) : Nat → Prop
  | start : Walk b src dir 0
  | next {offset offset' : Nat} {block : BlockBuffer}
      {header : DirectoryEntryHeader} {identifier : String}
      {area : Option (List SystemUseEntry)} :
      Walk b src dir offset →
      parseAt b src dir offset = .ok (block, header, identifier, area) →
      nextOffset b dir block offset header = .ok (some offset') →
      Walk b src dir offset'

/-- The record at an offset can be read: its block is delivered in full,
it parses, its continuation areas can be followed, its entry can be
built, and the directory's blocks can be counted. -/
def Readable (b : Build) (src : Source) (fuel : Nat) (dir : ISODirectory)
    (offset : Nat) : Prop :=
  ∃ block header identifier area susp entry next,
    parseAt b src dir offset = .ok (block, header, identifier, area)
      ∧ completeSusp b src fuel area = .ok susp
      ∧ buildEntry b header identifier susp = .ok entry
      ∧ nextOffset b dir block offset header = .ok next

theorem readable_iff {fuel : Nat} {dir : ISODirectory} {offset : Nat} :
    Readable b src fuel dir offset
      ↔ ∃ r, entryAt b src fuel dir offset = .ok r := by
  constructor
  · rintro ⟨block, header, identifier, area, susp, entry, next, h⟩
    exact ⟨(entry, next), entryAt_eq_ok.mpr
      ⟨block, header, identifier, area, susp, h⟩⟩
  · rintro ⟨⟨entry, next⟩, hr⟩
    obtain ⟨block, header, identifier, area, susp, h⟩ := entryAt_eq_ok.mp hr
    exact ⟨block, header, identifier, area, susp, entry, next, h⟩

/-- A successful read goes where the walk goes. -/
theorem Walk.of_reached {fuel : Nat} {dir : ISODirectory} {offset : Nat}
    (h : Cursor.Reached (entryAt b src fuel dir) 0 offset) :
    Walk b src dir offset := by
  induction h with
  | start => exact .start
  | next _ hstep ih =>
      obtain ⟨_, _, _, _, _, hparse, -, -, hnext⟩ := entryAt_eq_ok.mp hstep
      exact .next ih hparse hnext

/-- As long as what it comes to is readable, the walk goes where the
iterator goes. -/
theorem Walk.reached {fuel : Nat} {dir : ISODirectory}
    (hsound : Cursor.Sound (entryAt b src fuel dir) 0) {offset : Nat}
    (h : Walk b src dir offset) :
    Cursor.Reached (entryAt b src fuel dir) 0 offset := by
  induction h with
  | start => exact .start
  | next _ hparse hnext ih =>
      obtain ⟨⟨entry, next⟩, hstep⟩ := hsound _ ih
      obtain ⟨block, header, identifier, area, susp, hparse', hsusp, hbuild,
        hnext'⟩ := entryAt_eq_ok.mp hstep
      rw [hparse] at hparse'
      injection hparse' with heq
      injection heq with h₁ heq
      injection heq with h₂ _
      subst h₁ h₂
      rw [hnext] at hnext'
      injection hnext' with h₃
      subst h₃
      exact .next ih hstep

/-- The iterator ends exactly when every record it comes to can be
read. -/
theorem contents_ends_iff (hserve : rd.Serves src) (fuel : Nat)
    (dir : ISODirectory) (s : σ) :
    (∃ n, item b rd fuel dir s n = none)
      ↔ ∀ offset, Walk b src dir offset →
          Readable b src fuel dir offset := by
  simp only [item_eq hserve, readable_iff]
  rw [Cursor.ends_iff (fun offset => 2 ^ 32 - 1 - offset) entryAt_measure]
  constructor
  · intro hsound offset hwalk
    exact hsound offset (hwalk.reached hsound)
  · intro hread offset hreach
    exact hread offset (Walk.of_reached hreach)

/-- Over an empty image every call of `next` returns the same short read
and the iterator never ends. -/
theorem contents_empty_image :
    (∀ n, item debugBuild ((cursor []).reader debugBuild) 0 dotDirectory 0 n
        = some (.err (.readSize 0)))
      ∧ ¬ ∃ n, item debugBuild ((cursor []).reader debugBuild) 0
          dotDirectory 0 n = none := by
  have hfirst : entryAt debugBuild (cursorSource debugBuild []) 0
      dotDirectory 0 = .err (.readSize 0) := rfl
  have hall : ∀ n, item debugBuild ((cursor []).reader debugBuild) 0
      dotDirectory 0 n = some (.err (.readSize 0)) := by
    intro n
    rw [item_eq (cursor_serves debugBuild []),
      Cursor.itemFrom_stuck (by rw [hfirst]; exact fun _ h => nomatch h),
      hfirst]
    rfl
  refine ⟨hall, ?_⟩
  rintro ⟨n, hn⟩
  rw [hall n] at hn
  cases hn

/-- The directory of one block, whose end is reached. -/
theorem contents_dot_ends :
    (∃ n, item debugBuild dotSource.reader 0 dotDirectory () n = none)
      ↔ ∀ offset, Walk debugBuild dotSource dotDirectory offset →
          Readable debugBuild dotSource 0 dotDirectory offset :=
  contents_ends_iff dotSource.reader_serves 0 dotDirectory ()

end Cdfs
