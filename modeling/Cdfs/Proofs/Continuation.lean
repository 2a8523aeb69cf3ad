/-
Following continuation areas.

The loop in `read_entry_at` is a worklist: the `CE` entries found so far
are its queue, an area's entries are the work done on a `CE` entry
(`pull_eq_run`). Two results follow from the library's account of such
loops. The loop ends exactly when the record's `CE` entry leads to an
area that cannot be read, or to no cycle (`entryAt_finishes_iff`).
And along a chain with one `CE` entry to an area, what is collected is
what is recorded, provided the code reads the recorded part of each
block (`continuations_followed_iff`): it reads the first `length` bytes
and not those from `offset` on.
-/
import Cdfs.Proofs.Iteration
import Cdfs.Rust.Worklist
import Mathlib.Data.Finite.Prod

namespace Cdfs

open Rust Parse

variable {σ : Type} {b : Build} {rd : ISO9660Reader σ} {src : Source}

-- ================================================== the loop as a worklist

/-- The entries of one continuation area, as the loop reads them. -/
def areaAt (b : Build) (src : Source) (c : ContinuationArea) :
    Outcome ISOError (List SystemUseEntry) :=
  (readContinuation b src.reader c ()).1

/-- The bytes that are read for an area: the first `length` of its block,
of which what is not delivered is zero. -/
def frontBytes (bs : List UInt8) (c : ContinuationArea) : List UInt8 :=
  (BlockBuffer.new.overwrite bs).bytes.take c.length.toNat

/-- An area is read to these entries: its block is delivered, whole or
with as many bytes as the area has where that is asserted, and the first
`length` bytes of it decode to them. The area's offset does not come
in. -/
def AreaReads (b : Build) (src : Source) (c : ContinuationArea)
    (entries : List SystemUseEntry) : Prop :=
  ∃ bs rest, src.deliver c.blockLocation.toNat = .ok bs
    ∧ (b.assertions = true →
        bs.length = BLOCK_SIZE ∨ bs.length = c.length.toNat)
    ∧ c.length.toNat ≤ BLOCK_SIZE
    ∧ systemUseEntries b (frontBytes bs c) = .ok (rest, entries)

/-- An assertion that is compiled in is one that holds. -/
theorem assert_eq_ok {on cond : Bool} :
    (Outcome.assert on cond : Outcome ISOError Unit) = .ok ()
      ↔ (on = true → cond = true) := by
  cases on with
  | true => cases cond <;> simp [Outcome.assert]
  | false => simp [Outcome.assert]

theorem areaAt_eq_ok {c : ContinuationArea} {entries : List SystemUseEntry} :
    areaAt b src c = .ok entries ↔ AreaReads b src c entries := by
  have hcount : ∀ bs : List UInt8,
      (bs.length == 2048 || bs.length == c.length.toNat) = true
        ↔ bs.length = BLOCK_SIZE ∨ bs.length = c.length.toNat := by
    intro bs
    rw [Bool.or_eq_true, beq_iff_eq, beq_iff_eq, BLOCK_SIZE]
  unfold areaAt readContinuation AreaReads
  simp only [Source.reader, Source.fill]
  cases hdel : src.deliver c.blockLocation.toNat with
  | err | panic | running => simp [liftIo]
  | ok bs =>
      simp only [liftIo, Outcome.ok_bind, Outcome.bind_eq_ok]
      constructor
      · rintro ⟨⟨⟩, hsize, h⟩
        split at h
        · obtain ⟨⟨rest, entries'⟩, hfront, h⟩ := Outcome.bind_eq_ok.mp h
          injection h with h
          exact ⟨bs, rest, rfl,
            fun hon => (hcount bs).mp (assert_eq_ok.mp hsize hon), ‹_›,
            liftNom_eq_ok.mp (h ▸ hfront)⟩
        · cases h
      · rintro ⟨bs', rest, hbs, hsize, hlen, hfront⟩
        injection hbs with hbs
        subst hbs
        refine ⟨(), assert_eq_ok.mpr fun hon => (hcount bs).mpr (hsize hon),
          ?_⟩
        rw [if_pos hlen]
        exact Outcome.bind_eq_ok.mpr
          ⟨(rest, entries), liftNom_eq_ok.mpr hfront, rfl⟩

/-- The work on one `CE` entry: the entries of its area, and the `CE`
entries among them. -/
def expandArea (b : Build) (src : Source) (c : ContinuationArea) :
    Outcome ISOError (List SystemUseEntry × List ContinuationArea) :=
  (areaAt b src c).map fun entries => (entries, continuations entries)

/-- As a relation between the areas and what is read of them. -/
def AreaWork (b : Build) (src : Source) (c : ContinuationArea)
    (entries : List SystemUseEntry) (found : List ContinuationArea) : Prop :=
  AreaReads b src c entries ∧ found = continuations entries

theorem expandArea_eq_ok {c : ContinuationArea}
    {r : List SystemUseEntry × List ContinuationArea} :
    expandArea b src c = .ok r ↔ AreaWork b src c r.1 r.2 := by
  unfold expandArea AreaWork
  rw [← areaAt_eq_ok]
  cases areaAt b src c with
  | err | panic | running => simp [Outcome.map]
  | ok entries =>
      simp only [Outcome.map, Outcome.ok.injEq]
      constructor
      · rintro rfl
        exact ⟨rfl, rfl⟩
      · rintro ⟨rfl, h⟩
        rw [← h]

theorem work_expandArea (b : Build) (src : Source) :
    (fun c entries found => expandArea b src c = .ok (entries, found))
      = AreaWork b src := by
  funext c entries found
  exact propext expandArea_eq_ok

/-- The areas that the loop goes through, each with the entries it takes
from it. -/
def continuationTrace (b : Build) (src : Source) (fuel : Nat)
    (cont : Option ContinuationArea) :
    Outcome ISOError (List (ContinuationArea × List SystemUseEntry)) :=
  Worklist.run (expandArea b src) fuel cont.toList

/-- The loop is the worklist, and its result is the entries other than
`CE` entries in the order they are come to. -/
theorem pull_eq_run (fuel : Nat) :
    ∀ (susp : List SystemUseEntry) (cont : Option ContinuationArea),
      (cont = none → continuations susp = []) →
      (pullContinuations b src.reader fuel susp cont ()).1
        = (Worklist.run (expandArea b src) fuel
            (cont.toList ++ continuations susp)).map
          fun done => plain susp ++ done.flatMap fun d => plain d.2 := by
  induction fuel with
  | zero =>
      intro susp cont hnone
      cases cont with
      | none =>
          rw [hnone rfl, plain_eq_self (hnone rfl)]
          exact congrArg Outcome.ok (List.append_nil susp).symm
      | some c => rfl
  | succ fuel ih =>
      intro susp cont hnone
      cases cont with
      | none =>
          rw [hnone rfl, plain_eq_self (hnone rfl)]
          exact congrArg Outcome.ok (List.append_nil susp).symm
      | some c =>
          have harea : areaAt b src c
              = (readContinuation b src.reader c ()).1 := rfl
          rw [Option.toList_some, List.singleton_append]
          unfold pullContinuations
          rcases hread : readContinuation b src.reader c () with ⟨r, ⟨⟩⟩
          rw [hread] at harea
          cases r with
          | ok entries =>
              have hexpand : expandArea b src c
                  = .ok (entries, continuations entries) :=
                expandArea_eq_ok.mpr ⟨areaAt_eq_ok.mp harea, rfl⟩
              obtain ⟨hqueue, hplain, hempty⟩ :=
                removeContinuation_eq (susp ++ entries)
              dsimp only
              rw [ih _ _ hempty, hqueue, hplain, Worklist.run_cons hexpand,
                continuations_append, plain_append]
              cases Worklist.run (expandArea b src) fuel
                  (continuations susp ++ continuations entries) with
              | ok done =>
                  simp only [Outcome.map, List.flatMap_cons,
                    List.append_assoc]
              | err | panic | running => rfl
          | err | panic | running =>
              dsimp only
              unfold Worklist.run expandArea
              rw [harea]
              rfl

/-- The complete list of a record, by the areas gone through. -/
theorem completeSusp_eq_trace (fuel : Nat)
    (area : Option (List SystemUseEntry)) :
    completeSusp b src fuel area
      = (continuationTrace b src fuel
          (continuations (area.getD [])).getLast?).map
        fun done => plain (area.getD [])
          ++ done.flatMap fun d => plain d.2 := by
  have hplain : continuations (plain (area.getD [])) = [] := by
    rw [continuations, List.filterMap_eq_nil_iff]
    intro e he
    rw [plain, List.mem_filter, Option.isNone_iff_eq_none] at he
    exact he.2
  have htwice : plain (plain (area.getD [])) = plain (area.getD []) :=
    plain_eq_self hplain
  unfold completeSusp continuationTrace
  rw [splitContinuation_eq, pull_eq_run fuel _ _ (fun _ => hplain), hplain,
    List.append_nil, htwice]

/-- The system use entries that are read for a record: its own, and those
of the areas that its last `CE` entry leads to, one after the other. The
`CE` entries are taken out. -/
def Collects (b : Build) (src : Source) (area : Option (List SystemUseEntry))
    (susp : List SystemUseEntry) : Prop :=
  ∃ walk, Worklist.Walk (AreaWork b src)
      (continuations (area.getD [])).getLast?.toList walk
    ∧ susp = plain (area.getD []) ++ walk.flatMap fun w => plain w.2

/-- The loop has them, if it comes to its end. -/
theorem completeSusp_eq_ok_iff {area : Option (List SystemUseEntry)}
    {susp : List SystemUseEntry} :
    (∃ fuel, completeSusp b src fuel area = .ok susp)
      ↔ Collects b src area susp := by
  have hwalk := @Worklist.run_eq_ok_iff _ _ _ (expandArea b src)
    (continuations (area.getD [])).getLast?.toList
  unfold Collects
  rw [← work_expandArea]
  simp only [completeSusp_eq_trace, continuationTrace]
  constructor
  · rintro ⟨fuel, h⟩
    obtain ⟨walk, hrun, hsusp⟩ := Outcome.map_eq_ok.mp h
    exact ⟨walk, hwalk.mp ⟨fuel, hrun⟩, hsusp.symm⟩
  · rintro ⟨walk, h, hsusp⟩
    obtain ⟨fuel, hrun⟩ := hwalk.mpr h
    exact ⟨fuel, Outcome.map_eq_ok.mpr ⟨walk, hrun, hsusp.symm⟩⟩

-- ============================================================ termination

theorem areaAt_ne_running (hreturns : ∀ lba, src.deliver lba ≠ .running)
    (c : ContinuationArea) : areaAt b src c ≠ .running := by
  intro h
  rcases Outcome.bind_eq_running.mp h with h | ⟨count, -, h⟩
  · have hdel := hreturns c.blockLocation.toNat
    change liftIo (src.fill BlockBuffer.new c.blockLocation.toNat).2
      = .running at h
    unfold Source.fill at h
    cases hcase : src.deliver c.blockLocation.toNat with
    | running => exact hdel hcase
    | ok | err | panic =>
        rw [hcase] at h
        cases h
  rcases Outcome.bind_eq_running.mp h with h | ⟨_, -, h⟩
  · exact Outcome.assert_ne_running _ _ h
  split at h
  · rcases Outcome.bind_eq_running.mp h with h | ⟨_, -, h⟩
    · exact (ends_systemUseEntries b).returns _ (liftNom_eq_running.mp h)
    · cases h
  · cases h

instance : Finite ContinuationArea :=
  Finite.of_injective
    (fun c => (c.blockLocation.toFin, c.offset.toFin, c.length.toFin))
    fun c c' h => by
      obtain ⟨l, o, n⟩ := c
      obtain ⟨l', o', n'⟩ := c'
      simp only [Prod.mk.injEq] at h
      obtain ⟨hl, ho, hn⟩ := h
      rw [UInt32.toFin_inj.mp hl, UInt32.toFin_inj.mp ho,
        UInt32.toFin_inj.mp hn]

/-- One `CE` entry's area, as the loop reads it, holds the other. -/
def ContinuesTo (b : Build) (src : Source) (c c' : ContinuationArea) : Prop :=
  ∃ entries, AreaReads b src c entries ∧ c' ∈ continuations entries

theorem leads_iff {c c' : ContinuationArea} :
    Worklist.Leads (expandArea b src) c c' ↔ ContinuesTo b src c c' := by
  constructor
  · rintro ⟨r, hr, hmem⟩
    obtain ⟨harea, hce⟩ := expandArea_eq_ok.mp hr
    exact ⟨r.1, harea, hce ▸ hmem⟩
  · rintro ⟨entries, harea, hmem⟩
    exact ⟨(entries, continuations entries),
      expandArea_eq_ok.mpr ⟨harea, rfl⟩, hmem⟩

theorem fails_iff {c : ContinuationArea} :
    Worklist.Fails (expandArea b src) c
      ↔ ∀ entries, ¬ AreaReads b src c entries := by
  constructor
  · intro h entries harea
    exact h (entries, continuations entries)
      (expandArea_eq_ok.mpr ⟨harea, rfl⟩)
  · intro h r hr
    exact h r.1 (expandArea_eq_ok.mp hr).1

/-- Following a `CE` entry comes to an end: an area that cannot be read
is come to, or no area is come to again. -/
def Terminating (b : Build) (src : Source) (c : ContinuationArea) : Prop :=
  (∃ c', Relation.ReflTransGen (ContinuesTo b src) c c'
      ∧ ∀ entries, ¬ AreaReads b src c' entries)
    ∨ ∀ c', Relation.ReflTransGen (ContinuesTo b src) c c' →
      ¬ Relation.TransGen (ContinuesTo b src) c' c'

/-- The loop ends exactly for the `CE` entries that are terminating. -/
theorem trace_finishes_iff (hreturns : ∀ lba, src.deliver lba ≠ .running)
    (cont : Option ContinuationArea) :
    (∃ fuel, continuationTrace b src fuel cont ≠ .running)
      ↔ ∀ c, cont = some c → Terminating b src c := by
  have hexp : ∀ c, expandArea b src c ≠ .running := by
    intro c h
    unfold expandArea at h
    exact Worklist.map_ne_running.mpr (areaAt_ne_running hreturns c) h
  have hleads : Worklist.Leads (expandArea b src) = ContinuesTo b src := by
    funext c c'
    exact propext leads_iff
  have h := Worklist.finishes_iff hexp cont.toList
  rw [hleads] at h
  cases cont with
  | none =>
      refine ⟨fun _ c hc => ?_, fun _ => ⟨0, fun h => nomatch h⟩⟩
      cases hc
  | some c =>
      simp only [Option.toList_some, List.mem_singleton, exists_eq_left,
        forall_eq, fails_iff] at h
      refine h.trans ?_
      simp only [Option.some.injEq, forall_eq']
      rfl

theorem parseAt_ne_running (hreturns : ∀ lba, src.deliver lba ≠ .running)
    (dir : ISODirectory) (offset : Nat) :
    parseAt b src dir offset ≠ .running := by
  intro h
  rcases Outcome.bind_eq_running.mp h with h | ⟨_, -, h⟩
  · unfold blockAt at h
    split at h
    · split at h
      · cases h
      · cases h
    · cases h
    · cases h
    · exact hreturns _ ‹_›
  rcases Outcome.bind_eq_running.mp h with h | ⟨_, -, h⟩
  · rcases Outcome.bind_eq_running.mp h with h | ⟨_, -, h⟩
    · exact directoryEntry_ne_running b _ _ (liftNom_eq_running.mp h)
    · cases h
  · cases h

theorem buildEntry_ne_running (header : DirectoryEntryHeader)
    (identifier : String) (susp : List SystemUseEntry) :
    buildEntry b header identifier susp ≠ .running := by
  intro h
  rcases Outcome.bind_eq_running.mp h with h | ⟨_, -, h⟩
  · exact extraMeta_ne_running b susp h
  rcases Outcome.bind_eq_running.mp h with h | ⟨_, -, h⟩
  · exact DirectoryEntry.new_ne_running _ _ _ h
  split at h
  · split at h
    · cases h
    · cases h
  · cases h

theorem nextOffset_ne_running (dir : ISODirectory) (block : BlockBuffer)
    (offset : Nat) (header : DirectoryEntryHeader) :
    nextOffset b dir block offset header ≠ .running := by
  intro h
  rcases Outcome.bind_eq_running.mp h with h | ⟨_, -, h⟩
  · rcases blockCount_cases b dir with ⟨n, hn⟩ | hpanic
    · rw [hn] at h
      cases h
    · rw [hpanic] at h
      cases h
  · cases h

/-- A call is unfinished only in the loop over continuation areas. -/
theorem entryAt_eq_running (hreturns : ∀ lba, src.deliver lba ≠ .running)
    {fuel : Nat} {dir : ISODirectory} {offset : Nat} :
    entryAt b src fuel dir offset = .running
      ↔ ∃ block header identifier area,
          parseAt b src dir offset = .ok (block, header, identifier, area)
          ∧ completeSusp b src fuel area = .running := by
  rw [entryAt_eq]
  constructor
  · intro h
    rcases Outcome.bind_eq_running.mp h with h | ⟨r, hparse, h⟩
    · exact absurd h (parseAt_ne_running hreturns dir offset)
    obtain ⟨block, header, identifier, area⟩ := r
    refine ⟨block, header, identifier, area, hparse, ?_⟩
    rcases Outcome.bind_eq_running.mp h with h | ⟨_, -, h⟩
    · exact h
    rcases Outcome.bind_eq_running.mp h with h | ⟨_, -, h⟩
    · exact absurd h (buildEntry_ne_running _ _ _)
    rcases Outcome.bind_eq_running.mp h with h | ⟨_, -, h⟩
    · exact absurd h (nextOffset_ne_running _ _ _ _)
    · cases h
  · rintro ⟨block, header, identifier, area, hparse, hsusp⟩
    rw [hparse]
    dsimp only [Outcome.ok_bind]
    rw [hsusp]
    rfl

/-- A loop that ends does so with one result. -/
theorem completeSusp_unique {area : Option (List SystemUseEntry)}
    {fuel fuel' : Nat} (h : completeSusp b src fuel area ≠ .running)
    (h' : completeSusp b src fuel' area ≠ .running) :
    completeSusp b src fuel area = completeSusp b src fuel' area := by
  rw [completeSusp_eq_trace, Worklist.map_ne_running] at h h'
  rw [completeSusp_eq_trace, completeSusp_eq_trace]
  rcases Nat.le_total fuel fuel' with hle | hle
  · rw [continuationTrace, continuationTrace, Worklist.run_mono h hle]
  · rw [continuationTrace, continuationTrace, Worklist.run_mono h' hle]

/-- An area is read to one list of entries. -/
theorem areaWork_unique (c : ContinuationArea)
    (entries entries' : List SystemUseEntry)
    (found found' : List ContinuationArea)
    (h : AreaWork b src c entries found)
    (h' : AreaWork b src c entries' found') :
    entries = entries' ∧ found = found' := by
  have hsame := (areaAt_eq_ok.mpr h.1).symm.trans (areaAt_eq_ok.mpr h'.1)
  injection hsame with hsame
  exact ⟨hsame, by rw [h.2, h'.2, hsame]⟩

/-- So there is one list of entries to be read for a record. -/
theorem Collects.unique {area : Option (List SystemUseEntry)}
    {susp susp' : List SystemUseEntry} (h : Collects b src area susp)
    (h' : Collects b src area susp') : susp = susp' := by
  obtain ⟨walk, hwalk, rfl⟩ := h
  obtain ⟨walk', hwalk', rfl⟩ := h'
  rw [hwalk.unique areaWork_unique hwalk']

theorem entryAt_unique (hreturns : ∀ lba, src.deliver lba ≠ .running)
    {dir : ISODirectory} {offset fuel fuel' : Nat}
    (h : entryAt b src fuel dir offset ≠ .running)
    (h' : entryAt b src fuel' dir offset ≠ .running) :
    entryAt b src fuel dir offset = entryAt b src fuel' dir offset := by
  rw [ne_eq, entryAt_eq_running hreturns] at h h'
  rw [entryAt_eq, entryAt_eq]
  cases hparse : parseAt b src dir offset with
  | err | panic | running => rfl
  | ok r =>
      obtain ⟨block, header, identifier, area⟩ := r
      have hsame : completeSusp b src fuel area
          = completeSusp b src fuel' area :=
        completeSusp_unique
          (fun hrun => h ⟨block, header, identifier, area, hparse, hrun⟩)
          (fun hrun => h' ⟨block, header, identifier, area, hparse, hrun⟩)
      dsimp only [Outcome.ok_bind]
      rw [hsame]

/-- The record's last `CE` entry decides whether the loop ends. -/
theorem entryAt_finishes_iff (hreturns : ∀ lba, src.deliver lba ≠ .running)
    (dir : ISODirectory) (offset : Nat) :
    (∃ fuel, entryAt b src fuel dir offset ≠ .running)
      ↔ ∀ block header identifier area c,
        parseAt b src dir offset = .ok (block, header, identifier, area) →
        (continuations (area.getD [])).getLast? = some c →
        Terminating b src c := by
  constructor
  · intro ⟨fuel, h⟩ block header identifier area c hparse hc
    apply (trace_finishes_iff hreturns _).mp ⟨fuel, fun hrun => h ?_⟩ c hc
    rw [entryAt_eq_running hreturns]
    refine ⟨block, header, identifier, area, hparse, ?_⟩
    rw [completeSusp_eq_trace, hrun]
    rfl
  · intro h
    cases hparse : parseAt b src dir offset with
    | err | panic | running =>
        refine ⟨0, fun hrun => ?_⟩
        obtain ⟨_, _, _, _, hok, -⟩ := (entryAt_eq_running hreturns).mp hrun
        rw [hparse] at hok
        cases hok
    | ok r =>
        obtain ⟨block, header, identifier, area⟩ := r
        obtain ⟨fuel, hfuel⟩ := (trace_finishes_iff hreturns _).mpr
          (fun c hc => h block header identifier area c hparse hc)
        refine ⟨fuel, fun hrun => hfuel ?_⟩
        obtain ⟨_, _, _, _, hok, hsusp⟩ :=
          (entryAt_eq_running hreturns).mp hrun
        rw [hparse] at hok
        injection hok with hok
        injection hok with _ hok
        injection hok with _ hok
        injection hok with _ harea
        rw [← harea, completeSusp_eq_trace] at hsusp
        by_contra hne
        exact Worklist.map_ne_running.mpr hne hsusp

-- ======================================================= one that does not

/-- A block with one record, the file `L`, whose `CE` entry names the
first 28 bytes of block 30. -/
def loopBlock : BlockBuffer :=
  BlockBuffer.new.overwrite
    [62, 0, 21, 0, 0, 0, 0, 0, 0, 21, 0, 0, 0, 0, 0, 0, 0, 0,
      100, 1, 1, 0, 0, 0, 0, 0, 0, 0, 1, 0, 0, 1, 1, 0x4C,
      0x43, 0x45, 28, 1, 30, 0, 0, 0, 0, 0, 0, 30,
      0, 0, 0, 0, 0, 0, 0, 0, 28, 0, 0, 0, 0, 0, 0, 28]

/-- The continuation area, which is one `CE` entry that names itself. -/
def loopAreaBlock : BlockBuffer :=
  BlockBuffer.new.overwrite
    [0x43, 0x45, 28, 1, 30, 0, 0, 0, 0, 0, 0, 30,
      0, 0, 0, 0, 0, 0, 0, 0, 28, 0, 0, 0, 0, 0, 0, 28]

def loopSource : Source where
  deliver lba :=
    if lba = 20 then .ok loopBlock.bytes else .ok loopAreaBlock.bytes
  atMostBlock {lba bs} h := by
    split at h
    · exact loopBlock.delivered_le h
    · exact loopAreaBlock.delivered_le h

theorem loopSource_returns (lba : Nat) : loopSource.deliver lba ≠ .running := by
  intro h
  simp only [loopSource] at h
  split at h
  · cases h
  · cases h

/-- The call for the record of `L` never comes to an end. -/
theorem readEntryAt_loops :
    ¬ ∃ fuel, (readEntryAt debugBuild loopSource.reader fuel dotDirectory
      BlockCache.new 0 ()).1 ≠ .running := by
  rintro ⟨fuel, hends⟩
  apply hends
  rw [(readEntryAt_serves loopSource.reader_serves fuel
      (coherent_new loopSource dotDirectory) 0 ()).1,
    entryAt_eq_running loopSource_returns]
  let c : ContinuationArea := ⟨30, 0, 28⟩
  have hparse : parseAt debugBuild loopSource dotDirectory 0
      = .ok (loopBlock, { dotHeader with
          length := 62, extentLoc := 21, extentLength := 0,
          fileFlags := 0 }, "L", some [.continuationArea c]) := by
    decide +kernel
  have hexpand : expandArea debugBuild loopSource c
      = .ok ([.continuationArea c], [c]) := by
    decide +kernel
  have htrace : ∀ fuel,
      Worklist.run (expandArea debugBuild loopSource) fuel [c]
        = .running := by
    intro fuel
    induction fuel with
    | zero => rfl
    | succ fuel ih =>
        rw [Worklist.run_cons hexpand, List.nil_append, ih]
        rfl
  refine ⟨_, _, _, _, hparse, ?_⟩
  rw [completeSusp_eq_trace, continuationTrace]
  exact congrArg (Outcome.map _) (htrace fuel)

-- ================================================================ chains

/-- The entries recorded in a continuation area: those in the bytes from
`offset` on, `length` of them, of its block. -/
def AreaHolds (b : Build) (src : Source) (c : ContinuationArea)
    (entries : List SystemUseEntry) : Prop :=
  ∃ bs rest, src.deliver c.blockLocation.toNat = .ok bs
    ∧ c.offset.toNat + c.length.toNat ≤ bs.length
    ∧ systemUseEntries b ((bs.drop c.offset.toNat).take c.length.toNat)
      = .ok (rest, entries)

/-- A finite chain of continuation areas with one `CE` entry each at
most, and the entries recorded in each. -/
inductive ContinuationChain (b : Build) (src : Source) :
    Option ContinuationArea →
      List (ContinuationArea × List SystemUseEntry) → Prop
  | stop : ContinuationChain b src none []
  | link {c : ContinuationArea} {entries : List SystemUseEntry}
      {next : Option ContinuationArea}
      {chain : List (ContinuationArea × List SystemUseEntry)} :
      AreaHolds b src c entries → continuations entries = next.toList →
      ContinuationChain b src next chain →
      ContinuationChain b src (some c) ((c, entries) :: chain)

/-- The first `length` bytes of an area's block decode to the same
entries as the recorded ones, and the block passes the assertion on its
size. Both hold of an area at the start of a whole block. -/
def ReadsRecorded (b : Build) (src : Source) (c : ContinuationArea) : Prop :=
  ∀ bs, src.deliver c.blockLocation.toNat = .ok bs →
    (b.assertions = true →
        bs.length = BLOCK_SIZE ∨ bs.length = c.length.toNat)
      ∧ (systemUseEntries b (bs.take c.length.toNat)).map Prod.snd
        = (systemUseEntries b
            ((bs.drop c.offset.toNat).take c.length.toNat)).map Prod.snd

theorem readsRecorded_of_offset_zero {c : ContinuationArea}
    (hoffset : c.offset = 0)
    (hsize : ∀ bs, src.deliver c.blockLocation.toNat = .ok bs →
      bs.length = BLOCK_SIZE) : ReadsRecorded b src c := by
  intro bs hbs
  refine ⟨fun _ => Or.inl (hsize bs hbs), ?_⟩
  rw [hoffset]
  rfl

/-- What the loop reads for an area that lies in its block. -/
theorem areaAt_eq {c : ContinuationArea} {bs : List UInt8}
    (hdel : src.deliver c.blockLocation.toNat = .ok bs)
    (hlen : c.length.toNat ≤ bs.length) :
    areaAt b src c = (do
      Outcome.assert b.assertions
        (bs.length == 2048 || bs.length == c.length.toNat)
      let (_, entries) ← liftNom (systemUseEntries b (bs.take c.length.toNat))
      .ok entries) := by
  have hle := src.atMostBlock hdel
  have hread : src.fill BlockBuffer.new c.blockLocation.toNat
      = (BlockBuffer.new.overwrite bs, .ok bs.length) := by
    unfold Source.fill
    rw [hdel]
  have hbytes := BlockBuffer.new.take_overwrite hle hlen
  unfold areaAt readContinuation
  simp only [Source.reader, hread, liftIo, Outcome.ok_bind, hbytes]
  rw [if_pos (Nat.le_trans hlen hle)]

/-- The loop takes the recorded entries of an area exactly when it reads
the recorded bytes, or others that decode alike. -/
theorem areaAt_eq_recorded_iff {c : ContinuationArea}
    {entries : List SystemUseEntry} (h : AreaHolds b src c entries) :
    areaAt b src c = .ok entries ↔ ReadsRecorded b src c := by
  obtain ⟨bs, rest, hdel, hlen, hparse⟩ := h
  rw [areaAt_eq hdel (by omega)]
  constructor
  · intro hread bs' hdel'
    rw [hdel] at hdel'
    injection hdel' with hdel'
    subst hdel'
    obtain ⟨_, hcount, hread⟩ := Outcome.bind_eq_ok.mp hread
    obtain ⟨⟨rest', entries'⟩, hfirst, hread⟩ := Outcome.bind_eq_ok.mp hread
    injection hread with hread
    change entries' = entries at hread
    subst hread
    rw [liftNom_eq_ok] at hfirst
    refine ⟨fun hon => ?_, ?_⟩
    · have hcond := assert_eq_ok.mp hcount hon
      simpa using hcond
    · rw [hfirst, hparse]
      rfl
  · intro hrecorded
    obtain ⟨hsize, hsame⟩ := hrecorded bs hdel
    refine Outcome.bind_eq_ok.mpr ⟨(), assert_eq_ok.mpr fun hon => ?_, ?_⟩
    · have hcond := hsize hon
      simpa using hcond
    · rw [hparse] at hsame
      cases hfirst : systemUseEntries b (bs.take c.length.toNat) with
      | ok r =>
          rw [hfirst] at hsame
          injection hsame with hsame
          exact congrArg Outcome.ok hsame
      | err | panic | running =>
          rw [hfirst] at hsame
          cases hsame

/-- A chain all of whose areas are read as recorded is what the loop goes
through. -/
theorem trace_of_readsRecorded {cont : Option ContinuationArea}
    {chain : List (ContinuationArea × List SystemUseEntry)}
    (hchain : ContinuationChain b src cont chain)
    (hread : ∀ link ∈ chain, ReadsRecorded b src link.1) :
    continuationTrace b src chain.length cont = .ok chain := by
  induction hchain with
  | stop => rfl
  | @link c entries next chain hholds hnext hchain ih =>
      have hstep : expandArea b src c = .ok (entries, next.toList) :=
        expandArea_eq_ok.mpr ⟨areaAt_eq_ok.mp ((areaAt_eq_recorded_iff
          hholds).mpr (hread (c, entries) List.mem_cons_self)), hnext.symm⟩
      have hrest := ih fun link hlink =>
        hread link (List.mem_cons_of_mem _ hlink)
      rw [continuationTrace] at hrest
      rw [continuationTrace, Option.toList_some, List.length_cons,
        Worklist.run_cons hstep, List.nil_append, hrest]
      rfl

/-- And a chain that the loop goes through is read as recorded. -/
theorem readsRecorded_of_trace {cont : Option ContinuationArea}
    {chain : List (ContinuationArea × List SystemUseEntry)}
    (hchain : ContinuationChain b src cont chain) {fuel : Nat}
    (htrace : continuationTrace b src fuel cont = .ok chain) :
    ∀ link ∈ chain, ReadsRecorded b src link.1 := by
  induction hchain generalizing fuel with
  | stop => exact fun _ h => nomatch h
  | @link c entries next chain hholds hnext hchain ih =>
      cases fuel with
      | zero => cases htrace
      | succ fuel =>
          rw [continuationTrace, Option.toList_some] at htrace
          obtain ⟨r, hstep, htrace⟩ := Outcome.bind_eq_ok.mp htrace
          obtain ⟨done, hrest, htrace⟩ := Outcome.bind_eq_ok.mp htrace
          injection htrace with htrace
          injection htrace with hhead htail
          injection hhead with _ hentries
          obtain ⟨harea, hce⟩ := expandArea_eq_ok.mp hstep
          rw [hentries] at harea hce
          rw [List.nil_append, hce, hnext, htail] at hrest
          intro link hlink
          rcases List.mem_cons.mp hlink with rfl | hlink
          · exact (areaAt_eq_recorded_iff hholds).mp (areaAt_eq_ok.mpr harea)
          · exact ih hrest link hlink

/-- Following a chain: the loop goes through its areas and takes from
each what is recorded there exactly when it reads the recorded bytes of
each, or others that decode alike. Then the list `read_entry_at` works on
is the record's own entries and those of the chain, in order, without
the `CE` entries. -/
theorem continuations_followed_iff {area : Option (List SystemUseEntry)}
    {cont : Option ContinuationArea}
    {chain : List (ContinuationArea × List SystemUseEntry)}
    (hone : continuations (area.getD []) = cont.toList)
    (hchain : ContinuationChain b src cont chain) :
    ((∃ fuel, continuationTrace b src fuel cont = .ok chain)
        ↔ ∀ link ∈ chain, ReadsRecorded b src link.1)
      ∧ ((∀ link ∈ chain, ReadsRecorded b src link.1) →
        ∀ fuel, chain.length ≤ fuel →
          completeSusp b src fuel area
            = .ok (plain (area.getD [])
              ++ chain.flatMap fun link => plain link.2)) := by
  constructor
  · constructor
    · intro ⟨fuel, htrace⟩
      exact readsRecorded_of_trace hchain htrace
    · intro hread
      exact ⟨chain.length, trace_of_readsRecorded hchain hread⟩
  · intro hread fuel hle
    have hlast : (continuations (area.getD [])).getLast? = cont := by
      rw [hone]
      cases cont with
      | none => rfl
      | some c => rfl
    have htrace := trace_of_readsRecorded hchain hread
    rw [continuationTrace] at htrace
    have hmono : Worklist.run (expandArea b src) fuel cont.toList
        = Worklist.run (expandArea b src) chain.length cont.toList :=
      Worklist.run_mono (by rw [htrace]; exact fun h => nomatch h) hle
    rw [completeSusp_eq_trace, hlast, continuationTrace, hmono, htrace]
    rfl

-- ===================================================== two names in a block

/-- A block with one record, the file `L`, whose `CE` entry names bytes
6 to 12 of block 30. -/
def namedBlock : BlockBuffer :=
  BlockBuffer.new.overwrite
    [62, 0, 21, 0, 0, 0, 0, 0, 0, 21, 0, 0, 0, 0, 0, 0, 0, 0,
      100, 1, 1, 0, 0, 0, 0, 0, 0, 0, 1, 0, 0, 1, 1, 0x4C,
      0x43, 0x45, 28, 1, 30, 0, 0, 0, 0, 0, 0, 30,
      6, 0, 0, 0, 0, 0, 0, 6, 6, 0, 0, 0, 0, 0, 0, 6]

/-- Two continuation areas of six bytes: the name `x` and the name
`y`. -/
def namesBlock : BlockBuffer :=
  BlockBuffer.new.overwrite
    [0x4E, 0x4D, 6, 1, 0, 0x78, 0x4E, 0x4D, 6, 1, 0, 0x79]

def namesSource : Source where
  deliver lba :=
    if lba = 20 then .ok namedBlock.bytes else .ok namesBlock.bytes
  atMostBlock {lba bs} h := by
    split at h
    · exact namedBlock.delivered_le h
    · exact namesBlock.delivered_le h

/-- The area at byte 6. -/
def nameArea : ContinuationArea := ⟨30, 6, 6⟩

theorem namesSource_chain :
    ContinuationChain debugBuild namesSource (some nameArea)
      [(nameArea, [.alternateName ⟨"y", 0⟩])] := by
  refine .link ?_ ?_ .stop
  case refine_2 => rfl
  refine ⟨namesBlock.bytes, [], rfl, ?_, ?_⟩
  · rw [namesBlock.size]
    decide
  · decide +kernel

/-- The file `L` has the name `y`, and it is given the name `x`. -/
theorem continuation_other_name :
    ContinuationChain debugBuild namesSource (some nameArea)
        [(nameArea, [.alternateName ⟨"y", 0⟩])]
      ∧ (∀ fuel, completeSusp debugBuild namesSource fuel
          (some [.continuationArea nameArea])
        ≠ .ok [.alternateName ⟨"y", 0⟩])
      ∧ (readEntryAt debugBuild namesSource.reader 1 dotDirectory
          BlockCache.new 0 ()).1.map (fun r => r.1.identifier)
        = .ok "x" := by
  refine ⟨namesSource_chain, fun fuel h => ?_, by decide +kernel⟩
  have hone : completeSusp debugBuild namesSource 1
      (some [.continuationArea nameArea])
      = .ok [.alternateName ⟨"x", 0⟩] := by
    decide +kernel
  have hsame : completeSusp debugBuild namesSource fuel
        (some [.continuationArea nameArea])
      = completeSusp debugBuild namesSource 1
        (some [.continuationArea nameArea]) :=
    completeSusp_unique (by rw [h]; exact fun h => nomatch h)
    (by rw [hone]; exact fun h => nomatch h)
  rw [h, hone] at hsame
  revert hsame
  decide

-- ==================================================== a name in three parts

/-- A `CE` entry for the first bytes of a block. -/
def areaEntry (block length : UInt8) : List UInt8 :=
  [0x43, 0x45, 28, 1, block, 0, 0, 0, 0, 0, 0, block,
    0, 0, 0, 0, 0, 0, 0, 0, length, 0, 0, 0, 0, 0, 0, length]

/-- A block with one record, the file `L`, which has an `NM` entry to go
on and a `CE` entry for block 1. -/
def firstPartBlock : BlockBuffer :=
  BlockBuffer.new.overwrite
    ([68, 0, 21, 0, 0, 0, 0, 0, 0, 21, 0, 0, 0, 0, 0, 0, 0, 0,
      100, 1, 1, 0, 0, 0, 0, 0, 0, 0, 1, 0, 0, 1, 1, 0x4C]
      ++ [0x4E, 0x4D, 6, 1, 1, 0x61] ++ areaEntry 1 34)

/-- A name that goes on, and a `CE` entry for block 2. -/
def middlePartBlock : BlockBuffer :=
  BlockBuffer.new.overwrite ([0x4E, 0x4D, 6, 1, 1, 0x62] ++ areaEntry 2 6)

def lastPartBlock : BlockBuffer :=
  BlockBuffer.new.overwrite [0x4E, 0x4D, 6, 1, 0, 0x63]

/-- An image of the three. -/
def partsImage : List UInt8 :=
  firstPartBlock.bytes ++ (middlePartBlock.bytes ++ lastPartBlock.bytes)

/-- The areas of `L`, and what is recorded in them. -/
def partsChain : List (ContinuationArea × List SystemUseEntry) :=
  [(⟨1, 0, 34⟩, [.alternateName ⟨"b", 1⟩, .continuationArea ⟨2, 0, 6⟩]),
    (⟨2, 0, 6⟩, [.alternateName ⟨"c", 0⟩])]

/-- Its own entries. -/
def partsArea : Option (List SystemUseEntry) :=
  some [.alternateName ⟨"a", 1⟩, .continuationArea ⟨1, 0, 34⟩]

theorem imageBlock_parts : imageBlock partsImage 1 = middlePartBlock.bytes
    ∧ imageBlock partsImage 2 = lastPartBlock.bytes := by
  have hfirst := firstPartBlock.size
  have hmiddle := middlePartBlock.size
  have hlast := lastPartBlock.size
  unfold imageBlock partsImage
  constructor
  · rw [List.drop_append_of_le_length (by rw [hfirst]; decide),
      List.drop_eq_nil_of_le (by rw [hfirst]; decide), List.nil_append,
      List.take_append_of_le_length (by rw [hmiddle]),
      List.take_of_length_le (by rw [hmiddle])]
  · rw [List.drop_append, List.drop_eq_nil_of_le (by rw [hfirst]; decide),
      List.nil_append, List.drop_append, List.drop_eq_nil_of_le
        (by rw [hfirst, hmiddle]; decide), List.nil_append, hfirst, hmiddle,
      List.take_of_length_le (by rw [List.length_drop, hlast]; decide)]
    rfl

theorem parts_chain :
    ContinuationChain debugBuild (imageSource partsImage) (some ⟨1, 0, 34⟩)
      partsChain := by
  obtain ⟨hmiddle, hlast⟩ := imageBlock_parts
  have hsecond : ContinuationChain debugBuild (imageSource partsImage)
      (some ⟨2, 0, 6⟩) [(⟨2, 0, 6⟩, [.alternateName ⟨"c", 0⟩])] :=
    .link ⟨lastPartBlock.bytes, [], congrArg Outcome.ok hlast,
      by rw [lastPartBlock.size]; decide, by decide +kernel⟩ rfl .stop
  refine .link ⟨middlePartBlock.bytes, [], congrArg Outcome.ok hmiddle,
    ?_, ?_⟩ rfl hsecond
  · rw [middlePartBlock.size]
    decide
  · decide +kernel

/-- Areas at the start of their blocks are followed one after the
other. -/
theorem continuation_three_parts :
    (∃ fuel, continuationTrace debugBuild (imageSource partsImage) fuel
        (some ⟨1, 0, 34⟩) = .ok partsChain)
      ∧ completeSusp debugBuild (imageSource partsImage) 2 partsArea
        = .ok [.alternateName ⟨"a", 1⟩, .alternateName ⟨"b", 1⟩,
          .alternateName ⟨"c", 0⟩] := by
  have hreads : ∀ link ∈ partsChain,
      ReadsRecorded debugBuild (imageSource partsImage) link.1 := by
    obtain ⟨hmiddle, hlast⟩ := imageBlock_parts
    intro link hlink
    unfold partsChain at hlink
    rcases List.mem_cons.mp hlink with rfl | hlink
    · refine readsRecorded_of_offset_zero rfl fun bs hbs => ?_
      have hbytes := (Outcome.ok.inj hbs).symm.trans hmiddle
      rw [hbytes, middlePartBlock.size]
    · rw [List.mem_singleton.mp hlink]
      refine readsRecorded_of_offset_zero rfl fun bs hbs => ?_
      have hbytes := (Outcome.ok.inj hbs).symm.trans hlast
      rw [hbytes, lastPartBlock.size]
  have hone : continuations (partsArea.getD [])
      = (some (⟨1, 0, 34⟩ : ContinuationArea)).toList := rfl
  have hfollowed := continuations_followed_iff hone parts_chain
  exact ⟨hfollowed.1.mpr hreads, hfollowed.2 hreads 2 le_rfl⟩

end Cdfs
