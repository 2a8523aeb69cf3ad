/-
Which blocks are asked for. The reader of a file keeps one block, the
iterator over a directory keeps one block, and this is what the two
caches are for: a block is not asked for again as long as it is the one
in use. It holds of any source, so it is stated of a reader that writes
down what it is asked for (`journaling`).

The blocks that a file reader asks for are those of the bytes read, in
the order of reading and without repetitions (`browsed_blocks`); reading
the file from its start is each of its blocks once. Listing a directory
is each block of its extent once, and behind it the areas that its
records are continued in (`listed_blocks`).
-/
import Cdfs.Proofs.BuildAgreement
import Cdfs.Proofs.Continuation
import Cdfs.Proofs.ReadBack
import Cdfs.Rust.Destutter

namespace Cdfs

open Rust Parse

variable {σ : Type} {b : Build} {rd : ISO9660Reader σ} {src : Source}

-- ============================================================ the journal

/-- A reader that writes down the blocks it is asked for. -/
def ISO9660Reader.journaling (rd : ISO9660Reader σ) :
    ISO9660Reader (σ × List ℕ) where
  readAt s buf lba :=
    let done := rd.readAt s.1 buf lba
    ((done.1, s.2 ++ [lba]), done.2)

theorem ISO9660Reader.journaling_readAt (rd : ISO9660Reader σ) (s : σ)
    (log : List ℕ) (buf : BlockBuffer) (lba : ℕ) :
    rd.journaling.readAt (s, log) buf lba
      = (((rd.readAt s buf lba).1, log ++ [lba]), (rd.readAt s buf lba).2) :=
  rfl

/-- It answers as the reader does. -/
theorem ISO9660Reader.journaling_alike (t : Stop) (rd : ISO9660Reader σ) :
    ReadsAlike t (fun s s' => s'.1 = s) rd rd.journaling := by
  intro _ s buf lba hs
  cases hs
  exact Or.inr ⟨rfl, rfl⟩

theorem ISO9660Reader.Serves.journaling (h : rd.Serves src) :
    rd.journaling.Serves src :=
  fun s buf lba => h s.1 buf lba

-- =========================================================== file readers

namespace ISOFileReader

/-- What is asked for is the blocks of the bytes read so far, and the last
of them is buffered. -/
structure Fetched (r : ISOFileReader) (visited log : List ℕ) : Prop where
  log : log = (visited.map r.lbaAt).destutter (· ≠ ·)
  buffered : r.bufLba = (visited.map r.lbaAt).getLast?

theorem Fetched.withSeek {r : ISOFileReader} {visited log : List ℕ}
    (h : Fetched r visited log) (seek : ℕ) :
    Fetched { r with seek } visited log := ⟨h.log, h.buffered⟩

/-- The bytes up to the end of a block are in the block. -/
theorem map_lbaAt_range (r : ISOFileReader) {seek count : ℕ}
    (hcount : seek % BLOCK_SIZE + count ≤ BLOCK_SIZE) :
    (List.range' seek count).map r.lbaAt
      = List.replicate count (r.lbaAt seek) := by
  rw [List.eq_replicate_iff]
  constructor
  · rw [List.length_map, List.length_range']
  · intro lba hlba
    obtain ⟨pos, hpos, rfl⟩ := List.mem_map.mp hlba
    rw [List.mem_range'_1] at hpos
    unfold lbaAt BLOCK_SIZE at *
    omega

/-- A refill that succeeds, and the bytes read from the block. -/
theorem Fetched.refill {r r' : ISOFileReader} {visited log log' : List ℕ}
    {seek count : ℕ} {s s' : σ} (h : Fetched r visited log)
    (hcall : r.refill rd.journaling (r.lbaAt seek) (s, log)
      = (.ok (), r', (s', log')))
    (hpos : count ≠ 0) (hcount : seek % BLOCK_SIZE + count ≤ BLOCK_SIZE) :
    Fetched r' (visited ++ List.range' seek count) log' := by
  obtain ⟨-, hlba, -, htag⟩ :=
    refill_frame rd.journaling r (r.lbaAt seek) (s, log)
  rw [hcall] at hlba htag
  have hsame : r'.lbaAt = r.lbaAt := by
    unfold lbaAt
    rw [hlba]
  have hlog : log' = if r.bufLba = some (r.lbaAt seek) then log
      else log ++ [r.lbaAt seek] := by
    unfold ISOFileReader.refill at hcall
    by_cases hbuf : r.bufLba = some (r.lbaAt seek)
    · rw [if_neg (not_not.mpr hbuf)] at hcall
      rw [if_pos hbuf]
      cases hcall
      rfl
    · rw [if_pos hbuf, rd.journaling_readAt] at hcall
      rw [if_neg hbuf]
      rcases hread : rd.readAt s r.buf (r.lbaAt seek) with ⟨s₁, buf, x⟩
      rw [hread] at hcall
      cases x with
      | ok count =>
          cases hcall
          rfl
      | err | panic | running => cases hcall
  have hbytes := r.map_lbaAt_range hcount
  constructor
  · rw [hsame, List.map_append, hbytes, destutter_append_replicate _ _ hpos,
      ← h.buffered, ← h.log]
    exact hlog
  · rw [htag rfl, hsame, List.map_append, hbytes, List.getLast?_append,
      List.getLast?_replicate, if_neg hpos]
    rfl

/-- What a call has come to, from a position on: so many bytes more, all
of them inside the file. -/
structure Advanced (r : ISOFileReader) (pos count : ℕ)
    (visited : List ℕ) (res : ReadResult (σ × List ℕ)) : Prop where
  inside : pos + count ≤ max pos r.size
  seek : res.reader.seek = pos + count
  startLba : res.reader.startLba = r.startLba
  size : res.reader.size = r.size
  fetched : Fetched res.reader (visited ++ List.range' pos count)
    res.state.2

/-- The loop, from its head. -/
theorem readLoop_advanced (fuel : ℕ) :
    ∀ (r : ISOFileReader) (seek : ℕ) (filled rest : List UInt8) (s : σ)
      (visited log : List ℕ) {n : ℕ}, Fetched r visited log →
      r.seek ≤ seek →
      (readLoop rd.journaling fuel r seek filled rest (s, log)).result
        = .ok n →
      ∃ count, r.seek + n = seek + count ∧ Advanced r seek count visited
        (readLoop rd.journaling fuel r seek filled rest (s, log)) := by
  have hdone (r : ISOFileReader) (seek : ℕ) (text : List UInt8) (s : σ)
      (visited log : List ℕ) {n : ℕ} (h : Fetched r visited log)
      (hle : r.seek ≤ seek)
      (hn : (.ok (seek - r.seek) : Outcome IoError ℕ) = .ok n) :
      ∃ count, r.seek + n = seek + count ∧ Advanced r seek count visited
        ⟨.ok (seek - r.seek), { r with seek }, text, (s, log)⟩ := by
    injection hn with hn
    refine ⟨0, by omega, ⟨Nat.le_max_left _ _, rfl, rfl, rfl, ?_⟩⟩
    rw [List.range'_zero, List.append_nil]
    exact h.withSeek seek
  induction fuel with
  | zero =>
      intro r seek filled rest s visited log n h hle hn
      unfold readLoop at hn ⊢
      by_cases hturn : rest ≠ [] ∧ seek < r.size
      · rw [if_pos hturn] at hn
        cases hn
      · rw [if_neg hturn] at hn ⊢
        exact hdone r seek _ s visited log h hle hn
  | succ fuel ih =>
      intro r seek filled rest s visited log n h hle hn
      unfold readLoop at hn ⊢
      by_cases hturn : rest ≠ [] ∧ seek < r.size
      · rw [if_pos hturn] at hn ⊢
        dsimp only at hn ⊢
        obtain ⟨hseek, hlba, hsize, -⟩ :=
          refill_frame rd.journaling r (r.lbaAt seek) (s, log)
        rcases hcall : r.refill rd.journaling (r.lbaAt seek) (s, log)
          with ⟨x, r', s', log'⟩
        rw [hcall] at hn hseek hlba hsize
        cases x with
        | ok u =>
            dsimp only at hn hseek hlba hsize ⊢
            have hpos := available_pos r' seek (by rw [hsize]; exact hturn.2)
            have hlen := length_available r' seek
            have hneed : need r' (r'.lbaAt seek) ≤ BLOCK_SIZE :=
              Nat.min_le_right _ _
            have hleft : need r' (r'.lbaAt seek)
                ≤ r.size - seek / BLOCK_SIZE * BLOCK_SIZE := by
              rw [← hsize, ← lbaAt_sub r' seek]
              exact Nat.min_le_left _ _
            have hdiv := Nat.div_add_mod seek BLOCK_SIZE
            have hrest := List.length_pos_iff.mpr hturn.1
            generalize hmoved : ((r'.available seek).take rest.length).length
              = moved at hn ⊢
            rw [List.length_take] at hmoved
            have hfetched : Fetched r' (visited ++ List.range' seek moved)
                log' :=
              h.refill hcall (by omega) (by unfold BLOCK_SIZE at *; omega)
            obtain ⟨count, hcount, hadvanced⟩ := ih r' (seek + moved) _ _ s'
              _ _ hfetched (by omega) hn
            refine ⟨moved + count, by omega, ⟨?_, ?_,
              hadvanced.startLba.trans hlba, hadvanced.size.trans hsize,
              ?_⟩⟩
            · have hinside := hadvanced.inside
              unfold BLOCK_SIZE at *
              omega
            · rw [hadvanced.seek, Nat.add_assoc]
            · have hfetched := hadvanced.fetched
              rw [List.append_assoc, List.range'_append_1] at hfetched
              exact hfetched
        | err | panic | running => cases hn
      · rw [if_neg hturn] at hn ⊢
        exact hdone r seek _ s visited log h hle hn

/-- A call of `read` that succeeds. -/
theorem read_advanced {r : ISOFileReader} {buf : List UInt8} {s : σ}
    {visited log : List ℕ} {n : ℕ} (h : Fetched r visited log)
    (hn : (r.read rd.journaling buf (s, log)).result = .ok n) :
    Advanced r r.seek n visited (r.read rd.journaling buf (s, log)) := by
  obtain ⟨count, hcount, hadvanced⟩ := readLoop_advanced buf.length r r.seek
    [] buf s visited log h (Nat.le_refl _) hn
  rw [Nat.add_left_cancel hcount]
  exact hadvanced

end ISOFileReader

/-- What is done with the reader of a file: reads that succeed, and seeks.
The positions of the bytes read are listed in their order. -/
inductive Browses (b : Build) (rd : ISO9660Reader σ) (file : ISOFile)
    (s₀ : σ) : ISOFileReader → List ℕ → σ → Prop
  | start : Browses b rd file s₀ file.read [] s₀
  | read {r : ISOFileReader} {visited : List ℕ} {s : σ} {buf : List UInt8}
      {n : ℕ} :
      Browses b rd file s₀ r visited s →
      (r.read rd buf s).result = .ok n →
      Browses b rd file s₀ (r.read rd buf s).reader
        (visited ++ List.range' r.seek n) (r.read rd buf s).state
  | seek {r : ISOFileReader} {visited : List ℕ} {s : σ} (pos : SeekFrom) :
      Browses b rd file s₀ r visited s →
      Browses b rd file s₀ (r.seekTo b pos).2 visited s

/-- What holds of a reader, whatever was done with it. -/
structure Browsed (file : ISOFile) (r : ISOFileReader)
    (visited log : List ℕ) : Prop where
  startLba : r.startLba = file.header.extentLoc
  size : r.size = file.size.toNat
  inside : ∀ pos ∈ visited, pos < file.size.toNat
  fetched : r.Fetched visited log

theorem Browses.browsed {file : ISOFile} {s₀ : σ} {r : ISOFileReader}
    {visited : List ℕ} {s : σ × List ℕ}
    (h : Browses b rd.journaling file (s₀, []) r visited s) :
    Browsed file r visited s.2 := by
  induction h with
  | start => exact ⟨rfl, rfl, (fun _ h => nomatch h), ⟨rfl, rfl⟩⟩
  | @read r visited s buf n _ hn ih =>
      have hadvanced := ISOFileReader.read_advanced ih.fetched hn
      refine ⟨hadvanced.startLba.trans ih.startLba,
        hadvanced.size.trans ih.size, ?_, hadvanced.fetched⟩
      intro pos hpos
      rcases List.mem_append.mp hpos with hold | hnew
      · exact ih.inside pos hold
      · have hinside := hadvanced.inside
        rw [ih.size] at hinside
        rw [List.mem_range'_1] at hnew
        omega
  | @seek r _ _ pos _ ih =>
      have hframe := (ISOFileReader.seekTo_frame (b := b) r pos).1
      rw [hframe]
      exact ⟨ih.startLba, ih.size, ih.inside, ih.fetched.withSeek _⟩

/-- The same can be done with the reader that keeps a journal. -/
theorem Browses.journaled {file : ISOFile} {s₀ s : σ} {r : ISOFileReader}
    {visited : List ℕ} (h : Browses b rd file s₀ r visited s) :
    ∃ log, Browses b rd.journaling file (s₀, []) r visited (s, log) := by
  induction h with
  | start => exact ⟨[], .start⟩
  | @read r visited s buf n _ hn ih =>
      obtain ⟨log, hbrowses⟩ := ih
      have hsim := ISOFileReader.read_sim (rd.journaling_alike .running) r buf
        (show ((s, log) : σ × List ℕ).1 = s from rfl)
      have hret : ((r.read rd buf s).call).1.Returned := by
        show (r.read rd buf s).result.Returned
        rw [hn]
        trivial
      obtain ⟨hresult, hreader, hstate⟩ := hsim.of_returned hret
      have hread := hbrowses.read (hresult.trans hn)
      rw [show (r.read rd.journaling buf (s, log)).reader
        = (r.read rd buf s).reader from (congrArg Prod.fst hreader).symm]
        at hread
      refine ⟨(r.read rd.journaling buf (s, log)).state.2, ?_⟩
      rw [← show (r.read rd.journaling buf (s, log)).state.1
        = (r.read rd buf s).state from hstate]
      exact hread
  | seek pos _ ih =>
      obtain ⟨log, hbrowses⟩ := ih
      exact ⟨log, hbrowses.seek pos⟩

/-- The blocks asked for are those of the bytes read, in the order of
reading, a block once as long as it is in use; so they are blocks of the
file, and reading from its start on is each block once. -/
theorem browsed_blocks {file : ISOFile} {s₀ s : σ} {r : ISOFileReader}
    {visited : List ℕ} (h : Browses b rd file s₀ r visited s) :
    (∃ log, Browses b rd.journaling file (s₀, []) r visited (s, log))
      ∧ ∀ log, Browses b rd.journaling file (s₀, []) r visited (s, log) →
        log = (visited.map fun pos =>
          file.header.extentLoc.toNat + pos / BLOCK_SIZE).destutter (· ≠ ·)
        ∧ (∀ lba ∈ log, file.header.extentLoc.toNat ≤ lba
          ∧ lba < file.header.extentLoc.toNat + blocksFor file.size.toNat)
        ∧ ∀ n, visited = List.range n →
          log = (List.range (blocksFor n)).map
            (file.header.extentLoc.toNat + ·) := by
  refine ⟨h.journaled, fun log hjournal => ?_⟩
  obtain ⟨hstart, -, hinside, hlog, -⟩ := hjournal.browsed
  have hlba : r.lbaAt
      = fun pos => file.header.extentLoc.toNat + pos / BLOCK_SIZE := by
    unfold ISOFileReader.lbaAt
    rw [hstart]
  rw [hlba] at hlog
  dsimp only at hlog
  refine ⟨hlog, ?_, ?_⟩
  · intro lba hmem
    rw [hlog] at hmem
    obtain ⟨pos, hpos, rfl⟩ :=
      List.mem_map.mp ((List.destutter_sublist _ _).subset hmem)
    have hlt := hinside pos hpos
    unfold blocksFor BLOCK_SIZE
    omega
  · intro n hn
    rw [hlog, hn]
    exact destutter_quotients _ (by decide) n

/-- A file of three blocks, of which two are read. -/
theorem browsed_two_blocks : ∃ r s log,
    Browses debugBuild
      ((cursor (List.replicate 6144 7)).reader debugBuild).journaling
      (wordFile 5000) (0, []) r (List.range 3000) (s, log)
      ∧ log = [0, 1] := by
  have hinside : BLOCK_SIZE * (wordFile 5000).header.extentLoc.toNat
      + (wordFile 5000).size.toNat
        ≤ (List.replicate 6144 (7 : UInt8)).length := by
    rw [List.length_replicate]
    decide
  have hread := (read_image (cursor_servesImage debugBuild _) hinside
    (ISOFileReader.readerOf_read _ _) (List.replicate 3000 0) 0).1
  have hcount : min (List.replicate 3000 (0 : UInt8)).length
      ((wordFile 5000).size.toNat - (wordFile 5000).read.seek) = 3000 := by
    rw [List.length_replicate]
    decide
  rw [hcount] at hread
  have hstart : Browses debugBuild
      ((cursor (List.replicate 6144 7)).reader debugBuild) (wordFile 5000) 0
      (wordFile 5000).read [] 0 := .start
  have hbrowses := hstart.read hread
  rw [List.nil_append, show (wordFile 5000).read.seek = 0 from rfl,
    ← List.range_eq_range'] at hbrowses
  obtain ⟨⟨log, hjournal⟩, hblocks⟩ := browsed_blocks hbrowses
  obtain ⟨-, -, hlog⟩ := hblocks log hjournal
  exact ⟨_, _, log, hjournal, hlog 3000 rfl⟩

-- =========================================================== directories

/-- The blocks of the areas that the record at an offset is continued in. -/
def areasAt (b : Build) (src : Source) (fuel : ℕ) (dir : ISODirectory)
    (offset : ℕ) : List ℕ :=
  match parseAt b src dir offset with
  | .ok (_, _, _, area) =>
      match continuationTrace b src fuel
          (continuations (area.getD [])).getLast? with
      | .ok done => done.map fun d => d.1.blockLocation.toNat
      | _ => []
  | _ => []

/-- The same for the records that begin in a block of the extent. -/
def areasIn (b : Build) (src : Source) (fuel : ℕ) (dir : ISODirectory)
    (offsets : List ℕ) (k : ℕ) : List ℕ :=
  (offsets.filter fun offset => offset / BLOCK_SIZE = k).flatMap
    (areasAt b src fuel dir)

theorem continuations_plain (susp : List SystemUseEntry) :
    continuations (plain susp) = [] := by
  rw [continuations, List.filterMap_eq_nil_iff]
  intro e he
  exact Option.isNone_iff_eq_none.mp (List.mem_filter.mp he).2

section Directories

variable {fuel : ℕ} {dir : ISODirectory}

/-- Each area is asked for once, in the order that they are found. -/
theorem pullContinuations_journal (hserve : rd.Serves src) (fuel : ℕ) :
    ∀ (susp : List SystemUseEntry) (cont : Option ContinuationArea) (s : σ)
      (log : List ℕ) {done : List (ContinuationArea × List SystemUseEntry)},
      (cont = none → continuations susp = []) →
      Worklist.run (expandArea b src) fuel
        (cont.toList ++ continuations susp) = .ok done →
      ∃ s', (pullContinuations b rd.journaling fuel susp cont (s, log)).2
        = (s', log ++ done.map fun d => d.1.blockLocation.toNat) := by
  induction fuel with
  | zero =>
      intro susp cont s log done hnone hrun
      cases cont with
      | none =>
          rw [hnone rfl] at hrun
          cases hrun
          exact ⟨s, by rw [List.map_nil, List.append_nil]; rfl⟩
      | some c => cases hrun
  | succ fuel ih =>
      intro susp cont s log done hnone hrun
      cases cont with
      | none =>
          rw [hnone rfl] at hrun
          cases hrun
          exact ⟨s, by rw [List.map_nil, List.append_nil]; rfl⟩
      | some c =>
          rw [Option.toList_some, List.singleton_append, Worklist.run] at hrun
          obtain ⟨r, hexpand, hmore⟩ := Outcome.bind_eq_ok.mp hrun
          obtain ⟨rest, hrest, hdone⟩ := Outcome.bind_eq_ok.mp hmore
          cases hdone
          obtain ⟨harea, hfound⟩ := expandArea_eq_ok.mp hexpand
          have hread := readContinuation_serves (b := b) hserve.journaling c
            (s, log)
          unfold pullContinuations
          rcases hcall : readContinuation b rd.journaling c (s, log)
            with ⟨x, s₁, log₁⟩
          have hlog : log₁ = log ++ [c.blockLocation.toNat] := by
            have hstate := congrArg (fun done => done.2.2) hcall
            exact hstate.symm
          rw [hcall] at hread
          obtain rfl : x = .ok r.1 := hread.trans (areaAt_eq_ok.mpr harea)
          obtain ⟨hqueue, hplain, hempty⟩ := removeContinuation_eq (susp ++ r.1)
          rw [hfound, ← continuations_append, ← hqueue] at hrest
          obtain ⟨s', hpull⟩ := ih _ _ s₁ log₁ hempty hrest
          refine ⟨s', hpull.trans ?_⟩
          rw [hlog, List.append_assoc]
          rfl

/-- A block of the extent is asked for unless it is the one in the cache. -/
theorem loadBlock_journal (hserve : rd.Serves src) {cache : BlockCache}
    (hco : Coherent src dir cache) {k : ℕ} {block : BlockBuffer}
    (hblock : blockAt src dir k = .ok block) (s : σ) (log : List ℕ) :
    ∃ s', loadBlock rd.journaling dir cache k (s, log)
      = (.ok (), ⟨block, some k⟩, (s', log ++
        if cache.bufBlockNum = some k then []
        else [dir.header.extentLoc.toNat + k])) := by
  obtain ⟨hok, -, hheld⟩ :=
    loadBlock_serves hserve.journaling hco k (s, log)
  have hheld := hheld block hblock
  rw [hblock] at hok
  unfold loadBlock at hok hheld ⊢
  by_cases htag : cache.bufBlockNum = some k
  · rw [if_neg (not_not.mpr htag)] at hheld
    rw [if_neg (not_not.mpr htag), if_pos htag, List.append_nil]
    subst hheld
    rw [← htag]
    exact ⟨s, rfl⟩
  · rw [if_pos htag] at hok hheld
    rw [if_pos htag, if_neg htag]
    dsimp only at hok hheld ⊢
    rw [rd.journaling_readAt] at hok hheld ⊢
    rcases hread : rd.readAt s cache.block (dir.header.extentLoc.toNat + k)
      with ⟨s', held, x⟩
    rw [hread] at hok hheld
    cases x with
    | ok count =>
        dsimp only at hok hheld ⊢
        by_cases hfull : count ≠ 2048
        · rw [if_pos hfull] at hok
          cases hok
        · rw [if_neg hfull] at hheld ⊢
          subst hheld
          exact ⟨s', rfl⟩
    | err | panic | running => cases hok

/-- A call that succeeds. -/
theorem readEntryAt_journal (hserve : rd.Serves src) {cache : BlockCache}
    (hco : Coherent src dir cache) {offset : ℕ} {entry : DirectoryEntry}
    {next : Option ℕ}
    (hentry : entryAt b src fuel dir offset = .ok (entry, next)) (s : σ)
    (log : List ℕ) :
    ∃ s' block, readEntryAt b rd.journaling fuel dir cache offset (s, log)
        = (.ok (entry, next), ⟨block, some (offset / BLOCK_SIZE)⟩,
          (s', log ++ ((if cache.bufBlockNum = some (offset / BLOCK_SIZE)
            then [] else [dir.header.extentLoc.toNat + offset / BLOCK_SIZE])
            ++ areasAt b src fuel dir offset)))
      ∧ blockAt src dir (offset / BLOCK_SIZE) = .ok block := by
  have hread := (readEntryAt_serves (b := b) hserve.journaling fuel hco
    offset (s, log)).1
  rw [hentry] at hread
  obtain ⟨block, header, identifier, area, susp, hparse, hsusp, -, -⟩ :=
    entryAt_eq_ok.mp hentry
  rw [completeSusp_eq_trace] at hsusp
  obtain ⟨done, htrace, -⟩ := Outcome.map_eq_ok.mp hsusp
  have hareas : areasAt b src fuel dir offset
      = done.map fun d => d.1.blockLocation.toNat := by
    unfold areasAt
    rw [hparse]
    dsimp only
    rw [htrace]
  obtain ⟨hblock, hheader⟩ := parseAt_eq_ok.mp hparse
  obtain ⟨s₁, hload⟩ := loadBlock_journal hserve hco hblock s log
  unfold readEntryAt at hread ⊢
  dsimp only at hread ⊢
  rw [hload] at hread ⊢
  dsimp only at hread ⊢
  unfold decodeEntry at hread ⊢
  rw [hheader] at hread ⊢
  dsimp only at hread ⊢
  rw [splitContinuation_eq] at hread ⊢
  have hplain : continuations (plain (area.getD [])) = [] :=
    continuations_plain _
  obtain ⟨s', hpull⟩ := pullContinuations_journal (b := b) hserve fuel
    (plain (area.getD [])) (continuations (area.getD [])).getLast? s₁
    (log ++ if cache.bufBlockNum = some (offset / BLOCK_SIZE) then []
      else [dir.header.extentLoc.toNat + offset / BLOCK_SIZE])
    (fun _ => hplain) (by rw [hplain, List.append_nil]; exact htrace)
  refine ⟨s', block, ?_, hblock⟩
  rw [hareas, ← List.append_assoc]
  exact Prod.ext hread (Prod.ext rfl hpull)

/-- The call of the iterator that takes an entry. -/
theorem next_journal (hserve : rd.Serves src) {it : ISODirectoryIterator}
    (hco : Coherent src dir it.cache) {offset : ℕ} {entry : DirectoryEntry}
    {next : Option ℕ} (hpos : it.nextOffset = some offset)
    (hentry : entryAt b src fuel dir offset = .ok (entry, next)) (s : σ)
    (log : List ℕ) :
    ∃ it₁ s₁, it.next b rd.journaling fuel dir (s, log)
        = (some (.ok entry), it₁, (s₁, log
          ++ ((if it.cache.bufBlockNum = some (offset / BLOCK_SIZE)
            then [] else [dir.header.extentLoc.toNat + offset / BLOCK_SIZE])
            ++ areasAt b src fuel dir offset)))
      ∧ it₁.nextOffset = next
      ∧ it₁.cache.bufBlockNum = some (offset / BLOCK_SIZE)
      ∧ Coherent src dir it₁.cache := by
  obtain ⟨s₁, block, hread, hblock⟩ :=
    readEntryAt_journal hserve hco hentry s log
  refine ⟨⟨next, block, some (offset / BLOCK_SIZE)⟩, s₁, ?_, rfl, rfl, ?_⟩
  · unfold ISODirectoryIterator.next
    rw [hpos]
    dsimp only
    rw [hread]
  · intro k hk
    cases hk
    exact hblock

/-- Where the record behind this one is: in the same block, at the start
of the next one, or nowhere as this block is the last. -/
theorem entryAt_onward {offset count : ℕ} {entry : DirectoryEntry}
    {next : Option ℕ} (hcount : dir.blockCount b = .ok count)
    (hentry : entryAt b src fuel dir offset = .ok (entry, next)) :
    next = none ∧ count ≤ offset / BLOCK_SIZE + 1
      ∨ next = some (BLOCK_SIZE * (offset / BLOCK_SIZE + 1))
        ∧ offset / BLOCK_SIZE + 1 < count
      ∨ ∃ offset', next = some offset' ∧ offset < offset'
        ∧ offset' / BLOCK_SIZE = offset / BLOCK_SIZE := by
  obtain ⟨block, header, _, _, _, _, -, -, hnext⟩ := entryAt_eq_ok.mp hentry
  cases next with
  | none =>
      obtain ⟨count', hcount', hnone⟩ := nextOffset_eq_ok.mp hnext
      cases hcount.symm.trans hcount'
      refine Or.inl ⟨rfl, ?_⟩
      rcases nextPosition_cases block (offset / BLOCK_SIZE)
        (offset % BLOCK_SIZE + header.length.toNat) with hpos | ⟨hpos, -⟩
      · rw [hpos] at hnone
        by_contra hlt
        rw [if_pos (Nat.lt_of_not_le hlt)] at hnone
        cases hnone
      · rw [hpos] at hnone
        by_contra hlt
        rw [if_pos (Nat.lt_of_succ_lt (Nat.lt_of_not_le hlt))] at hnone
        cases hnone
  | some offset' =>
      obtain ⟨hprogress, -⟩ := entryAt_progress hentry
      obtain ⟨count', hcount', ⟨hoffset, hlt⟩ | ⟨hoffset, hroom, -⟩⟩ :=
        nextOffset_eq_some hnext
      · cases hcount.symm.trans hcount'
        exact Or.inr (Or.inl ⟨by rw [hoffset], hlt⟩)
      · refine Or.inr (Or.inr ⟨offset', rfl, hprogress, ?_⟩)
        unfold BLOCK_SIZE at *
        omega

/-- At the end there is nothing more to be read. -/
theorem iterate_done (b : Build) (rd : ISO9660Reader σ) (fuel : ℕ)
    (dir : ISODirectory) {it : ISODirectoryIterator}
    (hdone : it.nextOffset = none) (s : σ) :
    ∀ n, iterate b rd fuel dir n it s = (it, s)
  | 0 => rfl
  | n + 1 => by
      have hnext : it.next b rd fuel dir s = (none, it, s) := by
        unfold ISODirectoryIterator.next
        rw [hdone]
      unfold iterate
      rw [hnext]
      exact iterate_done b rd fuel dir hdone s n

/-- The blocks asked for from a position on: the rest of its block, and
the blocks behind it. -/
def onward (b : Build) (src : Source) (fuel : ℕ) (dir : ISODirectory)
    (count : ℕ) (offsets : List ℕ) (k : ℕ) : List ℕ :=
  areasIn b src fuel dir offsets k
    ++ (List.range' (k + 1) (max 1 count - (k + 1))).flatMap fun k =>
      (dir.header.extentLoc.toNat + k) :: areasIn b src fuel dir offsets k

/-- A record in front is one more of its block. -/
theorem onward_cons {count offset : ℕ} {offsets : List ℕ} :
    onward b src fuel dir count (offset :: offsets) (offset / BLOCK_SIZE)
      = areasAt b src fuel dir offset
        ++ onward b src fuel dir count offsets (offset / BLOCK_SIZE) := by
  have hfront : areasIn b src fuel dir (offset :: offsets)
        (offset / BLOCK_SIZE)
      = areasAt b src fuel dir offset
        ++ areasIn b src fuel dir offsets (offset / BLOCK_SIZE) := by
    unfold areasIn
    rw [List.filter_cons_of_pos (by simp), List.flatMap_cons]
  have hbehind (k : ℕ) (hk : k ≠ offset / BLOCK_SIZE) :
      areasIn b src fuel dir (offset :: offsets) k
        = areasIn b src fuel dir offsets k := by
    unfold areasIn
    rw [List.filter_cons_of_neg (by simpa using hk.symm)]
  unfold onward
  rw [hfront, List.append_assoc]
  congr 2
  refine List.flatMap_congr fun k hk => ?_
  rw [List.mem_range'_1] at hk
  rw [hbehind k (by omega)]

/-- There is no record left in this block. -/
theorem onward_next {count k : ℕ} {offsets : List ℕ}
    (hbehind : ∀ offset ∈ offsets, BLOCK_SIZE * (k + 1) ≤ offset)
    (hlt : k + 1 < count) :
    onward b src fuel dir count offsets k
      = (dir.header.extentLoc.toNat + (k + 1))
        :: onward b src fuel dir count offsets (k + 1) := by
  have hnone : areasIn b src fuel dir offsets k = [] := by
    unfold areasIn
    rw [List.filter_eq_nil_iff.mpr]
    · rfl
    · intro offset hmem hk
      have hle := hbehind offset hmem
      rw [decide_eq_true_eq] at hk
      unfold BLOCK_SIZE at *
      omega
  have hleft : max 1 count - (k + 1) = (max 1 count - (k + 2)) + 1 := by
    omega
  unfold onward
  rw [hnone, hleft, List.range'_succ, List.flatMap_cons]
  rfl

/-- Listing from a position on. -/
theorem iterate_journal (hserve : rd.Serves src) {count : ℕ}
    (hcount : dir.blockCount b = .ok count) (entries : List DirectoryEntry) :
    ∀ {it : ISODirectoryIterator} {offset : ℕ} {n : ℕ} (s : σ)
      (log : List ℕ), it.nextOffset = some offset →
      Coherent src dir it.cache →
      Cursor.Yields (entryAt b src fuel dir) (some offset) entries →
      offset / BLOCK_SIZE < max 1 count → entries.length ≤ n →
      ∃ offsets, offsets.Pairwise (· < ·)
        ∧ (∀ o, o ∈ offsets
          ↔ Cursor.Reached (entryAt b src fuel dir) offset o)
        ∧ (∀ o ∈ offsets, offset ≤ o)
        ∧ (iterate b rd.journaling fuel dir n it (s, log)).2.2
          = log ++ ((if it.cache.bufBlockNum = some (offset / BLOCK_SIZE)
              then [] else [dir.header.extentLoc.toNat + offset / BLOCK_SIZE])
            ++ onward b src fuel dir count offsets (offset / BLOCK_SIZE)) := by
  induction entries with
  | nil =>
      intro it offset n s log _ _ hyields
      cases hyields.none_of_nil
  | cons entry entries ih =>
      intro it offset n s log hpos hco hyields hlt hn
      obtain ⟨_, next, hoffset, hentry, hrest⟩ := hyields.uncons
      cases hoffset
      rw [List.length_cons] at hn
      obtain ⟨n, rfl⟩ := Nat.exists_eq_add_of_le' (Nat.le_of_add_left_le hn)
      obtain ⟨it₁, s₁, hnext, hpos₁, htag₁, hco₁⟩ :=
        next_journal hserve hco hpos hentry s log
      unfold iterate
      rw [hnext]
      dsimp only
      rcases entryAt_onward hcount hentry with ⟨rfl, hlast⟩
        | ⟨rfl, hmore⟩ | ⟨offset', rfl, hgt, hsame⟩
      · -- the last record
        refine ⟨[offset], List.pairwise_singleton _ _, fun o => ?_, ?_, ?_⟩
        · rw [List.mem_singleton, Cursor.reached_iff_last hentry]
        · intro o ho
          rw [List.mem_singleton.mp ho]
        · have hend : onward b src fuel dir count [] (offset / BLOCK_SIZE)
              = [] := by
            unfold onward
            rw [Nat.sub_eq_zero_of_le (max_le (Nat.le_add_left _ _) hlast)]
            rfl
          rw [iterate_done b rd.journaling fuel dir hpos₁, onward_cons, hend,
            List.append_nil]
      · -- the next record begins a block
        have hdiv : BLOCK_SIZE * (offset / BLOCK_SIZE + 1) / BLOCK_SIZE
            = offset / BLOCK_SIZE + 1 :=
          Nat.mul_div_cancel_left _ (by decide)
        obtain ⟨offsets, hsorted, hmem, hle, hlog⟩ := ih s₁ _ hpos₁ hco₁ hrest
          (by rw [hdiv]; exact lt_max_of_lt_right hmore)
          (Nat.le_of_add_le_add_right hn)
        have hbefore : offset < BLOCK_SIZE * (offset / BLOCK_SIZE + 1) := by
          unfold BLOCK_SIZE
          omega
        refine ⟨offset :: offsets, List.pairwise_cons.mpr ⟨fun o ho =>
          hbefore.trans_le (hle o ho), hsorted⟩, fun o => ?_, ?_, ?_⟩
        · rw [List.mem_cons, hmem, Cursor.reached_iff_next hentry]
        · intro o ho
          rcases List.mem_cons.mp ho with rfl | ho
          · exact Nat.le_refl _
          · exact hbefore.le.trans (hle o ho)
        · have hother : ¬ some (offset / BLOCK_SIZE)
              = some (offset / BLOCK_SIZE + 1) := by simp
          rw [hlog, hdiv, htag₁, onward_cons, onward_next hle hmore,
            if_neg hother]
          simp only [List.append_assoc, List.singleton_append]
      · -- the next record is in this block
        obtain ⟨offsets, hsorted, hmem, hle, hlog⟩ := ih s₁ _ hpos₁ hco₁ hrest
          (by rw [hsame]; exact hlt) (Nat.le_of_add_le_add_right hn)
        refine ⟨offset :: offsets, List.pairwise_cons.mpr ⟨fun o ho =>
          hgt.trans_le (hle o ho), hsorted⟩, fun o => ?_, ?_, ?_⟩
        · rw [List.mem_cons, hmem, Cursor.reached_iff_next hentry]
        · intro o ho
          rcases List.mem_cons.mp ho with rfl | ho
          · exact Nat.le_refl _
          · exact hgt.le.trans (hle o ho)
        · rw [hlog, hsame, htag₁, onward_cons, if_pos rfl]
          simp only [List.append_assoc, List.nil_append]

/-- Listing a directory asks for each block of the extent once, in order,
and behind a block for the areas of its records. -/
theorem listed_blocks (hserve : rd.Serves src)
    {entries : List DirectoryEntry}
    (hyields : Cursor.Yields (entryAt b src fuel dir) (some 0) entries)
    {n : ℕ} (hn : entries.length ≤ n) (s : σ) :
    ∃ count offsets, dir.blockCount b = .ok count
      ∧ offsets.Pairwise (· < ·)
      ∧ (∀ o, o ∈ offsets ↔ Cursor.Reached (entryAt b src fuel dir) 0 o)
      ∧ (iterate b rd.journaling fuel dir n contents (s, [])).2.2
        = (List.range (max 1 count)).flatMap fun k =>
          (dir.header.extentLoc.toNat + k)
            :: areasIn b src fuel dir offsets k := by
  cases entries with
  | nil => cases hyields.none_of_nil
  | cons entry entries =>
      obtain ⟨_, next, hoffset, hentry, -⟩ := hyields.uncons
      cases hoffset
      obtain ⟨block, header, _, _, _, _, -, -, hnext⟩ :=
        entryAt_eq_ok.mp hentry
      obtain ⟨count, hcount, -⟩ := nextOffset_eq_ok.mp hnext
      obtain ⟨offsets, hsorted, hmem, -, hlog⟩ := iterate_journal hserve
        hcount _ s [] (show contents.nextOffset = some 0 from rfl)
        (coherent_new src dir) hyields (by show 0 < _; omega) hn
      refine ⟨count, offsets, hcount, hsorted, hmem, hlog.trans ?_⟩
      obtain ⟨more, hmore⟩ : ∃ more, max 1 count = more + 1 :=
        ⟨max 1 count - 1, by omega⟩
      unfold onward
      rw [Nat.zero_div, hmore, List.range_eq_range', List.range'_succ,
        List.flatMap_cons]
      rfl

end Directories

/-- A directory of two blocks, the first of which holds the record of the
name in three parts. -/
def partedDirectory : ISODirectory :=
  { dotDirectory with header := { dotHeader with extentLength := 4096 } }

theorem partedDirectory_count :
    partedDirectory.blockCount debugBuild = .ok 2 := by
  rw [blockCount_whole (n := 2) (by decide) rfl]
  rfl

def partedSource : Source where
  deliver lba :=
    .ok (if lba = 20 then firstPartBlock
      else if lba = 1 then middlePartBlock
      else if lba = 2 then lastPartBlock
      else dotBlock.buffer).bytes
  atMostBlock h := BlockBuffer.delivered_le _ h

/-- The areas with the rest of the name are read before the second
block. -/
theorem listed_parted :
    (iterate debugBuild partedSource.reader.journaling 2 partedDirectory 2
      contents ((), [])).2.2 = [20, 1, 2, 21] := by
  have hfirst : (entryAt debugBuild partedSource 2 partedDirectory 0).map
      (·.2) = .ok (some 2048) := by
    decide +kernel
  have hsecond : (entryAt debugBuild partedSource 2 partedDirectory
      2048).map (·.2) = .ok none := by
    decide +kernel
  obtain ⟨⟨file, _⟩, hfirst, rfl⟩ := Outcome.map_eq_ok.mp hfirst
  obtain ⟨⟨self, _⟩, hsecond, rfl⟩ := Outcome.map_eq_ok.mp hsecond
  have hyields : Cursor.Yields (entryAt debugBuild partedSource 2
      partedDirectory) (some 0) [file, self] :=
    .cons hfirst (.cons hsecond Cursor.yields_nil)
  obtain ⟨count, offsets, hcount, hsorted, hmem, hlog⟩ :=
    listed_blocks partedSource.reader_serves hyields (n := 2)
      (Nat.le_refl 2) ()
  have hoffsets : offsets = [0, 2048] := by
    refine hsorted.eq_of_mem_iff (by decide) fun o => ?_
    rw [hmem, Cursor.reached_iff_next hfirst, Cursor.reached_iff_last hsecond]
    simp
  rw [partedDirectory_count, Outcome.ok.injEq] at hcount
  subst hcount
  rw [hlog, hoffsets]
  decide +kernel

end Cdfs
