/-
Debug and release builds, more fuel and less, one source and another
that answers alike: the program comes to the same, unless the first of
the two is stopped on the way.

What a build has more of than another only ever panics
(`Build.Tightens`), and nothing in the crate or in the FUSE program
recovers from a panic, so that a debug build computes what the release
build computes or stops. The same argument, with "not through yet" for
"panicked", shows that fuel is a matter of the model alone. It is
therefore made once, for either kind of stop and for any two sources that
answer alike (`ReadsAlike`), function by function from the parsers up to
the calls of the library.
-/
import Cdfs.Proofs.LookupReferences
import Cdfs.Proofs.ParseAgreement

namespace Cdfs

open Rust Parse

-- ================================================ statement vocabulary

/-- The second run has more fuel, if the stop is for want of fuel. -/
def FuelUpto (t : Stop) (fuel fuel' : ℕ) : Prop :=
  fuel = fuel' ∨ t = .running ∧ fuel ≤ fuel'

/-- From related states the two sources answer alike, and come to
related states again; the first may be stopped. -/
def ReadsAlike {σ σ' : Type} (t : Stop) (R : σ → σ' → Prop)
    (rd : ISO9660Reader σ) (rd' : ISO9660Reader σ') : Prop :=
  ∀ s s' buf lba, R s s' →
    (rd.readAt s buf lba).2.2 = t.outcome
      ∨ (rd.readAt s buf lba).2 = (rd'.readAt s' buf lba).2
        ∧ R (rd.readAt s buf lba).1 (rd'.readAt s' buf lba).1

/-- A run with the same fuel. -/
theorem FuelUpto.refl (t : Stop) (fuel : ℕ) : FuelUpto t fuel fuel :=
  Or.inl rfl

/-- A run that has a turn left has one beside it. -/
theorem FuelUpto.succ {t : Stop} {fuel fuel' : ℕ}
    (h : FuelUpto t (fuel + 1) fuel') :
    ∃ n, fuel' = n + 1 ∧ FuelUpto t fuel n := by
  rcases h with rfl | ⟨ht, hle⟩
  · exact ⟨fuel, rfl, Or.inl rfl⟩
  · exact ⟨fuel' - 1, by omega, Or.inr ⟨ht, by omega⟩⟩

/-- A source answers as it does itself. -/
theorem ReadsAlike.refl {σ : Type} (t : Stop) (rd : ISO9660Reader σ) :
    ReadsAlike t Eq rd rd := by
  rintro s _ buf lba rfl
  exact Or.inr ⟨rfl, rfl⟩

variable {t : Stop} {b b' : Build} {α : Type}

-- ==================================================== building an entry

section Entry

variable (h : b.Tightens t b')

include h

/-- The blocks of a directory, counted with an addition and a subtraction
of 32 bits. -/
theorem upto_blockCount (dir : ISODirectory) :
    (dir.blockCount b).Upto t (dir.blockCount b') := by
  refine (upto_addW h.overflowChecks _ _ _).bind fun _ => ?_
  exact (upto_subW h.overflowChecks _ _ _).bind fun _ => .refl _

/-- The metadata of a record. What can stop it is the assertions on the
components of a link's target. -/
theorem upto_extraMeta (susp : List SystemUseEntry) :
    (extraMeta b susp).Upto t (extraMeta b' susp) := by
  have hcomponent : ∀ r, (componentPath b r).Upto t (componentPath b' r) := by
    intro r
    have hassert := Outcome.upto_assert (ε := ISOError) h.assertions
      (r.component == "")
    unfold componentPath
    dsimp only
    split
    · exact hassert.bind fun _ => .refl _
    · split
      · exact hassert.bind fun _ => .refl _
      · split
        · exact hassert.bind fun _ => .refl _
        · exact .refl _
  have hrecords : ∀ records,
      (recordsPath b records).Upto t (recordsPath b' records) :=
    fun records => Outcome.Upto.foldlM
      (fun _ r => (hcomponent r).bind fun _ => .refl _) records ""
  have htarget : (symlinkTarget b susp).Upto t (symlinkTarget b' susp) := by
    unfold symlinkTarget
    exact Outcome.Upto.foldlM
      (fun _ (sl : SymbolicLink) =>
        (hrecords sl.records).bind fun _ => .refl _) _ none
  exact htarget.bind fun _ => .refl _

/-- The entry of a record and the position behind it. -/
theorem upto_finishEntry (dir : ISODirectory) (block : BlockBuffer)
    (blockNum blockPos : ℕ) (header : DirectoryEntryHeader)
    (identifier : String) (susp : List SystemUseEntry) :
    (finishEntry b dir block blockNum blockPos header identifier susp).Upto t
      (finishEntry b' dir block blockNum blockPos header identifier susp)
        := by
  refine (upto_extraMeta h susp).bind fun ext => ?_
  refine Outcome.Upto.bind (.refl _) fun entry => ?_
  exact (upto_blockCount h dir).bind fun _ => .refl _

end Entry

-- ================================================= reading a directory

variable {σ σ' : Type} {R : σ → σ' → Prop} {rd : ISO9660Reader σ}
  {rd' : ISO9660Reader σ'}

/-- A cache beside the state of the source: the caches are equal. -/
def Beside {γ : Type} (R : σ → σ' → Prop) (p : γ × σ) (p' : γ × σ') : Prop :=
  p.1 = p'.1 ∧ R p.2 p'.2

/-- A read of the first source is stopped, or the second answers it
alike. -/
theorem ReadsAlike.cases (hrd : ReadsAlike t R rd rd') {s : σ} {s' : σ'}
    (hs : R s s') (buf : BlockBuffer) (lba : ℕ) :
    (∃ s₁ block, rd.readAt s buf lba = (s₁, block, t.outcome))
      ∨ ∃ s₁ s₁' block r, rd.readAt s buf lba = (s₁, block, r)
        ∧ rd'.readAt s' buf lba = (s₁', block, r) ∧ R s₁ s₁' := by
  rcases h₁ : rd.readAt s buf lba with ⟨s₁, block, r⟩
  rcases h₁' : rd'.readAt s' buf lba with ⟨s₁', block', r'⟩
  have hread := hrd s s' buf lba hs
  rw [h₁, h₁'] at hread
  rcases hread with hstop | ⟨heq, hs₁⟩
  · exact Or.inl ⟨s₁, block, by rw [show r = t.outcome from hstop]⟩
  · cases heq
    exact Or.inr ⟨s₁, s₁', block, r, rfl, rfl, hs₁⟩

section Directory

variable (h : b.Tightens t b') (hrd : ReadsAlike t R rd rd')

include hrd

/-- The block a record is in, from the cache or from the source. The caches
are equal before, and so they are after. -/
theorem loadBlock_sim (dir : ISODirectory) (cache : BlockCache)
    (blockNum : ℕ) {s : σ} {s' : σ'} (hs : R s s') :
    Sim t (Beside R) (loadBlock rd dir cache blockNum s)
      (loadBlock rd' dir cache blockNum s') := by
  unfold loadBlock
  by_cases htag : cache.bufBlockNum ≠ some blockNum
  · simp only [if_pos htag]
    rcases hrd.cases hs cache.block (dir.header.extentLoc.toNat + blockNum)
      with ⟨s₁, block, h₁⟩ | ⟨s₁, s₁', block, r, h₁, h₁', hs₁⟩
    · rw [h₁]
      cases t with
      | panic => exact Or.inl rfl
      | running => exact Or.inl rfl
    · rw [h₁, h₁']
      cases r with
      | ok count =>
          dsimp only
          split
          · exact .done ⟨rfl, hs₁⟩ _
          · exact .done ⟨rfl, hs₁⟩ _
      | err | panic | running => exact .done ⟨rfl, hs₁⟩ _
  · simp only [if_neg htag]
    exact .done ⟨rfl, hs⟩ _

include h

/-- One continuation area. -/
theorem readContinuation_sim (cont : ContinuationArea) {s : σ} {s' : σ'}
    (hs : R s s') :
    Sim t R (readContinuation b rd cont s)
      (readContinuation b' rd' cont s') := by
  rcases hrd.cases hs BlockBuffer.new cont.blockLocation.toNat
    with ⟨s₁, block, h₁⟩ | ⟨s₁, s₁', block, r, h₁, h₁', hs₁⟩
  · simp only [readContinuation, h₁]
    cases t with
    | panic => exact Or.inl rfl
    | running => exact Or.inl rfl
  · simp only [readContinuation, h₁, h₁']
    refine .of_upto ?_ hs₁
    refine Outcome.Upto.bind (.refl _) fun count => ?_
    refine (Outcome.upto_assert h.assertions _).bind fun _ => ?_
    split
    · exact (upto_liftNom (upto_systemUseEntries h _)).bind fun _ => .refl _
    · exact .refl _

/-- All areas of a record. The induction is on the fuel of the first run,
as each area takes a turn of both. -/
theorem pullContinuations_sim {fuel fuel' : ℕ}
    (hfuel : FuelUpto t fuel fuel') :
    ∀ (susp : List SystemUseEntry) (cont : Option ContinuationArea)
      {s : σ} {s' : σ'}, R s s' →
      Sim t R (pullContinuations b rd fuel susp cont s)
        (pullContinuations b' rd' fuel' susp cont s') := by
  induction fuel generalizing fuel' with
  | zero =>
      intro susp cont s s' hs
      cases cont with
      | none =>
          cases fuel' with
          | zero => exact .done hs _
          | succ fuel' => exact .done hs _
      | some cont =>
          rcases hfuel with rfl | ⟨rfl, -⟩
          · exact .done hs _
          · exact Or.inl rfl
  | succ fuel ih =>
      intro susp cont s s' hs
      obtain ⟨fuel', rfl, hfuel'⟩ := hfuel.succ
      cases cont with
      | none => exact .done hs _
      | some cont =>
          unfold pullContinuations
          rcases (readContinuation_sim h hrd cont hs).cases
            with ⟨s₁, h₁⟩ | ⟨r, s₁, s₁', h₁, h₁', hs₁⟩
          · rw [h₁]
            cases t with
            | panic => exact Or.inl rfl
            | running => exact Or.inl rfl
          · rw [h₁, h₁']
            cases r with
            | ok contSusp => exact ih hfuel' _ _ hs₁
            | err | panic | running => exact .done hs₁ _

/-- What is made of a record in the block that is loaded. -/
theorem decodeEntry_sim {fuel fuel' : ℕ} (hfuel : FuelUpto t fuel fuel')
    (dir : ISODirectory) (block : BlockBuffer) (blockNum blockPos : ℕ)
    {s : σ} {s' : σ'} (hs : R s s') :
    Sim t R (decodeEntry b rd fuel dir block blockNum blockPos s)
      (decodeEntry b' rd' fuel' dir block blockNum blockPos s') := by
  unfold decodeEntry
  rcases upto_headerParse h (block.bytes.drop blockPos)
    dir.header.characterEncoding with h₁ | h₁
  · rw [h₁]
    cases t with
    | panic => exact Or.inl rfl
    | running => exact Or.inl rfl
  rw [h₁]
  cases DirectoryEntryHeader.parse b' (block.bytes.drop blockPos)
      dir.header.characterEncoding with
  | err | panic | running => exact .done hs _
  | ok r =>
      obtain ⟨header, identifier, area⟩ := r
      dsimp only
      rcases (pullContinuations_sim h hrd hfuel (splitContinuation area).1
        (splitContinuation area).2 hs).cases
        with ⟨s₁, h₂⟩ | ⟨susp, s₁, s₁', h₂, h₂', hs₁⟩
      · rw [h₂]
        exact Or.inl (t.bind_outcome _)
      · rw [h₂, h₂']
        refine .of_upto ?_ hs₁
        exact Outcome.Upto.bind (.refl _) fun susp =>
          upto_finishEntry h dir block blockNum blockPos header identifier
            susp

/-- `read_entry_at`. -/
theorem readEntryAt_sim {fuel fuel' : ℕ} (hfuel : FuelUpto t fuel fuel')
    (dir : ISODirectory) (cache : BlockCache) (offset : ℕ) {s : σ} {s' : σ'}
    (hs : R s s') :
    Sim t (Beside R) (readEntryAt b rd fuel dir cache offset s)
      (readEntryAt b' rd' fuel' dir cache offset s') := by
  unfold readEntryAt
  dsimp only
  rcases (loadBlock_sim hrd dir cache (offset / BLOCK_SIZE) hs).cases
    with ⟨⟨cache₁, s₁⟩, h₁⟩ | ⟨r, ⟨cache₁, s₁⟩, ⟨_, s₁'⟩, h₁, h₁', rfl, hs₁⟩
  · rw [h₁]
    cases t with
    | panic => exact Or.inl rfl
    | running => exact Or.inl rfl
  · rw [h₁, h₁']
    cases r with
    | ok =>
        rcases decodeEntry_sim h hrd hfuel dir cache₁.block
          (offset / BLOCK_SIZE) (offset % BLOCK_SIZE) hs₁
          with hstop | ⟨heq, hs₂⟩
        · exact Or.inl hstop
        · exact Or.inr ⟨heq, rfl, hs₂⟩
    | err | panic | running => exact .done ⟨rfl, hs₁⟩ _

/-- `Iterator::next`: it is stopped, or there is one item for both. -/
theorem next_cases {fuel fuel' : ℕ} (hfuel : FuelUpto t fuel fuel')
    (dir : ISODirectory) (it : ISODirectoryIterator) {s : σ} {s' : σ'}
    (hs : R s s') :
    (∃ it₁ s₁, it.next b rd fuel dir s = (some t.outcome, it₁, s₁))
      ∨ ∃ x it₁ s₁ s₁', it.next b rd fuel dir s = (x, it₁, s₁)
        ∧ it.next b' rd' fuel' dir s' = (x, it₁, s₁') ∧ R s₁ s₁' := by
  unfold ISODirectoryIterator.next
  cases it.nextOffset with
  | none => exact Or.inr ⟨none, it, s, s', rfl, rfl, hs⟩
  | some offset =>
      dsimp only
      rcases (readEntryAt_sim h hrd hfuel dir it.cache offset hs).cases
        with ⟨⟨cache, s₁⟩, h₁⟩
          | ⟨r, ⟨cache, s₁⟩, ⟨_, s₁'⟩, h₁, h₁', rfl, hs₁⟩
      · rw [h₁]
        cases t with
        | panic => exact Or.inl ⟨_, _, rfl⟩
        | running => exact Or.inl ⟨_, _, rfl⟩
      · rw [h₁, h₁']
        cases r with
        | ok | err | panic | running =>
            exact Or.inr ⟨_, _, _, _, rfl, rfl, hs₁⟩

-- =============================================================== lookup

/-- The search through a listing, from some position of it on. -/
theorem findFrom_sim {fuel fuel' : ℕ} (hfuel : FuelUpto t fuel fuel')
    (dir : ISODirectory) (name : String) {calls calls' : ℕ}
    (hcalls : FuelUpto t calls calls') :
    ∀ (it : ISODirectoryIterator) {s : σ} {s' : σ'}, R s s' →
      Sim t R (findFrom b rd fuel dir name calls it s)
        (findFrom b' rd' fuel' dir name calls' it s') := by
  induction calls generalizing calls' with
  | zero =>
      intro it s s' hs
      rcases hcalls with rfl | ⟨rfl, -⟩
      · exact .done hs _
      · exact Or.inl rfl
  | succ calls ih =>
      intro it s s' hs
      obtain ⟨calls', rfl, hcalls'⟩ := hcalls.succ
      unfold findFrom
      rcases next_cases h hrd hfuel dir it hs
        with ⟨it₁, s₁, h₁⟩ | ⟨x, it₁, s₁, s₁', h₁, h₁', hs₁⟩
      · rw [h₁]
        cases t with
        | panic => exact Or.inl rfl
        | running => exact Or.inl rfl
      · rw [h₁, h₁']
        cases x with
        | none => exact .done hs₁ _
        | some r =>
            cases r with
            | ok entry =>
                by_cases hmatch : matchesName name entry
                · simp only [if_pos hmatch]
                  exact .done hs₁ _
                · simp only [if_neg hmatch]
                  exact ih hcalls' it₁ hs₁
            | err | panic | running => exact .done hs₁ _

/-- `find`. -/
theorem find_sim {fuel fuel' : ℕ} (hfuel : FuelUpto t fuel fuel')
    (dir : ISODirectory) (name : String) {s : σ} {s' : σ'} (hs : R s s') :
    Sim t R (find b rd fuel dir name s) (find b' rd' fuel' dir name s') :=
  findFrom_sim h hrd hfuel dir name hfuel contents hs

/-- The walk along the names of a path. -/
theorem findSegments_sim {fuel fuel' : ℕ} (hfuel : FuelUpto t fuel fuel')
    (segments : List String) :
    ∀ (entry : DirectoryEntry) {s : σ} {s' : σ'}, R s s' →
      Sim t R (findSegments b rd fuel segments entry s)
        (findSegments b' rd' fuel' segments entry s') := by
  induction segments with
  | nil => exact fun entry _ _ hs => .done hs _
  | cons segment segments ih =>
      intro entry s s' hs
      cases entry with
      | file | symlink => exact .done hs _
      | directory parent =>
          unfold findSegments
          dsimp only
          rcases (find_sim h hrd hfuel parent segment hs).cases
            with ⟨s₁, h₁⟩ | ⟨found, s₁, s₁', h₁, h₁', hs₁⟩
          · rw [h₁]
            cases t with
            | panic => exact Or.inl rfl
            | running => exact Or.inl rfl
          · rw [h₁, h₁']
            cases found with
            | ok found =>
                cases found with
                | none => exact .done hs₁ _
                | some entry => exact ih entry hs₁
            | err | panic | running => exact .done hs₁ _

/-- `is_rr`. -/
theorem isRr_sim {fuel fuel' : ℕ} (hfuel : FuelUpto t fuel fuel')
    (iso : ISO9660) {s : σ} {s' : σ'} (hs : R s s') :
    Sim t R (iso.isRr b rd fuel s) (iso.isRr b' rd' fuel' s') := by
  unfold ISO9660.isRr
  rcases next_cases h hrd hfuel iso.root contents hs
    with ⟨it₁, s₁, h₁⟩ | ⟨x, it₁, s₁, s₁', h₁, h₁', hs₁⟩
  · rw [h₁]
    cases t with
    | panic => exact Or.inl rfl
    | running => exact Or.inl rfl
  · rw [h₁, h₁']
    cases x with
    | none => exact .done hs₁ _
    | some r =>
        cases r with
        | ok entry =>
            cases entry with
            | directory | file | symlink => exact .done hs₁ _
        | err | panic | running => exact .done hs₁ _

/-- `root`. -/
theorem mainRoot_sim {fuel fuel' : ℕ} (hfuel : FuelUpto t fuel fuel')
    (iso : ISO9660) {s : σ} {s' : σ'} (hs : R s s') :
    Sim t R (iso.mainRoot b rd fuel s) (iso.mainRoot b' rd' fuel' s') := by
  unfold ISO9660.mainRoot
  rcases (isRr_sim h hrd hfuel iso hs).cases
    with ⟨s₁, h₁⟩ | ⟨rr, s₁, s₁', h₁, h₁', hs₁⟩
  · rw [h₁]
    cases t with
    | panic => exact Or.inl rfl
    | running => exact Or.inl rfl
  · rw [h₁, h₁']
    cases rr with
    | ok rr =>
        cases rr with
        | true => exact .done hs₁ _
        | false =>
            cases iso.supRoot with
            | none => exact .done hs₁ _
            | some => exact .done hs₁ _
    | err | panic | running => exact .done hs₁ _

/-- `open`. -/
theorem openPath_sim {fuel fuel' : ℕ} (hfuel : FuelUpto t fuel fuel')
    (iso : ISO9660) (path : String) {s : σ} {s' : σ'} (hs : R s s') :
    Sim t R (iso.openPath b rd fuel path s)
      (iso.openPath b' rd' fuel' path s') := by
  unfold ISO9660.openPath
  rcases (mainRoot_sim h hrd hfuel iso hs).cases
    with ⟨s₁, h₁⟩ | ⟨root, s₁, s₁', h₁, h₁', hs₁⟩
  · rw [h₁]
    cases t with
    | panic => exact Or.inl rfl
    | running => exact Or.inl rfl
  · rw [h₁, h₁']
    cases root with
    | ok root => exact findSegments_sim h hrd hfuel _ _ hs₁
    | err | panic | running => exact .done hs₁ _

-- ============================================================ the volume

/-- The scan of the descriptors, from some block on. -/
theorem scan_sim {fuel fuel' : ℕ} (hfuel : FuelUpto t fuel fuel') :
    ∀ (acc : Scan) (buf : BlockBuffer) (lba : ℕ) {s : σ} {s' : σ'},
      R s s' →
      Sim t R (scan b rd fuel acc buf lba s)
        (scan b' rd' fuel' acc buf lba s') := by
  induction fuel generalizing fuel' with
  | zero =>
      intro acc buf lba s s' hs
      rcases hfuel with rfl | ⟨rfl, -⟩
      · exact .done hs _
      · exact Or.inl rfl
  | succ fuel ih =>
      intro acc buf lba s s' hs
      obtain ⟨fuel', rfl, hfuel'⟩ := hfuel.succ
      unfold scan
      rcases hrd.cases hs buf lba
        with ⟨s₁, block, h₁⟩ | ⟨s₁, s₁', block, r, h₁, h₁', hs₁⟩
      · rw [h₁]
        cases t with
        | panic => exact Or.inl rfl
        | running => exact Or.inl rfl
      rw [h₁, h₁']
      cases r with
      | err | panic | running => exact .done hs₁ _
      | ok count =>
          by_cases hshort : count ≠ BLOCK_SIZE
          · simp only [if_pos hshort]
            exact .done hs₁ _
          simp only [if_neg hshort]
          rcases upto_descriptorParse h block.bytes with h₂ | h₂
          · rw [h₂]
            cases t with
            | panic => exact Or.inl rfl
            | running => exact Or.inl rfl
          rw [h₂]
          cases VolumeDescriptor.parse b' block.bytes with
          | err | panic | running => exact .done hs₁ _
          | ok descriptor =>
              dsimp only
              cases acc.step descriptor with
              | stop | invalid => exact .done hs₁ _
              | next acc =>
                  dsimp only
                  rcases upto_addW (ε := ISOError) h.overflowChecks 64 lba 1
                    with h₃ | h₃
                  · rw [h₃]
                    cases t with
                    | panic => exact Or.inl rfl
                    | running => exact Or.inl rfl
                  rw [h₃]
                  cases (addW 64 b'.overflowChecks lba 1 :
                      Outcome ISOError ℕ) with
                  | ok lba => exact ih hfuel' acc block lba hs₁
                  | err | panic | running => exact .done hs₁ _

/-- `ISO9660::new`. -/
theorem new_sim {fuel fuel' : ℕ} (hfuel : FuelUpto t fuel fuel')
    {s : σ} {s' : σ'} (hs : R s s') :
    Sim t R (ISO9660.new b rd fuel s) (ISO9660.new b' rd' fuel' s') := by
  unfold ISO9660.new
  rcases (scan_sim h hrd hfuel ⟨none, none, none⟩ BlockBuffer.new 16 hs).cases
    with ⟨s₁, h₁⟩ | ⟨acc, s₁, s₁', h₁, h₁', hs₁⟩
  · rw [h₁]
    exact Or.inl (t.bind_outcome _)
  · rw [h₁, h₁']
    exact .done hs₁ _

end Directory

-- ======================================================== reading files

/-- `Read::read`, seen as a call that passes on everything else. -/
def ISOFileReader.ReadResult.call {σ : Type}
    (done : ISOFileReader.ReadResult σ) :
    Outcome IoError ℕ × (ISOFileReader × List UInt8) × σ :=
  (done.result, (done.reader, done.buf), done.state)

section Files

variable (hrd : ReadsAlike t R rd rd')

include hrd

namespace ISOFileReader

/-- The block under the position of a file's reader. The reader comes to be
the same on both sides. -/
theorem refill_sim (r : ISOFileReader) (lba : ℕ) {s : σ} {s' : σ'}
    (hs : R s s') :
    Sim t (Beside R) (r.refill rd lba s) (r.refill rd' lba s') := by
  unfold refill
  by_cases htag : r.bufLba ≠ some lba
  · simp only [if_pos htag]
    rcases hrd.cases hs r.buf lba
      with ⟨s₁, block, h₁⟩ | ⟨s₁, s₁', block, x, h₁, h₁', hs₁⟩
    · rw [h₁]
      cases t with
      | panic => exact Or.inl rfl
      | running => exact Or.inl rfl
    · rw [h₁, h₁']
      cases x with
      | ok | err | panic | running => exact .done ⟨rfl, hs₁⟩ _
  · simp only [if_neg htag]
    exact .done ⟨rfl, hs⟩ _

/-- The loop of a read. Each turn is a refill and a copy out of the block,
so the induction is on the turns that the buffer has room for. -/
theorem readLoop_sim (fuel : ℕ) :
    ∀ (r : ISOFileReader) (seek : ℕ) (filled rest : List UInt8) {s : σ}
      {s' : σ'}, R s s' →
      Sim t (Beside R) (readLoop rd fuel r seek filled rest s).call
        (readLoop rd' fuel r seek filled rest s').call := by
  induction fuel with
  | zero =>
      intro r seek filled rest s s' hs
      unfold readLoop
      split
      · exact .done ⟨rfl, hs⟩ _
      · exact .done ⟨rfl, hs⟩ _
  | succ fuel ih =>
      intro r seek filled rest s s' hs
      unfold readLoop
      split
      · dsimp only
        rcases (refill_sim hrd r (r.lbaAt seek) hs).cases
          with ⟨⟨r₁, s₁⟩, h₁⟩
            | ⟨x, ⟨r₁, s₁⟩, ⟨_, s₁'⟩, h₁, h₁', rfl, hs₁⟩
        · rw [h₁]
          cases t with
          | panic => exact Or.inl rfl
          | running => exact Or.inl rfl
        · rw [h₁, h₁']
          cases x with
          | ok => exact ih r₁ _ _ _ hs₁
          | err | panic | running => exact .done ⟨rfl, hs₁⟩ _
      · exact .done ⟨rfl, hs⟩ _

/-- `Read::read`. -/
theorem read_sim (r : ISOFileReader) (buf : List UInt8) {s : σ} {s' : σ'}
    (hs : R s s') :
    Sim t (Beside R) (r.read rd buf s).call (r.read rd' buf s').call :=
  readLoop_sim hrd buf.length r r.seek [] buf hs

end ISOFileReader

end Files

/-- `Seek::seek`. -/
theorem ISOFileReader.seekTo_sim (h : b.Tightens t b') (r : ISOFileReader)
    (pos : SeekFrom) :
    Sim t Eq (r.seekTo b pos) (r.seekTo b' pos) := by
  have htarget : (r.seekTarget b pos).Upto t (r.seekTarget b' pos) := by
    cases pos with
    | start => exact .refl _
    | fromEnd pos => exact upto_addI64 h.overflowChecks _ _
    | current pos => exact upto_addI64 h.overflowChecks _ _
  unfold seekTo
  rcases htarget with h₁ | h₁
  · rw [h₁]
    cases t with
    | panic => exact Or.inl rfl
    | running => exact Or.inl rfl
  · rw [h₁]
    exact Or.inr ⟨rfl, rfl⟩

end Cdfs
