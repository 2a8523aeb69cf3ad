/-
The scan of the volume descriptors, on a finite image.

What a successful scan has seen is a run of full blocks that parse, up
to the first terminator (`ScanTo`); the loop follows such a run and
nothing else (`scan_eq_ok_iff`), reads its blocks in order and stops. A
block that is not full ends it, and there is one behind every image, so
it comes to an end. The rest says what the run has collected: of each
kind the last descriptor.
-/
import Cdfs.ISO9660
import Cdfs.Proofs.Layout
import Cdfs.Proofs.SuspTotality

namespace Cdfs

open Rust Parse

variable {σ : Type} {b : Build} {rd : ISO9660Reader σ} {image : List UInt8}

-- ============================================================ the blocks

/-- What a block of the image parses as. -/
def descriptorAt (b : Build) (image : List UInt8) (lba : Nat) :
    Outcome ISOError (Option VolumeDescriptor) :=
  VolumeDescriptor.parse b (imageBlock image lba)

/-- The block is full. -/
abbrev Full (image : List UInt8) (lba : Nat) : Prop :=
  (imageBlock image lba).length = BLOCK_SIZE

theorem full_iff {lba : Nat} :
    Full image lba ↔ lba < image.length / BLOCK_SIZE := by
  unfold Full
  rw [length_imageBlock]
  unfold BLOCK_SIZE
  omega

/-- The offset of such a block does not overflow. -/
theorem Full.lba_lt {lba : Nat} (h : Full image lba)
    (hsize : image.length < 2 ^ 64) : lba < 2 ^ 53 := by
  have hblocks := full_iff.mp h
  unfold BLOCK_SIZE at hblocks
  omega

/-- The blocks from one on, up to the terminator at `t`, take the scan
from `acc` to its end. -/
inductive ScanTo (b : Build) (image : List UInt8) :
    Scan → Nat → Scan → Nat → Prop where
  | stop {acc : Scan} {lba : Nat} (full : Full image lba)
      (terminator : descriptorAt b image lba
        = .ok (some .volumeDescriptorSetTerminator)) :
      ScanTo b image acc lba acc lba
  | next {acc acc' last : Scan} {lba t : Nat}
      {descriptor : Option VolumeDescriptor} (full : Full image lba)
      (parsed : descriptorAt b image lba = .ok descriptor)
      (step : acc.step descriptor = .next acc')
      (rest : ScanTo b image acc' (lba + 1) last t) :
      ScanTo b image acc lba last t

theorem Scan.step_eq_stop {acc : Scan}
    {descriptor : Option VolumeDescriptor}
    (h : acc.step descriptor = .stop) :
    descriptor = some .volumeDescriptorSetTerminator := by
  unfold Scan.step at h
  split at h
  · split at h <;> cases h
  · split at h <;> cases h
  · rfl
  · cases h

-- ============================================================== the loop

/-- A block that is not full ends the loop. -/
theorem scan_cut (hserve : rd.ServesImage image) {lba : Nat}
    (hlba : lba < 2 ^ 53) (hfull : ¬ Full image lba) (fuel : Nat)
    (acc : Scan) (buf : BlockBuffer) (s : σ) :
    (scan b rd (fuel + 1) acc buf lba s).1
      = .err (.readSize (imageBlock image lba).length) := by
  have hread := hserve s buf lba hlba
  rw [scan]
  rcases hcall : rd.readAt s buf lba with ⟨s', buf', r⟩
  rw [hcall] at hread
  injection hread with hbuf hcount
  rw [hcount]
  exact congrArg Prod.fst (if_pos hfull)

/-- A block that is read in full is parsed, and the scan goes on as its
descriptor says. -/
theorem scan_read {fuel lba : Nat} {acc : Scan} {buf buf' : BlockBuffer}
    {s s' : σ} (hread : rd.readAt s buf lba = (s', buf', .ok BLOCK_SIZE))
    (hlba : lba + 1 < 2 ^ 64) :
    scan b rd (fuel + 1) acc buf lba s
      = match VolumeDescriptor.parse b buf'.bytes with
        | .ok descriptor =>
            match acc.step descriptor with
            | .next acc => scan b rd fuel acc buf' (lba + 1) s'
            | .stop => (.ok acc, s')
            | .invalid => (.err (.invalidFs "Block size not 2048"), s')
        | .err e => (.err e, s')
        | .panic => (.panic, s')
        | .running => (.running, s') := by
  rw [scan, hread]
  dsimp only
  rewrite [if_neg (not_not_intro rfl), addW_of_lt hlba]
  rfl

theorem scan_next {fuel lba : Nat} {acc acc' : Scan}
    {buf buf' : BlockBuffer} {s s' : σ}
    {descriptor : Option VolumeDescriptor}
    (hread : rd.readAt s buf lba = (s', buf', .ok BLOCK_SIZE))
    (hlba : lba + 1 < 2 ^ 64)
    (hparse : VolumeDescriptor.parse b buf'.bytes = .ok descriptor)
    (hstep : acc.step descriptor = .next acc') :
    scan b rd (fuel + 1) acc buf lba s
      = scan b rd fuel acc' buf' (lba + 1) s' := by
  rw [scan_read hread hlba, hparse]
  dsimp only
  rw [hstep]

theorem scan_stop {fuel lba : Nat} {acc : Scan} {buf buf' : BlockBuffer}
    {s s' : σ} {descriptor : Option VolumeDescriptor}
    (hread : rd.readAt s buf lba = (s', buf', .ok BLOCK_SIZE))
    (hlba : lba + 1 < 2 ^ 64)
    (hparse : VolumeDescriptor.parse b buf'.bytes = .ok descriptor)
    (hstep : acc.step descriptor = .stop) :
    scan b rd (fuel + 1) acc buf lba s = (.ok acc, s') := by
  rw [scan_read hread hlba, hparse]
  dsimp only
  rw [hstep]

theorem new_of_scan {fuel : Nat} {s s' : σ} {acc : Outcome ISOError Scan}
    (h : scan b rd fuel ⟨none, none, none⟩ BlockBuffer.new 16 s
      = (acc, s')) :
    ISO9660.new b rd fuel s = (acc >>= Scan.finish, s') := by
  unfold ISO9660.new
  rw [h]

/-- Over an image that is every full block. -/
theorem scan_full (hserve : rd.ServesImage image) {lba : Nat}
    (hlba : lba < 2 ^ 53) (hfull : Full image lba) (fuel : Nat)
    (acc : Scan) (buf : BlockBuffer) (s : σ) :
    scan b rd (fuel + 1) acc buf lba s
      = match descriptorAt b image lba with
        | .ok descriptor =>
            match acc.step descriptor with
            | .next acc => scan b rd fuel acc ⟨imageBlock image lba, hfull⟩
                (lba + 1) (rd.readAt s buf lba).1
            | .stop => (.ok acc, (rd.readAt s buf lba).1)
            | .invalid => (.err (.invalidFs "Block size not 2048"),
                (rd.readAt s buf lba).1)
        | .err e => (.err e, (rd.readAt s buf lba).1)
        | .panic => (.panic, (rd.readAt s buf lba).1)
        | .running => (.running, (rd.readAt s buf lba).1) := by
  have hread := hserve s buf lba hlba
  rcases hcall : rd.readAt s buf lba with ⟨s', buf', r⟩
  rw [hcall] at hread
  injection hread with hbuf hcount
  change buf' = buf.overwrite (imageBlock image lba) at hbuf
  rw [BlockBuffer.overwrite_full _ hfull] at hbuf
  rw [hcount, hfull, hbuf] at hcall
  exact scan_read hcall (by omega)

/-- The loop comes to an end. -/
theorem scan_ne_running (hserve : rd.ServesImage image)
    (hsize : image.length < 2 ^ 64) (fuel : Nat) :
    ∀ (acc : Scan) (buf : BlockBuffer) (lba : Nat) (s : σ),
      lba < 2 ^ 53 → 0 < fuel → image.length / BLOCK_SIZE < lba + fuel →
      (scan b rd fuel acc buf lba s).1 ≠ .running := by
  induction fuel with
  | zero => exact fun _ _ _ _ _ h => absurd h (Nat.lt_irrefl 0)
  | succ fuel ih =>
      intro acc buf lba s hlba _ hfuel
      by_cases hfull : Full image lba
      · have hblocks := full_iff.mp hfull
        rw [scan_full hserve hlba hfull]
        cases hparse : descriptorAt b image lba with
        | err | panic => exact fun h => nomatch h
        | running =>
            exact absurd hparse (VolumeDescriptor.parse_ne_running b _)
        | ok descriptor =>
            dsimp only
            cases acc.step descriptor with
            | stop | invalid => exact fun h => nomatch h
            | next acc' =>
                unfold BLOCK_SIZE at hblocks hfuel
                exact ih _ _ _ _ (by omega) (by omega)
                  (by unfold BLOCK_SIZE; omega)
      · rw [scan_cut hserve hlba hfull]
        exact fun h => nomatch h

/-- A successful scan has followed a run. -/
theorem scanTo_of_scan (hserve : rd.ServesImage image)
    (hsize : image.length < 2 ^ 64) (fuel : Nat) :
    ∀ (acc : Scan) (buf : BlockBuffer) (lba : Nat) (s : σ) (last : Scan),
      lba < 2 ^ 53 → (scan b rd fuel acc buf lba s).1 = .ok last →
      ∃ t, ScanTo b image acc lba last t := by
  induction fuel with
  | zero => exact fun _ _ _ _ _ _ h => nomatch h
  | succ fuel ih =>
      intro acc buf lba s last hlba h
      by_cases hfull : Full image lba
      · have hblocks := full_iff.mp hfull
        rw [scan_full hserve hlba hfull] at h
        cases hparse : descriptorAt b image lba with
        | err | panic | running =>
            rw [hparse] at h
            cases h
        | ok descriptor =>
            rw [hparse] at h
            dsimp only at h
            cases hstep : acc.step descriptor with
            | invalid =>
                rw [hstep] at h
                cases h
            | stop =>
                rw [hstep] at h
                injection h with h
                rw [Scan.step_eq_stop hstep] at hparse
                exact ⟨lba, h ▸ .stop hfull hparse⟩
            | next acc' =>
                rw [hstep] at h
                unfold BLOCK_SIZE at hblocks
                obtain ⟨t, ht⟩ := ih _ _ _ _ _ (by omega) h
                exact ⟨t, .next hfull hparse hstep ht⟩
      · rw [scan_cut hserve hlba hfull] at h
        cases h

theorem ScanTo.le {acc last : Scan} {lba t : Nat}
    (h : ScanTo b image acc lba last t) : lba ≤ t := by
  induction h with
  | stop => exact Nat.le_refl _
  | next _ _ _ _ ih => omega

/-- A run is followed to its end, and a reader that keeps a record of its
reads has recorded these blocks. -/
theorem scan_of_scanTo (hserve : rd.ServesImage image)
    (hsize : image.length < 2 ^ 64) {acc last : Scan} {lba t : Nat}
    (hto : ScanTo b image acc lba last t) :
    ∀ (fuel : Nat) (buf : BlockBuffer) (s : σ), t < lba + fuel →
      (scan b rd fuel acc buf lba s).1 = .ok last
        ∧ ∀ reads : σ → List Nat,
          (∀ s buf lba, reads (rd.readAt s buf lba).1 = reads s ++ [lba]) →
          reads (scan b rd fuel acc buf lba s).2
            = reads s ++ List.range' lba (t + 1 - lba) := by
  induction hto with
  | @stop acc lba hfull hterm =>
      intro fuel buf s hfuel
      have hlba := hfull.lba_lt hsize
      cases fuel with
      | zero => omega
      | succ fuel =>
          rw [scan_full hserve hlba hfull, hterm]
          refine ⟨rfl, fun reads hreads => ?_⟩
          rw [Nat.add_sub_cancel_left]
          exact hreads s buf lba
  | @next acc acc' last lba t descriptor hfull hparse hstep hto ih =>
      intro fuel buf s hfuel
      have hle := hto.le
      have hlba := hfull.lba_lt hsize
      cases fuel with
      | zero => omega
      | succ fuel =>
          rw [scan_full hserve hlba hfull, hparse]
          dsimp only
          rw [hstep]
          obtain ⟨hok, hlog⟩ := ih fuel ⟨imageBlock image lba, hfull⟩
            (rd.readAt s buf lba).1 (by omega)
          refine ⟨hok, fun reads hreads => ?_⟩
          have hcount : t + 1 - lba = (t + 1 - (lba + 1)) + 1 := by omega
          rw [hlog reads hreads, hreads, hcount, List.range'_succ,
            List.append_assoc]
          rfl

-- ======================================================= what is collected

/-- The table of a primary descriptor. -/
def primaryTable : Option VolumeDescriptor → List VolumeDescriptorTable
  | some (.primary table) => [table]
  | _ => []

theorem mem_primaryTable {descriptor : Option VolumeDescriptor}
    {table : VolumeDescriptorTable} :
    table ∈ primaryTable descriptor
      ↔ descriptor = some (.primary table) := by
  constructor
  · intro h
    unfold primaryTable at h
    split at h
    · rw [List.mem_singleton.mp h]
    · exact absurd h List.not_mem_nil
  · rintro rfl
    exact List.mem_singleton_self table

/-- The table of a supplementary descriptor. -/
def supplementaryTable : Option VolumeDescriptor → List VolumeDescriptorTable
  | some (.supplementary table) => [table]
  | _ => []

/-- The tables of one kind in the blocks from `lba` on and before `t`, in
order. -/
def tables (kind : Option VolumeDescriptor → List VolumeDescriptorTable)
    (b : Build) (image : List UInt8) (lba t : Nat) :
    List VolumeDescriptorTable :=
  (List.range' lba (t - lba)).flatMap fun n =>
    match descriptorAt b image n with
    | .ok descriptor => kind descriptor
    | _ => []

/-- The root record of a table. -/
def rootRecord (table : VolumeDescriptorTable) :
    DirectoryEntryHeader × String :=
  (table.rootDirectoryEntry, table.rootDirectoryEntryIdentifier)

/-- The scan after some primary and some supplementary descriptors. -/
def Scan.after (acc : Scan)
    (primaries supplementaries : List VolumeDescriptorTable) : Scan where
  root := (primaries.getLast?.map rootRecord).or acc.root
  primary := (primaries.getLast?.map .primary).or acc.primary
  supRoot := (supplementaries.getLast?.map rootRecord).or acc.supRoot

theorem Scan.after_append (acc : Scan)
    (ps ps' ss ss' : List VolumeDescriptorTable) :
    (acc.after ps ss).after ps' ss' = acc.after (ps ++ ps') (ss ++ ss') := by
  unfold Scan.after
  simp only [List.getLast?_append, Option.map_or, Option.or_assoc]

/-- A table's block size is the one that the crate knows. -/
abbrev Supported (table : VolumeDescriptorTable) : Prop :=
  table.logicalBlockSize.toNat = BLOCK_SIZE

/-- A descriptor is passed over or collected, unless it is the terminator
or has another block size. -/
theorem Scan.step_eq_next {acc acc' : Scan}
    {descriptor : Option VolumeDescriptor} :
    acc.step descriptor = .next acc'
      ↔ descriptor ≠ some .volumeDescriptorSetTerminator
        ∧ (∀ table ∈ primaryTable descriptor
            ++ supplementaryTable descriptor, Supported table)
        ∧ acc' = acc.after (primaryTable descriptor)
          (supplementaryTable descriptor) := by
  have hrest : ∀ d : Option VolumeDescriptor, acc.step d = .next acc →
      d ≠ some .volumeDescriptorSetTerminator → primaryTable d = [] →
      supplementaryTable d = [] →
      (acc.step d = .next acc'
        ↔ d ≠ some .volumeDescriptorSetTerminator
          ∧ (∀ table ∈ primaryTable d ++ supplementaryTable d,
            Supported table)
          ∧ acc' = acc.after (primaryTable d) (supplementaryTable d)) := by
    intro d hstep hd hp hs
    have hafter : acc.after [] [] = acc := rfl
    rw [hstep, hp, hs, hafter]
    constructor
    · intro h
      injection h with h
      exact ⟨hd, (fun _ h => nomatch h), h.symm⟩
    · intro ⟨_, _, h⟩
      rw [h]
  have htable : ∀ {d : Option VolumeDescriptor}
      {table : VolumeDescriptorTable} {next : Scan},
      (acc.step d = if table.logicalBlockSize.toNat ≠ BLOCK_SIZE
        then .invalid else .next next) →
      d ≠ some .volumeDescriptorSetTerminator →
      primaryTable d ++ supplementaryTable d = [table] →
      next = acc.after (primaryTable d) (supplementaryTable d) →
      (acc.step d = .next acc'
        ↔ d ≠ some .volumeDescriptorSetTerminator
          ∧ (∀ table ∈ primaryTable d ++ supplementaryTable d,
            Supported table)
          ∧ acc' = acc.after (primaryTable d) (supplementaryTable d)) := by
    intro d table next hstep hd htables hnext
    rw [hstep, htables, ← hnext]
    by_cases hsize : Supported table
    · rw [if_neg (not_not_intro hsize)]
      constructor
      · intro h
        injection h with h
        exact ⟨hd, by simpa using hsize, h.symm⟩
      · intro ⟨_, _, h⟩
        rw [h]
    · rw [if_pos hsize]
      refine ⟨(fun h => nomatch h), fun ⟨_, h, _⟩ => ?_⟩
      exact absurd (h table (List.mem_singleton_self _)) hsize
  cases descriptor with
  | none => exact hrest none rfl (fun h => nomatch h) rfl rfl
  | some d =>
      cases d with
      | primary table =>
          exact htable rfl (fun h => nomatch h) rfl rfl
      | supplementary table =>
          exact htable rfl (fun h => nomatch h) rfl rfl
      | bootRecord => exact hrest _ rfl (fun h => nomatch h) rfl rfl
      | volumeDescriptorSetTerminator =>
          exact ⟨(fun h => nomatch h), fun h => absurd rfl h.1⟩

-- ============================================================ the blocks

/-- The first terminator from block `lba` on is block `t`: the blocks up
to it are full, those before it parse as something else, and their
tables have the block size that the crate knows. -/
structure EndsAt (b : Build) (image : List UInt8) (lba t : Nat) :
    Prop where
  start : lba ≤ t
  full : ∀ n, lba ≤ n → n ≤ t → Full image n
  parsed : ∀ n, lba ≤ n → n < t → ∃ descriptor,
    descriptorAt b image n = .ok descriptor
      ∧ descriptor ≠ some .volumeDescriptorSetTerminator
  terminator : descriptorAt b image t
    = .ok (some .volumeDescriptorSetTerminator)
  supported : ∀ table ∈ tables primaryTable b image lba t
    ++ tables supplementaryTable b image lba t, Supported table

theorem tables_self
    (kind : Option VolumeDescriptor → List VolumeDescriptorTable)
    (t : Nat) : tables kind b image t t = [] := by
  unfold tables
  rw [Nat.sub_self]
  rfl

theorem tables_next
    (kind : Option VolumeDescriptor → List VolumeDescriptorTable)
    {lba n : Nat} {descriptor : Option VolumeDescriptor}
    (hparse : descriptorAt b image lba = .ok descriptor) :
    tables kind b image lba (lba + (n + 1))
      = kind descriptor ++ tables kind b image (lba + 1) (lba + (n + 1)) := by
  have hcount : lba + (n + 1) - lba = (lba + (n + 1) - (lba + 1)) + 1 := by
    omega
  unfold tables
  rw [hcount, List.range'_succ, List.flatMap_cons, hparse]

/-- What holds of the tables of a run holds of those of its first block and
of the rest. -/
theorem forall_tables_next {P : VolumeDescriptorTable → Prop} {lba n : Nat}
    {descriptor : Option VolumeDescriptor}
    (hparse : descriptorAt b image lba = .ok descriptor) :
    (∀ table ∈ tables primaryTable b image lba (lba + (n + 1))
        ++ tables supplementaryTable b image lba (lba + (n + 1)), P table)
      ↔ (∀ table ∈ primaryTable descriptor ++ supplementaryTable descriptor,
          P table)
        ∧ ∀ table ∈ tables primaryTable b image (lba + 1) (lba + (n + 1))
          ++ tables supplementaryTable b image (lba + 1) (lba + (n + 1)),
          P table := by
  rw [tables_next _ hparse, tables_next _ hparse]
  simp only [List.forall_mem_append]
  exact and_and_and_comm

/-- A run of one block more. -/
theorem endsAt_next {lba n : Nat} {descriptor : Option VolumeDescriptor}
    (hparse : descriptorAt b image lba = .ok descriptor) :
    EndsAt b image lba (lba + (n + 1))
      ↔ Full image lba
        ∧ descriptor ≠ some .volumeDescriptorSetTerminator
        ∧ (∀ table ∈ primaryTable descriptor
          ++ supplementaryTable descriptor, Supported table)
        ∧ EndsAt b image (lba + 1) (lba + (n + 1)) := by
  constructor
  · intro h
    obtain ⟨hsup, hsup'⟩ := (forall_tables_next hparse).mp h.supported
    obtain ⟨d, hd, hne⟩ := h.parsed lba (Nat.le_refl _) (by omega)
    rw [hparse] at hd
    injection hd with hd
    refine ⟨h.full lba (Nat.le_refl _) h.start, hd ▸ hne, hsup, ?_⟩
    exact
      { start := by omega
        full := fun n hn => h.full n (by omega)
        parsed := fun n hn => h.parsed n (by omega)
        terminator := h.terminator
        supported := hsup' }
  · intro ⟨hfull, hne, hsup, h⟩
    exact
      { start := by omega
        full := by
          intro n hn hnt
          rcases Nat.eq_or_lt_of_le hn with heq | hlt
          · rw [← heq]
            exact hfull
          · exact h.full n hlt hnt
        parsed := by
          intro n hn hnt
          rcases Nat.eq_or_lt_of_le hn with heq | hlt
          · exact ⟨descriptor, heq ▸ hparse, hne⟩
          · exact h.parsed n hlt hnt
        terminator := h.terminator
        supported := (forall_tables_next hparse).mpr ⟨hsup, h.supported⟩ }

/-- A run ends at the first terminator with the last table of each
kind. -/
theorem scanTo_iff (n : Nat) : ∀ (acc : Scan) (lba : Nat) (last : Scan),
    ScanTo b image acc lba last (lba + n)
      ↔ EndsAt b image lba (lba + n)
        ∧ last = acc.after (tables primaryTable b image lba (lba + n))
          (tables supplementaryTable b image lba (lba + n)) := by
  induction n with
  | zero =>
      intro acc lba last
      have hafter : acc.after [] [] = acc := rfl
      rw [Nat.add_zero, tables_self, tables_self, hafter]
      constructor
      · intro h
        cases h with
        | stop full terminator =>
            refine ⟨⟨Nat.le_refl _, fun n hn hnt => ?_, fun n hn hnt => ?_,
              terminator, ?_⟩, rfl⟩
            · rw [Nat.le_antisymm hnt hn]
              exact full
            · omega
            · rw [tables_self, tables_self]
              exact fun _ h => nomatch h
        | next _ _ _ rest =>
            have hle := rest.le
            omega
      · intro ⟨h, hlast⟩
        rw [hlast]
        exact .stop (h.full lba (Nat.le_refl _) (Nat.le_refl _)) h.terminator
  | succ n ih =>
      intro acc lba last
      have hmove : lba + (n + 1) = (lba + 1) + n := by omega
      constructor
      · intro h
        generalize ht : lba + (n + 1) = t at h
        cases h with
        | stop => omega
        | @next _ acc' _ _ _ descriptor full parsed step rest =>
            rw [← ht, hmove, ih] at rest
            obtain ⟨hend, hlast⟩ := rest
            rw [← hmove] at hend hlast
            obtain ⟨hne, hsup, hacc⟩ := Scan.step_eq_next.mp step
            rw [← ht]
            refine ⟨(endsAt_next parsed).mpr ⟨full, hne, hsup, hend⟩, ?_⟩
            rw [tables_next _ parsed, tables_next _ parsed,
              ← Scan.after_append, ← hacc]
            exact hlast
      · intro ⟨hend, hlast⟩
        obtain ⟨descriptor, hparse, -⟩ :=
          hend.parsed lba (Nat.le_refl _) (by omega)
        obtain ⟨hfull, hne, hsup, hend⟩ := (endsAt_next hparse).mp hend
        rw [tables_next _ hparse, tables_next _ hparse,
          ← Scan.after_append] at hlast
        refine .next hfull hparse (Scan.step_eq_next.mpr ⟨hne, hsup, rfl⟩) ?_
        rw [hmove, ih, ← hmove]
        exact ⟨hend, hlast⟩

/-- The same for a run to any block. -/
theorem scanTo_iff_endsAt (acc : Scan) (lba t : Nat) (last : Scan) :
    ScanTo b image acc lba last t
      ↔ EndsAt b image lba t
        ∧ last = acc.after (tables primaryTable b image lba t)
          (tables supplementaryTable b image lba t) := by
  by_cases ht : lba ≤ t
  · obtain ⟨n, hn⟩ := Nat.exists_eq_add_of_le ht
    rw [hn]
    exact scanTo_iff n acc lba last
  · exact ⟨fun h => absurd h.le ht, fun h => absurd h.1.start ht⟩

/-- The loop succeeds on the runs, and has read their blocks. -/
theorem scan_eq_ok_iff (hserve : rd.ServesImage image)
    (hsize : image.length < 2 ^ 64) {fuel : Nat}
    (hfuel : image.length / BLOCK_SIZE < fuel) (acc : Scan)
    (buf : BlockBuffer) (s : σ) (last : Scan) :
    ((scan b rd fuel acc buf 16 s).1 = .ok last
        ↔ ∃ t, ScanTo b image acc 16 last t)
      ∧ ∀ t, ScanTo b image acc 16 last t → ∀ reads : σ → List Nat,
        (∀ s buf lba, reads (rd.readAt s buf lba).1 = reads s ++ [lba]) →
        reads (scan b rd fuel acc buf 16 s).2
          = reads s ++ List.range' 16 (t + 1 - 16) := by
  have hrun : ∀ t, ScanTo b image acc 16 last t → t < 16 + fuel := by
    intro t hto
    have hend := ((scanTo_iff_endsAt _ _ _ _).mp hto).1
    have hblocks := full_iff.mp (hend.full t hend.start (Nat.le_refl _))
    omega
  refine ⟨⟨fun h => ?_, fun ⟨t, hto⟩ => ?_⟩, fun t hto => ?_⟩
  · exact scanTo_of_scan hserve hsize fuel acc buf 16 s last (by omega) h
  · exact (scan_of_scanTo hserve hsize hto fuel buf s (hrun t hto)).1
  · exact (scan_of_scanTo hserve hsize hto fuel buf s (hrun t hto)).2

/-- `ISO9660::new` on a finite image, for as much fuel as it has blocks.
It comes to an end. It succeeds exactly when the blocks from 16 on run up
to a terminator, all full and parsed, all tables with the supported block
size, and a primary one among them. The roots and the properties are then
those of the last table of each kind, and the blocks read are the run's,
in order. -/
theorem new_ok_iff (hserve : rd.ServesImage image)
    (hsize : image.length < 2 ^ 64) {fuel : Nat}
    (hfuel : image.length / BLOCK_SIZE < fuel) (s : σ) :
    (ISO9660.new b rd fuel s).1 ≠ .running
      ∧ ((∃ iso, (ISO9660.new b rd fuel s).1 = .ok iso)
        ↔ ∃ t, EndsAt b image 16 t ∧ tables primaryTable b image 16 t ≠ [])
      ∧ ∀ t, EndsAt b image 16 t → tables primaryTable b image 16 t ≠ [] →
        ∃ iso table, (ISO9660.new b rd fuel s).1 = .ok iso
          ∧ (tables primaryTable b image 16 t).getLast? = some table
          ∧ iso.root = rootDirectory (rootRecord table)
          ∧ (∀ prop, iso.primaryPropStr prop = .ok (prop table))
          ∧ iso.supRoot
            = (tables supplementaryTable b image 16 t).getLast?.map
              (fun table => rootDirectory (rootRecord table))
          ∧ ∀ reads : σ → List Nat,
            (∀ s buf lba,
              reads (rd.readAt s buf lba).1 = reads s ++ [lba]) →
            reads (ISO9660.new b rd fuel s).2
              = reads s ++ List.range' 16 (t - 15) := by
  have hnew : (ISO9660.new b rd fuel s).1
      = ((scan b rd fuel ⟨none, none, none⟩ BlockBuffer.new 16 s).1
        >>= Scan.finish) := rfl
  have hok := scan_eq_ok_iff (b := b) hserve hsize hfuel ⟨none, none, none⟩
    BlockBuffer.new s
  have hpos : 0 < fuel := Nat.lt_of_le_of_lt (Nat.zero_le _) hfuel
  have hrunning := scan_ne_running (b := b) hserve hsize fuel
    ⟨none, none, none⟩ BlockBuffer.new 16 s (by omega) hpos (by omega)
  have hmount : ∀ t, EndsAt b image 16 t →
      tables primaryTable b image 16 t ≠ [] →
      ∃ iso table, (ISO9660.new b rd fuel s).1 = .ok iso
        ∧ (tables primaryTable b image 16 t).getLast? = some table
        ∧ iso.root = rootDirectory (rootRecord table)
        ∧ (∀ prop, iso.primaryPropStr prop = .ok (prop table))
        ∧ iso.supRoot
          = (tables supplementaryTable b image 16 t).getLast?.map
            (fun table => rootDirectory (rootRecord table))
        ∧ ∀ reads : σ → List Nat,
          (∀ s buf lba, reads (rd.readAt s buf lba).1 = reads s ++ [lba]) →
          reads (ISO9660.new b rd fuel s).2
            = reads s ++ List.range' 16 (t - 15) := by
    intro t hend hne
    have hlast := List.getLast?_eq_some_getLast hne
    have hto := (scanTo_iff_endsAt (b := b) ⟨none, none, none⟩ 16 t _).mpr
      ⟨hend, rfl⟩
    have hcount : t - 15 = t + 1 - 16 := by omega
    refine ⟨⟨rootDirectory (rootRecord _), _, .primary _⟩, _, ?_, hlast, rfl,
      fun _ => rfl, rfl, fun reads hreads => ?_⟩
    · rw [hnew, (hok _).1.mpr ⟨t, hto⟩, Outcome.ok_bind]
      unfold Scan.after
      rw [hlast]
      simp only [Option.map_some, Option.or_none,
        Scan.finish, Option.map_map]
      rfl
    · rw [hcount]
      exact (hok _).2 t hto reads hreads
  refine ⟨?_, ⟨?_, ?_⟩, hmount⟩
  · rw [hnew]
    intro h
    rcases Outcome.bind_eq_running.mp h with h | ⟨last, -, h⟩
    · exact hrunning h
    · unfold Scan.finish at h
      split at h <;> cases h
  · intro ⟨iso, h⟩
    rw [hnew] at h
    obtain ⟨last, hscan, hfinish⟩ := Outcome.bind_eq_ok.mp h
    obtain ⟨t, hto⟩ := (hok last).1.mp hscan
    obtain ⟨hend, hlast⟩ := (scanTo_iff_endsAt _ _ _ _).mp hto
    refine ⟨t, hend, fun hnil => ?_⟩
    rw [hlast, hnil] at hfinish
    cases hfinish
  · intro ⟨t, hend, hne⟩
    obtain ⟨iso, _, h, -⟩ := hmount t hend hne
    exact ⟨iso, h⟩

-- ============================================================= two blocks

/-- An image of some blocks behind the system area. -/
def imageOf (blocks : List BlockBuffer) : List UInt8 :=
  List.replicate (BLOCK_SIZE * 16) 0 ++ blocks.flatMap (·.bytes)

theorem length_flatMap_bytes (blocks : List BlockBuffer) :
    (blocks.flatMap (·.bytes)).length = BLOCK_SIZE * blocks.length := by
  induction blocks with
  | nil => rfl
  | cons block blocks ih =>
      rw [List.flatMap_cons, List.length_append, ih, block.size,
        List.length_cons, Nat.mul_succ, Nat.add_comm]

theorem drop_flatMap_bytes (blocks : List BlockBuffer) :
    ∀ n, (blocks.flatMap (·.bytes)).drop (BLOCK_SIZE * n)
      = (blocks.drop n).flatMap (·.bytes) := by
  induction blocks with
  | nil => simp
  | cons block blocks ih =>
      intro n
      cases n with
      | zero => rfl
      | succ n =>
          have hsize := block.size
          rw [List.flatMap_cons, List.drop_succ_cons, ← ih n,
            Nat.mul_succ, Nat.add_comm, ← List.drop_drop, ← hsize,
            List.drop_left]

/-- The blocks of an image that is made of blocks. -/
theorem imageBlock_flatMap (blocks : List BlockBuffer) (n : Nat) :
    imageBlock (blocks.flatMap (·.bytes)) n
      = ((blocks[n]?).map (·.bytes)).getD [] := by
  unfold imageBlock
  rw [drop_flatMap_bytes]
  cases hblock : blocks[n]? with
  | none =>
      rw [List.drop_eq_nil_of_le (List.getElem?_eq_none_iff.mp hblock)]
      rfl
  | some block =>
      obtain ⟨hn, hblock⟩ := List.getElem?_eq_some_iff.mp hblock
      rw [List.drop_eq_getElem_cons hn, List.flatMap_cons, hblock,
        ← block.size, List.take_left]
      rfl

/-- The system area is sixteen blocks of zeros. -/
theorem imageOf_eq (blocks : List BlockBuffer) :
    imageOf blocks
      = (List.replicate 16 BlockBuffer.new ++ blocks).flatMap
        (·.bytes) := by
  rw [List.flatMap_append, List.flatMap_replicate]
  show _ = (List.replicate 16 (List.replicate BLOCK_SIZE 0)).flatten ++ _
  rw [List.flatten_replicate_replicate]
  rfl

theorem imageBlock_imageOf {blocks : List BlockBuffer} {n : Nat}
    {block : BlockBuffer} (h : blocks[n]? = some block) :
    imageBlock (imageOf blocks) (16 + n) = block.bytes := by
  rw [imageOf_eq, imageBlock_flatMap,
    List.getElem?_append_right (by simp), List.length_replicate,
    Nat.add_sub_cancel_left, h]
  rfl

/-- A primary descriptor with the block size 2048. Its texts are in an
encoding whose text this build leaves out. -/
def primaryBlock : BlockBuffer :=
  BlockBuffer.new.overwrite
    ([1, 0x43, 0x44, 0x30, 0x30, 0x31, 1] ++ List.replicate 81 0
      ++ [0x25, 0x2F, 0x40] ++ List.replicate 37 0 ++ [0, 8, 8, 0]
      ++ List.replicate 24 0
      ++ [34, 0, 18, 0, 0, 0, 0, 0, 0, 18, 0, 8, 0, 0, 0, 0, 8, 0,
        100, 1, 1, 0, 0, 0, 0, 2, 0, 0, 1, 0, 0, 1, 1, 0])

def terminatorBlock : BlockBuffer :=
  BlockBuffer.new.overwrite [255, 0x43, 0x44, 0x30, 0x30, 0x31, 1]

theorem primaryBlock_parse : ∃ table,
    VolumeDescriptor.parse quietBuild primaryBlock.bytes
        = .ok (some (.primary table))
      ∧ Supported table := by
  have hcheck : (VolumeDescriptor.parse quietBuild
      primaryBlock.bytes).isOkAnd (fun d => (primaryTable d).any
        (·.logicalBlockSize.toNat == 2048)) = true := by
    decide +kernel
  obtain ⟨d, hparse, htests⟩ := Outcome.exists_of_isOkAnd hcheck
  obtain ⟨table, hmem, hsize⟩ := List.any_eq_true.mp htests
  rw [mem_primaryTable.mp hmem] at hparse
  exact ⟨table, hparse, beq_iff_eq.mp hsize⟩

theorem terminatorBlock_parse :
    VolumeDescriptor.parse quietBuild terminatorBlock.bytes
      = .ok (some .volumeDescriptorSetTerminator) := by decide +kernel

/-- The image of the two is mounted. -/
theorem new_mounts : ∃ iso, (ISO9660.new quietBuild
    ((cursor (imageOf [primaryBlock, terminatorBlock])).reader quietBuild)
    19 0).1 = .ok iso := by
  obtain ⟨table, hparse, hsup⟩ := primaryBlock_parse
  have hfirst : imageBlock (imageOf [primaryBlock, terminatorBlock]) 16
      = primaryBlock.bytes := imageBlock_imageOf (n := 0) rfl
  have hsecond : imageBlock (imageOf [primaryBlock, terminatorBlock]) 17
      = terminatorBlock.bytes := imageBlock_imageOf (n := 1) rfl
  have hprimary : descriptorAt quietBuild
      (imageOf [primaryBlock, terminatorBlock]) 16
        = .ok (some (.primary table)) := by
    unfold descriptorAt
    rw [hfirst, hparse]
  have hlen : (imageOf [primaryBlock, terminatorBlock]).length
      = 2048 * 18 := by
    rw [imageOf_eq, length_flatMap_bytes]
    rfl
  have htables : ∀ kind, tables kind quietBuild
      (imageOf [primaryBlock, terminatorBlock]) 16 17
        = kind (some (.primary table)) := by
    intro kind
    have hnext := tables_next kind (n := 0) hprimary
    have hself : tables kind quietBuild
        (imageOf [primaryBlock, terminatorBlock]) 17 17 = [] :=
      tables_self kind 17
    rw [hself, List.append_nil] at hnext
    exact hnext
  refine ((new_ok_iff (cursor_servesImage quietBuild _) (by rw [hlen]; decide)
    (by rw [hlen]; decide) 0).2.1).mpr ⟨17, ?_, ?_⟩
  · exact
      { start := by decide
        full := fun n _ hn => full_iff.mpr (by
          rw [hlen]
          unfold BLOCK_SIZE
          omega)
        parsed := fun n hn hlt => by
          have heq : n = 16 := by omega
          rw [heq]
          exact ⟨_, hprimary, fun h => nomatch h⟩
        terminator := by
          unfold descriptorAt
          rw [hsecond, terminatorBlock_parse]
        supported := by
          rw [htables, htables]
          intro t ht
          rw [List.mem_singleton.mp ht]
          exact hsup }
  · rw [htables]
    exact List.cons_ne_nil _ _

-- ================================================================= a disc

/-- A source of blocks, up to the last. -/
def sectorSource (sectors : List BlockBuffer) : Source where
  deliver lba := .ok (((sectors[lba]?).map (·.bytes)).getD [])
  atMostBlock {lba bs} h := by
    injection h with h
    rw [← h, ← imageBlock_flatMap, length_imageBlock]
    exact Nat.min_le_left _ _

/-- It serves the image that they make up. -/
theorem sectorSource_servesImage (sectors : List BlockBuffer) :
    (sectorSource sectors).reader.ServesImage
      (sectors.flatMap (·.bytes)) := by
  intro s buf lba _
  rw [(sectorSource sectors).reader_serves s buf lba]
  unfold Source.fill sectorSource imageSource
  dsimp only
  rw [imageBlock_flatMap]

/-- A primary descriptor without texts, whose root directory is block
18. -/
def discBlock : BlockBuffer :=
  BlockBuffer.new.overwrite
    ([1, 0x43, 0x44, 0x30, 0x30, 0x31, 1] ++ List.replicate 121 0
      ++ [0, 8, 8, 0] ++ List.replicate 24 0
      ++ [34, 0, 18, 0, 0, 0, 0, 0, 0, 18, 0, 8, 0, 0, 0, 0, 8, 0,
        100, 1, 1, 0, 0, 0, 0, 2, 0, 0, 1, 0, 0, 1, 1, 0])

def discHeader : DirectoryEntryHeader := { dotHeader with extentLoc := 18 }

theorem discBlock_parse : ∃ table,
    VolumeDescriptor.parse quietBuild discBlock.bytes
        = .ok (some (.primary table))
      ∧ table.logicalBlockSize.toNat = BLOCK_SIZE
      ∧ table.rootDirectoryEntry = discHeader
      ∧ table.rootDirectoryEntryIdentifier = "\x00" := by
  have hcheck : (VolumeDescriptor.parse quietBuild
      discBlock.bytes).isOkAnd (fun d => (primaryTable d).any fun table =>
        decide (table.logicalBlockSize.toNat = BLOCK_SIZE
          ∧ table.rootDirectoryEntry = discHeader
          ∧ table.rootDirectoryEntryIdentifier = "\x00")) = true := by
    decide +kernel
  obtain ⟨d, hparse, htests⟩ := Outcome.exists_of_isOkAnd hcheck
  obtain ⟨table, hmem, htests⟩ := List.any_eq_true.mp htests
  rw [mem_primaryTable.mp hmem] at hparse
  exact ⟨table, hparse, of_decide_eq_true htests⟩

/-- A disc whose root directory is one block. -/
def discOf (root : BlockBuffer) : Source where
  deliver lba :=
    .ok (if lba = 16 then discBlock
      else if lba = 17 then terminatorBlock
      else root).bytes
  atMostBlock h := BlockBuffer.delivered_le _ h

/-- Its root directory. -/
def discRoot : ISODirectory := rootDirectory (discHeader, "\x00")

/-- A source that delivers a block is read like that. -/
theorem readAt_of_deliver {src : Source} {buf block : BlockBuffer}
    {lba : Nat} (h : src.deliver lba = .ok block.bytes) :
    src.reader.readAt () buf lba = ((), block, .ok BLOCK_SIZE) := by
  show ((), src.fill buf lba) = _
  unfold Source.fill
  rw [h]
  dsimp only
  rw [BlockBuffer.overwrite_full _ block.size, block.size]

/-- With these descriptors a disc is mounted, whatever else it holds. -/
theorem new_of_deliver {src : Source}
    (hfirst : src.deliver 16 = .ok discBlock.bytes)
    (hsecond : src.deliver 17 = .ok terminatorBlock.bytes) : ∃ primary,
    ISO9660.new quietBuild src.reader 20 ()
      = (.ok ⟨discRoot, none, primary⟩, ()) := by
  obtain ⟨table, hparse, hsize, hheader, hident⟩ := discBlock_parse
  have hstep : (⟨none, none, none⟩ : Scan).step (some (.primary table))
      = .next ⟨some (discHeader, "\x00"), some (.primary table), none⟩ := by
    unfold Scan.step
    dsimp only
    rw [if_neg (not_not.mpr hsize), hheader, hident]
  exact ⟨.primary table, new_of_scan
    ((scan_next (readAt_of_deliver hfirst) (by decide) hparse hstep).trans
      (scan_stop (readAt_of_deliver hsecond) (by decide)
        terminatorBlock_parse rfl))⟩

end Cdfs
