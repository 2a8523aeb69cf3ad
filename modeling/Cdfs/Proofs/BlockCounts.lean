/-
The number of blocks of an extent, which is computed in two places:
`block_count` of a directory, and `get_fileattr` of any entry. Both add
the size of a block before they subtract one and divide, in 32 bits
(`ceilDivW`), so the sum is in the way of the last 2048 lengths: the
program panics, or it wraps and counts nothing. One length is in between:
there the sum wraps to zero and the subtraction wraps back
(`ceilBlocks_eq_iff`).
-/
import Cdfs.Proofs.ExtentBound
import Cdfs.Proofs.Handlers
import Mathlib.Algebra.Order.Floor.Div

namespace Cdfs

open Rust Parse

variable {σ : Type} {b : Build}

-- ================================================ statement vocabulary

/-- Extents of a length have their blocks counted right, rounded up. A
directory's iterator comes to each of the blocks, whatever records they
hold, and `getattr` replies the number, together with the size. -/
structure BlocksExact (b : Build) (len : UInt32) : Prop where
  counted (dir : ISODirectory) : dir.header.extentLength = len →
    dir.blockCount b = .ok (len.toNat ⌈/⌉ BLOCK_SIZE)
  reached {enc : CharacterEncoding} {src : Source} {dir : ISODirectory}
    {blocks : List (RecordBlock b enc)} {σ : Type} {rd : ISO9660Reader σ} :
    dir.header.extentLength = len → Held src dir blocks → rd.Serves src →
    blocks.length = len.toNat ⌈/⌉ BLOCK_SIZE →
    ∀ (fuel : ℕ) (s : σ), ∀ i < blocks.length, ∃ n,
      (iterate b rd fuel dir n contents s).1.nextOffset
        = some (BLOCK_SIZE * i)
  replied {σ : Type} (host : Host σ) (fs : ISOFuse σ) (ino : ℕ)
    (entry : DirectoryEntry) : host.build = b →
    fs.inodes ino = some entry → entry.header.extentLength = len →
    ∃ attr, fs.getattr host ino = .ok (.attr attr)
      ∧ attr.size = len.toNat
      ∧ attr.blocks = len.toNat ⌈/⌉ BLOCK_SIZE

-- ======================================================= the two counts

/-- There is a count unless the overflow is checked. -/
theorem exists_ceilBlocks_iff {ε : Type} (checks : Bool) (len : UInt32) :
    (∃ n, (ceilDivW 32 checks len.toNat BLOCK_SIZE : Outcome ε ℕ) = .ok n)
      ↔ (checks = true → len.toNat < 2 ^ 32 - BLOCK_SIZE) := by
  rw [Nat.lt_sub_iff_add_lt]
  rcases ceilBlocks_ok_or_panic (ε := ε) checks len with ⟨hcount, hfits⟩ |
    ⟨hpanic, hfits⟩
  · exact iff_of_true hcount hfits
  · rw [hpanic]
    exact iff_of_false (fun h => nomatch h.choose_spec) hfits

/-- The count is right where the sum fits, and where its remainder is
zero and that is not checked. -/
theorem ceilBlocks_eq_iff {ε : Type} (checks : Bool) (len : UInt32) :
    (ceilDivW 32 checks len.toNat BLOCK_SIZE : Outcome ε ℕ)
        = .ok (len.toNat ⌈/⌉ BLOCK_SIZE)
      ↔ len.toNat < 2 ^ 32 - BLOCK_SIZE
        ∨ checks = false ∧ len.toNat = 2 ^ 32 - BLOCK_SIZE := by
  rw [Nat.ceilDiv_eq_add_pred_div, Nat.add_sub_assoc (by decide)]
  rcases ceilBlocks_cases (ε := ε) checks len with ⟨hcount, hfit⟩ |
    ⟨hcount, -, hlarge⟩ | ⟨hcount, hchecks, hlarge⟩
  · refine iff_of_true hcount (hfit.imp Nat.lt_sub_of_add_lt ?_)
    exact And.imp_right Nat.eq_sub_of_add_eq
  · -- nothing is counted of what is not empty
    rw [hcount]
    unfold BLOCK_SIZE at hlarge ⊢
    refine iff_of_false (fun h => ?_) ?_
    · injection h with h
      omega
    · omega
  · rw [hcount, hchecks]
    refine iff_of_false (fun h => nomatch h) ?_
    rintro (h | ⟨h, -⟩)
    · exact Nat.not_lt.mpr hlarge (Nat.add_lt_of_lt_sub h)
    · cases h

-- ======================================================= exact counts

/-- A count that is right is all that the iterator and `getattr` need. -/
theorem BlocksExact.of_count {len : UInt32}
    (h : ∀ {ε : Type},
      (ceilDivW 32 b.overflowChecks len.toNat BLOCK_SIZE : Outcome ε ℕ)
        = .ok (len.toNat ⌈/⌉ BLOCK_SIZE)) :
    BlocksExact b len := by
  have hcounted : ∀ dir : ISODirectory, dir.header.extentLength = len →
      dir.blockCount b = .ok (len.toNat ⌈/⌉ BLOCK_SIZE) := by
    intro dir hdir
    rw [blockCount_eq, hdir]
    exact h
  refine ⟨hcounted, ?_, ?_⟩
  · intro enc src dir blocks σ rd hdir hheld hserve hblocks fuel s i hi
    have hreach := reached_block hheld (hcounted dir hdir) fuel i hi
      (hblocks ▸ hi)
    obtain ⟨n, hn⟩ := hreach.exists_calls
    refine ⟨n, ?_⟩
    rw [(next_iterate hserve fuel dir n contents s
      (coherent_new src dir)).1]
    exact hn
  · intro σ host fs ino entry hbuild hino hlen
    have hparts := getFileattr_parts host ino entry
    rw [hbuild, hlen, h] at hparts
    obtain ⟨attr, hattr, heq⟩ := Outcome.map_eq_ok.mp hparts
    unfold ISOFuse.getattr
    rw [hino]
    dsimp only
    rw [hattr]
    exact ⟨attr, rfl, congrArg (·.2.2.1) heq, congrArg (·.2.2.2) heq⟩

/-- In every build the blocks are counted right exactly if the sum fits
32 bits, and in a build without overflow checks also at the one length
where both overflows cancel. -/
theorem blocksExact_iff (len : UInt32) :
    ((∀ b, BlocksExact b len) ↔ len.toNat < 2 ^ 32 - BLOCK_SIZE)
      ∧ ∀ b, BlocksExact b len
        ↔ len.toNat < 2 ^ 32 - BLOCK_SIZE
          ∨ b.overflowChecks = false ∧ len.toNat = 2 ^ 32 - BLOCK_SIZE := by
  have hone : ∀ b, BlocksExact b len
      ↔ len.toNat < 2 ^ 32 - BLOCK_SIZE
        ∨ b.overflowChecks = false ∧ len.toNat = 2 ^ 32 - BLOCK_SIZE := by
    intro b
    constructor
    · intro h
      have hcount := h.counted (dotsDirectory len) rfl
      rw [blockCount_eq] at hcount
      exact (ceilBlocks_eq_iff _ len).mp hcount
    · intro h
      exact .of_count fun {_} => (ceilBlocks_eq_iff _ len).mpr h
  refine ⟨⟨fun h => ?_, fun h b => (hone b).mpr (Or.inl h)⟩, hone⟩
  rcases (hone debugBuild).mp (h debugBuild) with hfit | ⟨hchecks, -⟩
  · exact hfit
  · cases hchecks

/-- The last length panics or counts no blocks. -/
theorem blocksExact_longest :
    ¬ BlocksExact debugBuild 0xFFFFFFFF
      ∧ ¬ BlocksExact { debugBuild with overflowChecks := false }
        0xFFFFFFFF := by
  constructor
  · intro h
    exact absurd (h.counted (dotsDirectory 0xFFFFFFFF) rfl) (by decide)
  · intro h
    exact absurd (h.counted (dotsDirectory 0xFFFFFFFF) rfl) (by decide)

end Cdfs
