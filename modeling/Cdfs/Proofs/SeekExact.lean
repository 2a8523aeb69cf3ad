/-
Seeks against exact arithmetic.

`seek` computes its target in 64-bit signed numbers. In every state that
a run leads to, the size of the file is a 32-bit number and the position
is not negative as a signed one (`Bounded`), so the sum cannot fall below
the range; it can exceed it. Where it does, a build that checks overflow
panics, and in one that does not the sum wraps to a negative number,
which is the error that it should be.
-/
import Cdfs.Proofs.FileContents

namespace Cdfs

open Rust Parse ISOFileReader

variable {σ ι : Type} {b : Build} {rd : ISO9660Reader σ}

-- ================================================ statement vocabulary

namespace ISOFileReader

/-- The position asked for. -/
def target (r : ISOFileReader) : SeekFrom → Int
  | .start pos => pos.toNat
  | .fromEnd pos => r.size + pos.toInt
  | .current pos => r.seek + pos.toInt

/-- What a seek is to do. -/
def seekExact (r : ISOFileReader) (pos : SeekFrom) :
    Outcome IoError Nat × ISOFileReader :=
  if 0 ≤ r.target pos ∧ r.target pos < 2 ^ 63 then
    (.ok (r.target pos).toNat, { r with seek := (r.target pos).toNat })
  else (.err .invalidSeek, r)

/-- A seek computes its target without an overflow, which is what checks
would panic on, and does what it is to do. -/
structure SeekIsExact (b : Build) (r : ISOFileReader) (pos : SeekFrom) :
    Prop where
  noOverflow : r.seekTarget { b with overflowChecks := true } pos ≠ .panic
  result : r.seekTo b pos = r.seekExact pos

/-- The sum, if there is one, does not exceed 64 bits. -/
def SumFits (r : ISOFileReader) : SeekFrom → Prop
  | .start _ => True
  | .fromEnd pos => r.size + pos.toInt < 2 ^ 63
  | .current pos => r.seek + pos.toInt < 2 ^ 63

instance (r : ISOFileReader) (pos : SeekFrom) : Decidable (r.SumFits pos) := by
  cases pos with
  | start => exact instDecidableTrue
  | fromEnd | current => exact inferInstanceAs (Decidable (_ < _))

/-- The size of the file is a 32-bit number, and the position one of 63
bits. -/
structure Bounded (r : ISOFileReader) : Prop where
  size : r.size < 2 ^ 32
  seek : r.seek < 2 ^ 63

end ISOFileReader

-- ======================================================= the arithmetic

/-- A number of 64 bits that is no signed one wraps to a negative one. -/
theorem bmod_of_ge {t : Int} (hle : 2 ^ 63 ≤ t) (hlt : t < 2 ^ 64) :
    t.bmod (2 ^ 64) = t - 2 ^ 64 := by
  rw [← Int.sub_bmod_right]
  exact Int.bmod_eq_of_le (by omega) (by omega)

/-- A sum that does not fall below the range. -/
theorem addI64_eq (checks : Bool) {x y : Int} (hle : -2 ^ 63 ≤ x + y) :
    (addI64 checks x y : Outcome IoError Int)
      = if x + y < 2 ^ 63 ∨ checks = false then
          .ok ((x + y).bmod (2 ^ 64))
        else .panic := by
  unfold addI64
  by_cases hlt : x + y < 2 ^ 63
  · have hbmod : (x + y).bmod (2 ^ 64) = x + y :=
      Int.bmod_eq_of_le (by omega) (by omega)
    rw [if_pos ⟨hle, hlt⟩, if_pos (Or.inl hlt), hbmod]
  · rw [if_neg fun h => hlt h.2]
    cases checks with
    | false => rw [if_neg Bool.false_ne_true, if_pos (Or.inr rfl)]
    | true => rw [if_pos rfl, if_neg (by simpa using hlt)]

-- =============================================================== one seek

namespace ISOFileReader

variable {r : ISOFileReader}

theorem Bounded.target_le (h : r.Bounded) (pos : SeekFrom) :
    -2 ^ 63 ≤ r.target pos ∧ r.target pos < 2 ^ 64 := by
  have hsize := h.size
  have hseek := h.seek
  cases pos with
  | start pos =>
      have hpos := pos.toNat_lt
      dsimp only [target]
      omega
  | fromEnd pos | current pos =>
      have hlow := pos.le_toInt
      have hhigh := pos.toInt_lt
      dsimp only [target]
      omega

/-- What `seek` computes is the target, taken as a signed number, unless
the check of a sum fails. -/
theorem Bounded.seekTarget_eq (h : r.Bounded) (pos : SeekFrom) :
    r.seekTarget b pos
      = if r.SumFits pos ∨ b.overflowChecks = false then
          .ok ((r.target pos).bmod (2 ^ 64))
        else .panic := by
  have hle := (h.target_le pos).1
  have hsize := asI64_of_lt (Nat.lt_trans h.size (by decide))
  have hseek := asI64_of_lt h.seek
  cases pos with
  | start pos =>
      have hfits : r.SumFits (.start pos) := trivial
      rw [if_pos (Or.inl hfits)]
      rfl
  | fromEnd pos =>
      unfold seekTarget
      dsimp only
      rw [hsize]
      exact addI64_eq _ hle
  | current pos =>
      unfold seekTarget
      dsimp only
      rw [hseek]
      exact addI64_eq _ hle

/-- A seek that does not panic is exact: a target beyond the range comes
out as a negative number. -/
theorem Bounded.seekTo_eq (h : r.Bounded) (pos : SeekFrom) :
    r.seekTo b pos
      = if r.SumFits pos ∨ b.overflowChecks = false then r.seekExact pos
        else (.panic, r) := by
  obtain ⟨hle, hlt⟩ := h.target_le pos
  unfold seekTo
  rw [h.seekTarget_eq pos]
  by_cases hfits : r.SumFits pos ∨ b.overflowChecks = false
  · rw [if_pos hfits, if_pos hfits]
    unfold seekExact
    dsimp only
    by_cases hin : r.target pos < 2 ^ 63
    · have hbmod : (r.target pos).bmod (2 ^ 64) = r.target pos :=
        Int.bmod_eq_of_le (by omega) (by omega)
      rw [hbmod]
      by_cases hneg : r.target pos < 0
      · rw [if_pos hneg, if_neg (by omega)]
      · rw [if_neg hneg, if_pos (by omega)]
    · rw [bmod_of_ge (by omega) hlt, if_pos (by omega), if_neg (by omega)]
  · rw [if_neg hfits, if_neg hfits]

/-- So it is exact if and only if the sum fits. -/
theorem Bounded.seekIsExact_iff (h : r.Bounded) (pos : SeekFrom) :
    SeekIsExact b r pos ↔ r.SumFits pos := by
  constructor
  · intro hexact
    by_contra hfits
    refine hexact.noOverflow ?_
    rw [h.seekTarget_eq pos, if_neg (by simpa using hfits)]
  · intro hfits
    constructor
    · rw [h.seekTarget_eq pos, if_pos (Or.inl hfits)]
      exact fun h => nomatch h
    · rw [h.seekTo_eq pos, if_pos (Or.inl hfits)]

-- ============================================================ every run

/-- What is there to move does not reach behind the end of the file. -/
theorem length_available_le (r : ISOFileReader) (seek : Nat) :
    (r.available seek).length ≤ r.size - seek := by
  rw [length_available]
  unfold need BLOCK_SIZE
  rw [lbaAt_sub]
  unfold BLOCK_SIZE
  omega

/-- A read keeps the file and leaves the position at or below whatever
bounds the position and the file. -/
theorem readLoop_bound (rd : ISO9660Reader σ) (bound fuel : Nat) :
    ∀ (r : ISOFileReader) (seek : Nat) (filled rest : List UInt8) (s : σ),
      r.seek ≤ bound → seek ≤ bound → r.size ≤ bound →
      (readLoop rd fuel r seek filled rest s).reader.size = r.size
        ∧ (readLoop rd fuel r seek filled rest s).reader.seek ≤ bound := by
  induction fuel with
  | zero =>
      intro r seek filled rest s hpos hseek _
      unfold readLoop
      split
      · exact ⟨rfl, hpos⟩
      · exact ⟨rfl, hseek⟩
  | succ fuel ih =>
      intro r seek filled rest s hpos hseek hsize
      unfold readLoop
      split
      · rename_i hturn
        dsimp only
        obtain ⟨hpos', -, hsize', -⟩ :=
          refill_frame rd r (r.lbaAt seek) s
        rcases hcall : r.refill rd (r.lbaAt seek) s with ⟨x, r', s'⟩
        rw [hcall] at hpos' hsize'
        dsimp only at hpos' hsize'
        cases x with
        | ok =>
            have hmoved := length_available_le r' seek
            have hnext := ih r' (seek + ((r'.available seek).take
                rest.length).length)
              (filled ++ (r'.available seek).take rest.length)
              (rest.drop ((r'.available seek).take rest.length).length) s'
              (by omega) (by rw [List.length_take]; omega) (by omega)
            rw [hsize'] at hnext
            exact hnext
        | err | panic | running =>
            exact ⟨hsize', hpos'.trans_le hpos⟩
      · exact ⟨rfl, hseek⟩

theorem Bounded.read (h : r.Bounded) (buf : List UInt8) (s : σ) :
    (r.read rd buf s).reader.Bounded := by
  have hsize := h.size
  have hseek := h.seek
  have hframe := readLoop_bound rd (2 ^ 63 - 1) buf.length r r.seek [] buf s
    (by omega) (by omega) (by omega)
  exact ⟨hframe.1.trans_lt hsize, Nat.lt_of_le_pred (by decide) hframe.2⟩

theorem Bounded.seekTo (h : r.Bounded) (pos : SeekFrom) :
    (r.seekTo b pos).2.Bounded := by
  rw [h.seekTo_eq pos]
  split
  · unfold seekExact
    split
    · rename_i hin
      exact ⟨h.size, by dsimp only; omega⟩
    · exact h
  · exact h

end ISOFileReader

variable [DecidableEq ι] {file : ι → ISOFile}

/-- Whatever reads and seeks there have been, also ones that failed. -/
theorem Readers.Run.bounded {Meets : Readers ι σ → ι → Op → Prop}
    {w : Readers ι σ} (hw : Run b rd Meets file w) (i : ι) :
    (w.reader i).Bounded := by
  induction hw generalizing i with
  | start s => exact ⟨(file i).size.toNat_lt, Nat.two_pow_pos 63⟩
  | @step w j op _ _ _ ih =>
      cases op with
      | read buf =>
          simp only [Readers.step]
          by_cases hij : i = j
          · rw [hij, Function.update_self]
            exact (ih j).read buf w.state
          · rw [Function.update_of_ne hij]
            exact ih i
      | seek pos =>
          simp only [Readers.step]
          by_cases hij : i = j
          · rw [hij, Function.update_self]
            exact (ih j).seekTo pos
          · rw [Function.update_of_ne hij]
            exact ih i

/-- In every state that reads and seeks lead to, a seek is exact if and
only if its sum fits. -/
theorem seek_exact_iff {Meets : Readers ι σ → ι → Op → Prop}
    {w : Readers ι σ} (hw : Readers.Run b rd Meets file w) (i : ι)
    (pos : SeekFrom) :
    SeekIsExact b (w.reader i) pos ↔ (w.reader i).SumFits pos :=
  (hw.bounded i).seekIsExact_iff pos

/-- A reader of a file of four bytes, which has been moved to its third. -/
def movedReaders : Readers Unit Nat :=
  ((Readers.opened (fun _ : Unit => wordFile 4) 0).step debugBuild
    ((cursor wordImage).reader debugBuild) () (.seek (.start 2))).2

theorem movedReaders_run : Readers.Run debugBuild
    ((cursor wordImage).reader debugBuild) (fun _ _ _ => True)
    (fun _ => wordFile 4) movedReaders :=
  .step (.start 0) trivial (by decide)

theorem seek_exact_moved :
    SeekIsExact debugBuild (movedReaders.reader ()) (.current (-1)) :=
  (seek_exact_iff movedReaders_run () (.current (-1))).mpr (by decide)

/-- The largest offset from the end of a file that is not empty: the sum
panics where it should be the error. -/
theorem seek_overflows :
    ((wordFile 4).read.seekTo debugBuild (.fromEnd Int64.maxValue)).1
        = .panic
      ∧ ((wordFile 4).read.seekExact (.fromEnd Int64.maxValue)).1
        = .err .invalidSeek
      ∧ ¬ ∀ (w : Readers Unit Nat) (pos : SeekFrom),
          Readers.Run debugBuild ((cursor wordImage).reader debugBuild)
            (fun _ _ _ => True) (fun _ => wordFile 4) w →
          SeekIsExact debugBuild (w.reader ()) pos := by
  refine ⟨by decide, by decide, fun h => ?_⟩
  have hexact := h _ (.fromEnd Int64.maxValue) (.start 0)
  exact hexact.noOverflow (by decide)

end Cdfs
