/-
The file reader against the bytes of an image.

The invariant is about the buffered block: as far as the file reaches
into the block that the tag names, the buffer holds the bytes stored
there (`Holds`). It is lost by a refill that does not deliver those
bytes, and by nothing else. So the account of `read` (`readLoop_spec`)
is conditional on its refills, one by one (`EachRefill`).

Over an image the condition is always met, which makes any number of
readers over one source an array of bytes with a position for each
reader (`read_flat`). Over a source that may deliver less than a block
the condition is a real one, because the count that `read_at` reports is
dropped: `read_reports_stored` is about runs that meet it.
-/
import Cdfs.DirectoryEntry.ISOFile
import Cdfs.Proofs.Layout

namespace Cdfs

open Rust Parse

variable {σ ι : Type} {b : Build} {rd : ISO9660Reader σ}

namespace ISOFileReader

-- ========================================================= the invariant

/-- How many bytes of a block belong to the file. -/
def need (r : ISOFileReader) (lba : Nat) : Nat :=
  min (r.size - (lba - r.startLba.toNat) * BLOCK_SIZE) BLOCK_SIZE

/-- The address of a position of the file. -/
def address (r : ISOFileReader) (pos : Nat) : Nat :=
  BLOCK_SIZE * r.startLba.toNat + pos

/-- The buffer holds the file's part of the block that the tag names.
`image` is the byte stored at an address, if there is one. -/
def Holds (image : Nat → Option UInt8) (r : ISOFileReader) : Prop :=
  ∀ lba, r.bufLba = some lba → ∀ k, k < need r lba →
    r.buf.bytes[k]? = image (BLOCK_SIZE * lba + k)

theorem holds_read (image : Nat → Option UInt8) (file : ISOFile) :
    Holds image file.read := by
  intro lba h
  cases h

/-- A reader of a file, with the invariant. -/
def ReaderOf (image : Nat → Option UInt8) (file : ISOFile)
    (r : ISOFileReader) : Prop :=
  Holds image r ∧ r.startLba = file.header.extentLoc
    ∧ r.size = file.size.toNat

theorem readerOf_read (image : Nat → Option UInt8) (file : ISOFile) :
    ReaderOf image file file.read :=
  ⟨holds_read image file, rfl, rfl⟩

/-- Position and buffer are independent. -/
theorem Holds.withSeek {image : Nat → Option UInt8} {r : ISOFileReader}
    (h : Holds image r) (seek : Nat) : Holds image { r with seek } := h

/-- The refill keeps the invariant. -/
def Keeps (rd : ISO9660Reader σ) (image : Nat → Option UInt8)
    (r : ISOFileReader) (lba : Nat) (s : σ) : Prop :=
  Holds image r → Holds image (r.refill rd lba s).2.1

-- =============================================================== refills

theorem lbaAt_sub (r : ISOFileReader) (seek : Nat) :
    r.lbaAt seek - r.startLba.toNat = seek / BLOCK_SIZE :=
  Nat.add_sub_cancel_left _ _

/-- A refill changes the buffer and its tag only, and it succeeds with
the block's tag. -/
theorem refill_frame (rd : ISO9660Reader σ) (r : ISOFileReader)
    (lba : Nat) (s : σ) :
    (r.refill rd lba s).2.1.seek = r.seek
      ∧ (r.refill rd lba s).2.1.startLba = r.startLba
      ∧ (r.refill rd lba s).2.1.size = r.size
      ∧ ((r.refill rd lba s).1 = .ok () →
        (r.refill rd lba s).2.1.bufLba = some lba) := by
  unfold refill
  by_cases htag : r.bufLba = some lba
  · rw [if_neg (not_not.mpr htag)]
    exact ⟨rfl, rfl, rfl, fun _ => htag⟩
  · rw [if_pos htag]
    rcases rd.readAt s r.buf lba with ⟨s', buf, x⟩
    cases x with
    | ok c => exact ⟨rfl, rfl, rfl, fun _ => rfl⟩
    | err | panic | running =>
        exact ⟨rfl, rfl, rfl, fun h => nomatch h⟩

/-- A refill keeps the invariant if it delivers the file's part of the
block, or fails without a trace in a buffer that is in use. -/
theorem keeps_of {image : Nat → Option UInt8} {r : ISOFileReader}
    {lba : Nat} {s : σ}
    (hok : ∀ s' buf c, rd.readAt s r.buf lba = (s', buf, .ok c) →
      ∀ k, k < need r lba → buf.bytes[k]? = image (BLOCK_SIZE * lba + k))
    (hfail : ∀ s' buf x, rd.readAt s r.buf lba = (s', buf, x) →
      (∀ c, x ≠ .ok c) → r.bufLba = none ∨ buf = r.buf) :
    Keeps rd image r lba s := by
  intro hholds
  unfold refill
  by_cases htag : r.bufLba = some lba
  · rw [if_neg (not_not.mpr htag)]
    exact hholds
  · rw [if_pos htag]
    rcases hcall : rd.readAt s r.buf lba with ⟨s', buf, x⟩
    -- a failed refill has changed nothing that the tag speaks of
    have hkept : (∀ c, x ≠ .ok c) → Holds image { r with buf } := by
      intro hx
      rcases hfail s' buf x hcall hx with hnone | hsame
      · intro lba' h
        change r.bufLba = some lba' at h
        rw [hnone] at h
        cases h
      · rw [hsame]
        exact hholds
    cases x with
    | ok c =>
        intro lba' h k hk
        injection h with h
        subst h
        exact hok s' buf c hcall k hk
    | err | panic | running => exact hkept fun c h => nomatch h

-- ============================================================ the buffer

/-- The part of the buffered block from a position on, byte by byte. -/
theorem available_getElem? (r : ISOFileReader) (seek k : Nat)
    (hk : k < (r.available seek).length) :
    (r.available seek)[k]? = r.buf.bytes[seek % BLOCK_SIZE + k]? := by
  unfold available at hk ⊢
  rw [List.length_drop, List.length_take] at hk
  rw [List.getElem?_drop, List.getElem?_take_of_lt (by omega)]

theorem length_available (r : ISOFileReader) (seek : Nat) :
    (r.available seek).length
      = need r (r.lbaAt seek) - seek % BLOCK_SIZE := by
  have hsize := r.buf.size
  unfold available need
  rw [List.length_drop, List.length_take, lbaAt_sub, hsize]
  omega

/-- Inside the file there is something to move. -/
theorem available_pos (r : ISOFileReader) (seek : Nat)
    (h : seek < r.size) : 0 < (r.available seek).length := by
  rw [length_available]
  unfold need
  rw [lbaAt_sub]
  unfold BLOCK_SIZE
  omega

/-- With the right block buffered, what is moved is what is stored. -/
theorem available_stored {image : Nat → Option UInt8} {r : ISOFileReader}
    {seek : Nat} (hholds : Holds image r)
    (htag : r.bufLba = some (r.lbaAt seek)) (k : Nat)
    (hk : k < (r.available seek).length) :
    (r.available seek)[k]? = image (r.address (seek + k)) := by
  rw [available_getElem? r seek k hk]
  rw [length_available] at hk
  rw [hholds _ htag (seek % BLOCK_SIZE + k) (by omega)]
  congr 1
  unfold address lbaAt BLOCK_SIZE
  omega

-- ============================================================== the loop

/-- The condition holds of every refill that the loop makes. -/
def EachRefill (rd : ISO9660Reader σ)
    (P : ISOFileReader → Nat → σ → Prop) :
    Nat → ISOFileReader → Nat → Nat → σ → Prop
  | fuel, r, seek, todo, s =>
    if todo ≠ 0 ∧ seek < r.size then
      match fuel with
      | 0 => True
      | fuel + 1 =>
          P r (r.lbaAt seek) s
            ∧ match r.refill rd (r.lbaAt seek) s with
              | (.ok (), r, s) =>
                  let count := min todo (r.available seek).length
                  EachRefill rd P fuel r (seek + count) (todo - count) s
              | _ => True
    else True

/-- The same for a call of `read` with a buffer of some length. -/
def ReadMeets (rd : ISO9660Reader σ) (P : ISOFileReader → Nat → σ → Prop)
    (r : ISOFileReader) (todo : Nat) (s : σ) : Prop :=
  EachRefill rd P todo r r.seek todo s

/-- A condition may be replaced by one that follows from it wherever a
refill can be made. -/
theorem EachRefill.mono {P Q : ISOFileReader → Nat → σ → Prop}
    (fuel : Nat) :
    ∀ (r : ISOFileReader) (seek todo : Nat) (s : σ),
      (∀ (r' : ISOFileReader) (seek' : Nat) (s' : σ),
        r'.startLba = r.startLba → r'.size = r.size → seek' < r'.size →
        P r' (r'.lbaAt seek') s' → Q r' (r'.lbaAt seek') s') →
      EachRefill rd P fuel r seek todo s →
      EachRefill rd Q fuel r seek todo s := by
  induction fuel with
  | zero =>
      intro r seek todo s _ _
      unfold EachRefill
      split
      · trivial
      · trivial
  | succ fuel ih =>
      intro r seek todo s hPQ hP
      unfold EachRefill at hP ⊢
      split
      · rename_i hturn
        rw [if_pos hturn] at hP
        refine ⟨hPQ r seek s rfl rfl hturn.2 hP.1, ?_⟩
        obtain ⟨-, hlba, hsize, -⟩ :=
          refill_frame rd r (r.lbaAt seek) s
        have hrest := hP.2
        rcases hcall : r.refill rd (r.lbaAt seek) s with ⟨x, r', s'⟩
        rw [hcall] at hlba hsize hrest
        cases x with
        | ok u =>
            refine ih r' _ _ s' (fun r'' seek'' s'' hl hs hlt => ?_) hrest
            exact hPQ r'' seek'' s'' (hl.trans hlba) (hs.trans hsize) hlt
        | err | panic | running => trivial
      · trivial

theorem eachRefill_true (fuel : Nat) :
    ∀ (r : ISOFileReader) (seek todo : Nat) (s : σ),
      EachRefill rd (fun _ _ _ => True) fuel r seek todo s := by
  induction fuel with
  | zero =>
      intro r seek todo s
      unfold EachRefill
      split
      · trivial
      · trivial
  | succ fuel ih =>
      intro r seek todo s
      unfold EachRefill
      split
      · refine ⟨trivial, ?_⟩
        rcases r.refill rd (r.lbaAt seek) s with ⟨x, r', s'⟩
        cases x with
        | ok u => exact ih r' _ _ s'
        | err | panic | running => trivial
      · trivial

/-- What a call of `read` has come to, against the bytes stored. -/
structure Spec (image : Nat → Option UInt8) (r : ISOFileReader)
    (orig : List UInt8) (res : ReadResult σ) : Prop where
  holds : Holds image res.reader
  startLba : res.reader.startLba = r.startLba
  size : res.reader.size = r.size
  /-- a count is as large as the file and the buffer allow, and that many
  bytes are as stored -/
  onOk : ∀ n, res.result = .ok n →
    n = min orig.length (r.size - r.seek)
      ∧ res.reader.seek = r.seek + n
      ∧ (∀ k, k < n → res.buf[k]? = image (r.address (r.seek + k)))
      ∧ res.buf.drop n = orig.drop n ∧ res.buf.length = orig.length

/-- A buffer is what was read into it, and after that what it held. -/
theorem buf_eq_of_frame {buf orig bytes : List UInt8} {n : Nat}
    (hread : ∀ k, k < n → buf[k]? = bytes[k]?)
    (hframe : buf.drop n = orig.drop n) :
    buf = bytes.take n ++ orig.drop n := by
  have htake : buf.take n = bytes.take n := by
    apply List.ext_getElem?
    intro k
    rcases Nat.lt_or_ge k n with hk | hk
    · rw [List.getElem?_take_of_lt hk, List.getElem?_take_of_lt hk, hread k hk]
    · rw [List.getElem?_take, List.getElem?_take,
        if_neg (Nat.not_lt.mpr hk), if_neg (Nat.not_lt.mpr hk)]
  rw [← htake, ← hframe, List.take_append_drop]

/-- What holds at the head of the loop: of the caller's buffer `orig`, as
much is filled as the position has moved, with the bytes stored. -/
structure Filled (image : Nat → Option UInt8) (r : ISOFileReader)
    (orig : List UInt8) (seek : Nat) (filled : List UInt8) : Prop where
  seek_eq : seek = r.seek + filled.length
  le_length : filled.length ≤ orig.length
  inside : filled.length ≤ r.size - r.seek
  stored : ∀ k, k < filled.length →
    filled[k]? = image (r.address (r.seek + k))

/-- The loop ends with the count that the file and the buffer allow. -/
theorem Filled.count_eq {image : Nat → Option UInt8} {r : ISOFileReader}
    {orig filled : List UInt8} {seek : Nat}
    (h : Filled image r orig seek filled)
    (hend : ¬ (orig.drop filled.length ≠ [] ∧ seek < r.size)) :
    filled.length = min orig.length (r.size - r.seek) := by
  obtain ⟨hseek, hle, hin, -⟩ := h
  rw [not_and_or, not_not, List.drop_eq_nil_iff] at hend
  omega

/-- So the result is as specified. -/
theorem spec_done {image : Nat → Option UInt8} {r : ISOFileReader}
    {orig filled : List UInt8} {seek : Nat} {s : σ}
    (hholds : Holds image r) (h : Filled image r orig seek filled)
    (hend : ¬ (orig.drop filled.length ≠ [] ∧ seek < r.size)) :
    Spec image r orig
      (⟨.ok (seek - r.seek), { r with seek },
        filled ++ orig.drop filled.length, s⟩ : ReadResult σ) where
  holds := hholds.withSeek seek
  startLba := rfl
  size := rfl
  onOk := by
    intro n hn
    injection hn with hn
    have hcount := h.count_eq hend
    obtain ⟨hseek, hle, -, hstored⟩ := h
    have hn' : n = filled.length := by omega
    subst hn'
    refine ⟨hcount, hseek, ?_, ?_, ?_⟩
    · intro k hk
      rw [List.getElem?_append_left hk]
      exact hstored k hk
    · rw [List.drop_left]
    · rw [List.length_append, List.length_drop]
      omega

/-- A failed refill ends the call. -/
theorem spec_failed {image : Nat → Option UInt8} {r r' : ISOFileReader}
    {orig buf : List UInt8} {x : Outcome IoError Nat} {s : σ}
    (hholds : Holds image r') (hlba : r'.startLba = r.startLba)
    (hsize : r'.size = r.size) (hx : ∀ n, x ≠ .ok n) :
    Spec image r orig (⟨x, r', buf, s⟩ : ReadResult σ) where
  holds := hholds
  startLba := hlba
  size := hsize
  onOk := fun n hn => absurd hn (hx n)

/-- The specification reads the reader's position and extent only. -/
theorem Spec.of_frame {image : Nat → Option UInt8} {r r' : ISOFileReader}
    {orig : List UInt8} {res : ReadResult σ} (h : Spec image r' orig res)
    (hseek : r'.seek = r.seek) (hlba : r'.startLba = r.startLba)
    (hsize : r'.size = r.size) : Spec image r orig res := by
  obtain ⟨hholds, hl, hs, hok⟩ := h
  have haddress : ∀ pos, r'.address pos = r.address pos := by
    intro pos
    unfold address
    rw [hlba]
  refine ⟨hholds, hl.trans hlba, hs.trans hsize, fun n hn => ?_⟩
  have h := hok n hn
  rw [hseek, hsize] at h
  simp only [haddress] at h
  exact h

/-- One turn fills more. -/
theorem Filled.more {image : Nat → Option UInt8} {r r' : ISOFileReader}
    {orig filled : List UInt8} {seek : Nat}
    (h : Filled image r orig seek filled) (hseek : r'.seek = r.seek)
    (hlba : r'.startLba = r.startLba) (hsize : r'.size = r.size)
    (hholds : Holds image r') (htag : r'.bufLba = some (r'.lbaAt seek)) :
    Filled image r' orig
      (seek + ((r'.available seek).take
        (orig.drop filled.length).length).length)
      (filled ++ (r'.available seek).take
        (orig.drop filled.length).length) := by
  obtain ⟨hpos, hle, hin, hstored⟩ := h
  have hlen := length_available r' seek
  have hneed : need r' (r'.lbaAt seek)
      ≤ r.size - seek / BLOCK_SIZE * BLOCK_SIZE := by
    unfold need
    rw [lbaAt_sub, hsize]
    exact Nat.min_le_left _ _
  have hdiv := Nat.div_add_mod seek BLOCK_SIZE
  refine ⟨?_, ?_, ?_, ?_⟩
  · rw [hseek, List.length_append]
    omega
  · rw [List.length_append, List.length_take, List.length_drop]
    omega
  · rw [hsize, hseek, List.length_append, List.length_take, hlen]
    unfold BLOCK_SIZE at *
    omega
  · intro k hk
    have haddress : ∀ pos, r'.address pos = r.address pos := by
      intro pos
      unfold address
      rw [hlba]
    rw [hseek, haddress]
    rcases Nat.lt_or_ge k filled.length with hold | hnew
    · rw [List.getElem?_append_left hold]
      exact hstored k hold
    · rw [List.length_append, List.length_take] at hk
      rw [List.getElem?_append_right hnew,
        List.getElem?_take_of_lt (by omega),
        available_stored hholds htag _ (by omega), haddress]
      congr 2
      omega

/-- The loop, from its head. The fuel is at least as long as the caller's
buffer still is. -/
theorem readLoop_spec {image : Nat → Option UInt8} (orig : List UInt8)
    (fuel : Nat) :
    ∀ (r : ISOFileReader) (seek : Nat) (filled : List UInt8) (s : σ),
      Holds image r → Filled image r orig seek filled →
      orig.length - filled.length ≤ fuel →
      EachRefill rd (Keeps rd image) fuel r seek
        (orig.length - filled.length) s →
      Spec image r orig
        (readLoop rd fuel r seek filled (orig.drop filled.length) s) := by
  induction fuel with
  | zero =>
      intro r seek filled s hholds hfilled hfuel _
      have hend : ¬ (orig.drop filled.length ≠ [] ∧ seek < r.size) := by
        rintro ⟨hne, -⟩
        exact hne (List.drop_eq_nil_iff.mpr (by omega))
      unfold readLoop
      rw [if_neg hend]
      exact spec_done hholds hfilled hend
  | succ fuel ih =>
      intro r seek filled s hholds hfilled hfuel heach
      unfold readLoop
      by_cases hturn : orig.drop filled.length ≠ [] ∧ seek < r.size
      · have hrest : filled.length < orig.length := by
          by_contra hge
          exact hturn.1 (List.drop_eq_nil_iff.mpr (by omega))
        have hcond : orig.length - filled.length ≠ 0 ∧ seek < r.size :=
          ⟨by omega, hturn.2⟩
        unfold EachRefill at heach
        rw [if_pos hcond] at heach
        obtain ⟨hkeeps, heach⟩ := heach
        have hholds' := hkeeps hholds
        obtain ⟨hseek, hlba, hsize, htag⟩ :=
          refill_frame rd r (r.lbaAt seek) s
        rw [if_pos hturn]
        dsimp only
        rcases hcall : r.refill rd (r.lbaAt seek) s with ⟨x, r', s'⟩
        rw [hcall] at hholds' hseek hlba hsize htag heach
        dsimp only at hholds' hseek hlba hsize htag
        cases x with
        | ok u =>
            have hlbaAt : r.lbaAt seek = r'.lbaAt seek := by
              unfold lbaAt
              rw [hlba]
            have hmore := hfilled.more hseek hlba hsize hholds'
              (hlbaAt ▸ htag rfl)
            have hpos := available_pos r' seek
              (by rw [hsize]; exact hturn.2)
            have hlen : ((r'.available seek).take
                (orig.drop filled.length).length).length
                = min (orig.length - filled.length)
                  (r'.available seek).length := by
              rw [List.length_take, List.length_drop]
            have htodo : orig.length - filled.length
                  - min (orig.length - filled.length)
                    (r'.available seek).length
                = orig.length - (filled ++ (r'.available seek).take
                  (orig.drop filled.length).length).length := by
              rw [List.length_append, hlen]
              omega
            dsimp only at heach
            rw [htodo, ← hlen] at heach
            dsimp only
            rw [List.drop_drop, ← List.length_append]
            exact (ih r' _ _ s' hholds' hmore
              (by rw [← htodo]; omega) heach).of_frame hseek hlba hsize
        | err | panic | running =>
            exact spec_failed hholds' hlba hsize fun n h => nomatch h
      · rw [if_neg hturn]
        exact spec_done hholds hfilled hturn

/-- A call of `read` on a reader with the invariant. -/
theorem read_spec {image : Nat → Option UInt8} {r : ISOFileReader}
    (hholds : Holds image r) (buf : List UInt8) (s : σ)
    (heach : ReadMeets rd (Keeps rd image) r buf.length s) :
    Spec image r buf (r.read rd buf s) := by
  refine readLoop_spec buf buf.length r r.seek [] s hholds
    ⟨rfl, Nat.zero_le _, Nat.zero_le _, ?_⟩ (Nat.le_refl _) heach
  intro k hk
  exact absurd hk (Nat.not_lt_zero k)

/-- If every refill succeeds the loop comes to its end. -/
theorem readLoop_ok (fuel : Nat) :
    ∀ (r : ISOFileReader) (seek : Nat) (filled rest : List UInt8) (s : σ),
      rest.length ≤ fuel →
      EachRefill rd (fun r lba s => (r.refill rd lba s).1 = .ok ()) fuel r
        seek rest.length s →
      ∃ n, (readLoop rd fuel r seek filled rest s).result = .ok n := by
  induction fuel with
  | zero =>
      intro r seek filled rest s hfuel _
      have hnil : rest = [] := List.length_eq_zero_iff.mp (by omega)
      unfold readLoop
      rw [if_neg fun h => h.1 hnil]
      exact ⟨_, rfl⟩
  | succ fuel ih =>
      intro r seek filled rest s hfuel heach
      unfold readLoop
      by_cases hturn : rest ≠ [] ∧ seek < r.size
      · have hlen := List.length_pos_iff.mpr hturn.1
        unfold EachRefill at heach
        rw [if_pos ⟨by omega, hturn.2⟩] at heach
        obtain ⟨hok, heach⟩ := heach
        obtain ⟨-, -, hsize, -⟩ :=
          refill_frame rd r (r.lbaAt seek) s
        rw [if_pos hturn]
        dsimp only
        rcases hcall : r.refill rd (r.lbaAt seek) s with ⟨x, r', s'⟩
        rw [hcall] at hok heach hsize
        dsimp only at hok hsize
        subst hok
        have hpos := available_pos r' seek
          (by rw [hsize]; exact hturn.2)
        dsimp only at heach ⊢
        rw [List.length_take]
        refine ih r' _ _ _ s' (by rw [List.length_drop]; omega) ?_
        rw [List.length_drop]
        exact heach
      · rw [if_neg hturn]
        exact ⟨_, rfl⟩

/-- If the loop comes to its end every refill has succeeded. -/
theorem eachRefill_of_ok (fuel : Nat) :
    ∀ (r : ISOFileReader) (seek : Nat) (filled rest : List UInt8) (s : σ)
      {n : Nat}, (readLoop rd fuel r seek filled rest s).result = .ok n →
      EachRefill rd (fun r lba s => (r.refill rd lba s).1 = .ok ()) fuel r
        seek rest.length s := by
  induction fuel with
  | zero =>
      intro r seek filled rest s n _
      unfold EachRefill
      split
      · trivial
      · trivial
  | succ fuel ih =>
      intro r seek filled rest s n hn
      unfold EachRefill
      split
      · rename_i hturn
        have hne : rest ≠ [] := fun h => hturn.1 (by rw [h]; rfl)
        unfold readLoop at hn
        rw [if_pos ⟨hne, hturn.2⟩] at hn
        dsimp only at hn
        rcases hcall : r.refill rd (r.lbaAt seek) s with ⟨x, r', s'⟩
        rw [hcall] at hn
        cases x with
        | ok u =>
            refine ⟨rfl, ?_⟩
            dsimp only at hn ⊢
            have heach := ih r' _ _ _ s' hn
            rw [List.length_drop, List.length_take] at heach
            exact heach
        | err | panic | running => cases hn
      · trivial

/-- A call that fails leaves the position as it was. -/
theorem readLoop_failure (fuel : Nat) :
    ∀ (r : ISOFileReader) (seek : Nat) (filled rest : List UInt8) (s : σ),
      (∀ n, (readLoop rd fuel r seek filled rest s).result ≠ .ok n) →
      (readLoop rd fuel r seek filled rest s).reader.seek = r.seek := by
  induction fuel with
  | zero =>
      intro r seek filled rest s hfail
      unfold readLoop at hfail ⊢
      by_cases hturn : rest ≠ [] ∧ seek < r.size
      · rw [if_pos hturn]
      · rw [if_neg hturn] at hfail
        exact absurd rfl (hfail _)
  | succ fuel ih =>
      intro r seek filled rest s hfail
      unfold readLoop at hfail ⊢
      by_cases hturn : rest ≠ [] ∧ seek < r.size
      · rw [if_pos hturn] at hfail ⊢
        have hseek := (refill_frame rd r (r.lbaAt seek) s).1
        dsimp only at hfail ⊢
        rcases hcall : r.refill rd (r.lbaAt seek) s with ⟨x, r', s'⟩
        rw [hcall] at hfail hseek
        cases x with
        | ok u => exact (ih r' _ _ _ s' hfail).trans hseek
        | err | panic | running => exact hseek
      · rw [if_neg hturn] at hfail
        exact absurd rfl (hfail _)

/-- Whatever is delivered, the caller's buffer keeps its length, and the
count is within it. -/
theorem readLoop_length (fuel : Nat) :
    ∀ (r : ISOFileReader) (seek : Nat) (filled rest : List UInt8) (s : σ)
      {n : Nat}, seek = r.seek + filled.length →
      (readLoop rd fuel r seek filled rest s).result = .ok n →
      n ≤ (readLoop rd fuel r seek filled rest s).buf.length := by
  induction fuel with
  | zero =>
      intro r seek filled rest s n hseek hn
      unfold readLoop at hn ⊢
      by_cases hturn : rest ≠ [] ∧ seek < r.size
      · rw [if_pos hturn] at hn
        cases hn
      · rw [if_neg hturn] at hn ⊢
        injection hn with hn
        rw [List.length_append]
        omega
  | succ fuel ih =>
      intro r seek filled rest s n hseek hn
      unfold readLoop at hn ⊢
      by_cases hturn : rest ≠ [] ∧ seek < r.size
      · rw [if_pos hturn] at hn ⊢
        dsimp only at hn ⊢
        have hsame := (refill_frame rd r (r.lbaAt seek) s).1
        rcases hcall : r.refill rd (r.lbaAt seek) s with ⟨x, r', s'⟩
        rw [hcall] at hn hsame
        cases x with
        | ok u =>
            refine ih r' _ _ _ s' ?_ hn
            rw [hsame, hseek, List.length_append]
            omega
        | err | panic | running => cases hn
      · rw [if_neg hturn] at hn ⊢
        injection hn with hn
        rw [List.length_append]
        omega

-- ================================================================ `seek`

/-- A seek moves the position and nothing else. -/
theorem seekTo_frame (r : ISOFileReader) (pos : SeekFrom) :
    (r.seekTo b pos).2 = { r with seek := (r.seekTo b pos).2.seek }
      ∧ (∀ t, (r.seekTo b pos).1 = .ok t → (r.seekTo b pos).2.seek = t)
      ∧ ((∀ t, (r.seekTo b pos).1 ≠ .ok t) →
        (r.seekTo b pos).2.seek = r.seek) := by
  unfold seekTo
  cases r.seekTarget b pos with
  | ok seek =>
      dsimp only
      split
      · exact ⟨rfl, (fun t h => nomatch h), fun _ => rfl⟩
      · refine ⟨rfl, fun t h => ?_, fun h => absurd rfl (h _)⟩
        injection h
  | err | panic | running =>
      exact ⟨rfl, (fun t h => nomatch h), fun _ => rfl⟩

/-- A seek to a position that is a signed number moves there. -/
theorem seekTo_start (r : ISOFileReader) {pos : UInt64}
    (h : pos.toNat < 2 ^ 63) :
    r.seekTo b (.start pos) = (.ok pos.toNat, { r with seek := pos.toNat }) := by
  unfold seekTo seekTarget
  dsimp only
  rw [asI64_of_lt h, if_neg (by omega), Int.toNat_natCast]

end ISOFileReader

-- ================================================================== runs

open ISOFileReader

variable [DecidableEq ι] {file : ι → ISOFile}

/-- Each reader has the invariant and is a reader of its own file. -/
def Readers.Sound (image : Nat → Option UInt8) (file : ι → ISOFile)
    (w : Readers ι σ) : Prop :=
  ∀ i, Holds image (w.reader i)
    ∧ (w.reader i).startLba = (file i).header.extentLoc
    ∧ (w.reader i).size = (file i).size.toNat

/-- Every refill of a read keeps the invariant. -/
def KeepsAll (rd : ISO9660Reader σ) (image : Nat → Option UInt8)
    (w : Readers ι σ) (i : ι) : Op → Prop
  | .read buf =>
      ReadMeets rd (Keeps rd image) (w.reader i) buf.length w.state
  | .seek _ => True

/-- One operation. -/
theorem Readers.Sound.step {image : Nat → Option UInt8} {w : Readers ι σ}
    (h : w.Sound image file) (i : ι) (op : Op)
    (hkeeps : KeepsAll rd image w i op) :
    (w.step b rd i op).2.Sound image file := by
  obtain ⟨hholds, hlba, hsize⟩ := h i
  -- the other readers are as they were
  have hother : ∀ (r : ISOFileReader) (s : σ), Holds image r →
      r.startLba = (w.reader i).startLba → r.size = (w.reader i).size →
      (⟨Function.update w.reader i r, s⟩ : Readers ι σ).Sound image
        file := by
    intro r s hr hl hs j
    dsimp only
    by_cases hj : j = i
    · subst hj
      rw [Function.update_self]
      exact ⟨hr, hl.trans hlba, hs.trans hsize⟩
    · rw [Function.update_of_ne hj]
      exact h j
  cases op with
  | read buf =>
      have hspec := read_spec hholds buf w.state hkeeps
      exact hother _ _ hspec.holds hspec.startLba hspec.size
  | seek pos =>
      have hframe := (seekTo_frame (b := b) (w.reader i) pos).1
      have hholds' : Holds image ((w.reader i).seekTo b pos).2 := by
        rw [hframe]
        exact hholds.withSeek _
      have hlba' := congrArg startLba hframe
      have hsize' := congrArg size hframe
      exact hother _ _ hholds' hlba' hsize'

/-- A run whose refills keep the invariant keeps it for every reader. -/
theorem Readers.Run.sound {image : Nat → Option UInt8}
    {Meets : Readers ι σ → ι → Op → Prop}
    (hmeets : ∀ w i op, w.Sound image file → Meets w i op →
      KeepsAll rd image w i op)
    {w : Readers ι σ} (hw : Run b rd Meets file w) :
    w.Sound image file := by
  induction hw with
  | start s => exact fun i => readerOf_read image (file i)
  | step _ hmeet _ ih => exact ih.step _ _ (hmeets _ _ _ ih hmeet)

end Cdfs
