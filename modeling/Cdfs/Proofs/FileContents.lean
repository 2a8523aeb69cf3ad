/-
What a file reader returns, over an image and over a source that may
deliver less than it is asked for.

Over an image that holds the file's extent every refill delivers, and
any number of readers that share the source are arrays of bytes with one
position each (`read_flat`).

The count that `read_at` reports is dropped by the reader. Over a source
of short reads the bytes it returns are the ones stored as long as each
refill delivers the file's part of its block (`read_reports_stored`);
and a short read is enough to make it return others
(`read_fabricates`).
-/
import Cdfs.Proofs.FileReader

namespace Cdfs

open Rust Parse ISOFileReader

variable {σ ι : Type} {b : Build} {rd : ISO9660Reader σ}
  {file : ι → ISOFile}

/-- The byte stored at an address of an image. -/
def storedAt (image : List UInt8) (address : Nat) : Option UInt8 :=
  image[address]?

/-- A block of a 32-bit extent has a byte offset of 64 bits. -/
theorem lbaAt_lt {image : Nat → Option UInt8} {file : ISOFile}
    {r r' : ISOFileReader} (hr : ReaderOf image file r) {seek : Nat}
    (hsize : r'.size = r.size) (hseek : seek < r'.size) :
    r'.lbaAt seek < 2 ^ 53 := by
  have hstart := r'.startLba.toNat_lt
  have hlen := file.size.toNat_lt
  rw [hsize, hr.2.2] at hseek
  unfold lbaAt BLOCK_SIZE
  omega

-- ============================================================== an image

/-- The extents of the files lie inside the image. -/
def Inside (image : List UInt8) (file : ι → ISOFile) : Prop :=
  ∀ i, BLOCK_SIZE * (file i).header.extentLoc.toNat + (file i).size.toNat
    ≤ image.length

/-- The image's block holds what the file has of it. -/
theorem need_le_imageBlock {image : List UInt8} {r : ISOFileReader}
    (hinside : BLOCK_SIZE * r.startLba.toNat + r.size ≤ image.length)
    (seek : Nat) :
    need r (r.lbaAt seek) ≤ (imageBlock image (r.lbaAt seek)).length := by
  rw [length_imageBlock]
  unfold need
  rw [lbaAt_sub]
  unfold lbaAt BLOCK_SIZE at *
  omega

/-- Over an image a refill succeeds and keeps the invariant. -/
theorem refill_image {image : List UInt8} (hserve : rd.ServesImage image)
    {r : ISOFileReader} {seek : Nat}
    (hinside : BLOCK_SIZE * r.startLba.toNat + r.size ≤ image.length)
    (hlba : r.lbaAt seek < 2 ^ 53) (s : σ) :
    (r.refill rd (r.lbaAt seek) s).1 = .ok ()
      ∧ Keeps rd (storedAt image) r (r.lbaAt seek) s := by
  have hread := hserve s r.buf (r.lbaAt seek) hlba
  have hfill : (imageSource image).fill r.buf (r.lbaAt seek)
      = (r.buf.overwrite (imageBlock image (r.lbaAt seek)),
        .ok (imageBlock image (r.lbaAt seek)).length) := rfl
  rw [hfill] at hread
  have hlen := length_imageBlock image (r.lbaAt seek)
  have hneed := need_le_imageBlock hinside seek
  constructor
  · unfold refill
    by_cases htag : r.bufLba = some (r.lbaAt seek)
    · rw [if_neg (not_not.mpr htag)]
    · rw [if_pos htag]
      rcases hcall : rd.readAt s r.buf (r.lbaAt seek) with ⟨s', buf, x⟩
      rw [hcall] at hread
      injection hread with _ hx
      subst hx
      rfl
  · refine keeps_of ?_ ?_
    · intro s' buf c hcall k hk
      rw [hcall] at hread
      injection hread with hbuf _
      have hle : need r (r.lbaAt seek) ≤ BLOCK_SIZE := Nat.min_le_right _ _
      change buf = _ at hbuf
      rw [hbuf, BlockBuffer.getElem?_overwrite _
        (by rw [hlen]; exact Nat.min_le_left _ _) (by omega),
        getElem?_imageBlock _ _ (by omega)]
      rfl
    · intro s' buf x hcall hx
      rw [hcall] at hread
      injection hread with _ hx'
      exact absurd hx' (hx _)

/-- So every read of a file inside the image meets both conditions. -/
theorem readMeets_image {image : List UInt8}
    (hserve : rd.ServesImage image) {file : ISOFile}
    (hinside : BLOCK_SIZE * file.header.extentLoc.toNat + file.size.toNat
      ≤ image.length) {r : ISOFileReader}
    (hr : ReaderOf (storedAt image) file r) (todo : Nat) (s : σ) :
    ReadMeets rd (fun r lba s => (r.refill rd lba s).1 = .ok ()
      ∧ Keeps rd (storedAt image) r lba s) r todo s := by
  refine EachRefill.mono _ _ _ _ _ ?_ (eachRefill_true _ _ _ _ _)
  intro r' seek s hlba hsize hseek _
  refine refill_image hserve ?_ (lbaAt_lt hr hsize hseek) s
  rw [hlba, hsize, hr.2.1, hr.2.2]
  exact hinside

/-- A read returns as many bytes as its buffer takes and the file has from
the reader's position on, and they are the bytes of the image. -/
theorem read_image {image : List UInt8} (hserve : rd.ServesImage image)
    {file : ISOFile} (hinside : BLOCK_SIZE * file.header.extentLoc.toNat
      + file.size.toNat ≤ image.length) {r : ISOFileReader}
    (hr : ReaderOf (storedAt image) file r) (buf : List UInt8) (s : σ) :
    let count := min buf.length (file.size.toNat - r.seek)
    (r.read rd buf s).result = .ok count
      ∧ (r.read rd buf s).buf
        = (image.drop (BLOCK_SIZE * file.header.extentLoc.toNat
            + r.seek)).take count ++ buf.drop count
      ∧ (r.read rd buf s).reader.seek = r.seek + count
      ∧ ReaderOf (storedAt image) file (r.read rd buf s).reader := by
  intro count
  have hmeets := readMeets_image hserve hinside hr buf.length s
  obtain ⟨n, hn⟩ := readLoop_ok buf.length r r.seek [] buf s (Nat.le_refl _)
    (EachRefill.mono _ _ _ _ _ (fun _ _ _ _ _ _ h => h.1) hmeets)
  have hspec := read_spec hr.1 buf s
    (EachRefill.mono _ _ _ _ _ (fun _ _ _ _ _ _ h => h.2) hmeets)
  obtain ⟨hcount, hseek, hstored, hframe, -⟩ := hspec.onOk n hn
  rw [hr.2.2] at hcount
  subst hcount
  refine ⟨hn, ?_, hseek, hspec.holds, hspec.startLba.trans hr.2.1,
    hspec.size.trans hr.2.2⟩
  refine buf_eq_of_frame (fun k hk => ?_) hframe
  rw [hstored k hk, List.getElem?_drop, storedAt, address, hr.2.1,
    Nat.add_assoc]

/-- Whatever is read and wherever to, the readers buffer what is stored. -/
theorem Readers.Run.sound_image [DecidableEq ι] {image : List UInt8}
    (hserve : rd.ServesImage image) (hinside : Inside image file)
    {w : Readers ι σ} (hw : w.Run b rd (fun _ _ _ => True) file) :
    w.Sound (storedAt image) file := by
  refine hw.sound fun w i op hw _ => ?_
  cases op with
  | read buf =>
      exact EachRefill.mono _ _ _ _ _ (fun _ _ _ _ _ _ h => h.2)
        (readMeets_image hserve (hinside i) (hw i) buf.length w.state)
  | seek pos => trivial

/-- What a file is on an image. -/
def bytesOf (image : List UInt8) (file : ISOFile) : List UInt8 :=
  (image.drop (BLOCK_SIZE * file.header.extentLoc.toNat)).take
    file.size.toNat

/-- Readers that share an image are arrays of bytes with one position
each. After any run of reads and seeks a read returns as many bytes as
its buffer takes and the file has from the reader's position on, they
are the bytes of the image, and this reader's position alone moves on,
by their number; a seek moves to the position it returns. -/
theorem read_flat [DecidableEq ι] {image : List UInt8}
    (hserve : rd.ServesImage image) (hinside : Inside image file) {w : Readers ι σ}
    (hw : w.Run b rd (fun _ _ _ => True) file) (i : ι) :
    (∀ buf : List UInt8,
        let pos := (w.reader i).seek
        let count := min buf.length ((file i).size.toNat - pos)
        (w.step b rd i (.read buf)).1
            = ⟨.ok count,
              (image.drop (BLOCK_SIZE * (file i).header.extentLoc.toNat
                + pos)).take count ++ buf.drop count⟩
          ∧ ((w.step b rd i (.read buf)).2.reader i).seek = pos + count
          ∧ ∀ j, j ≠ i →
            (w.step b rd i (.read buf)).2.reader j = w.reader j)
      ∧ ∀ pos t, (w.step b rd i (.seek pos)).1.result = .ok t →
        ((w.step b rd i (.seek pos)).2.reader i).seek = t
          ∧ ∀ j, j ≠ i →
            (w.step b rd i (.seek pos)).2.reader j = w.reader j := by
  have hsound : w.Sound (storedAt image) file :=
    hw.sound_image hserve hinside
  constructor
  · intro buf pos count
    obtain ⟨hresult, hbuf, hseek, -⟩ :=
      read_image hserve (hinside i) (hsound i) buf w.state
    refine ⟨?_, ?_, fun j hj => Function.update_of_ne hj _ _⟩
    · show (⟨_, _⟩ : Answer) = _
      rw [hbuf]
      exact congrArg (Answer.mk · _) hresult
    · show (Function.update w.reader i _ i).seek = _
      rw [Function.update_self]
      exact hseek
  · intro pos t ht
    refine ⟨?_, fun j hj => Function.update_of_ne hj _ _⟩
    show (Function.update w.reader i _ i).seek = _
    rw [Function.update_self]
    exact (seekTo_frame (b := b) (w.reader i) pos).2.1 t ht

/-- Four bytes, and a file that is the last three of them and one that is
all. -/
def wordImage : List UInt8 := [0x77, 0x6F, 0x72, 0x64]

def wordFile (size : UInt32) : ISOFile :=
  ⟨{ letterHeader 0 with extentLength := size }, "A", 1, plainExt⟩

/-- The same four bytes over the end of a block. -/
def borderImage : List UInt8 := List.replicate 2046 0x61 ++ wordImage

/-- Two files from the start of that block on. -/
def borderFile (long : Bool) : ISOFile := wordFile (cond long 2050 4)

/-- The reader of the longer one is moved near to the end of the block. -/
def movedToBorder : Readers Bool Nat :=
  ((Readers.opened borderFile 0).step debugBuild
    ((cursor borderImage).reader debugBuild) true (.seek (.start 2046))).2

/-- Then the other one reads. -/
def readBeside : Answer × Readers Bool Nat :=
  movedToBorder.step debugBuild ((cursor borderImage).reader debugBuild) false
    (.read [0, 0])

/-- And the first reads on, over the end of the block and to the end of
its file. -/
theorem read_flat_border : readBeside.1 = ⟨.ok 2, [0x61, 0x61]⟩
    ∧ (readBeside.2.step debugBuild ((cursor borderImage).reader debugBuild)
        true (.read [0, 0, 0, 0, 0, 0])).1
      = ⟨.ok 4, [0x77, 0x6F, 0x72, 0x64, 0, 0]⟩ := by
  have hserve := cursor_servesImage debugBuild borderImage
  have hinside : Inside borderImage borderFile := by
    unfold Inside
    decide +kernel
  have hopened : Readers.Run debugBuild
      ((cursor borderImage).reader debugBuild) (fun _ _ _ => True) borderFile
      (Readers.opened borderFile 0) := .start 0
  have hmoved : Readers.Run debugBuild ((cursor borderImage).reader debugBuild)
      (fun _ _ _ => True) borderFile movedToBorder :=
    hopened.step trivial (by decide)
  obtain ⟨hseek, -⟩ := (read_flat hserve hinside hopened true).2 (.start 2046)
    2046 (by decide +kernel)
  obtain ⟨hread, -, hframe⟩ := (read_flat hserve hinside hmoved false).1 [0, 0]
  have hfirst : readBeside.1 = ⟨.ok 2, [0x61, 0x61]⟩ :=
    hread.trans (by decide +kernel)
  have hbeside : Readers.Run debugBuild
      ((cursor borderImage).reader debugBuild) (fun _ _ _ => True) borderFile
      readBeside.2 :=
    hmoved.step trivial (show readBeside.1.result.Returned by
      rw [hfirst]
      trivial)
  have hpos : (readBeside.2.reader true).seek = 2046 := by
    rw [← hseek]
    exact congrArg ISOFileReader.seek (hframe true Bool.noConfusion)
  obtain ⟨hlast, -⟩ := (read_flat hserve hinside hbeside true).1
    [0, 0, 0, 0, 0, 0]
  rw [hpos] at hlast
  exact ⟨hfirst, hlast.trans (by decide +kernel)⟩

-- ======================================================== a short source

/-- The bytes that are reported as delivered are the ones stored. Nothing
is said about the rest of the buffer, how many bytes are delivered, or
what a failure does. -/
def ISO9660Reader.Honest (rd : ISO9660Reader σ) (image : List UInt8) : Prop :=
  ∀ (s s' : σ) (buf buf' : BlockBuffer) (lba count : Nat), lba < 2 ^ 53 →
    rd.readAt s buf lba = (s', buf', .ok count) →
    count ≤ BLOCK_SIZE
      ∧ buf'.bytes.take count
        = (image.drop (BLOCK_SIZE * lba)).take count

theorem cursor_honest (b : Build) (image : List UInt8) :
    ((cursor image).reader b).Honest image := by
  intro s s' buf buf' lba count hlba hread
  have hserve := cursor_servesImage b image s buf lba hlba
  rw [hread] at hserve
  injection hserve with hbuf hcount
  injection hcount with hcount
  have hlen := length_imageBlock image lba
  have hle : (imageBlock image lba).length ≤ BLOCK_SIZE := by omega
  change buf' = _ at hbuf
  rw [hbuf, hcount, BlockBuffer.take_overwrite _ hle (Nat.le_refl _),
    List.take_length]
  refine ⟨hle, ?_⟩
  rw [hlen, imageBlock, List.take_eq_take_iff, List.length_drop]
  omega

/-- The refill's call of `read_at`, if it makes one, delivers the file's
part of the block, or it fails without a trace in a buffer that is in
use. -/
def Delivers (rd : ISO9660Reader σ) (r : ISOFileReader) (lba : Nat)
    (s : σ) : Prop :=
  r.bufLba ≠ some lba →
    match (rd.readAt s r.buf lba).2 with
    | (_, .ok count) => need r lba ≤ count
    | (buf, _) => r.bufLba = none ∨ buf = r.buf

/-- An image that holds the extent delivers. -/
theorem delivers_image {image : List UInt8}
    (hserve : rd.ServesImage image) {r : ISOFileReader} {seek : Nat}
    (hinside : BLOCK_SIZE * r.startLba.toNat + r.size ≤ image.length)
    (hlba : r.lbaAt seek < 2 ^ 53) (s : σ) :
    Delivers rd r (r.lbaAt seek) s := by
  intro _
  rw [hserve s r.buf (r.lbaAt seek) hlba]
  exact need_le_imageBlock hinside seek

/-- Every refill of a read delivers. -/
def DeliversAll (rd : ISO9660Reader σ) (w : Readers ι σ) (i : ι) :
    Op → Prop
  | .read buf => ReadMeets rd (Delivers rd) (w.reader i) buf.length w.state
  | .seek _ => True

/-- What an honest source delivers keeps the invariant. -/
theorem keeps_of_delivers {image : List UInt8} (hhonest : rd.Honest image)
    {r : ISOFileReader} {lba : Nat} {s : σ} (hlba : lba < 2 ^ 53)
    (h : Delivers rd r lba s) : Keeps rd (storedAt image) r lba s := by
  by_cases htag : r.bufLba = some lba
  · intro hholds
    unfold refill
    rw [if_neg (not_not.mpr htag)]
    exact hholds
  · have hcall := h htag
    refine keeps_of ?_ ?_
    · intro s' buf count hread k hk
      obtain ⟨-, hsame⟩ := hhonest s s' r.buf buf lba count hlba hread
      rw [hread] at hcall
      have hk' : k < count := Nat.lt_of_lt_of_le hk hcall
      rw [storedAt, ← List.getElem?_drop, ← List.getElem?_take_of_lt hk',
        hsame, List.getElem?_take_of_lt hk']
    · intro s' buf x hread hx
      rw [hread] at hcall
      cases x with
      | ok count => exact absurd rfl (hx count)
      | err | panic | running => exact hcall

theorem keepsAll_of_deliversAll {image : List UInt8}
    (hhonest : rd.Honest image) {w : Readers ι σ}
    (hw : w.Sound (storedAt image) file) {i : ι} {op : Op}
    (h : DeliversAll rd w i op) : KeepsAll rd (storedAt image) w i op := by
  cases op with
  | seek pos => trivial
  | read buf =>
      refine EachRefill.mono _ _ _ _ _ ?_ h
      intro r seek s _ hsize hseek hdel
      exact keeps_of_delivers hhonest (lbaAt_lt (hw i) hsize hseek) hdel

/-- In a run whose refills deliver, every byte that a read reports is the
byte stored at that position of the file. -/
theorem read_reports_stored [DecidableEq ι] {image : List UInt8}
    (hhonest : rd.Honest image) {w : Readers ι σ}
    (hw : w.Run b rd (DeliversAll rd) file) {i : ι} {buf : List UInt8}
    (hnow : DeliversAll rd w i (.read buf)) {n : Nat}
    (hn : (w.step b rd i (.read buf)).1.result = .ok n) :
    ∀ k, k < n → ∃ byte, (w.step b rd i (.read buf)).1.buf[k]? = some byte
      ∧ image[BLOCK_SIZE * (file i).header.extentLoc.toNat
          + ((w.reader i).seek + k)]? = some byte := by
  have hsound : w.Sound (storedAt image) file :=
    hw.sound fun _ _ _ hw h => keepsAll_of_deliversAll hhonest hw h
  obtain ⟨hcount, -, hstored, -, hlen⟩ := (read_spec (hsound i).1 buf w.state
    (keepsAll_of_deliversAll hhonest hsound hnow)).onOk n hn
  intro k hk
  have hbyte := hstored k hk
  have hin : k < ((w.reader i).read rd buf w.state).buf.length := by
    rw [hlen]
    omega
  refine ⟨((w.reader i).read rd buf w.state).buf[k], ?_, ?_⟩
  · exact List.getElem?_eq_getElem hin
  · rw [List.getElem?_eq_getElem hin, storedAt, address,
      (hsound i).2.1] at hbyte
    exact hbyte.symm

/-- Over an empty image a file of four bytes is read as four zeros. -/
theorem read_fabricates :
    ((cursor []).reader debugBuild).Honest []
      ∧ ((Readers.opened (fun _ : Unit => wordFile 4) 0).step debugBuild
          ((cursor []).reader debugBuild) () (.read [1, 2, 3, 4])).1
        = ⟨.ok 4, [0, 0, 0, 0]⟩
      ∧ ∀ address : Nat, ([] : List UInt8)[address]? = none :=
  ⟨cursor_honest debugBuild [], by decide +kernel, fun _ => rfl⟩

/-- Over an image of the right length they are the ones stored, such as
the last. -/
theorem read_reports_word :
    ∃ byte, ((Readers.opened (fun _ : Unit => wordFile 4) 0).step
          debugBuild ((cursor wordImage).reader debugBuild) ()
          (.read [0, 0, 0, 0])).1.buf[3]? = some byte
      ∧ wordImage[BLOCK_SIZE * (wordFile 4).header.extentLoc.toNat
        + ((wordFile 4).read.seek + 3)]? = some byte := by
  have hrun : (Readers.opened (fun _ : Unit => wordFile 4) 0).Run debugBuild
      ((cursor wordImage).reader debugBuild)
      (DeliversAll ((cursor wordImage).reader debugBuild))
      fun _ => wordFile 4 := .start 0
  refine read_reports_stored (cursor_honest debugBuild wordImage) hrun
    (i := ()) ?_ (n := 4) (by decide +kernel) 3 (by omega)
  refine EachRefill.mono _ _ _ _ _ ?_ (eachRefill_true _ _ _ _ _)
  intro r seek s hlba hsize hseek _
  refine delivers_image (cursor_servesImage debugBuild wordImage) ?_
    (lbaAt_lt (readerOf_read (storedAt wordImage) (wordFile 4)) hsize hseek) s
  rw [hlba, hsize]
  decide

end Cdfs
