/-
Block sources (`fileref.rs`). An `ISO9660Reader` is anything that
answers `read_at`: it may change its own state and the buffer, and then
reports a count or an error. Nothing ties the count to the buffer, nor
one call to the next; a theorem about a well-behaved source says so.

Sources come in two further strengths. A `Source` is a repeatable one:
what it delivers for a block number is the same on every call. An image
is a `Source` made of bytes. `FileRef` shares one reader between the
objects that read through it, so in the model the reader's state is
passed from call to call beside theirs.
-/
import Cdfs.Crate

namespace Cdfs

open Rust

-- ============================================================= readers

/-- The trait: read the block at a logical block address into a buffer.
The result is the new state, the new buffer and the count reported. -/
structure ISO9660Reader (σ : Type) where
  readAt : σ → BlockBuffer → Nat → σ × BlockBuffer × Outcome IoError Nat

/-- `From<io::Error> for ISOError`. -/
def liftIo {α : Type} : Outcome IoError α → Outcome ISOError α
  | .ok a => .ok a
  | .err e => .err (.io e)
  | .panic => .panic
  | .running => .running

-- ==================================================== repeatable sources

/-- A source that delivers the same bytes for a block on every call. -/
structure Source where
  deliver : Nat → Outcome IoError (List UInt8)
  atMostBlock : ∀ {lba : Nat} {bs : List UInt8},
    deliver lba = .ok bs → bs.length ≤ BLOCK_SIZE

namespace Source

/-- What a read does to the buffer, and what it reports: the delivered
bytes go to the front, and a failed read changes nothing. -/
def fill (src : Source) (buf : BlockBuffer) (lba : Nat) :
    BlockBuffer × Outcome IoError Nat :=
  match src.deliver lba with
  | .ok bs => (buf.overwrite bs, .ok bs.length)
  | .err e => (buf, .err e)
  | .panic => (buf, .panic)
  | .running => (buf, .running)

/-- The reader that has no state of its own. -/
def reader (src : Source) : ISO9660Reader Unit where
  readAt _ buf lba := ((), src.fill buf lba)

end Source

/-- The reader answers as the source does, whatever its state. -/
def ISO9660Reader.Serves {σ : Type} (rd : ISO9660Reader σ) (src : Source) :
    Prop :=
  ∀ (s : σ) (buf : BlockBuffer) (lba : Nat),
    (rd.readAt s buf lba).2 = src.fill buf lba

theorem Source.reader_serves (src : Source) : src.reader.Serves src :=
  fun _ _ _ => rfl

/-- The bytes of block `lba` of an image; the last block may be partial. -/
def imageBlock (image : List UInt8) (lba : Nat) : List UInt8 :=
  (image.drop (BLOCK_SIZE * lba)).take BLOCK_SIZE

theorem length_imageBlock (image : List UInt8) (lba : Nat) :
    (imageBlock image lba).length
      = min BLOCK_SIZE (image.length - BLOCK_SIZE * lba) := by
  rw [imageBlock, List.length_take, List.length_drop]

theorem getElem?_imageBlock (image : List UInt8) (lba : Nat) {k : Nat}
    (hk : k < BLOCK_SIZE) :
    (imageBlock image lba)[k]? = image[BLOCK_SIZE * lba + k]? := by
  rw [imageBlock, List.getElem?_take_of_lt hk, List.getElem?_drop]

/-- An image as a source. -/
def imageSource (image : List UInt8) : Source where
  deliver lba := .ok (imageBlock image lba)
  atMostBlock h := by
    injection h with h
    rw [← h]
    exact List.length_take_le _ _

-- ===================================================== `Read` and `Seek`

/-- The two standard traits, as far as a block source needs them. -/
structure ReadSeek (σ : Type) where
  /-- `seek(SeekFrom::Start(pos))` -/
  seekStart : σ → Nat → σ × Outcome IoError Nat
  read : σ → BlockBuffer → σ × BlockBuffer × Outcome IoError Nat

/-- The blanket implementation: every `Read + Seek` is a block source. -/
def ReadSeek.reader {σ : Type} (b : Build) (rs : ReadSeek σ) :
    ISO9660Reader σ where
  readAt s buf lba :=
    if lba * BLOCK_SIZE < 2 ^ 64 ∨ b.overflowChecks = false then
      match rs.seekStart s (lba * BLOCK_SIZE % 2 ^ 64) with
      | (s, .ok _) => rs.read s buf
      | (s, .err e) => (s, buf, .err e)
      | (s, .panic) => (s, buf, .panic)
      | (s, .running) => (s, buf, .running)
    else (s, buf, .panic)

/-- `io::Cursor` over the bytes of an image; its state is its position. -/
def cursor (image : List UInt8) : ReadSeek Nat where
  seekStart _ pos := (pos, .ok pos)
  read pos buf :=
    let bs := (image.drop pos).take BLOCK_SIZE
    (pos + bs.length, buf.overwrite bs, .ok bs.length)

/-- The source that a shared cursor is: the image, and for blocks with
a byte offset beyond 64 bits whatever the multiplication comes to. -/
def cursorSource (b : Build) (image : List UInt8) : Source where
  deliver lba :=
    if lba * BLOCK_SIZE < 2 ^ 64 ∨ b.overflowChecks = false then
      .ok ((image.drop (lba * BLOCK_SIZE % 2 ^ 64)).take BLOCK_SIZE)
    else .panic
  atMostBlock {lba bs} h := by
    split at h
    · injection h with h
      rw [← h]
      exact List.length_take_le _ _
    · cases h

/-- A cursor answers alike wherever it was left. -/
theorem cursor_serves (b : Build) (image : List UInt8) :
    ((cursor image).reader b).Serves (cursorSource b image) := by
  intro s buf lba
  simp only [ReadSeek.reader, cursor, Source.fill, cursorSource]
  split
  · rfl
  · rfl

/-- Blocks with a byte offset of 64 bits are those of the image. -/
theorem cursorSource_deliver (b : Build) (image : List UInt8) {lba : Nat}
    (hlba : lba < 2 ^ 53) :
    (cursorSource b image).deliver lba = .ok (imageBlock image lba) := by
  have hoff : lba * BLOCK_SIZE < 2 ^ 64 := by
    show lba * 2048 < 2 ^ 64
    omega
  have hmod : lba * BLOCK_SIZE % 2 ^ 64 = BLOCK_SIZE * lba := by
    rw [Nat.mod_eq_of_lt hoff, Nat.mul_comm]
  simp only [cursorSource, if_pos (Or.inl hoff), hmod]
  rfl

/-- The reader answers as the image does, for every block whose byte
offset is a 64-bit number. -/
def ISO9660Reader.ServesImage {σ : Type} (rd : ISO9660Reader σ)
    (image : List UInt8) : Prop :=
  ∀ (s : σ) (buf : BlockBuffer) (lba : Nat), lba < 2 ^ 53 →
    (rd.readAt s buf lba).2 = (imageSource image).fill buf lba

theorem cursor_servesImage (b : Build) (image : List UInt8) :
    ((cursor image).reader b).ServesImage image := by
  intro s buf lba hlba
  rw [cursor_serves b image s buf lba]
  unfold Source.fill
  rw [cursorSource_deliver b image hlba]
  rfl

end Cdfs
