/-
Reading files (`directory_entry/isofile.rs`): `ISOFileReader` with its
one-block buffer, and any number of such readers over one source.

`read` is a loop that fills the caller's buffer from the buffered block,
block by block. Each turn moves at least one byte, so the length of the
caller's buffer bounds the turns and is the loop's fuel. The caller's
buffer is a list; what a call has done to it is part of the result also
where the call fails.

The readers share their source through a `FileRef`, which is the state
that is passed on from one operation to the next.
-/
import Cdfs.DirectoryEntry.Entry
import Cdfs.FileRef

namespace Cdfs

open Rust Parse

variable {σ ι : Type} (b : Build) (rd : ISO9660Reader σ)

/-- Returns the size of the file in bytes. -/
def ISOFile.size (file : ISOFile) : UInt32 := file.header.extentLength

/-- `ISOFileReader`, without the source. -/
structure ISOFileReader where
  buf : BlockBuffer
  bufLba : Option Nat
  seek : Nat
  startLba : UInt32
  size : Nat
  deriving DecidableEq

/-- `ISOFile::read`: a reader for the file. -/
def ISOFile.read (file : ISOFile) : ISOFileReader where
  buf := BlockBuffer.new
  bufLba := none
  seek := 0
  startLba := file.header.extentLoc
  size := file.size.toNat

namespace ISOFileReader

-- ================================================================ `read`

/-- Brings a block into the reader's buffer. The count that `read_at`
reports is dropped, and a failure leaves the tag as it is. -/
def refill (r : ISOFileReader) (lba : Nat) (s : σ) :
    Outcome IoError Unit × ISOFileReader × σ :=
  if r.bufLba ≠ some lba then
    match rd.readAt s r.buf lba with
    | (s, buf, .ok _) => (.ok (), { r with buf, bufLba := some lba }, s)
    | (s, buf, .err e) => (.err e, { r with buf }, s)
    | (s, buf, .panic) => (.panic, { r with buf }, s)
    | (s, buf, .running) => (.running, { r with buf }, s)
  else (.ok (), r, s)

/-- The block that holds a position of the file. -/
def lbaAt (r : ISOFileReader) (seek : Nat) : Nat :=
  r.startLba.toNat + seek / BLOCK_SIZE

/-- `&self.buf[start..end]`: the file's part of the buffered block, from
a position on. The position is inside the file, so that neither the
subtraction nor the slice can fail. -/
def available (r : ISOFileReader) (seek : Nat) : List UInt8 :=
  let start := seek % BLOCK_SIZE
  let stop := min (r.size - seek / BLOCK_SIZE * BLOCK_SIZE) BLOCK_SIZE
  (r.buf.bytes.take stop).drop start

/-- What a call of `read` comes to. -/
structure ReadResult (σ : Type) where
  result : Outcome IoError Nat
  reader : ISOFileReader
  buf : List UInt8
  state : σ

/-- The loop of `read`: `filled` is what it has written of the caller's
buffer, and `rest` what is left of it. -/
def readLoop : Nat → ISOFileReader → Nat → List UInt8 → List UInt8 → σ →
    ReadResult σ
  | fuel, r, seek, filled, rest, s =>
    if rest ≠ [] ∧ seek < r.size then
      match fuel with
      | 0 => ⟨.running, r, filled ++ rest, s⟩
      | fuel + 1 =>
          match r.refill rd (r.lbaAt seek) s with
          | (.ok (), r, s) =>
              -- `write` moves as much as both sides have
              let bytes := (r.available seek).take rest.length
              readLoop fuel r (seek + bytes.length) (filled ++ bytes)
                (rest.drop bytes.length) s
          | (.err e, r, s) => ⟨.err e, r, filled ++ rest, s⟩
          | (.panic, r, s) => ⟨.panic, r, filled ++ rest, s⟩
          | (.running, r, s) => ⟨.running, r, filled ++ rest, s⟩
    else ⟨.ok (seek - r.seek), { r with seek }, filled ++ rest, s⟩

/-- `Read::read`. -/
def read (r : ISOFileReader) (buf : List UInt8) (s : σ) : ReadResult σ :=
  readLoop rd buf.length r r.seek [] buf s

end ISOFileReader

-- ================================================================ `seek`

/-- `SeekFrom`; `fromEnd` is its `End`. -/
inductive SeekFrom where
  | start (pos : UInt64)
  | fromEnd (pos : Int64)
  | current (pos : Int64)
  deriving DecidableEq

/-- The position asked for, in 64-bit signed arithmetic. -/
def ISOFileReader.seekTarget (r : ISOFileReader) :
    SeekFrom → Outcome IoError Int
  | .start pos => .ok (asI64 pos.toNat)
  | .fromEnd pos => addI64 b.overflowChecks (asI64 r.size) pos.toInt
  | .current pos => addI64 b.overflowChecks (asI64 r.seek) pos.toInt

/-- `Seek::seek`. -/
def ISOFileReader.seekTo (r : ISOFileReader) (pos : SeekFrom) :
    Outcome IoError Nat × ISOFileReader :=
  match r.seekTarget b pos with
  | .ok seek =>
      if seek < 0 then (.err .invalidSeek, r)
      else (.ok seek.toNat, { r with seek := seek.toNat })
  | .err e => (.err e, r)
  | .panic => (.panic, r)
  | .running => (.running, r)

-- ========================================================== many readers

/-- Readers that share one source. -/
structure Readers (ι σ : Type) where
  reader : ι → ISOFileReader
  state : σ

/-- An operation on a reader. -/
inductive Op where
  | read (buf : List UInt8)
  | seek (pos : SeekFrom)
  deriving DecidableEq

/-- What an operation returns, with the caller's buffer after it. -/
structure Answer where
  result : Outcome IoError Nat
  buf : List UInt8
  deriving DecidableEq

namespace Readers

variable [DecidableEq ι]

/-- One operation on one of the readers. -/
def step (w : Readers ι σ) (i : ι) : Op → Answer × Readers ι σ
  | .read buf =>
      let done := (w.reader i).read rd buf w.state
      (⟨done.result, done.buf⟩,
        ⟨Function.update w.reader i done.reader, done.state⟩)
  | .seek pos =>
      let (result, r) := (w.reader i).seekTo b pos
      (⟨result, []⟩, ⟨Function.update w.reader i r, w.state⟩)

/-- New readers of some files. -/
def opened (file : ι → ISOFile) (s : σ) : Readers ι σ :=
  ⟨fun i => (file i).read, s⟩

/-- The states that runs of operations lead to, from new readers. Each
operation of a run meets a condition on the state it starts in, and
comes back to its caller. -/
inductive Run (b : Build) (rd : ISO9660Reader σ)
    (Meets : Readers ι σ → ι → Op → Prop) (file : ι → ISOFile) :
    Readers ι σ → Prop
  | start (s : σ) : Run b rd Meets file (opened file s)
  | step {w : Readers ι σ} {i : ι} {op : Op} :
      Run b rd Meets file w → Meets w i op →
      (w.step b rd i op).1.result.Returned →
      Run b rd Meets file (w.step b rd i op).2

end Readers

end Cdfs
