/-
Reading directories (`directory_entry/isodirectory.rs`).

`readEntryAt` is cut at its source's own seams: the block cache
(`loadBlock`), the record parse, the continuation areas
(`splitContinuation`, `pullContinuations`) and what follows from the
collected entries without any more reading (`finishEntry`). Offsets,
block numbers and block addresses are 64-bit in the source; they are
natural numbers here because nothing computed from a 32-bit extent and
a 64-bit offset comes near `2 ^ 64` (the largest address is
`2 ^ 32 + 2 ^ 53`, the largest offset produced is below `2 ^ 33`).

The loop over continuation areas has no bound in the source, so it runs
on fuel, and `running` says that the fuel ended first.
-/
import Cdfs.DirectoryEntry.Entry
import Cdfs.FileRef
import Cdfs.Rust.Path

namespace Cdfs

open Rust Parse

variable {σ : Type} (b : Build) (rd : ISO9660Reader σ)

/-- The number of blocks that hold the directory: the ceiling of
`len / BLOCK_SIZE`, computed in 32 bits. -/
def ISODirectory.blockCount (dir : ISODirectory) : Outcome ISOError Nat := do
  let sum ← addW 32 b.overflowChecks dir.header.extentLength.toNat BLOCK_SIZE
  let sum ← subW 32 b.overflowChecks sum 1
  .ok (sum / BLOCK_SIZE)

-- ======================================================= the block cache

/-- The caller's `block` and `buf_block_num`. -/
structure BlockCache where
  block : BlockBuffer
  bufBlockNum : Option Nat
  deriving DecidableEq

/-- A cache with nothing in it. -/
def BlockCache.new : BlockCache := ⟨BlockBuffer.new, none⟩

/-- Brings a block of the directory's extent into the cache. A short
read empties the cache; a failed read leaves its tag as it is. -/
def loadBlock (dir : ISODirectory) (cache : BlockCache) (blockNum : Nat)
    (s : σ) : Outcome ISOError Unit × BlockCache × σ :=
  if cache.bufBlockNum ≠ some blockNum then
    let lba := dir.header.extentLoc.toNat + blockNum
    match rd.readAt s cache.block lba with
    | (s, block, .ok count) =>
        if count ≠ 2048 then (.err (.readSize count), ⟨block, none⟩, s)
        else (.ok (), ⟨block, some blockNum⟩, s)
    | (s, block, .err e) => (.err (.io e), { cache with block }, s)
    | (s, block, .panic) => (.panic, { cache with block }, s)
    | (s, block, .running) => (.running, { cache with block }, s)
  else (.ok (), cache, s)

-- ================================================== continuation areas

/-- The record's own entries without its `CE` entries, and the last of
those. -/
def splitContinuation (susp : Option (List SystemUseEntry)) :
    List SystemUseEntry × Option ContinuationArea :=
  match susp with
  | some susp =>
      susp.foldl (fun (susp, continuation) entry =>
        match entry with
        | .continuationArea cont => (susp, some cont)
        | entry => (susp ++ [entry], continuation)) ([], none)
  | none => ([], none)

/-- The first `CE` entry and the list without it. -/
def removeContinuation : List SystemUseEntry →
    Option ContinuationArea × List SystemUseEntry
  | [] => (none, [])
  | .continuationArea cont :: susp => (some cont, susp)
  | entry :: susp =>
      let (cont, susp) := removeContinuation susp
      (cont, entry :: susp)

/-- The entries of one continuation area: the block is read into a
fresh buffer, and the area is cut out of it. -/
def readContinuation (cont : ContinuationArea) (s : σ) :
    Outcome ISOError (List SystemUseEntry) × σ :=
  let lba := cont.blockLocation.toNat
  match rd.readAt s BlockBuffer.new lba with
  | (s, block, count) =>
      (do
        let count ← liftIo count
        Outcome.assert b.assertions
          (count == 2048 || count == cont.length.toNat)
        -- `&block[0..length]`
        if cont.length.toNat ≤ BLOCK_SIZE then
          let data := block.bytes.take cont.length.toNat
          let (_, contSusp) ← liftNom (systemUseEntries b data)
          .ok contSusp
        else .panic, s)

/-- Pull in all the continuations. -/
def pullContinuations : Nat → List SystemUseEntry →
    Option ContinuationArea → σ → Outcome ISOError (List SystemUseEntry) × σ
  | _, susp, none, s => (.ok susp, s)
  | 0, _, some _, s => (.running, s)
  | fuel + 1, susp, some cont, s =>
      match readContinuation b rd cont s with
      | (.ok contSusp, s) =>
          let (cont, susp) := removeContinuation (susp ++ contSusp)
          pullContinuations fuel susp cont s
      | (.err e, s) => (.err e, s)
      | (.panic, s) => (.panic, s)
      | (.running, s) => (.running, s)

-- ============================================================ the entry

/-- Where the record after this one is: all bytes after the last record
of a block are zero, and a record needs 33 bytes. -/
def nextPosition (block : BlockBuffer) (blockNum blockPos : Nat) :
    Nat × Nat :=
  if blockPos ≥ 2048 - 33 || block.bytes.getD blockPos 0 == 0 then
    (blockNum + 1, 0)
  else (blockNum, blockPos)

/-- The directory that a `CL` entry stands for: the dummy file's header,
moved to the block the entry names, with the length of one block. -/
def relocate (file : ISOFile) (cl : ChildLink) : ISODirectory :=
  ISODirectory.new
    { file.header with
      fileFlags := file.header.fileFlags ||| FileFlags.DIRECTORY
      extentLoc := cl.lba
      extentLength := 2048 }
    file.ext file.identifier

/-- Everything after the system use entries are complete. -/
def finishEntry (dir : ISODirectory) (block : BlockBuffer)
    (blockNum blockPos : Nat) (header : DirectoryEntryHeader)
    (identifier : String) (susp : List SystemUseEntry) :
    Outcome ISOError (DirectoryEntry × Option Nat) := do
  let ext ← extraMeta b susp
  let blockPos := blockPos + header.length.toNat
  let entry ← DirectoryEntry.new header ext identifier
  let (blockNum, blockPos) := nextPosition block blockNum blockPos
  let blockCount ← dir.blockCount b
  let nextOffset :=
    if blockNum < blockCount then some (2048 * blockNum + blockPos) else none
  match childLink susp with
  | some cl =>
      match entry with
      | .file file => .ok (.directory (relocate file cl), nextOffset)
      | _ => .panic
  | none => .ok (entry, nextOffset)

/-- The record at a position of the cached block, with its continuation
areas. -/
def decodeEntry (fuel : Nat) (dir : ISODirectory) (block : BlockBuffer)
    (blockNum blockPos : Nat) (s : σ) :
    Outcome ISOError (DirectoryEntry × Option Nat) × σ :=
  match DirectoryEntryHeader.parse b (block.bytes.drop blockPos)
      dir.header.characterEncoding with
  | .ok (header, identifier, susp) =>
      let (susp, cont) := splitContinuation susp
      let (susp, s) := pullContinuations b rd fuel susp cont s
      (do
        let susp ← susp
        finishEntry b dir block blockNum blockPos header identifier susp, s)
  | .err e => (.err e, s)
  | .panic => (.panic, s)
  | .running => (.running, s)

/-- `ISODirectory::read_entry_at`. -/
def readEntryAt (fuel : Nat) (dir : ISODirectory) (cache : BlockCache)
    (offset : Nat) (s : σ) :
    Outcome ISOError (DirectoryEntry × Option Nat) × BlockCache × σ :=
  let blockNum := offset / BLOCK_SIZE
  let blockPos := offset % BLOCK_SIZE
  match loadBlock rd dir cache blockNum s with
  | (.ok (), cache, s) =>
      let (r, s) := decodeEntry b rd fuel dir cache.block blockNum blockPos s
      (r, cache, s)
  | (.err e, cache, s) => (.err e, cache, s)
  | (.panic, cache, s) => (.panic, cache, s)
  | (.running, cache, s) => (.running, cache, s)

-- ========================================================== the iterator

/-- `ISODirectoryIterator`; the directory is an argument of `next`. -/
structure ISODirectoryIterator where
  nextOffset : Option Nat
  cache : BlockCache
  deriving DecidableEq

/-- `ISODirectory::contents`. -/
def contents : ISODirectoryIterator := ⟨some 0, BlockCache.new⟩

/-- `Iterator::next`. The item is the outcome of the call: `Ok` and
`Err` are what the iterator yields, and with the other two the caller
does not get the control back. -/
def ISODirectoryIterator.next (fuel : Nat) (dir : ISODirectory)
    (it : ISODirectoryIterator) (s : σ) :
    Option (Outcome ISOError DirectoryEntry) × ISODirectoryIterator × σ :=
  match it.nextOffset with
  | none => (none, it, s)
  | some offset =>
      match readEntryAt b rd fuel dir it.cache offset s with
      | (.ok (entry, nextOffset), cache, s) =>
          (some (.ok entry), { nextOffset, cache }, s)
      | (.err e, cache, s) => (some (.err e), { it with cache }, s)
      | (.panic, cache, s) => (some .panic, { it with cache }, s)
      | (.running, cache, s) => (some .running, { it with cache }, s)

/-- The iterator and the source after `n` calls of `next`. -/
def iterate (fuel : Nat) (dir : ISODirectory) :
    Nat → ISODirectoryIterator → σ → ISODirectoryIterator × σ
  | 0, it, s => (it, s)
  | n + 1, it, s =>
      let (_, it, s) := it.next b rd fuel dir s
      iterate fuel dir n it s

/-- What the `n`-th call of `next` on `contents()` returns, from 0. -/
def item (fuel : Nat) (dir : ISODirectory) (s : σ) (n : Nat) :
    Option (Outcome ISOError DirectoryEntry) :=
  let (it, s) := iterate b rd fuel dir n contents s
  (it.next b rd fuel dir s).1

-- =============================================================== lookup

/-- The test of `find` on one entry: not an associated file, and the
name asked for up to the case of ASCII letters. -/
def matchesName (name : String) (entry : DirectoryEntry) : Bool :=
  !contains entry.header.fileFlags FileFlags.ASSOCIATED_FILE
    && eqIgnoreAsciiCase entry.identifier name

/-- The loop of `find`, for as many calls of `next` as there is fuel. -/
def findFrom (fuel : Nat) (dir : ISODirectory) (name : String) :
    Nat → ISODirectoryIterator → σ →
      Outcome ISOError (Option DirectoryEntry) × σ
  | 0, _, s => (.running, s)
  | calls + 1, it, s =>
      match it.next b rd fuel dir s with
      | (none, _, s) => (.ok none, s)
      | (some (.ok entry), it, s) =>
          if matchesName name entry then (.ok (some entry), s)
          else findFrom fuel dir name calls it s
      | (some (.err e), _, s) => (.err e, s)
      | (some .panic, _, s) => (.panic, s)
      | (some .running, _, s) => (.running, s)

/-- `ISODirectory::find`. -/
def find (fuel : Nat) (dir : ISODirectory) (name : String) (s : σ) :
    Outcome ISOError (Option DirectoryEntry) × σ :=
  findFrom b rd fuel dir name fuel contents s

/-- The walk of `find_recursive`, from an entry along the segments. -/
def findSegments (fuel : Nat) :
    List String → DirectoryEntry → σ →
      Outcome ISOError (Option DirectoryEntry) × σ
  | [], entry, s => (.ok (some entry), s)
  | segment :: segments, entry, s =>
      match entry with
      | .directory parent =>
          match find b rd fuel parent segment s with
          | (.ok (some entry), s) => findSegments fuel segments entry s
          | (.ok none, s) => (.ok none, s)
          | (.err e, s) => (.err e, s)
          | (.panic, s) => (.panic, s)
          | (.running, s) => (.running, s)
      | _ => (.ok none, s)

/-- `ISODirectory::find_recursive`. -/
def findRecursive (fuel : Nat) (dir : ISODirectory) (path : String) (s : σ) :
    Outcome ISOError (Option DirectoryEntry) × σ :=
  findSegments b rd fuel (segments path) (.directory dir) s

/-- `ISODirectory::is_rock_ridge`. -/
def ISODirectory.isRockRidge (dir : ISODirectory) : Bool :=
  decide (SuspExtension.rockRidge1_09 ∈ dir.ext.extensions)
    || decide (SuspExtension.rockRidge1_12 ∈ dir.ext.extensions)

end Cdfs
