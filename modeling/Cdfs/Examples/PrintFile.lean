/-
The example `print_file` (`examples/print_file.rs`): a file of an image
on the standard output.

`read_to_end` is the standard library's. It reads into buffers of sizes
of its own choice until a read returns nothing, and reads again where it
was interrupted; the sizes and what counts as interrupted are arguments
here. The number of reads has no bound in the source, so it runs on
turns.
-/
import Cdfs.DirectoryEntry.ISOFile
import Cdfs.ISO9660

namespace Cdfs

open Rust Parse

variable {σ : Type} (b : Build) (rd : ISO9660Reader σ)

/-- How the standard library reads to the end. -/
structure Reading where
  /-- the size of the buffer of the `n`-th read -/
  size : Nat → Nat
  /-- `ErrorKind::Interrupted` -/
  interrupted : IoError → Bool

/-- `read_to_end`, from the `n`-th read on, behind the text so far. -/
def readToEnd (how : Reading) :
    Nat → Nat → ISOFileReader → List UInt8 → σ →
      Outcome IoError Unit × List UInt8 × ISOFileReader × σ
  | 0, _, r, text, s => (.running, text, r, s)
  | turns + 1, n, r, text, s =>
      let done := r.read rd (List.replicate (how.size n) 0) s
      match done.result with
      | .ok count =>
          if count = 0 then (.ok (), text, done.reader, done.state)
          else
            readToEnd how turns (n + 1) done.reader
              (text ++ done.buf.take count) done.state
      | .err e =>
          if how.interrupted e then
            readToEnd how turns (n + 1) done.reader text done.state
          else (.err e, text, done.reader, done.state)
      | .panic => (.panic, text, done.reader, done.state)
      | .running => (.running, text, done.reader, done.state)

/-- What the program reports on failure. -/
inductive PrintError where
  | iso (e : ISOError)
  | io (e : IoError)
  | message (text : String)
  deriving DecidableEq

/-- `main`, behind the opening of the image's file: what is written to the
standard output. -/
def printFile (how : Reading) (fuel turns : Nat) (path : String) (s : σ) :
    Outcome PrintError (List UInt8) :=
  match ISO9660.new b rd fuel s with
  | (.ok fs, s) =>
      match fs.openPath b rd fuel path s with
      | (.ok (some (.file file)), s) =>
          match readToEnd rd how turns 0 file.read [] s with
          | (.ok (), text, _, _) => .ok text
          | (.err e, _, _, _) => .err (.io e)
          | (.panic, _, _, _) => .panic
          | (.running, _, _, _) => .running
      | (.ok (some _), _) => .err (.message (path ++ " is not a file."))
      | (.ok none, _) => .err (.message ("'" ++ path ++ "' not found"))
      | (.err _, _) => .panic -- `unwrap`
      | (.panic, _) => .panic
      | (.running, _) => .running
  | (.err e, _) => .err (.iso e)
  | (.panic, _) => .panic
  | (.running, _) => .running

end Cdfs
