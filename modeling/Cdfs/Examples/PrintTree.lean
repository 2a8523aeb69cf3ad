/-
The example `print_tree` (`examples/print_tree.rs`): a line for each
entry of a directory, with the lines of a subdirectory behind its own.

What is printed is a list of lines, and it stands beside the outcome
because a panic leaves on the screen what was printed before. The
recursion has no bound in the source, so it runs on turns: one for each
entry that is taken, whichever directory it is taken from.
-/
import Cdfs.ISO9660
import Cdfs.Parse.FileMode

namespace Cdfs

open Rust Parse

-- ============================================================ the texts

/-- `[month repr:short]`. -/
def monthShort (month : Nat) : String :=
  ["Jan", "Feb", "Mar", "Apr", "May", "Jun", "Jul", "Aug", "Sep", "Oct",
    "Nov", "Dec"].getD (month - 1) ""

/-- A number with zeros in front of it, up to a width. -/
def zeroPadded (width n : Nat) : String :=
  let digits := Nat.toDigits 10 n
  String.ofList (List.replicate (width - digits.length) '0' ++ digits)

/-- `[year]`: four digits, and a sign before the year 0. -/
def yearText (year : Int) : String :=
  (if year < 0 then "-" else "") ++ zeroPadded 4 year.natAbs

/-- `[month repr:short] [day] [year] [hour repr:24]:[minute]`. -/
def formatTime (t : OffsetDateTime) : String :=
  monthShort t.date.month ++ " " ++ zeroPadded 2 t.date.day ++ " "
    ++ yearText t.date.year ++ " " ++ zeroPadded 2 t.time.hour ++ ":"
    ++ zeroPadded 2 t.time.minute

/-- `INDENT.repeat(level)`. -/
def indent (level : Nat) : String :=
  String.ofList (List.replicate (2 * level) ' ')

/-- What is printed of a link's target. -/
def targetText : Option String → String
  | some target =>
      if target = "\x00" then ".."
      else if target = "\x01" then "."
      else if target = "" then "‽‽‽"
      else target
  | none => "‽‽‽"

/-- What stands behind the name. -/
def suffix : DirectoryEntry → String
  | .directory _ => "/"
  | .file _ => ""
  | .symlink link => " → " ++ targetText link.target

/-- The time that is printed: for a link that of the directory it is
in. -/
def printedTime (dir : ISODirectory) : DirectoryEntry → OffsetDateTime
  | .symlink _ => (DirectoryEntry.directory dir).modifyTime
  | entry => entry.modifyTime

section Program

variable {σ : Type} (b : Build) (rd : ISO9660Reader σ)

/-- The mode, where there is one. -/
def modeText : Option UInt32 → Outcome ISOError String
  | some mode => do
      let text ← PosixFileMode.display b mode
      .ok (text ++ " ")
  | none => .ok ""

/-- The line of an entry. -/
def entryLine (dir : ISODirectory) (level : Nat) (entry : DirectoryEntry) :
    Outcome ISOError String := do
  let mode ← modeText b entry.mode
  .ok (mode ++ " " ++ formatTime (printedTime dir entry) ++ " "
    ++ indent level ++ entry.identifier ++ suffix entry)

-- ============================================================ the program

/-- The directory itself and its parent, which are passed over. -/
def passedOver : DirectoryEntry → Bool
  | .directory dir => dir.identifier == "." || dir.identifier == ".."
  | _ => false

/-- The loop of `print_tree` over the rest of a directory, behind the
lines printed so far. -/
def printFrom (fuel : Nat) :
    Nat → ISODirectory → Nat → ISODirectoryIterator → List String → σ →
      Outcome ISOError Unit × List String × σ
  | 0, _, _, _, out, s => (.running, out, s)
  | turns + 1, dir, level, it, out, s =>
      match it.next b rd fuel dir s with
      | (none, _, s) => (.ok (), out, s)
      | (some (.ok entry), it, s) =>
          if passedOver entry then
            printFrom fuel turns dir level it out s
          else
            match entryLine b dir level entry with
            | .ok line =>
                match entry with
                | .directory sub =>
                    match printFrom fuel turns sub (level + 1) contents
                      (out ++ [line]) s with
                    | (.ok (), out, s) =>
                        printFrom fuel turns dir level it out s
                    | stopped => stopped
                | _ => printFrom fuel turns dir level it (out ++ [line]) s
            | .err e => (.err e, out, s)
            | .panic => (.panic, out, s)
            | .running => (.running, out, s)
      | (some (.err _), _, s) => (.panic, out, s) -- `unwrap`
      | (some .panic, _, s) => (.panic, out, s)
      | (some .running, _, s) => (.running, out, s)

/-- `print_tree`. -/
def printTree (fuel turns : Nat) (dir : ISODirectory) (level : Nat)
    (s : σ) : Outcome ISOError Unit × List String × σ :=
  printFrom b rd fuel turns dir level contents [] s

end Program

end Cdfs
