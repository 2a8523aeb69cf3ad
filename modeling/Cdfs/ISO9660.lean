/-
The filesystem (`lib.rs`): the scan of the volume descriptors, the two
roots and the choice between them, and `open`.

The scan has no bound of its own and reads on until a block ends it, so
it runs on fuel. It keeps what it found last of each kind (`Scan`), and
how a descriptor changes that is a function of the descriptor alone
(`Scan.step`).
-/
import Cdfs.DirectoryEntry.ISODirectory
import Cdfs.Parse.VolumeDescriptor

namespace Cdfs

open Rust Parse

variable {σ : Type} (b : Build) (rd : ISO9660Reader σ)

/-- A mounted image; the reader is passed beside it. -/
structure ISO9660 where
  root : ISODirectory
  supRoot : Option ISODirectory
  primary : VolumeDescriptor
  deriving DecidableEq

-- ============================================================= the scan

/-- What `new` has collected of the descriptors so far: two root records
with their identifiers, and the primary descriptor. -/
structure Scan where
  root : Option (DirectoryEntryHeader × String)
  primary : Option VolumeDescriptor
  supRoot : Option (DirectoryEntryHeader × String)
  deriving DecidableEq

/-- What a descriptor says to the scan. -/
inductive ScanStep where
  | next (acc : Scan)
  | stop
  | invalid

/-- The scan after one more descriptor. -/
def Scan.step (acc : Scan) (descriptor : Option VolumeDescriptor) :
    ScanStep :=
  match descriptor with
  | some (.primary table) =>
      if table.logicalBlockSize.toNat ≠ BLOCK_SIZE then .invalid
      else .next { acc with
        root := some (table.rootDirectoryEntry,
          table.rootDirectoryEntryIdentifier)
        primary := descriptor }
  | some (.supplementary table) =>
      if table.logicalBlockSize.toNat ≠ BLOCK_SIZE then .invalid
      else .next { acc with
        supRoot := some (table.rootDirectoryEntry,
          table.rootDirectoryEntryIdentifier) }
  | some .volumeDescriptorSetTerminator => .stop
  | _ => .next acc

/-- The loop over the descriptors from a block on. -/
def scan : Nat → Scan → BlockBuffer → Nat → σ → Outcome ISOError Scan × σ
  | 0, _, _, _, s => (.running, s)
  | fuel + 1, acc, buf, lba, s =>
      match rd.readAt s buf lba with
      | (s, buf, .ok count) =>
          if count ≠ BLOCK_SIZE then (.err (.readSize count), s)
          else
            match VolumeDescriptor.parse b buf.bytes with
            | .ok descriptor =>
                match acc.step descriptor with
                | .next acc =>
                    match (addW 64 b.overflowChecks lba 1 :
                        Outcome ISOError Nat) with
                    | .ok lba => scan fuel acc buf lba s
                    | .err e => (.err e, s)
                    | .panic => (.panic, s)
                    | .running => (.running, s)
                | .stop => (.ok acc, s)
                | .invalid => (.err (.invalidFs "Block size not 2048"), s)
            | .err e => (.err e, s)
            | .panic => (.panic, s)
            | .running => (.running, s)
      | (s, _, .err e) => (.err (.io e), s)
      | (s, _, .panic) => (.panic, s)
      | (s, _, .running) => (.running, s)

/-- The directory that a root record stands for. -/
def rootDirectory (root : DirectoryEntryHeader × String) : ISODirectory :=
  ISODirectory.new root.1 ExtraMeta.default root.2

/-- What becomes of the scan. -/
def Scan.finish (acc : Scan) : Outcome ISOError ISO9660 :=
  match acc.root, acc.primary with
  | some root, some primary =>
      .ok { root := rootDirectory root
            supRoot := acc.supRoot.map rootDirectory
            primary }
  | _, _ => .err (.invalidFs "No primary volume descriptor")

/-- `ISO9660::new`: the descriptors from block 16 on, behind the system
area. -/
def ISO9660.new (fuel : Nat) (s : σ) : Outcome ISOError ISO9660 × σ :=
  match scan b rd fuel ⟨none, none, none⟩ BlockBuffer.new 16 s with
  | (acc, s) => (acc >>= Scan.finish, s)

-- ======================================================== the properties

namespace ISO9660

/-- `primary_prop_str`: a text of the primary descriptor. -/
def primaryPropStr (prop : VolumeDescriptorTable → String) (iso : ISO9660) :
    Outcome ISOError String :=
  match iso.primary with
  | .primary table => .ok (prop table)
  | _ => .panic

def volumeSetIdentifier := primaryPropStr (·.volumeSetIdentifier)

def publisherIdentifier := primaryPropStr (·.publisherIdentifier)

def dataPreparerIdentifier := primaryPropStr (·.dataPreparerIdentifier)

def applicationIdentifier := primaryPropStr (·.applicationIdentifier)

def copyrightFileIdentifier := primaryPropStr (·.copyrightFileIdentifier)

def abstractFileIdentifier := primaryPropStr (·.abstractFileIdentifier)

def bibliographicFileIdentifier :=
  primaryPropStr (·.bibliographicFileIdentifier)

-- ============================================================ the roots

/-- `is_rr`: whether the first entry of the primary root says so. Every
other answer of the iterator, an error as well, is a no. -/
def isRr (fuel : Nat) (iso : ISO9660) (s : σ) : Outcome ISOError Bool × σ :=
  match contents.next b rd fuel iso.root s with
  | (some (.ok (.directory dirent)), _, s) => (.ok dirent.isRockRidge, s)
  | (some .panic, _, s) => (.panic, s)
  | (some .running, _, s) => (.running, s)
  | (_, _, s) => (.ok false, s) -- again

/-- `root`: the most featureful one. -/
def mainRoot (fuel : Nat) (iso : ISO9660) (s : σ) :
    Outcome ISOError ISODirectory × σ :=
  match iso.isRr b rd fuel s with
  | (.ok true, s) => (.ok iso.root, s)
  | (.ok false, s) =>
      match iso.supRoot with
      | some supRoot => (.ok supRoot, s)
      | none => (.ok iso.root, s)
  | (.err e, s) => (.err e, s)
  | (.panic, s) => (.panic, s)
  | (.running, s) => (.running, s)

/-- `open`. -/
def openPath (fuel : Nat) (iso : ISO9660) (path : String) (s : σ) :
    Outcome ISOError (Option DirectoryEntry) × σ :=
  match iso.mainRoot b rd fuel s with
  | (.ok root, s) => findRecursive b rd fuel root path s
  | (.err e, s) => (.err e, s)
  | (.panic, s) => (.panic, s)
  | (.running, s) => (.running, s)

end ISO9660

end Cdfs
