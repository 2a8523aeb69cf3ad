/-
The FUSE filesystem (`cdfs-fuse/src/bin/cdfs_fuse.rs`).

A handler is a function from the state of the filesystem and its
arguments to what it sends and the state behind it. `ok` is a reply of
the kind its request has, `err` is `reply.error`; a handler that panics
sends nothing, and `running` is the answer where a call of the library
has not come back. The image's file is a field of the state: all the
directories and readers in it share that file.

Inode numbers and handles are 64-bit in the source. They are natural
numbers here: every increment is behind a comparison with `u64::MAX`.
Logging is left out, as are the arguments no handler reads.
-/
import Cdfs.DirectoryEntry.ExtraAttributes
import Cdfs.DirectoryEntry.ISOFile
import Cdfs.ISO9660
import Mathlib.Logic.Function.Basic

namespace Cdfs

open Rust Parse

-- ========================================================= the interface

/-- The error numbers of `libc` that are replied. -/
inductive Errno where
  | EINVAL
  | EIO
  | EISDIR
  | ENFILE
  | ENOENT
  | ENOTDIR
  | ENOTSUP
  deriving DecidableEq, Repr

/-- `fuser::FileType`, as far as there are entries of the type. -/
inductive FileType where
  | directory
  | regularFile
  | symlink
  deriving DecidableEq, Repr

/-- `fuser::FileAttr`. -/
structure FileAttr where
  ino : Nat
  size : Nat
  blocks : Nat
  atime : OffsetDateTime
  mtime : OffsetDateTime
  ctime : OffsetDateTime
  crtime : OffsetDateTime
  kind : FileType
  perm : UInt16
  nlink : Nat
  uid : UInt32
  gid : UInt32
  rdev : Nat
  flags : Nat
  blksize : Nat
  deriving DecidableEq

/-- One entry of a directory listing; the offset is where the listing
goes on behind it. -/
structure Dirent where
  ino : Nat
  offset : Int64
  kind : FileType
  name : String
  deriving DecidableEq

/-- The buffer of a `ReplyDirectory`: whether it takes one more entry on
top of those it has. -/
abbrev Capacity : Type := List Dirent → Dirent → Bool

inductive Reply where
  | entry (attr : FileAttr)
  | attr (attr : FileAttr)
  | data (bytes : List UInt8)
  | opened (fh : Nat)
  | ok
  | directory (listing : List Dirent)
  /-- `forget` is not replied to. -/
  | silent
  deriving DecidableEq

inductive Request where
  | lookup (parent : Nat) (name : List UInt8)
  | forget (ino nlookup : Nat)
  | getattr (ino : Nat)
  | readlink (ino : Nat)
  | openFile (ino : Nat)
  | read (fh : Nat) (offset : Int64) (size : UInt32)
  | release (fh : Nat)
  | opendir (ino : Nat)
  | getxattr
  | readdir (fh : Nat) (offset : Int64) (accepts : Capacity)
  | releasedir (fh : Nat)

/-- `u64::MAX`. -/
abbrev u64Max : Nat := 2 ^ 64 - 1

/-- What the program runs on: the build, the image's file, the effective
user and group, and the fuel for the loops of the library. -/
structure Host (σ : Type) where
  build : Build
  reader : ISO9660Reader σ
  euid : UInt32
  egid : UInt32
  fuel : Nat

variable {σ : Type} (host : Host σ)

-- ============================================================ attributes

/-- `entry_to_filetype`. -/
def entryToFiletype : DirectoryEntry → FileType
  | .directory _ => .directory
  | .file _ => .regularFile
  | .symlink _ => .symlink

/-- `get_fileattr`. -/
def getFileattr (ino : Nat) (entry : DirectoryEntry) :
    Outcome Errno FileAttr := do
  let blksize := BLOCK_SIZE
  -- ceil(len / blksize), in 32 bits
  let sum ← addW 32 host.build.overflowChecks
    entry.header.extentLength.toNat blksize
  let sum ← subW 32 host.build.overflowChecks sum 1
  let perm :=
    match entry.mode with
    | some mode => permissions mode
    | none =>
        match entry with
        | .directory _ => 0o555
        | .file _ => 0o444
        | .symlink _ => 0o444
  .ok { ino
        size := entry.header.extentLength.toNat
        blocks := sum / blksize
        atime := entry.accessTime
        mtime := entry.modifyTime
        ctime := entry.attributeChangeTime
        crtime := entry.createTime
        kind := entryToFiletype entry
        perm
        nlink := 1
        uid := entry.owner.getD host.euid
        gid := entry.group.getD host.egid
        rdev := 0
        flags := 0
        blksize }

-- ============================================================= the state

/-- A mounted filesystem. -/
structure ISOFuse (σ : Type) where
  file : σ
  inodes : Nat → Option DirectoryEntry
  inodeNumber : Nat
  inodeAutogenerated : Bool
  directoryNumber : Nat
  fileNumber : Nat
  openDirectories : Nat → Option ISODirectory
  openFiles : Nat → Option ISOFileReader

/-- `fuser::FUSE_ROOT_ID`. -/
abbrev FUSE_ROOT_ID : Nat := 1

namespace ISOFuse

/-- The state behind a successful `new`. -/
def mounted (file : σ) (root : ISODirectory) (inodeAutogenerated : Bool) :
    ISOFuse σ where
  file
  inodes := Function.update (fun _ => none) FUSE_ROOT_ID
    (some (.directory root))
  inodeNumber := FUSE_ROOT_ID + 1
  inodeAutogenerated
  directoryNumber := 0
  fileNumber := 0
  openDirectories := fun _ => none
  openFiles := fun _ => none

/-- What `new` does once the image is parsed. -/
def mount (iso : ISO9660) (s : σ) : Outcome ISOError (ISOFuse σ) :=
  match iso.mainRoot host.build host.reader host.fuel s with
  | (.ok root, s) =>
      match contents.next host.build host.reader host.fuel root s with
      | (some (.ok slashdot), _, s) =>
          match iso.isRr host.build host.reader host.fuel s with
          | (.ok rr, s) =>
              .ok (mounted s root !(rr && slashdot.inode.isSome))
          | (.err e, _) => .err e
          | (.panic, _) => .panic
          | (.running, _) => .running
      | (some .running, _) => .running
      -- `unwrap`, twice
      | _ => .panic
  | (.err e, _) => .err e
  | (.panic, _) => .panic
  | (.running, _) => .running

/-- `ISOFuse::new`, once the image's file is open. -/
def new (s : σ) : Outcome ISOError (ISOFuse σ) :=
  match ISO9660.new host.build host.reader host.fuel s with
  | (.ok iso, s) => mount host iso s
  | (.err e, _) => .err e
  | (.panic, _) => .panic
  | (.running, _) => .running

variable (fs : ISOFuse σ)

/-- The number an entry is to have: the next one, or its own. -/
def numberFor (entry : DirectoryEntry) : Outcome Errno Nat :=
  if fs.inodeAutogenerated then .ok fs.inodeNumber
  else
    match entry.inode with
    | some ino => .ok ino.toNat
    | none => .panic -- `unwrap`

/-- Enters an entry in the table. -/
def insert (ino : Nat) (entry : DirectoryEntry) : ISOFuse σ :=
  { fs with inodes := Function.update fs.inodes ino (some entry) }

/-- Counts a number that was given out. -/
def advance : ISOFuse σ :=
  if fs.inodeAutogenerated then
    { fs with inodeNumber := fs.inodeNumber + 1 }
  else fs

-- ========================================================== the handlers

def lookup (parent : Nat) (name : List UInt8) :
    Outcome Errno Reply × ISOFuse σ :=
  match fs.inodes parent with
  | none => (.err .EINVAL, fs)
  | some (.directory parentDirectory) =>
      if fs.inodeNumber = u64Max then (.err .ENFILE, fs)
      else
        match fromUtf8 name with
        | none => (.panic, fs) -- `unwrap`
        | some name =>
            match find host.build host.reader host.fuel parentDirectory name
              fs.file with
            | (.ok (some currentEntry), file) =>
                let fs := { fs with file }
                match fs.numberFor currentEntry with
                | .ok inodeNumber =>
                    match getFileattr host inodeNumber currentEntry with
                    | .ok fileattr =>
                        (.ok (.entry fileattr),
                          (fs.insert inodeNumber currentEntry).advance)
                    | .err e => (.err e, fs)
                    | .panic => (.panic, fs)
                    | .running => (.running, fs)
                | .err e => (.err e, fs)
                | .panic => (.panic, fs)
                | .running => (.running, fs)
            | (.ok none, file) => (.err .ENOENT, { fs with file })
            | (.err _, file) => (.err .ENOENT, { fs with file })
            | (.panic, file) => (.panic, { fs with file })
            | (.running, file) => (.running, { fs with file })
  | some _ => (.err .ENOTDIR, fs)

/-- The number of lookups to forget is not read. -/
def forget (ino _nlookup : Nat) : ISOFuse σ :=
  { fs with inodes := Function.update fs.inodes ino none }

def getattr (ino : Nat) : Outcome Errno Reply :=
  match fs.inodes ino with
  | none => .err .EINVAL
  | some entry => do
      let fileattr ← getFileattr host ino entry
      .ok (.attr fileattr)

def readlink (ino : Nat) : Outcome Errno Reply :=
  match fs.inodes ino with
  | none => .err .EINVAL
  | some (.symlink symlink) =>
      match symlink.target with
      | some target => .ok (.data (asBytes target))
      | none => .err .EINVAL
  | some _ => .err .EINVAL

def openFile (ino : Nat) : Outcome Errno Reply × ISOFuse σ :=
  match fs.inodes ino with
  | none => (.err .EINVAL, fs)
  | some (.file file) =>
      if fs.fileNumber = u64Max then (.err .ENFILE, fs)
      else
        (.ok (.opened fs.fileNumber),
          { fs with
            openFiles :=
              Function.update fs.openFiles fs.fileNumber (some file.read)
            fileNumber := fs.fileNumber + 1 })
  | some _ => (.err .EISDIR, fs)

/-- What is replied to a call of `Read::read`. -/
def dataReply (done : ISOFileReader.ReadResult σ) : Outcome Errno Reply :=
  match done.result with
  | .ok count =>
      -- `&buf[..count]`
      if count ≤ done.buf.length then .ok (.data (done.buf.take count))
      else .panic
  | .err _ => .err Errno.EIO
  | .panic => .panic
  | .running => .running

/-- `read` behind the seek. -/
def readSought (fh : Nat) (size : UInt32) :
    Outcome IoError Nat × ISOFileReader → Outcome Errno Reply × ISOFuse σ
  | (.ok _, file) =>
      let done := file.read host.reader (List.replicate size.toNat 0) fs.file
      (dataReply done,
        { fs with
          openFiles := Function.update fs.openFiles fh (some done.reader)
          file := done.state })
  | (.err _, _) => (.err Errno.EIO, fs)
  | (.panic, _) => (.panic, fs)
  | (.running, _) => (.running, fs)

def read (fh : Nat) (offset : Int64) (size : UInt32) :
    Outcome Errno Reply × ISOFuse σ :=
  if offset.toInt < 0 then (.err .EINVAL, fs)
  else
    match fs.openFiles fh with
    | none => (.err .EINVAL, fs)
    | some file =>
        readSought host fs fh size
          (file.seekTo host.build
            (.start (UInt64.ofNat offset.toInt.toNat)))

def release (fh : Nat) : Outcome Errno Reply × ISOFuse σ :=
  match fs.openFiles fh with
  | some _ =>
      (.ok .ok,
        { fs with openFiles := Function.update fs.openFiles fh none })
  | none => (.err .EINVAL, fs)

def opendir (ino : Nat) : Outcome Errno Reply × ISOFuse σ :=
  match fs.inodes ino with
  | none => (.err .EINVAL, fs)
  | some (.directory directory) =>
      if fs.directoryNumber = u64Max then (.err .ENFILE, fs)
      else
        (.ok (.opened fs.directoryNumber),
          { fs with
            openDirectories := Function.update fs.openDirectories
              fs.directoryNumber (some directory)
            directoryNumber := fs.directoryNumber + 1 })
  | some _ => (.err .ENOTDIR, fs)

def getxattr : Outcome Errno Reply := .err .ENOTSUP

/-- The cookie behind an entry: the next offset, or -1 at the end. -/
def fuseOffset : Option Nat → Option Int64
  | some offset =>
      if offset < 2 ^ 63 then some (Int64.ofNat offset) else none
  | none => some (-1)

/-- What `readdir` makes of an entry that is not hidden. -/
def dirent (inodeNumber : Nat) (cookie : Int64) (entry : DirectoryEntry) :
    Dirent :=
  ⟨inodeNumber, cookie, entryToFiletype entry, entry.identifier⟩

/-- The state after an entry was added to a listing: it is entered in the
table, unless it is the directory itself or its parent. -/
def listed (inodeNumber : Nat) (entry : DirectoryEntry) : ISOFuse σ :=
  (if entry.identifier ≠ "." ∧ entry.identifier ≠ ".." then
    fs.insert inodeNumber entry
  else fs).advance

/-- The loop of `readdir` from an offset, on top of what is listed. -/
def readdirLoop (dir : ISODirectory) (accepts : Capacity) :
    Nat → ISOFuse σ → BlockCache → Nat → List Dirent →
      Outcome Errno Reply × ISOFuse σ
  | 0, fs, _, _, _ => (.running, fs)
  | turns + 1, fs, cache, offset, listing =>
      if fs.inodeNumber = u64Max then (.err .ENFILE, fs)
      else
        match readEntryAt host.build host.reader host.fuel dir cache offset
          fs.file with
        | (.ok (entry, nextOffset), cache, file) =>
            let fs := { fs with file }
            if entry.relocated then
              match nextOffset with
              | some offset =>
                  readdirLoop dir accepts turns fs cache offset listing
              | none => (.ok (.directory listing), fs)
            else
              match fuseOffset nextOffset with
              | none => (.err .EINVAL, fs)
              | some cookie =>
                  match fs.numberFor entry with
                  | .ok inodeNumber =>
                      let dirent := dirent inodeNumber cookie entry
                      if accepts listing dirent then
                        let fs := fs.listed inodeNumber entry
                        match nextOffset with
                        | some offset =>
                            readdirLoop dir accepts turns fs cache offset
                              (listing ++ [dirent])
                        | none =>
                            (.ok (.directory (listing ++ [dirent])), fs)
                      else (.ok (.directory listing), fs)
                  | .err e => (.err e, fs)
                  | .panic => (.panic, fs)
                  | .running => (.running, fs)
        | (.err _, _, file) => (.err .EINVAL, { fs with file })
        | (.panic, _, file) => (.panic, { fs with file })
        | (.running, _, file) => (.running, { fs with file })

/-- The offsets that follow each other are below `2 ^ 32`, so the turns
do not run out. -/
def readdir (fh : Nat) (offset : Int64) (accepts : Capacity) :
    Outcome Errno Reply × ISOFuse σ :=
  match fs.openDirectories fh with
  | none => (.err .EINVAL, fs)
  | some dir =>
      if offset = -1 then (.ok (.directory []), fs)
      else if offset.toInt < 0 then (.err .EINVAL, fs)
      else
        readdirLoop host dir accepts (2 ^ 32 + 1) fs BlockCache.new
          offset.toInt.toNat []

def releasedir (fh : Nat) : Outcome Errno Reply × ISOFuse σ :=
  match fs.openDirectories fh with
  | some _ =>
      (.ok .ok,
        { fs with
          openDirectories := Function.update fs.openDirectories fh none })
  | none => (.err .EINVAL, fs)

/-- The handler of a request. -/
def serve : Request → Outcome Errno Reply × ISOFuse σ
  | .lookup parent name => lookup host fs parent name
  | .forget ino nlookup => (.ok .silent, fs.forget ino nlookup)
  | .getattr ino => (getattr host fs ino, fs)
  | .readlink ino => (fs.readlink ino, fs)
  | .openFile ino => fs.openFile ino
  | .read fh offset size => read host fs fh offset size
  | .release fh => fs.release fh
  | .opendir ino => fs.opendir ino
  | .getxattr => (getxattr, fs)
  | .readdir fh offset accepts => readdir host fs fh offset accepts
  | .releasedir fh => fs.releasedir fh

end ISOFuse

end Cdfs
