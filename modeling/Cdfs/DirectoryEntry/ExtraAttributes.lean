/-
The trait `ExtraAttributes` (`directory_entry/extra_meta.rs`): the
attributes of an entry, from its system use entries where they have
them and else from its record.
-/
import Cdfs.DirectoryEntry.Entry

namespace Cdfs

open Parse

/-- `From<PosixFileMode> for u16`. -/
def permissions (mode : UInt32) : UInt16 :=
  (mode &&& PosixFileMode.ALL_PERMISSIONS).toUInt16

/-- The mask is u16. -/
theorem permissions_toNat (mode : UInt32) :
    (permissions mode).toNat
      = (mode &&& PosixFileMode.ALL_PERMISSIONS).toNat := by
  have hle : (mode &&& PosixFileMode.ALL_PERMISSIONS).toNat ≤ 0o6777 := by
    rw [UInt32.toNat_and]
    exact Nat.and_le_right
  show (mode &&& PosixFileMode.ALL_PERMISSIONS).toNat % 65536 = _
  omega

namespace DirectoryEntry

variable (entry : DirectoryEntry)

/-- Whether the entry is a directory that exists elsewhere too. -/
def relocated : Bool := entry.ext.relocated

/-- The recording time. -/
def time : OffsetDateTime := entry.header.time

def owner : Option UInt32 := entry.ext.attributes.map (·.uid)

def group : Option UInt32 := entry.ext.attributes.map (·.gid)

def mode : Option UInt32 := entry.ext.attributes.map (·.mode)

/-- One of the times of a `TF` entry, or else the recording time. -/
def stamp (field : PosixTimestamp → Option OffsetDateTime) :
    OffsetDateTime :=
  (field entry.ext.timestamps).getD entry.time

def accessTime : OffsetDateTime := entry.stamp (·.access)

def attributeChangeTime : OffsetDateTime := entry.stamp (·.attributes)

def createTime : OffsetDateTime := entry.stamp (·.creation)

def modifyTime : OffsetDateTime := entry.stamp (·.modify)

/-- The serial number. -/
def inode : Option UInt32 :=
  match entry.ext.attributes with
  | some attributes =>
      match attributes.inode with
      | some inode => some inode
      | none => none
  | none => none

end DirectoryEntry

/-- `Symlink::target`. -/
def Symlink.target (link : Symlink) : Option String := link.ext.symlinkTarget

end Cdfs
