/-
The stamps of several `TF` entries. `read_entry_at` goes through the
entries and takes over the stamps of each, one field after the other; it
knows four of the seven fields.

What the fold does to a field follows from what one entry does to it: a
field that is taken over has its last stamp at the end (`foldl_taken`),
and one that is not has what it began with (`foldl_left`).
-/
import Cdfs.Proofs.Layout
import Cdfs.Proofs.SuspRoundTrip

namespace Cdfs

open Rust Parse Nom

variable {σ : Type}

-- ============================================================ the fields

/-- The stamps that an entry has, if it is a `TF` entry. -/
def asTimestamp : SystemUseEntry → Option PosixTimestamp
  | .posixTimestamp tf => some tf
  | _ => none

/-- The stamp of a field in the last entry that carries it. -/
def lastStamp (field : PosixTimestamp → Option OffsetDateTime)
    (susp : List SystemUseEntry) : Option OffsetDateTime :=
  ((susp.filterMap asTimestamp).filterMap field).getLast?

/-- Every field has its last stamp. -/
structure Merged (susp : List SystemUseEntry) (t : PosixTimestamp) :
    Prop where
  access : t.access = lastStamp (·.access) susp
  attributes : t.attributes = lastStamp (·.attributes) susp
  backup : t.backup = lastStamp (·.backup) susp
  creation : t.creation = lastStamp (·.creation) susp
  effective : t.effective = lastStamp (·.effective) susp
  expiration : t.expiration = lastStamp (·.expiration) susp
  modify : t.modify = lastStamp (·.modify) susp

/-- No entry carries a stamp that is not taken over. -/
def NoneLeft (susp : List SystemUseEntry) : Prop :=
  ∀ tf ∈ susp.filterMap asTimestamp,
    tf.backup = none ∧ tf.effective = none ∧ tf.expiration = none

-- ============================================================== the fold

section Fold

variable {field : PosixTimestamp → Option OffsetDateTime}

/-- A field that each entry's stamp is taken over to. -/
theorem foldl_taken
    (htaken : ∀ acc new, field (mergeTimestamp acc new)
      = (field new).or (field acc)) (tfs : List PosixTimestamp) :
    ∀ acc, field (tfs.foldl mergeTimestamp acc)
      = ((tfs.filterMap field).getLast?).or (field acc) := by
  induction tfs with
  | nil => exact fun _ => rfl
  | cons tf tfs ih =>
      intro acc
      rw [List.foldl_cons, ih, htaken, List.filterMap_cons]
      cases field tf with
      | none => rfl
      | some t =>
          dsimp only
          rw [List.getLast?_cons]
          cases (tfs.filterMap field).getLast? with
          | none => rfl
          | some last => rfl

/-- A field that no entry changes. -/
theorem foldl_left
    (hleft : ∀ acc new, field (mergeTimestamp acc new) = field acc)
    (tfs : List PosixTimestamp) :
    ∀ acc, field (tfs.foldl mergeTimestamp acc) = field acc := by
  induction tfs with
  | nil => exact fun _ => rfl
  | cons tf tfs ih =>
      intro acc
      rw [List.foldl_cons, ih, hleft]

theorem timestamps_eq (susp : List SystemUseEntry) :
    timestamps susp
      = (susp.filterMap asTimestamp).foldl mergeTimestamp
        PosixTimestamp.default := rfl

/-- So a field that is taken over has its last stamp, -/
theorem timestamps_taken
    (htaken : ∀ acc new, field (mergeTimestamp acc new)
      = (field new).or (field acc))
    (hdefault : field PosixTimestamp.default = none)
    (susp : List SystemUseEntry) :
    field (timestamps susp) = lastStamp field susp := by
  rw [timestamps_eq, foldl_taken htaken, hdefault, Option.or_none]
  rfl

variable (field)

/-- and one that is not has it only if there is none. -/
theorem timestamps_left
    (hleft : ∀ acc new, field (mergeTimestamp acc new) = field acc)
    (hdefault : field PosixTimestamp.default = none)
    (susp : List SystemUseEntry) :
    field (timestamps susp) = lastStamp field susp
      ↔ ∀ tf ∈ susp.filterMap asTimestamp, field tf = none := by
  rw [timestamps_eq, foldl_left hleft, hdefault, eq_comm]
  unfold lastStamp
  rw [List.getLast?_eq_none_iff, List.filterMap_eq_nil_iff]

end Fold

/-- The fields are merged exactly if no entry carries one of the three
that are not taken over. -/
theorem merged_iff (susp : List SystemUseEntry) :
    Merged susp (timestamps susp) ↔ NoneLeft susp := by
  have hbackup := timestamps_left (·.backup)
    (fun _ _ => rfl) rfl susp
  have heffective := timestamps_left (·.effective)
    (fun _ _ => rfl) rfl susp
  have hexpiration := timestamps_left (·.expiration)
    (fun _ _ => rfl) rfl susp
  constructor
  · intro h tf htf
    exact ⟨hbackup.mp h.backup tf htf, heffective.mp h.effective tf htf,
      hexpiration.mp h.expiration tf htf⟩
  · intro h
    exact {
      access := timestamps_taken (fun _ _ => rfl) rfl susp
      attributes := timestamps_taken (fun _ _ => rfl) rfl susp
      backup := hbackup.mpr fun tf htf => (h tf htf).1
      creation := timestamps_taken (fun _ _ => rfl) rfl susp
      effective := heffective.mpr fun tf htf => (h tf htf).2.1
      expiration := hexpiration.mpr fun tf htf => (h tf htf).2.2
      modify := timestamps_taken (fun _ _ => rfl) rfl susp }

/-- The stamps of an entry with these system use entries, which is what
`read_entry_at` has of a record and its continuation areas: each field
has its last stamp exactly if no `TF` entry carries a stamp of a backup,
of effectiveness or of expiration. -/
theorem timestamps_merged_iff (susp : List SystemUseEntry) :
    (Merged susp (timestamps susp) ↔ NoneLeft susp)
      ∧ ∀ (b : Build) (rd : ISO9660Reader σ) (src : Source) (fuel : Nat)
        (dir : ISODirectory) (cache : BlockCache) (offset : Nat) (s : σ)
        (block : BlockBuffer) (header : DirectoryEntryHeader)
        (identifier : String) (area : Option (List SystemUseEntry))
        (entry : DirectoryEntry) (next : Option Nat),
        rd.Serves src → Coherent src dir cache →
        parseAt b src dir offset = .ok (block, header, identifier, area) →
        completeSusp b src fuel area = .ok susp →
        (readEntryAt b rd fuel dir cache offset s).1 = .ok (entry, next) →
        (Merged susp entry.ext.timestamps ↔ NoneLeft susp) := by
  refine ⟨merged_iff susp, ?_⟩
  intro b rd src fuel dir cache offset s block header identifier area entry
    next hserve hco hparse hcomplete hread
  have hext := readEntryAt_ext hserve hco hparse hcomplete hread
  obtain ⟨_, -, hext⟩ := Outcome.bind_eq_ok.mp hext
  injection hext with hext
  have hstamps : entry.ext.timestamps = timestamps susp := by rw [← hext]
  rw [hstamps, merged_iff]

/-- Two entries that both have a modification time. -/
theorem timestamps_twice :
    Merged
      [.posixTimestamp { PosixTimestamp.default with
          modify := some millennium.time },
        .relocatedDirectory ⟨true⟩,
        .posixTimestamp { PosixTimestamp.default with
          modify := some dotHeader.time, access := some millennium.time }]
      (timestamps [.posixTimestamp { PosixTimestamp.default with
          modify := some millennium.time },
        .relocatedDirectory ⟨true⟩,
        .posixTimestamp { PosixTimestamp.default with
          modify := some dotHeader.time,
          access := some millennium.time }]) := by
  refine (timestamps_merged_iff (σ := Unit) _).1.mpr fun tf htf => ?_
  simp only [asTimestamp, List.filterMap_cons, List.filterMap_nil,
    List.mem_cons, List.not_mem_nil, or_false] at htf
  rcases htf with rfl | rfl
  · exact ⟨rfl, rfl, rfl⟩
  · exact ⟨rfl, rfl, rfl⟩

-- ============================================================== a backup

/-- A block with one record, the file `L`, whose system use area is a `TF`
entry with the time of a backup. -/
def backupBlock : BlockBuffer :=
  BlockBuffer.new.overwrite
    [46, 0, 21, 0, 0, 0, 0, 0, 0, 21, 0, 0, 0, 0, 0, 0, 0, 0,
      100, 1, 1, 0, 0, 0, 0, 0, 0, 0, 1, 0, 0, 1, 1, 0x4C,
      0x54, 0x46, 12, 1, 0x10, 100, 1, 1, 0, 0, 0, 0]

def backupSource : Source where
  deliver _ := .ok backupBlock.bytes
  atMostBlock h := backupBlock.delivered_le h

/-- The time of the backup is decoded, and the entry has none. -/
theorem backup_left :
    (parseAt debugBuild backupSource dotDirectory 0).map (fun r => r.2.2.2)
        = .ok (some [.posixTimestamp { PosixTimestamp.default with
          backup := some millennium.time }])
      ∧ (readEntryAt debugBuild backupSource.reader 0 dotDirectory
          BlockCache.new 0 ()).1.map (fun r => r.1.ext.timestamps.backup)
        = .ok none
      ∧ lastStamp (·.backup) [.posixTimestamp { PosixTimestamp.default with
          backup := some millennium.time }] = some millennium.time :=
  ⟨by decide +kernel, by decide +kernel, rfl⟩

end Cdfs
