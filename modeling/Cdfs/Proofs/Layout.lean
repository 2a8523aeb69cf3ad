/-
Directories as they are recorded. A record is a run of bytes that
decodes by itself, a block is records packed from its first byte and
zeros behind them, and a directory is a nonempty run of such blocks. A
record or a block with anything wrong in it cannot be built.

The account of reading one is `stored_yields`: the cursor over
`entryAt` goes through the records block by block, each record followed
by the next of its block or, past the zeros, by the first of the next
block. The induction is on the records that remain in the block, inside
one on the blocks that remain.
-/
import Cdfs.Proofs.EntryAt

namespace Cdfs

open Rust Parse

variable {b : Build} {enc : CharacterEncoding} {src : Source}
  {dir : ISODirectory}

-- ============================================================== records

/-- An encoded directory record without `CE` and `CL` entries. It
decodes to the last byte, and an entry can be built from it. -/
structure EncodedRecord (b : Build) (enc : CharacterEncoding) where
  bytes : List UInt8
  header : DirectoryEntryHeader
  identifier : String
  area : Option (List SystemUseEntry)
  entry : DirectoryEntry
  parsed : directoryEntry b enc bytes = .ok ([], header, identifier, area)
  noContinuation : continuations (area.getD []) = []
  noChildLink : childLink (area.getD []) = none
  built : buildEntry b header identifier (area.getD []) = .ok entry
  /-- the bytes of an actual record, whose length is a byte -/
  bounded : bytes.length ≤ BLOCK_SIZE

namespace EncodedRecord

/-- The length byte of a record is its length. -/
theorem length_eq (r : EncodedRecord b enc) :
    r.header.length.toNat = r.bytes.length := by
  have hle := r.bounded
  unfold BLOCK_SIZE at hle
  obtain ⟨-, hlen, hrest, -⟩ := directoryEntry_length b (by omega) r.parsed
  have hnil := congrArg List.length hrest
  rw [List.length_nil, List.length_drop] at hnil
  omega

theorem le_length (r : EncodedRecord b enc) : 34 ≤ r.bytes.length := by
  have hle := r.bounded
  unfold BLOCK_SIZE at hle
  have hlen := (directoryEntry_length b (by omega) r.parsed).1
  rw [r.length_eq] at hlen
  exact hlen

/-- A record does not start with a zero. -/
theorem head_ne_zero (r : EncodedRecord b enc) :
    ∃ c rest, r.bytes = c :: rest ∧ c ≠ 0 := by
  have hle := r.bounded
  unfold BLOCK_SIZE at hle
  have hhead := (directoryEntry_length b (by omega) r.parsed).2.2.2
  match hbytes : r.bytes with
  | [] =>
      rw [hbytes] at hhead
      cases hhead
  | c :: rest =>
      rw [hbytes] at hhead
      injection hhead with hc
      refine ⟨c, rest, rfl, fun hzero => ?_⟩
      have hlen := r.length_eq
      have hmin := r.le_length
      rw [← hc, hzero] at hlen
      change 0 = _ at hlen
      omega

end EncodedRecord

/-- Without `CE` entries nothing is read to complete the list. -/
theorem completeSusp_plain {area : Option (List SystemUseEntry)}
    (fuel : Nat) (h : continuations (area.getD []) = []) :
    completeSusp b src fuel area = .ok (area.getD []) := by
  unfold completeSusp
  rw [splitContinuation_eq, h, plain_eq_self h]
  cases fuel with
  | zero => rfl
  | succ fuel => rfl

-- =============================================================== blocks

/-- The bytes of records packed back to back. -/
def packed (records : List (EncodedRecord b enc)) : List UInt8 :=
  records.flatMap (·.bytes)

/-- A block of directory records. -/
structure RecordBlock (b : Build) (enc : CharacterEncoding) where
  records : List (EncodedRecord b enc)
  nonempty : records ≠ []
  fits : (packed records).length ≤ BLOCK_SIZE

/-- The block as recorded: the records, and zeros up to its end. -/
def RecordBlock.buffer (blk : RecordBlock b enc) : BlockBuffer :=
  ⟨packed blk.records
      ++ List.replicate (BLOCK_SIZE - (packed blk.records).length) 0, by
    have hfits := blk.fits
    rw [List.length_append, List.length_replicate]
    omega⟩

/-- What is behind some of the records is the others and the zeros. -/
theorem RecordBlock.drop_buffer {blk : RecordBlock b enc}
    {done todo : List (EncodedRecord b enc)}
    (h : blk.records = done ++ todo) :
    ∃ zeros, blk.buffer.bytes.drop (packed done).length
        = packed todo ++ List.replicate zeros 0
      ∧ (packed done).length + (packed todo).length + zeros = BLOCK_SIZE := by
  have hpacked : packed blk.records = packed done ++ packed todo := by
    rw [h, packed, List.flatMap_append]
    rfl
  refine ⟨BLOCK_SIZE - (packed blk.records).length, ?_, ?_⟩
  · simp only [RecordBlock.buffer]
    rw [hpacked, List.append_assoc, List.drop_left]
  · have hfits := blk.fits
    rw [hpacked, List.length_append] at hfits ⊢
    omega

-- ========================================================== directories

/-- The entries recorded in a run of blocks, in their order. -/
def recorded (blocks : List (RecordBlock b enc)) : List DirectoryEntry :=
  blocks.flatMap fun blk => blk.records.map (·.entry)

/-- The directory's extent holds these blocks, and the source delivers
them. -/
structure Stored (src : Source) (dir : ISODirectory)
    (blocks : List (RecordBlock b enc)) : Prop where
  encoding : dir.header.characterEncoding = enc
  nonempty : blocks ≠ []
  length : dir.header.extentLength.toNat = BLOCK_SIZE * blocks.length
  delivered : ∀ (i : Nat) (blk : RecordBlock b enc), blocks[i]? = some blk →
    src.deliver (dir.header.extentLoc.toNat + i) = .ok blk.buffer.bytes

/-- The source delivers these blocks from the start of the directory's
extent on; the extent may have another length. -/
structure Held (src : Source) (dir : ISODirectory)
    (blocks : List (RecordBlock b enc)) : Prop where
  encoding : dir.header.characterEncoding = enc
  delivered : ∀ (i : Nat) (blk : RecordBlock b enc), blocks[i]? = some blk →
    src.deliver (dir.header.extentLoc.toNat + i) = .ok blk.buffer.bytes

theorem Stored.held {blocks : List (RecordBlock b enc)}
    (h : Stored src dir blocks) : Held src dir blocks :=
  ⟨h.encoding, h.delivered⟩

-- ============================================================== reading

/-- The byte behind some of the records is the first of the others. -/
theorem RecordBlock.getD_buffer {blk : RecordBlock b enc}
    {done todo : List (EncodedRecord b enc)}
    (h : blk.records = done ++ todo) :
    blk.buffer.bytes.getD (packed done).length 0
      = (packed todo).headD 0 := by
  obtain ⟨zeros, hdrop, -⟩ := blk.drop_buffer h
  have hhead := congrArg List.head? hdrop
  rw [List.head?_drop] at hhead
  rw [List.getD_eq_getElem?_getD, hhead]
  cases packed todo with
  | nil =>
      cases zeros with
      | zero => rfl
      | succ zeros => rfl
  | cons c rest => rfl

/-- Behind a record is the next one of its block, or the next block. -/
theorem nextPosition_recorded {blk : RecordBlock b enc}
    {done todo : List (EncodedRecord b enc)} {r : EncodedRecord b enc}
    (h : blk.records = done ++ r :: todo) (i : Nat) :
    nextPosition blk.buffer i
        ((packed done).length + r.header.length.toNat)
      = match todo with
        | [] => (i + 1, 0)
        | _ :: _ => (i, (packed (done ++ [r])).length) := by
  have hpos : (packed done).length + r.header.length.toNat
      = (packed (done ++ [r])).length := by
    rw [r.length_eq, packed, packed, List.flatMap_append,
      List.length_append, List.flatMap_singleton]
  have hsplit : blk.records = (done ++ [r]) ++ todo := by
    rw [h, List.append_assoc, List.singleton_append]
  have hbyte := blk.getD_buffer hsplit
  obtain ⟨zeros, -, hlen⟩ := blk.drop_buffer hsplit
  rw [hpos]
  unfold nextPosition
  rw [hbyte]
  cases todo with
  | nil =>
      -- the zeros start here, or the block ends
      simp [packed]
  | cons r' todo =>
      obtain ⟨c, rest, hbytes, hc⟩ := r'.head_ne_zero
      have hhead : (packed (r' :: todo)).headD 0 = c := by
        rw [packed, List.flatMap_cons, hbytes]
        rfl
      have hroom : (packed (done ++ [r])).length + 34 ≤ 2048 := by
        have hmin := r'.le_length
        have hle : r'.bytes.length ≤ (packed (r' :: todo)).length := by
          rw [packed, List.flatMap_cons, List.length_append]
          omega
        unfold BLOCK_SIZE at hlen
        omega
      rw [hhead, if_neg]
      simp only [Bool.or_eq_true, decide_eq_true_eq, beq_iff_eq, not_or]
      exact ⟨by omega, hc⟩

/-- The record at its own offset. The next one is of the same block or at
the start of the next block, and is in a block that is counted. -/
theorem entryAt_held {blocks : List (RecordBlock b enc)}
    (hheld : Held src dir blocks) {count : Nat}
    (hcount : dir.blockCount b = .ok count) (fuel : Nat)
    {i : Nat} {blk : RecordBlock b enc} (hblk : blocks[i]? = some blk)
    {done todo : List (EncodedRecord b enc)} {r : EncodedRecord b enc}
    (h : blk.records = done ++ r :: todo) :
    entryAt b src fuel dir (BLOCK_SIZE * i + (packed done).length)
      = .ok (r.entry, match todo with
        | [] => if i + 1 < count then some (BLOCK_SIZE * (i + 1)) else none
        | _ :: _ =>
            if i < count then
              some (BLOCK_SIZE * i + (packed (done ++ [r])).length)
            else none) := by
  obtain ⟨zeros, hdrop, hlen⟩ := blk.drop_buffer h
  have hmin := r.le_length
  have hle : r.bytes.length ≤ (packed (r :: todo)).length := by
    rw [packed, List.flatMap_cons, List.length_append]
    omega
  have hdiv : (BLOCK_SIZE * i + (packed done).length) / BLOCK_SIZE = i := by
    unfold BLOCK_SIZE at hlen ⊢
    omega
  have hmod : (BLOCK_SIZE * i + (packed done).length) % BLOCK_SIZE
      = (packed done).length := by
    unfold BLOCK_SIZE at hlen ⊢
    omega
  have hparse : directoryEntry b enc
      (blk.buffer.bytes.drop (packed done).length)
      = .ok (packed todo ++ List.replicate zeros 0,
        r.header, r.identifier, r.area) := by
    rw [hdrop, packed, List.flatMap_cons, List.append_assoc]
    exact stable_directoryEntry b enc _ _ _ _ r.parsed
  refine entryAt_eq_ok.mpr ⟨blk.buffer, r.header, r.identifier, r.area,
    r.area.getD [], parseAt_eq_ok.mpr ⟨?_, ?_⟩,
    completeSusp_plain fuel r.noContinuation, r.built,
    nextOffset_eq_ok.mpr ⟨_, hcount, ?_⟩⟩
  · rw [hdiv]
    exact blockAt_of_full (hheld.delivered i blk hblk) _
  · rw [hmod, hheld.encoding, DirectoryEntryHeader.parse, hparse]
    rfl
  · rw [hdiv, hmod, nextPosition_recorded h]
    cases todo with
    | nil => rfl
    | cons r' todo => rfl

/-- In a directory as stored the next record is always in a counted
block. -/
theorem entryAt_recorded {blocks : List (RecordBlock b enc)}
    (hheld : Held src dir blocks) {count : Nat}
    (hcount : dir.blockCount b = .ok count) (fuel : Nat)
    {i : Nat} {blk : RecordBlock b enc} (hblk : blocks[i]? = some blk)
    (hi : i < count)
    {done todo : List (EncodedRecord b enc)} {r : EncodedRecord b enc}
    (h : blk.records = done ++ r :: todo) :
    entryAt b src fuel dir (BLOCK_SIZE * i + (packed done).length)
      = .ok (r.entry, match todo with
        | [] => if i + 1 < count then some (BLOCK_SIZE * (i + 1)) else none
        | _ :: _ =>
            some (BLOCK_SIZE * i + (packed (done ++ [r])).length)) := by
  rw [entryAt_held hheld hcount fuel hblk h, if_pos hi]

/-- From a record on: the rest of its block, and what is behind it. -/
theorem yields_records {blocks : List (RecordBlock b enc)}
    (hst : Stored src dir blocks)
    (hcount : dir.blockCount b = .ok blocks.length) (fuel : Nat)
    {i : Nat} {blk : RecordBlock b enc} (hblk : blocks[i]? = some blk)
    {rest : List DirectoryEntry}
    (hrest : Cursor.Yields (entryAt b src fuel dir)
      (if i + 1 < blocks.length then some (BLOCK_SIZE * (i + 1)) else none)
      rest) :
    ∀ (todo done : List (EncodedRecord b enc)) (r : EncodedRecord b enc),
      blk.records = done ++ r :: todo →
      Cursor.Yields (entryAt b src fuel dir)
        (some (BLOCK_SIZE * i + (packed done).length))
        ((r :: todo).map (·.entry) ++ rest) := by
  intro todo
  have hi : i < blocks.length := (List.getElem?_eq_some_iff.mp hblk).1
  induction todo with
  | nil =>
      intro done r h
      exact .cons (entryAt_recorded hst.held hcount fuel hblk hi h) hrest
  | cons r' todo ih =>
      intro done r h
      refine .cons (entryAt_recorded hst.held hcount fuel hblk hi h) ?_
      exact ih (done ++ [r]) r' (by rw [h, List.append_assoc]; rfl)

/-- From the start of a block on: its records and all later ones. -/
theorem yields_blocks {blocks : List (RecordBlock b enc)}
    (hst : Stored src dir blocks)
    (hcount : dir.blockCount b = .ok blocks.length) (fuel : Nat) :
    ∀ (later : List (RecordBlock b enc)) (i : Nat),
      blocks.drop i = later →
      Cursor.Yields (entryAt b src fuel dir)
        (if i < blocks.length then some (BLOCK_SIZE * i) else none)
        (recorded later) := by
  intro later
  induction later with
  | nil =>
      intro i hdrop
      rw [if_neg (Nat.not_lt.mpr (List.drop_eq_nil_iff.mp hdrop))]
      exact Cursor.yields_nil
  | cons blk later ih =>
      intro i hdrop
      have hblk : blocks[i]? = some blk := by
        rw [← List.head?_drop, hdrop]
        rfl
      have hi : i < blocks.length :=
        (List.getElem?_eq_some_iff.mp hblk).1
      have hlater : blocks.drop (i + 1) = later := by
        rw [← List.tail_drop, hdrop]
        rfl
      rw [if_pos hi]
      match hrecords : blk.records with
      | [] => exact absurd hrecords blk.nonempty
      | r :: todo =>
          have h := yields_records hst hcount fuel hblk (ih (i + 1) hlater)
            todo [] r hrecords
          rw [recorded, List.flatMap_cons, hrecords]
          exact h

/-- The whole directory is read, record by record. -/
theorem stored_yields {blocks : List (RecordBlock b enc)}
    (hst : Stored src dir blocks)
    (hcount : dir.blockCount b = .ok blocks.length) (fuel : Nat) :
    Cursor.Yields (entryAt b src fuel dir) (some 0) (recorded blocks) := by
  have h := yields_blocks hst hcount fuel blocks 0 List.drop_zero
  rw [if_pos (List.length_pos_iff.mpr hst.nonempty)] at h
  exact h

/-- From the first record of a counted block the others are come to. -/
theorem reached_records {blocks : List (RecordBlock b enc)}
    (hheld : Held src dir blocks) {count : Nat}
    (hcount : dir.blockCount b = .ok count) (fuel : Nat)
    {i : Nat} {blk : RecordBlock b enc} (hblk : blocks[i]? = some blk)
    (hi : i < count)
    (hstart : Cursor.Reached (entryAt b src fuel dir) 0 (BLOCK_SIZE * i))
    (done : List (EncodedRecord b enc)) :
    ∀ {todo : List (EncodedRecord b enc)} {r : EncodedRecord b enc},
      blk.records = done ++ r :: todo →
      Cursor.Reached (entryAt b src fuel dir) 0
        (BLOCK_SIZE * i + (packed done).length) := by
  induction done using List.reverseRecOn with
  | nil => exact fun _ => hstart
  | append_singleton done r' ih =>
      intro todo r h
      rw [List.append_assoc, List.singleton_append] at h
      exact .next (ih h) (entryAt_recorded hheld hcount fuel hblk hi h)

/-- And from the last record of a block the first of the next one. -/
theorem reached_block {blocks : List (RecordBlock b enc)}
    (hheld : Held src dir blocks) {count : Nat}
    (hcount : dir.blockCount b = .ok count) (fuel : Nat) (i : Nat) :
    i < blocks.length → i < count →
      Cursor.Reached (entryAt b src fuel dir) 0 (BLOCK_SIZE * i) := by
  induction i with
  | zero => exact fun _ _ => .start
  | succ i ih =>
      intro hlt hi
      have hprev : blocks[i]? = some blocks[i] :=
        List.getElem?_eq_getElem (by omega)
      have hstart := ih (by omega) (by omega)
      obtain ⟨front, last, hlast⟩ :=
        (List.eq_nil_or_concat' _).resolve_left blocks[i].nonempty
      have hstep := entryAt_recorded hheld hcount fuel hprev (by omega)
        hlast
      rw [if_pos hi] at hstep
      exact .next (reached_records hheld hcount fuel hprev (by omega) hstart
        front hlast) hstep

-- ================================================ a directory to run on

/-- A debug build with the default features. The decoder of Joliet names
is not reached by what is run on it. -/
def debugBuild : Build where
  assertions := true
  overflowChecks := true
  bigEndian := false
  decodeUtf16be _ := ("", false)

/-- The metadata of a record without system use entries. -/
def plainExt : ExtraMeta where
  altName := none
  attributes := none
  symlinkTarget := none
  extensions := [].toFinset
  timestamps := PosixTimestamp.default
  relocated := false

/-- The header of a directory of one block, at block 20. -/
def dotHeader : DirectoryEntryHeader where
  length := 34
  extendedAttributeRecordLength := 0
  extentLoc := 20
  extentLength := 2048
  time := ⟨⟨2000, 1, 1, by decide⟩, Time.midnight, UtcOffset.UTC⟩
  fileFlags := FileFlags.DIRECTORY
  fileUnitSize := 0
  interleaveGapSize := 0
  volumeSequenceNumber := 1
  characterEncoding := .iso9660

/-- That directory. -/
def dotDirectory : ISODirectory := ISODirectory.new dotHeader plainExt "\x00"

/-- Its own record, as its first block starts with it. -/
def dotRecord : EncodedRecord debugBuild .iso9660 where
  bytes := [34, 0, 20, 0, 0, 0, 0, 0, 0, 20, 0, 8, 0, 0, 0, 0, 8, 0,
    100, 1, 1, 0, 0, 0, 0, 2, 0, 0, 1, 0, 0, 1, 1, 0]
  header := dotHeader
  identifier := "\x00"
  area := none
  entry := .directory dotDirectory
  parsed := by decide +kernel
  noContinuation := by decide
  noChildLink := by decide
  built := by decide
  bounded := by decide

/-- A block that holds nothing else. -/
def dotBlock : RecordBlock debugBuild .iso9660 where
  records := [dotRecord]
  nonempty := by decide
  fits := by decide

/-- A source all of whose blocks are this one. -/
def dotSource : Source where
  deliver _ := .ok dotBlock.buffer.bytes
  atMostBlock h := dotBlock.buffer.delivered_le h

/-- It stores directories of any length. -/
theorem dotSource_stored (dir : ISODirectory) {n : Nat} (hn : 0 < n)
    (henc : dir.header.characterEncoding = .iso9660)
    (hlen : dir.header.extentLength.toNat = BLOCK_SIZE * n) :
    Stored dotSource dir (List.replicate n dotBlock) where
  encoding := henc
  nonempty := by
    rw [ne_eq, List.replicate_eq_nil_iff]
    omega
  length := by rw [List.length_replicate, hlen]
  delivered := by
    intro i blk hblk
    rw [List.getElem?_replicate] at hblk
    split at hblk
    · injection hblk with hblk
      rw [← hblk]
      rfl
    · cases hblk

/-- The header of an empty file at a block. -/
def letterHeader (loc : UInt32) : DirectoryEntryHeader :=
  { dotHeader with extentLoc := loc, extentLength := 0, fileFlags := 0 }

/-- The file `A`, at block 21. -/
def upperRecord : EncodedRecord debugBuild .iso9660 where
  bytes := [34, 0, 21, 0, 0, 0, 0, 0, 0, 21, 0, 0, 0, 0, 0, 0, 0, 0,
    100, 1, 1, 0, 0, 0, 0, 0, 0, 0, 1, 0, 0, 1, 1, 0x41]
  header := letterHeader 21
  identifier := "A"
  area := none
  entry := .file ⟨letterHeader 21, "A", 1, plainExt⟩
  parsed := by decide +kernel
  noContinuation := by decide
  noChildLink := by decide
  built := by decide +kernel
  bounded := by decide

end Cdfs
