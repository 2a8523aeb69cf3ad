/-
Iteration against the length of the directory in bytes.

The bound that `read_entry_at` keeps is a number of blocks, the length
rounded up, and it is asked for the record behind the one just read; the
first record is read whatever the length is. So records stay inside the
blocks that are counted, and inside the first block where none is
(`recordsBelow_blocks`). That is inside the extent exactly when it is
made of whole blocks (`ExtentWhole`); for every other length there is an
image whose records go on past it, one of blocks filled with records to
the last byte.
-/
import Cdfs.Proofs.RecordRoundTrip

namespace Cdfs

open Rust Parse Nom

variable {σ : Type} {b : Build} {rd : ISO9660Reader σ} {src : Source}
  {dir : ISODirectory}

-- ================================================ statement vocabulary

/-- Every entry that `contents()` yields is decoded at an offset below
the bound, and the last byte of its record is below it as well. -/
def RecordsBelow (b : Build) (rd : ISO9660Reader σ) (dir : ISODirectory)
    (bound : Nat) : Prop :=
  ∀ (fuel : Nat) (s : σ) (n : Nat) (entry : DirectoryEntry),
    item b rd fuel dir s n = some (.ok entry) →
    ∃ offset,
      (iterate b rd fuel dir n contents s).1.nextOffset = some offset
        ∧ offset < bound ∧ offset + entry.header.length.toNat ≤ bound

/-- The extent is what the records are to stay in. -/
def InsideExtent (b : Build) (rd : ISO9660Reader σ) (dir : ISODirectory) :
    Prop :=
  RecordsBelow b rd dir dir.header.extentLength.toNat

/-- The extent is one or more whole blocks. Beyond the last multiple of
the block size the sum in `block_count` overflows; that ends the
iteration early, so a first block inside the extent is enough there. -/
def ExtentWhole (dir : ISODirectory) : Prop :=
  dir.header.extentLength ≠ 0
    ∧ (BLOCK_SIZE ∣ dir.header.extentLength.toNat
      ∨ 2 ^ 32 - BLOCK_SIZE < dir.header.extentLength.toNat)

-- ======================================================= the block count

/-- Where the sum does not overflow the count is the length rounded up. -/
theorem blockCount_ceil (b : Build)
    (h : dir.header.extentLength.toNat < 2 ^ 32 - BLOCK_SIZE) :
    dir.blockCount b = .ok
      ((dir.header.extentLength.toNat + (BLOCK_SIZE - 1)) / BLOCK_SIZE) := by
  rw [blockCount_eq]
  exact ceilDivW_of_lt (by decide) (Nat.add_lt_of_lt_sub h)

/-- Where it does, nothing is counted. -/
theorem blockCount_beyond
    (h : 2 ^ 32 - BLOCK_SIZE < dir.header.extentLength.toNat) {count : Nat}
    (hcount : dir.blockCount b = .ok count) : count = 0 := by
  rw [blockCount_eq] at hcount
  rcases ceilBlocks_cases (ε := ISOError) b.overflowChecks
    dir.header.extentLength with ⟨-, hfit⟩ | ⟨hzero, -⟩ | ⟨hpanic, -⟩
  · unfold BLOCK_SIZE at h hfit
    omega
  · rw [hzero] at hcount
    exact (Outcome.ok.inj hcount).symm
  · rw [hpanic] at hcount
    cases hcount

/-- In an extent of whole blocks all that is counted is in the extent. -/
theorem ExtentWhole.counted (h : ExtentWhole dir) {count : Nat}
    (hcount : dir.blockCount b = .ok count) :
    BLOCK_SIZE * count ≤ dir.header.extentLength.toNat := by
  obtain ⟨hne, ⟨n, hn⟩ | hbeyond⟩ := h
  · have hpos : 0 < n := by
      refine Nat.pos_of_ne_zero fun hzero => hne ?_
      rw [hzero, Nat.mul_zero] at hn
      exact UInt32.toNat_inj.mp hn
    rw [blockCount_whole hpos hn] at hcount
    split at hcount
    · injection hcount with hcount
      rw [hn, hcount]
    · cases hcount
  · rw [blockCount_beyond hbeyond hcount]
    exact Nat.zero_le _

/-- And the first block is. -/
theorem ExtentWhole.first (h : ExtentWhole dir) :
    BLOCK_SIZE ≤ dir.header.extentLength.toNat := by
  obtain ⟨hne, hdvd | hbeyond⟩ := h
  · refine Nat.le_of_dvd (Nat.pos_of_ne_zero fun hzero => hne ?_) hdvd
    exact UInt32.toNat_inj.mp hzero
  · unfold BLOCK_SIZE at hbeyond ⊢
    omega

-- ======================================================= staying inside

/-- The block of the iterator's offset is below the bound. -/
def BlockBelow (bound : Nat) (it : ISODirectoryIterator) : Prop :=
  ∀ offset, it.nextOffset = some offset →
    BLOCK_SIZE * (offset / BLOCK_SIZE + 1) ≤ bound

/-- A call that yields an entry read it at the iterator's offset. -/
theorem next_eq_ok {fuel : Nat} {it : ISODirectoryIterator} {s : σ}
    {entry : DirectoryEntry}
    (h : (it.next b rd fuel dir s).1 = some (.ok entry)) :
    ∃ offset next cache s', it.nextOffset = some offset
      ∧ readEntryAt b rd fuel dir it.cache offset s
        = (.ok (entry, next), cache, s') := by
  unfold ISODirectoryIterator.next at h
  cases hoff : it.nextOffset with
  | none =>
      rw [hoff] at h
      cases h
  | some offset =>
      rw [hoff] at h
      dsimp only at h
      rcases hcall : readEntryAt b rd fuel dir it.cache offset s
        with ⟨⟨e, next⟩ | _ | _ | _, cache, s'⟩
      all_goals
        rw [hcall] at h
        injection h with h
        cases h
      exact ⟨offset, next, cache, s', rfl, hcall⟩

/-- A call that moves the iterator moves it into a counted block. -/
theorem next_blockBelow {bound : Nat}
    (hcount : ∀ count, dir.blockCount b = .ok count →
      BLOCK_SIZE * count ≤ bound) {fuel : Nat}
    {it : ISODirectoryIterator} (h : BlockBelow bound it) (s : σ) :
    BlockBelow bound (it.next b rd fuel dir s).2.1 := by
  unfold ISODirectoryIterator.next
  cases hoff : it.nextOffset with
  | none => exact h
  | some offset =>
      dsimp only
      rcases hcall : readEntryAt b rd fuel dir it.cache offset s
        with ⟨⟨entry, next⟩ | _ | _ | _, cache, s'⟩
      · intro offset' hnext
        obtain ⟨header, _, _, hparse, -, hoffset⟩ :=
          readEntryAt_record hcall
        change next = some offset' at hnext
        rw [hnext] at hoffset
        obtain ⟨count, hblocks, hcases⟩ := nextOffset_eq_some hoffset
        have hbound := hcount count hblocks
        unfold BLOCK_SIZE at hcases hbound ⊢
        omega
      -- a failed call leaves the offset where it is
      all_goals exact fun offset' hnext => h offset' (hoff.trans hnext)

theorem iterate_blockBelow {bound : Nat}
    (hcount : ∀ count, dir.blockCount b = .ok count →
      BLOCK_SIZE * count ≤ bound) (fuel n : Nat) :
    ∀ {it : ISODirectoryIterator} (s : σ), BlockBelow bound it →
      BlockBelow bound (iterate b rd fuel dir n it s).1 := by
  induction n with
  | zero => exact fun _ h => h
  | succ n ih => exact fun s h => ih _ (next_blockBelow hcount h s)

/-- Records stay below whatever is not below the first block and the
counted ones: no record is cut by the end of its block. -/
theorem recordsBelow_of_blocks {bound : Nat} (hfirst : BLOCK_SIZE ≤ bound)
    (hcount : ∀ count, dir.blockCount b = .ok count →
      BLOCK_SIZE * count ≤ bound) (rd : ISO9660Reader σ) :
    RecordsBelow b rd dir bound := by
  intro fuel s n entry h
  have hstart : BlockBelow bound contents := by
    intro offset hoff
    injection hoff with hoff
    rw [← hoff]
    exact hfirst
  obtain ⟨offset, next, cache, s', hoff, hcall⟩ := next_eq_ok h
  have hblock := iterate_blockBelow hcount fuel n s hstart offset hoff
  obtain ⟨header, _, _, hparse, hlen, -⟩ := readEntryAt_record hcall
  have hrecord := parse_length hparse
  rw [hlen]
  unfold BLOCK_SIZE at hblock hrecord
  exact ⟨offset, hoff, by omega, by omega⟩

/-- Whatever the length is, records stay inside the blocks that hold it,
or inside one block if it is zero. -/
theorem recordsBelow_blocks (rd : ISO9660Reader σ) :
    RecordsBelow b rd dir (BLOCK_SIZE * max 1
      ((dir.header.extentLength.toNat + (BLOCK_SIZE - 1)) / BLOCK_SIZE)) := by
  refine recordsBelow_of_blocks (Nat.le_mul_of_pos_right _ (by omega))
    (fun count hcount => ?_) rd
  refine Nat.mul_le_mul_left _ (le_max_of_le_right ?_)
  rw [blockCount_eq] at hcount
  rcases ceilBlocks_cases (ε := ISOError) b.overflowChecks
    dir.header.extentLength with ⟨hceil, -⟩ | ⟨hzero, -⟩ | ⟨hpanic, -⟩
  · exact (Outcome.ok.inj (hcount.symm.trans hceil)).le
  · rw [Outcome.ok.inj (hcount.symm.trans hzero)]
    exact Nat.zero_le _
  · rw [hpanic] at hcount
    cases hcount

-- ========================================================= full blocks

/-- A directory's own record, with unused bytes up to a length of 128. -/
def tileRecord : DirectoryRecord where
  extendedAttributeRecordLength := 0
  extentLoc := 20
  extentLength := 2048
  time := millennium
  fileFlags := FileFlags.DIRECTORY
  defined := directory_defined
  fileUnitSize := 0
  interleaveGapSize := 0
  volumeSequenceNumber := 1
  name := .self
  entries := []
  unused := 94
  fits := by decide

/-- Its header, read with any character encoding. -/
def tileHeader (enc : CharacterEncoding) : DirectoryEntryHeader :=
  { tileRecord.header with characterEncoding := enc }

theorem length_tileRecord : tileRecord.encode.length = 128 := by rfl

/-- The name of the directory itself is the same in all encodings. -/
theorem directoryEntry_tile (b : Build) (enc : CharacterEncoding) :
    directoryEntry b enc tileRecord.encode
      = .ok ([], tileHeader enc, "\x00", none) := by
  have hfixed : FixedFields b (tileHeader enc) tileRecord.fixed :=
    tileRecord.fixedFields.reencode enc
  have hid : identifierText b enc tileRecord.name.bytes
      = .ok ([], "\x00") := rfl
  obtain ⟨unused, hsusp⟩ := tileRecord.area_read (b := b)
  have hpad : (List.replicate (pad 1) (0 : UInt8)).length
      = pad tileRecord.name.bytes.length := rfl
  have hread := directoryEntry_assembled hfixed hpad rfl hid hsusp []
  rw [List.append_nil] at hread
  exact hread.trans (by cases b.assertions <;> rfl)

def tile (b : Build) (enc : CharacterEncoding) : EncodedRecord b enc where
  bytes := tileRecord.encode
  header := tileHeader enc
  identifier := "\x00"
  area := none
  entry := .directory (ISODirectory.new (tileHeader enc) plainExt "\x00")
  parsed := directoryEntry_tile b enc
  noContinuation := rfl
  noChildLink := rfl
  built := by
    have hdir : contains (tileHeader enc).fileFlags FileFlags.DIRECTORY
        = true := show contains FileFlags.DIRECTORY _ = true by decide
    have hnew : DirectoryEntry.new (tileHeader enc) plainExt "\x00"
        = .ok (.directory (ISODirectory.new (tileHeader enc) plainExt
          "\x00")) := if_pos hdir
    have hext : extraMeta b [] = .ok plainExt := rfl
    unfold buildEntry
    rw [Option.getD_none, hext, Outcome.ok_bind, hnew, Outcome.ok_bind]
    rfl
  bounded := by
    rw [length_tileRecord]
    decide

theorem length_packed_tiles (b : Build) (enc : CharacterEncoding) (n : Nat) :
    (packed (List.replicate n (tile b enc))).length = n * 128 := by
  have hlen : (tile b enc).bytes.length = 128 := length_tileRecord
  simp [packed, hlen]

/-- A block of such records, without a byte left over. -/
def tileBlock (b : Build) (enc : CharacterEncoding) : RecordBlock b enc where
  records := List.replicate 16 (tile b enc)
  nonempty := by simp
  fits := by
    rw [length_packed_tiles]

/-- An image of `n` such blocks. -/
def tiledImage (b : Build) (enc : CharacterEncoding) (n : Nat) :
    List UInt8 :=
  (List.replicate n (tileBlock b enc).buffer.bytes).flatten

theorem imageBlock_tiledImage {enc : CharacterEncoding} {lba n : Nat}
    (h : lba < n) :
    imageBlock (tiledImage b enc n) lba
      = (tileBlock b enc).buffer.bytes := by
  have hsize := (tileBlock b enc).buffer.size
  obtain ⟨k, rfl⟩ := Nat.exists_eq_add_of_lt h
  unfold imageBlock tiledImage
  rw [Nat.add_assoc, ← List.replicate_append_replicate, List.flatten_append,
    List.drop_left' (by simp [hsize, Nat.mul_comm]), List.replicate_succ,
    List.flatten_cons, List.take_left' hsize]

theorem length_tiledImage (b : Build) (enc : CharacterEncoding) (n : Nat) :
    (tiledImage b enc n).length = BLOCK_SIZE * n := by
  have hsize := (tileBlock b enc).buffer.size
  simp [tiledImage, hsize, Nat.mul_comm]

/-- The image with `n` of them from the start of an extent on. -/
def tiledExtent (b : Build) (dir : ISODirectory) (n : Nat) : List UInt8 :=
  tiledImage b dir.header.characterEncoding (dir.header.extentLoc.toNat + n)

theorem tiledExtent_held (b : Build) (dir : ISODirectory) {n : Nat}
    (hn : n ≤ 2 ^ 32) :
    Held (cursorSource b (tiledExtent b dir n)) dir
      (List.replicate n (tileBlock b dir.header.characterEncoding)) where
  encoding := rfl
  delivered := by
    intro i blk hblk
    have hloc := dir.header.extentLoc.toNat_lt
    obtain ⟨hi, hblk⟩ := List.getElem?_eq_some_iff.mp hblk
    rw [List.length_replicate] at hi
    rw [List.getElem_replicate] at hblk
    rw [cursorSource_deliver b _ (by omega), tiledExtent,
      imageBlock_tiledImage (by omega), hblk]

-- ====================================================== going outside

/-- What the iterator comes to is yielded, so it stays below the bound. -/
theorem RecordsBelow.reached {bound : Nat} (h : RecordsBelow b rd dir bound)
    (hserve : rd.Serves src) (s : σ) {fuel offset : Nat}
    (hreach : Cursor.Reached (entryAt b src fuel dir) 0 offset)
    {entry : DirectoryEntry} {next : Option Nat}
    (hentry : entryAt b src fuel dir offset = .ok (entry, next)) :
    offset < bound ∧ offset + entry.header.length.toNat ≤ bound := by
  obtain ⟨n, hn⟩ := hreach.exists_calls
  have hoff := (next_iterate (b := b) hserve fuel dir n contents s
    (coherent_new src dir)).1
  have hitem : item b rd fuel dir s n = some (.ok entry) := by
    rw [item_eq hserve, Cursor.itemFrom_eq, hn, Option.map_some, hentry]
    rfl
  obtain ⟨offset', hoff', hbelow⟩ := h fuel s n entry hitem
  rw [hoff] at hoff'
  have hsame : some offset = some offset' := hn.symm.trans hoff'
  injection hsame with hsame
  rw [hsame]
  exact hbelow

/-- The length of an extent that is not whole does not overflow. -/
theorem lt_of_not_extentWhole (h : ¬ ExtentWhole dir) :
    dir.header.extentLength.toNat < 2 ^ 32 - BLOCK_SIZE := by
  by_contra hlt
  refine h ⟨fun hzero => ?_, ?_⟩
  · rw [hzero] at hlt
    exact hlt (by decide)
  · by_cases hlast : dir.header.extentLength.toNat = 2 ^ 32 - BLOCK_SIZE
    · rw [hlast]
      exact Or.inl (by decide)
    · exact Or.inr (by omega)

/-- In an image of full blocks every counted block is read to its last
byte, and the first record is read in any case. -/
theorem RecordsBelow.tiled {count bound : Nat}
    (hcount : dir.blockCount b = .ok count)
    (h : RecordsBelow b
      ((cursor (tiledExtent b dir (count + 1))).reader b) dir bound) :
    0 < bound ∧ BLOCK_SIZE * count ≤ bound := by
  have hmany := blockCount_lt hcount
  have hheld := tiledExtent_held b dir (n := count + 1) (by omega)
  have hserve := cursor_serves b (tiledExtent b dir (count + 1))
  have hblock : ∀ i < count + 1, (List.replicate (count + 1) (tileBlock b
      dir.header.characterEncoding))[i]?
        = some (tileBlock b dir.header.characterEncoding) := by
    intro i hi
    rw [List.getElem?_replicate, if_pos hi]
  constructor
  · have hrecords : (tileBlock b dir.header.characterEncoding).records
        = [] ++ tile b _ :: List.replicate 15 (tile b _) := rfl
    have hfirst := entryAt_held hheld hcount 0 (hblock 0 (by omega)) hrecords
    exact (h.reached hserve 0 .start hfirst).1
  · cases count with
    | zero => exact Nat.zero_le _
    | succ count =>
        -- the last record of the last block
        have hblk := hblock count (by omega)
        have hrecords : (tileBlock b dir.header.characterEncoding).records
            = List.replicate 15 (tile b _) ++ tile b _ :: [] := rfl
        have hstart := reached_block hheld hcount 0 count
          (by rw [List.length_replicate]; omega) (by omega)
        have hreach := reached_records hheld hcount 0 hblk (by omega) hstart
          _ hrecords
        have hlast := entryAt_held hheld hcount 0 hblk hrecords
        have hend := (h.reached hserve 0 hreach hlast).2
        rw [length_packed_tiles] at hend
        change BLOCK_SIZE * count + 15 * 128 + 128 ≤ bound at hend
        unfold BLOCK_SIZE at hend ⊢
        omega

/-- So the iterator leaves an extent that is not whole. -/
theorem exists_outside (b : Build) (h : ¬ ExtentWhole dir) :
    ∃ image, ¬ InsideExtent b ((cursor image).reader b) dir := by
  obtain ⟨count, hceil⟩ : ∃ count, count
    = (dir.header.extentLength.toNat + (BLOCK_SIZE - 1)) / BLOCK_SIZE :=
    ⟨_, rfl⟩
  have hcount := blockCount_ceil b (lt_of_not_extentWhole h)
  rw [← hceil] at hcount
  refine ⟨tiledExtent b dir (count + 1), fun hinside => ?_⟩
  obtain ⟨hpos, hend⟩ := RecordsBelow.tiled hcount hinside
  refine h ⟨fun hzero => ?_, Or.inl ?_⟩
  · rw [hzero] at hpos
    exact absurd hpos (by decide)
  · unfold BLOCK_SIZE at hceil hend ⊢
    omega

/-- Iteration stays inside the extent, over every image or over every
reader, exactly if the extent is whole. -/
theorem insideExtent_iff (b : Build) (dir : ISODirectory) :
    ((∀ image : List UInt8, InsideExtent b ((cursor image).reader b) dir)
        ↔ ExtentWhole dir)
      ∧ ((∀ (σ : Type) (rd : ISO9660Reader σ), InsideExtent b rd dir)
        ↔ ExtentWhole dir) := by
  have hinside : ExtentWhole dir →
      ∀ (σ : Type) (rd : ISO9660Reader σ), InsideExtent b rd dir :=
    fun h _ rd => recordsBelow_of_blocks h.first (fun _ => h.counted) rd
  have houtside : (∀ image : List UInt8,
      InsideExtent b ((cursor image).reader b) dir) → ExtentWhole dir := by
    intro h
    by_contra hwhole
    obtain ⟨image, himage⟩ := exists_outside b hwhole
    exact himage (h image)
  exact ⟨⟨houtside, fun h image => hinside h _ _⟩,
    fun h => houtside fun image => h _ _, hinside⟩

/-- Three records back to back at the start of an image. -/
def threeDots : RecordBlock debugBuild .iso9660 where
  records := List.replicate 3 dotRecord
  nonempty := by decide
  fits := by decide

/-- A directory at the start of an image, of any length. -/
def dotsDirectory (length : UInt32) : ISODirectory :=
  { dotDirectory with
    header := { dotHeader with extentLoc := 0, extentLength := length } }

theorem threeDots_held (length : UInt32) :
    Held (cursorSource debugBuild threeDots.buffer.bytes)
      (dotsDirectory length) [threeDots] where
  encoding := rfl
  delivered := by
    intro i blk hblk
    have hsize := threeDots.buffer.size
    cases i with
    | zero =>
        have hblk := Option.some.inj hblk
        have hdel := cursorSource_deliver debugBuild threeDots.buffer.bytes
          (Nat.two_pow_pos 53)
        rw [← hblk]
        exact hdel.trans
          (congrArg Outcome.ok (List.take_of_length_le hsize.le))
    | succ i => cases hblk

/-- An empty directory yields the record it is followed by, and one of two
records yields the third. -/
theorem insideExtent_fails :
    (¬ InsideExtent debugBuild
        ((cursor threeDots.buffer.bytes).reader debugBuild)
        (dotsDirectory 0))
      ∧ ¬ InsideExtent debugBuild
        ((cursor threeDots.buffer.bytes).reader debugBuild)
        (dotsDirectory 68) := by
  have hserve := cursor_serves debugBuild threeDots.buffer.bytes
  constructor
  · intro h
    have hrecords : threeDots.records
        = [] ++ dotRecord :: [dotRecord, dotRecord] := rfl
    have hcount : (dotsDirectory 0).blockCount debugBuild = .ok 0 := by
      decide
    have hentry := entryAt_held (threeDots_held 0) hcount 0 (i := 0) rfl
      hrecords
    exact absurd (RecordsBelow.reached h hserve 0 .start hentry).1
      (by decide)
  · intro h
    have hrecords : threeDots.records
        = [dotRecord, dotRecord] ++ dotRecord :: [] := rfl
    have hcount : (dotsDirectory 68).blockCount debugBuild = .ok 1 := by
      decide
    have hreach := reached_records (threeDots_held 68) hcount 0 (i := 0) rfl
      (by decide) .start _ hrecords
    have hentry := entryAt_held (threeDots_held 68) hcount 0 (i := 0) rfl
      hrecords
    exact absurd (RecordsBelow.reached h hserve 0 hreach hentry).1
      (by decide)

end Cdfs
