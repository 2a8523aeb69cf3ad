/-
A disc that was written is read back. Its blocks are where the layout
says, so that each directory lists itself, its parent and its names, and
each file is its bytes (`Written`); the root stands for the hierarchy
that was written, and with it everything that holds over a volume.
-/
import Cdfs.Proofs.Mastering
import Cdfs.Proofs.RootSelection
import Cdfs.Proofs.VolumePrinting

namespace Cdfs

open Rust Parse Nom Forest Recording

variable {R : Recording}

-- ==================================================== blocks on an image

/-- The blocks are on the image, from one on. -/
def LiesAt (image : List UInt8) (start : ℕ) (blocks : List BlockBuffer) :
    Prop :=
  ∀ i block, blocks[i]? = some block →
    imageBlock image (start + i) = block.bytes

section LiesAt

variable {image : List UInt8} {start : ℕ} {blocks blocks' : List BlockBuffer}

/-- Blocks in a row lie where the first part of them lies, and the rest
behind it. -/
theorem liesAt_append :
    LiesAt image start (blocks ++ blocks')
      ↔ LiesAt image start blocks
        ∧ LiesAt image (start + blocks.length) blocks' := by
  constructor
  · intro h
    constructor
    · intro i block hi
      have hlt := (List.getElem?_eq_some_iff.mp hi).1
      exact h i block (by rw [List.getElem?_append_left hlt, hi])
    · intro i block hi
      rw [Nat.add_assoc]
      refine h _ block ?_
      rw [List.getElem?_append_right (Nat.le_add_right _ _),
        Nat.add_sub_cancel_left, hi]
  · rintro ⟨hfront, hback⟩ i block hi
    by_cases hlt : i < blocks.length
    · rw [List.getElem?_append_left hlt] at hi
      exact hfront i block hi
    · rw [List.getElem?_append_right (Nat.le_of_not_lt hlt)] at hi
      have hblock := hback _ block hi
      rw [Nat.add_assoc, Nat.add_sub_cancel' (Nat.le_of_not_lt hlt)] at hblock
      exact hblock

/-- An image of blocks has them where they are. -/
theorem liesAt_flatMap (blocks : List BlockBuffer) :
    LiesAt (blocks.flatMap (·.bytes)) 0 blocks := by
  intro i block hi
  rw [Nat.zero_add, imageBlock_flatMap, hi]
  rfl

/-- Together they are a piece of the image. -/
theorem LiesAt.bytes_eq (h : LiesAt image start blocks) :
    (image.drop (BLOCK_SIZE * start)).take (BLOCK_SIZE * blocks.length)
      = blocks.flatMap (·.bytes) := by
  induction blocks generalizing start with
  | nil => simp
  | cons block blocks ih =>
      have hfirst : imageBlock image start = block.bytes := h 0 block rfl
      have hlies : LiesAt image (start + 1) blocks := fun i block' hi => by
        rw [Nat.add_assoc, Nat.add_comm 1]
        exact h (i + 1) block' hi
      have hrest := ih hlies
      unfold imageBlock at hfirst
      rw [List.flatMap_cons, ← hrest, ← hfirst, List.length_cons,
        Nat.mul_succ, Nat.mul_succ, Nat.add_comm (BLOCK_SIZE * blocks.length),
        ← List.drop_drop, List.take_add]

/-- A source of the image delivers them. -/
theorem LiesAt.deliver {src : Source} (hsrc : src.Holds image)
    (h : LiesAt image start blocks) (hend : start + blocks.length ≤ 2 ^ 32)
    {i : ℕ} {block : BlockBuffer} (hi : blocks[i]? = some block) :
    src.deliver (start + i) = .ok block.bytes := by
  have hlt := (List.getElem?_eq_some_iff.mp hi).1
  rw [hsrc _ (by omega), h i block hi]

end LiesAt

/-- The blocks of a file begin with its bytes. -/
theorem take_fileBlocks (bytes : List UInt8) :
    ((fileBlocks bytes).flatMap (·.bytes)).take bytes.length = bytes := by
  apply List.ext_getElem?
  intro k
  by_cases hk : k < bytes.length
  · have hblock : k / BLOCK_SIZE < blocksFor bytes.length := by
      unfold blocksFor BLOCK_SIZE
      omega
    have hmod : k % BLOCK_SIZE < BLOCK_SIZE := Nat.mod_lt _ (by decide)
    have hdiv : BLOCK_SIZE * (k / BLOCK_SIZE) + k % BLOCK_SIZE = k :=
      Nat.div_add_mod k BLOCK_SIZE
    have hfile : (fileBlocks bytes)[k / BLOCK_SIZE]?
        = some (BlockBuffer.new.overwrite
          (imageBlock bytes (k / BLOCK_SIZE))) := by
      unfold fileBlocks
      rw [List.getElem?_map, List.getElem?_range hblock]
      rfl
    have himage := imageBlock_flatMap (fileBlocks bytes) (k / BLOCK_SIZE)
    rw [hfile] at himage
    have hstored := getElem?_imageBlock
      ((fileBlocks bytes).flatMap (·.bytes)) (k / BLOCK_SIZE) hmod
    have hlen := length_imageBlock bytes (k / BLOCK_SIZE)
    have hinside : k % BLOCK_SIZE
        < (imageBlock bytes (k / BLOCK_SIZE)).length := by
      rw [hlen]
      omega
    rw [List.getElem?_take_of_lt hk, ← hdiv, ← hstored, himage]
    show (BlockBuffer.new.overwrite _).bytes[_]? = _
    rw [BlockBuffer.getElem?_overwrite _ (by omega) hinside,
      getElem?_imageBlock bytes _ hmod]
  · rw [List.getElem?_eq_none (by rw [List.length_take]; omega),
      List.getElem?_eq_none (by omega)]

/-- What is read of a file whose blocks lie where its record says is what
was written to them. -/
theorem LiesAt.bytesOf_eq {image bytes : List UInt8} {start : ℕ}
    (h : LiesAt image start (fileBlocks bytes)) {file : ISOFile}
    (hloc : file.header.extentLoc.toNat = start)
    (hsize : file.size.toNat = bytes.length) :
    bytesOf image file = bytes := by
  have hlong : bytes.length ≤ BLOCK_SIZE * (fileBlocks bytes).length := by
    rw [Files.length_fileBlocks]
    exact le_blocksFor _
  have htake := take_fileBlocks bytes
  rw [← h.bytes_eq, List.take_take, Nat.min_eq_left hlong] at htake
  unfold bytesOf
  rw [hloc, hsize, htake]

-- ====================================================== a directory is read

/-- A block that is not filled ends in zeros. -/
theorem bytes_overwrite_new {bs : List UInt8} (h : bs.length ≤ BLOCK_SIZE) :
    (BlockBuffer.new.overwrite bs).bytes
      = bs ++ List.replicate (BLOCK_SIZE - bs.length) 0 := by
  simp only [BlockBuffer.overwrite, BlockBuffer.new, List.drop_replicate,
    List.take_of_length_le h]

/-- Groups that fit are the records of blocks. -/
theorem exists_recordBlocks (b : Build) (time : Stamp)
    (groups : List (List (Item R)))
    (h : ∀ g ∈ groups, g ≠ []
      ∧ (g.map (R.size ∘ Item.label)).sum ≤ BLOCK_SIZE) :
    ∃ blocks : List (RecordBlock b .iso9660),
      blocks.map (·.buffer) = (groups.map fun group =>
          BlockBuffer.new.overwrite
            (group.flatMap fun i => (i.record time).encode))
        ∧ recorded blocks = groups.flatten.map (Item.entry time) := by
  induction groups with
  | nil => exact ⟨[], rfl, rfl⟩
  | cons g groups ih =>
      obtain ⟨blocks, hbuffers, hentries⟩ :=
        ih fun g hg => h g (List.mem_cons_of_mem _ hg)
      obtain ⟨hne, hsum⟩ := h g List.mem_cons_self
      have hpacked : packed (g.map fun i => i.encoded time b)
          = g.flatMap fun i => (i.record time).encode := by
        unfold packed
        rw [List.flatMap_map]
        rfl
      have hlen : (packed (g.map fun i => i.encoded time b)).length
          = (g.map (R.size ∘ Item.label)).sum := by
        rw [hpacked, List.length_flatMap]
        simp only [Item.length_record]
        rfl
      let first : RecordBlock b .iso9660 :=
        { records := g.map fun i => i.encoded time b
          nonempty := by simpa using hne
          fits := hlen.trans_le hsum }
      have hbuffer : first.buffer = BlockBuffer.new.overwrite
          (g.flatMap fun i => (i.record time).encode) := by
        apply BlockBuffer.ext
        rw [← hpacked]
        exact (bytes_overwrite_new first.fits).symm
      refine ⟨first :: blocks, ?_, ?_⟩
      · rw [List.map_cons, List.map_cons, hbuffers, hbuffer]
      · unfold recorded at hentries ⊢
        rw [List.flatMap_cons, hentries, List.flatten_cons, List.map_append,
          List.map_map]
        rfl

/-- The directory is at this place. -/
structure IsAt (x : Extent) (dir : ISODirectory) : Prop where
  extentLoc : dir.header.extentLoc = .ofNat x.start
  extentLength : dir.header.extentLength = .ofNat x.length
  encoding : dir.header.characterEncoding = .iso9660

theorem IsAt.sameExtent {x : Extent} {dir dir' : ISODirectory}
    (h : IsAt x dir) (h' : IsAt x dir') : SameExtent dir dir' :=
  ⟨h.extentLoc.trans h'.extentLoc.symm,
    h.extentLength.trans h'.extentLength.symm,
    h.encoding.trans h'.encoding.symm⟩

/-- The iterator yields the items of a directory. -/
theorem directory_yields {b : Build} {src : Source} {image : List UInt8}
    (hsrc : src.Holds image) (fuel : ℕ) {time : Stamp} {items : List (Item R)}
    (hne : items ≠ []) {x : Extent}
    (hlies : LiesAt image x.start (directoryBlocks time items))
    (hlength : x.length = BLOCK_SIZE * (directoryBlocks time items).length)
    (hsmall : (directoryBlocks time items).length < 2 ^ 21 - 1)
    (hend : x.start + (directoryBlocks time items).length ≤ 2 ^ 32)
    {dir : ISODirectory} (hdir : IsAt x dir) :
    Cursor.Yields (entryAt b src fuel dir) (some 0)
      (items.map (Item.entry time)) := by
  obtain ⟨blocks, hbuffers, hentries⟩ := exists_recordBlocks b time
    (pack (R.size ∘ Item.label) BLOCK_SIZE items)
    (of_mem_pack fun i _ => (R.size_le i.label).trans (by decide))
  rw [flatten_pack] at hentries
  have hbuffers : blocks.map (·.buffer) = directoryBlocks time items :=
    hbuffers
  have hcount : blocks.length = (directoryBlocks time items).length := by
    rw [← hbuffers, List.length_map]
  have hpos : blocks ≠ [] := by
    rintro rfl
    rw [List.map_eq_nil_iff.mp hentries.symm] at hne
    exact hne rfl
  have hpositive := List.length_pos_of_ne_nil hpos
  have hloc : dir.header.extentLoc.toNat = x.start := by
    rw [hdir.extentLoc, UInt32.toNat_ofNat', Nat.mod_eq_of_lt (by omega)]
  have hlen : dir.header.extentLength.toNat = BLOCK_SIZE * blocks.length := by
    rw [hdir.extentLength, UInt32.toNat_ofNat', hlength, hcount,
      Nat.mod_eq_of_lt]
    unfold BLOCK_SIZE
    omega
  have hstored : Stored src dir blocks :=
    { encoding := hdir.encoding
      nonempty := hpos
      length := hlen
      delivered := fun i blk hblk => by
        rw [hloc]
        refine hlies.deliver hsrc hend ?_
        rw [← hbuffers, List.getElem?_map, hblk]
        rfl }
  rw [← hentries]
  refine stored_yields hstored ?_ fuel
  rw [blockCount_whole hpositive hlen, if_pos (Or.inl (hcount ▸ hsmall))]

-- ============================================================ the records

namespace Item

variable (time : Stamp)

theorem isAt (i : Item R) : IsAt i.extent (i.directory time) := ⟨rfl, rfl, rfl⟩

theorem not_associated (i : Item R) : ¬ IsAssociated (i.entry time) := by
  obtain ⟨l, x⟩ := i
  have hleaf : ¬ contains 0 FileFlags.ASSOCIATED_FILE = true := by decide
  cases l with
  | leaf n =>
      unfold entry
      dsimp only
      by_cases hlink : (R.target n).isSome = true
      · rw [if_pos hlink]
        exact hleaf
      · rw [if_neg hlink]
        exact hleaf
  | own | parent | folder =>
      exact (show ¬ contains FileFlags.DIRECTORY FileFlags.ASSOCIATED_FILE
        = true by decide)

theorem identifier_own (top : Bool) (x : Extent) :
    ((⟨.own top, x⟩ : Item R).directory time).identifier = "." := by
  unfold directory ISODirectory.new ExtraMeta.name
  dsimp only
  rw [(R.anonymous top).1, R.identifier_own]
  rfl

theorem identifier_parent (x : Extent) :
    ((⟨.parent, x⟩ : Item R).directory time).identifier = ".." := by
  unfold directory ISODirectory.new ExtraMeta.name
  dsimp only
  rw [R.anonymous_parent, R.identifier_parent]
  rfl

theorem identifier_folder (n : R.Name) (x : Extent) :
    ((⟨.folder n, x⟩ : Item R).directory time).identifier = R.text n := by
  have hname : (R.ext (.folder n)).name (R.identifier (.folder n)).identifier
      = R.text n := R.folder_name n
  have hspecial := R.folder_text n
  simp only [List.mem_cons, List.not_mem_nil, or_false, not_or] at hspecial
  unfold directory ISODirectory.new
  dsimp only
  rw [hname, if_neg hspecial.1, if_neg hspecial.2.1]

theorem modifyTime_folder (n : R.Name) (x : Extent) :
    (DirectoryEntry.directory ((⟨.folder n, x⟩ : Item R).directory time)).modifyTime
      = (R.modified n).getD time.time := by
  show (R.ext (.folder n)).timestamps.modify.getD time.time = _
  rw [R.folder_modified]

section Leaf

variable {n : R.Name} {x : Extent}

theorem entry_file (h : R.target n = none) :
    (⟨.leaf n, x⟩ : Item R).entry time = .file (file time n x) := by
  unfold entry
  dsimp only
  rw [h]
  rfl

theorem entry_link {target : String} (h : R.target n = some target) :
    (⟨.leaf n, x⟩ : Item R).entry time = .symlink (link time n x) := by
  unfold entry
  dsimp only
  rw [h]
  rfl

theorem target_link : (link time n x).target = R.target n := R.leaf_target n

end Leaf

end Item

theorem Recording.content_file {n : R.Name} (h : R.target n = none)
    (data : List UInt8) :
    R.content n data = .file data ∧ R.bytes n data = data := by
  unfold content bytes
  rw [h]
  exact ⟨rfl, rfl⟩

theorem Recording.content_link {n : R.Name} {target : String}
    (h : R.target n = some target) (data : List UInt8) :
    R.content n data = .link (some target) := by
  unfold content
  rw [h]

-- ============================================================ the hierarchy

/-- The files and the directories of a hierarchy are on the image, below
the directory. -/
inductive Written (b : Build) (src : Source) (fuel : ℕ)
    (image : List UInt8) (time : Stamp) :
    ISODirectory → Files R → List (Item R) → Prop
  | empty {dir : ISODirectory} : Written b src fuel image time dir .empty []
  | file {dir : ISODirectory} {n : R.Name} {bytes : List UInt8}
      {x : Extent} {beside : Files R} {items : List (Item R)} :
      R.target n = none →
      BLOCK_SIZE * (Item.file time n x).header.extentLoc.toNat
        + (Item.file time n x).size.toNat ≤ image.length →
      bytesOf image (Item.file time n x) = bytes →
      Written b src fuel image time dir beside items →
      Written b src fuel image time dir (.leaf n bytes beside)
        (⟨.leaf n, x⟩ :: items)
  | link {dir : ISODirectory} {n : R.Name} {bytes : List UInt8}
      {x : Extent} {beside : Files R} {items : List (Item R)}
      {target : String} :
      R.target n = some target →
      Written b src fuel image time dir beside items →
      Written b src fuel image time dir (.leaf n bytes beside)
        (⟨.leaf n, x⟩ :: items)
  | folder {dir : ISODirectory} {n : R.Name} {x : Extent}
      {below beside : Files R} {inside items : List (Item R)} :
      Lists b src fuel ((⟨.folder n, x⟩ : Item R).directory time) dir
        (inside.map (Item.entry time)) →
      Written b src fuel image time
        ((⟨.folder n, x⟩ : Item R).directory time) below inside →
      Written b src fuel image time dir beside items →
      Written b src fuel image time dir (.folder n below beside)
        (⟨.folder n, x⟩ :: items)

/-- No name is `.` or `..`, so that no entry is passed over as one of
these. -/
theorem Recording.ne_dots (n : R.Name) : R.text n ≠ "." ∧ R.text n ≠ ".." := by
  have hspecial := R.folder_text n
  simp only [List.mem_cons, List.not_mem_nil, or_false, not_or] at hspecial
  exact hspecial.2.2

/-- What is written presents what should be read. -/
theorem Written.presents {b : Build} {src : Source} {fuel : ℕ}
    {image : List UInt8} {time : Stamp} {dir : ISODirectory} {h : Files R}
    {items : List (Item R)} (hw : Written b src fuel image time dir h items) :
    Presents b src fuel image dir h.tree
      (items.map (Item.entry time)) := by
  induction hw with
  | empty => exact .empty
  | @file dir n bytes x beside items hfile hinside hbytes _ ih =>
      have hcontent := IsContent.file hinside
      have hplain := (⟨.leaf n, x⟩ : Item R).not_associated time
      rw [Item.entry_file time hfile] at hplain
      rw [hbytes, ← (R.content_file hfile bytes).1] at hcontent
      rw [List.map_cons, Item.entry_file time hfile]
      exact .leaf hplain hcontent ih
  | @link dir n bytes x beside items target hlink _ ih =>
      have hcontent : IsContent image _ _ := .link (Item.link time n x)
      have hplain := (⟨.leaf n, x⟩ : Item R).not_associated time
      rw [Item.entry_link time hlink] at hplain
      rw [Item.target_link, hlink, ← R.content_link hlink bytes] at hcontent
      rw [List.map_cons, Item.entry_link time hlink]
      exact .leaf hplain hcontent ih
  | @folder dir n x below beside inside items hlists _ _ ihbelow ih =>
      have hname := Item.identifier_folder time n x
      have hplain : ¬ IsAssociated (.directory
          ((⟨.folder n, x⟩ : Item R).directory time)) :=
        (⟨.folder n, x⟩ : Item R).not_associated time
      have hpresents := Presents.folder hplain (hname ▸ (R.ne_dots n).1)
        (hname ▸ (R.ne_dots n).2) hlists ihbelow ih
      rw [hname] at hpresents
      exact hpresents

-- ================================================================ the lines

/-- The line that `print_tree` has for a name. -/
def Recording.line (R : Recording) (l : Label R.Name) (time : OffsetDateTime)
    (level : ℕ) (n : R.Name) (content : Option Content) : String :=
  R.shownMode l ++ " " ++ formatTime time ++ " " ++ indent level ++ R.text n
    ++ mark content

/-- The lines of a folder, where the time of the folder is shown for the
links that are in it. -/
def Files.lines (recorded : OffsetDateTime) :
    Files R → OffsetDateTime → ℕ → List String
  | .empty, _, _ => []
  | .leaf n bytes beside, above, level =>
      R.line (.leaf n) (if (R.target n).isSome then above
          else (R.modified n).getD recorded) level n
          (some (R.content n bytes))
        :: lines recorded beside above level
  | .folder n below beside, above, level =>
      let own := (R.modified n).getD recorded
      R.line (.folder n) own level n none
        :: (lines recorded below own (level + 1)
          ++ lines recorded beside above level)

section Line

variable (b : Build) (time : Stamp) (dir : ISODirectory) (level : ℕ)
  {n : R.Name} {x : Extent}

/-- The parts of a line. -/
theorem entryLine_eq {entry : DirectoryEntry} {l : Label R.Name}
    {shown : OffsetDateTime} {content : Option Content}
    (hext : entry.ext = R.ext l) (hshown : printedTime dir entry = shown)
    (hname : entry.identifier = R.text n)
    (hsuffix : suffix entry = mark content) :
    entryLine b dir level entry = .ok (R.line l shown level n content) := by
  unfold entryLine DirectoryEntry.mode
  rw [hext, R.modeText_eq, Outcome.ok_bind, hshown, hname, hsuffix]
  rfl

/-- The line of a file is the one that was meant, -/
theorem entryLine_file (h : R.target n = none) (bytes : List UInt8) :
    entryLine b dir level ((⟨.leaf n, x⟩ : Item R).entry time)
      = .ok (R.line (.leaf n) ((R.modified n).getD time.time) level n
        (some (R.content n bytes))) := by
  rw [Item.entry_file time h, (R.content_file h bytes).1]
  refine entryLine_eq b dir level rfl ?_ rfl rfl
  show (R.ext (.leaf n)).timestamps.modify.getD time.time = _
  rw [R.leaf_modified]

/-- that of a link has its target behind the name, -/
theorem entryLine_link {target : String} (h : R.target n = some target)
    (bytes : List UInt8) :
    entryLine b dir level ((⟨.leaf n, x⟩ : Item R).entry time)
      = .ok (R.line (.leaf n) (DirectoryEntry.directory dir).modifyTime level n
        (some (R.content n bytes))) := by
  rw [Item.entry_link time h, R.content_link h bytes]
  refine entryLine_eq b dir level rfl rfl rfl ?_
  show " → " ++ targetText (Item.link time n x).target = _
  rw [Item.target_link, h]
  rfl

/-- and that of a folder has no target either. -/
theorem entryLine_folder :
    entryLine b dir level ((⟨.folder n, x⟩ : Item R).entry time)
      = .ok (R.line (.folder n) ((R.modified n).getD time.time) level n
        none) :=
  entryLine_eq b dir level rfl (Item.modifyTime_folder time n x)
    (Item.identifier_folder time n x) rfl

end Line

/-- The lines below a directory that was written. -/
theorem Written.lines {b : Build} {src : Source} {fuel : ℕ}
    {image : List UInt8} {time : Stamp} {dir : ISODirectory} {h : Files R}
    {items : List (Item R)} (hw : Written b src fuel image time dir h items) :
    ∃ forest, Unfolds (Below b src fuel)
        (placed dir (items.map (Item.entry time))) forest
      ∧ ∀ level, Lines b (forest.preorder level)
        (h.lines time.time (DirectoryEntry.directory dir).modifyTime
          level) := by
  induction hw with
  | empty => exact ⟨.empty, .empty, fun _ => .nil⟩
  | @file dir n bytes x beside items hfile _ _ _ ih =>
      obtain ⟨forest, hunfolds, hlines⟩ := ih
      have hline (level : ℕ) := entryLine_file b time dir level (x := x)
        hfile bytes
      rw [List.map_cons]
      rw [Item.entry_file time hfile] at hline ⊢
      refine ⟨_, .tree (.file _ _) .empty hunfolds, fun level => ?_⟩
      rw [Files.lines, hfile]
      exact .cons (hline level) (hlines level)
  | @link dir n bytes x beside items target hlink _ ih =>
      obtain ⟨forest, hunfolds, hlines⟩ := ih
      have hline (level : ℕ) := entryLine_link b time dir level (x := x)
        hlink bytes
      rw [List.map_cons]
      rw [Item.entry_link time hlink] at hline ⊢
      refine ⟨_, .tree (.symlink _ _) .empty hunfolds, fun level => ?_⟩
      rw [Files.lines, hlink]
      exact .cons (hline level) (hlines level)
  | @folder dir n x below beside inside items hlists _ _ ihbelow ih =>
      obtain ⟨forest, hunfolds, hlines⟩ := ih
      obtain ⟨under, hunder, hlinesunder⟩ := ihbelow
      have hname := Item.identifier_folder time n x
      have hshown : passedOver ((⟨.folder n, x⟩ : Item R).entry time)
          = false := by
        show passedOver (.directory
          ((⟨.folder n, x⟩ : Item R).directory time)) = false
        simp [passedOver, hname, R.ne_dots n]
      rw [Item.modifyTime_folder] at hlinesunder
      rw [List.map_cons, placed_cons hshown]
      refine ⟨_, .tree (hlists.below _) hunder hunfolds, fun level => ?_⟩
      exact .cons (entryLine_folder b time dir level)
        (lines_append.mpr ⟨_, _, hlinesunder (level + 1), hlines level, rfl⟩)

namespace Files

variable {b : Build} {src : Source} {image : List UInt8} {fuel : ℕ}
  {time : Stamp}

section Directory

variable {h : Files R} {top : Bool} {start : ℕ} {parent : Extent}
  {dir up : ISODirectory}

/-- A directory that is on the image yields its records. -/
theorem directory_entries (hsrc : src.Holds image)
    (hsmall : h.directorySize top < 2 ^ 21 - 1)
    (hend : start + h.directorySize top ≤ 2 ^ 32)
    (hlies : LiesAt image start (directoryBlocks time
      (directoryItems top (h.extent top start) parent
        (h.items (start + h.directorySize top)))))
    (hdir : IsAt (h.extent top start) dir) :
    Cursor.Yields (entryAt b src fuel dir) (some 0)
      ((directoryItems top (h.extent top start) parent
        (h.items (start + h.directorySize top))).map (Item.entry time)) := by
  have hlength := h.length_directoryBlocks time top (h.extent top start) parent
    (start + h.directorySize top)
  have hne (own up : Extent) (items : List (Item R)) :
      directoryItems top own up items ≠ [] := List.cons_ne_nil _ _
  refine directory_yields hsrc fuel (hne _ _ _) hlies ?_ ?_ ?_ hdir
  · rw [hlength]
    rfl
  · rw [hlength]
    exact hsmall
  · rw [hlength]
    exact hend

/-- So it lists itself, its parent and its names. -/
theorem directory_lists (hsrc : src.Holds image)
    (hsmall : h.directorySize top < 2 ^ 21 - 1)
    (hend : start + h.directorySize top ≤ 2 ^ 32)
    (hlies : LiesAt image start (directoryBlocks time
      (directoryItems top (h.extent top start) parent
        (h.items (start + h.directorySize top)))))
    (hdir : IsAt (h.extent top start) dir) (hup : IsAt parent up) :
    Lists b src fuel dir up ((h.items (start + h.directorySize top)).map
      (Item.entry time)) :=
  let own : Item R := ⟨.own top, h.extent top start⟩
  let above : Item R := ⟨.parent, parent⟩
  ⟨own.directory time, above.directory time,
    directory_entries hsrc hsmall hend hlies hdir,
    Item.identifier_own time top _, Item.identifier_parent time _,
    own.not_associated time, above.not_associated time,
    (own.isAt time).sameExtent hdir, (above.isAt time).sameExtent hup⟩

/-- A file that is on the image is there. -/
theorem written_file {n : R.Name} {bytes : List UInt8} {beside : Files R}
    {items : List (Item R)} (hfile : R.target n = none)
    (hshort : bytes.length < 2 ^ 32)
    (hend : start + blocksFor bytes.length < 2 ^ 32)
    (hlies : LiesAt image start (fileBlocks bytes))
    (hlong : BLOCK_SIZE * (start + blocksFor bytes.length) ≤ image.length)
    (hbeside : Written b src fuel image time dir beside items) :
    Written b src fuel image time dir (.leaf n bytes beside)
      (⟨.leaf n, ⟨start, bytes.length⟩⟩ :: items) := by
  let file := Item.file time n ⟨start, bytes.length⟩
  have hloc : file.header.extentLoc.toNat = start := by
    show (UInt32.ofNat start).toNat = start
    rw [UInt32.toNat_ofNat', Nat.mod_eq_of_lt (by omega)]
  have hsize : file.size.toNat = bytes.length := by
    show (UInt32.ofNat bytes.length).toNat = bytes.length
    rw [UInt32.toNat_ofNat', Nat.mod_eq_of_lt hshort]
  have hblocks := le_blocksFor bytes.length
  have hinside : BLOCK_SIZE * file.header.extentLoc.toNat + file.size.toNat
      ≤ image.length := by
    rw [hloc, hsize]
    unfold BLOCK_SIZE at hlong hblocks ⊢
    omega
  exact .file hfile hinside (hlies.bytesOf_eq hloc hsize) hbeside

end Directory

/-- What is written below a directory is there. -/
theorem written_data (hsrc : src.Holds image) (h : Files R) :
    ∀ (own : Extent) (start : ℕ) {dir : ISODirectory},
      h.Small → start + h.dataSize < 2 ^ 32 →
      LiesAt image start (h.data time own start) →
      BLOCK_SIZE * (start + h.dataSize) ≤ image.length → IsAt own dir →
      Written b src fuel image time dir h (h.items start) := by
  induction h with
  | empty => exact fun _ _ _ _ _ _ _ _ => .empty
  | leaf n bytes beside ih =>
      intro own start dir hsmall hend hlies hlong hdir
      obtain ⟨hshort, hsmall⟩ := hsmall
      rw [data, liesAt_append, length_fileBlocks] at hlies
      rw [dataSize] at hend hlong
      have hbeside := ih own (start + blocksFor (R.bytes n bytes).length)
        hsmall (by omega) hlies.2 (by rw [Nat.add_assoc]; exact hlong) hdir
      cases htarget : R.target n with
      | some target => exact .link htarget hbeside
      | none =>
          have hbytes := (R.content_file htarget bytes).2
          rw [hbytes] at hshort hend hlies hlong hbeside
          rw [items, hbytes]
          exact written_file htarget hshort (by omega) hlies.1
            (by unfold BLOCK_SIZE at hlong ⊢; omega) hbeside
  | folder n below beside ihbelow ih =>
      intro own start dir hsmall hend hlies hlong hdir
      obtain ⟨hcount, hbelow, hbeside⟩ := hsmall
      rw [data, liesAt_append, liesAt_append, length_directoryBlocks,
        length_data] at hlies
      obtain ⟨hown, hunder, hnext⟩ := hlies
      rw [dataSize] at hend hlong
      have hsub : IsAt (extent false below start)
          ((⟨.folder n, extent false below start⟩ : Item R).directory time) :=
        (⟨.folder n, extent false below start⟩ : Item R).isAt time
      have hlists : Lists b src fuel _ _ _ :=
        directory_lists hsrc hcount (by omega) hown hsub hdir
      have hinside := ihbelow (extent false below start) _ hbelow
        (by omega) hunder (by unfold BLOCK_SIZE at hlong ⊢; omega) hsub
      have hrest := ih own
        (start + (directorySize false below + dataSize below))
        hbeside (by omega) (Nat.add_assoc start _ _ ▸ hnext)
        (by unfold BLOCK_SIZE at hlong ⊢; omega) hdir
      exact .folder hlists hinside hrest

end Files

-- ================================================================ mounting

section Mount

variable {σ : Type} {b : Build} {rd : ISO9660Reader σ} {src : Source}

/-- A block of the image is read as it is there. -/
theorem readAt_of_lies {image : List UInt8} (hserve : rd.Serves src)
    (hsrc : src.Holds image) {lba : ℕ} {block : BlockBuffer}
    (hlba : lba < 2 ^ 53) (hblock : imageBlock image lba = block.bytes)
    (buf : BlockBuffer) (s : σ) :
    ∃ s', rd.readAt s buf lba = (s', block, .ok BLOCK_SIZE) := by
  have hread := hserve s buf lba
  unfold Source.fill at hread
  rw [hsrc lba hlba, hblock] at hread
  dsimp only at hread
  rw [BlockBuffer.overwrite_full _ block.size, block.size] at hread
  exact ⟨_, Prod.ext rfl hread⟩

/-- The terminator ends the descriptors in any build. -/
theorem terminator_parse (b : Build) :
    VolumeDescriptor.parse b terminatorBlock.bytes
      = .ok (some .volumeDescriptorSetTerminator) := by
  have hbytes : terminatorBlock.bytes = 255 :: 0x43 :: 0x44 :: 0x30 :: 0x30
      :: 0x31 :: 1 :: List.replicate 2041 0 := by
    unfold terminatorBlock
    rw [bytes_overwrite_new (by decide)]
    rfl
  rw [hbytes]
  rfl

/-- Without a supplementary root there is no choice. -/
theorem mainRoot_of_first (hserve : rd.Serves src) {fuel : ℕ}
    {iso : ISO9660} (hsup : iso.supRoot = none) {entry : DirectoryEntry}
    {next : Option ℕ}
    (hentry : entryAt b src fuel iso.root 0 = .ok (entry, next)) (s : σ) :
    (iso.mainRoot b rd fuel s).1 = .ok iso.root := by
  obtain ⟨rr, hrr, -⟩ := @ridgeAnswer_built entry next
  rw [mainRoot_eq, isRr_serves hserve, hentry, hrr, Outcome.ok_bind]
  unfold ISO9660.rootFor
  rw [hsup]
  cases rr with
  | true => rfl
  | false => rfl

namespace Disc

variable (d : Disc R)

/-- The descriptor of a disc is read as the table it was written from. -/
theorem descriptor_parse (b : Build) :
    VolumeDescriptor.parse b d.descriptor.encode
      = .ok (some (.primary d.descriptor.table)) := by
  have hok : d.descriptor.rootRecord.asserted b = .ok () :=
    DirectoryRecord.asserted_whole b rfl rfl
  rw [parse_encode, hok]
  rfl

/-- What is where. -/
theorem lies :
    imageBlock d.image 16 = d.descriptor.encode
      ∧ imageBlock d.image 17 = terminatorBlock.bytes
      ∧ LiesAt d.image 18 (directoryBlocks d.time (directoryItems true
        d.root d.root (d.files.items (18 + d.files.directorySize true))))
      ∧ LiesAt d.image (18 + d.files.directorySize true)
        (d.files.data d.time d.root (18 + d.files.directorySize true)) := by
  have hall := liesAt_flatMap d.sectors
  unfold sectors at hall
  rw [liesAt_append, List.length_replicate] at hall
  obtain ⟨-, hback⟩ := hall
  have hvolume : LiesAt d.image 18 d.volume := by
    intro i block hi
    have hblock := hback (i + 2) block hi
    rw [Nat.zero_add, Nat.add_comm i, ← Nat.add_assoc] at hblock
    exact hblock
  unfold volume at hvolume
  rw [liesAt_append, Files.length_directoryBlocks] at hvolume
  refine ⟨?_, hback 1 _ rfl, hvolume⟩
  refine (hback 0 _ rfl).trans ?_
  rw [BlockBuffer.overwrite_full _ d.length_descriptor]

/-- The root directory, as it is mounted. -/
def rootDirectory : ISODirectory :=
  Cdfs.rootDirectory ((topRecord d.time d.root).header, "\x00")

/-- A disc is the sectors in front, the directories and the files. -/
theorem length_image : d.image.length
    = BLOCK_SIZE * (18 + (d.files.directorySize true + d.files.dataSize)) := by
  unfold image sectors volume
  rw [length_flatMap_bytes]
  simp only [List.length_append, List.length_replicate, List.length_cons,
    Files.length_directoryBlocks, Files.length_data]
  congr 1
  omega

/-- The root directory lists what was written, and it is there. -/
theorem root_written (hsrc : src.Holds d.image) (fuel : ℕ) :
    ∃ items, Lists b src fuel d.rootDirectory d.rootDirectory
        (items.map (Item.entry d.time))
      ∧ Written b src fuel d.image d.time d.rootDirectory d.files items := by
  obtain ⟨-, -, hroot, hdata⟩ := d.lies
  have haddressable := d.addressable
  have hdir : IsAt d.root d.rootDirectory := ⟨rfl, rfl, rfl⟩
  refine ⟨_, Files.directory_lists hsrc d.root_small (by omega) hroot hdir
    hdir, Files.written_data hsrc d.files d.root _ d.small (by omega) hdata
      ?_ hdir⟩
  rw [d.length_image, Nat.add_assoc]

/-- The root directory of the disc is the root of its tree. -/
theorem isFolder (hsrc : src.Holds d.image) (fuel : ℕ) :
    IsFolder b src fuel d.image d.files.tree [] d.rootDirectory := by
  obtain ⟨items, hlists, hwritten⟩ := d.root_written hsrc fuel
  exact .top hlists (.refl _) hwritten.presents

/-- The first record of the root is its own. -/
theorem first_entry (hsrc : src.Holds d.image) (fuel : ℕ) :
    ∃ next, entryAt b src fuel d.rootDirectory 0
      = .ok ((⟨.own true, d.root⟩ : Item R).entry d.time, next) := by
  obtain ⟨-, -, hroot, -⟩ := d.lies
  have haddressable := d.addressable
  have hdir : IsAt d.root d.rootDirectory := ⟨rfl, rfl, rfl⟩
  have hyields : Cursor.Yields (entryAt b src fuel d.rootDirectory) _ _ :=
    Files.directory_entries hsrc d.root_small (by omega) hroot hdir
  obtain ⟨offset, next, hoffset, hentry, -⟩ := hyields.uncons
  cases hoffset
  exact ⟨next, hentry⟩

/-- What mounting makes of the disc. -/
def iso : ISO9660 :=
  ⟨d.rootDirectory, none, .primary d.descriptor.table⟩

/-- A disc is mounted. -/
theorem new_eq (hserve : rd.Serves src) (hsrc : src.Holds d.image) {fuel : ℕ}
    (hfuel : 2 ≤ fuel) (s : σ) :
    ∃ s', ISO9660.new b rd fuel s = (.ok d.iso, s') := by
  obtain ⟨hfirst, hsecond, -, -⟩ := d.lies
  let first : BlockBuffer := ⟨d.descriptor.encode, d.length_descriptor⟩
  have hlies : imageBlock d.image 16 = first.bytes := hfirst
  obtain ⟨s₁, hread₁⟩ := readAt_of_lies hserve hsrc (by decide) hlies
    BlockBuffer.new s
  obtain ⟨s₂, hread₂⟩ := readAt_of_lies hserve hsrc (by decide) hsecond
    first s₁
  obtain ⟨fuel, rfl⟩ := Nat.exists_eq_add_of_le' hfuel
  refine ⟨s₂, new_of_scan ((scan_next hread₁ (by decide)
    (d.descriptor_parse b) rfl).trans (scan_stop hread₂ (by decide)
      (terminator_parse b) rfl))⟩

/-- The root is the one of its only tree. -/
theorem mainRoot_iso (hserve : rd.Serves src) (hsrc : src.Holds d.image)
    (fuel : ℕ) (s : σ) :
    (d.iso.mainRoot b rd fuel s).1 = .ok d.rootDirectory := by
  obtain ⟨next, hentry⟩ := d.first_entry (b := b) hsrc fuel
  have hnone : d.iso.supRoot = none := rfl
  exact mainRoot_of_first hserve hnone hentry s

/-- A disc that was written is mounted, and its root stands for what was
written. -/
theorem mounted (hserve : rd.Serves src) (hsrc : src.Holds d.image)
    {fuel : ℕ} (hfuel : 2 ≤ fuel) (s : σ) :
    Mounted b rd src fuel d.image s d.files.tree := by
  obtain ⟨s', hnew⟩ := d.new_eq (b := b) hserve hsrc hfuel s
  exact ⟨d.iso, s', d.rootDirectory, hnew, d.mainRoot_iso hserve hsrc fuel s',
    d.isFolder hsrc fuel⟩

/-- Its tree is printed. -/
theorem printed_back (hserve : rd.Serves src) (hsrc : src.Holds d.image)
    (fuel : ℕ) (s : σ) :
    ∃ turns, (printTree b rd fuel turns d.iso.root 0 s).1 = .ok ()
      ∧ (printTree b rd fuel turns d.iso.root 0 s).2.1
        = d.files.lines d.time.time d.time.time 0 := by
  obtain ⟨items, ⟨own, up, hcatalog⟩, hwritten⟩ :=
    d.root_written (b := b) hsrc fuel
  obtain ⟨forest, hunfolds, hlines⟩ := hwritten.lines
  rw [← hcatalog.placed_eq] at hunfolds
  exact printTree_completes hserve
    ⟨_, forest, hcatalog.yields, hunfolds, hlines 0⟩ s

/-- Any path leads to what was written there. -/
theorem file_back (hserve : rd.Serves src) (hsrc : src.Holds d.image)
    {fuel : ℕ} (hfuel : 2 ^ 27 ≤ fuel) {how : Reading}
    (hroom : ∀ n, 0 < how.size n) {turns : ℕ} (hturns : 2 ^ 32 ≤ turns)
    (path : String) (s : σ) :
    printFile b rd how fuel turns path s
      = printed path (resolve path (.folder d.files.tree [])) := by
  obtain ⟨s', hnew⟩ := d.new_eq (b := b) hserve hsrc
    (le_trans (by decide) hfuel) s
  exact printFile_stands hserve hsrc hfuel hroom hturns hnew
    (d.mainRoot_iso hserve hsrc fuel s') (d.isFolder hsrc fuel) path

end Disc

end Mount

-- ==================================================== without extensions

/-- The line that `print_tree` has for a name of a disc without
extensions. -/
def nameLine (time : Stamp) (name : ℕ × String × Option Content) : String :=
  "" ++ " " ++ formatTime time.time ++ " " ++ indent name.1 ++ name.2.1
    ++ mark name.2.2

theorem Files.lines_ecma119 (time : Stamp) (h : Files ecma119) :
    ∀ level, h.lines time.time time.time level
      = (h.tree.preorder level).map (nameLine time) := by
  induction h with
  | empty => exact fun _ => rfl
  | leaf n bytes beside ih =>
      intro level
      rw [Files.lines, ih]
      rfl
  | folder n below beside ihbelow ih =>
      intro level
      have hown : (ecma119.modified n).getD time.time = time.time := rfl
      rw [Files.lines, hown, ihbelow, ih, ← List.map_append]
      rfl

/-- A disc that was written is read back: it is mounted, its tree is
printed as what was written, and any path leads to what was written there.
-/
theorem Disc.read_back {σ : Type} {b : Build} {rd : ISO9660Reader σ}
    {src : Source} (d : Disc ecma119) (hserve : rd.Serves src)
    (hsrc : src.Holds d.image) {fuel : ℕ} (hfuel : 2 ^ 27 ≤ fuel)
    {how : Reading} (hroom : ∀ n, 0 < how.size n) (s : σ) :
    (∃ iso s', ISO9660.new b rd fuel s = (.ok iso, s')
        ∧ ∃ turns, (printTree b rd fuel turns iso.root 0 s').1 = .ok ()
          ∧ (printTree b rd fuel turns iso.root 0 s').2.1
            = (d.files.tree.preorder 0).map (nameLine d.time))
      ∧ ∀ turns path, 2 ^ 32 ≤ turns →
        printFile b rd how fuel turns path s
          = printed path (resolve path (.folder d.files.tree [])) := by
  obtain ⟨s', hnew⟩ := d.new_eq (b := b) hserve hsrc
    (le_trans (by decide) hfuel) s
  have hprinted := d.printed_back (b := b) hserve hsrc fuel s'
  rw [Files.lines_ecma119] at hprinted
  exact ⟨⟨d.iso, s', hnew, hprinted⟩, fun turns path hturns =>
    d.file_back hserve hsrc hfuel hroom hturns path s⟩

-- =========================================================== a small disc

def notesName : FileName where
  text := "Notes"
  nonempty := by decide
  trimmed := by decide
  noFinalDot := by decide
  notOwn := by decide
  notParent := by decide
  short := by decide

def todoName : FileName :=
  { notesName with
    text := "todo.txt"
    nonempty := by decide
    trimmed := by decide
    noFinalDot := by decide
    notOwn := by decide
    notParent := by decide
    short := by decide }

/-- A file of two bytes in a folder. -/
def smallDisc : Disc ecma119 where
  files := .folder notesName (.leaf todoName [0x68, 0x69] .empty) .empty
  time := millennium
  root_small := by decide
  small := ⟨by decide, ⟨by decide, trivial⟩, trivial⟩
  addressable := by decide

def wholeReads : Reading := ⟨fun _ => 32, fun _ => false⟩

theorem wholeReads_room (n : ℕ) : 0 < wholeReads.size n := Nat.succ_pos 31

theorem openPath_small : ∃ found,
    (smallDisc.iso.openPath debugBuild
        ((cursor smallDisc.image).reader debugBuild) (2 ^ 27) "Notes/.." 0).1
          = .ok found
      ∧ Option.Rel (Stands debugBuild (cursorSource debugBuild
          smallDisc.image) (2 ^ 27) smallDisc.image)
        (some (.folder smallDisc.files.tree [])) found := by
  have hserve := cursor_serves debugBuild smallDisc.image
  have hsrc := cursorSource_holds debugBuild smallDisc.image
  have hopen := openPath_volume (b := debugBuild) hserve le_rfl
    (smallDisc.mainRoot_iso hserve hsrc _ 0) (smallDisc.isFolder hsrc _)
    "Notes/.."
  have hresolve : resolve "Notes/.." (.folder smallDisc.files.tree [])
      = some (.folder smallDisc.files.tree []) := rfl
  rw [hresolve] at hopen
  exact hopen

theorem printFile_small :
    printFile quietBuild ((cursor smallDisc.image).reader quietBuild)
        wholeReads (2 ^ 27) (2 ^ 32) "Notes" 0
      = .err (.message "Notes is not a file.") :=
  printFile_volume (cursor_serves quietBuild _)
    (cursorSource_holds quietBuild _) le_rfl wholeReads_room le_rfl
    (smallDisc.mounted (cursor_serves quietBuild _)
      (cursorSource_holds quietBuild _) (by decide) 0) "Notes"

theorem printTree_small : ∃ turns lines,
    (printTree quietBuild ((cursor smallDisc.image).reader quietBuild) 1
        turns smallDisc.rootDirectory 0 0).1 = .ok ()
      ∧ (printTree quietBuild ((cursor smallDisc.image).reader quietBuild) 1
        turns smallDisc.rootDirectory 0 0).2.1 = lines
      ∧ List.Forall₂ IsLine [(0, "Notes", none),
        (1, "todo.txt", some (.file [0x68, 0x69]))] lines :=
  printTree_volume (cursor_serves quietBuild _)
    (smallDisc.isFolder (cursorSource_holds quietBuild _) 1)
    (fun _ _ _ _ h => Bool.noConfusion h) 0 0

theorem read_back_small :
    printFile debugBuild ((cursor smallDisc.image).reader debugBuild)
        wholeReads (2 ^ 27) (2 ^ 32) "/notes/../Notes/./TODO.TXT" 0
      = .ok [0x68, 0x69] := by
  rw [(smallDisc.read_back (cursor_serves debugBuild _)
    (cursorSource_holds debugBuild _) le_rfl wholeReads_room 0).2 _ _ le_rfl]
  decide +kernel

end Cdfs
