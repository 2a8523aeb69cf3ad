/-
The filesystem over a volume is a server of the volume's tree.

`Represents` connects the two: under the number of a place is an entry
that stands for it, an open file is a reader of its bytes, and an open
directory has the rows of its iterator. A request that is answered keeps
it, and its answer is one that the server of the tree may give
(`serve_answers`), one lemma for each handler; so what is proved of the
server's histories holds of the sessions of the program
(`session_history`).

A listing has to be asked for at a position that it has had
(`Positioned`): the handler reads a record wherever it is told to.
-/
import Cdfs.Proofs.FileHandles
import Cdfs.Proofs.ReadBack
import Cdfs.Proofs.TreeServer

namespace Cdfs

open Rust Parse Numbering Service ISOFuse

variable {σ : Type} {host : Host σ} {b : Build} {src : Source} {fuel : ℕ}
  {image : List UInt8} {fs : ISOFuse σ} {d : Desk}

-- ================================================ statement vocabulary

/-- The open directories. -/
def ISOFuse.folders (fs : ISOFuse σ) : Table ISODirectory :=
  ⟨fs.openDirectories, fs.directoryNumber, true⟩

/-- A reader of the bytes. -/
def ReadsFrom (image : List UInt8) (bytes : List UInt8) (r : ISOFileReader) :
    Prop :=
  ∃ file, BLOCK_SIZE * file.header.extentLoc.toNat + file.size.toNat
        ≤ image.length
    ∧ bytesOf image file = bytes
    ∧ ISOFileReader.ReaderOf (storedAt image) file r

/-- The row of an entry. -/
structure RowOf (b : Build) (src : Source) (fuel : ℕ) (image : List UInt8)
    (row : Row) (entry : DirectoryEntry) (next : Option ℕ) : Prop where
  name : entry.identifier = row.name
  hidden : entry.relocated = row.hidden
  onward : fuseOffset next = some row.onward
  stands : Stands b src fuel image row.place entry

/-- The rows of a directory from a position on. -/
inductive RowsFrom (b : Build) (src : Source) (fuel : ℕ)
    (image : List UInt8) (dir : ISODirectory) :
    Option ℕ → List Row → Prop
  | done : RowsFrom b src fuel image dir none []
  | row {offset : ℕ} {next : Option ℕ} {entry : DirectoryEntry} {row : Row}
      {rows : List Row} :
      entryAt b src fuel dir offset = .ok (entry, next) →
      RowOf b src fuel image row entry next →
      RowsFrom b src fuel image dir next rows →
      RowsFrom b src fuel image dir (some offset) (row :: rows)

/-- What a client holds is what the filesystem has for it. -/
structure Represents (b : Build) (src : Source) (fuel : ℕ)
    (image : List UInt8) (d : Desk) (fs : ISOFuse σ) : Prop where
  nodes : Table.Alike (Stands b src fuel image) d.nodes fs.table
  files : Table.Alike (ReadsFrom image) d.files fs.files
  folders : Table.Alike
    (fun rows dir => RowsFrom b src fuel image dir (some 0) rows)
    d.folders fs.folders

/-- A listing is asked for at one of its own positions. -/
def Positioned (b : Build) (src : Source) (fuel : ℕ) (fs : ISOFuse σ) :
    Request → Prop
  | .readdir fh offset _ => ∀ dir, fs.openDirectories fh = some dir →
      0 ≤ offset.toInt →
      Cursor.Reached (entryAt b src fuel dir) 0 offset.toInt.toNat
  | _ => True

-- ========================================================= attributes

theorem length_bytesOf {file : ISOFile}
    (hinside : BLOCK_SIZE * file.header.extentLoc.toNat + file.size.toNat
      ≤ image.length) : (bytesOf image file).length = file.size.toNat := by
  rw [bytesOf, List.length_take, List.length_drop]
  omega

theorem Stands.filetype {p : Spot} {entry : DirectoryEntry}
    (h : Stands b src fuel image p entry) :
    entryToFiletype entry = p.filetype := by
  cases h with
  | leaf hcontent =>
      cases hcontent with
      | file => rfl
      | link => rfl
  | folder => rfl

/-- The attributes of an entry are those of what it stands for. -/
theorem getFileattr_describes {ino : ℕ} {entry : DirectoryEntry}
    {attr : FileAttr} {p : Spot} (h : getFileattr host ino entry = .ok attr)
    (hstands : Stands b src fuel image p entry) :
    Describes attr p ∧ attr.ino = ino := by
  have hparts := getFileattr_parts host ino entry
  rw [h] at hparts
  obtain ⟨count, -, heq⟩ := Outcome.map_eq_ok.mp hparts.symm
  injection heq with hino heq
  injection heq with hkind heq
  injection heq with hsize
  refine ⟨⟨hkind.symm.trans hstands.filetype, ?_⟩, hino.symm⟩
  intro bytes hp
  subst hp
  cases hstands with
  | leaf hcontent =>
      cases hcontent with
      | file hinside => exact hsize.symm.trans (length_bytesOf hinside).symm

-- =========================================================== the tables

namespace Represents

theorem onFile (h : Represents b src fuel image d fs) (file : σ) :
    Represents b src fuel image d { fs with file } :=
  ⟨h.nodes, h.files, h.folders⟩

/-- Numbers were given out or dropped, and nothing else was done. -/
theorem of_table (h : Represents b src fuel image d fs) {fs' : ISOFuse σ}
    (hsame : SameHandles fs fs') {nodes : Table Spot}
    (hnodes : Table.Alike (Stands b src fuel image) nodes fs'.table) :
    Represents b src fuel image { d with nodes } fs' where
  nodes := hnodes
  files := by
    rw [hsame.files]
    exact h.files
  folders := by
    unfold ISOFuse.folders
    rw [hsame.openDirectories, hsame.directoryNumber]
    exact h.folders

/-- An entry was entered under a number. -/
theorem entered (h : Represents b src fuel image d fs) {p : Spot}
    {entry : DirectoryEntry} (hstands : Stands b src fuel image p entry)
    (n : ℕ) :
    Represents b src fuel image
      { d with nodes := (d.nodes.insert n p).advance }
      (fs.insert n entry).advance := by
  have hinsert : SameHandles fs (fs.insert n entry) := ⟨rfl, rfl, rfl, rfl⟩
  refine h.of_table (hinsert.trans (sameHandles_advance _)) ?_
  rw [table_advance, table_insert]
  exact (h.nodes.insert n hstands).advance

/-- The entry under a number, and its place. -/
theorem node (h : Represents b src fuel image d fs) {ino : ℕ}
    {entry : DirectoryEntry} (hino : fs.inodes ino = some entry) :
    ∃ p, d.nodes.bound ino = some p ∧ Stands b src fuel image p entry :=
  h.nodes.of_some hino

theorem no_node (h : Represents b src fuel image d fs) {ino : ℕ}
    (hino : fs.inodes ino = none) : d.nodes.bound ino = none :=
  h.nodes.of_none hino

theorem folder (h : Represents b src fuel image d fs) {ino : ℕ}
    {dir : ISODirectory} (hino : fs.inodes ino = some (.directory dir)) :
    ∃ here above, d.nodes.bound ino = some (.folder here above)
      ∧ IsFolder b src fuel image here above dir := by
  obtain ⟨p, hp, hstands⟩ := h.node hino
  cases hstands with
  | leaf hcontent => cases hcontent
  | folder hfolder => exact ⟨_, _, hp, hfolder⟩

theorem file (h : Represents b src fuel image d fs) {ino : ℕ}
    {file : ISOFile} (hino : fs.inodes ino = some (.file file)) :
    d.nodes.bound ino = some (.leaf (.file (bytesOf image file)))
      ∧ BLOCK_SIZE * file.header.extentLoc.toNat + file.size.toNat
        ≤ image.length := by
  obtain ⟨p, hp, hstands⟩ := h.node hino
  cases hstands with
  | leaf hcontent =>
      cases hcontent with
      | file hinside => exact ⟨hp, hinside⟩

theorem link (h : Represents b src fuel image d fs) {ino : ℕ}
    {link : Symlink} (hino : fs.inodes ino = some (.symlink link)) :
    d.nodes.bound ino = some (.leaf (.link link.target)) := by
  obtain ⟨p, hp, hstands⟩ := h.node hino
  cases hstands with
  | leaf hcontent =>
      cases hcontent
      exact hp

theorem counter (h : Represents b src fuel image d fs) :
    d.nodes.next = fs.inodeNumber := h.nodes.next

/-- The number of a new entry is the counter's, if there is a counter. -/
theorem number (h : Represents b src fuel image d fs)
    {entry : DirectoryEntry} {n : ℕ} (hn : fs.numberFor entry = .ok n)
    (hgen : d.nodes.generated = true) : n = d.nodes.next := by
  have hnum := numberFor_eq_ok.mp hn
  rw [Table.number_of_generated (h.nodes.generated.symm.trans hgen) entry]
    at hnum
  exact (Option.some.inj hnum).symm.trans h.nodes.next.symm

end Represents

-- ============================================================== the rows

/-- What is in a folder is what its entries stand for. -/
theorem Presents.places {here there : Tree} {above : List Tree}
    {dir : ISODirectory} {entries : List DirectoryEntry}
    (h : Presents b src fuel image dir here entries)
    (hfolder : IsFolder b src fuel image there above dir) :
    List.Forall₂ (fun name entry => entry.identifier = name.1
        ∧ Stands b src fuel image name.2 entry)
      (here.places (there :: above)) entries := by
  induction h with
  | empty => exact .nil
  | leaf _ hcontent _ ih => exact .cons ⟨rfl, .leaf hcontent⟩ (ih hfolder)
  | folder _ _ _ hlists hbelow _ _ ih =>
      exact .cons ⟨rfl, .folder (.sub hfolder hlists hbelow)⟩ (ih hfolder)

/-- A directory that stands for a folder has an entry for each name. -/
theorem IsFolder.names {here : Tree} {above : List Tree}
    {dir : ISODirectory} (h : IsFolder b src fuel image here above dir) :
    ∃ entries, Cursor.Yields (entryAt b src fuel dir) (some 0) entries
      ∧ List.Forall₂ (fun name entry => entry.identifier = name.1
          ∧ Stands b src fuel image name.2 entry)
        (folderNames here above) entries := by
  have hfolder := h
  cases h with
  | top hlists htop hpresents =>
      obtain ⟨own, up, hopen⟩ := hlists
      refine ⟨_, hopen.yields, .cons ⟨hopen.own_name, ?_⟩
        (.cons ⟨hopen.up_name, ?_⟩ (hpresents.places hfolder))⟩
      · exact .folder (hfolder.of_sameExtent hopen.own_extent.symm)
      · exact .folder (hfolder.of_sameExtent
          (htop.trans hopen.up_extent.symm))
  | sub hparent hlists hpresents =>
      obtain ⟨own, up, hopen⟩ := hlists
      refine ⟨_, hopen.yields, .cons ⟨hopen.own_name, ?_⟩
        (.cons ⟨hopen.up_name, ?_⟩ (hpresents.places hfolder))⟩
      · exact .folder (hfolder.of_sameExtent hopen.own_extent.symm)
      · exact .folder (hparent.of_sameExtent hopen.up_extent.symm)

/-- The entries of an iterator as rows. -/
theorem exists_rows {dir : ISODirectory} {names : List (String × Spot)}
    {entries : List DirectoryEntry}
    (h : List.Forall₂ (fun name entry => entry.identifier = name.1
      ∧ Stands b src fuel image name.2 entry) names entries) :
    ∀ {pos : Option ℕ},
      Cursor.Yields (entryAt b src fuel dir) pos entries →
      ∃ rows, RowsFrom b src fuel image dir pos rows
        ∧ rows.map (fun row => (row.name, row.place)) = names := by
  induction h with
  | nil =>
      intro pos hyields
      rw [hyields.none_of_nil]
      exact ⟨[], .done, rfl⟩
  | @cons name entry names entries hfirst _ ih =>
      intro pos hyields
      obtain ⟨offset, next, rfl, hentry, hrest⟩ := hyields.uncons
      obtain ⟨rows, hrows, hnames⟩ := ih hrest
      obtain ⟨onward, honward⟩ : ∃ onward, fuseOffset next = some onward := by
        cases next with
        | none => exact ⟨-1, rfl⟩
        | some offset' =>
            exact ⟨_, (fuseOffset_some (entryAt_progress hentry).2).1⟩
      refine ⟨⟨name.1, name.2, entry.relocated, onward⟩ :: rows,
        .row hentry ⟨hfirst.1, rfl, honward, hfirst.2⟩ hrows, ?_⟩
      rw [List.map_cons, hnames]

/-- The rows of an iterator are its entries. -/
theorem RowsFrom.yields {dir : ISODirectory} {pos : Option ℕ}
    {rows : List Row} (h : RowsFrom b src fuel image dir pos rows) :
    ∃ entries, Cursor.Yields (entryAt b src fuel dir) pos entries
      ∧ entries.length = rows.length := by
  induction h with
  | done => exact ⟨[], Cursor.yields_nil, rfl⟩
  | row hentry _ _ ih =>
      obtain ⟨entries, hyields, hlength⟩ := ih
      exact ⟨_ :: entries, hyields.cons hentry, congrArg (· + 1) hlength⟩

/-- A position that the listing has is behind some of the rows. -/
theorem RowsFrom.reached {dir : ISODirectory} {rows : List Row}
    (h : RowsFrom b src fuel image dir (some 0) rows) {offset : ℕ}
    (hreach : Cursor.Reached (entryAt b src fuel dir) 0 offset) :
    ∃ front rest, rows = front ++ rest
      ∧ RowsFrom b src fuel image dir (some offset) rest
      ∧ cookie front = Int64.ofNat offset := by
  induction hreach with
  | start => exact ⟨[], rows, rfl, h, rfl⟩
  | next _ hentry ih =>
      obtain ⟨front, rest, rfl, hrest, -⟩ := ih
      cases hrest with
      | @row _ _ _ row rest hentry' hrow hrest =>
          cases hentry.symm.trans hentry'
          have honward := hrow.onward
          rw [(fuseOffset_some (entryAt_progress hentry).2).1] at honward
          injection honward with honward
          refine ⟨front ++ [row], rest, ?_, hrest, ?_⟩
          · rw [List.append_assoc]
            rfl
          · unfold cookie
            rw [List.getLast?_concat, Option.map_some, Option.getD_some,
              honward]

-- ======================================================== the handlers

theorem lookup_answers (hserve : host.reader.Serves src)
    (hfuel : 2 ^ 27 ≤ host.fuel)
    (h : Represents host.build src host.fuel image d fs) (parent : ℕ)
    (name : List UInt8) (hret : (lookup host fs parent name).1.Returned) :
    ∃ d', Answers d (.lookup parent name) (lookup host fs parent name).1 d'
      ∧ Represents host.build src host.fuel image d'
        (lookup host fs parent name).2 := by
  unfold lookup at hret ⊢
  cases hino : fs.inodes parent with
  | none => exact ⟨d, .lookup_unknown (h.no_node hino), h⟩
  | some entry =>
  rw [hino] at hret
  cases entry with
  | file file => exact ⟨d, .lookup_leaf (h.file hino).1, h⟩
  | symlink link => exact ⟨d, .lookup_leaf (h.link hino), h⟩
  | directory dir =>
  obtain ⟨here, above, hbound, hfolder⟩ := h.folder hino
  have hcounter := h.counter
  dsimp only at hret ⊢
  by_cases hfull : fs.inodeNumber = u64Max
  · rw [if_pos hfull]
    exact ⟨d, .lookup_full hbound (hcounter.trans hfull), h⟩
  rw [if_neg hfull] at hret ⊢
  have hnext : d.nodes.next ≠ u64Max := fun heq =>
    hfull (hcounter.symm.trans heq)
  cases htext : fromUtf8 name with
  | none =>
      rw [htext] at hret
      exact hret.elim
  | some text =>
  rw [htext] at hret
  dsimp only at hret ⊢
  obtain ⟨found, hfind, hrel⟩ := find_stands hserve hfuel hfolder text fs.file
  rcases hcall : find host.build host.reader host.fuel dir text fs.file
    with ⟨r, file⟩
  rw [hcall] at hret hfind
  obtain rfl : r = .ok found := hfind
  have hfile := h.onFile file
  generalize hgo : (Place.folder here above).go _ (heading text) = target
    at hrel
  cases hrel with
  | none =>
      exact ⟨d, .lookup_missing hbound hnext htext hgo, hfile⟩
  | @some p entry hstands =>
      dsimp only at hret ⊢
      rcases numberFor_cases { fs with file } entry
        with ⟨n, hn, -⟩ | ⟨hn, -, -⟩
      · rw [hn] at hret ⊢
        dsimp only at hret ⊢
        rcases getFileattr_cases host n entry
          with ⟨attr, hattr, rfl, -⟩ | ⟨hattr, -⟩
        · rw [hattr]
          dsimp only
          refine ⟨_, .lookup hbound hnext htext hgo
            (getFileattr_describes hattr hstands).1 (hfile.number hn),
            hfile.entered hstands attr.ino⟩
        · rw [hattr] at hret
          exact hret.elim
      · rw [hn] at hret
        exact hret.elim

theorem getattr_answers (h : Represents b src fuel image d fs) (ino : ℕ)
    (hret : (getattr host fs ino).Returned) :
    Answers d (.getattr ino) (getattr host fs ino) d := by
  unfold getattr at hret ⊢
  cases hino : fs.inodes ino with
  | none => exact .getattr_unknown (h.no_node hino)
  | some entry =>
      rw [hino] at hret
      obtain ⟨p, hp, hstands⟩ := h.node hino
      dsimp only at hret ⊢
      rcases getFileattr_cases host ino entry
        with ⟨attr, hattr, -, -⟩ | ⟨hattr, -⟩
      · obtain ⟨hdescribes, hattrIno⟩ := getFileattr_describes hattr hstands
        rw [hattr]
        exact .getattr hp hdescribes hattrIno
      · rw [hattr] at hret
        exact hret.elim

theorem readlink_answers (h : Represents b src fuel image d fs) (ino : ℕ) :
    Answers d (.readlink ino) (fs.readlink ino) d := by
  unfold readlink
  cases hino : fs.inodes ino with
  | none =>
      refine .readlink_other fun target hbound => ?_
      rw [h.no_node hino] at hbound
      cases hbound
  | some entry =>
  cases entry with
  | directory dir =>
      obtain ⟨here, above, hp, -⟩ := h.folder hino
      refine .readlink_other fun target hbound => ?_
      rw [hp] at hbound
      cases hbound
  | file file =>
      refine .readlink_other fun target hbound => ?_
      rw [(h.file hino).1] at hbound
      cases hbound
  | symlink link =>
      have hp := h.link hino
      dsimp only
      cases htarget : link.target with
      | some target =>
          rw [htarget] at hp
          exact .readlink hp
      | none =>
          rw [htarget] at hp
          refine .readlink_other fun target hbound => ?_
          rw [hp] at hbound
          cases hbound

theorem openFile_answers (h : Represents b src fuel image d fs) (ino : ℕ) :
    ∃ d', Answers d (.openFile ino) (fs.openFile ino).1 d'
      ∧ Represents b src fuel image d' (fs.openFile ino).2 := by
  have hcounter : d.files.next = fs.fileNumber := h.files.next
  unfold openFile
  cases hino : fs.inodes ino with
  | none => exact ⟨d, .openFile_unknown (h.no_node hino), h⟩
  | some entry =>
  cases entry with
  | directory dir =>
      obtain ⟨here, above, hp, -⟩ := h.folder hino
      exact ⟨d, .openFile_other hp (fun heq => nomatch heq), h⟩
  | symlink link =>
      exact ⟨d, .openFile_other (h.link hino) (fun heq => nomatch heq), h⟩
  | file file =>
      obtain ⟨hp, hinside⟩ := h.file hino
      dsimp only
      by_cases hfull : fs.fileNumber = u64Max
      · rw [if_pos hfull]
        exact ⟨d, .openFile_full hp (hcounter.trans hfull), h⟩
      · rw [if_neg hfull]
        have hnext : d.files.next ≠ u64Max := fun heq =>
          hfull (hcounter.symm.trans heq)
        have hreads : ReadsFrom image (bytesOf image file) file.read :=
          ⟨file, hinside, rfl, ISOFileReader.readerOf_read _ file⟩
        have hopen := Answers.openFile hp hnext
        have hfiles := (h.files.insert d.files.next hreads).advance
        rw [hcounter] at hopen hfiles
        exact ⟨_, hopen, h.nodes, hfiles, h.folders⟩

theorem read_answers (himage : host.reader.ServesImage image)
    (h : Represents b src fuel image d fs) (fh : ℕ) (offset : Int64)
    (size : UInt32) :
    Answers d (.read fh offset size) (read host fs fh offset size).1 d
      ∧ Represents b src fuel image d (read host fs fh offset size).2 := by
  rcases read_cases host fs fh offset size
    with ⟨hcall, hwhy⟩ | ⟨r, hpos, hr, hcall⟩
  · rw [hcall]
    refine ⟨.read_refused ?_, h⟩
    rcases hwhy with hneg | hnone
    · exact Or.inl hneg
    · exact Or.inr (h.files.of_none hnone)
  · obtain ⟨bytes, hbytes, file, hinside, rfl, hreader⟩ := h.files.of_some hr
    obtain ⟨hdata, hreader'⟩ := readAt_image himage hinside hreader offset
      size fs.file
    rw [hcall, hdata]
    refine ⟨.read hbytes hpos, h.nodes, ?_, h.folders⟩
    have hfiles := h.files.insert fh
      (show ReadsFrom image (bytesOf image file) _ from
        ⟨file, hinside, rfl, hreader'⟩)
    rw [Table.insert_self hbytes] at hfiles
    exact hfiles

theorem release_answers (h : Represents b src fuel image d fs) (fh : ℕ) :
    ∃ d', Answers d (.release fh) (fs.release fh).1 d'
      ∧ Represents b src fuel image d' (fs.release fh).2 := by
  unfold release
  cases hr : fs.openFiles fh with
  | none => exact ⟨d, .release_unknown (h.files.of_none hr), h⟩
  | some r =>
      obtain ⟨bytes, hbytes, -⟩ := h.files.of_some hr
      refine ⟨_, .release ?_, h.nodes, h.files.drop fh, h.folders⟩
      rw [hbytes]
      exact Option.some_ne_none _

theorem releasedir_answers (h : Represents b src fuel image d fs) (fh : ℕ) :
    ∃ d', Answers d (.releasedir fh) (fs.releasedir fh).1 d'
      ∧ Represents b src fuel image d' (fs.releasedir fh).2 := by
  unfold releasedir
  cases hdir : fs.openDirectories fh with
  | none => exact ⟨d, .releasedir_unknown (h.folders.of_none hdir), h⟩
  | some dir =>
      obtain ⟨rows, hrows, -⟩ := h.folders.of_some hdir
      refine ⟨_, .releasedir ?_, h.nodes, h.files, h.folders.drop fh⟩
      rw [hrows]
      exact Option.some_ne_none _

theorem opendir_answers (h : Represents b src fuel image d fs) (ino : ℕ) :
    ∃ d', Answers d (.opendir ino) (fs.opendir ino).1 d'
      ∧ Represents b src fuel image d' (fs.opendir ino).2 := by
  have hcounter : d.folders.next = fs.directoryNumber := h.folders.next
  unfold opendir
  cases hino : fs.inodes ino with
  | none => exact ⟨d, .opendir_unknown (h.no_node hino), h⟩
  | some entry =>
  cases entry with
  | file file => exact ⟨d, .opendir_leaf (h.file hino).1, h⟩
  | symlink link => exact ⟨d, .opendir_leaf (h.link hino), h⟩
  | directory dir =>
      obtain ⟨here, above, hp, hfolder⟩ := h.folder hino
      dsimp only
      by_cases hfull : fs.directoryNumber = u64Max
      · rw [if_pos hfull]
        exact ⟨d, .opendir_full hp (hcounter.trans hfull), h⟩
      · rw [if_neg hfull]
        have hnext : d.folders.next ≠ u64Max := fun heq =>
          hfull (hcounter.symm.trans heq)
        obtain ⟨entries, hyields, hentries⟩ := hfolder.names
        obtain ⟨rows, hrows, hnames⟩ := exists_rows hentries hyields
        have hopen := Answers.opendir hp hnext hnames
        have hfolders := (h.folders.insert d.folders.next hrows).advance
        rw [hcounter] at hopen hfolders
        exact ⟨_, hopen, h.nodes, h.files, hfolders⟩

/-- Listing an entry enters its row. -/
theorem Represents.listed (h : Represents b src fuel image d fs) {row : Row}
    {entry : DirectoryEntry} {next : Option ℕ}
    (hrow : RowOf b src fuel image row entry next) (n : ℕ) :
    Represents b src fuel image { d with nodes := row.enteredIn n d.nodes }
      (fs.listed n entry) := by
  refine h.of_table (sameHandles_listed fs n entry) ?_
  unfold Row.enteredIn ISOFuse.listed
  rw [table_advance, hrow.name]
  by_cases hdots : row.name ≠ "." ∧ row.name ≠ ".."
  · rw [if_pos hdots, if_pos hdots]
    exact (h.nodes.insert n hrow.stands).advance
  · rw [if_neg hdots, if_neg hdots]
    exact h.nodes.advance

/-- The row of an entry is what is listed for it. -/
theorem RowOf.shown {row : Row} {entry : DirectoryEntry} {next : Option ℕ}
    (hrow : RowOf b src fuel image row entry next)
    (h : Represents b src fuel image d fs) {n : ℕ}
    (hn : fs.numberFor entry = .ok n) {onward : Int64}
    (honward : fuseOffset next = some onward) :
    ShownAs d.nodes row (dirent n onward entry) where
  name := hrow.name
  kind := hrow.stands.filetype
  offset := Option.some.inj (honward.symm.trans hrow.onward)
  ino := h.number hn

/-- The loop fills a listing from the rows that are left. -/
theorem readdirFrom_fills (hserve : host.reader.Serves src)
    {dir : ISODirectory} {accepts : Capacity} {pos : Option ℕ}
    {rows : List Row}
    (hrows : RowsFrom host.build src host.fuel image dir pos rows) :
    ∀ (turns : ℕ) (fs : ISOFuse σ) (cache : BlockCache)
      (listing : List Dirent) {d : Desk},
      Represents host.build src host.fuel image d fs →
      Coherent src dir cache → rows.length ≤ turns →
      (readdirFrom host dir accepts turns fs cache pos listing).1.Returned →
      ∃ nodes, Fills accepts d.nodes rows listing
          (readdirFrom host dir accepts turns fs cache pos listing).1 nodes
        ∧ Represents host.build src host.fuel image { d with nodes }
          (readdirFrom host dir accepts turns fs cache pos listing).2 := by
  induction hrows with
  | done => exact fun _ _ _ _ _ h _ _ _ => ⟨_, .done, h⟩
  | @row offset next entry row rows hentry hrow _ ih =>
      intro turns fs cache listing d h hco hturns hret
      obtain ⟨turns, rfl⟩ := Nat.exists_eq_add_of_le' hturns
      have hturn := readdirLoop_turn host dir accepts (turns + rows.length)
        fs cache offset listing
      obtain ⟨hread, hco'⟩ := readEntryAt_serves (b := host.build) hserve
        host.fuel hco offset fs.file
      rw [hentry] at hread
      change (readdirLoop host dir accepts (turns + rows.length + 1) fs cache
        offset listing).1.Returned at hret
      change ∃ nodes, Fills accepts d.nodes (row :: rows) listing
          (readdirLoop host dir accepts (turns + rows.length + 1) fs cache
            offset listing).1 nodes
        ∧ Represents _ _ _ _ _ (readdirLoop host dir accepts
            (turns + rows.length + 1) fs cache offset listing).2
      generalize readdirLoop host dir accepts (turns + rows.length + 1) fs
        cache offset listing = result at hturn hret ⊢
      have hcounter := h.counter
      have hmore : rows.length ≤ turns + rows.length := Nat.le_add_left _ _
      cases hturn with
      | out hmax => exact ⟨_, .out (hcounter.trans hmax), h⟩
      | failed _ hcall hno =>
          rw [hcall] at hread
          exact absurd hread (hno _)
      | @hidden entry' next' cache' file hnum hcall hrel =>
          rw [hcall] at hread hco'
          cases hread
          have hnext : d.nodes.next ≠ u64Max := fun heq =>
            hnum (hcounter.symm.trans heq)
          obtain ⟨nodes, hfills, h'⟩ := ih _ _ _ listing (h.onFile file)
            hco' hmore hret
          exact ⟨nodes, .hidden hnext (hrow.hidden.symm.trans hrel) hfills,
            h'⟩
      | numberless => exact hret.elim
      | @full entry' next' cache' file n onward hnum hcall hrel hn honward
          hfits =>
          rw [hcall] at hread
          cases hread
          have hnext : d.nodes.next ≠ u64Max := fun heq =>
            hnum (hcounter.symm.trans heq)
          exact ⟨_, .full hnext (hrow.hidden.symm.trans hrel)
            (hrow.shown h hn honward) hfits, h.onFile file⟩
      | @listed entry' next' cache' file n onward hnum hcall hrel hn honward
          hfits =>
          rw [hcall] at hread hco'
          cases hread
          have hnext : d.nodes.next ≠ u64Max := fun heq =>
            hnum (hcounter.symm.trans heq)
          obtain ⟨nodes, hfills, h'⟩ := ih _ _ _ _
            ((h.onFile file).listed hrow n) hco' hmore hret
          exact ⟨nodes, .listed hnext (hrow.hidden.symm.trans hrel)
            (hrow.shown h hn honward) hfits hfills, h'⟩

theorem readdir_answers (hserve : host.reader.Serves src)
    (h : Represents host.build src host.fuel image d fs) (fh : ℕ)
    (offset : Int64) (accepts : Capacity)
    (hat : Positioned host.build src host.fuel fs
      (.readdir fh offset accepts))
    (hret : (readdir host fs fh offset accepts).1.Returned) :
    ∃ d', Answers d (.readdir fh offset accepts)
        (readdir host fs fh offset accepts).1 d'
      ∧ Represents host.build src host.fuel image d'
        (readdir host fs fh offset accepts).2 := by
  unfold readdir at hret ⊢
  cases hdir : fs.openDirectories fh with
  | none =>
      exact ⟨d, .readdir_refused (Or.inl (h.folders.of_none hdir)), h⟩
  | some dir =>
  rw [hdir] at hret
  obtain ⟨rows, hbound, hrows⟩ := h.folders.of_some hdir
  dsimp only at hret ⊢
  by_cases hend : offset = -1
  · subst hend
    refine ⟨d, .readdir_end ?_, h⟩
    rw [hbound]
    exact Option.some_ne_none _
  rw [if_neg hend] at hret ⊢
  by_cases hneg : offset.toInt < 0
  · rw [if_pos hneg]
    exact ⟨d, .readdir_refused (Or.inr ⟨hend, hneg⟩), h⟩
  rw [if_neg hneg] at hret ⊢
  have hreach := hat dir hdir (by omega)
  obtain ⟨front, rest, rfl, hrest, hcookie⟩ := hrows.reached hreach
  have hsame : cookie front = offset := by
    rw [hcookie]
    apply Int64.toInt_inj.mp
    have hlt := offset.toInt_lt
    rw [Int64.toInt_ofNat_of_lt (by omega)]
    omega
  have hturns : rest.length ≤ 2 ^ 32 + 1 := by
    obtain ⟨entries, hyields, hlength⟩ := hrows.yields
    have hshort := length_of_yields hyields
    rw [hlength, List.length_append] at hshort
    omega
  obtain ⟨nodes, hfills, h'⟩ := readdirFrom_fills hserve hrest (2 ^ 32 + 1)
    fs BlockCache.new [] h (coherent_new src dir) hturns hret
  refine ⟨_, ?_, h'⟩
  rw [← hsame] at hend hfills ⊢
  exact .readdir hbound hend hfills

/-- An answer is one that the server of the tree may give, and what the
client holds behind it is again what the filesystem has for it. -/
theorem serve_answers (hserve : host.reader.Serves src)
    (hsrc : src.Holds image) (hfuel : 2 ^ 27 ≤ host.fuel)
    (h : Represents host.build src host.fuel image d fs) (q : Request)
    (hat : Positioned host.build src host.fuel fs q)
    (hret : (fs.serve host q).1.Returned) :
    ∃ d', Answers d q (fs.serve host q).1 d'
      ∧ Represents host.build src host.fuel image d' (fs.serve host q).2 := by
  cases q with
  | lookup parent name => exact lookup_answers hserve hfuel h parent name hret
  | forget ino nlookup => exact ⟨_, .forget, h.nodes.drop ino, h.files, h.folders⟩
  | getattr ino => exact ⟨d, getattr_answers h ino hret, h⟩
  | readlink ino => exact ⟨d, readlink_answers h ino, h⟩
  | openFile ino => exact openFile_answers h ino
  | read fh offset size =>
      exact ⟨d, read_answers (servesImage_of_holds hserve hsrc) h fh offset
        size⟩
  | release fh => exact release_answers h fh
  | opendir ino => exact opendir_answers h ino
  | getxattr => exact ⟨d, .getxattr, h⟩
  | readdir fh offset accepts =>
      exact readdir_answers hserve h fh offset accepts hat hret
  | releasedir fh => exact releasedir_answers h fh

-- ======================================================== the sessions

/-- Behind a mount a client has the root. -/
theorem mounted_represents {tree : Tree} {root : ISODirectory}
    (hfolder : IsFolder b src fuel image tree [] root) (file : σ)
    (generated : Bool) :
    Represents b src fuel image (Desk.mounted tree generated)
      (mounted file root generated) := by
  have hempty : Table.Alike (Stands b src fuel image)
      ⟨fun _ => none, FUSE_ROOT_ID + 1, generated⟩
      ⟨fun _ => none, FUSE_ROOT_ID + 1, generated⟩ :=
    ⟨fun _ => .none, rfl, rfl⟩
  exact ⟨hempty.insert FUSE_ROOT_ID (.folder hfolder),
    ⟨fun _ => .none, rfl, rfl⟩, ⟨fun _ => .none, rfl, rfl⟩⟩

theorem new_represents {s : σ} {tree : Tree} {fs₀ : ISOFuse σ}
    (hmounted : Mounted host.build host.reader src host.fuel image s tree)
    (hnew : ISOFuse.new host s = .ok fs₀) :
    Represents host.build src host.fuel image
      (Desk.mounted tree fs₀.inodeAutogenerated) fs₀ := by
  obtain ⟨iso, s', root, hiso, hroot, hfolder⟩ := hmounted
  obtain ⟨iso', s₁, root', s₂, file, auto, hiso', hroot', rfl⟩ :=
    new_eq_ok hnew
  cases hiso.symm.trans hiso'
  rw [hroot'] at hroot
  cases hroot
  exact mounted_represents hfolder file auto

/-- What is asked from there on is a history of the server. -/
theorem Represents.history (hserve : host.reader.Serves src)
    (hsrc : src.Holds image) (hfuel : 2 ^ 27 ≤ host.fuel) {fs₀ : ISOFuse σ}
    (h : Represents host.build src host.fuel image d fs₀) {log : Log}
    (hrun : Run (ISOFuse.serve host)
      (Positioned host.build src host.fuel) fs₀ log fs) :
    ∃ d', History Answers d log d'
      ∧ Represents host.build src host.fuel image d' fs :=
  hrun.refine
    (fun _ _ q h hat hret => serve_answers hserve hsrc hfuel h q hat hret) h

/-- Every session over a volume is a history of the server of its tree. -/
theorem session_history (hserve : host.reader.Serves src)
    (hsrc : src.Holds image) (hfuel : 2 ^ 27 ≤ host.fuel) {s : σ}
    {tree : Tree} {fs₀ : ISOFuse σ}
    (hmounted : Mounted host.build host.reader src host.fuel image s tree)
    (hnew : ISOFuse.new host s = .ok fs₀) {log : Log}
    (hrun : Run (ISOFuse.serve host)
      (Positioned host.build src host.fuel) fs₀ log fs) :
    ∃ d, History Answers (Desk.mounted tree fs₀.inodeAutogenerated) log d
      ∧ Represents host.build src host.fuel image d fs :=
  (new_represents hmounted hnew).history hserve hsrc hfuel hrun

end Cdfs
