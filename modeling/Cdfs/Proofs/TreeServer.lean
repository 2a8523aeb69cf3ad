/-
The server of a file tree, without a disc.

A client holds numbers for places of the tree, handles for open files
and handles for open directories (`Desk`). `Answers` is what the server
may answer to a request, and what the client holds afterwards; a request
that it is silent on is not answered. An open directory is the rows of
its listing, and where a listing may go on is at the cookies that its
rows had: their values are the disc's, and are fixed when the directory
is opened.

That the filesystem does as much over a volume is `Cdfs.Proofs.ServedTree`;
here is what follows for a client, whatever it asks in whatever order.
With numbers from a counter no number is given out twice, so there is
one ledger of places and contents for a whole history by which every
answer is right (`history_ledger`), and a number that was got by looking
up names one after the other stands for where the names lead
(`Led.place`).
-/
import Cdfs.Fuse.ISOFuse
import Cdfs.Proofs.VolumeTree
import Cdfs.Rust.History
import Cdfs.Rust.Numbering

namespace Cdfs

open Rust Parse Numbering Service

-- ================================================= statement vocabulary

/-- A place of the tree: a file or a link with its content, or a folder. -/
abbrev Spot : Type := Place String Content

namespace Spot

def filetype : Spot → FileType
  | .leaf (.file _) => .regularFile
  | .leaf (.link _) => .symlink
  | .folder _ _ => .directory

/-- Where a name leads. -/
def enter (p : Spot) (name : String) : Option Spot :=
  p.go (fun key name => eqIgnoreAsciiCase name key) (heading name)

end Spot

/-- The attributes are those of a place. -/
structure Describes (attr : FileAttr) (p : Spot) : Prop where
  kind : attr.kind = p.filetype
  size : ∀ bytes, p = .leaf (.file bytes) → attr.size = bytes.length

/-- One row of a listing: a name and its place, whether it is passed over,
and the cookie behind it. -/
structure Row where
  name : String
  place : Spot
  hidden : Bool
  onward : Int64

/-- The names in a folder, from the folder itself on. -/
def folderNames (here : Tree) (above : List Tree) : List (String × Spot) :=
  (".", .folder here above) :: ("..", .parent here above)
    :: here.places (here :: above)

/-- The cookie behind some rows. -/
def cookie (front : List Row) : Int64 :=
  (front.getLast?.map Row.onward).getD 0

/-- What a client holds. -/
structure Desk where
  nodes : Table Spot
  files : Table (List UInt8)
  folders : Table (List Row)

/-- A row as it is listed. -/
structure ShownAs (nodes : Table Spot) (row : Row) (e : Dirent) : Prop where
  name : e.name = row.name
  kind : e.kind = row.place.filetype
  offset : e.offset = row.onward
  ino : nodes.generated = true → e.ino = nodes.next

/-- A row that is listed is entered, unless it is the folder itself or
the one above. -/
def Row.enteredIn (row : Row) (n : ℕ) (nodes : Table Spot) : Table Spot :=
  if row.name ≠ "." ∧ row.name ≠ ".." then
    (nodes.insert n row.place).advance
  else nodes.advance

/-- A listing of the rows that are left, on top of what is listed. -/
inductive Fills (accepts : Capacity) :
    Table Spot → List Row → List Dirent → Outcome Errno Reply → Table Spot →
      Prop
  | done {nodes : Table Spot} {listing : List Dirent} :
      Fills accepts nodes [] listing (.ok (.directory listing)) nodes
  | out {nodes : Table Spot} {row : Row} {rows : List Row}
      {listing : List Dirent} :
      nodes.next = u64Max →
      Fills accepts nodes (row :: rows) listing (.err .ENFILE) nodes
  | hidden {nodes nodes' : Table Spot} {row : Row} {rows : List Row}
      {listing : List Dirent} {a : Outcome Errno Reply} :
      nodes.next ≠ u64Max → row.hidden = true →
      Fills accepts nodes rows listing a nodes' →
      Fills accepts nodes (row :: rows) listing a nodes'
  | full {nodes : Table Spot} {row : Row} {rows : List Row}
      {listing : List Dirent} {e : Dirent} :
      nodes.next ≠ u64Max → row.hidden = false → ShownAs nodes row e →
      accepts listing e = false →
      Fills accepts nodes (row :: rows) listing (.ok (.directory listing))
        nodes
  | listed {nodes nodes' : Table Spot} {row : Row} {rows : List Row}
      {listing : List Dirent} {e : Dirent} {a : Outcome Errno Reply} :
      nodes.next ≠ u64Max → row.hidden = false → ShownAs nodes row e →
      accepts listing e = true →
      Fills accepts (row.enteredIn e.ino nodes) rows (listing ++ [e]) a
        nodes' →
      Fills accepts nodes (row :: rows) listing a nodes'

-- ============================================================ the answers

/-- What may be answered, request by request. -/
inductive Answers (d : Desk) : Request → Outcome Errno Reply → Desk → Prop
  | lookup {parent : ℕ} {name : List UInt8} {text : String} {here : Tree}
      {above : List Tree} {p : Spot} {attr : FileAttr} :
      d.nodes.bound parent = some (.folder here above) →
      d.nodes.next ≠ u64Max → fromUtf8 name = some text →
      Spot.enter (.folder here above) text = some p → Describes attr p →
      (d.nodes.generated = true → attr.ino = d.nodes.next) →
      Answers d (.lookup parent name) (.ok (.entry attr))
        { d with nodes := (d.nodes.insert attr.ino p).advance }
  | lookup_missing {parent : ℕ} {name : List UInt8} {text : String}
      {here : Tree} {above : List Tree} :
      d.nodes.bound parent = some (.folder here above) →
      d.nodes.next ≠ u64Max → fromUtf8 name = some text →
      Spot.enter (.folder here above) text = none →
      Answers d (.lookup parent name) (.err .ENOENT) d
  | lookup_full {parent : ℕ} {name : List UInt8} {here : Tree}
      {above : List Tree} :
      d.nodes.bound parent = some (.folder here above) →
      d.nodes.next = u64Max →
      Answers d (.lookup parent name) (.err .ENFILE) d
  | lookup_leaf {parent : ℕ} {name : List UInt8} {content : Content} :
      d.nodes.bound parent = some (.leaf content) →
      Answers d (.lookup parent name) (.err .ENOTDIR) d
  | lookup_unknown {parent : ℕ} {name : List UInt8} :
      d.nodes.bound parent = none →
      Answers d (.lookup parent name) (.err .EINVAL) d
  | forget {ino nlookup : ℕ} :
      Answers d (.forget ino nlookup) (.ok .silent)
        { d with nodes := d.nodes.drop ino }
  | getattr {ino : ℕ} {p : Spot} {attr : FileAttr} :
      d.nodes.bound ino = some p → Describes attr p → attr.ino = ino →
      Answers d (.getattr ino) (.ok (.attr attr)) d
  | getattr_unknown {ino : ℕ} :
      d.nodes.bound ino = none → Answers d (.getattr ino) (.err .EINVAL) d
  | readlink {ino : ℕ} {target : String} :
      d.nodes.bound ino = some (.leaf (.link (some target))) →
      Answers d (.readlink ino) (.ok (.data (asBytes target))) d
  | readlink_other {ino : ℕ} :
      (∀ target, d.nodes.bound ino ≠ some (.leaf (.link (some target)))) →
      Answers d (.readlink ino) (.err .EINVAL) d
  | openFile {ino : ℕ} {bytes : List UInt8} :
      d.nodes.bound ino = some (.leaf (.file bytes)) →
      d.files.next ≠ u64Max →
      Answers d (.openFile ino) (.ok (.opened d.files.next))
        { d with files := (d.files.insert d.files.next bytes).advance }
  | openFile_full {ino : ℕ} {bytes : List UInt8} :
      d.nodes.bound ino = some (.leaf (.file bytes)) →
      d.files.next = u64Max → Answers d (.openFile ino) (.err .ENFILE) d
  | openFile_other {ino : ℕ} {p : Spot} :
      d.nodes.bound ino = some p → p.filetype ≠ .regularFile →
      Answers d (.openFile ino) (.err .EISDIR) d
  | openFile_unknown {ino : ℕ} :
      d.nodes.bound ino = none → Answers d (.openFile ino) (.err .EINVAL) d
  | read {fh : ℕ} {offset : Int64} {size : UInt32} {bytes : List UInt8} :
      d.files.bound fh = some bytes → 0 ≤ offset.toInt →
      Answers d (.read fh offset size)
        (.ok (.data ((bytes.drop offset.toInt.toNat).take size.toNat))) d
  | read_refused {fh : ℕ} {offset : Int64} {size : UInt32} :
      offset.toInt < 0 ∨ d.files.bound fh = none →
      Answers d (.read fh offset size) (.err .EINVAL) d
  | release {fh : ℕ} :
      d.files.bound fh ≠ none →
      Answers d (.release fh) (.ok .ok) { d with files := d.files.drop fh }
  | release_unknown {fh : ℕ} :
      d.files.bound fh = none → Answers d (.release fh) (.err .EINVAL) d
  | opendir {ino : ℕ} {here : Tree} {above : List Tree} {rows : List Row} :
      d.nodes.bound ino = some (.folder here above) →
      d.folders.next ≠ u64Max →
      rows.map (fun row => (row.name, row.place)) = folderNames here above →
      Answers d (.opendir ino) (.ok (.opened d.folders.next))
        { d with folders := (d.folders.insert d.folders.next rows).advance }
  | opendir_full {ino : ℕ} {here : Tree} {above : List Tree} :
      d.nodes.bound ino = some (.folder here above) →
      d.folders.next = u64Max → Answers d (.opendir ino) (.err .ENFILE) d
  | opendir_leaf {ino : ℕ} {content : Content} :
      d.nodes.bound ino = some (.leaf content) →
      Answers d (.opendir ino) (.err .ENOTDIR) d
  | opendir_unknown {ino : ℕ} :
      d.nodes.bound ino = none → Answers d (.opendir ino) (.err .EINVAL) d
  | getxattr : Answers d .getxattr (.err .ENOTSUP) d
  | readdir {fh : ℕ} {accepts : Capacity} {front rest : List Row}
      {a : Outcome Errno Reply} {nodes : Table Spot} :
      d.folders.bound fh = some (front ++ rest) → cookie front ≠ -1 →
      Fills accepts d.nodes rest [] a nodes →
      Answers d (.readdir fh (cookie front) accepts) a { d with nodes }
  | readdir_end {fh : ℕ} {accepts : Capacity} :
      d.folders.bound fh ≠ none →
      Answers d (.readdir fh (-1) accepts) (.ok (.directory [])) d
  | readdir_refused {fh : ℕ} {offset : Int64} {accepts : Capacity} :
      d.folders.bound fh = none ∨ offset ≠ -1 ∧ offset.toInt < 0 →
      Answers d (.readdir fh offset accepts) (.err .EINVAL) d
  | releasedir {fh : ℕ} :
      d.folders.bound fh ≠ none →
      Answers d (.releasedir fh) (.ok .ok)
        { d with folders := d.folders.drop fh }
  | releasedir_unknown {fh : ℕ} :
      d.folders.bound fh = none → Answers d (.releasedir fh) (.err .EINVAL) d

/-- A name that leads somewhere is answered with a number for it. -/
theorem Answers.entry_of {d d' : Desk} {parent : ℕ} {name : List UInt8}
    {text : String} {p q : Spot} {a : Outcome Errno Reply}
    (h : Answers d (.lookup parent name) a d')
    (hgen : d.nodes.generated = true)
    (hbound : d.nodes.bound parent = some p)
    (htext : fromUtf8 name = some text) (hgo : p.enter text = some q)
    (hnext : d.nodes.next ≠ u64Max) :
    ∃ attr, a = .ok (.entry attr) ∧ attr.ino = d.nodes.next
      ∧ d' = { d with
        nodes := (d.nodes.insert d.nodes.next q).advance } := by
  cases h with
  | lookup hbound' _ htext' hgo' _ hino =>
      cases hbound.symm.trans hbound'
      cases htext.symm.trans htext'
      cases hgo.symm.trans hgo'
      rw [hino hgen]
      exact ⟨_, rfl, hino hgen, rfl⟩
  | lookup_missing hbound' _ htext' hgo' =>
      cases hbound.symm.trans hbound'
      cases htext.symm.trans htext'
      cases hgo.symm.trans hgo'
  | lookup_full _ hfull => exact absurd hfull hnext
  | lookup_leaf hbound' =>
      cases hbound.symm.trans hbound'
      cases hgo
  | lookup_unknown hbound' => cases hbound.symm.trans hbound'

/-- A file is opened under the next handle. -/
theorem Answers.opened_of {d d' : Desk} {ino : ℕ} {bytes : List UInt8}
    {a : Outcome Errno Reply} (h : Answers d (.openFile ino) a d')
    (hbound : d.nodes.bound ino = some (.leaf (.file bytes)))
    (hnext : d.files.next ≠ u64Max) :
    a = .ok (.opened d.files.next)
      ∧ d'.files.bound d.files.next = some bytes := by
  cases h with
  | openFile hbound' =>
      cases hbound.symm.trans hbound'
      refine ⟨rfl, ?_⟩
      rw [Table.bound_advance]
      exact Table.bound_insert _ _ _
  | openFile_full _ hfull => exact absurd hfull hnext
  | openFile_other hbound' hother =>
      cases hbound.symm.trans hbound'
      exact absurd rfl hother
  | openFile_unknown hbound' => cases hbound.symm.trans hbound'

/-- An open file is read. -/
theorem Answers.data_of {d d' : Desk} {fh : ℕ} {offset : Int64}
    {size : UInt32} {bytes : List UInt8} {a : Outcome Errno Reply}
    (h : Answers d (.read fh offset size) a d')
    (hbound : d.files.bound fh = some bytes) (hpos : 0 ≤ offset.toInt) :
    a = .ok (.data ((bytes.drop offset.toInt.toNat).take size.toNat)) := by
  cases h with
  | read hbound' =>
      cases hbound.symm.trans hbound'
      rfl
  | read_refused hwhy =>
      rcases hwhy with hneg | hnone
      · omega
      · cases hbound.symm.trans hnone

/-- What a client holds at first: the number of the root. -/
def Desk.mounted (tree : Tree) (generated : Bool) : Desk where
  nodes := ⟨Function.update (fun _ => none) FUSE_ROOT_ID
    (some (.folder tree [])), FUSE_ROOT_ID + 1, generated⟩
  files := ⟨fun _ => none, 0, true⟩
  folders := ⟨fun _ => none, 0, true⟩

theorem Desk.mounted_root (tree : Tree) (generated : Bool) :
    (Desk.mounted tree generated).nodes.bound FUSE_ROOT_ID
      = some (.folder tree []) :=
  Table.bound_insert ⟨fun _ => none, FUSE_ROOT_ID + 1, generated⟩ _ _

theorem Desk.mounted_other (tree : Tree) (generated : Bool) {n : ℕ}
    (hn : n ≠ FUSE_ROOT_ID) :
    (Desk.mounted tree generated).nodes.bound n = none :=
  Table.bound_insert_of_ne
    (t := ⟨fun _ => none, FUSE_ROOT_ID + 1, generated⟩) hn _

-- ============================================================= the ledger

/-- Places for numbers and contents for handles, for a whole session. -/
structure Ledger where
  nodes : ℕ → Option Spot
  files : ℕ → Option (List UInt8)
  folders : ℕ → Option (List Row)

namespace Ledger

variable {m m' : Ledger}

/-- A row as it was listed: what is listed with it is the number of its
place, but for the folder itself and the one above. -/
structure ListedAs (m : Ledger) (e : Dirent) (row : Row) : Prop where
  name : e.name = row.name
  kind : e.kind = row.place.filetype
  offset : e.offset = row.onward
  ino : row.name ≠ "." → row.name ≠ ".." → m.nodes e.ino = some row.place

/-- An answer is right by the ledger. -/
inductive Holds (m : Ledger) : Request → Outcome Errno Reply → Prop
  | lookup {parent : ℕ} {name : List UInt8} {text : String} {p q : Spot}
      {attr : FileAttr} :
      fromUtf8 name = some text → m.nodes parent = some p →
      p.enter text = some q → m.nodes attr.ino = some q →
      Describes attr q → m.Holds (.lookup parent name) (.ok (.entry attr))
  | lookup_missing {parent : ℕ} {name : List UInt8} {text : String}
      {p : Spot} :
      fromUtf8 name = some text → m.nodes parent = some p →
      p.enter text = none → m.Holds (.lookup parent name) (.err .ENOENT)
  | forget {ino nlookup : ℕ} : m.Holds (.forget ino nlookup) (.ok .silent)
  | getattr {ino : ℕ} {p : Spot} {attr : FileAttr} :
      m.nodes ino = some p → Describes attr p → attr.ino = ino →
      m.Holds (.getattr ino) (.ok (.attr attr))
  | readlink {ino : ℕ} {target : String} :
      m.nodes ino = some (.leaf (.link (some target))) →
      m.Holds (.readlink ino) (.ok (.data (asBytes target)))
  | openFile {ino fh : ℕ} {bytes : List UInt8} :
      m.nodes ino = some (.leaf (.file bytes)) → m.files fh = some bytes →
      m.Holds (.openFile ino) (.ok (.opened fh))
  | read {fh : ℕ} {offset : Int64} {size : UInt32} {bytes : List UInt8} :
      m.files fh = some bytes → 0 ≤ offset.toInt →
      m.Holds (.read fh offset size)
        (.ok (.data ((bytes.drop offset.toInt.toNat).take size.toNat)))
  | release {fh : ℕ} : m.Holds (.release fh) (.ok .ok)
  | opendir {ino fh : ℕ} {here : Tree} {above : List Tree}
      {rows : List Row} :
      m.nodes ino = some (.folder here above) →
      rows.map (fun row => (row.name, row.place)) = folderNames here above →
      m.folders fh = some rows →
      m.Holds (.opendir ino) (.ok (.opened fh))
  | readdir {fh : ℕ} {accepts : Capacity} {front rest shown left : List Row}
      {listing : List Dirent} :
      m.folders fh = some (front ++ rest) →
      (rest.filter fun row => !row.hidden) = shown ++ left →
      List.Forall₂ m.ListedAs listing shown →
      m.Holds (.readdir fh (cookie front) accepts)
        (.ok (.directory listing))
  | readdir_end {fh : ℕ} {accepts : Capacity} :
      m.Holds (.readdir fh (-1) accepts) (.ok (.directory []))
  | releasedir {fh : ℕ} : m.Holds (.releasedir fh) (.ok .ok)
  | refused {q : Request} {e : Errno} : e ≠ .ENOENT → m.Holds q (.err e)

/-- The second ledger has all that the first one has. -/
structure GoesOn (m m' : Ledger) : Prop where
  nodes : Extends m.nodes m'.nodes
  files : Extends m.files m'.files
  folders : Extends m.folders m'.folders

/-- The ledger has all that the client was ever given. -/
structure Covers (m : Ledger) (d : Desk) : Prop where
  nodes : Register m.nodes d.nodes
  files : Register m.files d.files
  folders : Register m.folders d.folders

theorem GoesOn.refl (m : Ledger) : GoesOn m m := ⟨.refl _, .refl _, .refl _⟩

theorem ListedAs.mono {e : Dirent} {row : Row} (h : m.ListedAs e row)
    (hm : GoesOn m m') : m'.ListedAs e row :=
  ⟨h.name, h.kind, h.offset, fun hdot hdots =>
    hm.nodes _ _ (h.ino hdot hdots)⟩

/-- An answer stays right. -/
theorem Holds.mono {q : Request} {a : Outcome Errno Reply} (h : m.Holds q a)
    (hm : GoesOn m m') : m'.Holds q a := by
  cases h with
  | lookup htext hp hgo hq hattr =>
      exact .lookup htext (hm.nodes _ _ hp) hgo (hm.nodes _ _ hq) hattr
  | lookup_missing htext hp hgo =>
      exact .lookup_missing htext (hm.nodes _ _ hp) hgo
  | forget => exact .forget
  | getattr hp hattr hino => exact .getattr (hm.nodes _ _ hp) hattr hino
  | readlink hp => exact .readlink (hm.nodes _ _ hp)
  | openFile hp hfile => exact .openFile (hm.nodes _ _ hp) (hm.files _ _ hfile)
  | read hfile hpos => exact .read (hm.files _ _ hfile) hpos
  | release => exact .release
  | opendir hp hnames hrows =>
      exact .opendir (hm.nodes _ _ hp) hnames (hm.folders _ _ hrows)
  | readdir hrows hshown hlisted =>
      exact .readdir (hm.folders _ _ hrows) hshown
        (hlisted.imp fun _ _ h => h.mono hm)
  | readdir_end => exact .readdir_end
  | releasedir => exact .releasedir
  | refused he => exact .refused he

/-- A row that is listed is entered in the ledger. -/
theorem exists_listed {nodes : Table Spot} (h : Register m.nodes nodes)
    {row : Row} {e : Dirent} (hshown : ShownAs nodes row e) :
    ∃ m₁ : Ledger, GoesOn m m₁ ∧ m₁.files = m.files
      ∧ m₁.folders = m.folders
      ∧ Register m₁.nodes (row.enteredIn e.ino nodes) ∧ m₁.ListedAs e row := by
  have hino := hshown.ino h.generated
  unfold Row.enteredIn
  by_cases hdots : row.name ≠ "." ∧ row.name ≠ ".."
  · rw [if_pos hdots, hino]
    refine ⟨{ m with
        nodes := Function.update m.nodes nodes.next (some row.place) },
      ⟨h.extends_update _, .refl _, .refl _⟩, rfl, rfl, h.enter row.place,
      hshown.name, hshown.kind, hshown.offset, ?_⟩
    intro _ _
    rw [hino]
    exact Function.update_self _ _ _
  · rw [if_neg hdots]
    exact ⟨m, .refl m, rfl, rfl, h.advance, hshown.name, hshown.kind,
      hshown.offset, fun hdot hdots' => absurd ⟨hdot, hdots'⟩ hdots⟩

/-- A listing is of the first rows that are left and not hidden. -/
theorem exists_filled {accepts : Capacity} {nodes nodes' : Table Spot}
    {rows : List Row} {listing : List Dirent} {a : Outcome Errno Reply}
    (h : Fills accepts nodes rows listing a nodes') :
    ∀ {m : Ledger}, Register m.nodes nodes →
      ∃ m' : Ledger, GoesOn m m' ∧ m'.files = m.files
        ∧ m'.folders = m.folders ∧ Register m'.nodes nodes'
        ∧ (a = .err .ENFILE ∨ ∃ more shown left,
          a = .ok (.directory (listing ++ more))
            ∧ (rows.filter fun row => !row.hidden) = shown ++ left
            ∧ List.Forall₂ m'.ListedAs more shown) := by
  induction h with
  | @done nodes listing =>
      intro m hm
      refine ⟨m, .refl m, rfl, rfl, hm, Or.inr ⟨[], [], [], ?_, rfl, .nil⟩⟩
      rw [List.append_nil]
  | out => exact fun hm => ⟨_, .refl _, rfl, rfl, hm, Or.inl rfl⟩
  | hidden _ hhidden _ ih =>
      intro m hm
      obtain ⟨m', hgoes, hfiles, hfolders, hnodes, hanswer⟩ := ih hm
      refine ⟨m', hgoes, hfiles, hfolders, hnodes, ?_⟩
      rw [List.filter_cons_of_neg (by simp [hhidden])]
      exact hanswer
  | full =>
      intro m hm
      refine ⟨m, .refl m, rfl, rfl, hm, Or.inr ⟨[], [], _, ?_, rfl, .nil⟩⟩
      rw [List.append_nil]
  | listed _ hshown hrow _ _ ih =>
      intro m hm
      obtain ⟨m₁, hgoes₁, hfiles₁, hfolders₁, hnodes₁, hlisted⟩ :=
        exists_listed hm hrow
      obtain ⟨m', hgoes, hfiles, hfolders, hnodes, hanswer⟩ := ih hnodes₁
      refine ⟨m', ⟨hgoes₁.nodes.trans hgoes.nodes,
          hgoes₁.files.trans hgoes.files,
          hgoes₁.folders.trans hgoes.folders⟩,
        hfiles.trans hfiles₁, hfolders.trans hfolders₁, hnodes, ?_⟩
      rcases hanswer with hout | ⟨more, shown, left, ha, hleft, hmore⟩
      · exact Or.inl hout
      · refine Or.inr ⟨_ :: more, _ :: shown, left, ?_, ?_,
          .cons (hlisted.mono hgoes) hmore⟩
        · rw [ha, List.append_assoc]
          rfl
        · rw [List.filter_cons_of_pos (by simp [hshown]), hleft]
          rfl

/-- What is answered is right by a ledger that goes on as the one before,
and that has again all that the client holds. -/
theorem exists_answered {d d' : Desk} {q : Request}
    {a : Outcome Errno Reply} (h : Answers d q a d') (hm : m.Covers d) :
    ∃ m', GoesOn m m' ∧ m'.Covers d' ∧ m'.Holds q a := by
  have hsame {q : Request} {a : Outcome Errno Reply} (hholds : m.Holds q a) :
      ∃ m', GoesOn m m' ∧ m'.Covers d ∧ m'.Holds q a :=
    ⟨m, .refl m, hm, hholds⟩
  cases h with
  | @lookup _ _ _ _ _ p attr hbound _ htext hgo hattr hino =>
      have hino := hino hm.nodes.generated
      have hgoes := hm.nodes.extends_update p
      rw [hino]
      refine ⟨{ m with
          nodes := Function.update m.nodes d.nodes.next (some p) },
        ⟨hgoes, .refl _, .refl _⟩, ⟨hm.nodes.enter p, hm.files, hm.folders⟩,
        .lookup htext (hgoes _ _ (hm.nodes.bound _ _ hbound)) hgo ?_ hattr⟩
      rw [hino]
      exact Function.update_self _ _ _
  | lookup_missing hbound _ htext hgo =>
      exact hsame (.lookup_missing htext (hm.nodes.bound _ _ hbound) hgo)
  | forget =>
      exact ⟨m, .refl m, ⟨hm.nodes.drop _, hm.files, hm.folders⟩, .forget⟩
  | getattr hbound hattr hino =>
      exact hsame (.getattr (hm.nodes.bound _ _ hbound) hattr hino)
  | readlink hbound => exact hsame (.readlink (hm.nodes.bound _ _ hbound))
  | @openFile _ bytes hbound =>
      exact ⟨{ m with
          files := Function.update m.files d.files.next (some bytes) },
        ⟨.refl _, hm.files.extends_update bytes, .refl _⟩,
        ⟨hm.nodes, hm.files.enter bytes, hm.folders⟩,
        .openFile (hm.nodes.bound _ _ hbound) (Function.update_self _ _ _)⟩
  | read hbound hpos => exact hsame (.read (hm.files.bound _ _ hbound) hpos)
  | release =>
      exact ⟨m, .refl m, ⟨hm.nodes, hm.files.drop _, hm.folders⟩, .release⟩
  | @opendir _ _ _ rows hbound _ hnames =>
      exact ⟨{ m with
          folders := Function.update m.folders d.folders.next (some rows) },
        ⟨.refl _, .refl _, hm.folders.extends_update rows⟩,
        ⟨hm.nodes, hm.files, hm.folders.enter rows⟩,
        .opendir (hm.nodes.bound _ _ hbound) hnames
          (Function.update_self _ _ _)⟩
  | @readdir _ _ front rest _ _ hbound _ hfills =>
      obtain ⟨m', hgoes, hfiles, hfolders, hnodes, hanswer⟩ :=
        exists_filled hfills hm.nodes
      refine ⟨m', hgoes, ⟨hnodes, hfiles ▸ hm.files,
        hfolders ▸ hm.folders⟩, ?_⟩
      rcases hanswer with hout | ⟨more, shown, left, ha, hleft, hmore⟩
      · rw [hout]
        exact .refused (fun heq => nomatch heq)
      · rw [ha, List.nil_append]
        exact .readdir (hgoes.folders _ _ (hm.folders.bound _ _ hbound))
          hleft hmore
  | readdir_end => exact hsame .readdir_end
  | releasedir =>
      exact ⟨m, .refl m, ⟨hm.nodes, hm.files, hm.folders.drop _⟩,
        .releasedir⟩
  | lookup_full | lookup_leaf | lookup_unknown | getattr_unknown
  | readlink_other | openFile_full | openFile_other | openFile_unknown
  | read_refused | release_unknown | opendir_full | opendir_leaf
  | opendir_unknown | getxattr | readdir_refused | releasedir_unknown =>
      exact hsame (.refused fun heq => nomatch heq)

end Ledger

/-- With a counter there is one ledger for a whole history by which every
answer of it is right. -/
theorem history_ledger {tree : Tree} {log : List (Request × _)} {d : Desk}
    (h : History Answers (Desk.mounted tree true) log d) :
    ∃ m : Ledger, m.nodes FUSE_ROOT_ID = some (.folder tree [])
      ∧ (∀ e ∈ log, m.Holds e.1 e.2) ∧ m.Covers d := by
  refine h.inv (I := fun log d => ∃ m : Ledger,
    m.nodes FUSE_ROOT_ID = some (.folder tree [])
      ∧ (∀ e ∈ log, m.Holds e.1 e.2) ∧ m.Covers d) ?_ ?_
  · have hempty (α : Type) : Register (α := α) (fun _ => none)
        ⟨fun _ => none, 0, true⟩ :=
      ⟨rfl, .refl _, fun _ hn => absurd rfl hn⟩
    refine ⟨⟨(Desk.mounted tree true).nodes.bound, fun _ => none,
      fun _ => none⟩, Desk.mounted_root tree true, (fun _ he => nomatch he),
      ⟨⟨rfl, .refl _, ?_⟩, hempty _, hempty _⟩⟩
    intro n hn
    by_cases heq : n = FUSE_ROOT_ID
    · rw [heq]
      exact Nat.lt_succ_self _
    · exact absurd (Desk.mounted_other tree true heq) hn
  · intro log d q a d' hinv hanswers
    obtain ⟨m, hroot, hlog, hm⟩ := hinv
    obtain ⟨m', hgoes, hm', hholds⟩ := Ledger.exists_answered hanswers hm
    refine ⟨m', hgoes.nodes _ _ hroot, ?_, hm'⟩
    intro e he
    rcases List.mem_cons.mp he with rfl | he
    · exact hholds
    · exact (hlog e he).mono hgoes

-- ================================================================ names

/-- A number that was got by looking up names one after the other, from
the root on, whatever else was asked in between. -/
inductive Led (log : List (Request × Outcome Errno Reply)) :
    ℕ → List String → Prop
  | root : Led log FUSE_ROOT_ID []
  | lookup {n : ℕ} {names : List String} {name : List UInt8} {text : String}
      {attr : FileAttr} :
      Led log n names → fromUtf8 name = some text →
      (.lookup n name, .ok (.entry attr)) ∈ log →
      Led log attr.ino (names ++ [text])

/-- What is led to in a log is led to in a longer one. -/
theorem Led.mono {log log' : List (Request × Outcome Errno Reply)} {n : ℕ}
    {names : List String} (h : Led log n names)
    (hlog : ∀ e ∈ log, e ∈ log') : Led log' n names := by
  induction h with
  | root => exact .root
  | lookup _ htext hmem ih => exact ih.lookup htext (hlog _ hmem)

/-- Where some names lead from the top of a tree. -/
def destination (tree : Tree) (names : List String) : Option Spot :=
  Place.walk (fun key name => eqIgnoreAsciiCase name key)
    (names.map heading) (.folder tree [])

theorem destination_concat (tree : Tree) (names : List String)
    (name : String) :
    destination tree (names ++ [name])
      = (destination tree names).bind fun p => p.enter name := by
  unfold destination
  rw [List.map_append]
  exact Place.walk_concat _ _ _

theorem destination_segments (tree : Tree) (path : String) :
    destination tree (segments path) = resolve path (.folder tree []) := rfl

/-- By a ledger the number stands for where the names lead. -/
theorem Led.place {m : Ledger} {tree : Tree}
    {log : List (Request × Outcome Errno Reply)}
    (hroot : m.nodes FUSE_ROOT_ID = some (.folder tree []))
    (hlog : ∀ e ∈ log, m.Holds e.1 e.2) {n : ℕ} {names : List String}
    (h : Led log n names) :
    ∃ p, m.nodes n = some p ∧ destination tree names = some p := by
  induction h with
  | root => exact ⟨_, hroot, rfl⟩
  | lookup _ htext hmem ih =>
      obtain ⟨p, hp, hdestination⟩ := ih
      cases hlog _ hmem with
      | lookup htext' hp' hgo hq =>
          cases htext.symm.trans htext'
          cases hp.symm.trans hp'
          refine ⟨_, hq, ?_⟩
          rw [destination_concat, hdestination]
          exact hgo

end Cdfs
