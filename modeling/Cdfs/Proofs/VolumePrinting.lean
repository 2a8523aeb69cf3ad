/-
The example programs over a volume. `print_file` prints the bytes of the
file that the path leads to, and has a message for any other path
(`printFile_volume`); how the standard library divides the reading does
not matter, as long as its buffers have room. `print_tree` prints a line
for each name of the hierarchy (`printTree_volume`).
-/
import Cdfs.Examples.PrintFile
import Cdfs.Proofs.TreePrinting
import Cdfs.Proofs.VolumeTree

namespace Cdfs

open Rust Parse ISOFileReader Forest

variable {σ : Type} {b : Build} {rd : ISO9660Reader σ} {src : Source}
  {image : List UInt8} {fuel : ℕ}

theorem servesImage_of_holds (hserve : rd.Serves src)
    (hsrc : src.Holds image) : rd.ServesImage image := by
  intro s buf lba hlba
  rw [hserve s buf lba]
  unfold Source.fill imageSource
  rw [hsrc lba hlba]

-- ===================================================== reading to the end

/-- What a read puts at the front of its buffer. -/
theorem read_bytesOf (hserve : rd.ServesImage image) {file : ISOFile}
    (hinside : BLOCK_SIZE * file.header.extentLoc.toNat + file.size.toNat
      ≤ image.length) {r : ISOFileReader}
    (hr : ReaderOf (storedAt image) file r) (buf : List UInt8) (s : σ) :
    let count := min buf.length (file.size.toNat - r.seek)
    (r.read rd buf s).buf.take count
      = ((bytesOf image file).drop r.seek).take count := by
  intro count
  obtain ⟨-, hbuf, -⟩ := read_image hserve hinside hr buf s
  have hlen : ((image.drop (BLOCK_SIZE * file.header.extentLoc.toNat
      + r.seek)).take count).length = count := by
    rw [List.length_take, List.length_drop]
    omega
  rw [hbuf, List.take_left' hlen]
  unfold bytesOf
  rw [List.drop_take, List.drop_drop, List.take_take]
  congr 1
  omega

/-- From any position on, reading to the end takes the rest of the file,
in at most one turn for each byte and one more. -/
theorem readToEnd_image (hserve : rd.ServesImage image) {file : ISOFile}
    (hinside : BLOCK_SIZE * file.header.extentLoc.toNat + file.size.toNat
      ≤ image.length) {how : Reading} (hroom : ∀ n, 0 < how.size n)
    (turns : ℕ) :
    ∀ (n : ℕ) (r : ISOFileReader) (text : List UInt8) (s : σ),
      ReaderOf (storedAt image) file r →
      file.size.toNat - r.seek < turns →
      (readToEnd rd how turns n r text s).1 = .ok ()
        ∧ (readToEnd rd how turns n r text s).2.1
          = text ++ (bytesOf image file).drop r.seek := by
  induction turns with
  | zero => exact fun _ _ _ _ _ h => absurd h (Nat.not_lt_zero _)
  | succ turns ih =>
      intro n r text s hr hturns
      obtain ⟨hresult, hbuf, hseek, hreader⟩ :=
        read_image hserve hinside hr (List.replicate (how.size n) 0) s
      rw [List.length_replicate] at hresult hbuf hseek
      have hroomn := hroom n
      rw [readToEnd, hresult]
      dsimp only
      by_cases hend : min (how.size n) (file.size.toNat - r.seek) = 0
      · -- nothing is left
        rw [if_pos hend]
        refine ⟨rfl, ?_⟩
        have hlen : (bytesOf image file).length ≤ r.seek := by
          unfold bytesOf
          rw [List.length_take]
          omega
        rw [List.drop_eq_nil_of_le hlen, List.append_nil]
      · rw [if_neg hend]
        obtain ⟨hok, htext⟩ := ih (n + 1) _
          (text ++ (r.read rd (List.replicate (how.size n) 0) s).buf.take
            (min (how.size n) (file.size.toNat - r.seek))) _ hreader
          (by rw [hseek]; omega)
        have hfront := read_bytesOf hserve hinside hr
          (List.replicate (how.size n) 0) s
        rw [List.length_replicate] at hfront
        refine ⟨hok, htext.trans ?_⟩
        rw [hfront, hseek, ← List.drop_drop, List.append_assoc,
          List.take_append_drop]

-- ============================================================ print_file

/-- What the program has for a place of the hierarchy. -/
def printed (path : String) :
    Option (Place String Content) → Outcome PrintError (List UInt8)
  | some (.leaf (.file bytes)) => .ok bytes
  | some _ => .err (.message (path ++ " is not a file."))
  | none => .err (.message ("'" ++ path ++ "' not found"))

/-- A mounted volume: the root that paths start from stands for the
hierarchy. -/
def Mounted (b : Build) (rd : ISO9660Reader σ) (src : Source)
    (fuel : ℕ) (image : List UInt8) (s : σ) (tree : Tree) : Prop :=
  ∃ iso s' root, ISO9660.new b rd fuel s = (.ok iso, s')
    ∧ (iso.mainRoot b rd fuel s').1 = .ok root
    ∧ IsFolder b src fuel image tree [] root

/-- What the program prints of an image whose root stands for a folder. -/
theorem printFile_stands (hserve : rd.Serves src) (hsrc : src.Holds image)
    (hfuel : 2 ^ 27 ≤ fuel) {how : Reading} (hroom : ∀ n, 0 < how.size n)
    {turns : ℕ} (hturns : 2 ^ 32 ≤ turns) {s s' : σ} {tree : Tree}
    {iso : ISO9660} {root : ISODirectory}
    (hnew : ISO9660.new b rd fuel s = (.ok iso, s'))
    (hroot : (iso.mainRoot b rd fuel s').1 = .ok root)
    (hfolder : IsFolder b src fuel image tree [] root) (path : String) :
    printFile b rd how fuel turns path s
      = printed path (resolve path (.folder tree [])) := by
  obtain ⟨found, hfind, hstands⟩ := findRecursive_stands hserve hfuel
    hfolder path (iso.mainRoot b rd fuel s').2
  unfold printFile
  rw [hnew]
  dsimp only
  rw [openPath_of_mainRoot hroot]
  rcases hres : findRecursive b rd fuel root path _ with ⟨r, s''⟩
  rw [hres] at hfind
  dsimp only at hfind
  subst hfind
  generalize resolve path (.folder tree []) = place at hstands
  cases hstands with
  | none => rfl
  | some hstands =>
      cases hstands with
      | folder => rfl
      | leaf hcontent =>
          cases hcontent with
          | link => rfl
          | @file file hinside =>
              obtain ⟨hok, htext⟩ := readToEnd_image
                (servesImage_of_holds hserve hsrc) hinside hroom turns 0
                file.read [] s'' (readerOf_read _ file)
                (by have := file.size.toNat_lt; omega)
              rcases hread : readToEnd rd how turns 0 file.read [] s''
                with ⟨r, text, reader, s₃⟩
              rw [hread] at hok htext
              dsimp only at hok htext
              subst hok htext
              dsimp only
              rw [hread]
              rfl

/-- The program prints the file that the path leads to, and nothing else.
-/
theorem printFile_volume (hserve : rd.Serves src) (hsrc : src.Holds image)
    (hfuel : 2 ^ 27 ≤ fuel) {how : Reading} (hroom : ∀ n, 0 < how.size n)
    {turns : ℕ} (hturns : 2 ^ 32 ≤ turns) {s : σ} {tree : Tree}
    (hmounted : Mounted b rd src fuel image s tree) (path : String) :
    printFile b rd how fuel turns path s
      = printed path (resolve path (.folder tree [])) := by
  obtain ⟨iso, s', root, hnew, hroot, hfolder⟩ := hmounted
  exact printFile_stands hserve hsrc hfuel hroom hturns hnew hroot hfolder
    path

-- ============================================================ print_tree

/-- An entry that is walked, and the name it stands for. -/
inductive IsNamed (image : List UInt8) :
    ℕ × Placed → ℕ × String × Option Content → Prop
  | leaf {level : ℕ} {dir : ISODirectory} {entry : DirectoryEntry}
      {content : Content} :
      IsContent image content entry →
      IsNamed image (level, dir, entry)
        (level, entry.identifier, some content)
  | folder {level : ℕ} {dir sub : ISODirectory} :
      IsNamed image (level, dir, .directory sub)
        (level, sub.identifier, none)

/-- What is printed behind a name. -/
def mark : Option Content → String
  | none => "/"
  | some (.file _) => ""
  | some (.link target) => " → " ++ targetText target

/-- The line of a name ends with the name, indented, and its mark; before
it are the mode and the time. -/
def IsLine (name : ℕ × String × Option Content) (line : String) : Prop :=
  ∃ stamp, line = stamp ++ indent name.1 ++ name.2.1 ++ mark name.2.2

theorem IsNamed.line {p : ℕ × Placed} {name : ℕ × String × Option Content}
    (h : IsNamed image p name) {line : String}
    (hline : entryLine b p.2.1 p.1 p.2.2 = .ok line) : IsLine name line := by
  obtain ⟨mode, -, hline⟩ := Outcome.bind_eq_ok.mp hline
  injection hline with hline
  subst hline
  cases h with
  | leaf hcontent =>
      cases hcontent with
      | file => exact ⟨_, rfl⟩
      | link => exact ⟨_, rfl⟩
  | folder => exact ⟨_, rfl⟩

theorem named_lines {walk : List (ℕ × Placed)}
    {names : List (ℕ × String × Option Content)}
    (h : List.Forall₂ (IsNamed image) walk names) :
    ∀ {lines}, Lines b walk lines → List.Forall₂ IsLine names lines := by
  induction h with
  | nil =>
      intro lines hlines
      cases hlines
      exact .nil
  | cons hnamed _ ih =>
      intro lines hlines
      cases hlines with
      | cons hline hlines => exact .cons (hnamed.line hline) (ih hlines)

theorem IsContent.shown {content : Content} {entry : DirectoryEntry}
    (h : IsContent image content entry) : passedOver entry = false := by
  cases h with
  | file => rfl
  | link => rfl

theorem IsContent.below {content : Content} {entry : DirectoryEntry}
    (h : IsContent image content entry) (dir : ISODirectory) :
    Below b src fuel (dir, entry) [] := by
  cases h with
  | file => exact .file _ _
  | link => exact .symlink _ _

/-- The two entries in front of a listing are passed over. -/
theorem Catalog.placed_eq {dir parent own up : ISODirectory}
    {entries : List DirectoryEntry}
    (h : Catalog b src fuel dir parent own up entries) :
    placed dir (.directory own :: .directory up :: entries)
      = placed dir entries := by
  rw [placed_passed (by simp [passedOver, h.own_name]),
    placed_passed (by simp [passedOver, h.up_name])]

theorem Lists.below {sub parent : ISODirectory}
    {inside : List DirectoryEntry}
    (h : Lists b src fuel sub parent inside) (dir : ISODirectory) :
    Below b src fuel (dir, .directory sub) (placed sub inside) := by
  obtain ⟨own, up, hcatalog⟩ := h
  rw [← hcatalog.placed_eq]
  exact .directory hcatalog.yields

/-- What is below a directory that presents a folder. -/
theorem Presents.unfolds {here : Tree} {dir : ISODirectory}
    {entries : List DirectoryEntry}
    (h : Presents b src fuel image dir here entries) :
    ∃ forest, Unfolds (Below b src fuel) (placed dir entries) forest
      ∧ ∀ level, List.Forall₂ (IsNamed image) (forest.preorder level)
        (here.preorder level) := by
  induction h with
  | empty => exact ⟨.empty, .empty, fun _ => .nil⟩
  | leaf _ hcontent _ ih =>
      obtain ⟨forest, hunfolds, hnamed⟩ := ih
      rw [placed_cons hcontent.shown]
      exact ⟨_, .tree (hcontent.below _) .empty hunfolds,
        fun level => .cons (.leaf hcontent) (hnamed level)⟩
  | folder _ hdot hdots hlists _ _ ihbelow ih =>
      obtain ⟨forest, hunfolds, hnamed⟩ := ih
      obtain ⟨under, hunder, hnamedunder⟩ := ihbelow
      rw [placed_cons (by simp [passedOver, hdot, hdots])]
      exact ⟨_, .tree (hlists.below _) hunder hunfolds, fun level =>
        .cons .folder (List.rel_append (hnamedunder _) (hnamed level))⟩

theorem IsFolder.lists {here : Tree} {above : List Tree}
    {dir : ISODirectory} (h : IsFolder b src fuel image here above dir) :
    ∃ parent entries, Lists b src fuel dir parent entries
      ∧ Presents b src fuel image dir here entries := by
  cases h with
  | top hlists _ hpresents => exact ⟨_, _, hlists, hpresents⟩
  | sub _ hlists hpresents => exact ⟨_, _, hlists, hpresents⟩

/-- The program comes to its end, with a line for each name of the folder
and of the folders in it, in their order and indented by their depth. -/
theorem printTree_volume (hserve : rd.Serves src) {here : Tree}
    {above : List Tree} {dir : ISODirectory}
    (hfolder : IsFolder b src fuel image here above dir)
    (hprintable : ∀ p, Relation.TransGen (Child (Below b src fuel))
      (dir, .directory dir) p → Printable b p.2) (level : ℕ) (s : σ) :
    ∃ turns lines, (printTree b rd fuel turns dir level s).1 = .ok ()
      ∧ (printTree b rd fuel turns dir level s).2.1 = lines
      ∧ List.Forall₂ IsLine (here.preorder level) lines := by
  obtain ⟨parent, entries, hlists, hpresents⟩ := hfolder.lists
  obtain ⟨forest, hunfolds, hnamed⟩ := hpresents.unfolds
  obtain ⟨own, up, hcatalog⟩ := hlists
  rw [← hcatalog.placed_eq] at hunfolds
  obtain ⟨lines, hlines⟩ : ∃ lines, Lines b (forest.preorder level) lines :=
    (exists_lines_below dir hcatalog.yields hunfolds).mpr hprintable
  obtain ⟨turns, hdone, hout⟩ := printTree_completes hserve
    ⟨_, forest, hcatalog.yields, hunfolds, hlines⟩ s
  exact ⟨turns, lines, hdone, hout, named_lines (hnamed level) hlines⟩

end Cdfs
