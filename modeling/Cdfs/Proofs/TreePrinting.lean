/-
What `print_tree` prints. Below a directory there is a forest, if every
directory on the way can be read and no way down is endless; the program
comes to its end exactly then (`printTree_ends_iff`), and it has printed
a line for each entry of the forest, from top to bottom and indented by
its depth (`printTree_ok_iff`).

The induction in the one direction is on the turns of the program, and
in the other on the unfolding. In both a directory is listed by the walk
of its iterator (`Cursor.Yields`), so that the program's two loops, over
a directory and down into it, are the two branches of the unfolding.
-/
import Cdfs.Examples.PrintTree
import Cdfs.Proofs.Lookup
import Cdfs.Rust.Forest

namespace Cdfs

open Rust Parse Forest

variable {σ : Type} {b : Build} {rd : ISO9660Reader σ} {src : Source}
  {fuel : ℕ}

-- ================================================ statement vocabulary

/-- An entry, with the directory it is in. -/
abbrev Placed : Type := ISODirectory × DirectoryEntry

/-- The entries of a listing that are not passed over. -/
def placed (dir : ISODirectory) (entries : List DirectoryEntry) :
    List Placed :=
  (entries.filter fun entry => !passedOver entry).map (dir, ·)

/-- What is directly below an entry. -/
inductive Below (b : Build) (src : Source) (fuel : ℕ) :
    Placed → List Placed → Prop
  | directory {parent dir : ISODirectory} {entries : List DirectoryEntry} :
      Cursor.Yields (entryAt b src fuel dir) (some 0) entries →
      Below b src fuel (parent, .directory dir) (placed dir entries)
  | file (parent : ISODirectory) (file : ISOFile) :
      Below b src fuel (parent, .file file) []
  | symlink (parent : ISODirectory) (link : Symlink) :
      Below b src fuel (parent, .symlink link) []

/-- A directory has one list of what is below it. -/
theorem Below.unique {p : Placed} {kids kids' : List Placed}
    (h : Below b src fuel p kids) (h' : Below b src fuel p kids') :
    kids = kids' := by
  cases h with
  | directory h =>
      cases h' with
      | directory h' => rw [h.unique h']
  | file =>
      cases h'
      rfl
  | symlink =>
      cases h'
      rfl

/-- The lines of a walk. -/
def Lines (b : Build) (walk : List (ℕ × Placed)) (lines : List String) :
    Prop :=
  List.Forall₂ (fun p line => entryLine b p.2.1 p.1 p.2.2 = .ok line) walk
    lines

/-- The lines of two walks, one after the other. -/
theorem lines_append {walk walk' : List (ℕ × Placed)}
    {lines : List String} :
    Lines b (walk ++ walk') lines
      ↔ ∃ before after, Lines b walk before ∧ Lines b walk' after
        ∧ lines = before ++ after := by
  constructor
  · intro h
    induction walk generalizing lines with
    | nil => exact ⟨[], lines, .nil, h, rfl⟩
    | cons p walk ih =>
        cases h with
        | cons hline h =>
            obtain ⟨before, after, hbefore, hafter, rfl⟩ := ih h
            exact ⟨_ :: before, after, .cons hline hbefore, hafter, rfl⟩
  · rintro ⟨before, after, hbefore, hafter, rfl⟩
    exact List.rel_append hbefore hafter

/-- Entries that are passed over have no line and nothing below them. -/
theorem placed_passed {dir : ISODirectory} {entry : DirectoryEntry}
    (h : passedOver entry = true) (entries : List DirectoryEntry) :
    placed dir (entry :: entries) = placed dir entries := by
  unfold placed
  rw [List.filter_cons_of_neg (by simp [h])]

theorem placed_cons {dir : ISODirectory} {entry : DirectoryEntry}
    (h : passedOver entry = false) (entries : List DirectoryEntry) :
    placed dir (entry :: entries)
      = (dir, entry) :: placed dir entries := by
  unfold placed
  rw [List.filter_cons_of_pos (by simp [h]), List.map_cons]

-- ============================================================= one turn

section Turn

variable (b rd src fuel)

/-- What one turn of the program does, if it is not stopped by the entry
that it takes. -/
inductive PrintTurn (turns : ℕ) (dir : ISODirectory) (level : ℕ)
    (it : ISODirectoryIterator) (out : List String) :
    Outcome ISOError Unit × List String × σ → Prop
  | ended (s : σ) :
      it.nextOffset = none →
      PrintTurn turns dir level it out (.ok (), out, s)
  | passed {offset : ℕ} {entry : DirectoryEntry}
      {it₁ : ISODirectoryIterator} (s₁ : σ) :
      it.nextOffset = some offset →
      entryAt b src fuel dir offset = .ok (entry, it₁.nextOffset) →
      Coherent src dir it₁.cache → passedOver entry = true →
      PrintTurn turns dir level it out
        (printFrom b rd fuel turns dir level it₁ out s₁)
  | leaf {offset : ℕ} {entry : DirectoryEntry}
      {it₁ : ISODirectoryIterator} {line : String} (s₁ : σ) :
      it.nextOffset = some offset →
      entryAt b src fuel dir offset = .ok (entry, it₁.nextOffset) →
      Coherent src dir it₁.cache → passedOver entry = false →
      entryLine b dir level entry = .ok line →
      (∀ sub, entry ≠ .directory sub) →
      PrintTurn turns dir level it out
        (printFrom b rd fuel turns dir level it₁ (out ++ [line]) s₁)
  | down {offset : ℕ} {sub : ISODirectory}
      {it₁ : ISODirectoryIterator} {line : String} {out₂ : List String}
      {s₁ s₂ : σ} :
      it.nextOffset = some offset →
      entryAt b src fuel dir offset
        = .ok (.directory sub, it₁.nextOffset) →
      Coherent src dir it₁.cache →
      passedOver (.directory sub) = false →
      entryLine b dir level (.directory sub) = .ok line →
      printFrom b rd fuel turns sub (level + 1) contents (out ++ [line]) s₁
        = (.ok (), out₂, s₂) →
      PrintTurn turns dir level it out
        (printFrom b rd fuel turns dir level it₁ out₂ s₂)

end Turn

/-- The item of the iterator, and what is behind it. -/
theorem next_item (hserve : rd.Serves src) {dir : ISODirectory}
    {it it₁ : ISODirectoryIterator} {s s₁ : σ} {offset : ℕ}
    {x : Option (Outcome ISOError DirectoryEntry)}
    (hco : Coherent src dir it.cache) (hpos : it.nextOffset = some offset)
    (h : it.next b rd fuel dir s = (x, it₁, s₁)) :
    x = some ((entryAt b src fuel dir offset).map Prod.fst)
      ∧ Coherent src dir it₁.cache
      ∧ ∀ entry next, entryAt b src fuel dir offset = .ok (entry, next) →
        it₁.nextOffset = next := by
  obtain ⟨hitem, hnext, hco'⟩ := next_serves (b := b) hserve fuel hco s
  rw [h] at hitem hnext hco'
  rw [hpos] at hitem hnext
  refine ⟨hitem, hco', fun entry next hentry => ?_⟩
  rw [show it₁.nextOffset = _ from hnext]
  simp [Cursor.advance, hentry]

/-- One turn of the loop: the next entry is taken, and what is printed then
depends on what it is. -/
theorem printFrom_turn (hserve : rd.Serves src) {turns : ℕ}
    {dir : ISODirectory} {level : ℕ} {it : ISODirectoryIterator}
    {out : List String} {s : σ} (hco : Coherent src dir it.cache)
    (h : (printFrom b rd fuel (turns + 1) dir level it out s).1 = .ok ()) :
    PrintTurn b rd src fuel turns dir level it out
      (printFrom b rd fuel (turns + 1) dir level it out s) := by
  unfold printFrom at h ⊢
  rcases hnext : it.next b rd fuel dir s with ⟨x, it₁, s₁⟩
  rw [hnext] at h
  cases hpos : it.nextOffset with
  | none =>
      have hx : x = none := by
        simp only [ISODirectoryIterator.next, hpos, Prod.mk.injEq] at hnext
        exact hnext.1.symm
      rw [hx]
      exact .ended s₁ hpos
  | some offset =>
      obtain ⟨rfl, hco₁, hadvance⟩ := next_item hserve hco hpos hnext
      cases hentry : entryAt b src fuel dir offset with
      | err | panic | running =>
          rw [hentry] at h
          cases h
      | ok r =>
          obtain ⟨entry, next⟩ := r
          rw [← hadvance entry next hentry] at hentry
          rw [hentry] at h
          dsimp only [Outcome.map] at h ⊢
          by_cases hpass : passedOver entry = true
          · simp only [if_pos hpass] at h ⊢
            exact .passed s₁ hpos hentry hco₁ hpass
          simp only [if_neg hpass] at h ⊢
          have hshown : passedOver entry = false :=
            Bool.eq_false_of_not_eq_true hpass
          cases hline : entryLine b dir level entry with
          | err | panic | running =>
              rw [hline] at h
              cases h
          | ok line =>
              rw [hline] at h
              cases entry with
              | file | symlink =>
                  exact .leaf s₁ hpos hentry hco₁ hshown hline
                    fun _ h => nomatch h
              | directory sub =>
                  dsimp only at h ⊢
                  rcases hsub : printFrom b rd fuel turns sub (level + 1)
                    contents (out ++ [line]) s₁ with ⟨r, out₂, s₂⟩
                  rw [hsub] at h
                  cases r with
                  | err | panic | running => cases h
                  | ok =>
                      exact .down hpos hentry hco₁ hshown hline hsub

-- ==================================================== what was printed

/-- What is left of a directory, with all that is below, has these
lines. -/
def PrintsAs (b : Build) (src : Source) (fuel : ℕ) (dir : ISODirectory)
    (level : ℕ) (pos : Option ℕ) (lines : List String) : Prop :=
  ∃ entries forest, Cursor.Yields (entryAt b src fuel dir) pos entries
    ∧ Unfolds (Below b src fuel) (placed dir entries) forest
    ∧ Lines b (forest.preorder level) lines

section PrintsAs

variable {dir : ISODirectory} {level offset : ℕ} {next : Option ℕ}
  {entry : DirectoryEntry} {line : String} {lines below : List String}

/-- At the end of a listing nothing is printed. -/
theorem PrintsAs.nothing : PrintsAs b src fuel dir level none [] :=
  ⟨[], .empty, Cursor.yields_nil, .empty, .nil⟩

/-- An entry that is passed over adds nothing, -/
theorem PrintsAs.passed
    (hentry : entryAt b src fuel dir offset = .ok (entry, next))
    (hpass : passedOver entry = true)
    (h : PrintsAs b src fuel dir level next lines) :
    PrintsAs b src fuel dir level (some offset) lines := by
  obtain ⟨entries, forest, hyields, hunfolds, hlines⟩ := h
  refine ⟨entry :: entries, forest, hyields.cons hentry, ?_, hlines⟩
  rw [placed_passed hpass]
  exact hunfolds

/-- a file or a link one line, -/
theorem PrintsAs.leaf
    (hentry : entryAt b src fuel dir offset = .ok (entry, next))
    (hshown : passedOver entry = false)
    (hline : entryLine b dir level entry = .ok line)
    (hleaf : ∀ sub, entry ≠ .directory sub)
    (h : PrintsAs b src fuel dir level next lines) :
    PrintsAs b src fuel dir level (some offset) (line :: lines) := by
  obtain ⟨entries, forest, hyields, hunfolds, hlines⟩ := h
  refine ⟨entry :: entries, .tree (dir, entry) .empty forest,
    hyields.cons hentry, ?_, .cons hline hlines⟩
  rw [placed_cons hshown]
  refine .tree ?_ .empty hunfolds
  cases entry with
  | directory sub => exact absurd rfl (hleaf sub)
  | file => exact .file _ _
  | symlink => exact .symlink _ _

/-- and a directory its line and what is printed for it, one level
further. -/
theorem PrintsAs.down {sub : ISODirectory}
    (hentry : entryAt b src fuel dir offset = .ok (.directory sub, next))
    (hshown : passedOver (.directory sub) = false)
    (hline : entryLine b dir level (.directory sub) = .ok line)
    (hbelow : PrintsAs b src fuel sub (level + 1) (some 0) below)
    (h : PrintsAs b src fuel dir level next lines) :
    PrintsAs b src fuel dir level (some offset)
      (line :: (below ++ lines)) := by
  obtain ⟨entries, forest, hyields, hunfolds, hlines⟩ := h
  obtain ⟨subEntries, subForest, hsub, hsubUnfolds, hsubLines⟩ := hbelow
  refine ⟨.directory sub :: entries,
    .tree (dir, .directory sub) subForest forest, hyields.cons hentry, ?_,
    .cons hline (lines_append.mpr ⟨_, _, hsubLines, hlines, rfl⟩)⟩
  rw [placed_cons hshown]
  exact .tree (.directory hsub) hsubUnfolds hunfolds

end PrintsAs

/-- A call that came to its end has printed what was left. -/
theorem printFrom_prints (hserve : rd.Serves src) (turns : ℕ) :
    ∀ (dir : ISODirectory) (level : ℕ) (it : ISODirectoryIterator)
      (out : List String) (s : σ), Coherent src dir it.cache →
      (printFrom b rd fuel turns dir level it out s).1 = .ok () →
      ∃ lines, (printFrom b rd fuel turns dir level it out s).2.1
          = out ++ lines
        ∧ PrintsAs b src fuel dir level it.nextOffset lines := by
  induction turns with
  | zero => exact fun _ _ _ _ _ _ h => nomatch h
  | succ turns ih =>
      intro dir level it out s hco h
      have hturn := printFrom_turn hserve hco h
      revert h
      generalize printFrom b rd fuel (turns + 1) dir level it out s = done
        at hturn
      intro h
      cases hturn with
      | ended s₁ hpos =>
          rw [hpos]
          exact ⟨[], by simp, .nothing⟩
      | passed s₁ hpos hentry hco₁ hpass =>
          obtain ⟨lines, hout, hrest⟩ := ih _ _ _ _ _ hco₁ h
          rw [hpos]
          exact ⟨lines, hout, hrest.passed hentry hpass⟩
      | leaf s₁ hpos hentry hco₁ hshown hline hleaf =>
          obtain ⟨lines, hout, hrest⟩ := ih _ _ _ _ _ hco₁ h
          rw [hpos, hout, List.append_assoc]
          exact ⟨_, rfl, hrest.leaf hentry hshown hline hleaf⟩
      | @down offset sub it₁ line out₂ s₁ s₂ hpos hentry hco₁ hshown hline
          hsub =>
          obtain ⟨below, hbelow, hsubPrints⟩ := ih sub (level + 1) contents
            (out ++ [line]) s₁ (coherent_new src sub) (by rw [hsub])
          rw [hsub] at hbelow
          obtain ⟨lines, hout, hrest⟩ := ih _ _ _ _ _ hco₁ h
          rw [hpos, hout, show out₂ = _ from hbelow]
          refine ⟨line :: (below ++ lines), by simp, ?_⟩
          exact .down hentry hshown hline hsubPrints hrest

-- ===================================================== enough turns

/-- With enough turns the program comes to its end from a position, with
these lines. -/
def Completes (b : Build) (rd : ISO9660Reader σ) (src : Source) (fuel : ℕ)
    (dir : ISODirectory) (level : ℕ) (pos : Option ℕ)
    (lines : List String) : Prop :=
  ∃ enough, ∀ turns, enough ≤ turns → ∀ it out s,
    Coherent src dir it.cache → it.nextOffset = pos →
    ∃ s', printFrom b rd fuel turns dir level it out s
      = (.ok (), out ++ lines, s')

/-- The call of the iterator that takes an entry. -/
theorem next_takes (hserve : rd.Serves src) {dir : ISODirectory}
    {it : ISODirectoryIterator} {offset : ℕ} {entry : DirectoryEntry}
    {next : Option ℕ} (hco : Coherent src dir it.cache)
    (hpos : it.nextOffset = some offset)
    (hentry : entryAt b src fuel dir offset = .ok (entry, next)) (s : σ) :
    ∃ it₁ s₁, it.next b rd fuel dir s = (some (.ok entry), it₁, s₁)
      ∧ it₁.nextOffset = next ∧ Coherent src dir it₁.cache := by
  rcases hnext : it.next b rd fuel dir s with ⟨x, it₁, s₁⟩
  obtain ⟨rfl, hco₁, hadvance⟩ := next_item hserve hco hpos hnext
  rw [hentry]
  exact ⟨it₁, s₁, rfl, hadvance entry next hentry, hco₁⟩

section Completes

variable {dir : ISODirectory} {level offset : ℕ} {next : Option ℕ}
  {entry : DirectoryEntry} {line : String} {lines below : List String}

/-- With nothing to print one turn is enough. -/
theorem Completes.nothing :
    Completes b rd src fuel dir level none [] := by
  refine ⟨1, fun turns hturns it out s _ hpos => ?_⟩
  obtain ⟨turns, rfl⟩ := Nat.exists_eq_add_of_le' hturns
  refine ⟨s, ?_⟩
  simp [printFrom, ISODirectoryIterator.next, hpos]

/-- An entry that is passed over takes one turn more, -/
theorem Completes.passed (hserve : rd.Serves src)
    (hentry : entryAt b src fuel dir offset = .ok (entry, next))
    (hpass : passedOver entry = true)
    (h : Completes b rd src fuel dir level next lines) :
    Completes b rd src fuel dir level (some offset) lines := by
  obtain ⟨enough, hrest⟩ := h
  refine ⟨enough + 1, fun turns hturns it out s hco hpos => ?_⟩
  obtain ⟨turns, rfl⟩ := Nat.exists_eq_add_of_le' (Nat.le_of_add_left_le
    hturns)
  obtain ⟨it₁, s₁, hnext, hpos₁, hco₁⟩ := next_takes hserve hco hpos hentry s
  unfold printFrom
  rw [hnext]
  simp only [if_pos hpass]
  exact hrest turns (by omega) it₁ out s₁ hco₁ hpos₁

/-- and so does one with a line. -/
theorem Completes.leaf (hserve : rd.Serves src)
    (hentry : entryAt b src fuel dir offset = .ok (entry, next))
    (hshown : passedOver entry = false)
    (hline : entryLine b dir level entry = .ok line)
    (hleaf : ∀ sub, entry ≠ .directory sub)
    (h : Completes b rd src fuel dir level next lines) :
    Completes b rd src fuel dir level (some offset) (line :: lines) := by
  obtain ⟨enough, hrest⟩ := h
  refine ⟨enough + 1, fun turns hturns it out s hco hpos => ?_⟩
  obtain ⟨turns, rfl⟩ := Nat.exists_eq_add_of_le' (Nat.le_of_add_left_le
    hturns)
  obtain ⟨it₁, s₁, hnext, hpos₁, hco₁⟩ := next_takes hserve hco hpos hentry s
  obtain ⟨s', hdone⟩ := hrest turns (by omega) it₁ (out ++ [line]) s₁ hco₁
    hpos₁
  refine ⟨s', ?_⟩
  rw [List.append_cons]
  unfold printFrom
  rw [hnext]
  simp only [hshown, hline, Bool.false_eq_true, if_false]
  cases entry with
  | directory sub => exact absurd rfl (hleaf sub)
  | file | symlink => exact hdone

/-- A directory takes one turn more than what is in it or than the rest of
the listing, whichever takes more. -/
theorem Completes.down (hserve : rd.Serves src) {sub : ISODirectory}
    (hentry : entryAt b src fuel dir offset = .ok (.directory sub, next))
    (hshown : passedOver (.directory sub) = false)
    (hline : entryLine b dir level (.directory sub) = .ok line)
    (hbelow : Completes b rd src fuel sub (level + 1) (some 0) below)
    (h : Completes b rd src fuel dir level next lines) :
    Completes b rd src fuel dir level (some offset)
      (line :: (below ++ lines)) := by
  obtain ⟨enough, hrest⟩ := h
  obtain ⟨enough', hsub⟩ := hbelow
  refine ⟨max enough enough' + 1, fun turns hturns it out s hco hpos => ?_⟩
  obtain ⟨turns, rfl⟩ := Nat.exists_eq_add_of_le' (Nat.le_of_add_left_le
    hturns)
  obtain ⟨it₁, s₁, hnext, hpos₁, hco₁⟩ := next_takes hserve hco hpos hentry s
  obtain ⟨s₂, hbelow⟩ := hsub turns (by omega) contents (out ++ [line]) s₁
    (coherent_new src sub) rfl
  obtain ⟨s', hdone⟩ := hrest turns (by omega) it₁ (out ++ [line] ++ below)
    s₂ hco₁ hpos₁
  refine ⟨s', ?_⟩
  rw [show out ++ line :: (below ++ lines)
    = out ++ [line] ++ below ++ lines by simp]
  unfold printFrom
  rw [hnext]
  simp only [hshown, hline, hbelow, Bool.false_eq_true, if_false]
  exact hdone

end Completes

/-- A directory that unfolds is printed to its end. -/
theorem completes_of_unfolds (hserve : rd.Serves src) {ps : List Placed}
    {forest : Forest Placed} (h : Unfolds (Below b src fuel) ps forest) :
    ∀ (dir : ISODirectory) (entries : List DirectoryEntry) (level : ℕ)
      (pos : Option ℕ) (lines : List String), placed dir entries = ps →
      Cursor.Yields (entryAt b src fuel dir) pos entries →
      Lines b (forest.preorder level) lines →
      Completes b rd src fuel dir level pos lines := by
  induction h with
  | empty =>
      intro dir entries
      induction entries with
      | nil =>
          intro level pos lines _ hyields hlines
          cases hlines
          rw [Cursor.Yields.none_of_nil hyields]
          exact .nothing
      | cons entry entries ih =>
          intro level pos lines hplaced hyields hlines
          obtain ⟨offset, next, rfl, hentry, hrest⟩ := Cursor.Yields.uncons hyields
          have hpass : passedOver entry = true := by
            by_contra hshown
            rw [placed_cons (Bool.eq_false_of_not_eq_true hshown)] at hplaced
            cases hplaced
          rw [placed_passed hpass] at hplaced
          exact .passed hserve hentry hpass
            (ih level next lines hplaced hrest hlines)
  | @tree p kids ps below beside hlists hkids _ ihbelow ihbeside =>
      intro dir entries
      induction entries with
      | nil =>
          intro _ _ _ hplaced
          cases hplaced
      | cons entry entries ih =>
          intro level pos lines hplaced hyields hlines
          obtain ⟨offset, next, rfl, hentry, hrest⟩ := Cursor.Yields.uncons hyields
          by_cases hpass : passedOver entry = true
          · rw [placed_passed hpass] at hplaced
            exact .passed hserve hentry hpass
              (ih level next lines hplaced hrest hlines)
          have hshown := Bool.eq_false_of_not_eq_true hpass
          rw [placed_cons hshown] at hplaced
          injection hplaced with hp hps
          subst hp
          rw [preorder] at hlines
          cases hlines with
          | cons hline hlines =>
              obtain ⟨lines₁, lines₂, hbelow, hbeside, rfl⟩ :=
                lines_append.mp hlines
              have hnext := ihbeside dir entries level next lines₂ hps hrest
                hbeside
              cases hlists with
              | directory hsub =>
                  exact .down hserve hentry hshown hline
                    (ihbelow _ _ _ _ _ rfl hsub hbelow) hnext
              | file | symlink =>
                  cases hkids
                  cases hbelow
                  refine .leaf hserve hentry hshown hline ?_ hnext
                  intro _ h
                  cases h

-- ======================================================== the program

/-- What is printed without an error is what the relation says, -/
theorem printTree_prints (hserve : rd.Serves src) {turns : ℕ}
    {dir : ISODirectory} {level : ℕ} {s : σ}
    (h : (printTree b rd fuel turns dir level s).1 = .ok ()) :
    PrintsAs b src fuel dir level (some 0)
      (printTree b rd fuel turns dir level s).2.1 := by
  obtain ⟨lines, hout, hprints⟩ := printFrom_prints hserve turns dir level
    contents [] s (coherent_new src dir) h
  rw [List.nil_append] at hout
  rw [show (printTree b rd fuel turns dir level s).2.1 = lines from hout]
  exact hprints

/-- and what the relation says is printed with enough turns. -/
theorem printTree_completes (hserve : rd.Serves src) {dir : ISODirectory}
    {level : ℕ} {out : List String}
    (h : PrintsAs b src fuel dir level (some 0) out) (s : σ) :
    ∃ turns, (printTree b rd fuel turns dir level s).1 = .ok ()
      ∧ (printTree b rd fuel turns dir level s).2.1 = out := by
  obtain ⟨entries, forest, hyields, hunfolds, hlines⟩ := h
  obtain ⟨enough, hends⟩ := completes_of_unfolds hserve hunfolds dir
    entries level (some 0) out rfl hyields hlines
  obtain ⟨s', hdone⟩ := hends enough le_rfl contents [] s
    (coherent_new src dir) rfl
  refine ⟨enough, ?_, ?_⟩
  · unfold printTree
    rw [hdone]
  · unfold printTree
    rw [hdone]
    rfl

/-- What a run of the program that comes to its end prints: the entries of
the forest below the directory, each before those below it. -/
theorem printTree_ok_iff (hserve : rd.Serves src) (dir : ISODirectory)
    (level : ℕ) (s : σ) (out : List String) :
    (∃ turns, (printTree b rd fuel turns dir level s).1 = .ok ()
        ∧ (printTree b rd fuel turns dir level s).2.1 = out)
      ↔ ∃ entries forest,
        Cursor.Yields (entryAt b src fuel dir) (some 0) entries
          ∧ Unfolds (Below b src fuel) (placed dir entries) forest
          ∧ Lines b (forest.preorder level) out := by
  constructor
  · rintro ⟨turns, hdone, rfl⟩
    exact printTree_prints hserve hdone
  · intro h
    exact printTree_completes hserve h s

/-- The two letters, in any directory of their volume. -/
theorem letters_below (fuel : ℕ) :
    Cursor.Yields (entryAt debugBuild lettersSource fuel dotDirectory)
      (some 0) [upperRecord.entry, lowerRecord.entry] := by
  intro n
  rw [← letters_listed fuel n,
    item_eq (lettersSource.reader_serves) fuel dotDirectory ()]

theorem printTree_letters : ∃ turns,
    (printTree debugBuild lettersSource.reader 3 turns dotDirectory 1 ()).1
        = .ok ()
      ∧ (printTree debugBuild lettersSource.reader 3 turns dotDirectory 1
          ()).2.1
        = [" Jan 01 2000 00:00   A", " Jan 01 2000 00:00   a"] := by
  refine (printTree_ok_iff lettersSource.reader_serves dotDirectory 1 ()
    _).mpr ⟨_, .tree (dotDirectory, upperRecord.entry) .empty
      (.tree (dotDirectory, lowerRecord.entry) .empty .empty),
      letters_below 3, ?_, ?_⟩
  · exact .tree (.file _ _) .empty (.tree (.file _ _) .empty .empty)
  · exact .cons (by decide +kernel) (.cons (by decide +kernel) .nil)

/-- There is a text for the mode: it has a type, or the build does not
ask for one. -/
def Printable (b : Build) (entry : DirectoryEntry) : Prop :=
  ∀ mode, entry.mode = some mode → b.assertions = true →
    mode &&& 0o170000 ≠ 0

/-- An entry has a line exactly if its mode can be shown. -/
theorem exists_entryLine_iff (dir : ISODirectory) (level : ℕ)
    (entry : DirectoryEntry) :
    (∃ line, entryLine b dir level entry = .ok line)
      ↔ Printable b entry := by
  have htext : (∃ line, entryLine b dir level entry = .ok line)
      ↔ ∃ text, modeText b entry.mode = .ok text := by
    unfold entryLine
    constructor
    · rintro ⟨line, h⟩
      obtain ⟨text, htext, -⟩ := Outcome.bind_eq_ok.mp h
      exact ⟨text, htext⟩
    · rintro ⟨text, htext⟩
      rw [htext]
      exact ⟨_, rfl⟩
  rw [htext]
  unfold Printable modeText
  cases entry.mode with
  | none => simp
  | some mode =>
      have htype := @PosixFileMode.display_panics_iff ISOError b mode
      rcases @PosixFileMode.display_cases ISOError b mode
        with ⟨text, htext⟩ | htext
      · rw [htext] at htype
        have hfine := mt htype.mpr (fun h => nomatch h)
        dsimp only
        rw [htext]
        refine ⟨fun _ => ?_, fun _ => ⟨_, rfl⟩⟩
        rintro _ ⟨⟩ hassert hzero
        exact hfine ⟨hassert, hzero⟩
      · obtain ⟨hassert, hzero⟩ := htype.mp htext
        dsimp only
        rw [htext]
        constructor
        · rintro ⟨_, h⟩
          cases h
        · exact fun h => absurd hzero (h mode rfl hassert)

/-- A walk has lines if each of its entries has. -/
theorem exists_lines_iff {walk : List (ℕ × Placed)} :
    (∃ lines, Lines b walk lines)
      ↔ ∀ l p, (l, p) ∈ walk → Printable b p.2 := by
  induction walk with
  | nil => exact ⟨(fun _ _ _ h => nomatch h), fun _ => ⟨[], .nil⟩⟩
  | cons q walk ih =>
      obtain ⟨level, dir, entry⟩ := q
      constructor
      · rintro ⟨_, h⟩ l p hmem
        cases h with
        | cons hline h =>
            rcases List.mem_cons.mp hmem with heq | hmem
            · cases heq
              exact (exists_entryLine_iff _ _ _).mp ⟨_, hline⟩
            · exact ih.mp ⟨_, h⟩ l p hmem
      · intro h
        obtain ⟨line, hline⟩ := (exists_entryLine_iff dir level entry).mpr
          (h level (dir, entry) List.mem_cons_self)
        obtain ⟨lines, hlines⟩ := ih.mpr fun l p hmem =>
          h l p (List.mem_cons_of_mem _ hmem)
        exact ⟨line :: lines, .cons hline hlines⟩

/-- The lines of what is below a directory, whatever directory it is listed
in. -/
theorem exists_lines_below {dir : ISODirectory} (parent : ISODirectory)
    {level : ℕ} {entries : List DirectoryEntry} {forest : Forest Placed}
    (hyields : Cursor.Yields (entryAt b src fuel dir) (some 0) entries)
    (hunfolds : Unfolds (Below b src fuel) (placed dir entries) forest) :
    (∃ lines, Lines b (forest.preorder level) lines)
      ↔ ∀ p, Relation.TransGen (Child (Below b src fuel))
        (parent, .directory dir) p → Printable b p.2 := by
  have hreached : ∀ p, (∃ l, (l, p) ∈ forest.preorder level)
      ↔ Relation.TransGen (Child (Below b src fuel))
        (parent, .directory dir) p := by
    intro p
    rw [hunfolds.mem_preorder (fun _ _ _ h h' => h.unique h') level p,
      Relation.TransGen.head'_iff]
    constructor
    · rintro ⟨k, hk, hp⟩
      exact ⟨k, ⟨_, .directory hyields, hk⟩, hp⟩
    · rintro ⟨k, ⟨kids, hkids, hk⟩, hp⟩
      rw [hkids.unique (.directory hyields)] at hk
      exact ⟨k, hk, hp⟩
  rw [exists_lines_iff]
  constructor
  · intro h p hp
    obtain ⟨l, hl⟩ := (hreached p).mpr hp
    exact h l p hl
  · intro h l p hl
    exact h p ((hreached p).mp ⟨l, hl⟩)

/-- The program comes to its end exactly if every directory below can be
read, every entry below can be printed, and no way down is endless. -/
theorem printTree_ends_iff (hserve : rd.Serves src) (dir : ISODirectory)
    (level : ℕ) (s : σ) :
    (∃ turns, (printTree b rd fuel turns dir level s).1 = .ok ())
      ↔ (∀ p, Relation.ReflTransGen (Child (Below b src fuel))
            (dir, .directory dir) p → ∃ kids, Below b src fuel p kids)
        ∧ (∀ p, Relation.TransGen (Child (Below b src fuel))
            (dir, .directory dir) p → Printable b p.2)
        ∧ Acc (fun k p => Child (Below b src fuel) p k)
          (dir, .directory dir) := by
  have hunique : ∀ (p : Placed) kids kids', Below b src fuel p kids →
      Below b src fuel p kids' → kids = kids' :=
    fun _ _ _ h h' => h.unique h'
  rw [← and_assoc, and_right_comm, ← grounded_iff hunique]
  constructor
  · rintro ⟨turns, hdone⟩
    obtain ⟨entries, forest, hyields, hunfolds, h⟩ :=
      printTree_prints hserve hdone
    exact ⟨.intro (.directory hyields) hunfolds.grounded,
      (exists_lines_below dir hyields hunfolds).mp ⟨_, h⟩⟩
  · rintro ⟨hgrounded, hprintable⟩
    obtain ⟨kids, forest, hkids, hunfolds⟩ := hgrounded.exists_tree
    cases hkids with
    | directory hyields =>
        obtain ⟨lines, h⟩ :=
          (exists_lines_below dir hyields hunfolds).mpr hprintable
        obtain ⟨turns, hdone, -⟩ :=
          printTree_completes hserve ⟨_, forest, hyields, hunfolds, h⟩ s
        exact ⟨turns, hdone⟩

theorem printTree_ends_letters :
    (∀ p, Relation.ReflTransGen (Child (Below debugBuild lettersSource 3))
        (dotDirectory, .directory dotDirectory) p →
          ∃ kids, Below debugBuild lettersSource 3 p kids)
      ∧ (∀ p, Relation.TransGen (Child (Below debugBuild lettersSource 3))
        (dotDirectory, .directory dotDirectory) p → Printable debugBuild p.2)
      ∧ Acc (fun k p => Child (Below debugBuild lettersSource 3) p k)
        (dotDirectory, .directory dotDirectory) :=
  (printTree_ends_iff lettersSource.reader_serves dotDirectory 0 ()).mp
    ⟨4, by decide +kernel⟩

end Cdfs
