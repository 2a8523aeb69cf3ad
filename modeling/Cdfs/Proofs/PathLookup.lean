/-
Lookup along a path.

`find_recursive` walks the segments of a path, so a path made of two is
walked in two parts (`findSegments_append`). Over a repeatable source the
second part does not depend on what the first one has read, and it is
the lookup in the directory that the first part has found. Slashes are
in no segment; putting more of them anywhere a slash may stand, or
taking them away, leaves the segments as they are (`SamePath`).
-/
import Cdfs.Proofs.ReadFailure
import Mathlib.Logic.Relation

namespace Cdfs

open Rust Parse

variable {σ : Type} {b : Build} {rd : ISO9660Reader σ} {src : Source}

-- ================================================================= paths

/-- A path without segments. -/
def OnlySlashes (path : String) : Prop := ∀ c ∈ path.toList, c = '/'

instance (path : String) : Decidable (OnlySlashes path) :=
  inferInstanceAs (Decidable (∀ c ∈ path.toList, c = '/'))

/-- One slash more: before all segments, after all of them, or where one
is already. -/
inductive AddsSlash : String → String → Prop
  | before (p : String) : AddsSlash p ("/" ++ p)
  | after (p : String) : AddsSlash p (p ++ "/")
  | between (p q : String) :
      AddsSlash (p ++ "/" ++ q) (p ++ "/" ++ "/" ++ q)

/-- Paths that differ in such slashes, added or removed. -/
def SamePath : String → String → Prop := Relation.EqvGen AddsSlash

theorem AddsSlash.segments_eq {p p' : String} (h : AddsSlash p p') :
    segments p = segments p' := by
  cases h with
  | before => exact (segments_slash_append "" p).symm
  | after =>
      have hend := segments_slash_append p ""
      rw [String.append_empty, segments_empty, List.append_nil] at hend
      exact hend.symm
  | between p q =>
      have hend := segments_slash_append p ""
      rw [String.append_empty, segments_empty, List.append_nil] at hend
      rw [segments_slash_append, segments_slash_append, hend]

theorem SamePath.segments_eq {p p' : String} (h : SamePath p p') :
    segments p = segments p' := by
  induction h with
  | rel p p' h => exact h.segments_eq
  | refl => rfl
  | symm p p' _ ih => exact ih.symm
  | trans p p' p'' _ _ ih ih' => exact ih.trans ih'

-- ============================================================== the walk

/-- A walk along two lists of segments is a walk along the first, and
from what it finds one along the second. -/
theorem findSegments_append (fuel : Nat) (first rest : List String) :
    ∀ (entry : DirectoryEntry) (s : σ),
      findSegments b rd fuel (first ++ rest) entry s
        = match findSegments b rd fuel first entry s with
          | (.ok (some entry), s) => findSegments b rd fuel rest entry s
          | (r, s) => (r, s) := by
  induction first with
  | nil => exact fun _ _ => rfl
  | cons segment first ih =>
      intro entry s
      cases entry with
      | file | symlink => rfl
      | directory parent =>
          simp only [List.cons_append, findSegments]
          rcases find b rd fuel parent segment s with ⟨r, s'⟩
          cases r with
          | ok found =>
              cases found with
              | none => rfl
              | some entry => exact ih entry s'
          | err | panic | running => rfl

/-- Below anything but a directory there is nothing. -/
theorem findSegments_leaf {entry : DirectoryEntry}
    (h : ∀ dir, entry ≠ .directory dir) (fuel : Nat)
    (segments : List String) (s : σ) :
    findSegments b rd fuel segments entry s
      = (.ok (if segments = [] then some entry else none), s) := by
  cases segments with
  | nil => rfl
  | cons segment segments =>
      rw [if_neg (List.cons_ne_nil _ _)]
      cases entry with
      | directory dir => exact absurd rfl (h dir)
      | file | symlink => rfl

/-- A repeatable source is one that never fails. -/
theorem ISO9660Reader.Serves.falters (hserve : rd.Serves src) :
    rd.Falters src fun _ => True where
  answer s buf lba := Or.inl (hserve s buf lba)
  quiet s buf lba _ := ⟨hserve s buf lba, trivial⟩

/-- Over it a walk finds the same from every state. -/
theorem findSegments_serves (hserve : rd.Serves src) (fuel : Nat)
    (segments : List String) (entry : DirectoryEntry) (s s' : σ) :
    (findSegments b rd fuel segments entry s).1
      = (findSegments b rd fuel segments entry s').1 := by
  have hwalk := fun s =>
    ((findSegments_falters (b := b) hserve.falters fuel segments entry
      s).quiet trivial).1
  rw [hwalk s, hwalk s']

-- ============================================================= the lookup

/-- Lookup of `p/q` is lookup of `p` and, from there, of `q`; and paths
that differ in slashes only are looked up alike. -/
theorem findRecursive_compositional (hserve : rd.Serves src) (fuel : Nat)
    (dir : ISODirectory) :
    (∀ (p q : String) (s s' s'' : σ),
      (findRecursive b rd fuel dir (p ++ "/" ++ q) s).1
        = match (findRecursive b rd fuel dir p s').1 with
          | .ok (some (.directory dir')) =>
              (findRecursive b rd fuel dir' q s'').1
          | .ok (some entry) =>
              .ok (if OnlySlashes q then some entry else none)
          | .ok none => .ok none
          | .err e => .err e
          | .panic => .panic
          | .running => .running)
      ∧ ∀ (path path' : String), SamePath path path' → ∀ s s' : σ,
          (findRecursive b rd fuel dir path s).1
            = (findRecursive b rd fuel dir path' s').1 := by
  unfold findRecursive
  constructor
  · intro p q s s' s''
    rw [segments_slash_append, findSegments_append,
      findSegments_serves hserve fuel (segments p) _ s' s]
    rcases findSegments b rd fuel (segments p) (.directory dir) s
      with ⟨r, s₁⟩
    cases r with
    | ok found =>
        match found with
        | none => rfl
        | some (.directory dir') =>
            exact findSegments_serves hserve fuel (segments q) _ s₁ s''
        | some (.file file) =>
            dsimp only
            rw [findSegments_leaf (by intro _ h; cases h)]
            simp only [segments_eq_nil_iff]
            rfl
        | some (.symlink link) =>
            dsimp only
            rw [findSegments_leaf (by intro _ h; cases h)]
            simp only [segments_eq_nil_iff]
            rfl
    | err | panic | running => rfl
  · intro path path' h s s'
    rw [h.segments_eq]
    exact findSegments_serves hserve fuel _ _ s s'

/-- A directory is found below itself under the name of its own record. -/
theorem findRecursive_dots :
    (findRecursive debugBuild dotSource.reader 3 dotDirectory "./." ()).1
      = .ok (some (.directory dotDirectory)) := by
  have hdot : (findRecursive debugBuild dotSource.reader 3 dotDirectory "."
      ()).1 = .ok (some (.directory dotDirectory)) := by
    decide +kernel
  have hboth := (findRecursive_compositional (b := debugBuild)
    dotSource.reader_serves 3 dotDirectory).1 "." "." () () ()
  rw [hdot] at hboth
  exact hboth.trans hdot

end Cdfs
