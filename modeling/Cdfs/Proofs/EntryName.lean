/-
The names of entries. `DirectoryEntry::new` takes the Rock Ridge name of
a record where it has one, and the recorded identifier otherwise, and
then treats both alike: the version is cut off a file's name at its last
`;`, and a final dot behind that; a directory's name is looked at for the
two bytes that the record has for `.` and `..`.

Either cut makes a name shorter, so that the names that come through are
those that have nothing to cut (`splitVersion_eq_iff`).
-/
import Cdfs.DirectoryEntry.Entry
import Cdfs.Proofs.Layout

namespace Cdfs

open Rust Parse

-- ============================================================== the cuts

theorem length_popIf_le (c : Char) (s : String) :
    (popIf c s).toList.length ≤ s.toList.length := by
  unfold popIf
  split
  · rw [String.toList_ofList, List.length_dropLast]
    exact Nat.sub_le _ _
  · exact Nat.le_refl _

/-- Nothing is popped off a text exactly when it does not end so. -/
theorem popIf_eq_self_iff {c : Char} {s : String} :
    popIf c s = s ↔ s.toList.getLast? ≠ some c := by
  unfold popIf
  by_cases hlast : s.toList.getLast? = some c
  · rw [if_pos hlast]
    refine iff_of_false (fun h => ?_) (fun h => h hlast)
    have hlen := congrArg (·.toList.length) h
    have hpos : 0 < s.toList.length := by
      apply List.length_pos_of_mem
      exact List.mem_of_getLast? hlast
    simp only [String.toList_ofList, List.length_dropLast] at hlen
    omega
  · rw [if_neg hlast]
    exact iff_of_true rfl hlast

/-- What is before a separator is shorter than the whole. -/
theorem length_before_lt {c : Char} {s before after : String}
    (h : rsplitOnce c s = some (before, after)) :
    before.toList.length < s.toList.length := by
  unfold rsplitOnce at h
  dsimp only at h
  split at h
  · rename_i hmem
    have hpos := List.length_pos_of_mem hmem
    injection h with h
    injection h with h _
    rw [← h, String.toList_ofList, List.length_take]
    omega
  · cases h

theorem rsplitOnce_eq_none_iff {c : Char} {s : String} :
    rsplitOnce c s = none ↔ c ∉ s.toList := by
  unfold rsplitOnce
  dsimp only
  split
  · rename_i hmem
    exact iff_of_false (fun h => nomatch h) (fun h => h hmem)
  · rename_i hmem
    exact iff_of_true rfl hmem

/-- What is behind the last separator, and what is before it. -/
theorem rsplitOnce_append {c : Char} {l r : List Char} (h : c ∉ r) :
    rsplitOnce c (String.ofList (l ++ c :: r))
      = some (String.ofList l, String.ofList r) := by
  have hafter : (l ++ c :: r).reverse.takeWhile (· != c) = r.reverse := by
    have hall : ∀ a ∈ r.reverse, (a != c) = true := by
      intro a ha
      rw [bne_iff_ne]
      rintro rfl
      exact h (List.mem_reverse.mp ha)
    rw [List.reverse_append, List.reverse_cons, List.append_assoc,
      List.takeWhile_append_of_pos hall]
    simp
  unfold rsplitOnce
  simp only [String.toList_ofList]
  rw [if_pos (by simp), hafter, List.reverse_reverse, List.length_append,
    List.length_cons, Nat.add_sub_assoc (Nat.le_succ _)]
  simp

/-- A name with nothing for the version and the dot rule to cut. -/
def Uncut (s : String) : Prop :=
  ';' ∉ s.toList ∧ s.toList.getLast? ≠ some '.'

instance (s : String) : Decidable (Uncut s) :=
  inferInstanceAs (Decidable (_ ∧ _))

/-- The two rules leave a name as it is exactly when neither applies. -/
theorem splitVersion_eq_iff {s : String} :
    (∃ version, splitVersion s = .ok (s, version)) ↔ Uncut s := by
  unfold splitVersion Uncut
  cases hsplit : rsplitOnce ';' s with
  | none =>
      rw [and_iff_right (rsplitOnce_eq_none_iff.mp hsplit), ← popIf_eq_self_iff]
      dsimp only
      constructor
      · rintro ⟨_, h⟩
        injection h with h
        injection h
      · intro h
        exact ⟨1, by rw [h]⟩
  | some parts =>
      obtain ⟨before, after⟩ := parts
      refine iff_of_false ?_ fun h => ?_
      · rintro ⟨version, h⟩
        dsimp only at h
        split at h
        · injection h with h
          injection h with h _
          have hcut := length_before_lt hsplit
          have hpop := length_popIf_le '.' before
          rw [h] at hpop
          omega
        · cases h
      · rw [rsplitOnce_eq_none_iff.mpr h.1] at hsplit
        cases hsplit

-- ============================================================= the entry

/-- The name of a POSIX file: not empty, and without `/` and the zero
character. -/
structure PosixName where
  text : String
  nonempty : text ≠ ""
  noSlash : '/' ∉ text.toList
  noNul : '\x00' ∉ text.toList

theorem ExtraMeta.name_eq {ext : ExtraMeta} {s : String}
    (halt : ext.altName = some s) (identifier : String) :
    ext.name identifier = s := by
  unfold name
  rw [halt]
  rfl

section

variable {header : DirectoryEntryHeader} {ext : ExtraMeta}

/-- A directory's name is altered if it is one of the record's two. -/
theorem directory_identifier_iff (s : PosixName)
    (halt : ext.altName = some s.text) (identifier : String) :
    (ISODirectory.new header ext identifier).identifier = s.text
      ↔ s.text ≠ "\x01" := by
  have hnul : s.text ≠ "\x00" := by
    intro h
    apply s.noNul
    rw [h]
    exact List.mem_singleton.mpr rfl
  unfold ISODirectory.new
  dsimp only
  rw [ext.name_eq halt, if_neg hnul]
  by_cases h : s.text = "\x01"
  · rw [if_pos h]
    refine iff_of_false (fun hdots => ?_) (fun hne => hne h)
    rw [h] at hdots
    exact absurd hdots (by decide)
  · rw [if_neg h]
    exact iff_of_true rfl h

/-- That the entry is built, under this name. -/
def NamedAs (header : DirectoryEntryHeader) (ext : ExtraMeta)
    (identifier : String) (name : String) : Prop :=
  ∃ entry, DirectoryEntry.new header ext identifier = .ok entry
    ∧ entry.identifier = name

/-- The Rock Ridge name of a record is the name of its entry exactly when
the rules for recorded identifiers have nothing to do in it. -/
theorem namedAs_altName_iff (s : PosixName)
    (halt : ext.altName = some s.text) (identifier : String) :
    NamedAs header ext identifier s.text
      ↔ if contains header.fileFlags FileFlags.DIRECTORY then s.text ≠ "\x01"
        else Uncut s.text := by
  unfold NamedAs DirectoryEntry.new
  dsimp only
  by_cases hdir : contains header.fileFlags FileFlags.DIRECTORY = true
  · rw [if_pos hdir, if_pos hdir, ← directory_identifier_iff s halt identifier]
    constructor
    · rintro ⟨entry, h, hid⟩
      injection h with h
      rw [← h] at hid
      exact hid
    · exact fun h => ⟨_, rfl, h⟩
  · rw [if_neg hdir, if_neg hdir, ← splitVersion_eq_iff]
    unfold Symlink.new ISOFile.new
    rw [ext.name_eq halt]
    -- a file and a symbolic link are built alike
    split
    all_goals
      constructor
      · rintro ⟨entry, h, hid⟩
        obtain ⟨_, hnew, h⟩ := Outcome.bind_eq_ok.mp h
        obtain ⟨⟨id, version⟩, hsplit, hnew⟩ := Outcome.bind_eq_ok.mp hnew
        injection h with h
        injection hnew with hnew
        rw [← h, ← hnew] at hid
        have hid : id = s.text := hid
        exact ⟨version, hid ▸ hsplit⟩
      · rintro ⟨version, h⟩
        rw [h]
        exact ⟨_, rfl, rfl⟩

end

/-- A file with a Rock Ridge name. -/
def namedFile (s : PosixName) : DirectoryEntryHeader × ExtraMeta :=
  ({ dotHeader with fileFlags := 0 }, { plainExt with altName := some s.text })

def plainName : PosixName := ⟨"a.out", by decide, by decide, by decide⟩

/-- It is named so. -/
theorem namedAs_plainName :
    NamedAs (namedFile plainName).1 (namedFile plainName).2 "A.OUT;1" "a.out" :=
  (namedAs_altName_iff plainName rfl "A.OUT;1").mpr (by decide)

/-- A name whose `;` has no number behind it. -/
def oldNotes : PosixName := ⟨"notes;old", by decide, by decide, by decide⟩

/-- It is an error, which is the end of the directory's iteration. -/
theorem cutName_refused :
    DirectoryEntry.new (namedFile oldNotes).1 (namedFile oldNotes).2 "NOTES.;1"
        = .err .parseInt
      ∧ ¬ NamedAs (namedFile oldNotes).1 (namedFile oldNotes).2 "NOTES.;1"
        oldNotes.text := by
  have hnew : DirectoryEntry.new (namedFile oldNotes).1 (namedFile oldNotes).2
      "NOTES.;1" = .err .parseInt := by
    decide
  refine ⟨hnew, ?_⟩
  rintro ⟨entry, h, -⟩
  rw [hnew] at h
  cases h

end Cdfs
