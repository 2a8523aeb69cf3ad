/-
What a graph looks like when it is walked from some nodes down, without
a memory of where one has been. Each node lists what is directly below
it, or fails to; the walk unfolds the lists into trees, and it comes to
an end exactly if every node on the way lists what is below it and no
way down is endless (`Grounded.exists_tree`, `grounded_iff`).

A forest is kept in the shape that a recursion over such lists has: the
first tree, what is below its root, and the trees beside it.
-/
import Mathlib.Logic.Relation

namespace Rust

/-- Some trees, in order. -/
inductive Forest (N : Type) where
  | empty
  | tree (root : N) (below beside : Forest N)

namespace Forest

variable {N : Type}

/-- The nodes from left to right, each before those below it, with its
level. -/
def preorder : Nat → Forest N → List (Nat × N)
  | _, empty => []
  | level, tree root below beside =>
      (level, root) ::
        (preorder (level + 1) below ++ preorder level beside)

-- ============================================================= unfolding

/-- What is below the nodes of a list, all the way down. -/
inductive Unfolds (Lists : N → List N → Prop) : List N → Forest N → Prop
  | empty : Unfolds Lists [] empty
  | tree {n : N} {kids ns : List N} {below beside : Forest N} :
      Lists n kids → Unfolds Lists kids below → Unfolds Lists ns beside →
      Unfolds Lists (n :: ns) (tree n below beside)

/-- One node is listed by the other. -/
def Child (Lists : N → List N → Prop) (n k : N) : Prop :=
  ∃ kids, Lists n kids ∧ k ∈ kids

/-- The way down from a node ends on all sides, and every node on it
lists what is below. -/
inductive Grounded (Lists : N → List N → Prop) : N → Prop
  | intro {n : N} {kids : List N} :
      Lists n kids → (∀ k ∈ kids, Grounded Lists k) → Grounded Lists n

variable {Lists : N → List N → Prop} {n : N} {ns kids : List N}
  {f f' : Forest N}

/-- Lists that are unique unfold in one way. -/
theorem Unfolds.unique
    (hunique : ∀ n kids kids', Lists n kids → Lists n kids' → kids = kids')
    (h : Unfolds Lists ns f) : ∀ {f'}, Unfolds Lists ns f' → f = f' := by
  induction h with
  | empty =>
      intro f' h'
      cases h'
      rfl
  | tree hlists _ _ ihbelow ihbeside =>
      intro f' h'
      cases h' with
      | tree hlists' hbelow' hbeside' =>
          cases hunique _ _ _ hlists hlists'
          rw [ihbelow hbelow', ihbeside hbeside']

theorem Unfolds.grounded (h : Unfolds Lists ns f) :
    ∀ n ∈ ns, Grounded Lists n := by
  induction h with
  | empty => exact fun n hn => nomatch hn
  | tree hlists _ _ ihbelow ihbeside =>
      intro n hn
      rcases List.mem_cons.mp hn with rfl | hn
      · exact .intro hlists ihbelow
      · exact ihbeside n hn

theorem Grounded.exists_tree (h : Grounded Lists n) :
    ∃ kids below, Lists n kids ∧ Unfolds Lists kids below := by
  induction h with
  | @intro n kids hlists _ ih =>
      have hbelow : ∀ ns : List N, (∀ k ∈ ns, k ∈ kids) →
          ∃ f, Unfolds Lists ns f := by
        intro ns
        induction ns with
        | nil => exact fun _ => ⟨.empty, .empty⟩
        | cons k ns ihns =>
            intro hmem
            obtain ⟨kids', below, hk, hkids'⟩ :=
              ih k (hmem k List.mem_cons_self)
            obtain ⟨beside, hns⟩ :=
              ihns fun k hk => hmem k (List.mem_cons_of_mem _ hk)
            exact ⟨_, .tree hk hkids' hns⟩
      obtain ⟨below, hkids⟩ := hbelow kids fun _ hk => hk
      exact ⟨kids, below, hlists, hkids⟩

/-- Groundedness in terms of ways down. -/
theorem grounded_iff
    (hunique : ∀ n kids kids', Lists n kids → Lists n kids' → kids = kids') :
    Grounded Lists n
      ↔ (∀ m, Relation.ReflTransGen (Child Lists) n m →
          ∃ kids, Lists m kids)
        ∧ Acc (fun k n => Child Lists n k) n := by
  constructor
  · intro h
    induction h with
    | @intro n kids hlists _ ih =>
        have hkid : ∀ k, Child Lists n k → k ∈ kids := by
          rintro k ⟨kids', hlists', hk⟩
          rw [hunique _ _ _ hlists hlists']
          exact hk
        constructor
        · intro m hm
          rcases hm.cases_head with rfl | ⟨k, hk, hm⟩
          · exact ⟨_, hlists⟩
          · exact (ih k (hkid k hk)).1 m hm
        · exact Acc.intro _ fun k hk => (ih k (hkid k hk)).2
  · rintro ⟨hall, hacc⟩
    induction hacc with
    | intro n _ ih =>
        obtain ⟨kids, hlists⟩ := hall n .refl
        refine .intro hlists fun k hk => ?_
        have hchild : Child Lists n k := ⟨kids, hlists, hk⟩
        exact ih k hchild fun m hm => hall m (.head hchild hm)

-- ======================================================== what is walked

/-- The nodes of a walk are those at the start and what there is below
them. -/
theorem Unfolds.mem_preorder
    (hunique : ∀ n kids kids', Lists n kids → Lists n kids' → kids = kids')
    (h : Unfolds Lists ns f) : ∀ (level : Nat) (m : N),
      (∃ l, (l, m) ∈ preorder level f)
        ↔ ∃ n ∈ ns, Relation.ReflTransGen (Child Lists) n m := by
  induction h with
  | empty => exact fun _ m => by simp [preorder]
  | @tree n kids ns below beside hlists _ _ ihbelow ihbeside =>
      intro level m
      have hdown : Relation.ReflTransGen (Child Lists) n m
          ↔ m = n ∨ ∃ k ∈ kids, Relation.ReflTransGen (Child Lists) k m := by
        rw [Relation.ReflTransGen.cases_head_iff]
        refine or_congr eq_comm ⟨?_, ?_⟩
        · rintro ⟨k, ⟨kids', hlists', hk⟩, hm⟩
          cases hunique _ _ _ hlists hlists'
          exact ⟨k, hk, hm⟩
        · rintro ⟨k, hk, hm⟩
          exact ⟨k, ⟨kids, hlists, hk⟩, hm⟩
      have hmem : (∃ l, (l, m) ∈ preorder level (.tree n below beside))
          ↔ m = n ∨ (∃ l, (l, m) ∈ preorder (level + 1) below)
            ∨ ∃ l, (l, m) ∈ preorder level beside := by
        simp only [preorder, List.mem_cons, List.mem_append, Prod.mk.injEq]
        constructor
        · rintro ⟨l, ⟨-, hm⟩ | hm | hm⟩
          · exact Or.inl hm
          · exact Or.inr (Or.inl ⟨l, hm⟩)
          · exact Or.inr (Or.inr ⟨l, hm⟩)
        · rintro (rfl | ⟨l, hm⟩ | ⟨l, hm⟩)
          · exact ⟨level, Or.inl ⟨rfl, rfl⟩⟩
          · exact ⟨l, Or.inr (Or.inl hm)⟩
          · exact ⟨l, Or.inr (Or.inr hm)⟩
      rw [hmem, ihbelow, ihbeside, ← or_assoc, ← hdown]
      simp

end Forest

end Rust
