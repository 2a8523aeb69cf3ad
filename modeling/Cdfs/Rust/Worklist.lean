/-
A loop over a queue that it extends itself: take the first element, do
its work, and append the elements the work has found. A failure ends
the loop.

The queue need not shrink, so whether the loop ends is a question about
the graph of what leads to what. `finishes_iff` answers it for finitely
many elements: the loop ends when a failure can be reached, because a
queue is fair and gets there, or when no cycle can be reached, because
then cutting an element and growing its successors back is a hydra game
(`Relation.CutExpand`).

What a loop that ends has done is a `Walk`: the elements it has taken, in
this order, each with its work. Fuel is enough exactly if there is one
(`run_eq_ok_iff`), and there is at most one (`Walk.unique`).
-/
import Cdfs.Rust.Outcome
import Mathlib.Logic.Hydra
import Mathlib.Data.Fintype.Card
import Mathlib.Logic.Relation
import Mathlib.Tactic.Abel

namespace Rust.Worklist

open Relation

variable {ε α β : Type} (expand : α → Outcome ε (β × List α))

-- ============================================================= the loop

/-- The loop, with the work done in its order. -/
def run : Nat → List α → Outcome ε (List (α × β))
  | _, [] => .ok []
  | 0, _ :: _ => .running
  | fuel + 1, a :: queue => do
      let r ← expand a
      let done ← run fuel (queue ++ r.2)
      .ok ((a, r.1) :: done)

/-- The work on one element finds the other. -/
def Leads (a a' : α) : Prop :=
  ∃ r, expand a = .ok r ∧ a' ∈ r.2

/-- The work on an element fails. -/
def Fails (a : α) : Prop := ∀ r, expand a ≠ .ok r

/-- The loop ends. -/
def Finishes (queue : List α) : Prop :=
  ∃ fuel, run expand fuel queue ≠ .running

variable {expand}

/-- One turn that succeeds. -/
theorem run_cons {a : α} {r : β × List α} (h : expand a = .ok r)
    (fuel : Nat) (queue : List α) :
    run expand (fuel + 1) (a :: queue)
      = (run expand fuel (queue ++ r.2)).map ((a, r.1) :: ·) := by
  rw [run, h, Outcome.ok_bind]
  cases run expand fuel (queue ++ r.2) with
  | ok done => rfl
  | err | panic | running => rfl

theorem map_ne_running {ε α β : Type} {f : α → β} {x : Outcome ε α} :
    x.map f ≠ .running ↔ x ≠ .running := by
  cases x with
  | ok | err | panic | running => simp [Outcome.map]

/-- A loop that has ended has ended the same way with more fuel. -/
theorem run_mono {fuel : Nat} : ∀ {queue : List α},
    run expand fuel queue ≠ .running → ∀ {fuel'}, fuel ≤ fuel' →
      run expand fuel' queue = run expand fuel queue := by
  induction fuel with
  | zero =>
      intro queue h fuel' hle
      cases queue with
      | nil => cases fuel' <;> rfl
      | cons a queue => exact absurd rfl h
  | succ fuel ih =>
      intro queue h fuel' hle
      match queue, fuel' with
      | _, 0 => omega
      | [], fuel' + 1 => rfl
      | a :: queue, fuel' + 1 =>
          cases hstep : expand a with
          | ok r =>
              rw [run_cons hstep] at h ⊢
              rw [run_cons hstep, ih (map_ne_running.mp h) (by omega)]
          | err | panic | running =>
              rw [run, run, hstep]
              rfl

-- ============================================================= one turn

theorem finishes_nil : Finishes expand ([] : List α) :=
  ⟨0, fun h => nomatch h⟩

/-- The loop ends if it ends after a first turn that succeeds. -/
theorem finishes_cons (hexp : ∀ a, expand a ≠ .running) {a : α}
    {queue : List α}
    (h : ∀ r, expand a = .ok r → Finishes expand (queue ++ r.2)) :
    Finishes expand (a :: queue) := by
  cases hstep : expand a with
  | ok r =>
      obtain ⟨fuel, hrest⟩ := h r hstep
      refine ⟨fuel + 1, ?_⟩
      rw [run_cons hstep]
      exact map_ne_running.mpr hrest
  | running => exact absurd hstep (hexp a)
  | err | panic =>
      refine ⟨1, ?_⟩
      rw [run, hstep]
      exact fun h => nomatch h

-- ============================================================ the walks

section Walks

variable (work : α → β → List α → Prop)

/-- A way along a queue in the order of the loop: each element with the
work on it, which has found the elements to append. -/
inductive Walk : List α → List (α × β) → Prop
  | done : Walk [] []
  | turn {a : α} {x : β} {found queue : List α} {walk : List (α × β)} :
      work a x found → Walk (queue ++ found) walk →
      Walk (a :: queue) ((a, x) :: walk)

/-- The way comes to this element of the queue, or of what is found on
it. -/
inductive Visits : List α → α → Prop
  | head (a : α) (queue : List α) : Visits (a :: queue) a
  | next {a a' : α} {x : β} {found queue : List α} :
      work a x found → Visits (queue ++ found) a' → Visits (a :: queue) a'

variable {work}

/-- There are as many turns as there are elements in the queue and found
on the way. -/
theorem Walk.length_eq {queue : List α} {walk : List (α × β)}
    (h : Walk work queue walk) {next : β → List α}
    (hnext : ∀ a x found, work a x found → found = next x) :
    walk.length = queue.length + (walk.map fun w => (next w.2).length).sum := by
  induction h with
  | done => rfl
  | turn hwork _ ih =>
      rw [hnext _ _ _ hwork, List.length_append] at ih
      simp only [List.length_cons, List.map_cons, List.sum_cons]
      omega

/-- An element of a walk was visited and worked on. -/
theorem Walk.mem {queue : List α} {walk : List (α × β)}
    (h : Walk work queue walk) {w : α × β} (hw : w ∈ walk) :
    Visits work queue w.1 ∧ ∃ found, work w.1 w.2 found := by
  induction h with
  | done => cases hw
  | @turn a x found queue walk hwork _ ih =>
      rcases List.mem_cons.mp hw with rfl | hw
      · exact ⟨.head a queue, found, hwork⟩
      · exact ⟨.next hwork (ih hw).1, (ih hw).2⟩

/-- Where the work has one result, there is one walk. -/
theorem Walk.unique {queue : List α} {walk walk' : List (α × β)}
    (hone : ∀ a x x' found found', work a x found → work a x' found' →
      x = x' ∧ found = found')
    (h : Walk work queue walk) (h' : Walk work queue walk') :
    walk = walk' := by
  induction h generalizing walk' with
  | done =>
      cases h'
      rfl
  | turn hwork _ ih =>
      cases h' with
      | turn hwork' h' =>
          obtain ⟨rfl, rfl⟩ := hone _ _ _ _ _ hwork hwork'
          rw [ih h']

/-- And what is visited on its way is on it. -/
theorem Walk.of_visits {queue : List α} {walk : List (α × β)}
    (hone : ∀ a x x' found found', work a x found → work a x' found' →
      x = x' ∧ found = found')
    (h : Walk work queue walk) {a : α} (hvisit : Visits work queue a) :
    ∃ x, (a, x) ∈ walk := by
  induction h with
  | done => cases hvisit
  | @turn a' x found queue walk hwork _ ih =>
      cases hvisit with
      | head => exact ⟨x, List.mem_cons_self⟩
      | next hwork' hvisit =>
          obtain ⟨rfl, rfl⟩ := hone _ _ _ _ _ hwork hwork'
          obtain ⟨x', hx'⟩ := ih hvisit
          exact ⟨x', List.mem_cons_of_mem _ hx'⟩

end Walks

/-- The loop succeeds along a walk. -/
theorem run_eq_ok_iff {queue : List α} {walk : List (α × β)} :
    (∃ fuel, run expand fuel queue = .ok walk)
      ↔ Walk (fun a x found => expand a = .ok (x, found)) queue walk := by
  constructor
  · intro ⟨fuel, h⟩
    induction fuel generalizing queue walk with
    | zero =>
        cases queue with
        | nil =>
            injection h with h
            exact h ▸ .done
        | cons a queue => cases h
    | succ fuel ih =>
        cases queue with
        | nil =>
            injection h with h
            exact h ▸ .done
        | cons a queue =>
            obtain ⟨r, hstep, h⟩ := Outcome.bind_eq_ok.mp h
            obtain ⟨rest, hrest, h⟩ := Outcome.bind_eq_ok.mp h
            injection h with h
            exact h ▸ .turn hstep (ih hrest)
  · intro h
    induction h with
    | done => exact ⟨0, rfl⟩
    | turn hstep _ ih =>
        obtain ⟨fuel, hrest⟩ := ih
        refine ⟨fuel + 1, ?_⟩
        rw [run_cons hstep, hrest]
        rfl

/-- It panics exactly when the work on an element that it comes to does. -/
theorem run_panics_iff {queue : List α} :
    (∃ fuel, run expand fuel queue = .panic)
      ↔ ∃ a, Visits (fun a x found => expand a = .ok (x, found)) queue a
        ∧ expand a = .panic := by
  constructor
  · intro ⟨fuel, h⟩
    induction fuel generalizing queue with
    | zero => cases queue <;> cases h
    | succ fuel ih =>
        match queue with
        | [] => cases h
        | a :: queue =>
            cases hstep : expand a with
            | ok r =>
                rw [run_cons hstep] at h
                cases hrest : run expand fuel (queue ++ r.2) with
                | panic =>
                    obtain ⟨a', hvisit, hpanic⟩ := ih hrest
                    exact ⟨a', .next hstep hvisit, hpanic⟩
                | ok | err | running =>
                    rw [hrest] at h
                    cases h
            | panic => exact ⟨a, .head a queue, hstep⟩
            | err | running =>
                rw [run, hstep] at h
                cases h
  · rintro ⟨a, hvisit, hpanic⟩
    induction hvisit with
    | head a queue =>
        refine ⟨1, ?_⟩
        rw [run, hpanic]
        rfl
    | next hstep _ ih =>
        obtain ⟨fuel, hrest⟩ := ih hpanic
        refine ⟨fuel + 1, ?_⟩
        rw [run_cons hstep, hrest]
        rfl

-- ================================================== when a failure is near

/-- A failure that a queued element leads to is come to, however much is
queued before that element. -/
theorem finishes_of_fails (hexp : ∀ a, expand a ≠ .running) {a a' : α}
    (hpath : ReflTransGen (Leads expand) a a') (hfails : Fails expand a') :
    ∀ before after : List α, Finishes expand (before ++ a :: after) := by
  have hqueue : ∀ (a : α), (∀ after, Finishes expand (a :: after)) →
      ∀ before after : List α, Finishes expand (before ++ a :: after) := by
    intro a hfront before
    induction before with
    | nil => exact hfront
    | cons x before ih =>
        intro after
        rw [List.cons_append]
        refine finishes_cons hexp fun r _ => ?_
        rw [List.append_assoc]
        exact ih (after ++ r.2)
  induction hpath using ReflTransGen.head_induction_on with
  | refl =>
      refine hqueue a' fun after => finishes_cons hexp fun r hr => ?_
      exact absurd hr (hfails r)
  | @head a c hlead _ ih =>
      refine hqueue a fun after => finishes_cons hexp fun r hr => ?_
      obtain ⟨r', hr', hmem⟩ := hlead
      rw [hr] at hr'
      injection hr' with hr'
      subst hr'
      obtain ⟨front, back, hsplit⟩ := List.append_of_mem hmem
      rw [hsplit, ← List.append_assoc]
      exact ih (after ++ front) back

-- =============================================== when no failure is near

/-- What an element leads to is finite: there is no infinite path. -/
abbrev Exhaustible (expand : α → Outcome ε (β × List α)) (a : α) : Prop :=
  Acc (fun a'' a' => Leads expand a' a'') a

/-- A loop over exhaustible elements ends. Each turn cuts one head of a
hydra and grows finitely many smaller ones. -/
theorem finishes_of_exhaustible (hexp : ∀ a, expand a ≠ .running)
    {queue : List α} (hqueue : ∀ a ∈ queue, Exhaustible expand a) :
    Finishes expand queue := by
  -- restricted to exhaustible elements, the relation is irreflexive
  let below : α → α → Prop :=
    fun a'' a' => Leads expand a' a'' ∧ Exhaustible expand a'
  have hloop : ∀ a, Exhaustible expand a → ¬ Leads expand a a := by
    intro a hacc
    induction hacc with
    | intro a _ ih => exact fun hlead => ih a hlead hlead
  have hirrefl : Std.Irrefl below :=
    ⟨fun a ⟨hlead, hacc⟩ => hloop a hacc hlead⟩
  have hbelow : ∀ a, Exhaustible expand a → Acc below a := by
    intro a hacc
    exact Subrelation.accessible (fun h => h.1) hacc
  have hhydra : Acc (CutExpand below) (queue : Multiset α) :=
    acc_of_singleton fun a ha =>
      (hbelow a (hqueue a (Multiset.mem_coe.mp ha))).cutExpand
  generalize hheads : (queue : Multiset α) = heads at hhydra
  induction hhydra generalizing queue with
  | intro heads _ ih =>
      match queue with
      | [] => exact finishes_nil
      | a :: queue =>
          refine finishes_cons hexp fun r hr => ?_
          have hacc := hqueue a List.mem_cons_self
          have hleads : ∀ a' ∈ r.2, Leads expand a a' :=
            fun a' ha' => ⟨r, hr, ha'⟩
          refine ih (↑(queue ++ r.2)) ⟨↑r.2, a, ?_, ?_⟩ ?_ rfl
          · intro a' ha'
            exact ⟨hleads a' (Multiset.mem_coe.mp ha'), hacc⟩
          · rw [← hheads, ← Multiset.coe_add, ← Multiset.cons_coe,
              ← Multiset.singleton_add]
            abel
          · intro a' ha'
            rcases List.mem_append.mp ha' with ha' | ha'
            · exact hqueue a' (List.mem_cons_of_mem a ha')
            · exact hacc.inv (hleads a' ha')

/-- A loop that ends without being able to fail has exhausted its
elements. -/
theorem exhaustible_of_run {fuel : Nat} : ∀ {queue : List α},
    run expand fuel queue ≠ .running →
    (∀ a ∈ queue, ∀ a', ReflTransGen (Leads expand) a a' →
      ¬ Fails expand a') →
    ∀ a ∈ queue, Exhaustible expand a := by
  induction fuel with
  | zero =>
      intro queue h _ a ha
      match queue with
      | [] => cases ha
      | _ :: _ => exact absurd rfl h
  | succ fuel ih =>
      intro queue h hsafe
      match queue with
      | [] => exact fun a ha => nomatch ha
      | x :: queue =>
          obtain ⟨r, hr⟩ : ∃ r, expand x = .ok r := by
            by_contra hnone
            exact hsafe x List.mem_cons_self x .refl
              fun r hr => hnone ⟨r, hr⟩
          rw [run_cons hr, map_ne_running] at h
          have hrest := ih h fun a ha a' hpath => by
            rcases List.mem_append.mp ha with ha | ha
            · exact hsafe a (List.mem_cons_of_mem x ha) a' hpath
            · exact hsafe x List.mem_cons_self a'
                (.head ⟨r, hr, ha⟩ hpath)
          intro a ha
          rcases List.mem_cons.mp ha with rfl | ha
          · refine Acc.intro a fun a' ⟨r', hr', hmem⟩ => ?_
            rw [hr] at hr'
            injection hr' with hr'
            subst hr'
            exact hrest a' (List.mem_append_right queue hmem)
          · exact hrest a (List.mem_append_left r.2 ha)

/-- Among finitely many elements, the exhaustible ones are those that
lead to no cycle. -/
theorem exhaustible_iff [Finite α] {a : α} :
    Exhaustible expand a
      ↔ ∀ a', ReflTransGen (Leads expand) a a' →
        ¬ TransGen (Leads expand) a' a' := by
  constructor
  · intro hacc
    induction hacc with
    | intro a hacc ih =>
        intro a' hpath hcycle
        rcases hpath.cases_head with rfl | ⟨c, hlead, hpath⟩
        · -- the cycle goes through a successor
          obtain ⟨c, hlead, hback⟩ := TransGen.head'_iff.mp hcycle
          exact ih c hlead c .refl (TransGen.tail' hback hlead)
        · exact ih c hlead a' hpath hcycle
  · intro hnone
    let later : {a' // ReflTransGen (Leads expand) a a'} →
        {a' // ReflTransGen (Leads expand) a a'} → Prop :=
      fun a'' a' => TransGen (Leads expand) a'.1 a''.1
    have htrans : IsTrans _ later := ⟨fun _ _ _ h h' => h'.trans h⟩
    have hirrefl : Std.Irrefl later := ⟨fun a' => hnone a'.1 a'.2⟩
    have hwf : WellFounded later :=
      Finite.wellFounded_of_trans_of_irrefl later
    have hacc : ∀ a', Acc later a' → Exhaustible expand a'.1 := by
      intro a' hacc
      induction hacc with
      | intro a' _ ih =>
          refine Acc.intro a'.1 fun a'' hlead => ?_
          exact ih ⟨a'', a'.2.tail hlead⟩ (.single hlead)
    exact hacc ⟨a, .refl⟩ (hwf.apply _)

/-- The loop ends exactly when its queue leads to a failure or to no
cycle. -/
theorem finishes_iff [Finite α] (hexp : ∀ a, expand a ≠ .running)
    (queue : List α) :
    Finishes expand queue
      ↔ (∃ a ∈ queue, ∃ a', ReflTransGen (Leads expand) a a'
          ∧ Fails expand a')
        ∨ ∀ a ∈ queue, ∀ a', ReflTransGen (Leads expand) a a' →
          ¬ TransGen (Leads expand) a' a' := by
  constructor
  · rintro ⟨fuel, h⟩
    by_cases hfail : ∃ a ∈ queue, ∃ a',
        ReflTransGen (Leads expand) a a' ∧ Fails expand a'
    · exact Or.inl hfail
    · refine Or.inr fun a ha => exhaustible_iff.mp ?_
      exact exhaustible_of_run h
        (fun a ha a' hpath hfails => hfail ⟨a, ha, a', hpath, hfails⟩) a ha
  · rintro (⟨a, ha, a', hpath, hfails⟩ | hnone)
    · obtain ⟨before, after, hsplit⟩ := List.append_of_mem ha
      rw [hsplit]
      exact finishes_of_fails hexp hpath hfails before after
    · exact finishes_of_exhaustible hexp
        fun a ha => exhaustible_iff.mpr (hnone a ha)

end Rust.Worklist
