import PlanFlow.Proofs.Graph.Draining
import PlanFlow.Proofs.Graph.Traversal

/-!
# Runs of the traversal

A run makes rounds from the first state on.  What its rounds entered and followed, together with
what is still to be entered and followed, are all nodes and all edges, each once.  Every run can go
on until no frame is open, and until no root is to come, and then it has found the cycles of the
graph.
-/

namespace PlanFlow
namespace StepGraph

/-- All edges, those of one node after those of another. -/
def edges (g : StepGraph) : List (Nat × Nat) :=
  g.positions.flatMap fun v => (g.dependentsAt v).map (v, ·)

theorem mem_edges {g : StepGraph} {i j : Nat} : (i, j) ∈ g.edges ↔ g.Edge i j := by
  simp only [edges, List.mem_flatMap, List.mem_map, Prod.mk.injEq, mem_positions]
  constructor
  · rintro ⟨v, -, w, hw, rfl, rfl⟩
    exact hw
  · intro hedge
    exact ⟨i, hedge.lt_left, j, hedge, rfl, rfl⟩

theorem nodup_edges {g : StepGraph} (hg : g.Coherent) : g.edges.Nodup := by
  rw [edges, List.nodup_flatMap]
  constructor
  · intro v _
    exact (hg.nodup_dependentsAt v).map fun _ _ h => (Prod.mk.inj h).2
  · refine List.nodup_range.imp fun hne => ?_
    simp only [Function.onFun, List.disjoint_left, List.mem_map, not_exists, not_and]
    rintro _ ⟨w, -, rfl⟩ w' - h
    exact hne (Prod.mk.inj h).1.symm

namespace Traversal

/-- The states that rounds lead to from the first one, and the rounds in order. -/
inductive Run (g : StepGraph) : List Round → Traversal → Prop
  | nil : Run g [] (initial g)
  | round {events : List Round} {t u : Traversal} {r : Round} (hrun : Run g events t)
      (hround : advance g t = some (r, u)) : Run g (events ++ [r]) u

/-- What every run keeps: the structures agree, the search is where it should be and will find what
it finds from the first state on, and all nodes and edges are accounted for. -/
structure Kept (g : StepGraph) (events : List Round) (t : Traversal) : Prop where
  consistent : t.Consistent g
  inv : ∃ done, Search.Inv g (t.view g) done
  outcome_eq : outcome g t = g.exploreFrom ⟨g.positions, [], []⟩ g.positions
  finds : ∀ node next, .lose node next ∉ events
  entered : (events.filterMap Round.entered? ++ (t.view g).fresh).Perm g.positions
  followed : (events.filterMap Round.edge? ++ remaining g (t.view g)).Perm g.edges
  length_eq : events.length + toCome g t = 2 * g.size + g.edges.length

theorem view_initial (g : StepGraph) : (initial g).view g = ⟨g.positions, [], []⟩ := by
  have hfresh : (g.positions.filter fun v => (List.replicate g.size false)[v]? = some false) =
      g.positions := by
    refine List.filter_eq_self.mpr fun v hv => ?_
    simp [mem_positions.mp hv]
  rw [view, initial, hfresh]
  rfl

theorem remaining_initial (g : StepGraph) : remaining g ((initial g).view g) = g.edges := by
  rw [view_initial, remaining, List.flatMap_nil, List.append_nil, edges]

theorem consistent_initial (g : StepGraph) : (initial g).Consistent g where
  path_eq := rfl
  onPath_iff v := by simp [initial, List.getElem?_replicate]
  size_onPath := List.length_replicate
  size_visited := List.length_replicate
  roots_lt _ := mem_positions.mp
  mem_roots v hv := by
    simp only [initial, List.getElem?_replicate] at hv ⊢
    split at hv
    · exact mem_positions.mpr ‹_›
    · cases hv

theorem kept_initial (g : StepGraph) : Kept g [] (initial g) where
  consistent := consistent_initial g
  inv := ⟨[], view_initial g ▸ Search.inv_start g⟩
  outcome_eq := by rw [outcome, view_initial, explore_of_closed rfl, initial]
  finds _ _ := List.not_mem_nil
  entered := by
    rw [view_initial]
    exact List.Perm.refl _
  followed := by
    rw [remaining_initial]
    exact List.Perm.refl _
  length_eq := by
    rw [toCome, remaining_initial, view_initial]
    simp [initial, positions]
    omega

theorem advance_of_isOver {g : StepGraph} {t : Traversal} (hover : t.IsOver) :
    advance g t = none := by
  simp [advance, hover.1, hover.2]

section Runs

variable {g : StepGraph} {events : List Round} {t u : Traversal} {r : Round}

theorem Kept.turn (hg : g.Coherent) (h : Kept g events t) (hround : advance g t = some (r, u)) :
    Turn g t r u := by
  have hover : ¬t.IsOver := fun hover => by
    rw [advance_of_isOver hover] at hround
    cases hround
  obtain ⟨done, hinv⟩ := h.inv
  obtain ⟨r', u', hround', hturn⟩ := exists_turn hg h.consistent hinv.placed hover
  obtain ⟨rfl, rfl⟩ := Prod.mk.inj (Option.some.inj (hround'.symm.trans hround))
  exact hturn

theorem filterMap_round {α : Type} (f : Round → Option α) (events : List Round) (r : Round) :
    (events ++ [r]).filterMap f = events.filterMap f ++ (f r).toList := by
  rw [List.filterMap_append]
  cases hr : f r <;> simp [hr]

/-- What a round takes from what is to come, it adds to what was done. -/
theorem Kept.round (hg : g.Coherent) (h : Kept g events t) (hround : advance g t = some (r, u)) :
    Kept g (events ++ [r]) u := by
  have hturn := h.turn hg hround
  obtain ⟨done, hinv⟩ := h.inv
  refine ⟨hturn.consistent, Search.inv_of_moves hg hturn.moves hinv,
    hturn.outcome_eq.trans h.outcome_eq, fun node next => ?_, ?_, ?_, ?_⟩
  · simpa [h.finds node next] using (hturn.finds node next).symm
  · rw [filterMap_round, List.append_assoc]
    exact (hturn.entered.append_left _).trans h.entered
  · rw [filterMap_round, List.append_assoc]
    exact (hturn.followed.append_left _).trans h.followed
  · have hcome := hturn.toCome_eq
    have hlength := h.length_eq
    rw [List.length_append, List.length_singleton]
    omega

theorem kept_of_run (hg : g.Coherent) (h : Run g events t) : Kept g events t := by
  induction h with
  | nil => exact kept_initial g
  | round _ hround ih => exact ih.round hg hround

/-- A run goes on until it may stop. -/
theorem exists_run_until (hg : g.Coherent) {stop : Traversal → Prop} (keeps : Traversal → Prop)
    (hstop : ∀ t, t.IsOver → stop t)
    (hkeeps : ∀ t r u, keeps t → ¬stop t → Turn g t r u → keeps u)
    (hrun : Run g events t) (ht : keeps t) :
    ∃ more u, Run g (events ++ more) u ∧ stop u ∧ keeps u := by
  induction hcome : toCome g t using Nat.strong_induction_on generalizing events t with
  | _ n ih =>
    by_cases hends : stop t
    · exact ⟨[], t, by simpa using hrun, hends, ht⟩
    · have hkept := kept_of_run hg hrun
      obtain ⟨done, hinv⟩ := hkept.inv
      obtain ⟨r, u, hround, hturn⟩ :=
        exists_turn hg hkept.consistent hinv.placed fun hover => hends (hstop t hover)
      -- A visit may add frames and edges, but never more than it takes from what is fresh.
      have hless : toCome g u < n := by
        rw [← hcome, ← hturn.toCome_eq]
        exact Nat.lt_succ_self _
      obtain ⟨more, w, hmore, hw⟩ :=
        ih _ hless (hrun.round hround) (hkeeps t r u ht hends hturn) rfl
      exact ⟨r :: more, w, by simpa using hmore, hw⟩

/-- The path that is open is left in the end, before another root is taken. -/
theorem exists_run_closed (hg : g.Coherent) (hrun : Run g events t) :
    ∃ more u, Run g (events ++ more) u ∧ u.frames = [] ∧ u.roots = t.roots := by
  refine exists_run_until hg (fun u => u.roots = t.roots) (fun u hu => hu.1) ?_ hrun rfl
  intro u r w hu hopen hturn
  exact (hturn.roots_eq hopen).trans hu

theorem exists_run_over (hg : g.Coherent) : ∃ events t, Run g events t ∧ t.IsOver := by
  obtain ⟨more, t, hrun, hover, -⟩ :=
    exists_run_until hg (fun _ => True) (fun _ => id) (fun _ _ _ _ _ _ => trivial) .nil trivial
  exact ⟨_, t, hrun, hover⟩

/-- In the end nothing is fresh. -/
theorem Consistent.view_of_isOver (h : t.Consistent g) (hover : t.IsOver) :
    t.view g = ⟨[], [], t.found⟩ := by
  have hfresh : (t.view g).fresh = [] := by
    refine List.eq_nil_iff_forall_not_mem.mpr fun v hv => ?_
    have hroot := h.mem_roots v ((mem_fresh_view h.size_visited).mp hv)
    rw [hover.2] at hroot
    cases hroot
  rw [← hfresh]
  simp [view, hover.1]

theorem Kept.found_of_isOver (h : Kept g events t) (hover : t.IsOver) :
    t.found = g.cyclePositions := by
  have houtcome := h.outcome_eq
  rw [outcome, hover.2, h.consistent.view_of_isOver hover, explore_of_closed rfl] at houtcome
  exact congrArg Search.found houtcome

end Runs

end Traversal

/-- However the steps depend on each other, the path of the search is that of its frames, the marks
are those of the path, and the path follows the edges, so an edge back to the path finds its end
there, and there is a next round until the search is over.  From every root the search comes to
its end.  In the end it has found the cycles, and has entered every node and followed every edge
once. -/
theorem traversal_enters_once (steps : List Step) :
    (∀ events t, Traversal.Run (ofSteps steps) events t →
      t.path = (t.frames.map Prod.fst).reverse ∧
      (∀ v, t.onPath[v]? = some true ↔ v ∈ t.path) ∧
      t.path.IsChain (ofSteps steps).Edge ∧
      (∀ node next, .lose node next ∉ events) ∧
      (t.IsOver ∨ ∃ r u, Traversal.advance (ofSteps steps) t = some (r, u)) ∧
      events.length ≤ 2 * steps.length + (ofSteps steps).edges.length ∧
      ∃ more u, Traversal.Run (ofSteps steps) (events ++ more) u ∧
        u.frames = [] ∧ u.roots = t.roots) ∧
    ∃ events t, Traversal.Run (ofSteps steps) events t ∧ t.IsOver ∧
      t.found.map (fun path => path.map (ofSteps steps).idAt) = (ofSteps steps).cycles ∧
      (events.filterMap Round.entered?).Nodup ∧
      (∀ i, i ∈ events.filterMap Round.entered? ↔ i < steps.length) ∧
      (events.filterMap Round.edge?).Nodup ∧
      (∀ i j, (i, j) ∈ events.filterMap Round.edge? ↔ (ofSteps steps).Edge i j) ∧
      events.length = 2 * steps.length + (events.filterMap Round.edge?).length := by
  have hg := coherent_ofSteps steps
  constructor
  · intro events t hrun
    have hkept := Traversal.kept_of_run hg hrun
    obtain ⟨done, hinv⟩ := hkept.inv
    refine ⟨hkept.consistent.path_eq, hkept.consistent.onPath_iff, ?_, hkept.finds, ?_, ?_,
      Traversal.exists_run_closed hg hrun⟩
    · rw [hkept.consistent.path_eq, List.isChain_reverse, ← Traversal.path_view]
      exact hinv.placed.chain
    · by_cases hover : t.IsOver
      · exact .inl hover
      · obtain ⟨r, u, hround, -⟩ :=
          Traversal.exists_turn hg hkept.consistent hinv.placed hover
        exact .inr ⟨r, u, hround⟩
    · rw [← size_ofSteps, ← hkept.length_eq]
      exact Nat.le_add_right _ _
  · obtain ⟨events, t, hrun, hover⟩ := Traversal.exists_run_over hg
    have hkept := Traversal.kept_of_run hg hrun
    have hview := hkept.consistent.view_of_isOver hover
    have hentered : (events.filterMap Round.entered?).Perm (ofSteps steps).positions := by
      simpa [hview] using hkept.entered
    have hfollowed : (events.filterMap Round.edge?).Perm (ofSteps steps).edges := by
      simpa [hview, Traversal.remaining] using hkept.followed
    refine ⟨events, t, hrun, hover, ?_, ?_, fun i => ?_, ?_, fun i j => ?_, ?_⟩
    · rw [hkept.found_of_isOver hover, cycles]
    · exact hentered.nodup_iff.mpr List.nodup_range
    · rw [hentered.mem_iff, mem_positions, size_ofSteps]
    · exact hfollowed.nodup_iff.mpr (nodup_edges hg)
    · rw [hfollowed.mem_iff, mem_edges]
    · have hlength := hkept.length_eq
      simpa [Traversal.toCome, hview, hover.1, hover.2, Traversal.remaining, size_ofSteps,
        hfollowed.length_eq] using hlength

/-- The search goes from the rows to their merge.  It leaves both before it turns to the next root,
and comes to the log in the end. -/
theorem traversal_enters_once_mergeSteps :
    let t : Traversal := ⟨[1, 2, 3, 4], [(1, 0), (0, 1)], [0, 1],
      [true, true, false, false, false], [true, true, false, false, false], []⟩
    Traversal.Run (ofSteps mergeSteps) [.start 0, .enter 0 1] t ∧
      t.path.IsChain (ofSteps mergeSteps).Edge ∧
      (∃ more u, Traversal.Run (ofSteps mergeSteps) ([.start 0, .enter 0 1] ++ more) u ∧
        u.frames = [] ∧ u.roots = [1, 2, 3, 4]) ∧
      ∃ events u, Traversal.Run (ofSteps mergeSteps) events u ∧ u.IsOver ∧
        u.found.map (fun path => path.map (ofSteps mergeSteps).idAt) =
          (ofSteps mergeSteps).cycles ∧
        4 ∈ events.filterMap Round.entered? := by
  obtain ⟨hkeeps, events, u, hrun, hover, hfound, -, hentered, -⟩ :=
    traversal_enters_once mergeSteps
  have hfirst : Traversal.Run (ofSteps mergeSteps) [.start 0] ⟨[1, 2, 3, 4], [(0, 0)], [0],
      [true, false, false, false, false], [true, false, false, false, false], []⟩ :=
    .round .nil (by decide +kernel)
  have hsecond : Traversal.Run (ofSteps mergeSteps) [.start 0, .enter 0 1] ⟨[1, 2, 3, 4],
      [(1, 0), (0, 1)], [0, 1], [true, true, false, false, false],
      [true, true, false, false, false], []⟩ := .round hfirst (by decide +kernel)
  obtain ⟨-, -, hchain, -, -, -, hclosed⟩ := hkeeps _ _ hsecond
  exact ⟨hsecond, hchain, hclosed, events, u, hrun, hover, hfound, (hentered 4).mpr (by decide)⟩

end StepGraph
end PlanFlow
