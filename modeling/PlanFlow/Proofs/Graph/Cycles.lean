import Mathlib.Data.List.Perm.Subperm
import PlanFlow.Proofs.Graph.CycleSearch

/-!
# The cycles of a list of steps

On ids, a step comes directly after those that it lists.  The reported cycles are cycles of this
relation, they are closed by different edges, and these edges together cut every cycle there is.
-/

namespace PlanFlow
namespace StepGraph

/-- The first step with the id `b` lists the id `a`, and some step has that. -/
def Precedes (steps : List Step) (a b : String) : Prop :=
  a ∈ steps.map Step.id ∧ ∃ s, (steps.find? fun s => s.id == b) = some s ∧ a ∈ s.dependencies

section Ids

variable {steps : List Step}

/-- An edge between two steps is one between their ids, if the second is the first with its id. -/
theorem precedes_of_edge {i j : Nat} (h : (ofSteps steps).Edge i j)
    (hj : position? steps ((ofSteps steps).idAt j) = some j) :
    Precedes steps ((ofSteps steps).idAt i) ((ofSteps steps).idAt j) := by
  obtain ⟨s, hs, d, hd, hpos⟩ := edge_ofSteps.mp h
  obtain ⟨⟨t, ht, hid⟩, -⟩ := position?_eq_some_iff.mp hpos
  have hidAt : (ofSteps steps).idAt i = d := (idAt_ofSteps ht).trans hid
  refine ⟨?_, s, (getElem?_of_position? hj).symm.trans hs, hidAt ▸ hd⟩
  rw [← position?_isSome_iff, hidAt, hpos]
  rfl

theorem exists_edge_of_precedes {a b : String} (h : Precedes steps a b) :
    ∃ i j, position? steps a = some i ∧ position? steps b = some j ∧
      (ofSteps steps).Edge i j := by
  obtain ⟨ha, s, hs, hd⟩ := h
  obtain ⟨i, hi⟩ := Option.isSome_iff_exists.mp (position?_isSome_iff.mpr ha)
  have hb : b ∈ steps.map Step.id :=
    List.mem_map.mpr ⟨s, List.mem_of_find?_eq_some hs, by simpa using List.find?_some hs⟩
  obtain ⟨j, hj⟩ := Option.isSome_iff_exists.mp (position?_isSome_iff.mpr hb)
  exact ⟨i, j, hi, hj, edge_ofSteps.mpr ⟨s, (getElem?_of_position? hj).trans hs, a, hd, hi⟩⟩

theorem idAt_of_position? {id : String} {i : Nat} (h : position? steps id = some i) :
    (ofSteps steps).idAt i = id := by
  obtain ⟨⟨s, hs, hid⟩, -⟩ := position?_eq_some_iff.mp h
  exact (idAt_ofSteps hs).trans hid

/-- Something follows every node of a closed walk, so each is the first one with its id. -/
theorem position?_of_mem_closedWalk {walk : List Nat} (h : ClosedWalk (ofSteps steps).Edge walk)
    {i : Nat} (hi : i ∈ walk) : position? steps ((ofSteps steps).idAt i) = some i := by
  obtain ⟨_, hedge⟩ := h.exists_next hi
  exact position?_of_edge hedge

theorem closedWalk_map_idAt {walk : List Nat} (h : ClosedWalk (ofSteps steps).Edge walk) :
    ClosedWalk (Precedes steps) (walk.map (ofSteps steps).idAt) :=
  h.map _ fun _ _ _ hb hedge => precedes_of_edge hedge (position?_of_mem_closedWalk h hb)

theorem simpleCycle_map_idAt {walk : List Nat} (h : SimpleCycle (ofSteps steps).Edge walk) :
    SimpleCycle (Precedes steps) (walk.map (ofSteps steps).idAt) where
  toClosedWalk := closedWalk_map_idAt h.toClosedWalk
  nodup := by
    rw [← List.map_dropLast]
    refine h.nodup.map_on fun i hi j hj hij => ?_
    have hsub := (List.dropLast_sublist walk).subset
    have hi' := position?_of_mem_closedWalk h.toClosedWalk (hsub hi)
    have hj' := position?_of_mem_closedWalk h.toClosedWalk (hsub hj)
    rw [hij] at hi'
    exact Option.some.inj (hi'.symm.trans hj')

/-- A closed walk along ids is one along positions. -/
theorem exists_closedWalk_of_ids {walk : List String} (h : ClosedWalk (Precedes steps) walk) :
    ∃ positions, ClosedWalk (ofSteps steps).Edge positions ∧
      walk = positions.map (ofSteps steps).idAt := by
  -- Every id of the walk has a position, so the default is never taken.
  let first (id : String) : Nat := (position? steps id).getD 0
  have hfirst : ∀ {id i}, position? steps id = some i → first id = i := by
    intro id i hi
    simp [first, hi]
  refine ⟨walk.map first, h.map first fun a _ b _ hab => ?_, ?_⟩
  · obtain ⟨i, j, hi, hj, hedge⟩ := exists_edge_of_precedes hab
    rwa [hfirst hi, hfirst hj]
  · have hid : ∀ id ∈ walk, (ofSteps steps).idAt (first id) = id := by
      intro id hmem
      obtain ⟨next, hnext⟩ := h.exists_next hmem
      obtain ⟨i, _, hi, -⟩ := exists_edge_of_precedes hnext
      rw [hfirst hi, idAt_of_position? hi]
    rw [List.map_map]
    conv_lhs => rw [← List.map_id walk]
    exact List.map_congr_left fun id hmem => (hid id hmem).symm

/-- The edge that closes a cycle on positions is known by its ids. -/
theorem exists_positions_of_suffix {cycle : List Nat}
    (h : ClosedWalk (ofSteps steps).Edge cycle) {a b : String}
    (hab : [a, b] <:+ cycle.map (ofSteps steps).idAt) :
    ∃ u v, [u, v] <:+ cycle ∧ position? steps a = some u ∧ position? steps b = some v := by
  obtain ⟨pair, hpair, hmap⟩ := List.suffix_map_iff.mp hab
  obtain ⟨u, v, rfl⟩ : ∃ u v, pair = [u, v] :=
    List.length_eq_two.mp (by simpa using (congrArg List.length hmap).symm)
  obtain ⟨rfl, rfl⟩ : a = (ofSteps steps).idAt u ∧ b = (ofSteps steps).idAt v := by
    simpa using hmap
  have hu : u ∈ cycle := hpair.subset (by simp)
  have hv : v ∈ cycle := hpair.subset (by simp)
  exact ⟨u, v, hpair, position?_of_mem_closedWalk h hu, position?_of_mem_closedWalk h hv⟩

end Ids

/-! ## The reported cycles -/

section Reported

variable (steps : List Step)

theorem simpleCycle_of_mem_cyclesOf {cycle : List String} (h : cycle ∈ cyclesOf steps) :
    SimpleCycle (Precedes steps) cycle := by
  obtain ⟨positions, hmem, rfl⟩ := List.mem_map.mp h
  exact simpleCycle_map_idAt (simpleCycle_of_mem_cyclePositions (coherent_ofSteps steps) hmem)

/-- No two reported cycles are closed by the same edge. -/
theorem pairwise_cyclesOf :
    (cyclesOf steps).Pairwise fun p q => ∀ a b, [a, b] <:+ p → ¬[a, b] <:+ q := by
  have hg := coherent_ofSteps steps
  rw [cyclesOf, cycles, List.pairwise_map]
  refine (pairwise_cyclePositions hg).imp_of_mem fun {p q} hp hq hpq a b hap haq => ?_
  have hp' := (simpleCycle_of_mem_cyclePositions hg hp).toClosedWalk
  have hq' := (simpleCycle_of_mem_cyclePositions hg hq).toClosedWalk
  obtain ⟨u, v, hup, hu, hv⟩ := exists_positions_of_suffix hp' hap
  obtain ⟨u', v', huq, hu', hv'⟩ := exists_positions_of_suffix hq' haq
  obtain rfl : u = u' := Option.some.inj (hu.symm.trans hu')
  obtain rfl : v = v' := Option.some.inj (hv.symm.trans hv')
  exact hpq u v hup huq

/-- Every cycle there is takes an edge that closes a reported one. -/
theorem exists_closing_edge_of_ids {walk : List String} (h : ClosedWalk (Precedes steps) walk) :
    ∃ cycle ∈ cyclesOf steps, ∃ a b, [a, b] <:+ cycle ∧ [a, b] <:+: walk := by
  obtain ⟨positions, hwalk, rfl⟩ := exists_closedWalk_of_ids h
  obtain ⟨u, v, hinfix, cycle, hcycle, hsuffix⟩ :=
    exists_closing_edge (coherent_ofSteps steps) hwalk
  exact ⟨_, List.mem_map_of_mem hcycle, _, _, hsuffix.map _, hinfix.map _⟩

theorem cyclesOf_eq_nil_iff :
    cyclesOf steps = [] ↔ ∀ id, ¬Relation.TransGen (Precedes steps) id id := by
  constructor
  · intro hnil id hid
    obtain ⟨walk, hwalk⟩ := ClosedWalk.exists_of_transGen hid
    obtain ⟨cycle, hcycle, -⟩ := exists_closing_edge_of_ids steps hwalk
    rw [hnil] at hcycle
    cases hcycle
  · intro hacyclic
    rw [List.eq_nil_iff_forall_not_mem]
    intro cycle hcycle
    obtain ⟨id, -, hid⟩ := (simpleCycle_of_mem_cyclesOf steps hcycle).exists_transGen
    exact hacyclic id hid

/-- Cycles without a common step are cut by different reported cycles. -/
theorem length_le_length_cyclesOf {walks : List (List String)}
    (hwalks : ∀ walk ∈ walks, ClosedWalk (Precedes steps) walk)
    (hdisjoint : walks.Pairwise List.Disjoint) : walks.length ≤ (cyclesOf steps).length := by
  have hcut : ∀ walk ∈ walks, ∃ cycle ∈ cyclesOf steps, ∃ a b,
      [a, b] <:+ cycle ∧ [a, b] <:+: walk :=
    fun walk hwalk => exists_closing_edge_of_ids steps (hwalks walk hwalk)
  choose! cut hmem hedge using hcut
  -- A report that cuts two walks would put the start of its last edge into both.
  have hnodup : (walks.map cut).Nodup := by
    rw [List.Nodup, List.pairwise_map]
    refine hdisjoint.imp_of_mem fun {w w'} hw hw' hww' heq => ?_
    obtain ⟨a, b, hsuffix, hinfix⟩ := hedge w hw
    obtain ⟨a', b', hsuffix', hinfix'⟩ := hedge w' hw'
    rw [← heq] at hsuffix'
    have hpair : [a, b] = [a', b'] :=
      (List.suffix_of_suffix_length_le hsuffix hsuffix' le_rfl).eq_of_length rfl
    have ha : a ∈ w := hinfix.subset List.mem_cons_self
    have ha' : a' ∈ w' := hinfix'.subset List.mem_cons_self
    obtain rfl : a = a' := (List.cons.inj hpair).1
    exact hww' ha ha'
  have hsubset : walks.map cut ⊆ cyclesOf steps := by
    intro cycle hcycle
    obtain ⟨walk, hwalk, rfl⟩ := List.mem_map.mp hcycle
    exact hmem walk hwalk
  simpa using (hnodup.subperm hsubset).length_le

/-- The reported cycles are cycles that different edges close, and every cycle takes one of these
edges.  So there is a report exactly if there is a cycle, and one for each of several cycles that
have no step in common. -/
theorem cyclesOf_closing_edges :
    (∀ cycle ∈ cyclesOf steps, SimpleCycle (Precedes steps) cycle) ∧
    ((cyclesOf steps).Pairwise fun p q => ∀ a b, [a, b] <:+ p → ¬[a, b] <:+ q) ∧
    (∀ walk, ClosedWalk (Precedes steps) walk →
      ∃ cycle ∈ cyclesOf steps, ∃ a b, [a, b] <:+ cycle ∧ [a, b] <:+: walk) ∧
    (cyclesOf steps = [] ↔ ∀ id, ¬Relation.TransGen (Precedes steps) id id) ∧
    ∀ walks : List (List String), (∀ walk ∈ walks, ClosedWalk (Precedes steps) walk) →
      walks.Pairwise List.Disjoint → walks.length ≤ (cyclesOf steps).length := by
  refine ⟨fun cycle => simpleCycle_of_mem_cyclesOf steps, pairwise_cyclesOf steps,
    fun walk => exists_closing_edge_of_ids steps, cyclesOf_eq_nil_iff steps, ?_⟩
  exact fun walks => length_le_length_cyclesOf steps

end Reported
end StepGraph
end PlanFlow
