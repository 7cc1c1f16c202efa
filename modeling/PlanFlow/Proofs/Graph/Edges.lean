import Mathlib.Data.List.Basic
import Mathlib.Data.List.Nodup
import Mathlib.Logic.Relation
import PlanFlow.Graph.Basic
import PlanFlow.Proofs.Ids

/-!
# The edges of a step graph

An edge leads from a node to one that waits for it.  A graph that is made from a list of steps keeps
every edge once at either end, and both of its ends are positions of the list.  Ids are resolved to
their first occurrences, so a step that repeats an id has nothing that waits for it.
-/

namespace PlanFlow
namespace StepGraph

/-- The node at `j` waits for the node at `i`. -/
def Edge (g : StepGraph) (i j : Nat) : Prop := j ∈ g.dependentsAt i

/-- Both ends of every edge know it, and know it once. -/
structure Coherent (g : StepGraph) : Prop where
  edge_iff : ∀ i j, g.Edge i j ↔ i ∈ g.dependenciesAt j
  nodup_dependenciesAt : ∀ j, (g.dependenciesAt j).Nodup
  nodup_dependentsAt : ∀ i, (g.dependentsAt i).Nodup

/-- Only a node has dependents. -/
theorem Edge.lt_left {g : StepGraph} {i j : Nat} (h : g.Edge i j) : i < g.size := by
  by_contra hlt
  have hnone : g.nodes[i]? = none := List.getElem?_eq_none (Nat.le_of_not_lt hlt)
  simp [Edge, dependentsAt, hnone] at h

/-- Only a node has dependencies. -/
theorem lt_size_of_mem_dependenciesAt {g : StepGraph} {i j : Nat}
    (h : i ∈ g.dependenciesAt j) : j < g.size := by
  by_contra hlt
  have hnone : g.nodes[j]? = none := List.getElem?_eq_none (Nat.le_of_not_lt hlt)
  simp [dependenciesAt, hnone] at h

theorem Coherent.lt_right {g : StepGraph} (hg : g.Coherent) {i j : Nat}
    (h : g.Edge i j) : j < g.size :=
  lt_size_of_mem_dependenciesAt ((hg.edge_iff i j).mp h)

@[simp]
theorem mem_positions {g : StepGraph} {i : Nat} : i ∈ g.positions ↔ i < g.size := by
  simp [positions]

/-! ## Positions of ids -/

section Positions

variable {steps : List Step} {id : String} {i : Nat}

/-- An id is found at the first step that has it. -/
theorem position?_eq_some_iff :
    position? steps id = some i ↔
      (∃ s, steps[i]? = some s ∧ s.id = id) ∧
        ∀ k, k < i → ∀ t, steps[k]? = some t → t.id ≠ id := by
  rw [position?, List.findIdx?_eq_some_iff_getElem]
  constructor
  · rintro ⟨hlt, hid, hbefore⟩
    refine ⟨⟨steps[i], List.getElem?_eq_getElem hlt, by simpa using hid⟩, ?_⟩
    intro k hk t ht
    obtain ⟨hkl, rfl⟩ := List.getElem?_eq_some_iff.mp ht
    simpa using hbefore k hk
  · rintro ⟨⟨s, hs, hid⟩, hbefore⟩
    obtain ⟨hlt, rfl⟩ := List.getElem?_eq_some_iff.mp hs
    refine ⟨hlt, by simpa using hid, ?_⟩
    intro k hk
    simpa using hbefore k hk steps[k] (List.getElem?_eq_getElem (Nat.lt_trans hk hlt))

theorem position?_isSome_iff : (position? steps id).isSome ↔ id ∈ steps.map Step.id := by
  rw [position?, List.findIdx?_isSome, List.any_eq_true]
  simp

theorem position?_eq_none_iff : position? steps id = none ↔ id ∉ steps.map Step.id := by
  rw [← position?_isSome_iff, Option.not_isSome_iff_eq_none]

/-- The step at the position of an id is the first one with it. -/
theorem getElem?_of_position? (h : position? steps id = some i) :
    steps[i]? = steps.find? fun s => s.id == id := by
  rw [List.find?_eq_bind_findIdx?_getElem?, ← position?, h, Option.bind_some]

end Positions

/-! ## The graph of a list of steps -/

section OfSteps

variable (steps : List Step)

@[simp]
theorem size_ofSteps : (ofSteps steps).size = steps.length := by
  simp [size, ofSteps]

theorem getElem?_ofSteps (i : Nat) :
    (ofSteps steps).nodes[i]? = steps[i]?.map fun s =>
      ⟨s.id, waitsFor steps s, holding (steps.map (waitsFor steps)) i⟩ := by
  simp [ofSteps, List.getElem?_zipIdx, Option.map_map, Function.comp_def]

variable {steps}

theorem idAt_ofSteps {i : Nat} {s : Step} (h : steps[i]? = some s) :
    (ofSteps steps).idAt i = s.id := by
  simp [idAt, getElem?_ofSteps, h]

theorem dependenciesAt_ofSteps {i : Nat} {s : Step} (h : steps[i]? = some s) :
    (ofSteps steps).dependenciesAt i = waitsFor steps s := by
  simp [dependenciesAt, getElem?_ofSteps, h]

theorem mem_waitsFor {s : Step} {i : Nat} :
    i ∈ waitsFor steps s ↔ ∃ d ∈ s.dependencies, position? steps d = some i := by
  simp [waitsFor]

theorem nodup_waitsFor (s : Step) : (waitsFor steps s).Nodup :=
  Ids.nodup_eraseDups _

theorem mem_dependenciesAt_ofSteps {i j : Nat} :
    i ∈ (ofSteps steps).dependenciesAt j ↔
      ∃ s, steps[j]? = some s ∧ ∃ d ∈ s.dependencies, position? steps d = some i := by
  cases hs : steps[j]? with
  | none => simp [dependenciesAt, getElem?_ofSteps, hs]
  | some s => simp [dependenciesAt_ofSteps hs, mem_waitsFor]

theorem mem_holding {lists : List (List Nat)} {n j : Nat} :
    j ∈ holding lists n ↔ ∃ list, lists[j]? = some list ∧ n ∈ list := by
  simp only [holding, List.mem_filterMap, Prod.exists, List.mem_zipIdx_iff_getElem?]
  constructor
  · rintro ⟨list, k, hk, h⟩
    split at h
    · cases h
      exact ⟨list, hk, List.contains_iff_mem.mp ‹_›⟩
    · cases h
  · rintro ⟨list, hj, hn⟩
    exact ⟨list, j, hj, if_pos (List.contains_iff_mem.mpr hn)⟩

/-- The dependents of a node stand in ascending order. -/
theorem pairwise_lt_holding (lists : List (List Nat)) (n : Nat) :
    (holding lists n).Pairwise (· < ·) := by
  have hzip : lists.zipIdx.Pairwise fun a b => a.2 < b.2 := by
    rw [← List.pairwise_map, List.zipIdx_map_snd]
    exact List.pairwise_lt_range'
  refine hzip.filterMap _ ?_
  rintro ⟨x, i⟩ ⟨y, j⟩ hij a ha b hb
  dsimp only at hij ha hb
  split at ha <;> split at hb <;> cases ha <;> cases hb
  exact hij

theorem edge_ofSteps {i j : Nat} :
    (ofSteps steps).Edge i j ↔
      ∃ s, steps[j]? = some s ∧ ∃ d ∈ s.dependencies, position? steps d = some i := by
  cases hs : steps[i]? with
  | none =>
      simp only [Edge, dependentsAt, getElem?_ofSteps, hs, Option.map_none, Option.getD_none,
        List.not_mem_nil, false_iff, not_exists, not_and]
      rintro s - d - hpos
      obtain ⟨⟨t, ht, -⟩, -⟩ := position?_eq_some_iff.mp hpos
      exact absurd (hs.symm.trans ht) (by simp)
  | some t =>
      simp only [Edge, dependentsAt, getElem?_ofSteps, hs, Option.map_some, Option.getD_some,
        mem_holding, List.getElem?_map, Option.map_eq_some_iff]
      constructor
      · rintro ⟨-, ⟨s, hj, rfl⟩, hi⟩
        exact ⟨s, hj, mem_waitsFor.mp hi⟩
      · rintro ⟨s, hj, hi⟩
        exact ⟨_, ⟨s, hj, rfl⟩, mem_waitsFor.mpr hi⟩

/-- Those that wait for a node stand in ascending order. -/
theorem pairwise_lt_dependentsAt_ofSteps (steps : List Step) (i : Nat) :
    ((ofSteps steps).dependentsAt i).Pairwise (· < ·) := by
  cases hs : steps[i]? with
  | none => simp [dependentsAt, getElem?_ofSteps, hs]
  | some s =>
      simp only [dependentsAt, getElem?_ofSteps, hs, Option.map_some, Option.getD_some]
      exact pairwise_lt_holding _ i

theorem coherent_ofSteps (steps : List Step) : (ofSteps steps).Coherent where
  edge_iff i j := by rw [edge_ofSteps, mem_dependenciesAt_ofSteps]
  nodup_dependenciesAt j := by
    cases hs : steps[j]? with
    | none => simp [dependenciesAt, getElem?_ofSteps, hs]
    | some s =>
        rw [dependenciesAt_ofSteps hs]
        exact nodup_waitsFor s
  nodup_dependentsAt i := (pairwise_lt_dependentsAt_ofSteps steps i).imp Nat.ne_of_lt

/-- A node that something waits for is the first one with its id. -/
theorem position?_of_edge {i j : Nat} (h : (ofSteps steps).Edge i j) :
    position? steps ((ofSteps steps).idAt i) = some i := by
  obtain ⟨-, -, d, -, hpos⟩ := edge_ofSteps.mp h
  obtain ⟨⟨t, ht, hid⟩, -⟩ := position?_eq_some_iff.mp hpos
  rw [idAt_ofSteps ht, hid, hpos]

end OfSteps
end StepGraph
end PlanFlow
