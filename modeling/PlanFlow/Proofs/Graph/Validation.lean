import PlanFlow.Graph.Schedule
import PlanFlow.Proofs.Graph.Cycles
import PlanFlow.Proofs.Graph.Order

/-!
# Which lists of steps have a schedule

A list of steps has a schedule exactly if its ids are distinct, its dependencies are all resolved
and no step depends on itself, directly or through others.  Otherwise everything that is wrong is
reported: each repeated id once, each dependency that leads nowhere, and the cycles.  The search for
cycles and the queue agree: if the search finds none, the queue comes to every step, so the report
that the order is incomplete is never made.
-/

namespace PlanFlow

namespace StepGraph

/-- All defects of a list of steps, as they are reported. -/
def allErrors (steps : List Step) : List GraphError :=
  structuralErrors steps ++ (cyclesOf steps).map .cycle

section Errors

variable {steps : List Step}

theorem unresolved_eq (s : Step) :
    unresolved steps s = s.dependencies.filter fun d => decide (d ∉ steps.map Step.id) := by
  refine List.filter_congr fun d _ => ?_
  rw [Bool.eq_iff_iff, Option.isNone_iff_eq_none, position?_eq_none_iff, decide_eq_true_iff]

theorem structuralErrors_eq_nil_iff :
    structuralErrors steps = [] ↔ (steps.map Step.id).Nodup ∧
      ∀ s ∈ steps, ∀ d ∈ s.dependencies, d ∈ steps.map Step.id := by
  rw [structuralErrors, List.append_eq_nil_iff, List.map_eq_nil_iff, Ids.repeated_eq_nil_iff,
    List.flatMap_eq_nil_iff]
  refine and_congr_right fun _ => forall₂_congr fun s _ => ?_
  rw [List.map_eq_nil_iff, unresolved_eq, List.filter_eq_nil_iff]
  exact forall₂_congr fun d _ => by rw [decide_eq_true_iff, not_not]

/-- If no cycle is found, the order comes to every step. -/
theorem length_order_of_cyclesOf_eq_nil (h : cyclesOf steps = []) :
    (ofSteps steps).order.length = (ofSteps steps).size := by
  have hg := coherent_ofSteps steps
  rw [cyclesOf, cycles, List.map_eq_nil_iff, cyclePositions_eq_nil_iff hg] at h
  rw [(order_perm_positions hg h).length_eq, positions, List.length_range]

theorem allErrors_eq_nil_iff :
    allErrors steps = [] ↔ (steps.map Step.id).Nodup ∧
      (∀ s ∈ steps, ∀ d ∈ s.dependencies, d ∈ steps.map Step.id) ∧
      ∀ id, ¬Relation.TransGen (Precedes steps) id id := by
  rw [allErrors, List.append_eq_nil_iff, List.map_eq_nil_iff, structuralErrors_eq_nil_iff,
    cyclesOf_eq_nil_iff, and_assoc]

/-- If no id is used twice and every step stands after those that it waits for, nothing is wrong. -/
theorem allErrors_eq_nil_of_idxOf_lt (hnodup : (steps.map Step.id).Nodup)
    (hlt : ∀ s ∈ steps, ∀ d ∈ s.dependencies,
      (steps.map Step.id).idxOf d < (steps.map Step.id).idxOf s.id) : allErrors steps = [] := by
  have hprecedes {a b : String} (h : Precedes steps a b) :
      (steps.map Step.id).idxOf a < (steps.map Step.id).idxOf b := by
    obtain ⟨-, s, hs, ha⟩ := h
    have hid : s.id = b := by simpa using List.find?_some hs
    exact hid ▸ hlt s (List.mem_of_find?_eq_some hs) a ha
  have hpath {a b : String} (h : Relation.TransGen (Precedes steps) a b) :
      (steps.map Step.id).idxOf a < (steps.map Step.id).idxOf b := by
    induction h with
    | single hstep => exact hprecedes hstep
    | tail _ hstep ih => exact ih.trans (hprecedes hstep)
  refine allErrors_eq_nil_iff.mpr ⟨hnodup, fun s hs d hd => ?_, fun id hcycle => ?_⟩
  · exact List.idxOf_lt_length_iff.mp ((hlt s hs d hd).trans_le List.idxOf_le_length)
  · exact Nat.lt_irrefl _ (hpath hcycle)

theorem incomplete_not_mem_allErrors : GraphError.incomplete ∉ allErrors steps := by
  simp [allErrors, structuralErrors]

end Errors
end StepGraph

namespace Validation

open StepGraph

variable {settings : Settings} {steps : List Step}

/-- A list without defects has the schedule of its graph. -/
theorem ofSteps_of_no_errors (h : allErrors steps = []) :
    Validation.ofSteps settings steps =
      .valid ((StepGraph.ofSteps steps).schedule (StepGraph.ofSteps steps).order)
        ((StepGraph.ofSteps steps).warnings settings
          ((StepGraph.ofSteps steps).schedule (StepGraph.ofSteps steps).order)) := by
  have hcycles : cyclesOf steps = [] := List.map_eq_nil_iff.mp (List.append_eq_nil_iff.mp h).2
  have hlength := length_order_of_cyclesOf_eq_nil hcycles
  show (if (allErrors steps).isEmpty then _ else _) = _
  rw [h, List.isEmpty_nil, if_pos rfl]
  -- The guard against an incomplete order never fires.
  exact if_neg (by omega)

/-- A list with defects is rejected with all of them. -/
theorem ofSteps_of_errors (h : allErrors steps ≠ []) :
    Validation.ofSteps settings steps = .invalid (allErrors steps) := by
  show (if (allErrors steps).isEmpty then _ else _) = _
  rw [if_neg (by simpa using h)]
  rfl

theorem errors_ofSteps : (Validation.ofSteps settings steps).errors = allErrors steps := by
  by_cases h : allErrors steps = []
  · rw [ofSteps_of_no_errors h, h, errors]
  · rw [ofSteps_of_errors h, errors]

theorem isValid_ofSteps_iff :
    (Validation.ofSteps settings steps).isValid = true ↔ allErrors steps = [] := by
  by_cases h : allErrors steps = []
  · simp [ofSteps_of_no_errors h, h, isValid]
  · simp [ofSteps_of_errors h, h, isValid]

/-- A list of steps is valid exactly if its ids are distinct, its dependencies lead to steps, and no
step depends on itself through any chain.  Otherwise it is rejected with one error for each repeated
id, one for each dependency that leads nowhere, and the cycles.  When there are no cycles the order
comes to every step, so an incomplete order is never reported. -/
theorem ofSteps_valid_or_all_errors (settings : Settings) (steps : List Step) :
    ((Validation.ofSteps settings steps).isValid = true ↔
      (steps.map Step.id).Nodup ∧
      (∀ s ∈ steps, ∀ d ∈ s.dependencies, d ∈ steps.map Step.id) ∧
      ∀ id, ¬Relation.TransGen (Precedes steps) id id) ∧
    ((Validation.ofSteps settings steps).isValid = false →
      ∃ repeated : List String,
        repeated.Nodup ∧ (∀ id, id ∈ repeated ↔ 2 ≤ (steps.map Step.id).count id) ∧
        ∃ errors ≠ [], Validation.ofSteps settings steps = .invalid errors ∧
          errors = repeated.map .duplicateStep ++
            (steps.flatMap fun s =>
              (s.dependencies.filter fun d => decide (d ∉ steps.map Step.id)).map
                (.missingDependency s.id)) ++
            (cyclesOf steps).map .cycle) ∧
    .incomplete ∉ (Validation.ofSteps settings steps).errors ∧
    (cyclesOf steps = [] →
      (StepGraph.ofSteps steps).order.length = (StepGraph.ofSteps steps).size) := by
  refine ⟨isValid_ofSteps_iff.trans allErrors_eq_nil_iff, fun hinvalid => ?_, ?_,
    length_order_of_cyclesOf_eq_nil⟩
  · have herrors : allErrors steps ≠ [] := by
      intro hnil
      rw [isValid_ofSteps_iff.mpr hnil] at hinvalid
      cases hinvalid
    refine ⟨Ids.repeated (steps.map Step.id), Ids.nodup_repeated _, fun _ => Ids.mem_repeated,
      allErrors steps, herrors, ofSteps_of_errors herrors, ?_⟩
    simp only [allErrors, structuralErrors, unresolved_eq]
  · rw [errors_ofSteps]
    exact incomplete_not_mem_allErrors

end Validation
end PlanFlow
