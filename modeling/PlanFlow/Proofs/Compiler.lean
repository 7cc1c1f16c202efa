import PlanFlow.Compiler
import PlanFlow.Proofs.Graph.Validation

/-!
# Outcomes of compilations

What the last stages of a compilation report is about calls that the catalog does not have, or about
the graph of the steps.
-/

namespace PlanFlow

namespace StepGraph

/-- A dependency is reported as missing only if it leads to no step. -/
theorem exists_of_missingDependency_mem {steps : List Step} {id missing : String}
    (h : .missingDependency id missing ∈ allErrors steps) :
    ∃ s ∈ steps, missing ∈ s.dependencies ∧ missing ∉ steps.map Step.id := by
  simp only [allErrors, structuralErrors, unresolved_eq, List.mem_append, List.mem_map,
    List.mem_flatMap, List.mem_filter, decide_eq_true_iff] at h
  rcases h with (⟨_, -, heq⟩ | ⟨s, hs, d, ⟨hd, hmissing⟩, heq⟩) | ⟨_, -, heq⟩
  · cases heq
  · obtain rfl : d = missing := (GraphError.missingDependency.inj heq).2
    exact ⟨s, hs, hd, by simpa using hmissing⟩
  · cases heq

/-- An id is reported as a duplicate exactly if it is used more than once. -/
theorem duplicateStep_mem_allErrors {steps : List Step} {id : String} :
    .duplicateStep id ∈ allErrors steps ↔ 2 ≤ (steps.map Step.id).count id := by
  simp [allErrors, structuralErrors, Ids.mem_repeated]

theorem nodup_iff_duplicateStep_not_mem {steps : List Step} :
    (steps.map Step.id).Nodup ↔ ∀ id, .duplicateStep id ∉ allErrors steps := by
  simp only [duplicateStep_mem_allErrors, List.nodup_iff_count_le_one, not_le, Nat.lt_succ_iff]

end StepGraph

namespace RuleBook

/-- The built-in rules are tried in the order in which they are listed. -/
theorem ordered_standard : standard.ordered = Rule.builtIn :=
  List.mergeSort_of_pairwise (by decide)

end RuleBook

namespace Compiler

variable {c : Compiler} {p : Plan} {r : Rule} {steps : List Step}

/-- A plan without errors goes to the last stages if a rule emits its steps. -/
theorem compile_eq_finish (hvalid : p.errors c.settings = []) (hselect : c.rules.select p = .ok r)
    (hsteps : r.steps p c.settings = .ok steps) :
    c.compile p = c.finish p r (Filter.warnings p.filters) steps := by
  rw [compile, hvalid, List.isEmpty_nil, if_pos rfl, hselect]
  simp only [hsteps]

theorem callErrors_eq {catalog : Capabilities} {s : Step} {e : PlanError}
    (h : e ∈ callErrors catalog s) :
    (∃ plugin, e = .unknownPlugin s.id plugin) ∨
      ∃ plugin operation, e = .unknownOperation s.id plugin operation := by
  unfold callErrors at h
  split at h
  · rename_i plugin operation _ _
    split at h
    · split at h
      · cases h
      · exact .inr ⟨plugin, operation, List.mem_singleton.mp h⟩
    · exact .inl ⟨plugin, List.mem_singleton.mp h⟩
  · cases h

theorem mem_errors_finish {warnings : List Warning} {e : PlanError}
    (h : e ∈ (c.finish p r warnings steps).errors) :
    (∃ s ∈ steps, e ∈ callErrors c.catalog s) ∨
      ∃ error ∈ StepGraph.allErrors steps, e = .graph error := by
  have herrors : (Validation.ofSteps c.settings steps).errors = StepGraph.allErrors steps :=
    Validation.errors_ofSteps
  rw [finish] at h
  split at h
  · rename_i hgraph
    rw [hgraph] at herrors
    rcases List.mem_append.mp h with h | h
    · exact .inl (List.mem_flatMap.mp h)
    · obtain ⟨error, herror, rfl⟩ := List.mem_map.mp h
      exact .inr ⟨error, herrors ▸ herror, rfl⟩
  · split at h
    · cases h
    · exact .inl (List.mem_flatMap.mp h)

end Compiler
end PlanFlow
