import PlanFlow.Proofs.Emission.Loops

/-!
# The loops that are left

A loop is marked before its body is visited, so there are fewer loops that are not marked inside of
it than there were outside.  What is marked already is passed over.
-/

namespace PlanFlow

namespace Emission

variable {p : Plan} {e e' : Emission}

/-- The loops of a plan that are not marked. -/
def unmarked (e : Emission) (p : Plan) : List Loop :=
  p.loops.filter fun l => !e.loops.contains l.id

theorem length_unmarked_le (p : Plan) (h : e.loops ⊆ e'.loops) :
    (e'.unmarked p).length ≤ (e.unmarked p).length := by
  refine (List.monotone_filter_right _ fun l hl => ?_).length_le
  simp only [Bool.not_eq_true', List.contains_eq_mem, decide_eq_false_iff_not] at hl ⊢
  exact fun hmem => hl (h hmem)

/-- A loop that is marked is no longer among those that are left, nor is another one of its id. -/
theorem unmarked_addLoop (e : Emission) (p : Plan) (id : String) :
    (e.addLoop id).unmarked p = (e.unmarked p).filter fun l => l.id != id := by
  rw [unmarked, unmarked, List.filter_filter]
  refine List.filter_congr fun l _ => ?_
  by_cases hid : l.id = id <;> simp [addLoop, hid]

theorem length_unmarked_addLoop_lt {l : Loop} (hl : l ∈ p.loops) (hunmarked : l.id ∉ e.loops) :
    ((e.addLoop l.id).unmarked p).length < (e.unmarked p).length := by
  rw [unmarked_addLoop, List.length_filter_lt_length_iff_exists]
  exact ⟨l, List.mem_filter.mpr ⟨hl, by simpa using hunmarked⟩, by simp⟩

end Emission

namespace Emitter

variable {p : Plan} {loopsOver : String → Handle → Emitter Handle} {output result : Handle}
variable {e : Emission}

theorem run_emitUnlessMarked_of_marked {l : Loop} (hmarked : l.id ∈ e.loops) :
    (emitUnlessMarked p loopsOver output result l).run e = .ok (result, e) :=
  run_unlessMarked_of_marked hmarked

theorem run_emitUnlessMarked_of_unmarked {l : Loop} (hunmarked : l.id ∉ e.loops) :
    (emitUnlessMarked p loopsOver output result l).run e =
      (emitLoop p loopsOver l output).run e :=
  run_unlessMarked_of_unmarked hunmarked

/-- Nothing happens for loops that are marked. -/
theorem run_of_all_marked {ls : List Loop} (hall : ∀ l ∈ ls, l.id ∈ e.loops) :
    (ls.foldlM (emitUnlessMarked p loopsOver output) result).run e = .ok (result, e) := by
  induction ls with
  | nil => rfl
  | cons l rest ih =>
      rw [List.forall_mem_cons] at hall
      rw [List.foldlM_cons, run_bind_of_run (run_emitUnlessMarked_of_marked hall.1)]
      exact ih hall.2

end Emitter
end PlanFlow
