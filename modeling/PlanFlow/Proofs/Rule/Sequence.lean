import PlanFlow.Proofs.Emission.Founded
import PlanFlow.Proofs.Rule.Deliveries

/-!
# Parts and tails in order

Where no part depends on something of its own, the parts of a plan are emitted in order, whatever
loops they bring along.  Every tail is in order after the rows: what is rendered comes before what
is delivered, and so do the branches and the loop over the groups.
-/

namespace PlanFlow

/-- Steps that refer only to what is known are in any order. -/
theorem InOrderAfter.of_references {known : List String} {steps : List Step}
    (h : ∀ s ∈ steps, s.references ⊆ known) : InOrderAfter known steps :=
  .of_forall fun s hs => List.Subset.trans (List.subset_append_left _ _) (h s hs)

namespace Rule

open Emitter

variable {p : Plan} {rows : Handle} {known : List String}

/-- What the parts of a plan are turned into is in order, and the rows that they end with are
there. -/
theorem emitParts_orderly (settings : Settings) (hp : p.Sound)
    (hdepends : ∀ part ∈ p.parts, part.dependsOn = []) :
    Yields (emitParts p settings) .start fun h e' => e'.Orderly h := by
  have hfilters : ∀ part ∈ chainFilters p, part ∈ p.parts := fun _ => mem_parts_of_mem_chainFilters
  have hafter : ∀ part ∈ chainAfter p, part ∈ p.parts := fun _ => mem_parts_of_mem_chainAfter
  have hstart : InOrder Emission.start.steps := inOrder_iff.mpr (.of_forall nofun)
  have hcollect : Yields (collect p settings) .start fun h e' => Obtainable p h ∧ e'.Orderly h :=
    collect_induction hp (fun _ h e => e.Orderly h) (fetchSources_orderly hp hdepends hstart)
      (fun _ _ hrows horderly => emitChain_orderly hp hdepends hfilters hrows horderly)
      fun _ _ hunchecked horderly => deduplicate_orderly hunchecked horderly
  rw [emitParts_eq]
  refine .bind hcollect ?_
  rintro rows e ⟨hrows, horderly⟩
  exact emitChain_orderly hp hdepends hafter hrows horderly

/-! ## Tails -/

theorem renderSteps_inOrder {id : String} (hrows : rows.dependencies ⊆ known) :
    InOrderAfter known (renderSteps p id rows) :=
  .of_references (references_renderSteps_subset hrows)

/-- All deliveries come after what is rendered, and after the steps that they are given. -/
theorem deliverySteps_inOrder {others : String → List String} (hrows : rows.dependencies ⊆ known)
    (hrender : renderIds p renderId ⊆ known) (hothers : ∀ key, others key ⊆ known) :
    InOrderAfter known (deliverySteps p rows others) :=
  .of_references (references_deliverySteps_subset hrows hrender hothers)

theorem linearTail_inOrder (p : Plan) (rows : Handle) :
    InOrderAfter rows.dependencies (linearTail p rows) := by
  have hrender : InOrderAfter rows.dependencies (renderSteps p renderId rows) :=
    renderSteps_inOrder (List.Subset.refl _)
  refine hrender.append (deliverySteps_inOrder (List.subset_append_left _ _) ?_ ?_)
    (List.Subset.refl _)
  · rw [map_id_renderSteps]
    exact List.subset_append_right _ _
  · exact fun _ => List.nil_subset _

theorem routedTail_inOrder (p : Plan) (rows : Handle) :
    InOrderAfter rows.dependencies (routedTail p rows) := by
  have hrender : InOrderAfter rows.dependencies (renderSteps p renderId rows) :=
    renderSteps_inOrder (List.Subset.refl _)
  have hroutes : InOrderAfter rows.dependencies (p.branches.map fun b => routeStep b rows) :=
    .of_forall (List.forall_mem_map.mpr fun _ _ => List.Subset.refl _)
  refine (hrender.append hroutes (List.subset_append_left _ _)).append
    (deliverySteps_inOrder (List.subset_append_left _ _) ?_ fun key => ?_) (List.Subset.refl _)
  · rw [List.map_append, map_id_renderSteps]
    exact List.subset_append_of_subset_right _ (List.subset_append_left _ _)
  · rw [List.map_append, List.map_map]
    apply List.subset_append_of_subset_right
    exact List.subset_append_of_subset_right _ (routesTo_subset p key)

/-- The rows of a group are there once the loop over the groups is, and sinks of data come after
it. -/
theorem groupedTail_inOrder (hgroup : p.groupBy.isSome) (rows : Handle) :
    InOrderAfter rows.dependencies (groupedTail p rows) := by
  obtain ⟨field, hfield⟩ := Option.isSome_iff_exists.mp hgroup
  have hloop : InOrderAfter rows.dependencies [groupStep field rows, groupLoopStep p] := by
    have hfirst : InOrderAfter rows.dependencies [groupStep field rows] :=
      .of_forall (List.forall_mem_singleton.mpr (List.Subset.refl _))
    have hsecond : InOrderAfter [groupId] [groupLoopStep p] :=
      .of_forall (List.forall_mem_singleton.mpr (List.Subset.refl _))
    exact hfirst.append hsecond (List.subset_append_right _ _)
  have hrender : InOrderAfter [groupLoopId] (renderSteps p groupRenderId groupRows) :=
    renderSteps_inOrder (List.Subset.refl _)
  have hgroups : InOrderAfter ([groupLoopId] ++ renderIds p groupRenderId)
      (groupDeliverySteps p) := by
    refine .of_references (List.forall_mem_map.mpr fun _ _ => ?_)
    exact references_deliveryStep_subset (List.nil_subset _)
      (payloadOf_dependencies_subset _ (List.subset_append_left _ _) (List.subset_append_right _ _))
  have honce : InOrderAfter (rows.dependencies ++ [groupLoopId]) (onceDeliverySteps p rows) := by
    refine .of_references (List.forall_mem_map.mpr fun _ _ => ?_)
    exact references_deliveryStep_subset (List.subset_append_right _ _)
      (List.subset_append_left _ _)
  rw [groupedTail, hfield]
  refine ((hloop.append hrender ?_).append hgroups ?_).append honce ?_
  · exact List.subset_append_of_subset_right _ (by simp [groupLoopStep])
  · rw [List.map_append, map_id_renderSteps, ← List.append_assoc]
    refine List.append_subset.mpr ⟨?_, List.subset_append_right _ _⟩
    exact List.subset_append_of_subset_left _
      (List.subset_append_of_subset_right _ (by simp [groupLoopStep]))
  · refine List.append_subset.mpr ⟨List.subset_append_left _ _, ?_⟩
    exact List.subset_append_of_subset_right _ (by simp [groupLoopStep])

/-- A tail is in order after the rows. -/
theorem tail_inOrder {r : Rule} (hr : r ∈ builtIn) (haccepts : r.accepts p = true) (rows : Handle) :
    InOrderAfter rows.dependencies (r.tail p rows) := by
  simp only [builtIn, List.mem_cons, List.not_mem_nil, or_false] at hr
  rcases hr with rfl | rfl | rfl | rfl
  · exact groupedTail_inOrder (groupBy_isSome_of_accepts haccepts) rows
  · exact routedTail_inOrder p rows
  · exact linearTail_inOrder p rows
  · exact linearTail_inOrder p rows

end Rule
end PlanFlow
