import PlanFlow.Rule.BuiltIn
import PlanFlow.Proofs.Emission.Ingestion

/-!
# The steps of a rule

Every built-in rule emits the parts of the plan first, and then steps that the rows and the plan
determine: its tail.  No tail can fail.  In a sound plan a rule that accepts the plan therefore
emits steps of the parts, its tail, and the loops that were left, and these steps account for every
part, loop and source of the plan.
-/

namespace PlanFlow
namespace Rule

open Emitter

/-! ## Tails -/

/-- What was rendered by a step, if the plan asks for it. -/
def rendered (p : Plan) (id : String) : Option Handle :=
  p.activeRendering.map fun _ => .ofStep id

/-- The step that renders rows, if the plan asks for it. -/
def renderSteps (p : Plan) (id : String) (rows : Handle) : List Step :=
  p.activeRendering.toList.map fun r => p.renderStep r id rows

/-- The steps of all deliveries, each of which waits for the steps that belong to its id. -/
def deliverySteps (p : Plan) (rows : Handle) (others : String → List String) : List Step :=
  p.keyedDeliveries.map fun (key, d) =>
    p.deliveryStep key d (payloadOf d (rendered p renderId) rows) (others key) d.recipient

/-- The steps of the deliveries that take place once per group. -/
def groupDeliverySteps (p : Plan) : List Step :=
  (p.keyedDeliveries.filter fun (_, d) => perGroup d).map fun (key, d) =>
    p.deliveryStep key d (payloadOf d (rendered p groupRenderId) groupRows) [] (groupRecipient d)

/-- The steps of the deliveries that take place after the loop over the groups. -/
def onceDeliverySteps (p : Plan) (rows : Handle) : List Step :=
  (p.keyedDeliveries.filter fun (_, d) => !perGroup d).map fun (key, d) =>
    p.deliveryStep key d rows [groupLoopId] d.recipient

theorem mem_groupDeliverySteps {p : Plan} {key : String} {d : Delivery}
    (hd : (key, d) ∈ p.keyedDeliveries) (hper : perGroup d = true) :
    p.deliveryStep key d (payloadOf d (rendered p groupRenderId) groupRows) [] (groupRecipient d) ∈
      groupDeliverySteps p :=
  List.mem_map.mpr ⟨(key, d), List.mem_filter.mpr ⟨hd, hper⟩, rfl⟩

theorem mem_onceDeliverySteps {p : Plan} {key : String} {d : Delivery}
    (hd : (key, d) ∈ p.keyedDeliveries) (honce : perGroup d = false) (rows : Handle) :
    p.deliveryStep key d rows [groupLoopId] d.recipient ∈ onceDeliverySteps p rows :=
  List.mem_map.mpr ⟨(key, d), List.mem_filter.mpr ⟨hd, by simpa using honce⟩, rfl⟩

/-- The tail of the rules that render and deliver all rows. -/
def linearTail (p : Plan) (rows : Handle) : List Step :=
  renderSteps p renderId rows ++ deliverySteps p rows fun _ => []

/-- The tail of the rule that routes. -/
def routedTail (p : Plan) (rows : Handle) : List Step :=
  renderSteps p renderId rows ++ (p.branches.map fun b => routeStep b rows) ++
    deliverySteps p rows (routesTo p)

/-- The tail of the rule that groups. -/
def groupedTail (p : Plan) (rows : Handle) : List Step :=
  (p.groupBy.toList.map fun field => groupStep field rows) ++ [groupLoopStep p] ++
    renderSteps p groupRenderId groupRows ++ groupDeliverySteps p ++ onceDeliverySteps p rows

/-- The steps that a rule emits after the parts of a plan. -/
def tail (r : Rule) (p : Plan) (rows : Handle) : List Step :=
  if r.name = grouped.name then groupedTail p rows
  else if r.name = routed.name then routedTail p rows
  else linearTail p rows

/-! ## Ids of tails -/

/-- The id of the step that renders rows, if the plan asks for it. -/
def renderIds (p : Plan) (id : String) : List String :=
  if p.activeRendering.isSome then [id] else []

/-- The ids of the steps of the deliveries. -/
def deliverIds (p : Plan) : List String := p.deliveryIds.map Plan.deliveryStepId

/-- The ids of the steps of a tail: those of the deliveries, those of the branches if the rule
routes, those of the groups if it groups, and that of the rendering. -/
def tailIds (r : Rule) (p : Plan) : List String :=
  deliverIds p ++ (if r.name = routed.name then p.branches.map routeId else []) ++
    (if r.name = grouped.name then [groupId, groupLoopId] else []) ++
    renderIds p (if r.name = grouped.name then groupRenderId else renderId)

section Ids

variable {p : Plan}

theorem map_id_renderSteps (p : Plan) (id : String) (rows : Handle) :
    (renderSteps p id rows).map Step.id = renderIds p id := by
  rw [renderSteps, renderIds]
  cases p.activeRendering with
  | none => rfl
  | some r => rfl

theorem map_id_deliverySteps (p : Plan) (rows : Handle) (others : String → List String) :
    (deliverySteps p rows others).map Step.id = deliverIds p := by
  rw [deliverySteps, deliverIds, Plan.deliveryIds, List.map_map, List.map_map]
  rfl

/-- The deliveries once per group and those after the loop are all deliveries. -/
theorem map_id_groupDeliverySteps (p : Plan) (rows : Handle) :
    ((groupDeliverySteps p ++ onceDeliverySteps p rows).map Step.id).Perm (deliverIds p) := by
  have hall : (groupDeliverySteps p ++ onceDeliverySteps p rows).map Step.id =
      ((p.keyedDeliveries.filter fun (_, d) => perGroup d) ++
        p.keyedDeliveries.filter fun (_, d) => !perGroup d).map
          fun (key, _) => Plan.deliveryStepId key := by
    rw [groupDeliverySteps, onceDeliverySteps, List.map_append, List.map_append, List.map_map,
      List.map_map]
    rfl
  rw [hall, deliverIds, Plan.deliveryIds, List.map_map]
  exact (List.filter_append_perm (fun (_, d) => perGroup d) p.keyedDeliveries).map _

theorem map_id_linearTail (p : Plan) (rows : Handle) :
    ((linearTail p rows).map Step.id).Perm (deliverIds p ++ renderIds p renderId) := by
  rw [linearTail, List.map_append, map_id_renderSteps, map_id_deliverySteps]
  exact List.perm_append_comm

theorem map_id_routedTail (p : Plan) (rows : Handle) :
    ((routedTail p rows).map Step.id).Perm
      (deliverIds p ++ p.branches.map routeId ++ renderIds p renderId) := by
  rw [routedTail, List.map_append, List.map_append, map_id_renderSteps, map_id_deliverySteps,
    List.map_map]
  refine List.perm_append_comm.trans ?_
  rw [List.append_assoc]
  exact List.perm_append_comm.append_left _

theorem map_id_groupedTail (hgroup : p.groupBy.isSome) (rows : Handle) :
    ((groupedTail p rows).map Step.id).Perm
      (deliverIds p ++ [groupId, groupLoopId] ++ renderIds p groupRenderId) := by
  obtain ⟨field, hfield⟩ := Option.isSome_iff_exists.mp hgroup
  have hids : (groupedTail p rows).map Step.id = [groupId, groupLoopId] ++
      renderIds p groupRenderId ++
        (groupDeliverySteps p ++ onceDeliverySteps p rows).map Step.id := by
    rw [groupedTail, hfield, ← map_id_renderSteps p groupRenderId groupRows]
    simp only [List.map_append, List.append_assoc]
    rfl
  rw [hids, List.append_assoc (deliverIds p)]
  exact ((map_id_groupDeliverySteps p rows).append_left _).trans List.perm_append_comm

theorem groupBy_isSome_of_accepts (h : grouped.accepts p = true) : p.groupBy.isSome := by
  simp only [grouped, Bool.and_eq_true] at h
  exact h.1.2

theorem map_id_tail {r : Rule} (hr : r ∈ builtIn) (haccepts : r.accepts p = true) (rows : Handle) :
    ((r.tail p rows).map Step.id).Perm (r.tailIds p) := by
  simp only [builtIn, List.mem_cons, List.not_mem_nil, or_false] at hr
  rcases hr with rfl | rfl | rfl | rfl
  · have h := map_id_groupedTail (groupBy_isSome_of_accepts haccepts) rows
    simpa [tail, tailIds, grouped, routed] using h
  · have h := map_id_routedTail p rows
    simpa [tail, tailIds, grouped, routed] using h
  · have h := map_id_linearTail p rows
    simpa [tail, tailIds, grouped, routed, enriched] using h
  · have h := map_id_linearTail p rows
    simpa [tail, tailIds, grouped, routed, simple] using h

end Ids

section Runs

variable {p : Plan} {settings : Settings} {rows : Handle} {e e' : Emission}

theorem run_render (p : Plan) (id : String) (rows : Handle) (e : Emission) :
    (render p id rows).run e = .ok (rendered p id, e.addSteps (renderSteps p id rows)) := by
  rw [render, rendered, renderSteps]
  cases p.activeRendering with
  | none =>
      rw [Option.toList_none, List.map_nil, Emission.addSteps_nil]
      rfl
  | some r => rfl

/-- The parts of a plan are emitted by all rules in the same way. -/
def emitParts (p : Plan) (settings : Settings) : Emitter Handle := do
  let rows ← ingest p settings
  enrich p rows

/-- What a rule does after the parts runs from where they end. -/
theorem run_emitParts_bind (hparts : (emitParts p settings).run e = .ok (rows, e'))
    (rest : Handle → Emitter Unit) :
    (ingest p settings >>= fun rows => enrich p rows >>= rest).run e = (rest rows).run e' := by
  rw [← bind_assoc]
  exact run_bind_of_run hparts rest

theorem run_emitLinear (hparts : (emitParts p settings).run e = .ok (rows, e')) :
    (emitLinear p settings).run e = .ok ((), e'.addSteps (linearTail p rows)) := by
  refine (run_emitParts_bind hparts _).trans ?_
  refine (run_bind_of_run (run_render p renderId rows e') _).trans ?_
  refine (run_forM_push _ _ _ (fun _ _ => rfl) _).trans ?_
  rw [Emission.addSteps_addSteps]
  rfl

theorem run_routed (hparts : (emitParts p settings).run e = .ok (rows, e')) :
    (routed.emit p settings).run e = .ok ((), e'.addSteps (routedTail p rows)) := by
  refine (run_emitParts_bind hparts _).trans ?_
  refine (run_bind_of_run (run_render p renderId rows e') _).trans ?_
  refine (run_bind_of_run (run_forM_push _ _ (fun b => routeStep b rows) (fun _ _ => rfl) _)
    _).trans ?_
  refine (run_forM_push _ _ _ (fun _ _ => rfl) _).trans ?_
  simp only [Emission.addSteps_addSteps, routedTail, List.append_assoc]
  rfl

/-- The rule that groups accepts only plans that name the field by which rows are grouped. -/
theorem run_grouped (hgroup : p.groupBy.isSome)
    (hparts : (emitParts p settings).run e = .ok (rows, e')) :
    (grouped.emit p settings).run e = .ok ((), e'.addSteps (groupedTail p rows)) := by
  obtain ⟨field, hfield⟩ := Option.isSome_iff_exists.mp hgroup
  show (require (.noMatchingRule p.shape) p.groupBy >>= _).run e = _
  rw [require_of_eq_some hfield, pure_bind]
  refine (run_emitParts_bind hparts _).trans ?_
  refine (run_bind_of_run (run_push (groupStep field rows) e') _).trans ?_
  refine (run_bind_of_run (run_push (groupLoopStep p) _) _).trans ?_
  refine (run_bind_of_run (run_render p groupRenderId groupRows _) _).trans ?_
  refine (run_bind_of_run (run_forM_push (p.keyedDeliveries.filter fun (_, d) => perGroup d) _
    (fun (key, d) => p.deliveryStep key d (payloadOf d (rendered p groupRenderId) groupRows) []
      (groupRecipient d)) (fun _ _ => rfl) _) _).trans ?_
  refine (run_forM_push _ _ _ (fun _ _ => rfl) _).trans ?_
  simp only [Emission.addSteps_addSteps, groupedTail, hfield, List.append_assoc]
  rfl

/-- A built-in rule that accepts a plan emits its tail after the parts. -/
theorem run_emit {r : Rule} (hr : r ∈ builtIn) (haccepts : r.accepts p = true)
    (hparts : (emitParts p settings).run e = .ok (rows, e')) :
    (r.emit p settings).run e = .ok ((), e'.addSteps (r.tail p rows)) := by
  simp only [builtIn, List.mem_cons, List.not_mem_nil, or_false] at hr
  rcases hr with rfl | rfl | rfl | rfl
  · exact run_grouped (groupBy_isSome_of_accepts haccepts) hparts
  · exact run_routed hparts
  · exact run_emitLinear hparts
  · exact run_emitLinear hparts

end Runs

/-! ## All steps -/

/-- The steps of a rule are those of the parts, its tail, and the loops that were left. -/
theorem steps_of_runs {p : Plan} {settings : Settings} {r : Rule} (hr : r ∈ builtIn)
    (haccepts : r.accepts p = true) {rows : Handle} {e e' : Emission}
    (hparts : (emitParts p settings).run .start = .ok (rows, e))
    (hfinish : (finish p).run (e.addSteps (r.tail p rows)) = .ok ((), e')) :
    r.steps p settings = .ok e'.steps := by
  have hrun : (do r.emit p settings; finish p : Emitter Unit).run .start = .ok ((), e') := by
    rw [run_bind_of_run (run_emit hr haccepts hparts)]
    exact hfinish
  rw [steps, hrun]
  rfl

/-- In a sound plan a built-in rule that accepts the plan emits its tail, on the rows that the parts
end with, among the steps of the parts.  These are made at the sites of the plan, each at one. -/
theorem exists_sites_run {p : Plan} (settings : Settings) (hp : p.Sound) {r : Rule}
    (hr : r ∈ builtIn) (haccepts : r.accepts p = true) :
    ∃ (rows : Handle) (e : Emission) (before after : List Site),
      (emitParts p settings).run .start = .ok (rows, e) ∧
      r.steps p settings =
        .ok (before.map Site.step ++ (r.tail p rows ++ after.map Site.step)) ∧
      Obtainable p rows ∧ (∀ site ∈ before ++ after, Sited p settings site) ∧
      p.PartSites settings rows (before ++ after) := by
  have hyields : Yields (emitParts p settings) .start _ := ingest_enrich_yields hp rfl
  obtain ⟨rows, e₁, hparts, hrows, own, loops₁, hown, hgrowth₁⟩ := hyields
  obtain ⟨_, e₂, hfinish, ⟨loops₂, hgrowth₂⟩, hall⟩ :=
    finish_yields settings hp (e₁.addSteps (r.tail p rows))
  obtain ⟨before, bodies₁, hsteps₁, hsited₁, hbodies₁, hperm₁⟩ := hgrowth₁.steps
  obtain ⟨after, bodies₂, hsteps₂, hsited₂, hbodies₂, hperm₂⟩ := hgrowth₂.steps
  -- The tail stands in the middle; without it the emission grew twice.
  obtain ⟨_, -, hafter⟩ := hgrowth₂.of_addSteps
  have hloops := (hgrowth₁.trans hafter).perm_loops hp hall
  obtain ⟨bodies, hbodies, hflat⟩ :=
    List.perm_comp_forall₂ hloops.symm (List.rel_append hbodies₁ hbodies₂)
  refine ⟨rows, e₁, before, after, hparts, ?_, hrows,
    List.forall_mem_append.mpr ⟨hsited₁, hsited₂⟩, own, bodies, hown, hbodies, ?_⟩
  · rw [steps_of_runs hr haccepts hparts hfinish, hsteps₂, Emission.addSteps, hsteps₁,
      ← List.append_assoc]
    rfl
  · refine (hperm₁.append hperm₂).trans ?_
    rw [List.nil_append, List.append_assoc, ← List.flatten_append]
    exact hflat.symm.flatten.append_left own

/-- In a sound plan a built-in rule that accepts the plan emits steps of the parts, and its tail on
the rows that the parts end with.  Their ids are exactly those that the plan and the rule give rise
to. -/
theorem exists_steps_run {p : Plan} (settings : Settings) (hp : p.Sound) {r : Rule}
    (hr : r ∈ builtIn) (haccepts : r.accepts p = true) :
    ∃ rows e steps, (emitParts p settings).run .start = .ok (rows, e) ∧
      r.steps p settings = .ok steps ∧ Obtainable p rows ∧ r.tail p rows ⊆ steps ∧
      (∀ s ∈ steps, Emitted p settings s ∨ s ∈ r.tail p rows) ∧
      (steps.map Step.id).Perm (p.emittedIds ++ r.tailIds p) := by
  obtain ⟨rows, e, before, after, hparts, hsteps, hrows, hsited, hsites⟩ :=
    exists_sites_run settings hp hr haccepts
  refine ⟨rows, e, _, hparts, hsteps, hrows, ?_, fun s hs => ?_, ?_⟩
  · exact List.subset_append_of_subset_right _ (List.subset_append_left _ _)
  · rw [List.mem_append, List.mem_append, or_left_comm, ← List.mem_append, ← List.map_append] at hs
    refine hs.symm.imp_left fun hs => ?_
    obtain ⟨site, hsite, rfl⟩ := List.mem_map.mp hs
    exact ⟨site, hsited site hsite, rfl⟩
  · have hmiddle : (before.map Site.step ++ (r.tail p rows ++ after.map Site.step)).Perm
        ((before ++ after).map Site.step ++ r.tail p rows) := by
      rw [List.map_append, List.append_assoc]
      exact List.perm_append_comm.append_left _
    refine (hmiddle.map Step.id).trans ?_
    rw [List.map_append, List.map_map]
    exact (map_id_partSites hsites).append (map_id_tail hr haccepts rows)

/-- What is known of the steps where it does not matter where the rows come from. -/
theorem exists_steps_tail {p : Plan} (settings : Settings) (hp : p.Sound) {r : Rule}
    (hr : r ∈ builtIn) (haccepts : r.accepts p = true) :
    ∃ rows steps, r.steps p settings = .ok steps ∧ Obtainable p rows ∧ r.tail p rows ⊆ steps ∧
      (∀ s ∈ steps, Emitted p settings s ∨ s ∈ r.tail p rows) ∧
      (steps.map Step.id).Perm (p.emittedIds ++ r.tailIds p) := by
  obtain ⟨rows, _, steps, -, hsteps⟩ := exists_steps_run settings hp hr haccepts
  exact ⟨rows, steps, hsteps⟩

/-- What is known of the steps where it does not matter that the tail is among them. -/
theorem exists_steps {p : Plan} (settings : Settings) (hp : p.Sound) {r : Rule} (hr : r ∈ builtIn)
    (haccepts : r.accepts p = true) :
    ∃ rows steps, r.steps p settings = .ok steps ∧ Obtainable p rows ∧
      (∀ s ∈ steps, Emitted p settings s ∨ s ∈ r.tail p rows) ∧
      (steps.map Step.id).Perm (p.emittedIds ++ r.tailIds p) := by
  obtain ⟨rows, steps, hsteps, hrows, -, hshape, hids⟩ := exists_steps_tail settings hp hr haccepts
  exact ⟨rows, steps, hsteps, hrows, hshape, hids⟩

end Rule
end PlanFlow
