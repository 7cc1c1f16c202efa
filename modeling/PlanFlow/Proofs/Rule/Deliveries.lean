import PlanFlow.Proofs.Rule.References
import PlanFlow.Proofs.Rule.Wiring

/-!
# What a delivery waits for

Every tail puts every delivery downstream of the rows that the parts end with, be they rendered,
routed, grouped, or handed over as they are.  So where no part depends on something of its own, a
delivery waits for all sources, checks and parts that stand in no body.
-/

namespace PlanFlow

theorem Handle.nodup_dependencies (h : Handle) : h.dependencies.Nodup := by
  rw [dependencies]
  cases h.step <;> simp

namespace Rule

open Emitter
open Emission (Covers)
open Relation (TransGen)

variable {p : Plan} {settings : Settings} {rows : Handle} {steps : List Step} {x : String}

/-! ## What is handed over -/

theorem activeRendering_isSome_iff :
    p.activeRendering.isSome = true ↔ ∃ r, p.rendering = some r ∧ r.kind ≠ .none := by
  rw [Plan.activeRendering]
  cases p.rendering with
  | none => simp
  | some r => simp [Option.filter]

/-- A delivery that takes a message hands over what a step rendered if the plan asks for it. -/
theorem payloadOf_rendered (d : Delivery) (id : String) (rows : Handle) :
    payloadOf d (rendered p id) rows =
      if d.method.takesMessage && p.activeRendering.isSome then .ofStep id else rows := by
  rw [payloadOf, rendered]
  cases d.method.takesMessage <;> cases p.activeRendering <;> rfl

/-! ## From the rows to the deliveries -/

/-- What is handed over comes after the rows, rendered or not. -/
theorem upstream_payload {id : String} (hrender : renderSteps p id rows ⊆ steps)
    (hx : Upstream steps rows.dependencies x) (d : Delivery) :
    Upstream steps (payloadOf d (rendered p id) rows).dependencies x := by
  rw [payloadOf]
  split
  · cases hrendering : p.activeRendering with
    | none =>
        rw [rendered, hrendering]
        exact hx
    | some r =>
        have hstep : p.renderStep r id rows ∈ steps := hrender (by simp [renderSteps, hrendering])
        rw [rendered, hrendering]
        exact hx.through hstep (List.Subset.refl _)
  · exact hx

/-- No two deliveries have steps of the same name. -/
theorem eq_of_deliveryStepId_eq (hp : p.Sound) {key other : String} {d d' : Delivery}
    (hd : (key, d) ∈ p.keyedDeliveries) (hd' : (other, d') ∈ p.keyedDeliveries)
    (h : Plan.deliveryStepId other = Plan.deliveryStepId key) : (other, d') = (key, d) :=
  List.inj_on_of_nodup_map hp.nodup_deliveries hd' hd ((String.append_right_inj "deliver_").mp h)

theorem mem_dependencies_deliveryStep {key : String} {d : Delivery} {payload : Handle}
    {others : List String} {recipient : Option String} :
    x ∈ (p.deliveryStep key d payload others recipient).dependencies ↔
      x ∈ others ∨ x ∈ payload.dependencies := by
  rw [Plan.deliveryStep, List.mem_eraseDups, List.mem_append]

/-- A delivery lists what else it waits for, and then what produces its payload. -/
theorem dependencies_deliveryStep (key : String) (d : Delivery) {payload : Handle}
    {others : List String} (recipient : Option String) (hothers : others.Nodup)
    (hdisjoint : ∀ id ∈ others, id ∉ payload.dependencies) :
    (p.deliveryStep key d payload others recipient).dependencies =
      others ++ payload.dependencies := by
  apply Ids.eraseDups_of_nodup
  rw [List.nodup_append']
  exact ⟨hothers, payload.nodup_dependencies, fun id => hdisjoint id⟩

theorem feeds_deliveryStep {key : String} {d : Delivery} {payload : Handle} {others : List String}
    {recipient : Option String} (hstep : p.deliveryStep key d payload others recipient ∈ steps)
    (hx : Upstream steps payload.dependencies x) :
    TransGen (Feeds steps) x (Plan.deliveryStepId key) :=
  hx.feeds hstep fun _ hid => mem_dependencies_deliveryStep.mpr (.inr hid)

/-- Rendered or not, what lies upstream of the rows feeds every delivery of them. -/
theorem feeds_deliverySteps {others : String → List String}
    (hrender : renderSteps p renderId rows ⊆ steps) (hsteps : deliverySteps p rows others ⊆ steps)
    (hx : Upstream steps rows.dependencies x) :
    ∀ key ∈ p.deliveryIds, TransGen (Feeds steps) x (Plan.deliveryStepId key) := by
  intro key hkey
  obtain ⟨⟨key, d⟩, hd, rfl⟩ := List.mem_map.mp hkey
  exact feeds_deliveryStep (hsteps (List.mem_map_of_mem hd)) (upstream_payload hrender hx d)

/-- What the rule that groups emits in the end. -/
theorem groupedTail_subset_iff :
    groupedTail p rows ⊆ steps ↔ (∀ field, p.groupBy = some field → groupStep field rows ∈ steps) ∧
      groupLoopStep p ∈ steps ∧ renderSteps p groupRenderId groupRows ⊆ steps ∧
      groupDeliverySteps p ⊆ steps ∧ onceDeliverySteps p rows ⊆ steps := by
  simp only [groupedTail, List.append_subset, List.cons_subset, List.nil_subset, and_true,
    and_assoc]
  refine and_congr_left fun _ => ?_
  cases p.groupBy <;> simp

/-- Whether it takes place once per group or after the loop, a delivery waits for the rows. -/
theorem feeds_groupedTail (hgroup : p.groupBy.isSome) (htail : groupedTail p rows ⊆ steps)
    (hx : Upstream steps rows.dependencies x) :
    ∀ key ∈ p.deliveryIds, TransGen (Feeds steps) x (Plan.deliveryStepId key) := by
  obtain ⟨field, hfield⟩ := Option.isSome_iff_exists.mp hgroup
  obtain ⟨hgroupStep, hloopStep, hrender, hgroups, honce⟩ := groupedTail_subset_iff.mp htail
  -- The rows of a group come after the loop, and so after the grouping and all rows.
  have hgrouped : Upstream steps [groupId] x :=
    hx.through (hgroupStep field hfield) (List.Subset.refl _)
  have hitem : Upstream steps groupRows.dependencies x :=
    hgrouped.through hloopStep (List.Subset.refl _)
  intro key hkey
  obtain ⟨⟨key, d⟩, hd, rfl⟩ := List.mem_map.mp hkey
  by_cases hper : perGroup d = true
  · exact feeds_deliveryStep (hgroups (mem_groupDeliverySteps hd hper))
      (upstream_payload hrender hitem d)
  · have hsink := mem_onceDeliverySteps hd (by simpa using hper) rows
    exact feeds_deliveryStep (honce hsink) hx

/-- What lies upstream of the rows that the parts end with feeds every delivery. -/
theorem feeds_tail {r : Rule} (hr : r ∈ builtIn) (haccepts : r.accepts p = true)
    (htail : r.tail p rows ⊆ steps) (hx : Upstream steps rows.dependencies x) :
    ∀ key ∈ p.deliveryIds, TransGen (Feeds steps) x (Plan.deliveryStepId key) := by
  simp only [builtIn, List.mem_cons, List.not_mem_nil, or_false] at hr
  rcases hr with rfl | rfl | rfl | rfl
  · exact feeds_groupedTail (groupBy_isSome_of_accepts haccepts) htail hx
  · obtain ⟨hbefore, hdeliver⟩ := List.append_subset.mp htail
    exact feeds_deliverySteps (List.append_subset.mp hbefore).1 hdeliver hx
  · obtain ⟨hrender, hdeliver⟩ := List.append_subset.mp htail
    exact feeds_deliverySteps hrender hdeliver hx
  · obtain ⟨hrender, hdeliver⟩ := List.append_subset.mp htail
    exact feeds_deliverySteps hrender hdeliver hx

/-! ## From the parts to the rows -/

/-- Reads and filters the rows and checks them against the lookup sources. -/
def collect (p : Plan) (settings : Settings) : Emitter Handle := do
  let rows ← fetchSources p
  let rows ← emitChain p (chainFilters p) rows
  p.lookups.foldlM (fun rows lookup => deduplicate settings lookup rows) rows

/-- The parts that the rows go through once they are checked. -/
def chainAfter (p : Plan) : List Part := chainReshaping p ++ chainAi p

theorem emitParts_eq (p : Plan) (settings : Settings) :
    emitParts p settings = (do
      let rows ← collect p settings
      emitChain p (chainAfter p) rows) := by
  simp only [emitParts, ingest, enrich, collect, chainAfter, emitChain, bind_assoc,
    List.foldlM_append]

theorem mem_parts_of_mem_chainFilters {part : Part} (h : part ∈ chainFilters p) : part ∈ p.parts :=
  p.mem_parts_of_mem_chains.1 part h

theorem mem_chainParts_of_mem_chainAfter {part : Part} (h : part ∈ chainAfter p) :
    part ∈ p.chainParts := by
  rw [Plan.chainParts_eq, List.append_assoc]
  exact List.mem_append_right _ h

theorem mem_parts_of_mem_chainAfter {part : Part} (h : part ∈ chainAfter p) : part ∈ p.parts :=
  Plan.mem_parts_of_mem_chainParts (mem_chainParts_of_mem_chainAfter h)

/-- The ids of the steps that rows go through before they are rendered or delivered. -/
def chainIds (p : Plan) : List String :=
  p.fetchIds ++ p.mergeIds ++ p.lookups.flatMap Source.checkIds ++ p.chainParts.map Part.stepId

theorem chainIds_subset_emittedIds (p : Plan) : chainIds p ⊆ p.emittedIds := by
  intro id hid
  simp only [chainIds, List.mem_append, or_assoc] at hid
  rw [Plan.mem_emittedIds]
  rcases hid with hfetch | hmerge | hcheck | hpart
  · exact .inl hfetch
  · exact .inr (.inl hmerge)
  · exact .inr (.inr (.inr (.inr hcheck)))
  · exact .inr (.inr (.inl hpart))

/-- What the filters leave of what was read, and checking rows against one more lookup source keeps,
holds of the rows that are collected. -/
theorem collect_induction (hp : p.Sound) (post : List Source → Handle → Emission → Prop)
    {read : Handle → Emission → Prop} (hread : Yields (fetchSources p) .start read)
    (hfilters : ∀ rows e, Obtainable p rows → read rows e →
      Yields (emitChain p (chainFilters p) rows) e (post []))
    (hcheck : ∀ {before : List Source} {lookup : Source} {rows : Handle} {e : Emission},
      lookup ∈ p.lookups → Obtainable p rows → lookup.id ∉ e.checked → post before rows e →
        Yields (deduplicate settings lookup rows) e (post (before ++ [lookup]))) :
    Yields (collect p settings) .start fun h e' => Obtainable p h ∧ post p.lookups h e' := by
  have hnodup : (p.lookups.map Source.id).Nodup :=
    hp.nodup_sources.sublist (List.filter_sublist.map Source.id)
  refine .bind ((fetchSources_yields settings hp .start).and hread) ?_
  rintro rows₁ e₁ ⟨⟨_, _, -, -, hrows₁, loops₁, hgrowth₁⟩, hread₁⟩
  refine .bind ((emitChain_yields settings hp (fun _ => mem_parts_of_mem_chainFilters) hrows₁
    e₁).and (hfilters rows₁ e₁ hrows₁ hread₁)) ?_
  rintro rows₂ e₂ ⟨⟨_, -, hrows₂, loops₂, hgrowth₂⟩, hpost⟩
  -- Nothing was checked up to here, so every lookup source adds its steps.
  have hunchecked : ∀ l ∈ p.lookups, l.id ∉ e₂.checked := by
    intro l _
    rw [(hgrowth₁.trans hgrowth₂).checked]
    simp [Emission.start]
  exact deduplicateAll_induction post hcheck (fun _ => id) hnodup hrows₂ hunchecked hpost

/-- Whatever the filters leave of what was read, the rows that are collected cover the checks and
that. -/
theorem collect_covers (hp : p.Sound) {ids : List String}
    (hfilters : ∀ rows e, Obtainable p rows → e.Covers (p.fetchIds ++ p.mergeIds) rows →
      Yields (emitChain p (chainFilters p) rows) e fun h e' => e'.Covers ids h) :
    Yields (collect p settings) .start fun h e' =>
      Obtainable p h ∧ e'.Covers (ids ++ p.lookups.flatMap Source.checkIds) h := by
  refine collect_induction hp (fun before h e =>
    e.Covers (ids ++ before.flatMap Source.checkIds) h) (fetchSources_covers hp .start) ?_ ?_
  · intro rows e hrows hcovers
    rw [List.flatMap_nil, List.append_nil]
    exact hfilters rows e hrows hcovers
  · intro before lookup rows e _ _ hunchecked hcovers
    rw [List.flatMap_append, List.flatMap_singleton, ← List.append_assoc]
    exact deduplicate_covers hunchecked hcovers

/-- Where no part depends on something of its own, the rows that the parts end with cover all that
they went through. -/
theorem emitParts_covers (settings : Settings) (hp : p.Sound)
    (hdepends : ∀ part ∈ p.parts, part.dependsOn = []) :
    Yields (emitParts p settings) .start fun h e' => e'.Covers (chainIds p) h := by
  have hfilters : ∀ part ∈ chainFilters p, part ∈ p.parts := fun _ => mem_parts_of_mem_chainFilters
  have hafter : ∀ part ∈ chainAfter p, part ∈ p.parts := fun _ => mem_parts_of_mem_chainAfter
  rw [emitParts_eq]
  refine .bind (collect_covers hp fun rows e hrows hcovers => emitChain_covers hp hfilters
    (fun part hpart => hdepends part (hfilters part hpart)) hrows hcovers) ?_
  rintro rows e ⟨hrows, hcovers⟩
  refine (emitChain_covers hp hafter (fun part hpart => hdepends part (hafter part hpart)) hrows
    hcovers).mono fun h e' hall x hx => hall x ?_
  rw [chainIds, Plan.chainParts_eq, List.append_assoc (chainFilters p), List.map_append] at hx
  simp only [List.mem_append] at hx ⊢
  rcases hx with (hread | hcheck) | hfilter | hpart
  · exact .inl (.inl (.inl hread))
  · exact .inl (.inr hcheck)
  · exact .inl (.inl (.inr hfilter))
  · exact .inr hpart

/-! ## All steps -/

theorem exists_steps_of_parts (hp : p.Sound) {r : Rule} (hr : r ∈ builtIn)
    (haccepts : r.accepts p = true) {post : Handle → Emission → Prop}
    (hparts : Yields (emitParts p settings) .start post) :
    ∃ rows e steps, post rows e ∧ r.steps p settings = .ok steps ∧ e.steps ⊆ steps ∧
      r.tail p rows ⊆ steps := by
  obtain ⟨rows, e, steps, hpost, hsteps, hsub, htail, -⟩ := exists_steps_wired hp hr haccepts hparts
  exact ⟨rows, e, steps, hpost, hsteps, hsub, htail⟩

/-- If a plan has no errors and none of its parts depends on something of its own, then by every
built-in rule that accepts the plan each delivery waits, directly or through others, for each source
that is read, for the merge of several sources, for the three steps of each lookup source, and for
each part that stands in no body, whatever loops the plan has.  All of these are emitted. -/
theorem deliveries_wait_for_chain {p : Plan} {settings : Settings}
    (hvalid : p.errors settings = []) (hdepends : ∀ part ∈ p.parts, part.dependsOn = [])
    {r : Rule} (hr : r ∈ builtIn) (haccepts : r.accepts p = true) :
    ∃ steps, r.steps p settings = .ok steps ∧
      ∀ id ∈
          (p.candidates.filter fun s => s.readOperation.isSome).map (fun s => "fetch_" ++ s.id) ++
          (if 2 ≤ p.candidates.length then ["merge_sources"] else []) ++
          p.lookups.flatMap (fun s =>
            ["read_reference_" ++ s.id, "extract_ids_" ++ s.id, "filter_new_items_" ++ s.id]) ++
          (p.parts.filter fun part => !p.inBody part.id).map Part.stepId,
        id ∈ steps.map Step.id ∧
          ∀ key ∈ p.deliveryIds, TransGen (Feeds steps) id ("deliver_" ++ key) := by
  have hp := Plan.sound_of_errors hvalid
  obtain ⟨rows, e, steps, hcovers, hsteps, hparts, htail⟩ :=
    exists_steps_of_parts hp hr haccepts (emitParts_covers settings hp hdepends)
  obtain ⟨_, steps', hsteps', -, -, hids⟩ := exists_steps settings hp hr haccepts
  obtain rfl := Except.ok.inj (hsteps.symm.trans hsteps')
  refine ⟨steps, hsteps, fun id hid => ⟨?_, ?_⟩⟩
  · exact hids.mem_iff.mpr (List.mem_append_left _ (chainIds_subset_emittedIds p hid))
  · exact feeds_tail hr haccepts htail ((hcovers id hid).mono hparts)

/-- The plan for orders in which nothing leaves the chain: the open orders go through the loop, and
the transform takes what is left of them. -/
def chainedOrdersPlan : Plan :=
  { ordersPlan with
    transforms := [⟨"short", .limit, [], []⟩]
    loops := [⟨"each", "open", "order", ["mood"], none, none⟩,
      ⟨"again", "each", "result", [], none, none⟩] }

theorem deliveries_wait_for_chain_chainedOrdersPlan :
    chainedOrdersPlan.errors default = [] ∧
      (∀ part ∈ chainedOrdersPlan.parts, part.dependsOn = []) ∧
      routed ∈ builtIn ∧ routed.accepts chainedOrdersPlan = true ∧
      ∃ steps, routed.steps chainedOrdersPlan default = .ok steps ∧
        ∀ id ∈ ["fetch_orders", "merge_sources", "read_reference_known", "extract_ids_known",
            "filter_new_items_known", "filter_open", "transform_short"],
          id ∈ steps.map Step.id ∧ TransGen (Feeds steps) id "deliver_mail" ∧
            TransGen (Feeds steps) id "deliver_delivery_2" := by
  have hvalid : chainedOrdersPlan.errors default = [] := by decide
  have hdepends : ∀ part ∈ chainedOrdersPlan.parts, part.dependsOn = [] := by decide
  have hmem : routed ∈ builtIn := by simp [builtIn]
  have haccepts : routed.accepts chainedOrdersPlan = true := rfl
  have hkeys : chainedOrdersPlan.deliveryIds = ["mail", "delivery_2"] := by decide
  obtain ⟨steps, hsteps, hall⟩ := deliveries_wait_for_chain hvalid hdepends hmem haccepts
  rw [hkeys] at hall
  refine ⟨hvalid, hdepends, hmem, haccepts, steps, hsteps, fun id hid => ?_⟩
  obtain ⟨hemitted, hdeliver⟩ := hall id hid
  exact ⟨hemitted, hdeliver "mail" (by simp), hdeliver "delivery_2" (by simp)⟩

end Rule
end PlanFlow
