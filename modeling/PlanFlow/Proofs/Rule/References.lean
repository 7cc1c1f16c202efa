import PlanFlow.Proofs.Compiler
import PlanFlow.Proofs.Rule.Tail

/-!
# References between steps

Steps are wired to the places where data will be found before the steps that produce it are emitted.
In a sound plan every such place is honoured in the end: whatever an emitted step refers to is the
id of an emitted step.  So the compilation of a plan without errors by a built-in rule reports
neither an unknown reference nor a missing dependency.
-/

namespace PlanFlow

/-- The ids of steps that a step refers to. -/
def Step.references (s : Step) : List String :=
  s.dependencies ++
    match s.work with
    | .loop _ _ body _ _ => body
    | .conditional _ thenSteps elseSteps => thenSteps ++ elseSteps
    | .action .. | .ai .. | .transform .. => []

/-! ## The ids that parts give rise to -/

namespace Plan

variable {p : Plan}

theorem mergeId_mem_emittedIds (hmany : 2 ≤ p.candidates.length) :
    Emitter.mergeId ∈ p.emittedIds := by
  refine mem_emittedIds.mpr (.inr (.inl ?_))
  rw [mergeIds, if_pos hmany]
  exact List.mem_singleton_self _

theorem loopIds_subset_emittedIds {l : Loop} (hl : l ∈ p.loops) : p.loopIds l ⊆ p.emittedIds := by
  intro id hid
  exact mem_emittedIds.mpr (.inr (.inr (.inr (.inl (List.mem_flatMap.mpr ⟨l, hl, hid⟩)))))

theorem checkIds_subset_emittedIds {s : Source} (hs : s ∈ p.lookups) :
    s.checkIds ⊆ p.emittedIds := by
  intro id hid
  exact mem_emittedIds.mpr (.inr (.inr (.inr (.inr (List.mem_flatMap.mpr ⟨s, hs, hid⟩)))))

theorem stepId_mem_emittedIds (hp : p.Sound) {part : Part} (hpart : part ∈ p.parts) :
    part.stepId ∈ p.emittedIds := by
  rcases List.mem_append.mp (mem_occurrences hp hpart) with hchain | hbodies
  · exact mem_emittedIds.mpr (.inr (.inr (.inl (List.mem_map_of_mem hchain))))
  · obtain ⟨l, hl, hbody⟩ := List.mem_flatMap.mp hbodies
    exact loopIds_subset_emittedIds hl (List.mem_cons_of_mem _ (List.mem_map_of_mem hbody))

theorem loopStepId_mem_emittedIds {l : Loop} (hl : l ∈ p.loops) : l.stepId ∈ p.emittedIds :=
  loopIds_subset_emittedIds hl List.mem_cons_self

/-- The step that produces the rows of a source reads it, unless they arrive as input. -/
theorem source_dependencies_subset {s : Source} (hs : s ∈ p.sources) :
    s.handle.dependencies ⊆ p.fetchIds ++ p.lookups.flatMap Source.checkIds := by
  intro id hid
  by_cases hlookup : s.isLookup = true
  · rw [Source.handle, if_pos hlookup] at hid
    obtain rfl := List.mem_singleton.mp hid
    exact List.mem_append_right _
      (List.mem_flatMap.mpr ⟨s, List.mem_filter.mpr ⟨hs, hlookup⟩, List.mem_cons_self⟩)
  · rw [Source.handle, if_neg hlookup] at hid
    by_cases hread : s.readOperation.isSome = true
    · rw [if_pos hread] at hid
      obtain rfl := List.mem_singleton.mp hid
      have hcandidate : s ∈ p.candidates := List.mem_filter.mpr ⟨hs, by simpa using hlookup⟩
      exact List.mem_append_left _ (List.mem_map_of_mem (List.mem_filter.mpr ⟨hcandidate, hread⟩))
    · rw [if_neg hread] at hid
      cases hid

/-- Every place where data will be found is honoured. -/
theorem location?_dependencies_subset (hp : p.Sound) {id : String} {h : Handle}
    (hlocation : p.location? id = some h) : h.dependencies ⊆ p.emittedIds := by
  have hmem := List.mem_reverse.mp (Entries.mem_of_find? hlocation)
  simp only [locations, List.mem_append, List.mem_map, Prod.mk.injEq] at hmem
  rcases hmem with (⟨s, hs, -, rfl⟩ | ⟨part, hpart, -, rfl⟩) | ⟨l, hl, -, rfl⟩
  · intro x hx
    rcases List.mem_append.mp (source_dependencies_subset hs hx) with hfetch | hcheck
    · exact mem_emittedIds.mpr (.inl hfetch)
    · exact mem_emittedIds.mpr (.inr (.inr (.inr (.inr hcheck))))
  · exact Ids.singleton_subset (stepId_mem_emittedIds hp hpart)
  · exact Ids.singleton_subset (loopStepId_mem_emittedIds hl)

end Plan

/-! ## Steps of parts -/

section Parts

variable {p : Plan} {settings : Settings}

theorem Obtainable.dependencies_subset (hp : p.Sound) {h : Handle} (hh : Obtainable p h) :
    h.dependencies ⊆ p.emittedIds := by
  cases hh with
  | located hlocation => exact Plan.location?_dependencies_subset hp hlocation
  | loop hl => exact Ids.singleton_subset (Plan.loopStepId_mem_emittedIds hl)
  | item hl => exact Ids.singleton_subset (Plan.loopStepId_mem_emittedIds hl)
  | checked hs =>
      refine Ids.singleton_subset (Plan.checkIds_subset_emittedIds hs ?_)
      simp [Source.checkIds]
  | merged hmany => exact Ids.singleton_subset (Plan.mergeId_mem_emittedIds hmany)

theorem waitsOf_subset (hp : p.Sound) (part : Part) {chain : Handle} (hchain : Obtainable p chain) :
    p.waitsOf part chain ⊆ p.emittedIds := by
  have hinputs : (p.inputsOf part chain).flatMap Handle.dependencies ⊆ p.emittedIds := by
    intro id hflat
    obtain ⟨h, hh, hid⟩ := List.mem_flatMap.mp hflat
    rw [Plan.inputsOf] at hh
    split at hh
    · rw [List.mem_singleton.mp hh] at hid
      exact hchain.dependencies_subset hp hid
    · obtain ⟨_, -, hlocation⟩ := List.mem_filterMap.mp hh
      exact Plan.location?_dependencies_subset hp hlocation hid
  intro id hid
  rw [Plan.waitsOf, List.mem_eraseDups] at hid
  split at hid
  · rcases List.mem_append.mp hid with hid | hid
    · exact hinputs hid
    · exact hchain.dependencies_subset hp hid
  · exact hinputs hid

/-- What the step of a part refers to is emitted. -/
theorem Emitted.references_subset (hp : p.Sound) {s : Step} (hs : Emitted p settings s) :
    s.references ⊆ p.emittedIds := by
  obtain ⟨site, hsite, rfl⟩ := hs
  cases hsite with
  | fetch => exact List.nil_subset _
  | merge hmany houtputs =>
      intro id hid
      rw [Step.references, Site.merge, Emitter.mergeStep, List.append_nil, List.mem_eraseDups,
        List.mem_flatMap] at hid
      obtain ⟨h, hh, hid⟩ := hid
      exact (houtputs h hh).dependencies_subset hp hid
  | @part part chain _ _ _ hchain _ =>
      have hwork : (Site.part p part chain).step.references = p.waitsOf part chain := by
        cases part <;> exact List.append_nil _
      rw [hwork]
      exact waitsOf_subset hp part hchain
  | loop hl hrows =>
      refine List.append_subset.mpr ⟨hrows.dependencies_subset hp, ?_⟩
      exact List.Subset.trans (List.subset_cons_self _ _) (Plan.loopIds_subset_emittedIds hl)
  | readReference => exact List.nil_subset _
  | extractKeys hs =>
      refine Ids.singleton_subset (Plan.checkIds_subset_emittedIds hs ?_)
      exact List.mem_cons_self
  | excludeKnown hs hrows =>
      rw [Step.references, Site.excludeKnown, Source.excludeKnown, List.append_nil]
      refine List.append_subset.mpr ⟨hrows.dependencies_subset hp, ?_⟩
      refine Ids.singleton_subset (Plan.checkIds_subset_emittedIds hs ?_)
      simp [Source.checkIds]

end Parts

/-! ## Steps of tails -/

namespace Rule

section Tails

variable {p : Plan} {rows : Handle} {known : List String}

theorem renderIds_of_rendered {id : String} {h : Handle} (hh : rendered p id = some h) :
    h.dependencies = renderIds p id := by
  obtain ⟨r, hr, rfl⟩ := Option.map_eq_some_iff.mp hh
  rw [renderIds, hr]
  rfl

/-- What is handed over comes with the rows, or it was rendered. -/
theorem payloadOf_dependencies_subset (d : Delivery) {id : String}
    (hrows : rows.dependencies ⊆ known) (hrender : renderIds p id ⊆ known) :
    (payloadOf d (rendered p id) rows).dependencies ⊆ known := by
  unfold payloadOf
  split
  · cases hrendered : rendered p id with
    | none => exact hrows
    | some h =>
        rw [Option.getD_some, renderIds_of_rendered hrendered]
        exact hrender
  · exact hrows

theorem references_deliveryStep_subset {key : String} {d : Delivery} {payload : Handle}
    {others : List String} {recipient : Option String} (hothers : others ⊆ known)
    (hpayload : payload.dependencies ⊆ known) :
    (p.deliveryStep key d payload others recipient).references ⊆ known := by
  intro id hid
  rw [Step.references, Plan.deliveryStep, List.append_nil, List.mem_eraseDups] at hid
  exact List.append_subset.mpr ⟨hothers, hpayload⟩ hid

theorem references_renderSteps_subset {id : String} (hrows : rows.dependencies ⊆ known) :
    ∀ s ∈ renderSteps p id rows, s.references ⊆ known := by
  intro s hs
  obtain ⟨r, -, rfl⟩ := List.mem_map.mp hs
  rw [Step.references, Plan.renderStep, List.append_nil]
  exact hrows

theorem references_deliverySteps_subset {others : String → List String}
    (hrows : rows.dependencies ⊆ known) (hrender : renderIds p renderId ⊆ known)
    (hothers : ∀ key, others key ⊆ known) :
    ∀ s ∈ deliverySteps p rows others, s.references ⊆ known := by
  intro s hs
  obtain ⟨⟨key, d⟩, -, rfl⟩ := List.mem_map.mp hs
  exact references_deliveryStep_subset (hothers key)
    (payloadOf_dependencies_subset d hrows hrender)

/-- A branch adds its step to those of a delivery as often as it names the delivery. -/
theorem find?_noteRoute (routes : Entries (List String)) (b : Branch) (key : String) :
    (Entries.find? key (noteRoute routes b)).getD [] = (Entries.find? key routes).getD [] ++
      List.replicate ((b.thenDeliver ++ b.elseDeliver).count key) (routeId b) := by
  rw [noteRoute]
  generalize b.thenDeliver ++ b.elseDeliver = keys
  induction keys generalizing routes with
  | nil => simp
  | cons first rest ih =>
      rw [List.foldl_cons, ih, Entries.update, Entries.find?_insert, List.count_cons]
      by_cases hkey : first = key
      · subst hkey
        simp [Nat.add_comm _ 1, List.replicate_add]
      · simp [hkey]

/-- The steps that are noted for a delivery are those of the branches that name it. -/
theorem routesTo_eq_eraseDups (p : Plan) (key : String) :
    routesTo p key = ((p.branches.filter fun b =>
      key ∈ b.thenDeliver ∨ key ∈ b.elseDeliver).map routeId).eraseDups := by
  rw [routesTo]
  induction p.branches using List.reverseRecOn with
  | nil => rfl
  | append_singleton branches b ih =>
      rw [routes, List.foldl_concat, find?_noteRoute, List.filter_append, List.map_append]
      by_cases hnames : key ∈ b.thenDeliver ++ b.elseDeliver
      · rw [Ids.eraseDups_append_replicate _ _ (List.count_pos_iff.mpr hnames).ne',
          List.filter_cons_of_pos (by simpa using hnames), List.filter_nil]
        exact Ids.eraseDups_concat_congr ih _
      · rw [List.count_eq_zero_of_not_mem hnames, List.replicate_zero, List.append_nil,
          List.filter_cons_of_neg (by simpa using hnames), List.filter_nil, List.map_nil,
          List.append_nil]
        exact ih

theorem routesTo_subset (p : Plan) (key : String) : routesTo p key ⊆ p.branches.map routeId := by
  intro id hid
  rw [routesTo_eq_eraseDups, List.mem_eraseDups] at hid
  exact List.map_subset routeId (List.filter_subset_self _) hid

/-- The deliveries that a branch leads to are deliveries of the plan. -/
theorem targets_subset (hp : p.Sound) {b : Branch} (hb : b ∈ p.branches) {keys : List String}
    (hkeys : keys ⊆ b.thenDeliver ++ b.elseDeliver) :
    keys.map Plan.deliveryStepId ⊆ deliverIds p := by
  intro id hid
  obtain ⟨key, hkey, rfl⟩ := List.mem_map.mp hid
  exact List.mem_map_of_mem (hp.targets_mem b hb key (hkeys hkey))

theorem references_linearTail_subset (hrows : rows.dependencies ⊆ known)
    (hrender : renderIds p renderId ⊆ known) :
    ∀ s ∈ linearTail p rows, s.references ⊆ known := by
  rw [linearTail, List.forall_mem_append]
  exact ⟨references_renderSteps_subset hrows,
    references_deliverySteps_subset hrows hrender fun _ => List.nil_subset _⟩

theorem references_routedTail_subset (hp : p.Sound) (hrows : rows.dependencies ⊆ known)
    (hrender : renderIds p renderId ⊆ known) (hroutes : p.branches.map routeId ⊆ known)
    (hdeliver : deliverIds p ⊆ known) :
    ∀ s ∈ routedTail p rows, s.references ⊆ known := by
  rw [routedTail, List.forall_mem_append, List.forall_mem_append]
  refine ⟨⟨references_renderSteps_subset hrows, fun s hs => ?_⟩,
    references_deliverySteps_subset hrows hrender fun key =>
      List.Subset.trans (routesTo_subset p key) hroutes⟩
  obtain ⟨b, hb, rfl⟩ := List.mem_map.mp hs
  refine List.append_subset.mpr ⟨hrows, List.append_subset.mpr ⟨?_, ?_⟩⟩
  · exact List.Subset.trans (targets_subset hp hb (List.subset_append_left _ _)) hdeliver
  · exact List.Subset.trans (targets_subset hp hb (List.subset_append_right _ _)) hdeliver

theorem groupBody_subset (hrender : renderIds p groupRenderId ⊆ known)
    (hdeliver : deliverIds p ⊆ known) : groupBody p ⊆ known := by
  refine List.append_subset.mpr ⟨hrender, fun id hid => hdeliver ?_⟩
  obtain ⟨⟨key, d⟩, hmem, rfl⟩ := List.mem_map.mp hid
  exact List.mem_map_of_mem (List.mem_map_of_mem (List.mem_of_mem_filter hmem))

theorem references_groupedTail_subset (hrows : rows.dependencies ⊆ known)
    (hgroup : groupId ∈ known) (hloop : groupLoopId ∈ known)
    (hrender : renderIds p groupRenderId ⊆ known) (hdeliver : deliverIds p ⊆ known) :
    ∀ s ∈ groupedTail p rows, s.references ⊆ known := by
  have hitem : groupRows.dependencies ⊆ known := Ids.singleton_subset hloop
  unfold groupedTail
  simp only [List.forall_mem_append]
  refine ⟨⟨⟨⟨?_, ?_⟩, references_renderSteps_subset hitem⟩, ?_⟩, ?_⟩
  · intro s hs
    obtain ⟨field, -, rfl⟩ := List.mem_map.mp hs
    rw [Step.references, groupStep, List.append_nil]
    exact hrows
  · intro s hs
    rw [List.mem_singleton.mp hs]
    exact List.append_subset.mpr ⟨Ids.singleton_subset hgroup, groupBody_subset hrender hdeliver⟩
  · intro s hs
    obtain ⟨⟨key, d⟩, -, rfl⟩ := List.mem_map.mp hs
    exact references_deliveryStep_subset (List.nil_subset _)
      (payloadOf_dependencies_subset d hitem hrender)
  · intro s hs
    obtain ⟨⟨key, d⟩, -, rfl⟩ := List.mem_map.mp hs
    exact references_deliveryStep_subset (Ids.singleton_subset hloop) hrows

/-- What a step of a tail refers to comes with the rows, or is emitted with the tail. -/
theorem references_tail_subset (hp : p.Sound) {r : Rule} (hr : r ∈ builtIn)
    (hrows : rows.dependencies ⊆ known) (htail : r.tailIds p ⊆ known) :
    ∀ s ∈ r.tail p rows, s.references ⊆ known := by
  simp only [tailIds, List.append_subset] at htail
  obtain ⟨⟨⟨hdeliver, hroutes⟩, hgroups⟩, hrender⟩ := htail
  simp only [builtIn, List.mem_cons, List.not_mem_nil, or_false] at hr
  rcases hr with rfl | rfl | rfl | rfl
  · exact references_groupedTail_subset hrows (hgroups (by simp)) (hgroups (by simp)) hrender
      hdeliver
  · exact references_routedTail_subset hp hrows hrender hroutes hdeliver
  · exact references_linearTail_subset hrows hrender
  · exact references_linearTail_subset hrows hrender

end Tails

/-- What the steps of the parts and of a tail refer to is emitted, if the tail got its rows from the
parts and all ids were emitted. -/
theorem references_subset_ids {p : Plan} {settings : Settings} (hp : p.Sound) {r : Rule}
    (hr : r ∈ builtIn) {rows : Handle} {steps : List Step} (hrows : Obtainable p rows)
    (hshape : ∀ s ∈ steps, Emitted p settings s ∨ s ∈ r.tail p rows)
    (hids : (steps.map Step.id).Perm (p.emittedIds ++ r.tailIds p)) :
    ∀ s ∈ steps, s.references ⊆ steps.map Step.id := by
  intro s hs id hid
  rw [hids.mem_iff]
  rcases hshape s hs with hpart | htail
  · exact List.mem_append_left _ (hpart.references_subset hp hid)
  · refine references_tail_subset hp hr ?_ (List.subset_append_right _ _) s htail hid
    exact List.Subset.trans (hrows.dependencies_subset hp) (List.subset_append_left _ _)

/-- If a plan has no errors, every built-in rule that accepts it emits steps, and whatever these
steps wait for, loop over or branch to is the id of one of them.  A compiler that chooses the rule
reports no unknown reference and no missing dependency for the plan. -/
theorem steps_closed (c : Compiler) {p : Plan} (hvalid : p.errors c.settings = []) {r : Rule}
    (hr : r ∈ builtIn) (haccepts : r.accepts p = true) :
    ∃ steps, r.steps p c.settings = .ok steps ∧
      (∀ s ∈ steps, ∀ id ∈ s.references, id ∈ steps.map Step.id) ∧
      (c.rules.select p = .ok r → ∀ e ∈ (c.compile p).errors,
        (∀ referrer missing, e ≠ .unknownReference referrer missing) ∧
          ∀ id missing, e ≠ .graph (.missingDependency id missing)) := by
  have hp := Plan.sound_of_errors hvalid
  obtain ⟨rows, steps, hsteps, hrows, hshape, hids⟩ := exists_steps c.settings hp hr haccepts
  have hclosed : ∀ s ∈ steps, ∀ id ∈ s.references, id ∈ steps.map Step.id :=
    fun s hs _ hid => references_subset_ids hp hr hrows hshape hids s hs hid
  refine ⟨steps, hsteps, hclosed, fun hselect e he => ?_⟩
  rw [Compiler.compile_eq_finish hvalid hselect hsteps] at he
  rcases Compiler.mem_errors_finish he with ⟨s, -, hcall⟩ | ⟨error, herror, rfl⟩
  -- Calls that the catalog does not have are reported as other errors.
  · rcases Compiler.callErrors_eq hcall with ⟨_, rfl⟩ | ⟨_, _, rfl⟩
    · exact ⟨fun _ _ => nofun, fun _ _ => nofun⟩
    · exact ⟨fun _ _ => nofun, fun _ _ => nofun⟩
  · refine ⟨fun _ _ => nofun, fun id missing heq => ?_⟩
    obtain rfl := PlanError.graph.inj heq
    obtain ⟨s, hs, hd, hmissing⟩ := StepGraph.exists_of_missingDependency_mem herror
    exact hmissing (hclosed s hs missing (List.mem_append_left _ hd))

/-- A plan that reads orders from two sources, leaves out those that are known, has an AI model look
at them in a loop over which another loop runs, and mails them or stores them. -/
def ordersPlan : Plan where
  version := "1.0"
  goal := "Route new orders"
  sources := [⟨"orders", .tabular, "sheets", none, "Orders", .primary, none, none, []⟩,
    ⟨"events", .webhook, "hooks", none, "Events", .secondary, none, none, []⟩,
    ⟨"known", .database, "store", none, "Known orders", .lookup, none, none, []⟩]
  filters := [⟨"open", "status", .isNotEmpty, none, []⟩]
  transforms := [⟨"short", .limit, [], ["open"]⟩]
  aiTasks := [⟨"mood", .sentiment, "Read the mood", none, none, [], []⟩]
  branches := [⟨"angry", ⟨"mood", .isNotEmpty, none⟩, ["mail"], ["delivery_2"]⟩]
  loops := [⟨"each", "orders", "order", ["short", "mood"], none, none⟩,
    ⟨"again", "each", "result", [], none, none⟩]
  partitions := []
  grouping := none
  rendering := some ⟨.table, [], none, none⟩
  deliveries := [⟨some "mail", .email, "mailer", none, some "desk", none, []⟩,
    ⟨none, .database, "store", none, none, none, []⟩]
  edgeCases := []
  clarifications := []

theorem select_ordersPlan : RuleBook.standard.select ordersPlan = .ok routed := by
  rw [RuleBook.select, RuleBook.ordered_standard]
  rfl

theorem steps_closed_ordersPlan :
    ordersPlan.errors default = [] ∧ routed ∈ builtIn ∧ routed.accepts ordersPlan = true ∧
      ∃ steps, routed.steps ordersPlan default = .ok steps ∧
        (∀ s ∈ steps, ∀ id ∈ s.references, id ∈ steps.map Step.id) ∧
        ∀ e ∈ ((Compiler.standard default).compile ordersPlan).errors,
          (∀ referrer missing, e ≠ .unknownReference referrer missing) ∧
            ∀ id missing, e ≠ .graph (.missingDependency id missing) := by
  have hvalid : ordersPlan.errors default = [] := by decide
  have hmem : routed ∈ builtIn := by simp [builtIn]
  have haccepts : routed.accepts ordersPlan = true := rfl
  obtain ⟨steps, hsteps, hclosed, hcompile⟩ :=
    steps_closed (.standard default) hvalid hmem haccepts
  exact ⟨hvalid, hmem, haccepts, steps, hsteps, hclosed, hcompile select_ordersPlan⟩

end Rule
end PlanFlow
