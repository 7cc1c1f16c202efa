import PlanFlow.Proofs.Rule.Sites

/-!
# What placeholders stand for

A step takes its data by placeholders, which are written where the step is made, apart from the
steps that it lists.  Whatever data goes into a step at its site is there once the listed steps are
finished: it is input from outside, or it is produced by one of them.  The steps of a body take the
current item of the loop that lists them, or what the steps before them in that body hand on, even
where another loop calls its items by the same name.  What a delivery hands over is listed too,
unless its own configuration replaces that.
-/

namespace PlanFlow

open Relation (TransGen)

/-! ## Data and the steps that produce it -/

/-- The data that a step produces: its output, and the current item, with the fields of that, if it
is a loop. -/
inductive Step.Produces (s : Step) : Handle → Prop
  | output : s.Produces (.ofStep s.id)
  | item {iterateOver itemName : String} {body : List String}
      {maxIterations maxConcurrency : Option Nat}
      (hwork : s.work = .loop iterateOver itemName body maxIterations maxConcurrency) :
      s.Produces (.ofItem s.id itemName)
  | itemField {iterateOver itemName : String} {body : List String}
      {maxIterations maxConcurrency : Option Nat} {name : String}
      (hwork : s.work = .loop iterateOver itemName body maxIterations maxConcurrency) :
      s.Produces (.ofItem s.id (itemName ++ "." ++ name))

/-- The texts of an entry, if there is one. -/
def entryTextsAt (key : String) (config : Entries Value) : List String :=
  ((Entries.find? key config).map Value.texts).getD []

/-- The texts by which work takes the data of other steps.  What an action is given is configured,
except for deliveries. -/
def Work.dataTexts : Work → List String
  | .action .. | .conditional .. => []
  | .ai _ input _ _ => [input]
  | .transform .merge input config => input :: entryTextsAt "sources" config
  | .transform .excludeKnown input config => input :: entryTextsAt "known_keys" config
  | .transform _ input _ => [input]
  | .loop iterateOver _ _ _ _ => [iterateOver]

namespace Plan

/-- The data that there is when some steps are run: rows that arrive as input, and what the steps
produce. -/
def Supplies (p : Plan) (steps : List Step) (h : Handle) : Prop :=
  (∃ s ∈ p.candidates, s.readOperation = none ∧ h = .ofInput s.id) ∨ ∃ s ∈ steps, s.Produces h

/-- The placeholders in a step are those of what it takes at its site.  All data that goes into it
is there, and the step lists what produces that. -/
structure Covered (p : Plan) (steps : List Step) (site : Site) : Prop where
  texts : site.step.work.dataTexts = site.intakes.map Intake.text
  supplied : ∀ h ∈ site.data, p.Supplies steps h
  listed : ∀ h ∈ site.data, ∀ id, h.step = some id → id ∈ site.step.dependencies

variable {p : Plan} {steps : List Step} {h : Handle}

theorem supplies_ofStep {id : String} (hid : id ∈ steps.map Step.id) :
    p.Supplies steps (.ofStep id) := by
  obtain ⟨s, hs, rfl⟩ := List.mem_map.mp hid
  exact .inr ⟨s, hs, .output⟩

/-- The data that there is while the parts of a plan are emitted is there in the end. -/
theorem supplies_of_obtainable (hp : p.Sound) (hids : p.emittedIds ⊆ steps.map Step.id)
    (hloops : ∀ l ∈ p.loops, ∃ rows, p.loopStep l rows ∈ steps) (hh : Obtainable p h) :
    p.Supplies steps h := by
  have hstep : ∀ {id : String}, Obtainable p (.ofStep id) → p.Supplies steps (.ofStep id) :=
    fun h => supplies_ofStep (hids (h.dependencies_subset hp (List.mem_singleton_self _)))
  cases hh with
  | located hlocation =>
      have hmem := List.mem_reverse.mp (Entries.mem_of_find? hlocation)
      simp only [locations, List.mem_append, List.mem_map, Prod.mk.injEq] at hmem
      rcases hmem with (⟨s, hs, -, rfl⟩ | ⟨part, hpart, -, rfl⟩) | ⟨l, hl, -, rfl⟩
      -- Only a source that is neither checked against nor read has rows that no step produces.
      · rw [Source.handle] at hlocation ⊢
        by_cases hlookup : s.isLookup = true
        · rw [if_pos hlookup] at hlocation ⊢
          exact hstep (.located hlocation)
        · rw [if_neg hlookup] at hlocation ⊢
          by_cases hread : s.readOperation.isSome = true
          · rw [if_pos hread] at hlocation ⊢
            exact hstep (.located hlocation)
          · rw [if_neg hread]
            exact .inl ⟨s, List.mem_filter.mpr ⟨hs, by simpa using hlookup⟩, by simpa using hread,
              rfl⟩
      · exact hstep (.located hlocation)
      · exact hstep (.located hlocation)
  | loop hl => exact hstep (.loop hl)
  | item hl =>
      obtain ⟨rows, hloop⟩ := hloops _ hl
      exact .inr ⟨_, hloop, .item rfl⟩
  | checked hs => exact hstep (.checked hs)
  | merged hmany => exact hstep (.merged hmany)

/-- A site that takes data as it is, and lists what produces it. -/
theorem Covered.of_intakes {site : Site} (hpayload : site.payload? = none)
    (htexts : site.step.work.dataTexts = site.intakes.map Intake.text)
    (hintakes : ∀ i ∈ site.intakes, p.Supplies steps i.data ∧
      i.data.dependencies ⊆ site.step.dependencies) : p.Covered steps site := by
  have hdata : ∀ h ∈ site.data, p.Supplies steps h ∧ h.dependencies ⊆ site.step.dependencies := by
    intro h hh
    rw [Site.data, hpayload, Option.toList_none, List.append_nil] at hh
    obtain ⟨i, hi, rfl⟩ := List.mem_map.mp hh
    exact hintakes i hi
  refine ⟨htexts, fun h hh => (hdata h hh).1, fun h hh id hid => (hdata h hh).2 ?_⟩
  rw [Handle.dependencies, hid]
  exact List.mem_singleton_self id

end Plan

/-! ## Sites of parts -/

theorem texts_strings (items : List String) : (Value.strings items).texts = items := by
  show Value.itemTexts (items.map .string) = items
  induction items with
  | nil => rfl
  | cons text rest ih =>
      rw [List.map_cons, Value.itemTexts, ih]
      rfl

section Parts

variable {p : Plan} {settings : Settings} {steps : List Step}

/-- The work of a part takes its input, or the field of it that the part names. -/
theorem Part.dataTexts_work (part : Part) (input : Handle) :
    (part.work input).dataTexts = [(Intake.mk input part.inputField?).text] := by
  cases part with
  | filter f => rfl
  | partition q => rfl
  | transform t =>
      rw [Part.work]
      cases t.operation <;> rfl
  | ai a =>
      rw [Part.work, Part.inputField?]
      cases a.inputField <;> rfl

/-- The step of a part waits for its input. -/
theorem dependencies_subset_waitsOf {part : Part} {chain input : Handle} {others : List Handle}
    (hinputs : p.inputsOf part chain = input :: others) :
    input.dependencies ⊆ p.waitsOf part chain := by
  intro id hid
  have hflat : id ∈ (p.inputsOf part chain).flatMap Handle.dependencies := by
    rw [hinputs]
    exact List.mem_append_left _ hid
  rw [Plan.waitsOf, List.mem_eraseDups]
  split
  · exact List.mem_append_left _ hflat
  · exact hflat

/-- What a part takes is there while the parts of a plan are emitted. -/
theorem obtainable_of_mem_inputsOf {part : Part} {chain input : Handle}
    (hchain : Obtainable p chain) (hinput : input ∈ p.inputsOf part chain) :
    Obtainable p input := by
  rw [Plan.inputsOf] at hinput
  split at hinput
  · rwa [List.mem_singleton.mp hinput]
  · obtain ⟨_, -, hlocation⟩ := List.mem_filterMap.mp hinput
    exact .located hlocation

variable (hids : p.emittedIds ⊆ steps.map Step.id)
variable (hobtainable : ∀ h, Obtainable p h → p.Supplies steps h)
include hids hobtainable

/-- The steps that the parts of a plan are turned into take only data of steps that they list. -/
theorem Sited.covered {site : Site} (hsite : Sited p settings site) : p.Covered steps site := by
  have hcheck : ∀ {s : Source} {id : String}, s ∈ p.lookups → id ∈ s.checkIds →
      p.Supplies steps (.ofStep id) := fun hs hid =>
    Plan.supplies_ofStep (hids (Plan.checkIds_subset_emittedIds hs hid))
  cases hsite with
  | fetch => exact .of_intakes rfl rfl (List.forall_mem_nil _)
  | @merge first second others hmany houtputs =>
      refine .of_intakes rfl ?_ ?_
      · show first.reference :: (Value.strings ((first :: second :: others).map
          Handle.reference)).texts = _
        rw [texts_strings, Site.merge, List.map_cons (f := Intake.text), List.map_map]
        rfl
      · have hall : ∀ h ∈ first :: second :: others, p.Supplies steps h ∧ h.dependencies ⊆
            (Emitter.mergeStep first (first :: second :: others)).dependencies := by
          refine fun h hh => ⟨hobtainable h (houtputs h hh), fun id hid => ?_⟩
          exact List.mem_eraseDups.mpr (List.mem_flatMap.mpr ⟨h, hh, hid⟩)
        -- The first output is merged with the others, and is listed again among them.
        exact List.forall_mem_cons.mpr
          ⟨hall first List.mem_cons_self, List.forall_mem_map.mpr hall⟩
  | @part part chain input others _ hchain hinputs =>
      have hinput : Obtainable p input :=
        obtainable_of_mem_inputsOf hchain (hinputs ▸ List.mem_cons_self)
      have hfirst : (p.inputsOf part chain).headD chain = input := by rw [hinputs]; rfl
      refine .of_intakes rfl ?_ ?_
      · rw [Site.part, hfirst]
        exact part.dataTexts_work input
      · rw [Site.part, hfirst, List.forall_mem_singleton]
        exact ⟨hobtainable input hinput, dependencies_subset_waitsOf hinputs⟩
  | loop _ hrows =>
      exact .of_intakes rfl rfl
        (List.forall_mem_singleton.mpr ⟨hobtainable _ hrows, List.Subset.refl _⟩)
  | readReference => exact .of_intakes rfl rfl (List.forall_mem_nil _)
  | extractKeys hs =>
      exact .of_intakes rfl rfl
        (List.forall_mem_singleton.mpr ⟨hcheck hs List.mem_cons_self, List.Subset.refl _⟩)
  | @excludeKnown s rows hs hrows =>
      refine .of_intakes rfl rfl (List.forall_mem_cons.mpr ⟨?_, List.forall_mem_singleton.mpr ?_⟩)
      · exact ⟨hobtainable rows hrows, List.subset_append_left _ _⟩
      · refine ⟨hcheck hs ?_, List.subset_append_right _ _⟩
        simp [Source.checkIds]

end Parts

/-! ## Sites of tails -/

namespace Rule

section Tails

variable {p : Plan} {rows : Handle} {steps : List Step} {r : Rule}

/-- The rows of a group are a field of the current item of the loop over the groups. -/
theorem supplies_groupRows (hloop : groupLoopStep p ∈ steps) : p.Supplies steps groupRows := by
  have hrows : groupRows = .ofItem groupLoopId (groupItem ++ "." ++ "rows") := by decide
  rw [hrows]
  exact .inr ⟨_, hloop, .itemField rfl⟩

theorem covered_renderSites {id : String} (hrows : p.Supplies steps rows) :
    ∀ site ∈ renderSites p id rows, p.Covered steps site :=
  List.forall_mem_map.mpr fun _ _ =>
    .of_intakes rfl rfl (List.forall_mem_singleton.mpr ⟨hrows, List.Subset.refl _⟩)

/-- What is handed over is the rows, or what was rendered. -/
theorem supplies_payload {id : String} (hrender : renderSteps p id rows ⊆ steps)
    (hrows : p.Supplies steps rows) (d : Delivery) :
    p.Supplies steps (payloadOf d (rendered p id) rows) := by
  unfold payloadOf
  split
  · cases hrendering : p.activeRendering with
    | none =>
        rw [rendered, hrendering]
        exact hrows
    | some rendering =>
        have hstep : p.renderStep rendering id rows ∈ steps :=
          hrender (by simp [renderSteps, hrendering])
        rw [rendered, hrendering]
        exact Plan.supplies_ofStep (List.mem_map_of_mem hstep)
  · exact hrows

theorem covered_deliver {key : String} {d : Delivery} {payload : Handle} {others : List String}
    {recipient : Option String} (hpayload : p.Supplies steps payload) :
    p.Covered steps (.deliver p key d payload others recipient) := by
  have hdata : (Site.deliver p key d payload others recipient).data = [payload] := rfl
  refine ⟨rfl, ?_, ?_⟩
  · rwa [hdata, List.forall_mem_singleton]
  · rw [hdata, List.forall_mem_singleton]
    intro id hid
    refine mem_dependencies_deliveryStep.mpr (.inr ?_)
    rw [Handle.dependencies, hid]
    exact List.mem_singleton_self id

/-- All rows are rendered, unless they are grouped. -/
theorem renderSteps_subset_tail (hrule : r.name ≠ grouped.name) :
    renderSteps p renderId rows ⊆ r.tail p rows := by
  rw [tail, if_neg hrule]
  split
  · rw [routedTail, List.append_assoc]
    exact List.subset_append_left _ _
  · exact List.subset_append_left _ _

variable (hrows : p.Supplies steps rows) (htail : r.tail p rows ⊆ steps)
include hrows htail

/-- What a rule does before it delivers takes the rows, what was grouped, and the rows of groups. -/
theorem covered_preparingSites (hgroup : r.name = grouped.name → p.groupBy.isSome) :
    ∀ site ∈ r.preparingSites p rows, p.Covered steps site := by
  unfold preparingSites
  split
  · rename_i hrule
    obtain ⟨field, hfield⟩ := Option.isSome_iff_exists.mp (hgroup hrule)
    rw [tail, if_pos hrule, groupedTail_subset_iff] at htail
    obtain ⟨hgroupStep, hloop, -⟩ := htail
    have hgrouped : p.Supplies steps (.ofStep groupId) :=
      Plan.supplies_ofStep (List.mem_map_of_mem (hgroupStep field hfield))
    rw [List.forall_mem_append, List.forall_mem_append, List.forall_mem_singleton]
    refine ⟨⟨List.forall_mem_map.mpr fun _ _ => ?_, ?_⟩,
      covered_renderSites (supplies_groupRows hloop)⟩
    · exact .of_intakes rfl rfl (List.forall_mem_singleton.mpr ⟨hrows, List.Subset.refl _⟩)
    · exact .of_intakes rfl rfl (List.forall_mem_singleton.mpr ⟨hgrouped, List.Subset.refl _⟩)
  · split
    · rw [List.forall_mem_append]
      refine ⟨covered_renderSites hrows, List.forall_mem_map.mpr fun _ _ => ?_⟩
      exact .of_intakes rfl rfl (List.forall_mem_nil _)
    · exact covered_renderSites hrows

/-- So are the deliveries. -/
theorem covered_deliverySite {key : String} {d : Delivery} :
    p.Covered steps (r.deliverySite p rows key d) := by
  unfold deliverySite
  split
  · rename_i hrule
    rw [tail, if_pos hrule, groupedTail_subset_iff] at htail
    obtain ⟨-, hloop, hrender, -⟩ := htail
    split
    · exact covered_deliver (supplies_payload hrender (supplies_groupRows hloop) d)
    · exact covered_deliver hrows
  · rename_i hrule
    have hrender := List.Subset.trans (renderSteps_subset_tail hrule) htail
    exact covered_deliver (supplies_payload hrender hrows d)

/-- Whatever goes into the steps of a tail is there, and they list what produces it. -/
theorem covered_tailSites (hgroup : r.name = grouped.name → p.groupBy.isSome) :
    ∀ site ∈ r.tailSites p rows, p.Covered steps site := by
  unfold tailSites
  rw [List.forall_mem_append]
  exact ⟨covered_preparingSites hrows htail hgroup,
    List.forall_mem_map.mpr fun _ _ => covered_deliverySite hrows htail⟩

end Tails

/-! ## What deliveries are given -/

section Params

variable {p : Plan} {key : String} {d : Delivery} {payload : Handle} {recipient : Option String}

/-- The name under which a delivery hands over its payload. -/
def payloadName (d : Delivery) : String := if d.method.takesMessage then "content" else "rows"

/-- Nothing is written twice before the delivery's own configuration. -/
theorem nodup_delivered (p : Plan) (d : Delivery) (payload : Handle) (recipient : Option String) :
    (((recipient.toList.map fun r => ("recipient", Value.string r)) ++
      [(payloadName d, Value.string payload.reference)] ++ p.onEmpty).map Prod.fst).Nodup := by
  have hempty : p.onEmpty.map Prod.fst = [] ∨ p.onEmpty.map Prod.fst = ["on_empty"] := by
    unfold Plan.onEmpty
    split
    · exact .inr rfl
    · exact .inl rfl
  have hname : payloadName d = "content" ∨ payloadName d = "rows" := by
    unfold payloadName
    split
    · exact .inl rfl
    · exact .inr rfl
  rw [List.map_append, List.map_append]
  rcases hempty with hempty | hempty <;> rcases hname with hname | hname <;>
    cases recipient <;> simp [hempty, hname]

/-- What a delivery does not configure itself it is given as the rule has it. -/
theorem find?_deliveryParams {name text : String} (hconfig : name ∉ d.config.map Prod.fst)
    (hname : name = payloadName d ∧ text = payload.reference ∨
      name = "recipient" ∧ recipient = some text) :
    Entries.find? name (p.deliveryParams d payload recipient) = some (.string text) := by
  rw [Plan.deliveryParams, Entries.find?_extend_of_not_mem hconfig]
  refine Entries.find?_ofList_of_mem (nodup_delivered p d payload recipient) ?_
  rcases hname with ⟨rfl, rfl⟩ | ⟨rfl, rfl⟩
  · simp [payloadName]
  · simp

end Params

/-- The only rule that is named like the one that groups is that one. -/
theorem groupBy_isSome_of_name {p : Plan} {r : Rule} (hr : r ∈ builtIn)
    (haccepts : r.accepts p = true) (hrule : r.name = grouped.name) : p.groupBy.isSome := by
  simp only [builtIn, List.mem_cons, List.not_mem_nil, or_false] at hr
  rcases hr with rfl | rfl | rfl | rfl
  · exact groupBy_isSome_of_accepts haccepts
  all_goals exact absurd hrule (by decide)

/-- A delivery hands over a payload.  One that takes its recipient from the group waits, directly or
through others, for the loop over the groups. -/
theorem exists_deliver {p : Plan} {rows : Handle} {steps : List Step} {r : Rule}
    (htail : r.tail p rows ⊆ steps) {key : String} {d : Delivery}
    (hd : (key, d) ∈ p.keyedDeliveries) :
    ∃ payload others recipient,
      r.deliverySite p rows key d = .deliver p key d payload others recipient ∧
        (r.name = grouped.name → ∀ field, d.recipientSource = some field →
          TransGen (Feeds steps) groupLoopId (Plan.deliveryStepId key) ∧
            recipient = some ((Handle.ofItem groupLoopId groupItem).field field)) := by
  by_cases hrule : r.name = grouped.name
  · rw [tail, if_pos hrule, groupedTail_subset_iff] at htail
    obtain ⟨-, -, hrender, hgroups, -⟩ := htail
    rw [deliverySite, if_pos hrule]
    -- A delivery that asks the group for its recipient takes place once per group.
    by_cases hper : perGroup d = true
    · rw [if_pos hper]
      have hfeeds := feeds_deliveryStep (hgroups (mem_groupDeliverySteps hd hper))
        (upstream_payload hrender (.of_mem (List.mem_singleton_self groupLoopId)) d)
      refine ⟨_, _, _, rfl, fun _ field hfield => ⟨hfeeds, ?_⟩⟩
      rw [groupRecipient, hfield]
      rfl
    · rw [if_neg hper]
      refine ⟨_, _, _, rfl, fun _ field hfield => absurd ?_ hper⟩
      simp [perGroup, hfield]
  · rw [deliverySite, if_neg hrule]
    exact ⟨_, _, _, rfl, fun h => absurd h hrule⟩

/-! ## All steps -/

section Sites

variable {p : Plan} {settings : Settings} {rows : Handle} {sites parts : List Site} {r : Rule}
variable (hperm : sites.Perm (parts ++ r.tailSites p rows))
include hperm

theorem mem_of_mem_parts {site : Site} (hsite : site ∈ parts) : site ∈ sites :=
  hperm.mem_iff.mpr (List.mem_append_left _ hsite)

/-- The steps of the tail are among those of all sites. -/
theorem tail_subset : r.tail p rows ⊆ sites.map Site.step := by
  rw [← map_step_tailSites]
  exact List.map_subset _ fun site hsite => hperm.mem_iff.mpr (List.mem_append_right _ hsite)

/-- Of all sites, only that of a delivery is named like it. -/
theorem eq_deliverySite_of_mem (hp : p.Sound) (hsited : ∀ site ∈ parts, Sited p settings site)
    {key : String} {d : Delivery} (hd : (key, d) ∈ p.keyedDeliveries) {site : Site}
    (hsite : site ∈ sites) (hid : site.id = Plan.deliveryStepId key) :
    site = r.deliverySite p rows key d := by
  refine eq_deliverySite hp hd hid ((List.mem_append.mp (hperm.mem_iff.mp hsite)).resolve_left ?_)
  refine fun hpart => head_of_sited (hsited site hpart) ?_
  simp [hid, Plan.deliveryStepId]

variable (hparts : p.PartSites settings rows parts)
include hparts

theorem emittedIds_subset_sites : p.emittedIds ⊆ (sites.map Site.step).map Step.id := by
  intro id hid
  obtain ⟨site, hsite, rfl⟩ := List.mem_map.mp ((Emitter.map_id_partSites hparts).mem_iff.mpr hid)
  rw [List.map_map]
  exact List.mem_map_of_mem (mem_of_mem_parts hperm hsite)

variable (hp : p.Sound)
include hp

/-- With the sites of the parts, all data is there that the emission comes to. -/
theorem supplies_of_partSites {h : Handle} (hh : Obtainable p h) :
    p.Supplies (sites.map Site.step) h := by
  refine Plan.supplies_of_obtainable hp (emittedIds_subset_sites hperm hparts) (fun l hl => ?_) hh
  obtain ⟨_, ⟨-, -⟩, hsub⟩ := hparts.exists_loopSites hl
  have hsite := mem_of_mem_parts hperm (hsub List.mem_cons_self)
  exact ⟨_, List.mem_map_of_mem hsite⟩

theorem covered_sites (hr : r ∈ builtIn) (haccepts : r.accepts p = true)
    (hsited : ∀ site ∈ parts, Sited p settings site) (hrows : Obtainable p rows) :
    ∀ site ∈ sites, p.Covered (sites.map Site.step) site := by
  have hsupplies : ∀ h, Obtainable p h → p.Supplies (sites.map Site.step) h := fun _ =>
    supplies_of_partSites hperm hparts hp
  intro site hsite
  rcases List.mem_append.mp (hperm.mem_iff.mp hsite) with hpart | htail
  · exact (hsited site hpart).covered (emittedIds_subset_sites hperm hparts) hsupplies
  · exact covered_tailSites (hsupplies rows hrows) (tail_subset hperm)
      (groupBy_isSome_of_name hr haccepts) site htail

end Sites

/-- If a plan has no errors, then by every built-in rule that accepts the plan steps are emitted at
the sites of the plan, and at each of them all data is covered: the placeholders in the step are
those of the data that is taken there, and whatever of that, or of what is handed over, is produced
by a step, that step is listed.  So the steps in the body of a loop list that loop, or what the
steps before them in the body hand on.  A delivery hands over the payload of its site unless it
writes there itself, and if it takes its recipient from the current group then it waits, directly or
through others, for the loop over the groups. -/
theorem placeholders_covered {p : Plan} {settings : Settings} (hvalid : p.errors settings = [])
    {r : Rule} (hr : r ∈ builtIn) (haccepts : r.accepts p = true) :
    ∃ sites : List Site, r.steps p settings = .ok (sites.map Site.step) ∧
      r.Lays p settings sites ∧ (∀ site ∈ sites, p.Covered (sites.map Site.step) site) ∧
      ∀ key d, (key, d) ∈ p.keyedDeliveries → ∀ site ∈ sites, site.step.id = "deliver_" ++ key →
        ∃ payload params, site.payload? = some payload ∧
          site.step.work = .action d.plugin d.effectiveOperation params ∧
          (payloadName d ∉ d.config.map Prod.fst →
            Entries.find? (payloadName d) params = some (.string payload.reference)) ∧
          (r = grouped → ∀ field, d.recipientSource = some field →
            TransGen (Feeds (sites.map Site.step)) "loop_groups" site.step.id ∧
              ("recipient" ∉ d.config.map Prod.fst → Entries.find? "recipient" params =
                some (.string ((Handle.ofItem "loop_groups" "group").field field)))) := by
  have hp := Plan.sound_of_errors hvalid
  obtain ⟨rows, sites, parts, hsteps, hrows, hsited, hparts, hperm⟩ :=
    exists_sites settings hp hr haccepts
  refine ⟨sites, hsteps, ⟨rows, parts, hparts, hperm⟩,
    covered_sites hperm hparts hp hr haccepts hsited hrows, ?_⟩
  intro key d hd site hsite hid
  obtain rfl := eq_deliverySite_of_mem hperm hp hsited hd hsite hid
  obtain ⟨payload, others, recipient, hdeliver, hrecipient⟩ :=
    exists_deliver (tail_subset hperm) hd
  refine ⟨payload, p.deliveryParams d payload recipient, ?_, ?_, fun hconfig => ?_,
    fun hrule field hfield => ?_⟩
  · rw [hdeliver]
    rfl
  · rw [hdeliver]
    rfl
  · exact find?_deliveryParams hconfig (.inl ⟨rfl, rfl⟩)
  · obtain ⟨hfeeds, hfrom⟩ := hrecipient (hrule ▸ rfl) field hfield
    exact ⟨hid ▸ hfeeds, fun hconfig => find?_deliveryParams hconfig (.inr ⟨rfl, hfrom⟩)⟩

/-- The plan for orders that go to the representatives of their customers.  Two loops call their
items by the same name: one takes the open orders, and the other what was read out of them. -/
def repOrdersPlan : Plan :=
  { chainedOrdersPlan with
    aiTasks := [⟨"mood", .sentiment, "Read the mood", none, none, [], []⟩,
      ⟨"reply", .summarize, "Draft a reply", some "body", none, [], []⟩]
    loops := [⟨"each", "open", "item", ["mood"], none, none⟩,
      ⟨"answer", "each", "item", ["reply"], none, none⟩]
    branches := []
    grouping := some ⟨some "rep", true⟩
    deliveries := [⟨some "mail", .email, "mailer", none, none, some "rep_email", []⟩,
      ⟨none, .database, "store", none, none, none, []⟩] }

/-- The steps of the plan for representatives. -/
def repOrdersSteps : List Step := ((grouped.steps repOrdersPlan default).toOption).getD []

/-- Each of the two loops hands its own item to its body, and the representatives get their orders
by mail. -/
theorem placeholders_covered_repOrdersPlan :
    repOrdersPlan.errors default = [] ∧ grouped ∈ builtIn ∧ grouped.accepts repOrdersPlan = true ∧
      grouped.steps repOrdersPlan default = .ok repOrdersSteps ∧
      (∃ s ∈ repOrdersSteps, s.id = "ai_mood" ∧ "loop_each" ∈ s.dependencies ∧
        s.work.dataTexts = [(Handle.ofItem "loop_each" "item").reference]) ∧
      (∃ s ∈ repOrdersSteps, s.id = "ai_reply" ∧ "loop_answer" ∈ s.dependencies ∧
        s.work.dataTexts = [(Handle.ofItem "loop_answer" "item").field "body"]) ∧
      ∃ s ∈ repOrdersSteps, s.id = "deliver_mail" ∧
        TransGen (Feeds repOrdersSteps) "loop_groups" s.id ∧
        ∃ payload operation params, s.work = .action "mailer" operation params ∧
          Entries.find? "content" params = some (.string payload.reference) ∧
          repOrdersPlan.Supplies repOrdersSteps payload ∧
          (∀ id, payload.step = some id → id ∈ s.dependencies) ∧
          Entries.find? "recipient" params =
            some (.string ((Handle.ofItem "loop_groups" "group").field "rep_email")) := by
  have hvalid : repOrdersPlan.errors default = [] := by decide
  have hmem : grouped ∈ builtIn := by simp [builtIn]
  have haccepts : grouped.accepts repOrdersPlan = true := rfl
  have hsteps : grouped.steps repOrdersPlan default = .ok repOrdersSteps := rfl
  obtain ⟨sites, hsites, ⟨rows, parts, hparts, hperm⟩, hcovered, hdeliveries⟩ :=
    placeholders_covered hvalid hmem haccepts
  have heq : sites.map Site.step = repOrdersSteps := Except.ok.inj (hsites.symm.trans hsteps)
  rw [heq] at hcovered hdeliveries
  -- Each body starts with a part that depends on nothing of its own.
  have hfirst : ∀ l ∈ repOrdersPlan.loops, ∀ part rest, repOrdersPlan.bodyParts l = part :: rest →
      .part repOrdersPlan part (.ofItem l.stepId l.itemName) ∈ sites := by
    intro l hl part rest hbody
    obtain ⟨body, hlaid, hsub⟩ := hparts.exists_loopSites hl
    exact hperm.mem_iff.mpr (List.mem_append_left _ (hsub (hlaid.first_mem hbody)))
  have hmood := hfirst _ List.mem_cons_self _ _ rfl
  have hreply := hfirst _ (List.mem_cons_of_mem _ List.mem_cons_self) _ _ rfl
  have hmail : ∃ s ∈ repOrdersSteps, s.id = "deliver_mail" := by decide +kernel
  obtain ⟨mail, hmail, hmailId⟩ := hmail
  obtain ⟨site, hsite, rfl⟩ := List.mem_map.mp (heq ▸ hmail)
  obtain ⟨payload, params, hpayload, hwork, hcontent, hrecipient⟩ :=
    hdeliveries "mail" _ List.mem_cons_self site hsite hmailId
  obtain ⟨hfeeds, hfrom⟩ := hrecipient rfl "rep_email" rfl
  have hdata : payload ∈ site.data := by
    rw [Site.data, hpayload]
    exact List.mem_append_right _ (List.mem_singleton_self payload)
  refine ⟨hvalid, hmem, haccepts, hsteps, ⟨_, heq ▸ List.mem_map_of_mem hmood, rfl, ?_, ?_⟩,
    ⟨_, heq ▸ List.mem_map_of_mem hreply, rfl, ?_, ?_⟩,
    site.step, hmail, hmailId, hfeeds, payload, _, params, hwork, hcontent (by decide),
    (hcovered site hsite).supplied _ hdata, (hcovered site hsite).listed _ hdata,
    hfrom (by decide)⟩
  · exact (hcovered _ hmood).listed _ List.mem_cons_self _ rfl
  · exact (hcovered _ hmood).texts
  · exact (hcovered _ hreply).listed _ List.mem_cons_self _ rfl
  · exact (hcovered _ hreply).texts

end Rule
end PlanFlow
