import PlanFlow.Proofs.Rule.Deliveries
import PlanFlow.Proofs.Stages

/-!
# Which deliveries are checked

A delivery is checked against a lookup source if it waits, directly or through others, for the step
that drops the rows that the source knows.  Rows are checked before they reach the partitions,
transforms and AI tasks.  One of these that depends on something of its own takes that in place of
the rows, so whether deliveries are checked is up to what the last such part names; without one,
every delivery is checked against every lookup source.
-/

namespace PlanFlow

open Relation (TransGen)

namespace Plan

variable {p : Plan} {part : Part}

/-- The last part behind the checks that depends on something of its own. -/
def lastRewired? (p : Plan) : Option Part :=
  (Rule.chainAfter p).reverse.find? fun part => !part.dependsOn.isEmpty

theorem dependsOn_eq_nil_of_lastRewired? (h : p.lastRewired? = none) :
    ∀ part ∈ Rule.chainAfter p, part.dependsOn = [] := by
  intro part hpart
  simpa using List.find?_eq_none.mp h part (List.mem_reverse.mpr hpart)

theorem exists_of_lastRewired? (h : p.lastRewired? = some part) :
    part.dependsOn ≠ [] ∧ ∃ before after, Rule.chainAfter p = before ++ part :: after ∧
      ∀ other ∈ after, other.dependsOn = [] := by
  obtain ⟨hdepends, after, before, hsplit, hafter⟩ := List.find?_eq_some_iff_append.mp h
  refine ⟨by simpa using hdepends, before.reverse, after.reverse, ?_, fun other hother => ?_⟩
  · rw [← List.reverse_reverse (Rule.chainAfter p), hsplit]
    simp
  · simpa using hafter other (List.mem_reverse.mp hother)

theorem mem_chainAfter_of_lastRewired? (h : p.lastRewired? = some part) :
    part ∈ Rule.chainAfter p :=
  List.mem_reverse.mp (List.mem_of_find?_eq_some h)

end Plan

namespace Rule

open Emitter
open Emission (Covers)

variable {p : Plan} {part : Part} {r : Rule} {rows : Handle} {steps : List Step}
variable {ids : List String} {x : String}

/-! ## The rows that the parts end with -/

/-- The rows that are collected cover the checks, whatever the filters depend on. -/
theorem collect_covers_checks (settings : Settings) (hp : p.Sound) :
    Yields (collect p settings) .start fun h e' =>
      Obtainable p h ∧ e'.Covers (p.lookups.flatMap Source.checkIds) h := by
  show Yields (collect p settings) .start fun h e' =>
    Obtainable p h ∧ e'.Covers ([] ++ p.lookups.flatMap Source.checkIds) h
  refine collect_covers hp fun rows e hrows _ => ?_
  refine (emitChain_yields settings hp (fun _ => mem_parts_of_mem_chainFilters) hrows e).mono ?_
  exact fun _ _ _ => nofun

theorem emitParts_covers_checks (settings : Settings) (hp : p.Sound)
    (hlast : p.lastRewired? = none) :
    Yields (emitParts p settings) .start fun h e' =>
      e'.Covers (p.lookups.flatMap Source.checkIds) h := by
  rw [emitParts_eq]
  refine .bind (collect_covers_checks settings hp) ?_
  rintro rows e ⟨hrows, hcovers⟩
  refine (emitChain_covers hp (fun _ => mem_parts_of_mem_chainAfter)
    (Plan.dependsOn_eq_nil_of_lastRewired? hlast) hrows hcovers).mono fun h e' hall x hx => ?_
  exact hall x (List.mem_append_left _ hx)

/-- Behind the last part that depends on something of its own, parts and loops pass on what its step
leaves behind. -/
theorem emitParts_passes (settings : Settings) (hp : p.Sound) (hlast : p.lastRewired? = some part) :
    Yields (emitParts p settings) .start fun h e' =>
      (∃ chain, (Site.part p part chain).step ∈ e'.steps) ∧
        ∃ ids, ids ⊆ p.chainParts.map Part.stepId ++ p.loops.map Loop.stepId ∧
          Passes e'.steps [part.stepId] ids h.dependencies := by
  obtain ⟨-, before, after, hsplit, hafter⟩ := Plan.exists_of_lastRewired? hlast
  have hparts : ∀ other ∈ before ++ part :: after, other ∈ p.chainParts := by
    rw [← hsplit]
    exact fun _ => mem_chainParts_of_mem_chainAfter
  rw [emitParts_eq, hsplit]
  refine .bind (collect_covers_checks settings hp) ?_
  rintro rows e ⟨hrows, -⟩
  refine (emitChain_passes_of_last hp (fun other hother =>
    Plan.mem_parts_of_mem_chainParts (hparts other hother)) hafter hrows e).mono ?_
  rintro h e' ⟨hstep, ids, hids, hpasses⟩
  refine ⟨hstep, ids, List.Subset.trans hids (List.append_subset.mpr ⟨?_, ?_⟩), hpasses⟩
  · refine List.subset_append_of_subset_left _ (List.map_subset _ fun other hother => ?_)
    exact hparts other (List.mem_append_right _ (List.mem_cons_of_mem _ hother))
  · exact List.subset_append_right _ _

/-! ## From the deliveries back to the rows -/

/-- A check shares its id with no step of a tail, of a part or of a loop. -/
theorem check_not_mem (hnodup : (p.emittedIds ++ r.tailIds p).Nodup)
    (hx : x ∈ p.lookups.flatMap Source.checkIds) :
    x ∉ r.tailIds p ∧ x ∉ p.chainParts.map Part.stepId ++ p.loops.map Loop.stepId := by
  obtain ⟨hemitted, -, htail⟩ := List.nodup_append.mp hnodup
  obtain ⟨-, -, hparts⟩ := List.nodup_append.mp hemitted
  refine ⟨fun hmem => ?_, fun hmem => ?_⟩
  · exact htail x (List.mem_append_right _ hx) x hmem rfl
  · refine hparts x ?_ x hx rfl
    rcases List.mem_append.mp hmem with hmem | hmem
    · exact List.mem_append_left _ (List.mem_append_right _ hmem)
    · obtain ⟨l, hl, rfl⟩ := List.mem_map.mp hmem
      exact List.mem_append_right _ (List.mem_flatMap.mpr ⟨l, hl, List.mem_cons_self⟩)

/-- What feeds a delivery from outside the tail, and from outside the steps that passed the rows on,
lies upstream of what these steps started from. -/
theorem upstream_of_feeds_delivery (hp : p.Sound) (hr : r ∈ builtIn) (haccepts : r.accepts p = true)
    (hnodup : (steps.map Step.id).Nodup) (htail : r.tail p rows ⊆ steps) {source : List String}
    (hpasses : Passes steps source ids rows.dependencies) (hx : x ∉ r.tailIds p ++ ids)
    {key : String} (hkey : key ∈ p.deliveryIds)
    (h : TransGen (Feeds steps) x (Plan.deliveryStepId key)) : Upstream steps source x := by
  obtain ⟨hrows, hpath⟩ := hpasses.closed
  have hwider : ids ++ source ⊆ r.tailIds p ++ ids ++ source := by
    rw [List.append_assoc]
    exact List.subset_append_right _ _
  have hclosed : ∀ a b, Feeds steps a b → b ∈ r.tailIds p ++ ids →
      a ∈ r.tailIds p ++ ids ∨ a ∈ source := by
    rintro a b ⟨s, hs, rfl, ha⟩ hb
    rw [← List.mem_append]
    rcases List.mem_append.mp hb with hb | hb
    -- A step of the tail lists the rows and other steps of the tail.
    · obtain ⟨t, ht, hid⟩ := List.mem_map.mp ((map_id_tail hr haccepts rows).mem_iff.mpr hb)
      obtain rfl := List.inj_on_of_nodup_map hnodup (htail ht) hs hid
      have hlists := references_tail_subset hp hr (List.subset_append_left rows.dependencies _)
        (List.subset_append_right _ _) t ht (List.mem_append_left _ ha)
      rcases List.mem_append.mp hlists with hmem | hmem
      · exact hwider (hrows hmem)
      · exact List.mem_append_left _ (List.mem_append_left _ hmem)
    · obtain ⟨t, ht, hid, hlists⟩ := hpath s.id hb
      obtain rfl := List.inj_on_of_nodup_map hnodup ht hs hid
      exact hwider (hlists ha)
  refine .of_entry _ _ hclosed h (List.mem_append_left _ ?_) hx
  simp only [tailIds, List.mem_append]
  exact .inl (.inl (.inl (List.mem_map_of_mem hkey)))

/-- Behind a part that the rows were passed on from, a check feeds a delivery exactly if it feeds
that part. -/
theorem feeds_delivery_iff (hp : p.Sound) (hr : r ∈ builtIn) (haccepts : r.accepts p = true)
    (hnodup : (steps.map Step.id).Nodup)
    (hids : (steps.map Step.id).Perm (p.emittedIds ++ r.tailIds p))
    (htail : r.tail p rows ⊆ steps) (hpart : part ∈ p.chainParts)
    (hpath : ids ⊆ p.chainParts.map Part.stepId ++ p.loops.map Loop.stepId)
    (hpasses : Passes steps [part.stepId] ids rows.dependencies)
    (hx : x ∈ p.lookups.flatMap Source.checkIds) {key : String} (hkey : key ∈ p.deliveryIds) :
    TransGen (Feeds steps) x (Plan.deliveryStepId key) ↔ TransGen (Feeds steps) x part.stepId := by
  obtain ⟨hnotTail, hnotPath⟩ := check_not_mem (hids.nodup_iff.mp hnodup) hx
  constructor
  · intro h
    have hout : x ∉ r.tailIds p ++ ids := by
      rw [List.mem_append, not_or]
      exact ⟨hnotTail, fun hmem => hnotPath (hpath hmem)⟩
    obtain ⟨_, hmem, hreach⟩ :=
      upstream_of_feeds_delivery hp hr haccepts hnodup htail hpasses hout hkey h
    rw [List.mem_singleton.mp hmem] at hreach
    rcases Relation.reflTransGen_iff_eq_or_transGen.mp hreach with rfl | hfeeds
    · exact absurd (List.mem_append_left _ (List.mem_map_of_mem hpart)) hnotPath
    · exact hfeeds
  · intro h
    have hsource : Upstream steps [part.stepId] x :=
      ⟨part.stepId, List.mem_singleton_self _, h.to_reflTransGen⟩
    exact feeds_tail hr haccepts htail (hpasses.upstream (.inl hsource)) key hkey

/-- What lies upstream of a part that depends on something of its own lies upstream of something
that it names. -/
theorem upstream_waitsOf_iff (hdepends : part.dependsOn ≠ []) (hbody : p.inBody part.id = false)
    (chain : Handle) :
    Upstream steps (p.waitsOf part chain) x ↔
      ∃ id ∈ part.dependsOn, ∃ h, p.location? id = some h ∧ Upstream steps h.dependencies x := by
  constructor
  · rintro ⟨d, hd, hreach⟩
    obtain ⟨id, hid, h, hlocation, hmem⟩ :=
      (Plan.mem_waitsOf_iff_of_dependsOn hdepends hbody chain d).mp hd
    exact ⟨id, hid, h, hlocation, d, hmem, hreach⟩
  · rintro ⟨id, hid, h, hlocation, d, hmem, hreach⟩
    refine ⟨d, (Plan.mem_waitsOf_iff_of_dependsOn hdepends hbody chain d).mpr ?_, hreach⟩
    exact ⟨id, hid, h, hlocation, hmem⟩

end Rule

namespace Compiler

/-- A workflow that was made by built-in rules has the steps that one of them emits for the plan,
which has no errors. -/
theorem exists_builtIn_of_success {c : Compiler} (hrules : ∀ r ∈ c.rules.rules, r ∈ Rule.builtIn)
    {p : Plan} {w : Workflow} (hw : c.compile p = .success w) :
    ∃ r ∈ Rule.builtIn, r.accepts p = true ∧ p.errors c.settings = [] ∧
      r.steps p c.settings = .ok w.steps ∧ StepGraph.allErrors w.steps = [] ∧
      w.schedule = StepGraph.scheduleOf w.steps := by
  obtain ⟨r, hmakes⟩ := exists_makes_of_success hw
  exact ⟨r, hrules r hmakes.chosen.mem, hmakes.chosen.accepts, hmakes.valid, hmakes.emitted,
    hmakes.allErrors_eq_nil, hmakes.schedule⟩

/-- In a workflow that was made by built-in rules, every delivery waits for the step that drops the
rows known to a lookup source, if no partition, transform or AI task outside of bodies depends on
something of its own.  Otherwise it does exactly if the last of these names something whose data
comes from that step or waits for it. -/
theorem delivery_checked_iff {c : Compiler} (hrules : ∀ r ∈ c.rules.rules, r ∈ Rule.builtIn)
    {p : Plan} {w : Workflow} (hw : c.compile p = .success w) {l : Source} (hl : l ∈ p.lookups)
    {key : String} (hkey : key ∈ p.deliveryIds) :
    "filter_new_items_" ++ l.id ∈ w.steps.map Step.id ∧
    "deliver_" ++ key ∈ w.steps.map Step.id ∧
    match p.lastRewired? with
    | none => TransGen (Feeds w.steps) ("filter_new_items_" ++ l.id) ("deliver_" ++ key)
    | some part =>
      TransGen (Feeds w.steps) ("filter_new_items_" ++ l.id) ("deliver_" ++ key) ↔
        ∃ id ∈ part.dependsOn, ∃ h, p.location? id = some h ∧
          Upstream w.steps h.dependencies ("filter_new_items_" ++ l.id) := by
  obtain ⟨r, hr, haccepts, hvalid, hsteps, hgraph, -⟩ := exists_builtIn_of_success hrules hw
  have hp := Plan.sound_of_errors hvalid
  have hnodup := StepGraph.nodup_of_valid hgraph
  obtain ⟨_, steps, hsteps', -, -, hids⟩ := Rule.exists_steps c.settings hp hr haccepts
  obtain rfl := Except.ok.inj (hsteps.symm.trans hsteps')
  have hdrops : l.excludeKnownId ∈ l.checkIds := by simp [Source.checkIds]
  have hcheck : "filter_new_items_" ++ l.id ∈ p.lookups.flatMap Source.checkIds :=
    List.mem_flatMap.mpr ⟨l, hl, hdrops⟩
  refine ⟨hids.mem_iff.mpr ?_, hids.mem_iff.mpr ?_, ?_⟩
  · exact List.mem_append_left _ (Plan.mem_emittedIds.mpr (.inr (.inr (.inr (.inr hcheck)))))
  · refine List.mem_append_right _ ?_
    simp only [Rule.tailIds, List.mem_append]
    exact .inl (.inl (.inl (List.mem_map_of_mem hkey)))
  · cases hlast : p.lastRewired? with
    | none =>
        obtain ⟨rows, e, steps, hcovers, hsteps', hparts, htail⟩ := Rule.exists_steps_of_parts hp hr
          haccepts (Rule.emitParts_covers_checks c.settings hp hlast)
        obtain rfl := Except.ok.inj (hsteps.symm.trans hsteps')
        exact Rule.feeds_tail hr haccepts htail ((hcovers _ hcheck).mono hparts) key hkey
    | some part =>
        obtain ⟨rows, e, steps, ⟨⟨chain, hstep⟩, ids, hsubset, hpasses⟩, hsteps', hparts,
          htail⟩ := Rule.exists_steps_of_parts hp hr haccepts
            (Rule.emitParts_passes c.settings hp hlast)
        obtain rfl := Except.ok.inj (hsteps.symm.trans hsteps')
        have hpart := Rule.mem_chainParts_of_mem_chainAfter
          (Plan.mem_chainAfter_of_lastRewired? hlast)
        have hbody : p.inBody part.id = false := by simpa using (List.mem_filter.mp hpart).2
        obtain ⟨hdepends, -⟩ := Plan.exists_of_lastRewired? hlast
        refine (Rule.feeds_delivery_iff hp hr haccepts hnodup hids htail hpart hsubset
          (hpasses.mono hparts) hcheck hkey).trans ?_
        refine (transGen_feeds_iff hnodup (hparts hstep)).trans ?_
        exact Rule.upstream_waitsOf_iff hdepends hbody chain

/-! ## Leads -/

/-- A catalog with what plans about leads call. -/
def leadsCatalog : Catalog :=
  ⟨[("google-mail", ⟨none, [("send_email", .requiring [])]⟩),
    ("google-sheets", ⟨none, [("append_rows", .requiring []), ("read_range", .requiring [])]⟩)]⟩

/-- A plan that reads leads, leaves out those that were seen, transforms the others and mails
them. -/
def leadsPlan (transforms : List Transform) : Plan where
  version := "1.0"
  goal := "Mail new leads"
  sources := [⟨"leads", .tabular, "google-sheets", some "read_range", "Leads!A:E", .primary, none,
      none, []⟩,
    ⟨"seen", .tabular, "google-sheets", none, "Seen!A:A", .lookup, none, none, []⟩]
  filters := []
  transforms := transforms
  aiTasks := []
  branches := []
  loops := []
  partitions := []
  grouping := none
  rendering := none
  deliveries := [⟨some "mail", .email, "google-mail", none, some "desk@example.com", none, []⟩]
  edgeCases := []
  clarifications := []

theorem select_leadsPlan (transforms : List Transform) :
    RuleBook.standard.select (leadsPlan transforms) = .ok Rule.simple := by
  rw [RuleBook.select, RuleBook.ordered_standard]
  rfl

/-- The steps of a plan about leads. -/
def leadsSteps (transforms : List Transform) : List Step :=
  ((Rule.simple.steps (leadsPlan transforms) default).toOption).getD []

/-- A transform that sorts the leads as they were read, and not the rows that are left of them. -/
def sortAll : List Transform := [⟨"top", .sort, [], ["leads"]⟩]

/-- A transform that sorts the leads that are left, and one that takes what was sorted. -/
def sortNew : List Transform := [⟨"top", .sort, [], []⟩, ⟨"few", .limit, [], ["top"]⟩]

/-- A plan about leads becomes a workflow if its steps are in order. -/
theorem exists_leadsWorkflow (transforms : List Transform)
    (hvalid : (leadsPlan transforms).errors default = [])
    (hsteps : Rule.simple.steps (leadsPlan transforms) default = .ok (leadsSteps transforms))
    (hcalls : ∀ s ∈ leadsSteps transforms, callErrors leadsCatalog s = [])
    (hnodup : ((leadsSteps transforms).map Step.id).Nodup)
    (hlt : ∀ s ∈ leadsSteps transforms, ∀ d ∈ s.dependencies,
      ((leadsSteps transforms).map Step.id).idxOf d <
        ((leadsSteps transforms).map Step.id).idxOf s.id) :
    ∃ w, (standard leadsCatalog).compile (leadsPlan transforms) = .success w ∧
      w.steps = leadsSteps transforms := by
  obtain ⟨w, hw, heq, -⟩ := exists_workflow (c := standard leadsCatalog) hvalid
    (select_leadsPlan transforms) hsteps hcalls hnodup hlt
  exact ⟨w, hw, heq⟩

/-- Sorting what was sorted before, a delivery is checked: what the last transform names is. -/
theorem delivery_checked_iff_sortNew :
    ∃ w, (standard leadsCatalog).compile (leadsPlan sortNew) = .success w ∧
      (∀ r ∈ (standard leadsCatalog).rules.rules, r ∈ Rule.builtIn) ∧
      (∃ l ∈ (leadsPlan sortNew).lookups, l.id = "seen") ∧
      "mail" ∈ (leadsPlan sortNew).deliveryIds ∧
      TransGen (Feeds w.steps) "filter_new_items_seen" "deliver_mail" := by
  obtain ⟨w, hw, hsteps⟩ := exists_leadsWorkflow sortNew (by decide +kernel) rfl
    (by decide +kernel) (by decide +kernel) (by decide +kernel)
  have hrules : ∀ r ∈ (standard leadsCatalog).rules.rules, r ∈ Rule.builtIn := fun _ hr => hr
  obtain ⟨l, hl, hid⟩ : ∃ l ∈ (leadsPlan sortNew).lookups, l.id = "seen" := by decide
  have hkey : "mail" ∈ (leadsPlan sortNew).deliveryIds := by decide
  obtain ⟨-, -, hchecked⟩ := delivery_checked_iff hrules hw hl hkey
  rw [hid] at hchecked
  refine ⟨w, hw, hrules, ⟨l, hl, hid⟩, hkey, hchecked.mpr ?_⟩
  refine ⟨"top", List.mem_singleton_self _, .ofStep "transform_top", rfl, ?_⟩
  have hfeeds : Feeds w.steps "filter_new_items_seen" "transform_top" := by
    rw [hsteps]
    decide +kernel
  exact ⟨"transform_top", List.mem_singleton_self _, .single hfeeds⟩

/-- Sorting the leads as they were read goes around the checks: the delivery does not wait for them,
though the plan has a source of leads that were seen. -/
theorem unchecked_delivery_sortAll :
    ∃ w, (standard leadsCatalog).compile (leadsPlan sortAll) = .success w ∧
      (∃ l ∈ (leadsPlan sortAll).lookups, l.id = "seen") ∧
      "mail" ∈ (leadsPlan sortAll).deliveryIds ∧ "deliver_mail" ∈ w.steps.map Step.id ∧
      ¬TransGen (Feeds w.steps) "filter_new_items_seen" "deliver_mail" := by
  obtain ⟨w, hw, hsteps⟩ := exists_leadsWorkflow sortAll (by decide +kernel) rfl
    (by decide +kernel) (by decide +kernel) (by decide +kernel)
  refine ⟨w, hw, by decide, by decide, by rw [hsteps]; decide +kernel, fun h => ?_⟩
  -- From the delivery back there are only the transform and the leads as they were read.
  let inside := ["fetch_leads", "transform_top", "deliver_mail"]
  have hclosed : ∀ s ∈ w.steps, s.id ∈ inside → s.dependencies ⊆ inside := by
    rw [hsteps]
    decide +kernel
  have hentry : Upstream w.steps [] "filter_new_items_seen" := by
    refine .of_entry inside [] ?_ h (by decide) (by decide)
    rintro a b ⟨s, hs, rfl, ha⟩ hb
    exact .inl (hclosed s hs hb ha)
  obtain ⟨_, hmem, -⟩ := hentry
  cases hmem

end Compiler
end PlanFlow
