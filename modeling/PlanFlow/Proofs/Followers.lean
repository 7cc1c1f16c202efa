import PlanFlow.Proofs.Checks
import PlanFlow.Proofs.Rule.Groups

/-!
# What follows a loop

The steps in the body of a loop list the loop, and so do the steps that are to follow it: a loop has
one step, and no step stands for the end of its body.  In the schedule a step comes after the loops
that it lists, but of the steps that list a loop none is told from another by whether it is in the
body.  So what follows a loop comes after its body only where it is on a higher level for some other
reason.  In particular the sinks of a grouped plan that get all rows once are scheduled together
with the first steps for the groups.
-/

namespace PlanFlow

open Relation (TransGen)

/-- The ids of the steps that a loop runs for every item. -/
def Step.loopBody (s : Step) : List String :=
  match s.work with
  | .loop _ _ body _ _ => body
  | .action .. | .ai .. | .transform .. | .conditional .. => []

theorem Step.loopBody_subset_references (s : Step) : s.loopBody ⊆ s.references := by
  rw [loopBody, references]
  cases s.work with
  | loop => exact List.subset_append_right _ _
  | action | ai | transform | conditional => exact List.nil_subset _

namespace StepGraph

variable {steps : List Step} (hvalid : allErrors steps = [])
include hvalid

/-- A step that lists another, and else only what the other waits for, is one level above it. -/
theorem levelOf_follower {s : Step} (hs : s ∈ steps) {l : String} (hl : l ∈ s.dependencies)
    (hothers : ∀ d ∈ s.dependencies, d = l ∨ TransGen (Feeds steps) d l) :
    levelOf steps s.id = levelOf steps l + 1 := by
  refine levelOf_eq_succ hvalid hs hl fun d hd => ?_
  rcases hothers d hd with rfl | hfeeds
  · exact Nat.le_refl _
  · exact (levelOf_lt_of_transGen_feeds hvalid hfeeds).le

/-- Two steps that list a third, and else only what it waits for, are in one batch. -/
theorem exists_batch_of_followers {s t : Step} (hs : s ∈ steps) (ht : t ∈ steps) (hne : s ≠ t)
    {l : String} (hsl : l ∈ s.dependencies) (htl : l ∈ t.dependencies)
    (hothers : ∀ d ∈ s.dependencies ++ t.dependencies, d = l ∨ TransGen (Feeds steps) d l) :
    ∃ batch ∈ (scheduleOf steps).batches, s.id ∈ batch.steps ∧ t.id ∈ batch.steps := by
  rw [List.forall_mem_append] at hothers
  have hid : s.id ≠ t.id := fun heq =>
    hne (List.inj_on_of_nodup_map (nodup_of_valid hvalid) hs ht heq)
  refine exists_batch hvalid (List.mem_map_of_mem hs) (List.mem_map_of_mem ht) hid ?_
  rw [levelOf_follower hvalid hs hsl hothers.1, levelOf_follower hvalid ht htl hothers.2]

end StepGraph

namespace Workflow

/-- What follows a loop comes after all steps of its body, and is in no batch with one of them. -/
def BodiesFirst (w : Workflow) : Prop :=
  ∀ l ∈ w.steps, ∀ s ∈ w.steps, l.id ∈ s.dependencies → s.id ∉ l.loopBody →
    ∀ member ∈ l.loopBody, [member, s.id].Sublist w.schedule.order ∧
      ∀ batch ∈ w.schedule.batches, ¬(member ∈ batch.steps ∧ s.id ∈ batch.steps)

/-- What follows a loop is on a higher level than all steps of its body. -/
def BodiesLower (w : Workflow) : Prop :=
  ∀ l ∈ w.steps, ∀ s ∈ w.steps, l.id ∈ s.dependencies → s.id ∉ l.loopBody →
    ∀ member ∈ l.loopBody, StepGraph.levelOf w.steps member < StepGraph.levelOf w.steps s.id

theorem bodiesFirst_iff_bodiesLower {w : Workflow} (hvalid : StepGraph.allErrors w.steps = [])
    (hschedule : w.schedule = StepGraph.scheduleOf w.steps)
    (hclosed : ∀ l ∈ w.steps, l.references ⊆ w.steps.map Step.id) :
    w.BodiesFirst ↔ w.BodiesLower := by
  rw [BodiesFirst, BodiesLower, hschedule]
  refine forall₂_congr fun l hl => forall₂_congr fun s hs => ?_
  refine imp_congr_right fun _ => imp_congr_right fun _ => forall₂_congr fun member hmember => ?_
  have hid := hclosed l hl (l.loopBody_subset_references hmember)
  exact (StepGraph.levelOf_lt_iff hvalid hid (List.mem_map_of_mem hs)).symm

end Workflow

/-- A plan that does something for each group delivers nothing else. -/
def Plan.DeliversPerGroup (p : Plan) : Prop :=
  p.emitsPerGroup = true → Rule.groupBody p ≠ [] →
    ∀ key d, (key, d) ∈ p.keyedDeliveries → Rule.perGroup d = true

namespace Rule

variable {p : Plan} {rows : Handle} {steps : List Step}

/-- A plan that delivers once per group is accepted by the rule that groups alone. -/
theorem eq_grouped_of_accepts {r : Rule} (hr : r ∈ builtIn) (haccepts : r.accepts p = true)
    (hgroup : p.emitsPerGroup = true) : r = grouped := by
  simp only [builtIn, List.mem_cons, List.not_mem_nil, or_false] at hr
  rcases hr with rfl | rfl | rfl | rfl
  · rfl
  · simp [routed, hgroup] at haccepts
  · simp [enriched, hgroup] at haccepts
  · simp [simple, hgroup] at haccepts

/-- Some step in the body of the loop over the groups lists the loop alone: the one that renders a
group, or the first delivery. -/
theorem exists_first_of_groupBody (htail : groupedTail p rows ⊆ steps) (hbody : groupBody p ≠ []) :
    ∃ t ∈ steps, t.id ∈ groupBody p ∧ t.dependencies = [groupLoopId] := by
  obtain ⟨-, -, hrender, hgroups, -⟩ := groupedTail_subset_iff.mp htail
  cases hrendering : p.activeRendering with
  | some r =>
      refine ⟨p.renderStep r groupRenderId groupRows, hrender ?_, ?_, rfl⟩
      · simp [renderSteps, hrendering]
      · simp [groupBody, hrendering, Plan.renderStep]
  | none =>
      obtain ⟨id, hid⟩ := List.exists_mem_of_ne_nil _ hbody
      have hmem := hid
      simp only [groupBody, hrendering, Option.isSome_none, Bool.false_eq_true, if_false,
        List.nil_append] at hmem
      obtain ⟨⟨key, d⟩, hd, rfl⟩ := List.mem_map.mp hmem
      have hpayload : payloadOf d (rendered p groupRenderId) groupRows = groupRows := by
        simp [payloadOf, rendered, hrendering]
      obtain ⟨hd, hper⟩ := List.mem_filter.mp hd
      refine ⟨_, hgroups (mem_groupDeliverySteps hd hper), hid, ?_⟩
      rw [hpayload]
      rfl

/-- What the rows that are grouped wait for feeds the loop over the groups. -/
theorem feeds_groupLoop (hgroup : p.groupBy.isSome) (htail : groupedTail p rows ⊆ steps)
    {d : String} (hd : d ∈ rows.dependencies) : TransGen (Feeds steps) d groupLoopId := by
  obtain ⟨field, hfield⟩ := Option.isSome_iff_exists.mp hgroup
  obtain ⟨hgroupStep, hloopStep, -⟩ := groupedTail_subset_iff.mp htail
  have hgrouped : Upstream steps [groupId] d :=
    (Upstream.of_mem hd).through (hgroupStep field hfield) (List.Subset.refl _)
  exact hgrouped.feeds hloopStep (List.Subset.refl _)

/-- A delivery after the loop over the groups has a step, which lists the loop and the rows. -/
theorem exists_sink (htail : groupedTail p rows ⊆ steps) {key : String} {d : Delivery}
    (hd : (key, d) ∈ p.keyedDeliveries) (honce : perGroup d = false) :
    ∃ s ∈ steps, s.id = Plan.deliveryStepId key ∧
      ∀ x, x ∈ s.dependencies ↔ x = groupLoopId ∨ x ∈ rows.dependencies := by
  obtain ⟨-, -, -, -, hsinks⟩ := groupedTail_subset_iff.mp htail
  refine ⟨_, hsinks (mem_onceDeliverySteps hd honce rows), rfl, fun x => ?_⟩
  rw [← List.mem_singleton]
  exact mem_dependencies_deliveryStep

/-- If the loop over the groups has a body, every sink that gets all rows once is in one batch with
a step of it. -/
theorem exists_batch_of_sink (hp : p.Sound) (hgroup : p.groupBy.isSome)
    (hvalid : StepGraph.allErrors steps = []) (htail : groupedTail p rows ⊆ steps)
    (hbody : groupBody p ≠ []) {key : String} {d : Delivery} (hd : (key, d) ∈ p.keyedDeliveries)
    (honce : perGroup d = false) :
    ∃ member ∈ groupBody p, ∃ batch ∈ (StepGraph.scheduleOf steps).batches,
      Plan.deliveryStepId key ∈ batch.steps ∧ member ∈ batch.steps := by
  obtain ⟨t, ht, hmember, hlists⟩ := exists_first_of_groupBody htail hbody
  obtain ⟨s, hs, hid, hsink⟩ := exists_sink htail hd honce
  have hne : s ≠ t := by
    rintro rfl
    exact not_mem_groupBody hp hd honce (hid ▸ hmember)
  have hothers : ∀ other ∈ s.dependencies ++ t.dependencies,
      other = groupLoopId ∨ TransGen (Feeds steps) other groupLoopId := by
    intro other hother
    rw [hlists, List.mem_append, List.mem_singleton, hsink] at hother
    rcases hother with (hloop | hrows) | hloop
    · exact .inl hloop
    · exact .inr (feeds_groupLoop hgroup htail hrows)
    · exact .inl hloop
  have hloop : groupLoopId ∈ t.dependencies := hlists ▸ List.mem_singleton_self _
  rw [← hid]
  exact ⟨t.id, hmember,
    StepGraph.exists_batch_of_followers hvalid hs ht hne ((hsink _).mpr (.inl rfl)) hloop hothers⟩

/-- The steps of a rule contain its tail for some rows. -/
theorem exists_tail_subset {settings : Settings} {r : Rule} (hp : p.Sound) (hr : r ∈ builtIn)
    (haccepts : r.accepts p = true) (hsteps : r.steps p settings = .ok steps) :
    ∃ rows, r.tail p rows ⊆ steps := by
  have hparts : Emitter.Yields (emitParts p settings) .start _ :=
    Emitter.ingest_enrich_yields hp rfl
  obtain ⟨rows, e, _, -, hsteps', -, htail⟩ := exists_steps_of_parts hp hr haccepts hparts
  obtain rfl := Except.ok.inj (hsteps.symm.trans hsteps')
  exact ⟨rows, htail⟩

/-- A sink that gets all rows once does not come after the loop over the groups. -/
theorem deliversPerGroup_of_bodiesFirst {settings : Settings} {r : Rule} {w : Workflow}
    (hp : p.Sound) (hr : r ∈ builtIn) (haccepts : r.accepts p = true)
    (hsteps : r.steps p settings = .ok w.steps) (hvalid : StepGraph.allErrors w.steps = [])
    (hschedule : w.schedule = StepGraph.scheduleOf w.steps) (hfirst : w.BodiesFirst) :
    p.DeliversPerGroup := by
  intro hgroup hbody key d hd
  by_contra hper
  have honce : perGroup d = false := by simpa using hper
  obtain rfl := eq_grouped_of_accepts hr haccepts hgroup
  obtain ⟨rows, htail⟩ := exists_tail_subset hp hr haccepts hsteps
  obtain ⟨-, hloopStep, -⟩ := groupedTail_subset_iff.mp htail
  obtain ⟨s, hs, hid, hsink⟩ := exists_sink htail hd honce
  obtain ⟨member, hmember, batch, hbatch, hins, hinmember⟩ :=
    exists_batch_of_sink hp (groupBy_isSome_of_accepts haccepts) hvalid htail hbody hd honce
  rw [← hid] at hins
  rw [← hschedule] at hbatch
  have hout : s.id ∉ groupBody p := hid ▸ not_mem_groupBody hp hd honce
  have hafter := hfirst _ hloopStep s hs ((hsink _).mpr (.inl rfl)) hout member hmember
  exact hafter.2 batch hbatch ⟨hinmember, hins⟩

/-! ## Plans without loops of their own -/

/-- The parts of a plan without loops make no loop. -/
theorem loopBody_of_emitted {settings : Settings} {s : Step} (hloops : p.loops = [])
    (hs : Emitted p settings s) : s.loopBody = [] := by
  obtain ⟨site, hsite, rfl⟩ := hs
  cases hsite with
  | @part part _ _ _ _ _ _ => cases part <;> rfl
  | loop hl _ =>
      rw [hloops] at hl
      cases hl
  | fetch | merge | readReference | extractKeys | excludeKnown => rfl

/-- The only loop of a tail is the one over the groups. -/
theorem eq_groupLoopStep_of_mem_tail {r : Rule} (hr : r ∈ builtIn) {s : Step}
    (hs : s ∈ r.tail p rows) (hbody : s.loopBody ≠ []) : r = grouped ∧ s = groupLoopStep p := by
  have hmapped : ∀ {α : Type} (l : List α) (f : α → Step), (∀ a, (f a).loopBody = []) →
      s ∉ l.map f := by
    intro α l f hf hmem
    obtain ⟨a, -, rfl⟩ := List.mem_map.mp hmem
    exact hbody (hf a)
  simp only [builtIn, List.mem_cons, List.not_mem_nil, or_false] at hr
  rcases hr with rfl | rfl | rfl | rfl
  · simp only [tail, groupedTail, if_true, List.mem_append, List.mem_singleton] at hs
    rcases hs with (((hs | hs) | hs) | hs) | hs
    · exact absurd hs (hmapped _ _ fun _ => rfl)
    · exact ⟨rfl, hs⟩
    all_goals exact absurd hs (hmapped _ _ fun _ => rfl)
  · rcases List.mem_append.mp hs with hs | hs
    · rcases List.mem_append.mp hs with hs | hs
      all_goals exact absurd hs (hmapped _ _ fun _ => rfl)
    · exact absurd hs (hmapped _ _ fun _ => rfl)
  all_goals
    rcases List.mem_append.mp hs with hs | hs
    all_goals exact absurd hs (hmapped _ _ fun _ => rfl)

/-- In a grouped tail, what lists the loop over the groups is in its body or is a sink. -/
theorem mem_groupBody_or_sink {s : Step} (hs : s ∈ groupedTail p rows)
    (hrows : groupLoopId ∉ rows.dependencies) (hlists : groupLoopId ∈ s.dependencies) :
    s.id ∈ groupBody p ∨ ∃ key d, (key, d) ∈ p.keyedDeliveries ∧ perGroup d = false := by
  simp only [groupedTail, List.mem_append, List.mem_singleton] at hs
  rcases hs with (((hs | hs) | hs) | hs) | hs
  · obtain ⟨_, -, rfl⟩ := List.mem_map.mp hs
    exact absurd hlists hrows
  · rw [hs] at hlists
    exact absurd (List.mem_singleton.mp hlists) (by decide)
  · have hid : s.id ∈ renderIds p groupRenderId :=
      map_id_renderSteps p groupRenderId groupRows ▸ List.mem_map_of_mem hs
    exact .inl (List.mem_append_left _ hid)
  · obtain ⟨⟨key, d⟩, hmem, rfl⟩ := List.mem_map.mp hs
    exact .inl (List.mem_append_right _ (List.mem_map.mpr ⟨(key, d), hmem, rfl⟩))
  · obtain ⟨⟨key, d⟩, hmem, -⟩ := List.mem_map.mp hs
    obtain ⟨hd, honce⟩ := List.mem_filter.mp hmem
    exact .inr ⟨key, d, hd, by simpa using honce⟩

/-- Without loops of its own, a plan that delivers per group makes no step that follows a loop. -/
theorem mem_loopBody_of_deliversPerGroup {settings : Settings} {r : Rule} (hp : p.Sound)
    (hr : r ∈ builtIn) (haccepts : r.accepts p = true) (hloops : p.loops = [])
    (hdelivers : p.DeliversPerGroup) (hrows : Obtainable p rows)
    (hshape : ∀ s ∈ steps, Emitted p settings s ∨ s ∈ r.tail p rows)
    (hnodup : (p.emittedIds ++ r.tailIds p).Nodup) {l s : Step} (hl : l ∈ steps)
    (hbody : l.loopBody ≠ []) (hs : s ∈ steps) (hlists : l.id ∈ s.dependencies) :
    s.id ∈ l.loopBody := by
  have htail : l ∈ r.tail p rows :=
    (hshape l hl).resolve_left fun hemitted => hbody (loopBody_of_emitted hloops hemitted)
  obtain ⟨rfl, rfl⟩ := eq_groupLoopStep_of_mem_tail hr htail hbody
  have hnew : groupLoopId ∉ p.emittedIds := fun hmem =>
    (List.nodup_append.mp hnodup).2.2 _ hmem groupLoopId (by simp [tailIds]) rfl
  rcases hshape s hs with hemitted | hs
  · exact absurd (hemitted.references_subset hp (List.mem_append_left _ hlists)) hnew
  · have hother : groupLoopId ∉ rows.dependencies := fun hmem =>
      hnew (hrows.dependencies_subset hp hmem)
    rcases mem_groupBody_or_sink hs hother hlists with hmember | ⟨key, d, hd, honce⟩
    · exact hmember
    · have hgroup : p.emitsPerGroup = true := by
        simp only [grouped, Bool.and_eq_true] at haccepts
        exact haccepts.1.1
      exact absurd (hdelivers hgroup hbody key d hd) (by simp [honce])

end Rule

namespace Compiler

/-- In a workflow that was made by built-in rules, what follows a loop comes after its body, and is
in no batch with a step of the body, exactly if it is on a higher level than these steps.  It does
not if something is done for each group and something is delivered once; and for a plan without
loops of its own this is the only way in which it does not. -/
theorem bodies_first_iff {c : Compiler} (hrules : ∀ r ∈ c.rules.rules, r ∈ Rule.builtIn)
    {p : Plan} {w : Workflow} (hw : c.compile p = .success w) :
    (w.BodiesFirst ↔ w.BodiesLower) ∧ (w.BodiesFirst → p.DeliversPerGroup) ∧
      (p.loops = [] → p.DeliversPerGroup → w.BodiesFirst) := by
  obtain ⟨r, hr, haccepts, hvalid, hsteps, hgraph, hschedule⟩ :=
    exists_builtIn_of_success hrules hw
  have hp := Plan.sound_of_errors hvalid
  obtain ⟨rows, steps, hsteps', hrows, hshape, hids⟩ := Rule.exists_steps c.settings hp hr haccepts
  obtain rfl := Except.ok.inj (hsteps.symm.trans hsteps')
  have hclosed := Rule.references_subset_ids hp hr hrows hshape hids
  have hnodup := hids.nodup_iff.mp (StepGraph.nodup_of_valid hgraph)
  refine ⟨Workflow.bodiesFirst_iff_bodiesLower hgraph hschedule hclosed,
    Rule.deliversPerGroup_of_bodiesFirst hp hr haccepts hsteps hgraph hschedule, ?_⟩
  intro hloops hdelivers l hl s hs hlists hout member hmember
  have hin := Rule.mem_loopBody_of_deliversPerGroup hp hr haccepts hloops hdelivers hrows hshape
    hnodup hl (List.ne_nil_of_mem hmember) hs hlists
  exact absurd hin hout

/-! ## Leads by representative -/

/-- A sink for all leads. -/
def archive : Delivery :=
  ⟨some "archive", .database, "google-sheets", some "append_rows", none, none, []⟩

/-- A plan that groups leads by representative, mails a table to each, and delivers all leads to
sinks. -/
def repsPlan (sinks : List Delivery) : Plan :=
  { leadsPlan [] with
    sources := (leadsPlan []).sources.take 1
    grouping := some ⟨some "rep", true⟩
    rendering := some ⟨.table, [], none, none⟩
    deliveries := ⟨some "mail", .email, "google-mail", none, none, some "rep_email", []⟩ :: sinks }

theorem select_repsPlan (sinks : List Delivery) :
    RuleBook.standard.select (repsPlan sinks) = .ok Rule.grouped := by
  rw [RuleBook.select, RuleBook.ordered_standard]
  rfl

/-- The steps of the plan for representatives. -/
def repsSteps (sinks : List Delivery) : List Step :=
  ((Rule.grouped.steps (repsPlan sinks) default).toOption).getD []

/-- Without sinks nothing follows the loop over the representatives. -/
theorem bodies_first_iff_repsPlan :
    ∃ w, (standard leadsCatalog).compile (repsPlan []) = .success w ∧
      (∀ r ∈ (standard leadsCatalog).rules.rules, r ∈ Rule.builtIn) ∧
      Rule.groupLoopStep (repsPlan []) ∈ w.steps ∧
      Rule.groupBody (repsPlan []) = ["render_group", "deliver_mail"] ∧ w.BodiesFirst := by
  have hsteps : Rule.grouped.steps (repsPlan []) default = .ok (repsSteps []) := rfl
  obtain ⟨w, hw, heq, -⟩ := exists_workflow (c := standard leadsCatalog) (by decide +kernel)
    (select_repsPlan []) hsteps (by decide +kernel) (by decide +kernel) (by decide +kernel)
  have hrules : ∀ r ∈ (standard leadsCatalog).rules.rules, r ∈ Rule.builtIn := fun _ hr => hr
  have hloop : (repsSteps [])[2]? = some (Rule.groupLoopStep (repsPlan [])) := rfl
  have hdelivers : (repsPlan []).DeliversPerGroup := by
    rintro - - key d hd
    obtain ⟨-, rfl⟩ := Prod.mk.inj (List.mem_singleton.mp hd)
    rfl
  obtain ⟨-, -, hfirst⟩ := bodies_first_iff hrules hw
  exact ⟨w, hw, hrules, heq ▸ List.mem_of_getElem? hloop, rfl, hfirst rfl hdelivers⟩

/-- All leads are archived before the representatives get their mail, and while the tables for them
are rendered. -/
theorem sink_before_body_repsPlan :
    ∃ w, (standard leadsCatalog).compile (repsPlan [archive]) = .success w ∧
      (∃ s ∈ w.steps, s.id = "deliver_archive" ∧ "loop_groups" ∈ s.dependencies) ∧
      (∃ l ∈ w.steps, l.id = "loop_groups" ∧ l.loopBody = ["render_group", "deliver_mail"]) ∧
      ["deliver_archive", "deliver_mail"].Sublist w.schedule.order ∧
      (∃ batch ∈ w.schedule.batches, "deliver_archive" ∈ batch.steps ∧
        "render_group" ∈ batch.steps) ∧
      ¬w.BodiesFirst := by
  have hsteps : Rule.grouped.steps (repsPlan [archive]) default = .ok (repsSteps [archive]) := rfl
  obtain ⟨w, hw, heq, hschedule⟩ := exists_workflow (c := standard leadsCatalog)
    (by decide +kernel) (select_repsPlan [archive]) hsteps (by decide +kernel) (by decide +kernel)
    (by decide +kernel)
  have hsink : ∃ s ∈ repsSteps [archive], s.id = "deliver_archive" ∧
      "loop_groups" ∈ s.dependencies := by decide +kernel
  have hloop : ∃ l ∈ repsSteps [archive], l.id = "loop_groups" ∧
      l.loopBody = ["render_group", "deliver_mail"] := by decide +kernel
  have horder : ["deliver_archive", "deliver_mail"].Sublist
      (StepGraph.scheduleOf (repsSteps [archive])).order := by decide +kernel
  have hbatch : ∃ batch ∈ (StepGraph.scheduleOf (repsSteps [archive])).batches,
      "deliver_archive" ∈ batch.steps ∧ "render_group" ∈ batch.steps := by decide +kernel
  rw [← heq] at hsink hloop
  rw [← hschedule] at horder hbatch
  refine ⟨w, hw, hsink, hloop, horder, hbatch, fun hfirst => ?_⟩
  obtain ⟨s, hs, hid, hlists⟩ := hsink
  obtain ⟨l, hl, hloopId, hbody⟩ := hloop
  obtain ⟨batch, hmem, harchive, hrender⟩ := hbatch
  have hout : s.id ∉ l.loopBody := by
    rw [hid, hbody]
    decide
  have hmember : "render_group" ∈ l.loopBody := hbody ▸ List.mem_cons_self
  have hafter := hfirst l hl s hs (hloopId.symm ▸ hlists) hout "render_group" hmember
  exact hafter.2 batch hmem ⟨hrender, hid.symm ▸ harchive⟩

end Compiler
end PlanFlow
