import Mathlib.Data.Set.Finite.Basic
import PlanFlow.Proofs.Rule.Sequence

/-!
# Nested loops

A loop is nested in another if it iterates over that loop, or over a part in its body.  Along the
nesting the steps of loops wait for each other, so loops that are nested in each other in a circle
give steps that wait for themselves.  This is the only way to such steps: the chain can always be
finished, a loop can be finished once those that it is nested in can be, and after the loops so can
the parts in their bodies and the tail.
-/

namespace PlanFlow

open Relation (TransGen)

/-- A loop is nested in another, which is given first. -/
def Plan.Nests (p : Plan) (outer l : Loop) : Prop :=
  outer ∈ p.loops ∧ l ∈ p.loops ∧ (l.iterateOver = outer.id ∨ l.iterateOver ∈ outer.body)

/-- What holds of a loop if it holds of those that it is nested in holds of all loops, if none is
nested in itself. -/
theorem Plan.nests_induction {p : Plan} (hnesting : ∀ l, ¬TransGen p.Nests l l)
    {motive : Loop → Prop}
    (h : ∀ l ∈ p.loops, (∀ outer, p.Nests outer l → motive outer) → motive l) :
    ∀ l ∈ p.loops, motive l := by
  -- There are finitely many loops, so going outwards comes to an end.
  let outside (outer l : {l // l ∈ p.loops}) : Prop := TransGen p.Nests outer.1 l.1
  have hfinite : Finite {l // l ∈ p.loops} := (List.finite_toSet p.loops).to_subtype
  have htrans : IsTrans {l // l ∈ p.loops} outside := ⟨fun _ _ _ => TransGen.trans⟩
  have hirrefl : Std.Irrefl outside := ⟨fun l => hnesting l.1⟩
  have hwf : WellFounded outside := Finite.wellFounded_of_trans_of_irrefl outside
  have hloops : ∀ l : {l // l ∈ p.loops}, motive l.1 := by
    intro l
    induction l using hwf.induction with
    | _ l ih => exact h l.1 l.2 fun outer hnests => ih ⟨outer, hnests.1⟩ (.single hnests)
  exact fun l hl => hloops ⟨l, hl⟩

namespace Rule

open Emitter
open Emission (Founds)

variable {p : Plan} {settings : Settings} {rows : Handle} {steps : List Step} {x : String}

/-! ## Circles -/

section Wired

variable (hp : p.Sound) (hdepends : ∀ part ∈ p.parts, part.dependsOn = [])
variable (hwired : ∀ l ∈ p.loops, p.Wired steps l)
include hp hdepends hwired

/-- The step of a loop waits for those of the loops that it is nested in. -/
theorem feeds_of_nests {outer l : Loop} (h : p.Nests outer l) :
    TransGen (Feeds steps) outer.stepId l.stepId := by
  obtain ⟨houter, hl, hnests⟩ := h
  obtain ⟨rows, hrows, hstep⟩ := (hwired l hl).step
  rcases hnests with hover | hmember
  · rw [hover, hp.location?_loop houter] at hrows
    obtain rfl := Option.some.inj hrows
    exact .single ⟨_, hstep, rfl, List.mem_singleton_self _⟩
  · obtain ⟨part, hpart, hid⟩ := hp.exists_part_of_body houter hmember
    rw [← hid, hp.location?_part hpart] at hrows
    obtain rfl := Option.some.inj hrows
    obtain ⟨ids, target, hids, hpasses⟩ := (hwired outer houter).body hdepends
    have hbody : part ∈ p.bodyParts outer :=
      List.mem_filterMap.mpr ⟨part.id, hid ▸ hmember, hp.part?_of_mem hpart⟩
    have hfirst : TransGen (Feeds steps) outer.stepId part.stepId :=
      hpasses.feeds (.of_mem (List.mem_singleton_self _)) (hids (List.mem_map_of_mem hbody))
    exact hfirst.tail ⟨_, hstep, rfl, List.mem_singleton_self _⟩

theorem feeds_of_transGen_nests {outer l : Loop} (h : TransGen p.Nests outer l) :
    TransGen (Feeds steps) outer.stepId l.stepId := by
  induction h with
  | single hnests => exact feeds_of_nests hp hdepends hwired hnests
  | tail _ hnests ih => exact ih.trans (feeds_of_nests hp hdepends hwired hnests)

/-! ## Loops that can be finished -/

omit hdepends hwired in
/-- What has to be finished before a loop can run over its data is in the chain, or belongs to a
loop that it is nested in. -/
theorem mem_chainIds_or_nests {l : Loop} (hl : l ∈ p.loops)
    (hrows : p.location? l.iterateOver = some rows) {d : String} (hd : d ∈ rows.dependencies) :
    d ∈ chainIds p ∨ ∃ outer, p.Nests outer l ∧ d ∈ p.loopIds outer := by
  have hmem := List.mem_reverse.mp (Entries.mem_of_find? hrows)
  simp only [Plan.locations, List.mem_append, List.mem_map, Prod.mk.injEq] at hmem
  rcases hmem with (⟨s, hs, -, rfl⟩ | ⟨part, hpart, hid, rfl⟩) | ⟨outer, houter, hid, rfl⟩
  · left
    simp only [chainIds, List.mem_append]
    rcases List.mem_append.mp (Plan.source_dependencies_subset hs hd) with hfetch | hcheck
    · exact .inl (.inl (.inl hfetch))
    · exact .inl (.inr hcheck)
  · obtain rfl := List.mem_singleton.mp hd
    by_cases hbody : p.inBody part.id = true
    · obtain ⟨outer, houter, hmember⟩ := List.any_eq_true.mp hbody
      have hmember := List.contains_iff_mem.mp hmember
      refine .inr ⟨outer, ⟨houter, hl, .inr (hid ▸ hmember)⟩, ?_⟩
      apply List.mem_cons_of_mem
      apply List.mem_map_of_mem
      exact List.mem_filterMap.mpr ⟨part.id, hmember, hp.part?_of_mem hpart⟩
    · have hpart' : part ∈ p.chainParts := List.mem_filter.mpr ⟨hpart, by simpa using hbody⟩
      exact .inl (List.mem_append_right _ (List.mem_map_of_mem hpart'))
  · obtain rfl := List.mem_singleton.mp hd
    exact .inr ⟨outer, ⟨houter, hl, .inl hid.symm⟩, List.mem_cons_self⟩

/-- A loop can be finished with its body if the chain and the loops that it is nested in can be. -/
theorem founded_of_nests (hchain : ∀ id ∈ chainIds p, Founded steps id) {l : Loop}
    (hl : l ∈ p.loops)
    (houters : ∀ outer, p.Nests outer l → ∀ id ∈ p.loopIds outer, Founded steps id) :
    ∀ id ∈ p.loopIds l, Founded steps id := by
  obtain ⟨rows, hrows, hstep⟩ := (hwired l hl).step
  obtain ⟨ids, target, hids, hpasses⟩ := (hwired l hl).body hdepends
  have hloop : Founded steps l.stepId := by
    refine .step hstep fun d hd => ?_
    rcases mem_chainIds_or_nests hp hl hrows hd with hd | ⟨outer, hnests, hd⟩
    · exact hchain d hd
    · exact houters outer hnests d hd
  intro id hid
  rcases List.mem_cons.mp hid with rfl | hid
  · exact hloop
  · exact (hpasses.founded (List.forall_mem_singleton.mpr hloop)).1 id (hids hid)

/-- If no loop is nested in itself, all can be finished, with their bodies. -/
theorem founded_loopIds (hchain : ∀ id ∈ chainIds p, Founded steps id)
    (hnesting : ∀ l, ¬TransGen p.Nests l l) :
    ∀ l ∈ p.loops, ∀ id ∈ p.loopIds l, Founded steps id :=
  Plan.nests_induction hnesting fun _ hl houters =>
    founded_of_nests hp hdepends hwired hchain hl houters

end Wired

/-! ## All steps -/

/-- Where no part depends on something of its own, the rows that the parts end with can be
finished. -/
theorem emitParts_founds (settings : Settings) (hp : p.Sound)
    (hdepends : ∀ part ∈ p.parts, part.dependsOn = []) :
    Yields (emitParts p settings) .start fun h e' => e'.Founds h :=
  (emitParts_orderly settings hp hdepends).mono fun _ _ horderly => horderly.founds

/-- If no loop is nested in itself, all steps can be finished. -/
theorem founded_steps (hp : p.Sound) (hdepends : ∀ part ∈ p.parts, part.dependsOn = []) {r : Rule}
    (hr : r ∈ builtIn) (haccepts : r.accepts p = true)
    (hwired : ∀ l ∈ p.loops, p.Wired steps l)
    (hrows : ∀ id ∈ rows.dependencies, Founded steps id)
    (hcovers : ∀ id ∈ chainIds p, Upstream steps rows.dependencies id)
    (htail : r.tail p rows ⊆ steps)
    (hids : (steps.map Step.id).Perm (p.emittedIds ++ r.tailIds p))
    (hnodup : (steps.map Step.id).Nodup) (hnesting : ∀ l, ¬TransGen p.Nests l l) :
    ∀ s ∈ steps, Founded steps s.id := by
  have hchain : ∀ id ∈ chainIds p, Founded steps id := fun id hid =>
    .of_upstream hnodup hrows (hcovers id hid)
  intro s hs
  have hmem := hids.mem_iff.mp (List.mem_map_of_mem hs)
  rw [List.mem_append, Plan.mem_emittedIds] at hmem
  simp only [chainIds, List.forall_mem_append] at hchain
  obtain ⟨⟨⟨hfetch, hmerge⟩, hcheck⟩, hpart⟩ := hchain
  rcases hmem with (hmem | hmem | hmem | hmem | hmem) | hmem
  · exact hfetch _ hmem
  · exact hmerge _ hmem
  · exact hpart _ hmem
  · obtain ⟨l, hl, hid⟩ := List.mem_flatMap.mp hmem
    refine founded_loopIds hp hdepends hwired ?_ hnesting l hl _ hid
    simp only [chainIds, List.forall_mem_append]
    exact ⟨⟨⟨hfetch, hmerge⟩, hcheck⟩, hpart⟩
  · exact hcheck _ hmem
  · rw [← (map_id_tail hr haccepts rows).mem_iff] at hmem
    obtain ⟨t, ht, hid⟩ := List.mem_map.mp hmem
    exact hid ▸ (tail_inOrder hr haccepts rows).founded hrows htail t ht

/-- If a plan has no errors and none of its parts depends on something of its own, then by every
built-in rule that accepts the plan steps are emitted that, unless an id is reported to be used
twice, wait for themselves exactly if some loop is nested in itself, directly or through others. -/
theorem acyclic_iff_nesting {p : Plan} {settings : Settings} (hvalid : p.errors settings = [])
    (hdepends : ∀ part ∈ p.parts, part.dependsOn = []) {r : Rule} (hr : r ∈ builtIn)
    (haccepts : r.accepts p = true) :
    ∃ steps, r.steps p settings = .ok steps ∧
      ((∀ id, .duplicateStep id ∉ (Validation.ofSteps settings steps).errors) →
        ((∀ id, ¬TransGen (Feeds steps) id id) ↔ ∀ l, ¬TransGen p.Nests l l)) := by
  have hp := Plan.sound_of_errors hvalid
  obtain ⟨rows, e, steps, ⟨hfounds, hcovers⟩, hsteps, hsub, htail, hwired⟩ :=
    exists_steps_wired hp hr haccepts
      ((emitParts_founds settings hp hdepends).and (emitParts_covers settings hp hdepends))
  obtain ⟨_, steps', hsteps', -, -, hids⟩ := exists_steps settings hp hr haccepts
  obtain rfl := Except.ok.inj (hsteps.symm.trans hsteps')
  refine ⟨steps, hsteps, fun hdistinct => ?_⟩
  rw [Validation.errors_ofSteps, ← StepGraph.nodup_iff_duplicateStep_not_mem] at hdistinct
  constructor
  · intro hacyclic l hcircle
    exact hacyclic _ (feeds_of_transGen_nests hp hdepends hwired hcircle)
  · intro hnesting
    refine Founded.acyclic hdistinct (founded_steps hp hdepends hr haccepts hwired ?_ ?_ htail hids
      hdistinct hnesting)
    · exact fun id hid => (hfounds id hid).mono hsub
    · exact fun id hid => (hcovers id hid).mono hsub

/-- The plan for orders with a loop that reads the mood of each, and one over what was read. -/
def nestedOrdersPlan (base : String) : Plan :=
  { chainedOrdersPlan with
    loops := [⟨"each", base, "order", ["mood"], none, none⟩,
      ⟨"again", "mood", "result", [], none, none⟩] }

/-- The steps of the plan with nested loops. -/
def nestedOrdersSteps (base : String) : List Step :=
  ((routed.steps (nestedOrdersPlan base) default).toOption).getD []

/-- The moods can be read of the open orders, but not of what they are read of. -/
theorem acyclic_iff_nesting_nestedOrdersPlan :
    (∀ base ∈ ["open", "mood"], (nestedOrdersPlan base).errors default = [] ∧
      (∀ part ∈ (nestedOrdersPlan base).parts, part.dependsOn = []) ∧
      routed.accepts (nestedOrdersPlan base) = true ∧
      routed.steps (nestedOrdersPlan base) default = .ok (nestedOrdersSteps base) ∧
      ∀ id, .duplicateStep id ∉ (Validation.ofSteps default (nestedOrdersSteps base)).errors) ∧
    routed ∈ builtIn ∧
    (∃ outer l, (nestedOrdersPlan "open").Nests outer l) ∧
    (∀ id, ¬TransGen (Feeds (nestedOrdersSteps "open")) id id) ∧
    ∃ id, TransGen (Feeds (nestedOrdersSteps "mood")) id id := by
  have hmem : routed ∈ builtIn := by simp [builtIn]
  have hplans : ∀ base ∈ ["open", "mood"], (nestedOrdersPlan base).errors default = [] ∧
      (∀ part ∈ (nestedOrdersPlan base).parts, part.dependsOn = []) ∧
      routed.accepts (nestedOrdersPlan base) = true ∧
      routed.steps (nestedOrdersPlan base) default = .ok (nestedOrdersSteps base) ∧
      ∀ id, .duplicateStep id ∉ (Validation.ofSteps default (nestedOrdersSteps base)).errors := by
    simp only [Validation.errors_ofSteps, ← StepGraph.nodup_iff_duplicateStep_not_mem,
      List.forall_mem_cons, List.not_mem_nil, false_implies, implies_true, and_true]
    refine ⟨⟨by decide, by decide, rfl, rfl, by decide +kernel⟩,
      by decide, by decide, rfl, rfl, by decide +kernel⟩
  have hiff : ∀ base ∈ ["open", "mood"],
      ((∀ id, ¬TransGen (Feeds (nestedOrdersSteps base)) id id) ↔
        ∀ l, ¬TransGen (nestedOrdersPlan base).Nests l l) := by
    intro base hbase
    obtain ⟨hvalid, hdepends, haccepts, hsteps, hdistinct⟩ := hplans base hbase
    obtain ⟨steps, hsteps', hacyclic⟩ := acyclic_iff_nesting hvalid hdepends hmem haccepts
    obtain rfl := Except.ok.inj (hsteps.symm.trans hsteps')
    exact hacyclic hdistinct
  refine ⟨hplans, hmem, ?_, (hiff "open" (by simp)).mpr fun l hcircle => ?_, ?_⟩
  · refine ⟨_, _, List.mem_cons_self, List.mem_cons_of_mem _ List.mem_cons_self, .inr ?_⟩
    exact List.mem_singleton_self _
  -- Only the second loop is nested in another, and only in the first.
  · have honly : ∀ outer l, (nestedOrdersPlan "open").Nests outer l →
        outer.id = "each" ∧ l.id = "again" := by
      rintro outer l ⟨houter, hl, hnests⟩
      simp only [nestedOrdersPlan, List.mem_cons, List.not_mem_nil, or_false] at houter hl
      rcases houter with rfl | rfl <;> rcases hl with rfl | rfl <;> simp_all
    obtain ⟨outer, -, hlast⟩ := TransGen.tail'_iff.mp hcircle
    obtain ⟨inner, hfirst, -⟩ := TransGen.head'_iff.mp hcircle
    have heach := (honly l inner hfirst).1
    rw [(honly outer l hlast).2] at heach
    exact absurd heach (by decide)
  · by_contra hnone
    refine (hiff "mood" (by simp)).mp (not_exists.mp hnone) _
      (.single ⟨List.mem_cons_self, List.mem_cons_self, .inr ?_⟩)
    exact List.mem_singleton_self _

end Rule
end PlanFlow
