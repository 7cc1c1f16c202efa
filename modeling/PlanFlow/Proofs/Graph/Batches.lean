import PlanFlow.Proofs.Graph.Placement

/-!
# What may run at the same time

A batch is a whole level: the steps of one depth in their order, if there is more than one.  So a
step is in one batch if it shares its depth with another step, and in none if it does not.  Depths
rise along dependencies, so the steps of a batch do not wait for each other, not even through steps
of other depths.
-/

namespace PlanFlow

open Relation (TransGen)

/-- The ids of a schedule that have a depth, in the order. -/
def Schedule.level (s : Schedule) (depth : Nat) : List String :=
  s.order.filter fun id => s.depthOf id == depth

/-- A step shares its depth with another one. -/
def Schedule.SharesDepth (s : Schedule) (steps : List Step) (t : Step) : Prop :=
  ∃ u ∈ steps, u.id ≠ t.id ∧ s.depthOf u.id = s.depthOf t.id

namespace StepGraph

variable {steps : List Step}

/-- Batches stand by ascending depth. -/
theorem pairwise_depth_batches :
    (scheduleOf steps).batches.Pairwise fun a b => a.depth < b.depth := by
  refine List.pairwise_filterMap.mpr (List.pairwise_lt_range.imp ?_)
  intro m n hlt a ha b hb
  dsimp only at ha hb
  split at ha
  · split at hb
    · obtain rfl := Option.some.inj ha
      obtain rfl := Option.some.inj hb
      exact hlt
    · cases hb
  · cases ha

section Valid

variable (hvalid : allErrors steps = [])
include hvalid

theorem depthOf_scheduleOf_of_mem {id : String} (hid : id ∈ steps.map Step.id) :
    (scheduleOf steps).depthOf id = levelOf steps id := by
  obtain ⟨s, hs, rfl⟩ := List.mem_map.mp hid
  exact depthOf_scheduleOf hvalid hs

/-- The steps of a depth are a level of the schedule. -/
theorem atDepth_eq_level (depth : Nat) :
    (ofSteps steps).atDepth (Chains.ofOrder (ofSteps steps) (ofSteps steps).order)
      (ofSteps steps).order depth = (scheduleOf steps).level depth := by
  have horder : (scheduleOf steps).order = (ofSteps steps).order.map (ofSteps steps).idAt := rfl
  rw [Schedule.level, horder, List.filter_map, atDepth]
  congr 1
  refine List.filter_congr fun i hi => ?_
  have hid : (ofSteps steps).idAt i ∈ steps.map Step.id :=
    (order_perm_ids hvalid).mem_iff.mp (List.mem_map_of_mem hi)
  rw [Function.comp, depthOf_scheduleOf_of_mem hvalid hid, levelOf_idAt hvalid hi]

theorem mem_level_iff {id : String} {depth : Nat} :
    id ∈ (scheduleOf steps).level depth ↔ id ∈ steps.map Step.id ∧ levelOf steps id = depth := by
  rw [← atDepth_eq_level hvalid, mem_atDepth_iff hvalid]

theorem nodup_level (depth : Nat) : ((scheduleOf steps).level depth).Nodup :=
  ((order_perm_ids hvalid).nodup_iff.mpr (nodup_of_valid hvalid)).filter _

/-- The batches are the levels of more than one step. -/
theorem mem_batches_iff {batch : Batch} :
    batch ∈ (scheduleOf steps).batches ↔
      batch.steps = (scheduleOf steps).level batch.depth ∧ 2 ≤ batch.steps.length := by
  constructor
  · intro hbatch
    obtain ⟨depth, -, hsome⟩ := List.mem_filterMap.mp hbatch
    dsimp only at hsome
    split at hsome
    · rename_i hlong
      obtain rfl := Option.some.inj hsome
      exact ⟨atDepth_eq_level hvalid depth, hlong⟩
    · cases hsome
  · rintro ⟨hsteps, hlong⟩
    rw [hsteps, ← atDepth_eq_level hvalid] at hlong
    -- The level has a member, so its depth is one that a step can have.
    obtain ⟨id, hid⟩ := List.exists_mem_of_length_pos (Nat.lt_of_succ_lt hlong)
    obtain ⟨hid, hdepth⟩ := (mem_atDepth_iff hvalid).mp hid
    have hle : batch.depth ≤ (scheduleOf steps).maxDepth := hdepth ▸ levelOf_le_maxDepth hid
    refine List.mem_filterMap.mpr ⟨batch.depth, List.mem_range.mpr (Nat.lt_succ_of_le hle), ?_⟩
    refine (if_pos hlong).trans (congrArg some ?_)
    rw [atDepth_eq_level hvalid, ← hsteps]

theorem nodup_of_mem_batches {batch : Batch} (hbatch : batch ∈ (scheduleOf steps).batches) :
    batch.steps.Nodup := by
  rw [((mem_batches_iff hvalid).mp hbatch).1]
  exact nodup_level hvalid _

theorem depth_eq_of_mem_batches {batch : Batch} (hbatch : batch ∈ (scheduleOf steps).batches)
    {id : String} (hid : id ∈ batch.steps) :
    id ∈ steps.map Step.id ∧ levelOf steps id = batch.depth := by
  rw [((mem_batches_iff hvalid).mp hbatch).1] at hid
  exact (mem_level_iff hvalid).mp hid

/-- A batch is known from its depth. -/
theorem batch_ext {a b : Batch} (ha : a ∈ (scheduleOf steps).batches)
    (hb : b ∈ (scheduleOf steps).batches) (hdepth : a.depth = b.depth) : a = b := by
  have hsteps : a.steps = b.steps := by
    rw [((mem_batches_iff hvalid).mp ha).1, ((mem_batches_iff hvalid).mp hb).1, hdepth]
  cases a
  cases b
  simp_all

/-- The steps that share their depth are the members of batches. -/
theorem sharesDepth_iff {t : Step} (ht : t ∈ steps) :
    (scheduleOf steps).SharesDepth steps t ↔
      ∃ batch ∈ (scheduleOf steps).batches, t.id ∈ batch.steps := by
  have hid : t.id ∈ steps.map Step.id := List.mem_map_of_mem ht
  constructor
  · rintro ⟨u, hu, hne, hdepth⟩
    rw [depthOf_scheduleOf hvalid hu, depthOf_scheduleOf hvalid ht] at hdepth
    obtain ⟨batch, hbatch, -, hin⟩ :=
      exists_batch hvalid (List.mem_map_of_mem hu) hid hne hdepth
    exact ⟨batch, hbatch, hin⟩
  · rintro ⟨batch, hbatch, hin⟩
    have hlevel := (depth_eq_of_mem_batches hvalid hbatch hin).2
    -- A batch has a second member, since no id is in it twice.
    obtain ⟨id, hmem, hne⟩ : ∃ id ∈ batch.steps, id ≠ t.id := by
      by_contra! hall
      have hsubset : batch.steps ⊆ [t.id] := fun id hmem => by simp [hall id hmem]
      have hle := ((nodup_of_mem_batches hvalid hbatch).subperm hsubset).length_le
      exact absurd hle (Nat.not_le_of_lt ((mem_batches_iff hvalid).mp hbatch).2)
    obtain ⟨hmem, hlevel'⟩ := depth_eq_of_mem_batches hvalid hbatch hmem
    obtain ⟨u, hu, rfl⟩ := List.mem_map.mp hmem
    refine ⟨u, hu, hne, ?_⟩
    rw [depthOf_scheduleOf hvalid hu, depthOf_scheduleOf hvalid ht, hlevel, hlevel']

end Valid
end StepGraph

namespace Validation

open StepGraph

/-- The batches of a valid list stand by ascending depth, and they are the levels of more than one
step: a step is in one batch if it shares its depth with another step, and in none if it does not.
No step of a batch waits for another one of it, not even through steps of other depths. -/
theorem batches_are_levels {settings : Settings} {steps : List Step} {s : Schedule}
    (h : (Validation.ofSteps settings steps).schedule? = some s) :
    s.batches.Pairwise (fun a b => a.depth < b.depth) ∧
      (∀ batch : Batch, batch ∈ s.batches ↔
        batch.steps = s.level batch.depth ∧ 2 ≤ batch.steps.length) ∧
      (∀ batch ∈ s.batches, batch.steps.Nodup ∧ batch.steps ⊆ steps.map Step.id) ∧
      (∀ t ∈ steps, s.SharesDepth steps t → ∃! batch, batch ∈ s.batches ∧ t.id ∈ batch.steps) ∧
      (∀ t ∈ steps, ¬s.SharesDepth steps t → ∀ batch ∈ s.batches, t.id ∉ batch.steps) ∧
      ∀ batch ∈ s.batches, ∀ a ∈ batch.steps, ∀ b ∈ batch.steps,
        ¬TransGen (Feeds steps) a b := by
  obtain ⟨hvalid, rfl⟩ := schedule?_ofSteps_eq_some_iff.mp h
  refine ⟨pairwise_depth_batches, fun _ => mem_batches_iff hvalid, ?_, ?_, ?_, ?_⟩
  · intro batch hbatch
    exact ⟨nodup_of_mem_batches hvalid hbatch,
      fun _ hid => (depth_eq_of_mem_batches hvalid hbatch hid).1⟩
  · intro t ht hshares
    obtain ⟨batch, hbatch, hin⟩ := (sharesDepth_iff hvalid ht).mp hshares
    refine ⟨batch, ⟨hbatch, hin⟩, fun other hother => batch_ext hvalid hother.1 hbatch ?_⟩
    rw [← (depth_eq_of_mem_batches hvalid hother.1 hother.2).2,
      ← (depth_eq_of_mem_batches hvalid hbatch hin).2]
  · intro t ht halone batch hbatch hin
    exact halone ((sharesDepth_iff hvalid ht).mpr ⟨batch, hbatch, hin⟩)
  · intro batch hbatch a ha b hb hwaits
    have hlt := levelOf_lt_of_transGen_feeds hvalid hwaits
    rw [(depth_eq_of_mem_batches hvalid hbatch ha).2,
      (depth_eq_of_mem_batches hvalid hbatch hb).2] at hlt
    exact Nat.lt_irrefl _ hlt

theorem batches_are_levels_reportSteps :
    (Validation.ofSteps default reportSteps).schedule? = some (scheduleOf reportSteps) ∧
      (scheduleOf reportSteps).batches = [⟨0, ["leads", "orders"]⟩, ⟨1, ["count", "label"]⟩] ∧
      ∀ batch ∈ (scheduleOf reportSteps).batches, ∀ a ∈ batch.steps, ∀ b ∈ batch.steps,
        ¬TransGen (Feeds reportSteps) a b := by
  obtain ⟨-, -, -, -, -, hapart⟩ := batches_are_levels schedule?_reportSteps
  exact ⟨schedule?_reportSteps, by decide +kernel, hapart⟩

end Validation
end PlanFlow
