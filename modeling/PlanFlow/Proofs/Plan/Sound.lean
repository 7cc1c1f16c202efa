import Mathlib.Data.List.Nodup
import Mathlib.Data.List.Perm.Basic
import PlanFlow.Emission.Part
import PlanFlow.Plan.Check
import PlanFlow.Proofs.Ids
import PlanFlow.Proofs.Json.Entries

/-!
# Plans without errors

A plan without errors is sound: its ids are distinct, it has rows to read, and its references lead
to parts of the right kind.  Then every id that a part, a loop or a body refers to has a place where
its data will be found, and that of a part is the output of its own step.
-/

namespace PlanFlow

namespace Plan

/-- What holds of a plan without errors. -/
structure Sound (p : Plan) : Prop where
  ids_nodup : p.ids.Nodup
  candidates_ne_nil : p.candidates ≠ []
  dependsOn_mem : ∀ part ∈ p.parts, ∀ id ∈ part.dependsOn, id ∈ p.inputIds
  iterateOver_mem : ∀ l ∈ p.loops, l.iterateOver ∈ p.inputIds
  body_mem : ∀ l ∈ p.loops, ∀ id ∈ l.body, id ∈ p.bodyIds
  targets_mem : ∀ b ∈ p.branches, ∀ key ∈ b.thenDeliver ++ b.elseDeliver, key ∈ p.deliveryIds

theorem unknownAmong_eq_nil_iff {referrer : String} {known references : List String} :
    unknownAmong referrer known references = [] ↔ ∀ id ∈ references, id ∈ known := by
  simp [unknownAmong, List.filter_eq_nil_iff]

/-- The ids of the parts, kind by kind. -/
theorem map_id_parts (p : Plan) :
    p.parts.map Part.id = p.filters.map Filter.id ++ p.partitions.map Partition.id ++
      p.transforms.map Transform.id ++ p.aiTasks.map AiTask.id := by
  simp [parts, Function.comp_def, Part.id]

theorem mem_dependsOn_of_mem_parts {p : Plan} {part : Part} (h : part ∈ p.parts) :
    (part.id, part.dependsOn) ∈ p.dependsOn := by
  simp only [parts, List.mem_append, List.mem_map] at h
  simp only [dependsOn, List.mem_append, List.mem_map]
  obtain ((⟨f, hf, rfl⟩ | ⟨q, hq, rfl⟩) | ⟨t, ht, rfl⟩) | ⟨a, ha, rfl⟩ := h
  · exact .inl (.inl (.inl ⟨f, hf, rfl⟩))
  · exact .inr ⟨q, hq, rfl⟩
  · exact .inl (.inl (.inr ⟨t, ht, rfl⟩))
  · exact .inl (.inr ⟨a, ha, rfl⟩)

theorem mem_bodyIds_iff {p : Plan} {id : String} : id ∈ p.bodyIds ↔ id ∈ p.parts.map Part.id := by
  rw [map_id_parts]
  simp only [bodyIds, List.mem_append]
  tauto

theorem sound_of_errors {p : Plan} {settings : Settings} (h : p.errors settings = []) :
    p.Sound := by
  simp only [errors, List.append_eq_nil_iff, List.map_eq_nil_iff, Ids.repeated_eq_nil_iff] at h
  obtain ⟨⟨⟨-, hsources⟩, -⟩, hids⟩ := h.1
  obtain ⟨⟨hdepends, hloops⟩, hbranches⟩ : (_ ∧ _) ∧ _ := by
    simpa only [referenceErrors, List.append_eq_nil_iff, List.flatMap_eq_nil_iff,
      unknownAmong_eq_nil_iff] using h.2
  refine ⟨hids, fun hnil => ?_, fun part hpart => ?_, fun l hl => ?_, fun l hl => ?_, ?_⟩
  -- A plan without candidates has one of the two errors about sources.
  · simp only [sourceErrors, hnil, List.isEmpty_nil, if_true] at hsources
    split at hsources <;> cases hsources
  · exact hdepends _ (mem_dependsOn_of_mem_parts hpart)
  · exact (hloops l hl).1 _ (List.mem_singleton.mpr rfl)
  · exact (hloops l hl).2
  · exact hbranches

/-! ## Where data is found -/

theorem map_fst_locations (p : Plan) :
    p.locations.map Prod.fst =
      p.sources.map Source.id ++ p.parts.map Part.id ++ p.loops.map Loop.id := by
  simp [locations, Function.comp_def]

/-- The ids of a plan are those of what has a place, those of the branches, and those of the
deliveries. -/
theorem perm_ids (p : Plan) :
    (p.locations.map Prod.fst ++ (p.branches.map Branch.id ++ p.deliveryIds)).Perm p.ids := by
  rw [map_fst_locations, map_id_parts, List.perm_iff_count]
  intro id
  simp only [ids, deliveryIds, List.count_append]
  omega

theorem mem_inputIds_iff {p : Plan} {id : String} :
    id ∈ p.inputIds ↔ id ∈ p.locations.map Prod.fst := by
  rw [map_fst_locations, map_id_parts]
  simp only [inputIds, List.mem_append]
  tauto

theorem location?_isSome {p : Plan} {id : String} (h : id ∈ p.inputIds) :
    ∃ handle, p.location? id = some handle := by
  rw [mem_inputIds_iff, ← List.mem_reverse, ← List.map_reverse] at h
  exact Option.isSome_iff_exists.mp (Entries.find?_isSome_iff.mpr h)

namespace Sound

variable {p : Plan} (hp : p.Sound)
include hp

/-- No source, part or loop has the id of another. -/
theorem nodup_locations : (p.locations.map Prod.fst).Nodup :=
  (List.nodup_append.mp (p.perm_ids.nodup_iff.mpr hp.ids_nodup)).1

theorem nodup_branches : (p.branches.map Branch.id).Nodup := by
  have h := (List.nodup_append.mp (p.perm_ids.nodup_iff.mpr hp.ids_nodup)).2.1
  exact (List.nodup_append.mp h).1

theorem nodup_deliveries : p.deliveryIds.Nodup := by
  have h := (List.nodup_append.mp (p.perm_ids.nodup_iff.mpr hp.ids_nodup)).2.1
  exact (List.nodup_append.mp h).2.1

theorem nodup_parts : (p.parts.map Part.id).Nodup := by
  have h := hp.nodup_locations
  rw [map_fst_locations] at h
  exact (List.nodup_append.mp (List.nodup_append.mp h).1).2.1

theorem nodup_loops : (p.loops.map Loop.id).Nodup := by
  have h := hp.nodup_locations
  rw [map_fst_locations] at h
  exact (List.nodup_append.mp h).2.1

theorem nodup_sources : (p.sources.map Source.id).Nodup := by
  have h := hp.nodup_locations
  rw [map_fst_locations] at h
  exact (List.nodup_append.mp (List.nodup_append.mp h).1).1

theorem location?_of_mem {id : String} {handle : Handle} (h : (id, handle) ∈ p.locations) :
    p.location? id = some handle := by
  refine Entries.find?_of_mem ?_ (List.mem_reverse.mpr h)
  rw [List.map_reverse, List.nodup_reverse]
  exact hp.nodup_locations

theorem location?_part {part : Part} (h : part ∈ p.parts) :
    p.location? part.id = some (.ofStep part.stepId) := by
  refine hp.location?_of_mem ?_
  simp only [locations, List.mem_append, List.mem_map]
  exact .inl (.inr ⟨part, h, rfl⟩)

theorem location?_source {s : Source} (h : s ∈ p.sources) :
    p.location? s.id = some s.handle := by
  refine hp.location?_of_mem ?_
  simp only [locations, List.mem_append, List.mem_map]
  exact .inl (.inl ⟨s, h, rfl⟩)

theorem location?_loop {l : Loop} (h : l ∈ p.loops) :
    p.location? l.id = some (.ofStep l.stepId) := by
  refine hp.location?_of_mem ?_
  simp only [locations, List.mem_append, List.mem_map]
  exact .inr ⟨l, h, rfl⟩

theorem part?_of_mem {part : Part} (h : part ∈ p.parts) : p.part? part.id = some part := by
  cases hfind : p.part? part.id with
  | none => exact absurd (List.find?_eq_none.mp hfind part h) (by simp)
  | some found =>
      have hid : found.id = part.id := by simpa using List.find?_some hfind
      have hmem : found ∈ p.parts := List.mem_of_find?_eq_some hfind
      rw [List.inj_on_of_nodup_map hp.nodup_parts hmem h hid]

/-- A member of a body is a part. -/
theorem exists_part_of_body {l : Loop} (hl : l ∈ p.loops) {id : String} (hid : id ∈ l.body) :
    ∃ part ∈ p.parts, part.id = id := by
  have hmem := mem_bodyIds_iff.mp (hp.body_mem l hl id hid)
  exact List.mem_map.mp hmem

end Sound
end Plan
end PlanFlow
