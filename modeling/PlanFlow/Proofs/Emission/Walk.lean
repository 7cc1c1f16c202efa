import PlanFlow.Proofs.Emission.Ingestion

/-!
# What the emission comes to

With the rows, the emission comes to the sources of rows and to the parts that stand in no body, and
wherever it comes to something it goes on with the loops over that.  It never comes to a lookup
source or to a loop that way.  So whatever runs compose holds of the emission of all parts, once it
holds of the loops over what the emission comes to.
-/

namespace PlanFlow

namespace Plan

/-- The ids of the lookup sources and of the loops, which the emission does not come to. -/
def lateIds (p : Plan) : List String := p.lookups.map Source.id ++ p.loops.map Loop.id

/-- The ids of the sources of rows and of the parts in no body, which the emission comes to with the
rows. -/
def rowIds (p : Plan) : List String := p.candidates.map Source.id ++ p.chainParts.map Part.id

variable {p : Plan}

theorem Sound.part_id_not_mem_lateIds (hp : p.Sound) {part : Part} (hpart : part ∈ p.parts) :
    part.id ∉ p.lateIds := by
  have hnodup := hp.nodup_locations
  rw [map_fst_locations, List.nodup_append, List.nodup_append] at hnodup
  obtain ⟨⟨-, -, hsources⟩, -, hloops⟩ := hnodup
  have hid : part.id ∈ p.parts.map Part.id := List.mem_map_of_mem hpart
  intro hlate
  rcases List.mem_append.mp hlate with hlookup | hloop
  · obtain ⟨s, hs, heq⟩ := List.mem_map.mp hlookup
    exact hsources _ (List.mem_map_of_mem (List.mem_of_mem_filter hs)) _ hid heq
  · exact hloops _ (List.mem_append_right _ hid) _ hloop rfl

theorem Sound.candidate_id_not_mem_lateIds (hp : p.Sound) {s : Source} (hs : s ∈ p.candidates) :
    s.id ∉ p.lateIds := by
  have hnodup := hp.nodup_locations
  rw [map_fst_locations, List.nodup_append] at hnodup
  obtain ⟨-, -, hloops⟩ := hnodup
  have hsource := mem_sources_of_mem_candidates hs
  intro hlate
  rcases List.mem_append.mp hlate with hmem | hloop
  · obtain ⟨s', hs', heq⟩ := List.mem_map.mp hmem
    obtain ⟨hsource', hlookup⟩ := List.mem_filter.mp hs'
    obtain rfl := List.inj_on_of_nodup_map hp.nodup_sources hsource' hsource heq
    have hother := (List.mem_filter.mp hs).2
    rw [hlookup] at hother
    cases hother
  · exact hloops _ (List.mem_append_left _ (List.mem_map_of_mem hsource)) _ hloop rfl

end Plan

namespace Emitter

/-- Emitting the loops over what the emission comes to comes to that. -/
def TakesOver (p : Plan) (pre : Emission → Prop) (rel : List String → Emission → Emission → Prop)
    (loopsOver : String → Handle → Emitter Handle) : Prop :=
  ∀ id output, p.location? id = some output → id ∉ p.lateIds →
    Takes pre rel [id] (loopsOver id output)

namespace Composes

variable {p : Plan} {settings : Settings} {pre : Emission → Prop}
variable {rel : List String → Emission → Emission → Prop} (hrel : Composes pre rel) (hp : p.Sound)
include hrel hp

section Parts

variable {loopsOver : String → Handle → Emitter Handle} (hover : TakesOver p pre rel loopsOver)
include hover

theorem emitPart {part : Part} (hpart : part ∈ p.parts) (chain : Handle) :
    Takes pre rel [part.id] (emitPart p loopsOver part chain) := by
  rw [emitPart_eq hp hpart]
  exact hrel.bind (hrel.push _) fun _ =>
    hover _ _ (hp.location?_part hpart) (hp.part_id_not_mem_lateIds hpart)

theorem emitParts {parts : List Part} (hparts : ∀ part ∈ parts, part ∈ p.parts) (rows : Handle) :
    Takes pre rel (parts.map Part.id)
      (parts.foldlM (fun rows part => Emitter.emitPart p loopsOver part rows) rows) := by
  rw [List.map_eq_flatMap]
  exact hrel.foldlM (fun part hpart rows => hrel.emitPart hp hover (hparts part hpart) rows) rows

end Parts

variable (hover : TakesOver p pre rel (allLoopsOver p))
include hover

theorem fetchSource {s : Source} (hs : s ∈ p.candidates) :
    Takes pre rel [s.id] (fetchSource p s) := by
  have hsource := hp.location?_source (Plan.mem_sources_of_mem_candidates hs)
  have hloops : Takes pre rel [s.id] (do
      let output ← locate p "compiler" s.id
      allLoopsOver p s.id output) := by
    rw [locate_eq_pure hsource, pure_bind]
    exact hover _ _ hsource (hp.candidate_id_not_mem_lateIds hs)
  unfold Emitter.fetchSource
  cases s.readOperation with
  | none => exact hloops
  | some operation => exact hrel.bind (hrel.push _) fun _ => hloops

theorem fetchSources : Takes pre rel (p.candidates.map Source.id) (fetchSources p) := by
  intro e hpre
  rw [List.map_eq_flatMap]
  unfold Emitter.fetchSources
  refine .bind ((fetchAll_yields default hp (fun _ => id) e).and
    (hrel.mapM (fun _ hs => hrel.fetchSource hp hover hs) e hpre)) ?_
  rintro outputs e₁ ⟨⟨houtputs, -⟩, hfetched⟩
  match outputs with
  | [] => exact absurd (List.length_eq_zero_iff.mp houtputs.length_eq) hp.candidates_ne_nil
  | [output] => exact .pure hfetched
  | first :: second :: others =>
      refine .of_run_bind (run_push _ e₁) (.pure ?_)
      have hmerged := hrel.addStep (mergeStep first (first :: second :: others)) e₁
      simpa using hrel.trans hfetched hmerged

/-- The emission of the parts comes to the rows. -/
theorem ingest_enrich
    (hcheck : ∀ lookup rows, Takes pre rel [] (deduplicate settings lookup rows)) :
    Takes pre rel p.rowIds (do let rows ← ingest p settings; enrich p rows) := by
  obtain ⟨hfilters, hreshaping, hai⟩ := p.mem_parts_of_mem_chains
  have hchecked (rows : Handle) : Takes pre rel (p.lookups.flatMap fun _ => [])
      (p.lookups.foldlM (fun rows lookup => deduplicate settings lookup rows) rows) :=
    hrel.foldlM (fun lookup _ rows => hcheck lookup rows) rows
  have hingest := hrel.bind (hrel.fetchSources hp hover) fun rows =>
    hrel.bind (hrel.emitParts hp hover hfilters rows) fun rows =>
      hrel.bind (hchecked rows) fun rows => hrel.emitParts hp hover hreshaping rows
  have hids : p.candidates.map Source.id ++ ((chainFilters p).map Part.id ++
      (p.lookups.flatMap (fun _ => []) ++ (chainReshaping p).map Part.id)) ++
        (chainAi p).map Part.id = p.rowIds := by
    simp [Plan.rowIds, Plan.chainParts_eq]
  exact hids ▸ hrel.bind hingest fun rows => hrel.emitParts hp hover hai rows

end Composes
end Emitter
end PlanFlow
