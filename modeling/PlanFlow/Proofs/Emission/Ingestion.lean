import PlanFlow.Proofs.Emission.Loops

/-!
# Ingestion and what is left to the end

In a sound plan the rows are read, filtered, checked and reshaped without an error.  Each source
that is read, the merge of several, each part that stands in no body, and the three steps of each
lookup source are emitted once, each on the rows that were handed on to it.  Afterwards every loop
that was not emitted is, so in the end all are marked.
-/

namespace PlanFlow

namespace Plan

/-- The ids of the steps that read the sources of rows. -/
def fetchIds (p : Plan) : List String :=
  (p.candidates.filter fun s => s.readOperation.isSome).map Source.fetchId

/-- The id of the step that merges the rows, if there are several sources of them. -/
def mergeIds (p : Plan) : List String :=
  if 2 ≤ p.candidates.length then [Emitter.mergeId] else []

/-- The parts that stand in no body. -/
def chainParts (p : Plan) : List Part := p.parts.filter fun part => !p.inBody part.id

/-- The parts of a plan, as often as they are emitted: those in no body once, the others as often as
bodies list them. -/
def occurrences (p : Plan) : List Part := p.chainParts ++ p.loops.flatMap p.bodyParts

/-- The ids of all steps that the parts of a plan are turned into. -/
def emittedIds (p : Plan) : List String :=
  p.fetchIds ++ p.mergeIds ++ p.chainParts.map Part.stepId ++ p.loops.flatMap p.loopIds ++
    p.lookups.flatMap Source.checkIds

variable {p : Plan}

theorem mem_emittedIds {id : String} :
    id ∈ p.emittedIds ↔ id ∈ p.fetchIds ∨ id ∈ p.mergeIds ∨ id ∈ p.chainParts.map Part.stepId ∨
      id ∈ p.loops.flatMap p.loopIds ∨ id ∈ p.lookups.flatMap Source.checkIds := by
  simp only [emittedIds, List.mem_append, or_assoc]

theorem mem_sources_of_mem_candidates {s : Source} (h : s ∈ p.candidates) : s ∈ p.sources :=
  List.mem_of_mem_filter h

theorem mem_parts_of_mem_chainParts {part : Part} (h : part ∈ p.chainParts) : part ∈ p.parts :=
  List.mem_of_mem_filter h

/-- They are emitted as filters, as partitions and transforms, and as AI tasks. -/
theorem chainParts_eq (p : Plan) :
    p.chainParts = Emitter.chainFilters p ++ Emitter.chainReshaping p ++ Emitter.chainAi p := by
  simp [chainParts, parts, Emitter.chainFilters, Emitter.chainReshaping, Emitter.chainAi]

/-- At each of these stages, what is emitted are parts of the plan. -/
theorem mem_parts_of_mem_chains (p : Plan) :
    (∀ part ∈ Emitter.chainFilters p, part ∈ p.parts) ∧
      (∀ part ∈ Emitter.chainReshaping p, part ∈ p.parts) ∧
        ∀ part ∈ Emitter.chainAi p, part ∈ p.parts := by
  have hparts : ∀ part ∈ p.chainParts, part ∈ p.parts := fun _ => mem_parts_of_mem_chainParts
  rwa [chainParts_eq, List.forall_mem_append, List.forall_mem_append, and_assoc] at hparts

theorem mem_parts_of_mem_occurrences {part : Part} (h : part ∈ p.occurrences) :
    part ∈ p.parts := by
  rcases List.mem_append.mp h with h | h
  · exact mem_parts_of_mem_chainParts h
  · obtain ⟨l, -, hbody⟩ := List.mem_flatMap.mp h
    exact mem_parts_of_mem_bodyParts hbody

/-- A part stands in a body, or it is emitted where its chain comes to it. -/
theorem mem_occurrences (hp : p.Sound) {part : Part} (hpart : part ∈ p.parts) :
    part ∈ p.occurrences := by
  by_cases hbody : p.inBody part.id = true
  · obtain ⟨l, hl, hid⟩ := List.any_eq_true.mp hbody
    refine List.mem_append_right _ (List.mem_flatMap.mpr ⟨l, hl, ?_⟩)
    exact List.mem_filterMap.mpr ⟨part.id, List.contains_iff_mem.mp hid, hp.part?_of_mem hpart⟩
  · exact List.mem_append_left _ (List.mem_filter.mpr ⟨hpart, by simpa using hbody⟩)

end Plan

namespace Emitter

open Emission (Growth Grows)

variable {p : Plan} {settings : Settings}

/-! ## Sources -/

theorem fetchSource_yields (settings : Settings) (hp : p.Sound) {s : Source}
    (hs : s ∈ p.candidates) (e : Emission) :
    Yields (fetchSource p s) e fun h e' =>
      p.HandsOn s.id h ∧ Grows p settings (fetchSites [s]) e h e' := by
  have hsource := hp.location?_source (Plan.mem_sources_of_mem_candidates hs)
  have hloops (e : Emission) : Yields (do
      let output ← locate p "compiler" s.id
      allLoopsOver p s.id output) e fun h e' =>
        p.HandsOn s.id h ∧ Grows p settings [] e h e' := by
    rw [locate_eq_pure hsource, pure_bind]
    exact loopsOver_emitsLoops hp _ _ _ e hsource
  unfold fetchSource
  cases hread : s.readOperation with
  | none =>
      have hsites : fetchSites [s] = [] := by simp [fetchSites, hread]
      rw [hsites]
      exact hloops e
  | some operation =>
      have hfetch : Sited p settings (.fetch s operation) := .fetch hs hread
      have hsites : fetchSites [s] = [.fetch s operation] := by simp [fetchSites, hread]
      rw [hsites]
      refine .of_run_bind (run_push _ e) ((hloops _).mono ?_)
      rintro h e' ⟨hhands, hgrows⟩
      exact ⟨hhands, (Growth.addStep hfetch e).grows_trans hgrows⟩

theorem obtainable_of_handsOn {ss : List Source} {outputs : List Handle}
    (h : List.Forall₂ (fun s h => p.HandsOn s.id h) ss outputs) :
    ∀ output ∈ outputs, Obtainable p output := by
  induction h with
  | nil => exact List.forall_mem_nil _
  | cons hfirst _ ih => exact List.forall_mem_cons.mpr ⟨hfirst.obtainable, ih⟩

theorem fetchAll_yields (settings : Settings) (hp : p.Sound) {ss : List Source}
    (hss : ∀ s ∈ ss, s ∈ p.candidates) (e : Emission) :
    Yields (ss.mapM (fetchSource p)) e fun outputs e' =>
      List.Forall₂ (fun s h => p.HandsOn s.id h) ss outputs ∧
        ∃ loops, Growth p settings (fetchSites ss) loops [] e e' := by
  induction ss generalizing e with
  | nil => exact .pure ⟨.nil, [], Growth.refl e⟩
  | cons s rest ih =>
      rw [List.forall_mem_cons] at hss
      rw [List.mapM_cons]
      refine .bind (fetchSource_yields settings hp hss.1 e) ?_
      rintro output e₁ ⟨houtput, -, loops, hgrowth⟩
      refine .bind (ih hss.2 e₁) ?_
      rintro outputs e' ⟨houtputs, more, hmore⟩
      have hsites : fetchSites [s] ++ fetchSites rest = fetchSites (s :: rest) := by
        rw [fetchSites, fetchSites, ← List.filterMap_append]
        rfl
      exact .pure ⟨.cons houtput houtputs, loops ++ more, hsites ▸ hgrowth.trans hmore⟩

theorem fetchSources_yields (settings : Settings) (hp : p.Sound) (e : Emission) :
    Yields (fetchSources p) e fun h e' => ∃ outputs merge,
      List.Forall₂ (fun s h => p.HandsOn s.id h) p.candidates outputs ∧
        Merged outputs merge h ∧ Grows p settings (fetchSites p.candidates ++ merge) e h e' := by
  unfold fetchSources
  refine .bind (fetchAll_yields settings hp (fun _ => id) e) ?_
  rintro outputs e₁ ⟨houtputs, loops, hgrowth⟩
  have hobtainable := obtainable_of_handsOn houtputs
  match outputs with
  | [] => exact absurd (List.length_eq_zero_iff.mp houtputs.length_eq) hp.candidates_ne_nil
  | [output] =>
      refine .pure ⟨_, [], houtputs, .one output, hobtainable output List.mem_cons_self, loops, ?_⟩
      rw [List.append_nil]
      exact hgrowth
  | first :: second :: others =>
      have hmany : 2 ≤ p.candidates.length := by
        rw [houtputs.length_eq]
        simp
      have hsite : Sited p settings (.merge first (second :: others)) := .merge hmany hobtainable
      refine .of_run_bind (run_push _ e₁) (.pure ⟨_, _, houtputs, .several first second others, ?_⟩)
      exact hgrowth.grows_trans ⟨.merged hmany, [], Growth.addStep hsite e₁⟩

/-! ## Lookup sources -/

theorem mem_insertId {id x : String} {ids : List String} :
    x ∈ Emission.insertId id ids ↔ x = id ∨ x ∈ ids := by
  induction ids with
  | nil => simp [Emission.insertId]
  | cons first rest ih =>
      unfold Emission.insertId
      split
      · simp
      · split
        · rename_i heq
          simp [heq]
        · simp only [List.mem_cons, ih]
          tauto

/-- Rows that were not checked against a lookup source before are. -/
theorem run_deduplicate {lookup : Source} (rows : Handle) {e : Emission}
    (hunchecked : lookup.id ∉ e.checked) :
    (deduplicate settings lookup rows).run e = .ok (.ofStep lookup.excludeKnownId,
      { e with
        steps := e.steps ++ [lookup.readReference, lookup.extractKeys settings.defaultKeyField,
          lookup.excludeKnown settings.defaultKeyField rows]
        checked := Emission.insertId lookup.id e.checked }) := by
  have hrun : (deduplicate settings lookup rows).run e =
      .ok (e.deduplicate settings.defaultKeyField lookup rows) := rfl
  rw [hrun, Emission.deduplicate, if_neg (List.contains_iff_mem.not.mpr hunchecked)]

theorem deduplicate_yields {lookup : Source} (hlookup : lookup ∈ p.lookups) {rows : Handle}
    (hrows : Obtainable p rows) {e : Emission} (hunchecked : lookup.id ∉ e.checked) :
    Yields (deduplicate settings lookup rows) e fun h e' => h = .ofStep lookup.excludeKnownId ∧
      Growth p settings (checkSites settings [lookup] rows) [] [lookup] e e' := by
  refine .of_run (run_deduplicate rows hunchecked)
    ⟨rfl, ⟨checkSites settings [lookup] rows, [], rfl, ?_, .nil, ?_⟩, ?_, ?_, ?_, ?_, ?_⟩
  · simp only [checkSites, List.mem_cons, List.not_mem_nil, or_false, forall_eq_or_imp, forall_eq]
    exact ⟨.readReference hlookup, .extractKeys hlookup, .excludeKnown hlookup hrows⟩
  · exact .of_eq (List.append_nil _).symm
  · rfl
  · exact List.forall_mem_nil _
  · exact List.nodup_nil
  · exact List.forall_mem_nil _
  · intro id
    simp [mem_insertId]

/-- What holds of the lookup sources so far, and is kept when rows are checked against one more,
holds of all. -/
theorem deduplicateAll_induction (post : List Source → Handle → Emission → Prop)
    (hstep : ∀ {before : List Source} {lookup : Source} {rows : Handle} {e : Emission},
      lookup ∈ p.lookups → Obtainable p rows → lookup.id ∉ e.checked → post before rows e →
        Yields (deduplicate settings lookup rows) e (post (before ++ [lookup])))
    {before ls : List Source} (hls : ∀ l ∈ ls, l ∈ p.lookups) (hnodup : (ls.map Source.id).Nodup)
    {rows : Handle} (hrows : Obtainable p rows) {e : Emission}
    (hunchecked : ∀ l ∈ ls, l.id ∉ e.checked) (h : post before rows e) :
    Yields (ls.foldlM (fun rows lookup => deduplicate settings lookup rows) rows) e fun h e' =>
      Obtainable p h ∧ post (before ++ ls) h e' := by
  induction ls generalizing before rows e with
  | nil =>
      rw [List.append_nil]
      exact .pure ⟨hrows, h⟩
  | cons lookup rest ih =>
      rw [List.forall_mem_cons] at hls hunchecked
      rw [List.map_cons, List.nodup_cons] at hnodup
      rw [List.foldlM_cons]
      refine .bind ((deduplicate_yields hls.1 hrows hunchecked.1).and
        (hstep hls.1 hrows hunchecked.1 h)) ?_
      rintro _ e₁ ⟨⟨rfl, hgrowth⟩, hpost⟩
      have hunchecked' : ∀ l ∈ rest, l.id ∉ e₁.checked := by
        intro l hl
        rw [hgrowth.checked, not_or]
        refine ⟨fun hid => hnodup.1 ?_, hunchecked.2 l hl⟩
        rw [List.map_cons, List.map_nil, List.mem_singleton] at hid
        exact hid ▸ List.mem_map_of_mem hl
      rw [List.append_cons]
      exact ih hls.2 hnodup.2 (.checked hls.1) hunchecked' hpost

theorem deduplicateAll_yields {ls : List Source} (hls : ∀ l ∈ ls, l ∈ p.lookups)
    (hnodup : (ls.map Source.id).Nodup) {rows : Handle} (hrows : Obtainable p rows) {e : Emission}
    (hunchecked : ∀ l ∈ ls, l.id ∉ e.checked) :
    Yields (ls.foldlM (fun rows lookup => deduplicate settings lookup rows) rows) e fun h e' =>
      Obtainable p h ∧ h = checkedRows ls rows ∧
        Growth p settings (checkSites settings ls rows) [] ls e e' := by
  have hstart : rows = checkedRows [] rows ∧
      Growth p settings (checkSites settings [] rows) [] [] e e := ⟨rfl, Growth.refl e⟩
  refine deduplicateAll_induction (fun before h e' => h = checkedRows before rows ∧
    Growth p settings (checkSites settings before rows) [] before e e') ?_ hls hnodup hrows
      hunchecked hstart
  rintro before lookup _ e₁ hlookup hmid hunchecked ⟨rfl, hgrowth⟩
  refine (deduplicate_yields hlookup hmid hunchecked).mono ?_
  rintro _ e' ⟨rfl, hmore⟩
  rw [checkedRows_concat, checkSites_concat]
  exact ⟨rfl, hgrowth.trans hmore⟩

/-! ## The chain -/

/-- All that happens to rows before they are rendered or delivered. -/
theorem ingest_enrich_yields (hp : p.Sound) {e : Emission} (hunchecked : e.checked = []) :
    Yields (do let rows ← ingest p settings; enrich p rows) e fun h e' => Obtainable p h ∧
      ∃ own loops, p.RowSites settings own h ∧ Growth p settings own loops p.lookups e e' := by
  obtain ⟨hfilters, hreshaping, hai⟩ := p.mem_parts_of_mem_chains
  have hlookups : (p.lookups.map Source.id).Nodup :=
    hp.nodup_sources.sublist (List.filter_sublist.map Source.id)
  simp only [ingest, bind_assoc]
  -- Sources, filters, lookup sources, reshaping and AI tasks, in this order.
  refine .bind (fetchSources_yields settings hp e) ?_
  rintro rows₁ e₁ ⟨outputs, merge, hfetched, hmerged, hrows₁, loops₁, hgrowth₁⟩
  refine .bind (emitChain_yields settings hp hfilters hrows₁ e₁) ?_
  rintro rows₂ e₂ ⟨filters, hfiltered, hrows₂, loops₂, hgrowth₂⟩
  have hbefore := hgrowth₁.trans hgrowth₂
  -- Neither reading nor filtering checks rows against a lookup source.
  have hunchecked₂ : ∀ l ∈ p.lookups, l.id ∉ e₂.checked := by
    intro l _
    rw [hbefore.checked, hunchecked]
    simp
  refine .bind (deduplicateAll_yields (fun _ => id) hlookups hrows₂ hunchecked₂) ?_
  rintro _ e₃ ⟨hrows₃, rfl, hgrowth₃⟩
  refine .bind (emitChain_yields settings hp hreshaping hrows₃ e₃) ?_
  rintro rows₄ e₄ ⟨reshaping, hreshaped, hrows₄, loops₄, hgrowth₄⟩
  refine (emitChain_yields settings hp hai hrows₄ e₄).mono ?_
  rintro h e' ⟨ai, henriched, hh, loops₅, hgrowth₅⟩
  have hall := ((hbefore.trans hgrowth₃).trans hgrowth₄).trans hgrowth₅
  simp only [List.nil_append, List.append_nil] at hall
  exact ⟨hh, _, _, .intro hfetched hmerged hfiltered hreshaped henriched, hall⟩

/-! ## The ids of the rows -/

theorem map_id_fetchSites (ss : List Source) : (fetchSites ss).map Site.id =
    (ss.filter fun s => s.readOperation.isSome).map Source.fetchId := by
  induction ss with
  | nil => rfl
  | cons s rest ih =>
      rw [fetchSites, List.filterMap_cons, List.filter_cons]
      cases s.readOperation with
      | none => exact ih
      | some operation => exact congrArg _ ih

theorem map_id_checkSites (settings : Settings) (lookups : List Source) (rows : Handle) :
    (checkSites settings lookups rows).map Site.id = lookups.flatMap Source.checkIds := by
  induction lookups generalizing rows with
  | nil => rfl
  | cons s rest ih =>
      rw [List.flatMap_cons, ← ih]
      rfl

theorem map_id_merged {outputs : List Handle} {merge : List Site} {rows : Handle}
    (h : Merged outputs merge rows) (hlength : p.candidates.length = outputs.length) :
    merge.map Site.id = p.mergeIds := by
  rw [Plan.mergeIds, hlength]
  cases h <;> simp [Site.merge, Site.id, mergeStep]

/-- The sites of the rows have the ids of what is read, merged and checked against, and of the parts
that stand in no body. -/
theorem map_id_rowSites {own : List Site} {rows : Handle} (h : p.RowSites settings own rows) :
    (own.map Site.id).Perm (p.fetchIds ++ p.mergeIds ++ p.chainParts.map Part.stepId ++
      p.lookups.flatMap Source.checkIds) := by
  obtain ⟨hfetched, hmerged, hfiltered, hreshaped, henriched⟩ := h
  rw [Plan.chainParts_eq, List.perm_iff_count]
  intro id
  simp only [List.map_append, map_id_fetchSites, map_id_merged hmerged hfetched.length_eq,
    hfiltered.map_id, map_id_checkSites, hreshaped.map_id, henriched.map_id, Plan.fetchIds,
    List.count_append]
  omega

theorem map_id_partSites {sites : List Site} {rows : Handle} (h : p.PartSites settings rows sites) :
    (sites.map Site.id).Perm p.emittedIds := by
  obtain ⟨own, bodies, hrows, hbodies, hperm⟩ := h
  refine (hperm.map Site.id).trans ?_
  rw [List.map_append, Plan.LoopSites.map_id_flatten hbodies, Plan.emittedIds]
  refine ((map_id_rowSites hrows).append_right _).trans ?_
  rw [List.append_assoc _ (p.lookups.flatMap _), List.append_assoc _ (p.loops.flatMap _)]
  exact List.perm_append_comm.append_left _

/-! ## The loops that are left -/

/-- Emits a loop unless it is marked, on the data that it iterates over. -/
def finishLoop (p : Plan) (l : Loop) : Emitter Unit := do
  if (← get).loops.contains l.id then pure ()
  else
    let rows ← locate p "compiler" l.iterateOver
    let _ ← emitLoop p (allLoopsOver p) l rows

theorem finish_eq (p : Plan) : finish p = p.loops.forM (finishLoop p) := rfl

theorem finishLoop_yields (settings : Settings) (hp : p.Sound) {l : Loop} (hl : l ∈ p.loops)
    (e : Emission) :
    Yields (finishLoop p l) e fun _ e' =>
      (∃ loops, Growth p settings [] loops [] e e') ∧ l.id ∈ e'.loops := by
  refine yields_unlessMarked (fun hmarked => ⟨⟨[], Growth.refl e⟩, hmarked⟩) fun hunmarked => ?_
  obtain ⟨rows, hrows⟩ := Plan.location?_isSome (hp.iterateOver_mem l hl)
  have hover : EmitsLoops p settings (allLoopsOver p) := loopsOver_emitsLoops hp _
  rw [locate_eq_pure hrows, pure_bind]
  refine .bind (emitLoop_yields hp hover hl hrows hunmarked) ?_
  rintro _ e₁ ⟨-, ⟨-, hgrowth⟩, hmarked⟩
  exact .pure ⟨hgrowth, hmarked⟩

theorem finishLoops_yields (settings : Settings) (hp : p.Sound) {ls : List Loop}
    (hls : ∀ l ∈ ls, l ∈ p.loops) (e : Emission) :
    Yields (ls.forM (finishLoop p)) e fun _ e' =>
      (∃ loops, Growth p settings [] loops [] e e') ∧ ∀ l ∈ ls, l.id ∈ e'.loops := by
  induction ls generalizing e with
  | nil => exact .pure ⟨⟨[], Growth.refl e⟩, by simp⟩
  | cons l rest ih =>
      rw [List.forall_mem_cons] at hls
      rw [List.forM]
      refine .bind (finishLoop_yields settings hp hls.1 e) ?_
      rintro _ e₁ ⟨⟨loops, hgrowth⟩, hmarked⟩
      refine (ih hls.2 e₁).mono ?_
      rintro _ e' ⟨⟨more, hmore⟩, hall⟩
      refine ⟨⟨loops ++ more, hgrowth.trans hmore⟩, List.forall_mem_cons.mpr ⟨?_, hall⟩⟩
      exact hmore.marked_subset hmarked

/-- In the end every loop is marked. -/
theorem finish_yields (settings : Settings) (hp : p.Sound) (e : Emission) :
    Yields (finish p) e fun _ e' =>
      (∃ loops, Growth p settings [] loops [] e e') ∧ ∀ l ∈ p.loops, l.id ∈ e'.loops :=
  finishLoops_yields settings hp (fun _ => id) e

end Emitter
end PlanFlow
