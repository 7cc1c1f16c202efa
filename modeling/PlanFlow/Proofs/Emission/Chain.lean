import PlanFlow.Proofs.Emission.Ingestion
import PlanFlow.Proofs.Emission.Upstream

/-!
# What the rows have been through

The data that an emitter hands on covers some ids if each of them lies upstream of it.  Sources, the
merge, lookup sources and parts hand on data that covers what their input covers, and the steps that
they add.  A part that depends on something of its own leaves the chain: what is handed on then
covers what its step waits for, and only loops and the parts after it join that.
-/

namespace PlanFlow

/-- Each of some ids lies upstream of some data. -/
def Emission.Covers (e : Emission) (ids : List String) (h : Handle) : Prop :=
  ∀ x ∈ ids, Upstream e.steps h.dependencies x

/-- Steps of loops alone pass on what a list of ids leaves behind. -/
def Plan.PassesLoops (p : Plan) (steps : List Step) (source target : List String) : Prop :=
  ∃ ids, ids ⊆ p.loops.map Loop.stepId ∧ Passes steps source ids target

theorem Plan.PassesLoops.mono {p : Plan} {steps more : List Step} {source target : List String}
    (h : p.PassesLoops steps source target) (hsub : steps ⊆ more) :
    p.PassesLoops more source target := by
  obtain ⟨ids, hids, hpasses⟩ := h
  exact ⟨ids, hids, hpasses.mono hsub⟩

/-- A part that depends on nothing of its own waits for its chain. -/
theorem Plan.mem_waitsOf_iff {p : Plan} {part : Part} (hdepends : part.dependsOn = [])
    (chain : Handle) (id : String) : id ∈ p.waitsOf part chain ↔ id ∈ chain.dependencies := by
  have hinputs : (p.inputsOf part chain).flatMap Handle.dependencies = chain.dependencies := by
    simp [inputsOf, hdepends]
  rw [waitsOf, hinputs, List.mem_eraseDups]
  split <;> simp

/-- A part that depends on something of its own, and stands in no body, waits for that alone. -/
theorem Plan.mem_waitsOf_iff_of_dependsOn {p : Plan} {part : Part} (hdepends : part.dependsOn ≠ [])
    (hbody : p.inBody part.id = false) (chain : Handle) (id : String) :
    id ∈ p.waitsOf part chain ↔
      ∃ other ∈ part.dependsOn, ∃ h, p.location? other = some h ∧ id ∈ h.dependencies := by
  have hinputs : p.inputsOf part chain = part.dependsOn.filterMap p.location? := by
    rw [inputsOf, if_neg (by simpa using hdepends)]
  rw [waitsOf, hinputs, hbody, List.mem_eraseDups]
  simp only [Bool.false_eq_true, if_false, List.mem_flatMap, List.mem_filterMap]
  constructor
  · rintro ⟨h, ⟨other, hother, hlocation⟩, hid⟩
    exact ⟨other, hother, h, hlocation, hid⟩
  · rintro ⟨other, hother, h, hlocation, hid⟩
    exact ⟨h, ⟨other, hother, hlocation⟩, hid⟩

namespace Emitter

open Emission (Covers Grows)

variable {p : Plan} {settings : Settings} {e : Emission} {ids : List String}

/-! ## Loops -/

section Loops

variable {loopsOver : String → Handle → Emitter Handle} (hp : p.Sound)
variable (hover : EmitsLoops p settings loopsOver) {output : Handle}
include hp hover

/-- A loop hands on its own output, and its step is there. -/
theorem emitLoop_hands_on {l : Loop} (hl : l ∈ p.loops) (rows : Handle) (e : Emission) :
    Yields (emitLoop p loopsOver l rows) e fun h e' =>
      h = .ofStep l.stepId ∧ p.loopStep l rows ∈ e'.steps := by
  rw [emitLoop_eq hp hl]
  refine .of_run_bind rfl (.of_run_bind (run_push _ _) ?_)
  refine .bind (emitParts_yields hp hover (fun _ => Plan.mem_parts_of_mem_bodyParts)
    (.item hl) _) ?_
  rintro _ e₁ ⟨_, -, -, loops, hgrowth⟩
  exact .pure ⟨rfl, hgrowth.steps_subset (by simp [Emission.addSteps])⟩

theorem emitUnlessMarked_passes {l : Loop} (hl : l ∈ p.loops) {result : Handle}
    (hpasses : p.PassesLoops e.steps output.dependencies result.dependencies) :
    Yields (emitUnlessMarked p loopsOver output result l) e fun h e' =>
      p.PassesLoops e'.steps output.dependencies h.dependencies := by
  refine yields_unlessMarked (fun _ => hpasses) fun _ => ?_
  refine (emitLoop_hands_on hp hover hl output e).mono ?_
  rintro _ e' ⟨rfl, hstep⟩
  refine ⟨[l.stepId], Ids.singleton_subset (List.mem_map_of_mem hl), ?_⟩
  exact .step .start hstep fun _ => Iff.rfl

/-- However many of the loops are emitted, only loops stand between the data and what is handed
on. -/
theorem emitUnmarked_passes {ls : List Loop} (hls : ∀ l ∈ ls, l ∈ p.loops) {result : Handle}
    (hpasses : p.PassesLoops e.steps output.dependencies result.dependencies) :
    Yields (ls.foldlM (emitUnlessMarked p loopsOver output) result) e fun h e' =>
      p.PassesLoops e'.steps output.dependencies h.dependencies := by
  induction ls generalizing result e with
  | nil => exact .pure hpasses
  | cons l rest ih =>
      rw [List.forall_mem_cons] at hls
      rw [List.foldlM_cons]
      exact .bind (emitUnlessMarked_passes hp hover hls.1 hpasses) fun _ _ => ih hls.2

end Loops

/-- An emitter of loops over some data hands on data that only loops stand before. -/
def PassesOver (p : Plan) (loopsOver : String → Handle → Emitter Handle) : Prop :=
  ∀ id output e, Yields (loopsOver id output) e fun h e' =>
    p.PassesLoops e'.steps output.dependencies h.dependencies

theorem loopsOver_passesOver (hp : p.Sound) (left : Nat) : PassesOver p (loopsOver p left) := by
  intro id output e
  have hstart (e : Emission) : p.PassesLoops e.steps output.dependencies output.dependencies :=
    ⟨[], List.nil_subset _, .start⟩
  cases left with
  | zero => exact .pure (hstart e)
  | succ left =>
      rw [loopsOver_succ]
      have hover : EmitsLoops p default (loopsOver p left) := loopsOver_emitsLoops hp left
      exact emitUnmarked_passes hp hover (fun l hl => List.mem_of_mem_filter hl) (hstart e)

/-! ## Parts -/

section Parts

variable {loopsOver : String → Handle → Emitter Handle} (hp : p.Sound)
variable (hover : EmitsLoops p default loopsOver) (hpassesOver : PassesOver p loopsOver)
include hp hover hpassesOver

/-- A part adds its step, and only loops stand between that and what is handed on. -/
theorem emitPart_passes {part : Part} (hpart : part ∈ p.parts) (chain : Handle) (e : Emission) :
    Yields (emitPart p loopsOver part chain) e fun h e' =>
      (Site.part p part chain).step ∈ e'.steps ∧
        p.PassesLoops e'.steps [part.stepId] h.dependencies := by
  rw [emitPart_eq hp hpart]
  refine .of_run_bind (run_push _ e) ?_
  refine ((hover _ _ _ (hp.location?_part hpart)).and (hpassesOver part.id _ _)).mono ?_
  rintro h e' ⟨⟨-, hgrows⟩, hpasses⟩
  exact ⟨hgrows.steps_subset (by simp [Emission.addSteps]), hpasses⟩

/-- Parts that depend on nothing of their own pass on what the rows before them leave behind. -/
theorem emitParts_passes {parts : List Part} (hparts : ∀ part ∈ parts, part ∈ p.parts)
    (hdepends : ∀ part ∈ parts, part.dependsOn = []) {rows : Handle} (hrows : Obtainable p rows)
    (e : Emission) :
    Yields (parts.foldlM (fun rows part => emitPart p loopsOver part rows) rows) e fun h e' =>
      ∃ ids, parts.map Part.stepId ⊆ ids ∧
        ids ⊆ parts.map Part.stepId ++ p.loops.map Loop.stepId ∧
          Passes e'.steps rows.dependencies ids h.dependencies := by
  induction parts generalizing rows e with
  | nil => exact .pure ⟨[], List.nil_subset _, List.nil_subset _, .start⟩
  | cons part rest ih =>
      rw [List.forall_mem_cons] at hparts hdepends
      rw [List.foldlM_cons]
      refine .bind ((emitPart_yields hp hover hparts.1 hrows e).and
        (emitPart_passes hp hover hpassesOver hparts.1 rows e)) ?_
      rintro mid e₁ ⟨⟨-, hmid, -⟩, hstep, loops, hloops, hpasses⟩
      refine ((emitParts_yields hp hover hparts.2 hmid e₁).and
        (ih hparts.2 hdepends.2 hmid e₁)).mono ?_
      rintro h e' ⟨⟨_, -, hgrows⟩, ids, hrest, hids, hmore⟩
      -- The step of the part lists what the rows left behind; loops and the other parts follow.
      have hfirst : Passes e₁.steps rows.dependencies [part.stepId] [part.stepId] :=
        .step .start hstep (Plan.mem_waitsOf_iff hdepends.1 rows)
      refine ⟨part.stepId :: (loops ++ ids), ?_, ?_,
        ((hfirst.trans hpasses).mono hgrows.steps_subset).trans hmore⟩
      · exact List.cons_subset_cons _ (List.subset_append_of_subset_right _ hrest)
      · refine List.cons_subset_cons _ (List.append_subset.mpr ⟨?_, hids⟩)
        exact List.subset_append_of_subset_right _ hloops

end Parts

theorem emitChain_passes (hp : p.Sound) {parts : List Part}
    (hparts : ∀ part ∈ parts, part ∈ p.parts)
    (hdepends : ∀ part ∈ parts, part.dependsOn = []) {rows : Handle} (hrows : Obtainable p rows)
    (e : Emission) :
    Yields (emitChain p parts rows) e fun h e' => ∃ ids,
      parts.map Part.stepId ⊆ ids ∧ ids ⊆ parts.map Part.stepId ++ p.loops.map Loop.stepId ∧
        Passes e'.steps rows.dependencies ids h.dependencies :=
  emitParts_passes hp (loopsOver_emitsLoops hp _) (loopsOver_passesOver hp _) hparts hdepends hrows
    e

/-- After a part that depends on something of its own, if it is the last one that does, only loops
and the other parts join what its step leaves behind. -/
theorem emitChain_passes_of_last (hp : p.Sound) {before after : List Part} {part : Part}
    (hparts : ∀ other ∈ before ++ part :: after, other ∈ p.parts)
    (hdepends : ∀ other ∈ after, other.dependsOn = []) {rows : Handle} (hrows : Obtainable p rows)
    (e : Emission) :
    Yields (emitChain p (before ++ part :: after) rows) e fun h e' =>
      (∃ chain, (Site.part p part chain).step ∈ e'.steps) ∧
        ∃ ids, ids ⊆ after.map Part.stepId ++ p.loops.map Loop.stepId ∧
          Passes e'.steps [part.stepId] ids h.dependencies := by
  rw [List.forall_mem_append, List.forall_mem_cons] at hparts
  obtain ⟨hbefore, hpart, hafter⟩ := hparts
  have hover : EmitsLoops p default (allLoopsOver p) := loopsOver_emitsLoops hp _
  rw [emitChain, List.foldlM_append]
  refine .bind (emitChain_yields default hp hbefore hrows e) ?_
  rintro mid e₁ ⟨_, -, hmid, -⟩
  rw [List.foldlM_cons]
  refine .bind ((emitPart_yields hp hover hpart hmid e₁).and
    (emitPart_passes hp hover (loopsOver_passesOver hp _) hpart mid e₁)) ?_
  rintro output e₂ ⟨⟨-, houtput, -⟩, hstep, loops, hloops, hpasses⟩
  refine ((emitChain_yields default hp hafter houtput e₂).and
    (emitChain_passes hp hafter hdepends houtput e₂)).mono ?_
  rintro h e' ⟨⟨_, -, hgrows⟩, ids, -, hids, hmore⟩
  refine ⟨⟨mid, hgrows.steps_subset hstep⟩, loops ++ ids,
    List.append_subset.mpr ⟨?_, hids⟩, (hpasses.mono hgrows.steps_subset).trans hmore⟩
  exact List.subset_append_of_subset_right _ hloops

theorem emitChain_covers (hp : p.Sound) {parts : List Part}
    (hparts : ∀ part ∈ parts, part ∈ p.parts)
    (hdepends : ∀ part ∈ parts, part.dependsOn = []) {rows : Handle} (hrows : Obtainable p rows)
    (hcovers : e.Covers ids rows) :
    Yields (emitChain p parts rows) e fun h e' => e'.Covers (ids ++ parts.map Part.stepId) h := by
  refine ((emitChain_yields default hp hparts hrows e).and
    (emitChain_passes hp hparts hdepends hrows e)).mono ?_
  rintro h e' ⟨⟨_, -, hgrows⟩, path, hpath, -, hpasses⟩ x hx
  refine hpasses.upstream ?_
  rcases List.mem_append.mp hx with hx | hx
  · exact .inl ((hcovers x hx).mono hgrows.steps_subset)
  · exact .inr (hpath hx)

/-! ## Sources -/

/-- A source is read, if it has to be, and only loops stand between it and what is handed on. -/
theorem fetchSource_passes (hp : p.Sound) {s : Source} (hs : s ∈ p.candidates) (e : Emission) :
    Yields (fetchSource p s) e fun h e' =>
      (∀ operation, s.readOperation = some operation → s.fetch operation ∈ e'.steps) ∧
        p.PassesLoops e'.steps s.handle.dependencies h.dependencies := by
  have hsource := hp.location?_source (Plan.mem_sources_of_mem_candidates hs)
  have hloops (e : Emission) : Yields (do
      let output ← locate p "compiler" s.id
      allLoopsOver p s.id output) e fun h e' =>
        e.steps ⊆ e'.steps ∧ p.PassesLoops e'.steps s.handle.dependencies h.dependencies := by
    have hover : EmitsLoops p default (allLoopsOver p) := loopsOver_emitsLoops hp _
    rw [locate_eq_pure hsource, pure_bind]
    refine ((hover s.id _ e hsource).and (loopsOver_passesOver hp _ s.id _ e)).mono ?_
    exact fun h e' ⟨⟨_, hgrows⟩, hpasses⟩ => ⟨hgrows.steps_subset, hpasses⟩
  unfold fetchSource
  cases hread : s.readOperation with
  | none => exact (hloops e).mono fun _ _ ⟨_, hpasses⟩ => ⟨nofun, hpasses⟩
  | some operation =>
      refine .of_run_bind (run_push _ e) ((hloops _).mono ?_)
      rintro h e' ⟨hsub, hpasses⟩
      refine ⟨?_, hpasses⟩
      rintro _ ⟨⟩
      exact hsub (by simp [Emission.addSteps])

/-- What has to be finished before the rows of a source that is read are there. -/
theorem handle_dependencies_of_read {s : Source} (hs : s ∈ p.candidates) :
    s.handle.dependencies = if s.readOperation.isSome then [s.fetchId] else [] := by
  have hlookup : s.isLookup = false := by simpa using (List.mem_filter.mp hs).2
  rw [Source.handle, hlookup, if_neg Bool.false_ne_true]
  split <;> rfl

theorem fetchSource_covers (hp : p.Sound) {s : Source} (hs : s ∈ p.candidates) (e : Emission) :
    Yields (fetchSource p s) e fun h e' =>
      e'.Covers (if s.readOperation.isSome then [s.fetchId] else []) h := by
  refine (fetchSource_passes hp hs e).mono ?_
  rintro h e' ⟨-, loops, -, hpasses⟩ x hx
  refine hpasses.upstream (.inl (.of_mem ?_))
  rwa [handle_dependencies_of_read hs]

theorem fetchAll_covers (hp : p.Sound) {ss : List Source} (hss : ∀ s ∈ ss, s ∈ p.candidates)
    (e : Emission) :
    Yields (ss.mapM (fetchSource p)) e fun outputs e' =>
      ∀ s ∈ ss, s.readOperation.isSome →
        Upstream e'.steps (outputs.flatMap Handle.dependencies) s.fetchId := by
  induction ss generalizing e with
  | nil => exact .pure nofun
  | cons s rest ih =>
      rw [List.forall_mem_cons] at hss
      rw [List.mapM_cons]
      refine .bind (fetchSource_covers hp hss.1 e) ?_
      intro output e₁ hcovers
      refine .bind ((fetchAll_yields default hp hss.2 e₁).and (ih hss.2 e₁)) ?_
      rintro outputs e' ⟨⟨-, _, hgrowth⟩, hrest⟩
      refine .pure (List.forall_mem_cons.mpr ⟨fun hread => ?_, fun other hother hread => ?_⟩)
      · rw [if_pos hread] at hcovers
        refine ((hcovers _ (List.mem_singleton_self _)).mono hgrowth.steps_subset).mono_ids ?_
        exact List.subset_append_left _ _
      · exact (hrest other hother hread).mono_ids (List.subset_append_right _ _)

theorem fetchSources_covers (hp : p.Sound) (e : Emission) :
    Yields (fetchSources p) e fun h e' => e'.Covers (p.fetchIds ++ p.mergeIds) h := by
  unfold fetchSources
  refine .bind ((fetchAll_yields default hp (fun _ => id) e).and
    (fetchAll_covers hp (fun _ => id) e)) ?_
  rintro outputs e₁ ⟨⟨houtputs, -⟩, hread⟩
  have hlength := houtputs.length_eq
  have hfetch : ∀ x ∈ p.fetchIds, Upstream e₁.steps (outputs.flatMap Handle.dependencies) x := by
    intro x hx
    obtain ⟨s, hs, rfl⟩ := List.mem_map.mp hx
    exact hread s (List.mem_of_mem_filter hs) (List.mem_filter.mp hs).2
  match outputs with
  | [] => exact absurd (List.length_eq_zero_iff.mp hlength) hp.candidates_ne_nil
  | [output] =>
      have hmerge : p.mergeIds = [] := by
        rw [Plan.mergeIds, hlength]
        rfl
      rw [hmerge, List.append_nil]
      rw [List.flatMap_singleton] at hfetch
      exact .pure hfetch
  | first :: second :: others =>
      have hmany : 2 ≤ p.candidates.length := by
        rw [hlength]
        simp
      rw [Plan.mergeIds, if_pos hmany]
      refine .of_run_bind (run_push _ e₁) (.pure fun x hx => ?_)
      have hstep : mergeStep first (first :: second :: others) ∈
          (e₁.addSteps [mergeStep first (first :: second :: others)]).steps := by
        simp [Emission.addSteps]
      rcases List.mem_append.mp hx with hx | hx
      · refine ((hfetch x hx).mono (List.subset_append_left _ _)).through hstep fun id hid => ?_
        exact List.mem_eraseDups.mpr hid
      · exact .of_mem hx

/-! ## Lookup sources -/

theorem deduplicate_covers {lookup : Source} {rows : Handle} (hunchecked : lookup.id ∉ e.checked)
    (hcovers : e.Covers ids rows) :
    Yields (deduplicate settings lookup rows) e fun h e' =>
      e'.Covers (ids ++ lookup.checkIds) h := by
  refine .of_run (run_deduplicate rows hunchecked) fun x hx => ?_
  let added := [lookup.readReference, lookup.extractKeys settings.defaultKeyField,
    lookup.excludeKnown settings.defaultKeyField rows]
  have hkeys : lookup.extractKeys settings.defaultKeyField ∈ e.steps ++ added := by simp [added]
  have hlast : lookup.excludeKnown settings.defaultKeyField rows ∈ e.steps ++ added := by
    simp [added]
  -- The last step lists what the rows leave behind, and the keys; those list the step that reads.
  have hrows : rows.dependencies ⊆ rows.dependencies ++ [lookup.extractKeysId] :=
    List.subset_append_left _ _
  have hkeysId : [lookup.extractKeysId] ⊆ rows.dependencies ++ [lookup.extractKeysId] :=
    List.subset_append_right _ _
  rcases List.mem_append.mp hx with hx | hx
  · exact ((hcovers x hx).mono (List.subset_append_left _ added)).through hlast hrows
  · simp only [Source.checkIds, List.mem_cons, List.not_mem_nil, or_false] at hx
    rcases hx with rfl | rfl | rfl
    · have hread : Upstream (e.steps ++ added) [lookup.extractKeysId] lookup.readReferenceId :=
        (Upstream.of_mem (List.mem_singleton_self _)).through hkeys (List.Subset.refl _)
      exact hread.through hlast hkeysId
    · exact (Upstream.of_mem (List.mem_singleton_self _)).through hlast hkeysId
    · exact .of_mem (List.mem_singleton_self _)

end Emitter
end PlanFlow
