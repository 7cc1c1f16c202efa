import PlanFlow.Proofs.Emission.Run
import PlanFlow.Proofs.Emission.Sites

/-!
# How an emission grows

Between two emissions, some steps were added at the end, each at a site of the plan's parts and on
data that a plan has.  Their sites are accounted for: single ones, and those of the loops that were
marked in between, with their bodies.  No loop is accounted for twice.
-/

namespace PlanFlow

/-- The data that there is while the parts of a plan are emitted. -/
inductive Obtainable (p : Plan) : Handle → Prop
  /-- The data of a source, a part or a loop. -/
  | located {id : String} {h : Handle} (hlocation : p.location? id = some h) : Obtainable p h
  /-- The output of a loop. -/
  | loop {l : Loop} (hl : l ∈ p.loops) : Obtainable p (.ofStep l.stepId)
  /-- The current item of a loop. -/
  | item {l : Loop} (hl : l ∈ p.loops) : Obtainable p (.ofItem l.stepId l.itemName)
  /-- The rows that a lookup source does not know. -/
  | checked {s : Source} (hs : s ∈ p.lookups) : Obtainable p (.ofStep s.excludeKnownId)
  /-- The rows of several sources. -/
  | merged (hmany : 2 ≤ p.candidates.length) : Obtainable p (.ofStep Emitter.mergeId)

/-- What is handed on is there. -/
theorem Plan.HandsOn.obtainable {p : Plan} {id : String} {h : Handle} (hh : p.HandsOn id h) :
    Obtainable p h := by
  cases hh with
  | located hlocation => exact .located hlocation
  | loop hl _ => exact .loop hl

/-- The sites of the parts of a plan. -/
inductive Sited (p : Plan) (settings : Settings) : Site → Prop
  | fetch {s : Source} {operation : String} (hs : s ∈ p.candidates)
      (hread : s.readOperation = some operation) : Sited p settings (.fetch s operation)
  | merge {first second : Handle} {others : List Handle} (hmany : 2 ≤ p.candidates.length)
      (houtputs : ∀ h ∈ first :: second :: others, Obtainable p h) :
      Sited p settings (.merge first (second :: others))
  | part {part : Part} {chain input : Handle} {others : List Handle} (hpart : part ∈ p.parts)
      (hchain : Obtainable p chain) (hinputs : p.inputsOf part chain = input :: others) :
      Sited p settings (.part p part chain)
  | loop {l : Loop} {rows : Handle} (hl : l ∈ p.loops) (hrows : Obtainable p rows) :
      Sited p settings (.loop p l rows)
  | readReference {s : Source} (hs : s ∈ p.lookups) : Sited p settings (.readReference s)
  | extractKeys {s : Source} (hs : s ∈ p.lookups) : Sited p settings (.extractKeys settings s)
  | excludeKnown {s : Source} {rows : Handle} (hs : s ∈ p.lookups) (hrows : Obtainable p rows) :
      Sited p settings (.excludeKnown settings s rows)

/-- The steps that the parts of a plan are turned into. -/
def Emitted (p : Plan) (settings : Settings) (s : Step) : Prop :=
  ∃ site, Sited p settings site ∧ site.step = s

/-- The ids of the steps that check rows against a lookup source. -/
def Source.checkIds (s : Source) : List String :=
  [s.readReferenceId, s.extractKeysId, s.excludeKnownId]

namespace Emission

/-- One emission grew to another by sites of its own, by loops and by lookup sources. -/
structure Growth (p : Plan) (settings : Settings) (own : List Site) (loops : List Loop)
    (lookups : List Source) (e e' : Emission) : Prop where
  steps : ∃ (sites : List Site) (bodies : List (List Site)),
    e'.steps = e.steps ++ sites.map Site.step ∧ (∀ site ∈ sites, Sited p settings site) ∧
      List.Forall₂ p.LoopSites loops bodies ∧ sites.Perm (own ++ bodies.flatten)
  marked : e'.loops = (loops.map Loop.id).reverse ++ e.loops
  mem_loops : ∀ l ∈ loops, l ∈ p.loops
  nodup : (loops.map Loop.id).Nodup
  unmarked : ∀ l ∈ loops, l.id ∉ e.loops
  checked : ∀ id, id ∈ e'.checked ↔ id ∈ lookups.map Source.id ∨ id ∈ e.checked

namespace Growth

variable {p : Plan} {settings : Settings} {e e₁ e₂ : Emission}
variable {own own₁ own₂ body : List Site} {loops loops₁ loops₂ : List Loop}
variable {lookups lookups₁ lookups₂ : List Source} {site : Site}

theorem refl (e : Emission) : Growth p settings [] [] [] e e where
  steps := ⟨[], [], by simp⟩
  marked := by simp
  mem_loops := by simp
  nodup := by simp
  unmarked := by simp
  checked := by simp

theorem addStep (hsite : Sited p settings site) (e : Emission) :
    Growth p settings [site] [] [] e (e.addSteps [site.step]) where
  steps := ⟨[site], [], rfl, by simpa using hsite, .nil, .refl _⟩
  marked := by simp [addSteps]
  mem_loops := by simp
  nodup := by simp
  unmarked := by simp
  checked := by simp [addSteps]

/-- Growing twice is growing by both. -/
theorem trans (h₁ : Growth p settings own₁ loops₁ lookups₁ e e₁)
    (h₂ : Growth p settings own₂ loops₂ lookups₂ e₁ e₂) :
    Growth p settings (own₁ ++ own₂) (loops₁ ++ loops₂) (lookups₁ ++ lookups₂) e e₂ where
  steps := by
    obtain ⟨sites₁, bodies₁, hsteps₁, hsited₁, hbodies₁, hperm₁⟩ := h₁.steps
    obtain ⟨sites₂, bodies₂, hsteps₂, hsited₂, hbodies₂, hperm₂⟩ := h₂.steps
    refine ⟨sites₁ ++ sites₂, bodies₁ ++ bodies₂, ?_, ?_, List.rel_append hbodies₁ hbodies₂, ?_⟩
    · rw [hsteps₂, hsteps₁, List.map_append, List.append_assoc]
    · rw [List.forall_mem_append]
      exact ⟨hsited₁, hsited₂⟩
    · refine (hperm₁.append hperm₂).trans ?_
      rw [List.flatten_append, List.append_assoc, List.append_assoc]
      exact (List.perm_append_comm_assoc _ _ _).append_left own₁
  marked := by
    rw [h₂.marked, h₁.marked, List.map_append, List.reverse_append, List.append_assoc]
  mem_loops := by
    rw [List.forall_mem_append]
    exact ⟨h₁.mem_loops, h₂.mem_loops⟩
  nodup := by
    rw [List.map_append, List.nodup_append]
    refine ⟨h₁.nodup, h₂.nodup, ?_⟩
    -- What was emitted first is marked, and later only unmarked loops are emitted.
    rintro id hid _ hid' rfl
    obtain ⟨l, hl, rfl⟩ := List.mem_map.mp hid'
    refine h₂.unmarked l hl ?_
    rw [h₁.marked]
    exact List.mem_append_left _ (List.mem_reverse.mpr hid)
  unmarked := by
    rw [List.forall_mem_append]
    refine ⟨h₁.unmarked, fun l hl hmem => h₂.unmarked l hl ?_⟩
    rw [h₁.marked]
    exact List.mem_append_right _ hmem
  checked id := by
    rw [h₂.checked, h₁.checked, List.map_append, List.mem_append]
    tauto

/-- Marking a loop, adding its step and growing by its body is growing by the loop. -/
theorem addLoop {l : Loop} (hl : l ∈ p.loops) (hunmarked : l.id ∉ e.loops)
    (hsite : Sited p settings site) (hbody : p.LoopSites l (site :: body))
    (h : Growth p settings body loops lookups ((e.addLoop l.id).addSteps [site.step]) e₁) :
    Growth p settings [] (l :: loops) lookups e e₁ where
  steps := by
    obtain ⟨sites, bodies, hsteps, hsited, hbodies, hperm⟩ := h.steps
    refine ⟨site :: sites, (site :: body) :: bodies, ?_, ?_, .cons hbody hbodies, hperm.cons site⟩
    · rw [hsteps]
      simp [addSteps, Emission.addLoop]
    · rw [List.forall_mem_cons]
      exact ⟨hsite, hsited⟩
  marked := by
    rw [h.marked]
    simp [addSteps, Emission.addLoop]
  mem_loops := by
    rw [List.forall_mem_cons]
    exact ⟨hl, h.mem_loops⟩
  nodup := by
    rw [List.map_cons, List.nodup_cons]
    refine ⟨fun hmem => ?_, h.nodup⟩
    obtain ⟨l', hl', hid'⟩ := List.mem_map.mp hmem
    exact h.unmarked l' hl' (hid' ▸ List.mem_cons_self)
  unmarked := by
    rw [List.forall_mem_cons]
    exact ⟨hunmarked, fun l' hl' hmem => h.unmarked l' hl' (List.mem_cons_of_mem _ hmem)⟩
  checked := h.checked

/-- What was emitted stays emitted. -/
theorem steps_subset (h : Growth p settings own loops lookups e e₁) : e.steps ⊆ e₁.steps := by
  obtain ⟨sites, -, hsteps, -⟩ := h.steps
  rw [hsteps]
  exact List.subset_append_left _ _

/-- What was marked stays marked. -/
theorem marked_subset (h : Growth p settings own loops lookups e e₁) : e.loops ⊆ e₁.loops := by
  rw [h.marked]
  exact List.subset_append_right _ _

/-- What was added has the ids of single sites, and those of loops and their bodies. -/
theorem exists_added (h : Growth p settings own loops lookups e e₁) :
    ∃ added, e₁.steps = e.steps ++ added ∧
      (added.map Step.id).Perm (own.map Site.id ++ loops.flatMap p.loopIds) := by
  obtain ⟨sites, bodies, hsteps, -, hbodies, hperm⟩ := h.steps
  refine ⟨sites.map Site.step, hsteps, ?_⟩
  have hids := hperm.map Site.id
  rw [List.map_append, Plan.LoopSites.map_id_flatten hbodies] at hids
  rwa [List.map_map]

/-- Growing after some steps is growing without them. -/
theorem of_addSteps {steps : List Step}
    (h : Growth p settings own loops lookups (e.addSteps steps) e₁) :
    ∃ sites : List Site, e₁.steps = e.steps ++ steps ++ sites.map Site.step ∧
      Growth p settings own loops lookups e
        { e₁ with steps := e.steps ++ sites.map Site.step } := by
  obtain ⟨sites, bodies, hsteps, hsites⟩ := h.steps
  refine ⟨sites, hsteps, ⟨sites, bodies, rfl, hsites⟩, ?_, h.mem_loops, h.nodup, ?_, ?_⟩
  · exact h.marked
  · exact h.unmarked
  · exact h.checked

/-- If all loops are marked in the end, all loops were emitted. -/
theorem perm_loops (hp : p.Sound) (h : Growth p settings own loops lookups .start e)
    (hall : ∀ l ∈ p.loops, l.id ∈ e.loops) : loops.Perm p.loops := by
  rw [List.perm_ext_iff_of_nodup h.nodup.of_map hp.nodup_loops.of_map]
  refine fun l => ⟨h.mem_loops l, fun hl => ?_⟩
  have hmarked : l.id ∈ loops.map Loop.id := by
    have hmem := hall l hl
    rw [h.marked] at hmem
    simpa [start] using hmem
  obtain ⟨l', hl', hid⟩ := List.mem_map.mp hmarked
  rwa [← List.inj_on_of_nodup_map hp.nodup_loops (h.mem_loops l' hl') hl hid]

/-- Where no id is used twice, a loop whose step was there before was marked before. -/
theorem marked_of_stepId_mem (hp : p.Sound) (h : Growth p settings own loops lookups e e₁)
    (hnodup : (e₁.steps.map Step.id).Nodup) {l : Loop} (hl : l ∈ p.loops)
    (hmarked : l.id ∈ e₁.loops) (hstep : l.stepId ∈ e.steps.map Step.id) : l.id ∈ e.loops := by
  obtain ⟨added, hsteps, hperm⟩ := h.exists_added
  rw [h.marked, List.mem_append, List.mem_reverse] at hmarked
  refine hmarked.resolve_left fun hnew => ?_
  obtain ⟨l', hl', hid⟩ := List.mem_map.mp hnew
  obtain rfl := List.inj_on_of_nodup_map hp.nodup_loops (h.mem_loops l' hl') hl hid
  have hadded : l'.stepId ∈ added.map Step.id := by
    rw [hperm.mem_iff, List.mem_append]
    exact .inr (List.mem_flatMap.mpr ⟨l', hl', List.mem_cons_self⟩)
  rw [hsteps, List.map_append, List.nodup_append] at hnodup
  exact hnodup.2.2 _ hstep _ hadded rfl

end Growth

/-- The emission grew by sites of its own and by loops, and the data is there. -/
def Grows (p : Plan) (settings : Settings) (own : List Site) (e : Emission) (h : Handle)
    (e' : Emission) : Prop :=
  Obtainable p h ∧ ∃ loops, Growth p settings own loops [] e e'

section Grows

variable {p : Plan} {settings : Settings} {own own₁ own₂ : List Site} {loops : List Loop}
variable {e e₁ e₂ : Emission} {h : Handle}

theorem Grows.refl (hh : Obtainable p h) (e : Emission) : Grows p settings [] e h e :=
  ⟨hh, [], Growth.refl e⟩

theorem Grows.steps_subset (hgrows : Grows p settings own e h e₁) : e.steps ⊆ e₁.steps := by
  obtain ⟨-, _, hgrowth⟩ := hgrows
  exact hgrowth.steps_subset

theorem Growth.grows_trans (h₁ : Growth p settings own₁ loops [] e e₁)
    (h₂ : Grows p settings own₂ e₁ h e₂) : Grows p settings (own₁ ++ own₂) e h e₂ := by
  obtain ⟨hh, more, hmore⟩ := h₂
  exact ⟨hh, loops ++ more, h₁.trans hmore⟩

end Grows
end Emission
end PlanFlow
