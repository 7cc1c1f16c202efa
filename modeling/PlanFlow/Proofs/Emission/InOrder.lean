import PlanFlow.Proofs.Emission.Chain

/-!
# Steps in order

Steps are in order if each stands behind all the steps that it waits for.  A step that waits only
for what was emitted before can be emitted next.  Where no part depends on something of its own,
each part waits for the data that it is given, and each loop for the data that it runs over.  So if
that data is there, parts and loops are emitted in order, and the data that they hand on is there.
-/

namespace PlanFlow

open Relation (TransGen)

/-- Every step waits only for some ids that are known before all of them, and for steps that stand
before it. -/
def InOrderAfter (known : List String) (steps : List Step) : Prop :=
  ∀ before s after, steps = before ++ s :: after → s.dependencies ⊆ known ++ before.map Step.id

/-- Every step stands behind the steps that it waits for. -/
def InOrder (steps : List Step) : Prop :=
  ∀ before s after, steps = before ++ s :: after → s.dependencies ⊆ before.map Step.id

theorem inOrder_iff {steps : List Step} : InOrder steps ↔ InOrderAfter [] steps := Iff.rfl

theorem inOrder_iff_forall_fin {steps : List Step} :
    InOrder steps ↔ ∀ i : Fin steps.length, ∀ d ∈ (steps.get i).dependencies,
      d ∈ (steps.take i).map Step.id := by
  constructor
  · intro h i d hd
    refine h (steps.take i) (steps.get i) (steps.drop (i + 1)) ?_ hd
    rw [List.get_eq_getElem, List.getElem_cons_drop, List.take_append_drop]
  · rintro h before s after rfl d hd
    simpa using h ⟨before.length, by simp⟩ d (by simpa using hd)

instance (steps : List Step) : Decidable (InOrder steps) :=
  decidable_of_iff _ inOrder_iff_forall_fin.symm

namespace InOrderAfter

variable {known known' : List String} {steps more : List Step} {s : Step}

/-- Steps that wait only for what is known are in any order. -/
theorem of_forall (h : ∀ s ∈ steps, s.dependencies ⊆ known) : InOrderAfter known steps := by
  rintro before s after rfl
  apply List.subset_append_of_subset_left
  apply h
  simp

/-- Steps can come next if all that they have to know is known by then. -/
theorem append (h : InOrderAfter known steps) (hmore : InOrderAfter known' more)
    (hknown : known' ⊆ known ++ steps.map Step.id) : InOrderAfter known (steps ++ more) := by
  intro before s after hsplit
  rcases List.append_eq_append_iff.mp hsplit with ⟨between, rfl, rfl⟩ | ⟨between, rfl, hmiddle⟩
  · rw [List.map_append, ← List.append_assoc]
    refine List.Subset.trans (hmore between s after rfl) (List.append_subset.mpr ⟨?_, ?_⟩)
    · exact List.subset_append_of_subset_left _ hknown
    · exact List.subset_append_right _ _
  · cases between with
    | nil =>
        obtain rfl : s :: after = more := hmiddle
        rw [List.append_nil] at hknown
        have hdeps : s.dependencies ⊆ known' := by
          simpa using hmore [] s after rfl
        exact List.Subset.trans hdeps hknown
    | cons t between =>
        obtain ⟨rfl, -⟩ := List.cons.inj hmiddle
        exact h before s between rfl

end InOrderAfter

namespace InOrder

variable {steps before after : List Step} {s : Step} {a b : String}

/-- A step that waits only for what is there can come next. -/
theorem concat (h : InOrder steps) (hs : s.dependencies ⊆ steps.map Step.id) :
    InOrder (steps ++ [s]) := by
  have hlast : InOrderAfter s.dependencies [s] :=
    .of_forall (List.forall_mem_singleton.mpr (List.Subset.refl _))
  exact inOrder_iff.mpr (InOrderAfter.append (inOrder_iff.mp h) hlast hs)

/-- Where no id is used twice, what feeds one of the first steps is one of them. -/
theorem mem_of_feeds (h : InOrder (before ++ after))
    (hnodup : ((before ++ after).map Step.id).Nodup) (hfeeds : Feeds (before ++ after) a b)
    (hb : b ∈ before.map Step.id) : a ∈ before.map Step.id := by
  obtain ⟨s, hs, rfl, ha⟩ := hfeeds
  obtain ⟨t, ht, hid⟩ := List.mem_map.mp hb
  obtain rfl := List.inj_on_of_nodup_map hnodup (List.mem_append_left _ ht) hs hid
  obtain ⟨first, others, rfl⟩ := List.append_of_mem ht
  have hfirst : a ∈ first.map Step.id := h first t (others ++ after) (by simp) ha
  rw [List.map_append]
  exact List.mem_append_left _ hfirst

theorem mem_of_transGen (h : InOrder (before ++ after))
    (hnodup : ((before ++ after).map Step.id).Nodup)
    (hfeeds : TransGen (Feeds (before ++ after)) a b) (hb : b ∈ before.map Step.id) :
    a ∈ before.map Step.id := by
  induction hfeeds with
  | single hfeeds => exact h.mem_of_feeds hnodup hfeeds hb
  | tail _ hfeeds ih => exact ih (h.mem_of_feeds hnodup hfeeds hb)

end InOrder

/-- The steps so far are in order, and those that some data needs are among them. -/
structure Emission.Orderly (e : Emission) (h : Handle) : Prop where
  inOrder : InOrder e.steps
  provided : h.dependencies ⊆ e.steps.map Step.id

namespace Emission.Orderly

variable {e e' : Emission} {h : Handle} {s : Step}

theorem push (horderly : e.Orderly h) (hs : s.dependencies ⊆ e.steps.map Step.id) :
    (e.addSteps [s]).Orderly (.ofStep s.id) where
  inOrder := horderly.inOrder.concat hs
  provided := by simp [Handle.dependencies, Handle.ofStep, Emission.addSteps]

/-- Data that was there is there after more steps that are in order. -/
theorem later (horderly : e.Orderly h) (hsub : e.steps ⊆ e'.steps) (hin : InOrder e'.steps) :
    e'.Orderly h where
  inOrder := hin
  provided := List.Subset.trans horderly.provided (List.map_subset _ hsub)

end Emission.Orderly

namespace Emitter

open Emission (Growth Grows Orderly)

variable {p : Plan} {settings : Settings} {e : Emission}

/-! ## Parts and loops -/

/-- An emitter of loops over data that is there emits them in order. -/
def KeepsOrder (p : Plan) (loopsOver : String → Handle → Emitter Handle) : Prop :=
  ∀ id output e, p.location? id = some output → e.Orderly output →
    Yields (loopsOver id output) e fun h e' => e'.Orderly h

section Loops

variable {loopsOver : String → Handle → Emitter Handle} (hp : p.Sound)
variable (hdepends : ∀ part ∈ p.parts, part.dependsOn = [])
variable (hover : EmitsLoops p default loopsOver) (hkeeps : KeepsOrder p loopsOver)
include hp hdepends hkeeps

theorem emitPart_orderly {part : Part} (hpart : part ∈ p.parts) {chain : Handle}
    (horderly : e.Orderly chain) :
    Yields (emitPart p loopsOver part chain) e fun h e' => e'.Orderly h := by
  rw [emitPart_eq hp hpart]
  refine .of_run_bind (run_push _ e) ?_
  apply hkeeps _ _ _ (hp.location?_part hpart)
  apply horderly.push
  intro id hid
  exact horderly.provided ((Plan.mem_waitsOf_iff (hdepends part hpart) chain id).mp hid)

include hover

theorem emitParts_orderly {parts : List Part} (hparts : ∀ part ∈ parts, part ∈ p.parts)
    {rows : Handle} (hrows : Obtainable p rows) (horderly : e.Orderly rows) :
    Yields (parts.foldlM (fun rows part => emitPart p loopsOver part rows) rows) e
      fun h e' => e'.Orderly h := by
  induction parts generalizing rows e with
  | nil => exact .pure horderly
  | cons part rest ih =>
      rw [List.forall_mem_cons] at hparts
      rw [List.foldlM_cons]
      refine .bind ((emitPart_yields hp hover hparts.1 hrows e).and
        (emitPart_orderly hp hdepends hkeeps hparts.1 horderly)) ?_
      rintro rows e₁ ⟨⟨-, hrows, -⟩, horderly⟩
      exact ih hparts.2 hrows horderly

/-- A loop over data that is there is emitted in order, with its body. -/
theorem emitLoop_orderly {l : Loop} (hl : l ∈ p.loops) {rows : Handle}
    (horderly : e.Orderly rows) :
    Yields (emitLoop p loopsOver l rows) e fun h e' => e'.Orderly h := by
  have hparts : ∀ part ∈ p.bodyParts l, part ∈ p.parts := fun _ => Plan.mem_parts_of_mem_bodyParts
  have hstart : ((e.addLoop l.id).addSteps [p.loopStep l rows]).Orderly (.ofStep l.stepId) :=
    Orderly.push (s := p.loopStep l rows) ⟨horderly.inOrder, horderly.provided⟩ horderly.provided
  rw [emitLoop_eq hp hl]
  refine .of_run_bind rfl (.of_run_bind (run_push _ _) ?_)
  -- The current item is there as soon as the step of the loop is.
  have hitem : ((e.addLoop l.id).addSteps [p.loopStep l rows]).Orderly
      (.ofItem l.stepId l.itemName) := ⟨hstart.inOrder, hstart.provided⟩
  refine .bind ((emitParts_yields hp hover hparts (.item hl) _).and
    (emitParts_orderly hp hdepends hover hkeeps hparts (.item hl) hitem)) ?_
  rintro _ e₁ ⟨⟨_, -, hgrows⟩, horderly₁⟩
  exact .pure (hstart.later hgrows.steps_subset horderly₁.inOrder)

/-- Some of the loops over the same data. -/
theorem emitUnmarked_orderly {id : String} {output result : Handle}
    (houtput : p.location? id = some output) {ls : List Loop}
    (hls : ∀ l ∈ ls, l ∈ p.loops ∧ l.iterateOver = id) (hresult : p.HandsOn id result)
    (horderly : e.Orderly output) (hbefore : e.Orderly result) :
    Yields (ls.foldlM (emitUnlessMarked p loopsOver output) result) e fun h e' => e'.Orderly h := by
  induction ls generalizing result e with
  | nil => exact .pure hbefore
  | cons l rest ih =>
      rw [List.forall_mem_cons] at hls
      rw [List.foldlM_cons]
      have hone : Yields (emitUnlessMarked p loopsOver output result l) e fun h e' =>
          e'.Orderly h :=
        yields_unlessMarked (fun _ => hbefore) fun _ =>
          emitLoop_orderly hp hdepends hover hkeeps hls.1.1 horderly
      refine .bind ((emitUnlessMarked_yields hp hover houtput hls.1.1 hls.1.2 hresult e).and
        hone) ?_
      rintro result e₁ ⟨⟨hhands, hgrows⟩, horderly₁⟩
      exact ih hls.2 hhands (horderly.later hgrows.steps_subset horderly₁.inOrder) horderly₁

end Loops

theorem loopsOver_keepsOrder (hp : p.Sound) (hdepends : ∀ part ∈ p.parts, part.dependsOn = [])
    (left : Nat) : KeepsOrder p (loopsOver p left) := by
  induction left with
  | zero => exact fun id output e _ horderly => .pure horderly
  | succ left ih =>
      intro id output e houtput horderly
      rw [loopsOver_succ]
      exact emitUnmarked_orderly hp hdepends (loopsOver_emitsLoops hp left) ih houtput
        (fun _ => mem_loops_of_mem_over) (.located houtput) horderly horderly

/-! ## The chain -/

section Chain

variable (hp : p.Sound) (hdepends : ∀ part ∈ p.parts, part.dependsOn = [])
include hp hdepends

theorem emitChain_orderly {parts : List Part} (hparts : ∀ part ∈ parts, part ∈ p.parts)
    {rows : Handle} (hrows : Obtainable p rows) (horderly : e.Orderly rows) :
    Yields (emitChain p parts rows) e fun h e' => e'.Orderly h :=
  emitParts_orderly hp hdepends (loopsOver_emitsLoops hp _) (loopsOver_keepsOrder hp hdepends _)
    hparts hrows horderly

theorem fetchSource_orderly {s : Source} (hs : s ∈ p.candidates) (hin : InOrder e.steps) :
    Yields (fetchSource p s) e fun h e' => e'.Orderly h := by
  have hsource := hp.location?_source (Plan.mem_sources_of_mem_candidates hs)
  have hloops (e : Emission) (horderly : e.Orderly s.handle) : Yields (do
      let output ← locate p "compiler" s.id
      allLoopsOver p s.id output) e fun h e' => e'.Orderly h := by
    rw [locate_eq_pure hsource, pure_bind]
    exact loopsOver_keepsOrder hp hdepends _ _ _ e hsource horderly
  have hhandle := handle_dependencies_of_read hs
  unfold fetchSource
  cases hread : s.readOperation with
  | none =>
      simp only [hread, Option.isSome_none, Bool.false_eq_true, if_false] at hhandle
      exact hloops e ⟨hin, by simp [hhandle]⟩
  | some operation =>
      simp only [hread, Option.isSome_some, if_true] at hhandle
      refine .of_run_bind (run_push _ e) (hloops _ ⟨hin.concat (List.nil_subset _), ?_⟩)
      simp [hhandle, Emission.addSteps, Source.fetch]

theorem fetchAll_orderly {ss : List Source} (hss : ∀ s ∈ ss, s ∈ p.candidates)
    (hin : InOrder e.steps) :
    Yields (ss.mapM (fetchSource p)) e fun outputs e' =>
      InOrder e'.steps ∧ ∀ h ∈ outputs, e'.Orderly h := by
  induction ss generalizing e with
  | nil => exact .pure ⟨hin, nofun⟩
  | cons s rest ih =>
      rw [List.forall_mem_cons] at hss
      rw [List.mapM_cons]
      refine .bind (fetchSource_orderly hp hdepends hss.1 hin) fun output e₁ horderly => ?_
      refine .bind ((fetchAll_yields default hp hss.2 e₁).and (ih hss.2 horderly.inOrder)) ?_
      rintro outputs e' ⟨⟨-, _, hgrowth⟩, hin', hrest⟩
      refine .pure ⟨hin', List.forall_mem_cons.mpr ⟨?_, hrest⟩⟩
      exact horderly.later hgrowth.steps_subset hin'

theorem fetchSources_orderly (hin : InOrder e.steps) :
    Yields (fetchSources p) e fun h e' => e'.Orderly h := by
  unfold fetchSources
  refine .bind ((fetchAll_yields default hp (fun _ => id) e).and
    (fetchAll_orderly hp hdepends (fun _ => id) hin)) ?_
  rintro outputs e₁ ⟨⟨houtputs, -⟩, hin₁, horderly⟩
  match outputs with
  | [] => exact absurd (List.length_eq_zero_iff.mp houtputs.length_eq) hp.candidates_ne_nil
  | [output] => exact .pure (horderly output List.mem_cons_self)
  | first :: second :: others =>
      refine .of_run_bind (run_push _ e₁) (.pure ?_)
      apply (horderly first List.mem_cons_self).push
      intro id hid
      obtain ⟨output, houtput, hid⟩ := List.mem_flatMap.mp (List.mem_eraseDups.mp hid)
      exact (horderly output houtput).provided hid

/-- In the end a loop is emitted in order if the data that it iterates over is there by then. -/
theorem finishLoop_inOrder {l : Loop} (hl : l ∈ p.loops) (hin : InOrder e.steps)
    (hprovided : ∀ rows, p.location? l.iterateOver = some rows →
      rows.dependencies ⊆ e.steps.map Step.id) :
    Yields (finishLoop p l) e fun _ e' => InOrder e'.steps := by
  refine yields_unlessMarked (fun _ => hin) fun _ => ?_
  obtain ⟨rows, hrows⟩ := Plan.location?_isSome (hp.iterateOver_mem l hl)
  rw [locate_eq_pure hrows, pure_bind]
  refine .bind (emitLoop_orderly hp hdepends (loopsOver_emitsLoops hp _)
    (loopsOver_keepsOrder hp hdepends _) hl ⟨hin, hprovided rows hrows⟩) ?_
  rintro _ e' horderly
  exact .pure horderly.inOrder

omit hp hdepends in
theorem deduplicate_orderly {lookup : Source} {rows : Handle} (hunchecked : lookup.id ∉ e.checked)
    (horderly : e.Orderly rows) :
    Yields (deduplicate settings lookup rows) e fun h e' => e'.Orderly h := by
  have hread : InOrder (e.steps ++ [lookup.readReference]) :=
    horderly.inOrder.concat (List.nil_subset _)
  have hkeys : InOrder (e.steps ++ [lookup.readReference] ++
      [lookup.extractKeys settings.defaultKeyField]) := by
    apply hread.concat
    simp [Source.extractKeys, Source.readReference]
  have hrows : (lookup.excludeKnown settings.defaultKeyField rows).dependencies ⊆
      (e.steps ++ [lookup.readReference] ++
        [lookup.extractKeys settings.defaultKeyField]).map Step.id := by
    refine List.append_subset.mpr ⟨?_, by simp [Source.extractKeys]⟩
    simp only [List.map_append, List.append_assoc]
    exact List.subset_append_of_subset_left _ horderly.provided
  refine .of_run (run_deduplicate rows hunchecked) ⟨?_, ?_⟩
  · simpa using hkeys.concat hrows
  · simp [Handle.dependencies, Handle.ofStep, Source.excludeKnown]

end Chain

end Emitter
end PlanFlow
