import PlanFlow.Proofs.Emission.Bodies
import PlanFlow.Proofs.Emission.Walk
import PlanFlow.Proofs.Rule.Tail

/-!
# How loops are wired

A loop is emitted where the rows come to what it iterates over, in the body of another loop, or at
the end.  Wherever that is, its step lists the place where the data that it iterates over will be
found.  The steps of its body wait for it in turn, whatever other loops are emitted between them,
and where no part depends on something of its own they pass on its current item.  In the end this
holds of every loop.
-/

namespace PlanFlow

/-- The step of a loop is there, on the data that the loop iterates over, and the steps of its body
wait for it in turn.  The parts in its body pass on its current item if they depend on nothing of
their own. -/
structure Plan.Wired (p : Plan) (steps : List Step) (l : Loop) : Prop where
  step : ∃ rows, p.location? l.iterateOver = some rows ∧ p.loopStep l rows ∈ steps
  members : ∃ members, InTurn steps [l.stepId] ((p.bodyParts l).map Part.stepId) members
  body : (∀ part ∈ p.parts, part.dependsOn = []) →
    ∃ ids target, (p.bodyParts l).map Part.stepId ⊆ ids ∧ Passes steps [l.stepId] ids target

theorem Plan.Wired.mono {p : Plan} {steps more : List Step} {l : Loop} (h : p.Wired steps l)
    (hsub : steps ⊆ more) : p.Wired more l where
  step := by
    obtain ⟨rows, hrows, hstep⟩ := h.step
    exact ⟨rows, hrows, hsub hstep⟩
  members := by
    obtain ⟨members, hmembers⟩ := h.members
    exact ⟨members, hmembers.mono hsub⟩
  body hdepends := by
    obtain ⟨ids, target, hids, hpasses⟩ := h.body hdepends
    exact ⟨ids, target, hids, hpasses.mono hsub⟩

/-- The steps of a loop that is wired, and of its body, are there. -/
theorem Plan.Wired.loopIds_subset {p : Plan} {steps : List Step} {l : Loop} (h : p.Wired steps l) :
    p.loopIds l ⊆ steps.map Step.id := by
  obtain ⟨rows, -, hstep⟩ := h.step
  obtain ⟨members, hmembers⟩ := h.members
  refine List.cons_subset.mpr ⟨List.mem_map_of_mem hstep, ?_⟩
  rw [← hmembers.map_id]
  exact List.map_subset _ hmembers.subset

namespace Emission

variable {p : Plan} {e e₁ e₂ : Emission}

/-- One emission became another, and all loops that were marked in between are wired. -/
structure Wires (p : Plan) (e e' : Emission) : Prop where
  steps_subset : e.steps ⊆ e'.steps
  wired : ∀ l ∈ p.loops, l.id ∈ e'.loops → l.id ∈ e.loops ∨ p.Wired e'.steps l

namespace Wires

/-- Where only steps were added, there is nothing to wire. -/
theorem of_loops_eq (hsub : e.steps ⊆ e₁.steps) (hloops : e₁.loops = e.loops) : e.Wires p e₁ :=
  ⟨hsub, fun _ _ hmarked => .inl (hloops ▸ hmarked)⟩

theorem refl (e : Emission) : e.Wires p e := of_loops_eq (List.Subset.refl _) rfl

theorem trans (h₁ : e.Wires p e₁) (h₂ : e₁.Wires p e₂) : e.Wires p e₂ where
  steps_subset := List.Subset.trans h₁.steps_subset h₂.steps_subset
  wired l hl hmarked := by
    rcases h₂.wired l hl hmarked with hmarked | hwired
    · exact (h₁.wired l hl hmarked).imp_right fun hwired => hwired.mono h₂.steps_subset
    · exact .inr hwired

end Wires
end Emission

namespace Emitter

open Emission (Wires)

variable {p : Plan} {α : Type}

/-- An emitter succeeds wherever it starts, and wires the loops that it marks. -/
def WiresLoops (p : Plan) (m : Emitter α) : Prop :=
  Takes (fun _ => True) (fun _ => Wires p) [] m

theorem composes_wires (p : Plan) : Composes (fun _ => True) fun _ => Wires p where
  refl := Wires.refl
  addStep _ _ := .of_loops_eq (List.subset_append_left _ _) rfl
  trans := Wires.trans
  keeps _ _ := trivial

/-- What is done for a loop unless it is marked. -/
theorem WiresLoops.unlessMarked {l : Loop} {a : α} {m : Emitter α} (hm : WiresLoops p m) :
    WiresLoops p (do if (← get).loops.contains l.id then pure a else m) := fun e _ =>
  yields_unlessMarked (fun _ => Wires.refl e) fun _ => hm e trivial

/-! ## Parts and loops -/

/-- An emitter of loops over what the emission comes to wires the loops. -/
def WiresOver (p : Plan) (loopsOver : String → Handle → Emitter Handle) : Prop :=
  TakesOver p (fun _ => True) (fun _ => Wires p) loopsOver

section Loops

variable {loopsOver : String → Handle → Emitter Handle} (hp : p.Sound)
variable (hwires : WiresOver p loopsOver) (hover : EmitsLoops p default loopsOver)
variable (hpassesOver : PassesOver p loopsOver)
include hp hwires hover hpassesOver

theorem emitLoop_wires {l : Loop} (hl : l ∈ p.loops) {rows : Handle}
    (hrows : p.location? l.iterateOver = some rows) :
    WiresLoops p (emitLoop p loopsOver l rows) := by
  rintro e -
  rw [emitLoop_eq hp hl]
  refine .of_run_bind rfl (.of_run_bind (run_push _ _) ?_)
  have hparts : ∀ part ∈ p.bodyParts l, part ∈ p.parts := fun _ => Plan.mem_parts_of_mem_bodyParts
  have hwired := (composes_wires p).emitParts hp hwires hparts (.ofItem l.stepId l.itemName)
  have hmembers := emitParts_inTurn hp hover hpassesOver (fun part hpart =>
    ⟨hparts part hpart, Plan.inBody_of_mem_bodyParts hl hpart⟩) (.item hl)
  have hbody (e : Emission) : Yields ((p.bodyParts l).foldlM
      (fun item part => emitPart p loopsOver part item) (Handle.ofItem l.stepId l.itemName)) e
      fun _ e' => (∀ part ∈ p.parts, part.dependsOn = []) → ∃ ids target,
        (p.bodyParts l).map Part.stepId ⊆ ids ∧ Passes e'.steps [l.stepId] ids target := by
    by_cases hdepends : ∀ part ∈ p.parts, part.dependsOn = []
    · refine (emitParts_passes hp hover hpassesOver hparts (fun part hpart =>
        hdepends part (hparts part hpart)) (.item hl) e).mono ?_
      rintro h e' ⟨ids, hids, -, hpasses⟩ -
      exact ⟨ids, h.dependencies, hids, hpasses⟩
    · exact (hwired e trivial).mono fun _ _ _ h => absurd h hdepends
  refine .bind ((hwired _ trivial).and ((hmembers _).and (hbody _))) ?_
  rintro _ e₁ ⟨hwires₁, hinTurn, hpasses⟩
  have hstep : p.loopStep l rows ∈ e₁.steps :=
    hwires₁.steps_subset (List.mem_append_right _ (List.mem_singleton_self _))
  have hsub : e.steps ⊆ e₁.steps :=
    List.Subset.trans (List.subset_append_left _ _) hwires₁.steps_subset
  refine .pure ⟨hsub, fun other hother hmarked => ?_⟩
  rcases hwires₁.wired other hother hmarked with hmarked | hwired
  -- What was marked before the body is the loop itself, or it was marked all along.
  · rcases List.mem_cons.mp hmarked with hid | hmarked
    · obtain rfl := List.inj_on_of_nodup_map hp.nodup_loops hother hl hid
      exact .inr ⟨⟨rows, hrows, hstep⟩, hinTurn, hpasses⟩
    · exact .inl hmarked
  · exact .inr hwired

end Loops

theorem loopsOver_wiresOver (hp : p.Sound) (left : Nat) : WiresOver p (loopsOver p left) := by
  induction left with
  | zero => exact fun id output _ _ => (composes_wires p).pure output
  | succ left ih =>
      intro id output hlocation _
      rw [loopsOver_succ]
      refine (composes_wires p).foldlM (fun l hmem result => WiresLoops.unlessMarked ?_) output
      obtain ⟨hl, rfl⟩ := mem_loops_of_mem_over hmem
      exact emitLoop_wires hp ih (loopsOver_emitsLoops hp left) (loopsOver_passesOver hp left) hl
        hlocation

/-! ## All loops -/

theorem deduplicate_wires (settings : Settings) (lookup : Source) (rows : Handle) :
    WiresLoops p (deduplicate settings lookup rows) := by
  rintro e -
  refine ⟨_, (e.deduplicate settings.defaultKeyField lookup rows).2, rfl, ?_⟩
  rw [Emission.deduplicate]
  split
  · exact .refl e
  · exact .of_loops_eq (List.subset_append_left _ _) rfl

theorem finishLoop_wires (hp : p.Sound) {l : Loop} (hl : l ∈ p.loops) :
    WiresLoops p (finishLoop p l) := by
  obtain ⟨rows, hrows⟩ := Plan.location?_isSome (hp.iterateOver_mem l hl)
  refine .unlessMarked ?_
  rw [locate_eq_pure hrows, pure_bind]
  exact (composes_wires p).bind (emitLoop_wires hp (loopsOver_wiresOver hp _)
    (loopsOver_emitsLoops hp _) (loopsOver_passesOver hp _) hl hrows) fun _ =>
      (composes_wires p).pure ()

theorem finish_wires (hp : p.Sound) : WiresLoops p (finish p) :=
  (composes_wires p).forM fun _ hl => finishLoop_wires hp hl

end Emitter

namespace Rule

open Emitter

variable {p : Plan}

theorem emitParts_wires (settings : Settings) (hp : p.Sound) :
    Yields (emitParts p settings) .start fun _ e' => Emission.start.Wires p e' :=
  (composes_wires p).ingest_enrich hp (loopsOver_wiresOver hp _) (deduplicate_wires settings) .start
    trivial

/-- What holds of the rows that the parts end with holds of rows whose steps, and whose tail, are
among the steps of the rule, by which every loop is wired. -/
theorem exists_steps_wired {settings : Settings} (hp : p.Sound) {r : Rule}
    (hr : r ∈ builtIn) (haccepts : r.accepts p = true) {post : Handle → Emission → Prop}
    (hparts : Yields (emitParts p settings) .start post) :
    ∃ rows e steps, post rows e ∧ r.steps p settings = .ok steps ∧ e.steps ⊆ steps ∧
      r.tail p rows ⊆ steps ∧ ∀ l ∈ p.loops, p.Wired steps l := by
  obtain ⟨rows, e, hrun, hpost, hwires⟩ := hparts.and (emitParts_wires settings hp)
  obtain ⟨_, e', hfinish, ⟨-, hall⟩, hmore⟩ :=
    (finish_yields settings hp (e.addSteps (r.tail p rows))).and
      (finish_wires hp (e.addSteps (r.tail p rows)) trivial)
  have htail : e.Wires p (e.addSteps (r.tail p rows)) :=
    .of_loops_eq (List.subset_append_left _ _) rfl
  refine ⟨rows, e, e'.steps, hpost, steps_of_runs hr haccepts hrun hfinish,
    (htail.trans hmore).steps_subset,
    List.Subset.trans (List.subset_append_right _ _) hmore.steps_subset, fun l hl => ?_⟩
  -- Nothing was marked at the start, and everything is in the end.
  exact (((hwires.trans htail).trans hmore).wired l hl (hall l hl)).resolve_left nofun

end Rule
end PlanFlow
