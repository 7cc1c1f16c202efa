import PlanFlow.Proofs.Emission.Growth

/-!
# Parts and loops

In a sound plan nothing that a part or a loop refers to is missing, so emitting them succeeds.  Each
part adds its own site, on what it is handed; a loop that is emitted adds its site and those of its
body, and any of these may be followed by loops over it, which change what is handed on.  Emitting a
loop marks it first, so what recursion emits is never the same loop again.
-/

namespace PlanFlow
namespace Emitter

open Emission (Growth Grows)

variable {p : Plan} {settings : Settings}

/-! ## Lookups in a sound plan -/

theorem locate_eq_pure {referrer id : String} {h : Handle} (hid : p.location? id = some h) :
    locate p referrer id = pure h :=
  require_of_eq_some hid

theorem inputOf_eq_pure (hp : p.Sound) {part : Part} (hpart : part ∈ p.parts) (chain : Handle) :
    ∃ input others, p.inputsOf part chain = input :: others ∧
      inputOf p part chain = pure (input, p.waitsOf part chain) := by
  cases hdepends : part.dependsOn with
  | nil =>
      refine ⟨chain, [], by simp [Plan.inputsOf, hdepends], ?_⟩
      simp [inputOf, Plan.waitsOf, Plan.inputsOf, hdepends]
  | cons first others =>
      have hlocated : ∀ id ∈ first :: others, ∃ h, p.location? id = some h ∧
          locate p part.id id = pure h := by
        intro id hid
        obtain ⟨h, hh⟩ := Plan.location?_isSome (hp.dependsOn_mem part hpart id (hdepends ▸ hid))
        exact ⟨h, hh, locate_eq_pure hh⟩
      obtain ⟨⟨input, hinput, hfirst⟩, hothers⟩ := List.forall_mem_cons.mp hlocated
      have hinputs : p.inputsOf part chain = input :: others.filterMap p.location? := by
        simp [Plan.inputsOf, hdepends, hinput]
      refine ⟨input, others.filterMap p.location?, hinputs, ?_⟩
      simp only [inputOf, hdepends, hfirst, mapM_eq_pure hothers, pure_bind, Plan.waitsOf, hinputs]

theorem memberId_eq_pure (hp : p.Sound) {part : Part} (hpart : part ∈ p.parts) :
    memberId p part.id = pure part.stepId := by
  rw [memberId, locate_eq_pure (hp.location?_part hpart), pure_bind]
  rfl

/-! ## Parts -/

/-- In a sound plan, emitting a part adds its step, and then comes to the loops over it. -/
theorem emitPart_eq (hp : p.Sound) {part : Part} (hpart : part ∈ p.parts)
    (loopsOver : String → Handle → Emitter Handle) (chain : Handle) :
    emitPart p loopsOver part chain = (do
      push (Site.part p part chain).step
      loopsOver part.id (.ofStep part.stepId)) := by
  obtain ⟨input, others, hinputs, heq⟩ := inputOf_eq_pure hp hpart chain
  have hstep : (Site.part p part chain).step = part.step input (p.waitsOf part chain) := by
    rw [Site.part, hinputs]
    rfl
  rw [emitPart, heq, pure_bind, hstep]

/-- An emitter of loops over the data of an id succeeds, adds nothing but loops, and hands on that
data or the output of one of them. -/
def EmitsLoops (p : Plan) (settings : Settings) (loopsOver : String → Handle → Emitter Handle) :
    Prop :=
  ∀ id output e, p.location? id = some output →
    Yields (loopsOver id output) e fun h e' => p.HandsOn id h ∧ Grows p settings [] e h e'

section Parts

variable {loopsOver : String → Handle → Emitter Handle}
variable (hp : p.Sound) (hover : EmitsLoops p settings loopsOver)
include hp hover

theorem emitPart_yields {part : Part} (hpart : part ∈ p.parts) {chain : Handle}
    (hchain : Obtainable p chain) (e : Emission) :
    Yields (emitPart p loopsOver part chain) e fun h e' =>
      p.HandsOn part.id h ∧ Grows p settings [.part p part chain] e h e' := by
  obtain ⟨input, others, hinputs, -⟩ := inputOf_eq_pure hp hpart chain
  have hsite : Sited p settings (.part p part chain) := .part hpart hchain hinputs
  rw [emitPart_eq hp hpart]
  refine .of_run_bind (run_push _ e) ?_
  refine (hover _ _ _ (hp.location?_part hpart)).mono ?_
  rintro h e' ⟨hhands, hgrows⟩
  exact ⟨hhands, (Growth.addStep hsite e).grows_trans hgrows⟩

/-- Parts one after the other, each on what the one before it hands on. -/
theorem emitParts_yields {parts : List Part} (hparts : ∀ part ∈ parts, part ∈ p.parts)
    {rows : Handle} (hrows : Obtainable p rows) (e : Emission) :
    Yields (parts.foldlM (fun rows part => emitPart p loopsOver part rows) rows) e fun h e' =>
      ∃ own, p.Chained rows parts own h ∧ Grows p settings own e h e' := by
  induction parts generalizing rows e with
  | nil => exact .pure ⟨[], .nil rows, Grows.refl hrows e⟩
  | cons part rest ih =>
      rw [List.forall_mem_cons] at hparts
      rw [List.foldlM_cons]
      refine .bind (emitPart_yields hp hover hparts.1 hrows e) ?_
      rintro mid e₁ ⟨hhands, hmid, loops, hgrowth⟩
      refine (ih hparts.2 hmid e₁).mono ?_
      rintro h e' ⟨own, hchained, hgrows⟩
      exact ⟨_, .cons hhands hchained, hgrowth.grows_trans hgrows⟩

/-! ## Loops -/

omit hover in
theorem body_lookup {l : Loop} (hl : l ∈ p.loops) {id : String} (hid : id ∈ l.body) :
    ∃ part ∈ p.parts, part.id = id ∧ p.part? id = some part := by
  obtain ⟨part, hpart, rfl⟩ := hp.exists_part_of_body hl hid
  exact ⟨part, hpart, rfl, hp.part?_of_mem hpart⟩

omit hover in
/-- In a sound plan, emitting a loop marks it, adds its step and goes through its body. -/
theorem emitLoop_eq {l : Loop} (hl : l ∈ p.loops) (rows : Handle) :
    emitLoop p loopsOver l rows = (do
      modify fun e => e.addLoop l.id
      push (p.loopStep l rows)
      let _ ← (p.bodyParts l).foldlM (fun item part => emitPart p loopsOver part item)
        (Handle.ofItem l.stepId l.itemName)
      pure (.ofStep l.stepId)) := by
  have hids : l.body.mapM (memberId p) = pure ((p.bodyParts l).map Part.stepId) := by
    rw [Plan.bodyParts, List.map_filterMap]
    refine mapM_eq_pure fun id hid => ?_
    obtain ⟨part, hpart, rfl, hfind⟩ := body_lookup hp hl hid
    exact ⟨part.stepId, by rw [hfind]; rfl, memberId_eq_pure hp hpart⟩
  have hbody : ∀ item, l.body.foldlM (fun item member => do
      let part ← require (.unknownReference l.id member) (p.part? member)
      emitPart p loopsOver part item) item =
      (p.bodyParts l).foldlM (fun item part => emitPart p loopsOver part item) item := by
    refine foldlM_lookup fun id hid => ?_
    obtain ⟨part, -, -, hfind⟩ := body_lookup hp hl hid
    exact ⟨part, hfind, fun item => by rw [require_of_eq_some hfind, pure_bind]⟩
  rw [emitLoop, hids]
  simp only [pure_bind, hbody]
  rfl

theorem emitLoop_yields {l : Loop} (hl : l ∈ p.loops) {rows : Handle}
    (hrows : p.location? l.iterateOver = some rows) {e : Emission} (hunmarked : l.id ∉ e.loops) :
    Yields (emitLoop p loopsOver l rows) e fun h e' =>
      h = .ofStep l.stepId ∧ Grows p settings [] e h e' ∧ l.id ∈ e'.loops := by
  rw [emitLoop_eq hp hl]
  refine .of_run_bind rfl (.of_run_bind (run_push _ _) ?_)
  -- The body starts from the current item, with the loop marked and its step in place.
  refine .bind (emitParts_yields hp hover (fun _ => Plan.mem_parts_of_mem_bodyParts)
    (.item hl) _) ?_
  rintro _ e₁ ⟨body, hbody, -, loops, hgrowth⟩
  have hsite : Sited p settings (.loop p l rows) := .loop hl (.located hrows)
  refine .pure ⟨rfl, ⟨.loop hl, l :: loops, ?_⟩, hgrowth.marked_subset List.mem_cons_self⟩
  exact hgrowth.addLoop hl hunmarked hsite (.intro hrows hbody)

end Parts

section UnlessMarked

variable {α : Type} {l : Loop} {a : α} {m : Emitter α} {e : Emission}

theorem run_unlessMarked_of_marked (hmarked : l.id ∈ e.loops) :
    (do if (← get).loops.contains l.id then pure a else m : Emitter α).run e = .ok (a, e) := by
  refine (run_bind_of_run rfl _).trans ?_
  rw [if_pos (List.contains_iff_mem.mpr hmarked)]
  rfl

theorem run_unlessMarked_of_unmarked (hunmarked : l.id ∉ e.loops) :
    (do if (← get).loops.contains l.id then pure a else m : Emitter α).run e = m.run e := by
  refine (run_bind_of_run rfl _).trans ?_
  rw [if_neg (List.contains_iff_mem.not.mpr hunmarked)]

/-- Emitting something for a loop unless the loop is marked. -/
theorem yields_unlessMarked {post : α → Emission → Prop} (hmarked : l.id ∈ e.loops → post a e)
    (hunmarked : l.id ∉ e.loops → Yields m e post) :
    Yields (do if (← get).loops.contains l.id then pure a else m) e post := by
  by_cases h : l.id ∈ e.loops
  · exact .of_run (run_unlessMarked_of_marked h) (hmarked h)
  · rw [Yields, run_unlessMarked_of_unmarked h]
    exact hunmarked h

end UnlessMarked

/-- Emits a loop over some data, unless it is marked: then the result stays as it was. -/
def emitUnlessMarked (p : Plan) (loopsOver : String → Handle → Emitter Handle) (output : Handle)
    (result : Handle) (l : Loop) : Emitter Handle := do
  if (← get).loops.contains l.id then pure result else emitLoop p loopsOver l output

theorem loopsOver_succ (p : Plan) (left : Nat) (id : String) (output : Handle) :
    loopsOver p (left + 1) id output = (p.loops.filter fun l => l.iterateOver == id).foldlM
      (emitUnlessMarked p (loopsOver p left) output) output := rfl

section Unmarked

variable {loopsOver : String → Handle → Emitter Handle} (hp : p.Sound)
variable (hover : EmitsLoops p settings loopsOver) {id : String} {output : Handle}
variable (houtput : p.location? id = some output)
include hp hover houtput

theorem emitUnlessMarked_yields {l : Loop} (hl : l ∈ p.loops) (hid : l.iterateOver = id)
    {result : Handle} (hresult : p.HandsOn id result) (e : Emission) :
    Yields (emitUnlessMarked p loopsOver output result l) e fun h e' =>
      p.HandsOn id h ∧ Grows p settings [] e h e' := by
  refine yields_unlessMarked (fun _ => ⟨hresult, Grows.refl hresult.obtainable e⟩) ?_
  intro hunmarked
  refine (emitLoop_yields hp hover hl (hid ▸ houtput) hunmarked).mono ?_
  rintro _ e' ⟨rfl, hgrows, -⟩
  exact ⟨.loop hl hid, hgrows⟩

/-- Some of the loops over the same data: the result changes from loop to loop. -/
theorem emitUnmarked_yields {ls : List Loop} (hls : ∀ l ∈ ls, l ∈ p.loops ∧ l.iterateOver = id)
    {result : Handle} (hresult : p.HandsOn id result) (e : Emission) :
    Yields (ls.foldlM (emitUnlessMarked p loopsOver output) result) e fun h e' =>
      p.HandsOn id h ∧ Grows p settings [] e h e' := by
  induction ls generalizing result e with
  | nil => exact .pure ⟨hresult, Grows.refl hresult.obtainable e⟩
  | cons l rest ih =>
      rw [List.forall_mem_cons] at hls
      rw [List.foldlM_cons]
      refine .bind (emitUnlessMarked_yields hp hover houtput hls.1.1 hls.1.2 hresult e) ?_
      rintro result' e₁ ⟨hresult', -, loops, hgrowth⟩
      refine (ih hls.2 hresult' e₁).mono ?_
      rintro h e' ⟨hhands, hgrows⟩
      exact ⟨hhands, hgrowth.grows_trans hgrows⟩

end Unmarked

/-- The loops over an id are loops of the plan. -/
theorem mem_loops_of_mem_over {id : String} {l : Loop}
    (h : l ∈ p.loops.filter fun l => l.iterateOver == id) : l ∈ p.loops ∧ l.iterateOver = id :=
  ⟨List.mem_of_mem_filter h, beq_iff_eq.mp (List.mem_filter.mp h).2⟩

/-- Emitting all loops over an id succeeds, however many loops are left. -/
theorem loopsOver_emitsLoops (hp : p.Sound) (left : Nat) :
    EmitsLoops p settings (loopsOver p left) := by
  induction left with
  | zero =>
      intro id output e houtput
      exact .pure ⟨.located houtput, Grows.refl (.located houtput) e⟩
  | succ left ih =>
      intro id output e houtput
      exact emitUnmarked_yields hp ih houtput (fun _ => mem_loops_of_mem_over) (.located houtput) e

theorem emitChain_yields (settings : Settings) (hp : p.Sound) {parts : List Part}
    (hparts : ∀ part ∈ parts, part ∈ p.parts) {rows : Handle} (hrows : Obtainable p rows)
    (e : Emission) :
    Yields (emitChain p parts rows) e fun h e' =>
      ∃ own, p.Chained rows parts own h ∧ Grows p settings own e h e' :=
  emitParts_yields hp (loopsOver_emitsLoops hp _) hparts hrows e

end Emitter
end PlanFlow
