import PlanFlow.Emission.Basic

/-!
# Runs of emitters

What is said of an emitter is that its run succeeds and what holds afterwards, so no statement of
this kind is true of an emitter that gives up.  Emitters that only look something up are equal to
pure ones where the lookups succeed.
-/

namespace PlanFlow

namespace Emission

/-- The emission with more steps. -/
def addSteps (e : Emission) (steps : List Step) : Emission := { e with steps := e.steps ++ steps }

@[simp]
theorem addSteps_nil (e : Emission) : e.addSteps [] = e := by
  simp [addSteps]

@[simp]
theorem addSteps_addSteps (e : Emission) (steps more : List Step) :
    (e.addSteps steps).addSteps more = e.addSteps (steps ++ more) := by
  simp [addSteps]

end Emission

namespace Emitter

variable {α β : Type}

/-- A run from an emission succeeds, and its result and the emission after it are as they should. -/
def Yields (m : Emitter α) (e : Emission) (post : α → Emission → Prop) : Prop :=
  ∃ a e', m.run e = .ok (a, e') ∧ post a e'

theorem Yields.pure {a : α} {e : Emission} {post : α → Emission → Prop} (h : post a e) :
    Yields (pure a) e post :=
  ⟨a, e, rfl, h⟩

/-- A run that is known goes on from where it ends. -/
theorem run_bind_of_run {m : Emitter α} {e e' : Emission} {a : α} (hrun : m.run e = .ok (a, e'))
    (f : α → Emitter β) : (m >>= f).run e = (f a).run e' := by
  rw [StateT.run_bind, hrun]
  rfl

theorem Yields.of_run_bind {m : Emitter α} {f : α → Emitter β} {e e' : Emission} {a : α}
    {post : β → Emission → Prop} (hrun : m.run e = .ok (a, e')) (h : Yields (f a) e' post) :
    Yields (m >>= f) e post := by
  obtain ⟨b, e'', hrun', hpost⟩ := h
  exact ⟨b, e'', (run_bind_of_run hrun f).trans hrun', hpost⟩

theorem Yields.bind {m : Emitter α} {f : α → Emitter β} {e : Emission}
    {mid : α → Emission → Prop} {post : β → Emission → Prop} (hm : Yields m e mid)
    (hf : ∀ a e', mid a e' → Yields (f a) e' post) : Yields (m >>= f) e post := by
  obtain ⟨a, e', hrun, hmid⟩ := hm
  exact .of_run_bind hrun (hf a e' hmid)

theorem Yields.mono {m : Emitter α} {e : Emission} {post post' : α → Emission → Prop}
    (h : Yields m e post) (himp : ∀ a e', post a e' → post' a e') : Yields m e post' := by
  obtain ⟨a, e', hrun, hpost⟩ := h
  exact ⟨a, e', hrun, himp a e' hpost⟩

/-- A run has one result, so what is shown of it separately holds together. -/
theorem Yields.and {m : Emitter α} {e : Emission} {post post' : α → Emission → Prop}
    (h : Yields m e post) (h' : Yields m e post') :
    Yields m e fun a e' => post a e' ∧ post' a e' := by
  obtain ⟨a, e₁, hrun, hpost⟩ := h
  obtain ⟨b, e₂, hrun', hpost'⟩ := h'
  obtain ⟨rfl, rfl⟩ := Prod.mk.inj (Except.ok.inj (hrun.symm.trans hrun'))
  exact ⟨a, e₁, hrun, hpost, hpost'⟩

/-- A run that is known is as it should be. -/
theorem Yields.of_run {m : Emitter α} {e e' : Emission} {a : α} {post : α → Emission → Prop}
    (hrun : m.run e = .ok (a, e')) (h : post a e') : Yields m e post :=
  ⟨a, e', hrun, h⟩

theorem run_push (s : Step) (e : Emission) : (push s).run e = .ok ((), e.addSteps [s]) := rfl

/-- Pushing one step for every member of a list. -/
theorem run_forM_push (l : List α) (f : α → Emitter Unit) (g : α → Step)
    (hf : ∀ a e, (f a).run e = .ok ((), e.addSteps [g a])) (e : Emission) :
    (l.forM f).run e = .ok ((), e.addSteps (l.map g)) := by
  induction l generalizing e with
  | nil =>
      rw [List.map_nil, Emission.addSteps_nil]
      rfl
  | cons a rest ih =>
      rw [List.forM, run_bind_of_run (hf a e)]
      refine (ih (e.addSteps [g a])).trans ?_
      rw [Emission.addSteps_addSteps, List.map_cons, List.singleton_append]

/-- What is there is not missed. -/
theorem require_of_eq_some {error : PlanError} {o : Option α} {a : α} (h : o = some a) :
    require error o = pure a := by
  rw [h]
  rfl

/-- A list of lookups that all succeed. -/
theorem mapM_eq_pure {f : α → Emitter β} {g : α → Option β} {l : List α}
    (h : ∀ a ∈ l, ∃ b, g a = some b ∧ f a = pure b) : l.mapM f = pure (l.filterMap g) := by
  induction l with
  | nil => rfl
  | cons a rest ih =>
      rw [List.forall_mem_cons] at h
      obtain ⟨⟨b, hg, hf⟩, hrest⟩ := h
      rw [List.mapM_cons, hf, pure_bind, ih hrest, pure_bind, List.filterMap_cons_some hg]

/-- A fold that looks up each member first. -/
theorem foldlM_lookup {γ : Type} {find : α → Option β} {f : γ → α → Emitter γ}
    {g : γ → β → Emitter γ} {l : List α}
    (h : ∀ a ∈ l, ∃ b, find a = some b ∧ ∀ c, f c a = g c b) (c : γ) :
    l.foldlM f c = (l.filterMap find).foldlM g c := by
  induction l generalizing c with
  | nil => rfl
  | cons a rest ih =>
      rw [List.forall_mem_cons] at h
      obtain ⟨⟨b, hfind, hfg⟩, hrest⟩ := h
      rw [List.filterMap_cons_some hfind, List.foldlM_cons, List.foldlM_cons, hfg]
      exact bind_congr fun c' => ih hrest c'

/-! ## What runs compose -/

/-- From every emission of a kind a run succeeds, and the emission after it is related to the one
before it by the ids that the run came to. -/
def Takes (pre : Emission → Prop) (rel : List String → Emission → Emission → Prop)
    (ids : List String) (m : Emitter α) : Prop :=
  ∀ e, pre e → Yields m e fun _ e' => rel ids e e'

/-- A relation of emissions that runs compose: it is reflexive and transitive, it holds where a step
was added, and what is related to an emission of a kind is of that kind. -/
structure Composes (pre : Emission → Prop) (rel : List String → Emission → Emission → Prop) :
    Prop where
  refl : ∀ e, rel [] e e
  addStep : ∀ s e, rel [] e (e.addSteps [s])
  trans : ∀ {ids ids' e e₁ e₂}, rel ids e e₁ → rel ids' e₁ e₂ → rel (ids ++ ids') e e₂
  keeps : ∀ {ids e e₁}, pre e → rel ids e e₁ → pre e₁

namespace Composes

variable {γ : Type} {pre : Emission → Prop} {rel : List String → Emission → Emission → Prop}
variable {ids ids' : List String} {l : List α} {g : α → List String} (hrel : Composes pre rel)
include hrel

theorem pure (a : α) : Takes pre rel [] (pure a) := fun e _ => .pure (hrel.refl e)

theorem push (s : Step) : Takes pre rel [] (push s) := fun e _ =>
  .of_run (run_push s e) (hrel.addStep s e)

theorem bind {m : Emitter α} {f : α → Emitter β} (hm : Takes pre rel ids m)
    (hf : ∀ a, Takes pre rel ids' (f a)) : Takes pre rel (ids ++ ids') (m >>= f) := by
  intro e hpre
  refine .bind (hm e hpre) fun a e₁ h₁ => ?_
  exact (hf a e₁ (hrel.keeps hpre h₁)).mono fun _ _ h₂ => hrel.trans h₁ h₂

theorem foldlM {f : γ → α → Emitter γ} (hf : ∀ a ∈ l, ∀ c, Takes pre rel (g a) (f c a)) (c : γ) :
    Takes pre rel (l.flatMap g) (l.foldlM f c) := by
  induction l generalizing c with
  | nil => exact hrel.pure c
  | cons a rest ih =>
      rw [List.forall_mem_cons] at hf
      rw [List.foldlM_cons]
      exact hrel.bind (hf.1 c) fun c' => ih hf.2 c'

theorem mapM {f : α → Emitter β} (hf : ∀ a ∈ l, Takes pre rel (g a) (f a)) :
    Takes pre rel (l.flatMap g) (l.mapM f) := by
  induction l with
  | nil => exact hrel.pure []
  | cons a rest ih =>
      rw [List.forall_mem_cons] at hf
      rw [List.mapM_cons, List.flatMap_cons, ← List.append_nil (rest.flatMap g)]
      exact hrel.bind hf.1 fun b => hrel.bind (ih hf.2) fun bs => hrel.pure (b :: bs)

theorem forM {f : α → Emitter Unit} (hf : ∀ a ∈ l, Takes pre rel (g a) (f a)) :
    Takes pre rel (l.flatMap g) (l.forM f) := by
  induction l with
  | nil => exact hrel.pure ()
  | cons a rest ih =>
      rw [List.forall_mem_cons] at hf
      exact hrel.bind hf.1 fun _ => ih hf.2

end Composes
end Emitter
end PlanFlow
