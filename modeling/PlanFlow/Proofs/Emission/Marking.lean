import PlanFlow.Proofs.Emission.Bound
import PlanFlow.Proofs.Emission.Walk

/-!
# Which loops are marked

When the emission comes to something, all loops over it are marked, and so are the loops over the
parts in the body of a loop that it marks.  It never comes to a lookup source or to a loop that way:
a loop over one of these is marked when it has its own turn in the end, and not before.
-/

namespace PlanFlow

namespace Plan

/-- A loop runs over a part in the body of another, which is given first. -/
def Hangs (p : Plan) (outer l : Loop) : Prop :=
  outer ∈ p.loops ∧ l ∈ p.loops ∧ l.iterateOver ∈ outer.body

end Plan

/-- The emission came to some ids, and some loops had their own turn. -/
structure Emission.Marks (p : Plan) (ids own : List String) (e e' : Emission) : Prop where
  subset : e.loops ⊆ e'.loops
  reached : ∀ l ∈ p.loops, l.iterateOver ∈ ids → l.id ∈ e'.loops
  inline : ∀ outer l, p.Hangs outer l → outer.id ∈ e'.loops → outer.id ∈ e.loops ∨ l.id ∈ e'.loops
  late : ∀ l ∈ p.loops, l.iterateOver ∈ p.lateIds → l.id ∈ e'.loops → l.id ∈ e.loops ∨ l.id ∈ own

namespace Emission.Marks

variable {p : Plan} {ids ids' own own' : List String} {e e₁ e₂ : Emission}

/-- Where only steps were added, nothing was marked. -/
theorem of_loops_eq (h : e₁.loops = e.loops) : e.Marks p [] [] e₁ where
  subset := by
    rw [h]
    exact List.Subset.refl _
  reached := nofun
  inline _ _ _ hmarked := .inl (h ▸ hmarked)
  late _ _ _ hmarked := .inl (h ▸ hmarked)

theorem refl (e : Emission) : e.Marks p [] [] e := of_loops_eq rfl

/-- If all loops are marked, the emission has come to everything. -/
theorem of_all (hall : ∀ l ∈ p.loops, l.id ∈ e.loops) : e.Marks p ids [] e where
  subset := List.Subset.refl _
  reached l hl _ := hall l hl
  inline _ _ _ hmarked := .inl hmarked
  late _ _ _ hmarked := .inl hmarked

theorem mono_ids (h : e.Marks p ids own e₁) (hsub : ids' ⊆ ids) : e.Marks p ids' own e₁ where
  subset := h.subset
  reached l hl hover := h.reached l hl (hsub hover)
  inline := h.inline
  late := h.late

theorem trans (h₁ : e.Marks p ids own e₁) (h₂ : e₁.Marks p ids' own' e₂) :
    e.Marks p (ids ++ ids') (own ++ own') e₂ where
  subset := List.Subset.trans h₁.subset h₂.subset
  reached l hl hover := by
    rcases List.mem_append.mp hover with hover | hover
    · exact h₂.subset (h₁.reached l hl hover)
    · exact h₂.reached l hl hover
  inline outer l hhangs hmarked := by
    rcases h₂.inline outer l hhangs hmarked with hmarked | hl
    · exact (h₁.inline outer l hhangs hmarked).imp_right fun hl => h₂.subset hl
    · exact .inr hl
  late l hl hlate hmarked := by
    rcases h₂.late l hl hlate hmarked with hmarked | hown
    · exact (h₁.late l hl hlate hmarked).imp_right fun hown => List.mem_append_left _ hown
    · exact .inr (List.mem_append_right _ hown)

/-- A loop that was marked before its body was gone through had its own turn. -/
theorem of_addLoop (hp : p.Sound) {l : Loop} (hl : l ∈ p.loops)
    (h : (e.addLoop l.id).Marks p l.body [] e₁) : e.Marks p [] [l.id] e₁ where
  subset := List.Subset.trans (List.subset_cons_self _ _) h.subset
  reached := nofun
  inline outer inner hhangs hmarked := by
    rcases h.inline outer inner hhangs hmarked with hmarked | hinner
    · rcases List.mem_cons.mp hmarked with hid | hmarked
      · obtain rfl := List.inj_on_of_nodup_map hp.nodup_loops hhangs.1 hl hid
        exact .inr (h.reached inner hhangs.2.1 hhangs.2.2)
      · exact .inl hmarked
    · exact .inr hinner
  late other hother hlate hmarked := by
    rcases h.late other hother hlate hmarked with hmarked | hown
    · rcases List.mem_cons.mp hmarked with hid | hmarked
      · exact .inr (List.mem_singleton.mpr hid)
      · exact .inl hmarked
    · cases hown

/-- The turn of a loop that the emission comes to is not its own. -/
theorem drop_own (hp : p.Sound) {l : Loop} (hl : l ∈ p.loops) (hover : l.iterateOver ∉ p.lateIds)
    (h : e.Marks p ids [l.id] e₁) : e.Marks p ids [] e₁ where
  subset := h.subset
  reached := h.reached
  inline := h.inline
  late other hother hlate hmarked := by
    rcases h.late other hother hlate hmarked with hmarked | hown
    · exact .inl hmarked
    · obtain rfl :=
        List.inj_on_of_nodup_map hp.nodup_loops hother hl (List.mem_singleton.mp hown)
      exact absurd hlate hover

end Emission.Marks

namespace Emitter

open Emission (Marks)

variable {p : Plan} {α : Type} {left : Nat}

/-- An emitter succeeds where at most so many loops are left, and comes to some ids. -/
def MarksLoops (p : Plan) (left : Nat) (ids : List String) (m : Emitter α) : Prop :=
  Takes (fun e => (e.unmarked p).length ≤ left) (fun ids e e' => e.Marks p ids [] e') ids m

theorem composes_marks (p : Plan) (left : Nat) :
    Composes (fun e => (e.unmarked p).length ≤ left) fun ids e e' => e.Marks p ids [] e' where
  refl := Marks.refl
  addStep _ _ := .of_loops_eq rfl
  trans := Marks.trans
  keeps hleft h := Nat.le_trans (Emission.length_unmarked_le p h.subset) hleft

/-! ## Parts and loops -/

/-- An emitter of loops over what the emission comes to succeeds where so many are left. -/
def MarksOver (p : Plan) (left : Nat) (loopsOver : String → Handle → Emitter Handle) : Prop :=
  TakesOver p (fun e => (e.unmarked p).length ≤ left) (fun ids e e' => e.Marks p ids [] e')
    loopsOver

section Loops

variable {loopsOver : String → Handle → Emitter Handle} (hp : p.Sound)
variable (hmarks : MarksOver p left loopsOver)
include hp hmarks

theorem emitLoop_marks {l : Loop} (hl : l ∈ p.loops) (rows : Handle) {e : Emission}
    (hunmarked : l.id ∉ e.loops) (hleft : (e.unmarked p).length ≤ left + 1) :
    Yields (emitLoop p loopsOver l rows) e fun _ e' =>
      e.Marks p [] [l.id] e' ∧ l.id ∈ e'.loops := by
  have hless : (((e.addLoop l.id).addSteps [p.loopStep l rows]).unmarked p).length ≤ left := by
    have hlt : (((e.addLoop l.id).addSteps [p.loopStep l rows]).unmarked p).length <
        (e.unmarked p).length := Emission.length_unmarked_addLoop_lt hl hunmarked
    omega
  have hbody := (composes_marks p left).emitParts hp hmarks
    (fun _ => Plan.mem_parts_of_mem_bodyParts (l := l)) (.ofItem l.stepId l.itemName)
  rw [Plan.map_id_bodyParts hp hl] at hbody
  rw [emitLoop_eq hp hl]
  refine .of_run_bind rfl (.of_run_bind (run_push _ _) (.bind (hbody _ hless) ?_))
  rintro _ e' h
  have hstep : (e.addLoop l.id).Marks p [] [] ((e.addLoop l.id).addSteps [p.loopStep l rows]) :=
    .of_loops_eq rfl
  exact .pure ⟨.of_addLoop hp hl (hstep.trans h), h.subset List.mem_cons_self⟩

theorem emitUnmarked_marks {ls : List Loop} (hls : ∀ l ∈ ls, l ∈ p.loops)
    (hover : ∀ l ∈ ls, l.iterateOver ∉ p.lateIds) (output result : Handle) {e : Emission}
    (hleft : (e.unmarked p).length ≤ left + 1) :
    Yields (ls.foldlM (emitUnlessMarked p loopsOver output) result) e fun _ e' =>
      e.Marks p [] [] e' ∧ ∀ l ∈ ls, l.id ∈ e'.loops := by
  induction ls generalizing result e with
  | nil => exact .pure ⟨.refl e, nofun⟩
  | cons l rest ih =>
      rw [List.forall_mem_cons] at hls hover
      rw [List.foldlM_cons]
      have hone : Yields (emitUnlessMarked p loopsOver output result l) e fun _ e' =>
          e.Marks p [] [] e' ∧ l.id ∈ e'.loops := by
        refine yields_unlessMarked (fun hmarked => ⟨.refl e, hmarked⟩) fun hunmarked => ?_
        refine (emitLoop_marks hp hmarks hls.1 output hunmarked hleft).mono ?_
        exact fun _ _ ⟨h, hmarked⟩ => ⟨h.drop_own hp hls.1 hover.1, hmarked⟩
      refine .bind hone ?_
      rintro result e₁ ⟨h₁, hmarked⟩
      have hless := Emission.length_unmarked_le p h₁.subset
      refine (ih hls.2 hover.2 result (Nat.le_trans hless hleft)).mono ?_
      rintro _ e' ⟨h₂, hrest⟩
      exact ⟨h₁.trans h₂, List.forall_mem_cons.mpr ⟨h₂.subset hmarked, hrest⟩⟩

end Loops

theorem loopsOver_marksOver (hp : p.Sound) (left : Nat) : MarksOver p left (loopsOver p left) := by
  induction left with
  | zero =>
      intro id output _ _ e hleft
      have hnone : e.unmarked p = [] := List.eq_nil_of_length_eq_zero (Nat.le_zero.mp hleft)
      refine .pure (.of_all fun l hl => ?_)
      simpa using List.filter_eq_nil_iff.mp hnone l hl
  | succ left ih =>
      intro id output _ hid e hleft
      rw [loopsOver_succ]
      refine (emitUnmarked_marks hp ih (fun l hl => List.mem_of_mem_filter hl) (fun l hl => ?_)
        output output hleft).mono ?_
      · rwa [beq_iff_eq.mp (List.mem_filter.mp hl).2]
      · rintro _ e' ⟨h, hall⟩
        refine ⟨h.subset, fun l hl hover => hall l (List.mem_filter.mpr ⟨hl, ?_⟩), h.inline, h.late⟩
        exact beq_iff_eq.mpr (List.mem_singleton.mp hover)

/-! ## The checks and the end -/

theorem deduplicate_marks (settings : Settings) (lookup : Source) (rows : Handle) :
    MarksLoops p left [] (deduplicate settings lookup rows) := by
  intro e _
  refine ⟨_, (e.deduplicate settings.defaultKeyField lookup rows).2, rfl, .of_loops_eq ?_⟩
  rw [Emission.deduplicate]
  split <;> rfl

/-- In the end every loop has its own turn. -/
theorem finishLoop_marks (hp : p.Sound) {l : Loop} (hl : l ∈ p.loops) (e : Emission) :
    Yields (finishLoop p l) e fun _ e' => e.Marks p [] [l.id] e' := by
  refine yields_unlessMarked (fun _ => ?_) fun hunmarked => ?_
  · have hrefl : e.Marks p [] [] e := .refl e
    exact ⟨hrefl.subset, hrefl.reached, hrefl.inline, fun _ _ _ hmarked => .inl hmarked⟩
  · obtain ⟨rows, hrows⟩ := Plan.location?_isSome (hp.iterateOver_mem l hl)
    rw [locate_eq_pure hrows, pure_bind]
    have hleft : (e.unmarked p).length ≤ p.loops.length + 1 :=
      Nat.le_succ_of_le (List.length_filter_le _ _)
    refine .bind (emitLoop_marks hp (loopsOver_marksOver hp _) hl rows hunmarked hleft) ?_
    rintro _ e' ⟨h, -⟩
    exact .pure h

end Emitter
end PlanFlow
