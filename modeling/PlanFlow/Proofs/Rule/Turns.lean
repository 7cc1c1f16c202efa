import PlanFlow.Proofs.Checks
import PlanFlow.Proofs.Emission.Marking
import PlanFlow.Proofs.Rule.Nesting

/-!
# The turns of loops

The emission comes to the sources of rows and to the parts in no body with the rows, and emits the
loops over them in place, with all that hangs from their bodies.  Loops over lookup sources and over
loops have to wait for their own turn in the end, and so has what hangs from them.  The turns are
taken as the loops are declared, on data that is found where it will be, be it there or not.  So the
steps are in order exactly if no loop has its turn before one that it needs.
-/

namespace PlanFlow

open Relation (ReflTransGen TransGen)

namespace Plan

variable {p : Plan}

/-- A loop over a lookup source or over a loop is declared before every loop that is nested in it,
or in a loop that hangs from it. -/
def DeclaredInTurn (p : Plan) : Prop :=
  ∀ earlier l later, p.loops = earlier ++ l :: later →
    ∀ first ∈ p.loops, first.iterateOver ∈ p.lateIds →
      ∀ outer, ReflTransGen p.Hangs first outer → p.Nests outer l → first ∈ earlier

theorem Hangs.nests {outer l : Loop} (h : p.Hangs outer l) : p.Nests outer l :=
  ⟨h.1, h.2.1, .inr h.2.2⟩

/-- What a loop iterates over comes with the rows or not at all, unless it stands in a body. -/
theorem iterateOver_cases (hp : p.Sound) {l : Loop} (hl : l ∈ p.loops) :
    l.iterateOver ∈ p.lateIds ∨ l.iterateOver ∈ p.rowIds ∨ ∃ outer, p.Hangs outer l := by
  have hmem := mem_inputIds_iff.mp (hp.iterateOver_mem l hl)
  rw [map_fst_locations, List.mem_append, List.mem_append] at hmem
  rcases hmem with (hsource | hpart) | hloop
  · obtain ⟨s, hs, hid⟩ := List.mem_map.mp hsource
    by_cases hlookup : s.isLookup = true
    · left
      apply List.mem_append_left
      exact hid ▸ List.mem_map_of_mem (List.mem_filter.mpr ⟨hs, hlookup⟩)
    · right
      left
      apply List.mem_append_left
      exact hid ▸ List.mem_map_of_mem (List.mem_filter.mpr ⟨hs, by simpa using hlookup⟩)
  · obtain ⟨part, hpart, hid⟩ := List.mem_map.mp hpart
    right
    by_cases hbody : p.inBody part.id = true
    · obtain ⟨outer, houter, hmember⟩ := List.any_eq_true.mp hbody
      exact .inr ⟨outer, houter, hl, hid ▸ List.contains_iff_mem.mp hmember⟩
    · left
      apply List.mem_append_right
      exact hid ▸ List.mem_map_of_mem (List.mem_filter.mpr ⟨hpart, by simpa using hbody⟩)
  · exact .inl (List.mem_append_right _ hloop)

/-- Every loop hangs from one that is emitted with the rows or has its own turn. -/
theorem exists_root (hp : p.Sound) (hnesting : ∀ l, ¬TransGen p.Nests l l) :
    ∀ l ∈ p.loops, ∃ root ∈ p.loops, ReflTransGen p.Hangs root l ∧
      (root.iterateOver ∈ p.lateIds ∨ root.iterateOver ∈ p.rowIds) := by
  refine nests_induction hnesting fun l hl ih => ?_
  rcases iterateOver_cases hp hl with hlate | hrow | ⟨outer, hhangs⟩
  · exact ⟨l, hl, .refl, .inl hlate⟩
  · exact ⟨l, hl, .refl, .inr hrow⟩
  · obtain ⟨root, hroot, hpath, hcases⟩ := ih outer hhangs.nests
    exact ⟨root, hroot, hpath.tail hhangs, hcases⟩

end Plan

/-- The emission has come to the rows, and some loops had their turn. -/
structure Emission.Finishing (p : Plan) (done : List Loop) (e : Emission) : Prop where
  chain : Rule.chainIds p ⊆ e.steps.map Step.id
  marks : Emission.start.Marks p p.rowIds (done.map Loop.id) e
  wires : Emission.start.Wires p e
  done : ∀ l ∈ done, l.id ∈ e.loops

namespace Emission.Finishing

variable {p : Plan} {done : List Loop} {e : Emission} {l : Loop}

theorem wired (h : e.Finishing p done) (hl : l ∈ p.loops) (hmarked : l.id ∈ e.loops) :
    p.Wired e.steps l :=
  (h.wires.wired l hl hmarked).resolve_left nofun

/-- What hangs from a loop that is marked is marked. -/
theorem hangs (h : e.Finishing p done) {outer : Loop} (hpath : ReflTransGen p.Hangs outer l)
    (hmarked : outer.id ∈ e.loops) : l.id ∈ e.loops := by
  induction hpath with
  | refl => exact hmarked
  | tail _ hhangs ih => exact (h.marks.inline _ _ hhangs ih).resolve_left nofun

/-- If every loop over a lookup source or a loop that a loop needs had its turn, then all loops that
the loop is nested in are marked. -/
theorem marked_of_nests (h : e.Finishing p done) (hp : p.Sound)
    (hnesting : ∀ l, ¬TransGen p.Nests l l)
    (hturn : ∀ first ∈ p.loops, first.iterateOver ∈ p.lateIds →
      ∀ outer, ReflTransGen p.Hangs first outer → p.Nests outer l → first ∈ done)
    {outer : Loop} (hnests : p.Nests outer l) : outer.id ∈ e.loops := by
  obtain ⟨root, hroot, hpath, hcases⟩ := Plan.exists_root hp hnesting outer hnests.1
  apply h.hangs hpath
  rcases hcases with hlate | hrow
  · exact h.done root (hturn root hroot hlate outer hpath hnests)
  · exact h.marks.reached root hroot hrow

/-- Then what the loop iterates over is there. -/
theorem provides (h : e.Finishing p done) (hp : p.Sound) (hl : l ∈ p.loops)
    (hmarked : ∀ outer, p.Nests outer l → outer.id ∈ e.loops) {rows : Handle}
    (hrows : p.location? l.iterateOver = some rows) :
    rows.dependencies ⊆ e.steps.map Step.id := by
  intro d hd
  rcases Rule.mem_chainIds_or_nests hp hl hrows hd with hd | ⟨outer, hnests, hd⟩
  · exact h.chain hd
  · exact (h.wired hnests.1 (hmarked outer hnests)).loopIds_subset hd

end Emission.Finishing

namespace Emitter

variable {p : Plan} {done ls : List Loop} {e : Emission}

theorem finishLoop_finishing (hp : p.Sound) (h : e.Finishing p done) {l : Loop} (hl : l ∈ p.loops) :
    Yields (finishLoop p l) e fun _ e' => e'.Finishing p (done ++ [l]) := by
  refine ((finishLoop_yields default hp hl e).and
    ((finishLoop_marks hp hl e).and (finishLoop_wires hp hl e trivial))).mono ?_
  rintro _ e' ⟨⟨⟨_, hgrowth⟩, hmarked⟩, hmarks, hwires⟩
  refine ⟨List.Subset.trans h.chain (List.map_subset _ hgrowth.steps_subset), ?_,
    h.wires.trans hwires, ?_⟩
  · rw [List.map_append]
    have hall := h.marks.trans hmarks
    rwa [List.append_nil] at hall
  · rw [List.forall_mem_append, List.forall_mem_singleton]
    exact ⟨fun l' hl' => hmarks.subset (h.done l' hl'), hmarked⟩

theorem finishLoops_finishing (hp : p.Sound) (h : e.Finishing p done)
    (hls : ∀ l ∈ ls, l ∈ p.loops) :
    Yields (ls.forM (finishLoop p)) e fun _ e' => e'.Finishing p (done ++ ls) := by
  induction ls generalizing done e with
  | nil => exact .pure (by rwa [List.append_nil])
  | cons l rest ih =>
      rw [List.forall_mem_cons] at hls
      rw [List.forM]
      refine .bind (finishLoop_finishing hp h hls.1) ?_
      rintro _ e₁ h₁
      rw [List.append_cons]
      exact ih h₁ hls.2

/-- What was there when some of the loops had their turn. -/
theorem finish_split (hp : p.Sound) (h : e.Finishing p []) {earlier later : List Loop}
    (hsplit : p.loops = earlier ++ later) :
    Yields (finish p) e fun _ e' => ∃ mid, mid.Finishing p earlier ∧
      (∃ loops, Emission.Growth p default [] loops [] mid e') ∧ ∀ l ∈ p.loops, l.id ∈ e'.loops := by
  have hearlier : ∀ l ∈ earlier, l ∈ p.loops := fun l hl => hsplit ▸ List.mem_append_left _ hl
  have hlater : ∀ l ∈ later, l ∈ p.loops := fun l hl => hsplit ▸ List.mem_append_right _ hl
  rw [finish_eq, hsplit, List.forM_eq_forM, List.forM_append]
  refine .bind (finishLoops_finishing hp h hearlier) fun _ mid hmid => ?_
  refine (finishLoops_yields default hp hlater mid).mono ?_
  rintro _ e' ⟨⟨loops, hgrowth⟩, hall⟩
  refine ⟨mid, hmid, ⟨loops, hgrowth⟩, List.forall_mem_append.mpr ⟨fun l hl => ?_, hall⟩⟩
  exact hgrowth.marked_subset (hmid.done l hl)

/-- If every loop is declared in turn, what is left to the end is emitted in order. -/
theorem finishLoops_inOrder (hp : p.Sound) (hdepends : ∀ part ∈ p.parts, part.dependsOn = [])
    (hnesting : ∀ l, ¬TransGen p.Nests l l) (hdeclared : p.DeclaredInTurn)
    (hsplit : p.loops = done ++ ls) (h : e.Finishing p done) (hin : InOrder e.steps) :
    Yields (ls.forM (finishLoop p)) e fun _ e' => InOrder e'.steps := by
  induction ls generalizing done e with
  | nil => exact .pure hin
  | cons l rest ih =>
      have hl : l ∈ p.loops := by
        rw [hsplit]
        simp
      have hmarked : ∀ outer, p.Nests outer l → outer.id ∈ e.loops := fun outer hnests =>
        h.marked_of_nests hp hnesting (hdeclared done l rest hsplit) hnests
      rw [List.forM]
      refine .bind ((finishLoop_finishing hp h hl).and (finishLoop_inOrder hp hdepends hl hin
        fun rows hrows => h.provides hp hl hmarked hrows)) ?_
      rintro _ e₁ ⟨h₁, hin₁⟩
      exact ih (by rwa [← List.append_cons]) h₁ hin₁

end Emitter

namespace Rule

open Emitter

variable {p : Plan} {settings : Settings}

/-- The emission of the parts comes to the rows. -/
theorem emitParts_marks (settings : Settings) (hp : p.Sound) :
    Yields (emitParts p settings) .start fun _ e' => Emission.start.Marks p p.rowIds [] e' :=
  (composes_marks p _).ingest_enrich hp (loopsOver_marksOver hp _) (deduplicate_marks settings)
    .start (List.length_filter_le _ _)

/-- What a rule emits before the loops that are left is in order. -/
theorem exists_finishing (settings : Settings) (hp : p.Sound)
    (hdepends : ∀ part ∈ p.parts, part.dependsOn = []) {r : Rule} (hr : r ∈ builtIn)
    (haccepts : r.accepts p = true) :
    ∃ e : Emission, InOrder e.steps ∧ e.Finishing p [] ∧
      ∀ e', (finish p).run e = .ok ((), e') → r.steps p settings = .ok e'.steps := by
  obtain ⟨rows, e, hrun, ⟨-, _, loops, hown, hgrowth⟩, horderly, hmarks, hwires⟩ :=
    (ingest_enrich_yields hp (e := .start) rfl).and ((emitParts_orderly settings hp hdepends).and
      ((emitParts_marks settings hp).and (emitParts_wires settings hp)))
  have htail : e.Marks p [] [] (e.addSteps (r.tail p rows)) := .of_loops_eq rfl
  have hsub : e.steps ⊆ (e.addSteps (r.tail p rows)).steps := List.subset_append_left _ _
  refine ⟨e.addSteps (r.tail p rows), ?_, ⟨?_, ?_, ?_, nofun⟩, ?_⟩
  · exact (inOrder_iff.mp horderly.inOrder).append (tail_inOrder hr haccepts rows)
      horderly.provided
  · obtain ⟨added, hadded, hperm⟩ := hgrowth.exists_added
    intro id hid
    apply List.map_subset _ hsub
    rw [hadded, List.map_append]
    apply List.mem_append_right
    rw [hperm.mem_iff, List.mem_append, (map_id_rowSites hown).mem_iff]
    simp only [chainIds, List.mem_append] at hid ⊢
    tauto
  · simpa using hmarks.trans htail
  · exact hwires.trans (.of_loops_eq hsub rfl)
  · exact fun e' hfinish => steps_of_runs hr haccepts hrun hfinish

/-- Steps in order, none of whose ids is used twice, are only emitted if every loop is declared in
turn. -/
theorem declaredInTurn_of_inOrder (hp : p.Sound) (hdepends : ∀ part ∈ p.parts, part.dependsOn = [])
    (hnesting : ∀ l, ¬TransGen p.Nests l l) {e e' : Emission} (hfinishing : e.Finishing p [])
    (hfinish : (finish p).run e = .ok ((), e')) (hdistinct : (e'.steps.map Step.id).Nodup)
    (hin : InOrder e'.steps) : p.DeclaredInTurn := by
  intro earlier l later hsplit first hfirst hlate outer hpath hnests
  have hle : p.Hangs ≤ p.Nests := fun _ _ hhangs => hhangs.nests
  have hinside : TransGen p.Nests first l := .tail' (ReflTransGen.mono hle _ _ hpath) hnests
  have hsplit' : p.loops = (earlier ++ [l]) ++ later := by rw [hsplit, ← List.append_cons]
  obtain ⟨_, _, hrun, ⟨mid, hmid, ⟨_, hgrowth⟩, hall⟩, hfinished⟩ :=
    (finish_split hp hfinishing hsplit').and (finishLoops_finishing hp hfinishing fun _ => id)
  obtain ⟨-, rfl⟩ := Prod.mk.inj (Except.ok.inj (hfinish.symm.trans hrun))
  obtain ⟨added, hadded, -⟩ := hgrowth.exists_added
  -- Once the loop had its turn its step is there, and so is the first one, which feeds it.
  have hl : l.stepId ∈ mid.steps.map Step.id :=
    (hmid.wired hnests.2.1 (hmid.done l (by simp))).loopIds_subset List.mem_cons_self
  have hstep : first.stepId ∈ mid.steps.map Step.id := by
    have hwired : ∀ l ∈ p.loops, p.Wired e'.steps l := fun l hl => hfinished.wired hl (hall l hl)
    have hfeeds := feeds_of_transGen_nests hp hdepends hwired hinside
    rw [hadded] at hin hdistinct hfeeds
    exact hin.mem_of_transGen hdistinct hfeeds hl
  -- But what is over a lookup source or a loop is marked by its own turn alone.
  have hmarked := hgrowth.marked_of_stepId_mem hp hdistinct hfirst (hall first hfirst) hstep
  have hturn : first.id ∈ (earlier ++ [l]).map Loop.id :=
    (hmid.marks.late first hfirst hlate hmarked).resolve_left nofun
  obtain ⟨other, hother, hid⟩ := List.mem_map.mp hturn
  have hmem : other ∈ p.loops := hsplit' ▸ List.mem_append_left _ hother
  obtain rfl := List.inj_on_of_nodup_map hp.nodup_loops hmem hfirst hid
  refine (List.mem_append.mp hother).resolve_right fun hself => ?_
  rw [List.mem_singleton.mp hself] at hinside
  exact hnesting l hinside

/-- If a plan has no errors, none of its parts depends on something of its own and no loop is nested
in itself, then by every built-in rule that accepts the plan steps are emitted, and each of them
stands behind those that it waits for if the loops are declared in turn.  Unless an id is reported
to be used twice, this is the only way to steps in order. -/
theorem in_order_iff_declared {p : Plan} {settings : Settings} (hvalid : p.errors settings = [])
    (hdepends : ∀ part ∈ p.parts, part.dependsOn = []) (hnesting : ∀ l, ¬TransGen p.Nests l l)
    {r : Rule} (hr : r ∈ builtIn) (haccepts : r.accepts p = true) :
    ∃ steps, r.steps p settings = .ok steps ∧ (p.DeclaredInTurn → InOrder steps) ∧
      ((∀ id, .duplicateStep id ∉ (Validation.ofSteps settings steps).errors) →
        InOrder steps → p.DeclaredInTurn) := by
  have hp := Plan.sound_of_errors hvalid
  obtain ⟨e, hin, hfinishing, hsteps⟩ := exists_finishing settings hp hdepends hr haccepts
  obtain ⟨_, e', hfinish, -⟩ := finish_yields settings hp e
  refine ⟨e'.steps, hsteps e' hfinish, fun hdeclared => ?_, fun hdistinct hin' => ?_⟩
  · have hsplit : p.loops = [] ++ p.loops := rfl
    obtain ⟨_, _, hfinish', hin'⟩ :=
      finishLoops_inOrder hp hdepends hnesting hdeclared hsplit hfinishing hin
    obtain ⟨-, rfl⟩ := Prod.mk.inj (Except.ok.inj (hfinish.symm.trans hfinish'))
    exact hin'
  · rw [Validation.errors_ofSteps, ← StepGraph.nodup_iff_duplicateStep_not_mem] at hdistinct
    exact declaredInTurn_of_inOrder hp hdepends hnesting hfinishing hfinish hdistinct hin'

/-- A loop that has the leads that were seen before summed up. -/
def seenLoop : Loop := ⟨"old", "seen", "lead", ["sum"], none, none⟩

/-- A loop that has what was summed up rated. -/
def ratingLoop : Loop := ⟨"points", "sum", "point", ["rate"], none, none⟩

/-- The plan for leads with the loop over those that were seen, and the one that hangs from it. -/
def ratedLeadsPlan (loops : List Loop) : Plan :=
  { Compiler.leadsPlan [] with
    aiTasks := [⟨"sum", .summarize, "Sum up", none, none, [], []⟩,
      ⟨"rate", .classify, "Rate", none, none, [], []⟩]
    loops := loops }

/-- The steps of the plan with some of the loops. -/
def ratedLeadsSteps (loops : List Loop) : List Step :=
  ((enriched.steps (ratedLeadsPlan loops) default).toOption).getD []

theorem nests_ratedLeadsPlan {loops : List Loop} (hloops : loops ⊆ [seenLoop, ratingLoop])
    {outer l : Loop} (h : (ratedLeadsPlan loops).Nests outer l) :
    outer = seenLoop ∧ l = ratingLoop := by
  obtain ⟨houter, hl, hnests⟩ := h
  have houter := hloops houter
  have hl := hloops hl
  simp only [List.mem_cons, List.not_mem_nil, or_false] at houter hl
  rcases houter with rfl | rfl <;> rcases hl with rfl | rfl <;>
    simp_all [seenLoop, ratingLoop]

theorem not_transGen_nests_ratedLeadsPlan {loops : List Loop}
    (hloops : loops ⊆ [seenLoop, ratingLoop]) (l : Loop) :
    ¬TransGen (ratedLeadsPlan loops).Nests l l := by
  intro hcircle
  obtain ⟨outer, -, hlast⟩ := TransGen.tail'_iff.mp hcircle
  obtain ⟨inner, hfirst, -⟩ := TransGen.head'_iff.mp hcircle
  have hseen := (nests_ratedLeadsPlan hloops hfirst).1
  rw [(nests_ratedLeadsPlan hloops hlast).2] at hseen
  exact absurd hseen (by decide)

theorem declaredInTurn_ratedLeadsPlan : (ratedLeadsPlan [seenLoop, ratingLoop]).DeclaredInTurn := by
  intro earlier l later hsplit first hfirst hlate outer hpath hnests
  obtain ⟨-, rfl⟩ := nests_ratedLeadsPlan (List.Subset.refl _) hnests
  have hseen : first = seenLoop := by
    simp only [ratedLeadsPlan, List.mem_cons, List.not_mem_nil, or_false] at hfirst
    rcases hfirst with rfl | rfl
    · rfl
    · exact absurd hlate (by decide)
  rw [hseen]
  -- The loop that is declared first does not hang from the other one.
  cases earlier with
  | nil => exact absurd (List.cons.inj hsplit).1 (by decide)
  | cons other earlier => exact (List.cons.inj hsplit).1 ▸ List.mem_cons_self

theorem in_order_iff_declared_ratedLeadsPlan :
    let p := ratedLeadsPlan [seenLoop, ratingLoop]
    p.errors default = [] ∧ (∀ part ∈ p.parts, part.dependsOn = []) ∧
      (∀ l, ¬TransGen p.Nests l l) ∧ enriched ∈ builtIn ∧ enriched.accepts p = true ∧
      p.DeclaredInTurn ∧ ∃ steps, enriched.steps p default = .ok steps ∧
        (∀ id, .duplicateStep id ∉ (Validation.ofSteps default steps).errors) ∧ InOrder steps := by
  intro p
  have hvalid : p.errors default = [] := by decide +kernel
  have hdepends : ∀ part ∈ p.parts, part.dependsOn = [] := by decide
  have hnesting := not_transGen_nests_ratedLeadsPlan (List.Subset.refl [seenLoop, ratingLoop])
  have hmem : enriched ∈ builtIn := by simp [builtIn]
  have haccepts : enriched.accepts p = true := rfl
  have hsteps : enriched.steps p default = .ok (ratedLeadsSteps [seenLoop, ratingLoop]) := rfl
  have hdistinct : ∀ id, .duplicateStep id ∉
      (Validation.ofSteps default (ratedLeadsSteps [seenLoop, ratingLoop])).errors := by
    rw [Validation.errors_ofSteps, ← StepGraph.nodup_iff_duplicateStep_not_mem]
    decide +kernel
  obtain ⟨steps, hsteps', hin, hdeclared⟩ :=
    in_order_iff_declared hvalid hdepends hnesting hmem haccepts
  obtain rfl := Except.ok.inj (hsteps.symm.trans hsteps')
  have hturn : p.DeclaredInTurn := hdeclared hdistinct (hin declaredInTurn_ratedLeadsPlan)
  exact ⟨hvalid, hdepends, hnesting, hmem, haccepts, hturn, _, hsteps, hdistinct, hin hturn⟩

/-- Where the loop that hangs is declared first, it is emitted before what it runs over, though no
part depends on something of its own, none is listed twice, and no loop is nested in itself. -/
theorem not_in_order_ratedLeadsPlan :
    let p := ratedLeadsPlan [ratingLoop, seenLoop]
    p.errors default = [] ∧ (∀ part ∈ p.parts, part.dependsOn = []) ∧
      (p.loops.flatMap Loop.body).Nodup ∧ (∀ l, ¬TransGen p.Nests l l) ∧
      enriched ∈ builtIn ∧ enriched.accepts p = true ∧
      ∃ steps, enriched.steps p default = .ok steps ∧
        steps.map Step.id = ["fetch_leads", "read_reference_seen", "extract_ids_seen",
          "filter_new_items_seen", "deliver_mail", "loop_points", "ai_rate", "loop_old", "ai_sum"] ∧
        Feeds steps "ai_sum" "loop_points" ∧ ¬InOrder steps := by
  intro p
  have hnesting : ∀ l, ¬TransGen p.Nests l l :=
    not_transGen_nests_ratedLeadsPlan (List.Perm.swap seenLoop ratingLoop []).subset
  exact ⟨by decide +kernel, by decide, by decide, hnesting, by simp [builtIn], rfl,
    ratedLeadsSteps [ratingLoop, seenLoop], rfl, by decide +kernel, by decide +kernel,
    by decide +kernel⟩

end Rule
end PlanFlow
