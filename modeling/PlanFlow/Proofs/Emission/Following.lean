import Mathlib.Logic.Relation
import PlanFlow.Proofs.Emission.Ingestion
import PlanFlow.Proofs.Emission.Worklist

/-!
# The worklist follows the recursion

Rounds on the tasks of an operation come to the result and to the emission that the emitter of the
operation gives, or to the error that it gives up with.  This is so for every plan: the recursion is
bounded by the number of loops, but a loop is marked before its body is visited, so the bound covers
the loops that are left inside, and the rounds, which know no bound, come to the same end.
-/

namespace PlanFlow
namespace Emitter

variable {p : Plan} {settings : Settings} {α β : Type}

/-! ## Lookups -/

/-- An emitter that only looks something up. -/
def Looks (m : Emitter α) : Prop := ∀ e a e', m.run e = .ok (a, e') → e' = e

theorem Looks.pure (a : α) : Looks (pure a : Emitter α) := by
  rintro e b e' h
  exact (Prod.mk.inj (Except.ok.inj h)).2.symm

theorem Looks.bind {m : Emitter α} {f : α → Emitter β} (hm : Looks m) (hf : ∀ a, Looks (f a)) :
    Looks (m >>= f) := by
  intro e b e' h
  rw [StateT.run_bind] at h
  rcases hrun : m.run e with error | ⟨a, e₁⟩
  · rw [hrun] at h
    cases h
  · obtain rfl := hm e a e₁ hrun
    rw [hrun] at h
    exact hf a _ b e' h

theorem Looks.mapM {f : α → Emitter β} (hf : ∀ a, Looks (f a)) (l : List α) :
    Looks (l.mapM f) := by
  induction l with
  | nil => exact .pure []
  | cons a rest ih =>
      rw [List.mapM_cons]
      exact (hf a).bind fun b => ih.bind fun _ => .pure _

theorem looks_require (error : PlanError) (o : Option α) : Looks (require error o) := by
  cases o with
  | none => exact nofun
  | some a => exact .pure a

theorem looks_locate (p : Plan) (referrer id : String) : Looks (locate p referrer id) :=
  looks_require _ _

theorem looks_memberId (p : Plan) (member : String) : Looks (memberId p member) :=
  (looks_locate p _ _).bind fun _ => .pure _

theorem looks_inputOf (p : Plan) (part : Part) (chain : Handle) :
    Looks (inputOf p part chain) := by
  rw [inputOf]
  split
  · exact .pure _
  · exact (looks_locate p _ _).bind fun _ => (Looks.mapM (looks_locate p _) _).bind fun _ =>
      Looks.bind (.pure _) fun _ => .pure _

/-! ## Rounds that come to an end -/

/-- Rounds lead from a worklist to another. -/
def Reaches (p : Plan) (settings : Settings) : Worklist → Worklist → Prop :=
  Relation.ReflTransGen fun w w' => ∃ event, w.advance p settings = some (event, w')

/-- The worklist with other data and another emission. -/
def Worklist.after (w : Worklist) (rows : Handle) (e : Emission) : Worklist :=
  { w with rows, emission := e }

/-- How the rounds ended: with an emission and some result, or with the first of the errors. -/
def Worklist.outcome (w : Worklist) (a : α) : Except PlanError (α × Emission) :=
  match w.errors with
  | [] => .ok (a, w.emission)
  | error :: _ => .error error

/-- From a state, rounds come to the end of an emitter: to its emission, on data that its result
stands for, or to its error, with the current operation given up. -/
def ComesTo (p : Plan) (settings : Settings) (result : α → Handle → Prop) (v w : Worklist) :
    Except PlanError (α × Emission) → Prop
  | .ok (a, e) => w.emission.loops ⊆ e.loops ∧
      ∃ rows, result a rows ∧ Reaches p settings v (w.after rows e)
  | .error error => ∃ rows e, Reaches p settings v ((w.after rows e).giveUp error)

/-- What is reached comes to the same end. -/
theorem ComesTo.of_reaches {result : α → Handle → Prop} {v v' w : Worklist} {rows : Handle}
    {e : Emission} {outcome : Except PlanError (α × Emission)} (hreaches : Reaches p settings v v')
    (hmarks : w.emission.loops ⊆ e.loops)
    (h : ComesTo p settings result v' (w.after rows e) outcome) :
    ComesTo p settings result v w outcome := by
  rcases outcome with error | ⟨a, e'⟩
  · obtain ⟨rows', e', hreaches'⟩ := h
    exact ⟨rows', e', hreaches.trans hreaches'⟩
  · obtain ⟨hmarks', rows', hresult, hreaches'⟩ := h
    exact ⟨List.Subset.trans hmarks hmarks', rows', hresult, hreaches.trans hreaches'⟩

/-- Tasks come to the end of an emitter. -/
def Follow (p : Plan) (settings : Settings) (result : α → Handle → Prop) (tasks : List Task)
    (w : Worklist) (m : Emitter α) : Prop :=
  ComesTo p settings result (w.before tasks) w (m.run w.emission)

section Follow

variable {result : α → Handle → Prop} {final : β → Handle → Prop} {w : Worklist} {task : Task}
variable {m : Emitter α}

/-- With nothing to do, the data stays as it is. -/
theorem Follow.pure {a : α} (h : result a w.rows) : Follow p settings result [] w (pure a) :=
  ⟨List.Subset.refl _, w.rows, h, .refl⟩

/-- Tasks that come before others follow what comes before. -/
theorem Follow.bind (tasks more : List Task) {f : α → Emitter β}
    (h : Follow p settings result tasks (w.before more) m)
    (hf : ∀ a rows e, result a rows → w.emission.loops ⊆ e.loops →
      Follow p settings final more (w.after rows e) (f a)) :
    Follow p settings final (tasks ++ more) w (m >>= f) := by
  have hbefore : w.before (tasks ++ more) = (w.before more).before tasks := by
    simp [Worklist.before]
  rw [Follow, hbefore, StateT.run_bind]
  replace h : ComesTo p settings result ((w.before more).before tasks) (w.before more)
    (m.run w.emission) := h
  rcases hrun : m.run w.emission with error | ⟨a, e⟩ <;> rw [hrun] at h
  -- What fails leaves no task, so the others are never begun.
  · exact h
  · obtain ⟨hmarks, rows, hresult, hreaches⟩ := h
    exact .of_reaches hreaches hmarks (hf a rows e hresult hmarks)

theorem reaches_perform (p : Plan) (settings : Settings) (w : Worklist) (task : Task) :
    Reaches p settings (w.before [task]) (w.perform p settings task).2 :=
  .single ⟨_, rfl⟩

/-- A round on a task that leads to other tasks. -/
theorem Follow.of_perform (rows : Handle) (e : Emission) (more : List Task) (m' : Emitter α)
    (hround : (w.perform p settings task).2 = (w.after rows e).before more)
    (hmarks : w.emission.loops ⊆ e.loops) (hrun : m.run w.emission = m'.run e)
    (h : Follow p settings result more (w.after rows e) m') :
    Follow p settings result [task] w m := by
  rw [Follow, hrun]
  exact .of_reaches (hround ▸ reaches_perform p settings w task) hmarks h

/-- A round on a task that fails. -/
theorem Follow.of_giveUp (rows : Handle) (e : Emission) {error : PlanError}
    (hround : (w.perform p settings task).2 = (w.after rows e).giveUp error)
    (hrun : m.run w.emission = .error error) : Follow p settings result [task] w m := by
  rw [Follow, hrun]
  exact ⟨rows, e, hround ▸ reaches_perform p settings w task⟩

end Follow

/-! ## Lists of tasks -/

/-- Fewer than so many loops are not marked. -/
def Worklist.Below (p : Plan) (left : Nat) (w : Worklist) : Prop :=
  (w.emission.unmarked p).length < left

theorem Worklist.Below.after {left : Nat} {w : Worklist} (hw : w.Below p left) (rows : Handle)
    {e : Emission} (hmarks : w.emission.loops ⊆ e.loops) : (w.after rows e).Below p left :=
  Nat.lt_of_le_of_lt (Emission.length_unmarked_le p hmarks) hw

section Lists

variable {ι : Type} (task : ι → Task) {left : Nat}

/-- Tasks one after the other follow a fold over the data. -/
theorem follow_foldlM {f : Handle → ι → Emitter Handle} {l : List ι}
    (h : ∀ a ∈ l, ∀ w : Worklist, w.Below p left →
      Follow p settings Eq [task a] w (f w.rows a)) {w : Worklist} (hw : w.Below p left) :
    Follow p settings Eq (l.map task) w (l.foldlM f w.rows) := by
  induction l generalizing w with
  | nil => exact .pure rfl
  | cons a rest ih =>
      rw [List.forall_mem_cons] at h
      rw [List.foldlM_cons]
      refine Follow.bind [task a] (rest.map task) (h.1 (w.before _) hw) ?_
      rintro _ rows e rfl hmarks
      exact ih h.2 (hw.after _ hmarks)

/-- Tasks one after the other follow emitters without a result. -/
theorem follow_forM {f : ι → Emitter Unit} {l : List ι}
    (h : ∀ a ∈ l, ∀ w : Worklist, w.Below p left →
      Follow p settings (fun _ _ => True) [task a] w (f a)) {w : Worklist} (hw : w.Below p left) :
    Follow p settings (fun _ _ => True) (l.map task) w (l.forM f) := by
  induction l generalizing w with
  | nil => exact .pure trivial
  | cons a rest ih =>
      rw [List.forall_mem_cons] at h
      refine Follow.bind [task a] (rest.map task) (h.1 (w.before _) hw) ?_
      intro _ rows e _ hmarks
      exact ih h.2 (hw.after _ hmarks)

end Lists

/-! ## Parts and loops -/

/-- Where fewer than so many loops are left, the tasks of the loops over some data follow an
emitter of loops. -/
def FollowBelow (p : Plan) (settings : Settings) (left : Nat)
    (loopsOver : String → Handle → Emitter Handle) : Prop :=
  ∀ id w, w.Below p left →
    Follow p settings Eq (visits p id w.rows) w (loopsOver id w.rows)

theorem run_bind_of_error {m : Emitter α} {e : Emission} {error : PlanError}
    (hrun : m.run e = .error error) (f : α → Emitter β) : (m >>= f).run e = .error error := by
  rw [StateT.run_bind, hrun]
  rfl

section Loops

variable {loopsOver : String → Handle → Emitter Handle} {left : Nat} {w : Worklist} {task : Task}

theorem follow_emitPart (hover : FollowBelow p settings left loopsOver) (hw : w.Below p left)
    (part : Part) (htask : w.perform p settings task = w.emitPart p part) :
    Follow p settings Eq [task] w (emitPart p loopsOver part w.rows) := by
  rcases hrun : (inputOf p part w.rows).run w.emission with error | ⟨⟨input, dependencies⟩, e⟩
  · refine .of_giveUp w.rows w.emission ?_ (run_bind_of_error hrun _)
    rw [htask, Worklist.emitPart, hrun]
    rfl
  · obtain rfl := looks_inputOf p part w.rows _ _ _ hrun
    refine .of_perform (.ofStep part.stepId)
      (w.emission.addSteps [part.step input dependencies]) (visits p part.id (.ofStep part.stepId))
      (loopsOver part.id (.ofStep part.stepId)) ?_ (List.Subset.refl _) (run_bind_of_run hrun _)
      (hover part.id _ (hw.after _ (List.Subset.refl _)))
    rw [htask, Worklist.emitPart, hrun]
    rfl

theorem follow_member (hover : FollowBelow p settings left loopsOver) (hw : w.Below p left)
    (l : Loop) (id : String) :
    Follow p settings Eq [.member l id] w (do
      let part ← require (.unknownReference l.id id) (p.part? id)
      emitPart p loopsOver part w.rows) := by
  rcases hpart : p.part? id with _ | part
  · refine .of_giveUp w.rows w.emission ?_ rfl
    rw [Worklist.perform, hpart]
    rfl
  · refine follow_emitPart hover hw part ?_
    rw [Worklist.perform, hpart]

/-- A loop that is entered is marked, so fewer loops are left for its body. -/
theorem follow_emitLoop (hover : FollowBelow p settings left loopsOver) (hw : w.Below p (left + 1))
    {l : Loop} (hl : l ∈ p.loops) (hunmarked : l.id ∉ w.emission.loops) {rows : Handle}
    (htask : w.perform p settings task = w.enter p l rows) :
    Follow p settings Eq [task] w (emitLoop p loopsOver l rows) := by
  have hmarks : w.emission.loops ⊆ (w.emission.addLoop l.id).loops := List.subset_cons_self _ _
  have hless : ((w.emission.addLoop l.id).unmarked p).length < left :=
    Nat.lt_of_lt_of_le (Emission.length_unmarked_addLoop_lt hl hunmarked) (Nat.le_of_lt_succ hw)
  rcases hrun : (l.body.mapM (memberId p)).run (w.emission.addLoop l.id) with error | ⟨body, e⟩
  · have hfails : (emitLoop p loopsOver l rows).run w.emission = .error error :=
      (run_bind_of_run rfl _).trans (run_bind_of_error hrun _)
    refine .of_giveUp w.rows (w.emission.addLoop l.id) ?_ hfails
    rw [htask, Worklist.enter, hrun]
    rfl
  · obtain rfl := Looks.mapM (looks_memberId p) l.body _ _ _ hrun
    refine .of_perform (.ofItem l.stepId l.itemName)
      ((w.emission.addLoop l.id).addSteps [stepOfLoop l rows body])
      (l.body.map (Task.member l) ++ [.leave l]) (do
        let _ ← l.body.foldlM (fun item member => do
          let part ← require (.unknownReference l.id member) (p.part? member)
          emitPart p loopsOver part item) (Handle.ofItem l.stepId l.itemName)
        pure (.ofStep l.stepId)) ?_ hmarks ?_ ?_
    · rw [htask, Worklist.enter, hrun]
      rfl
    · exact (run_bind_of_run rfl _).trans (run_bind_of_run hrun _)
    · refine Follow.bind _ _
        (follow_foldlM (Task.member l) (fun id _ w hw => follow_member hover hw l id) hless) ?_
      rintro _ rows' e' - -
      exact .of_perform (.ofStep l.stepId) e' [] (pure (.ofStep l.stepId)) rfl
        (List.Subset.refl _) rfl (.pure rfl)

/-- A loop over some data that is marked already is passed over. -/
theorem follow_visit (hover : FollowBelow p settings left loopsOver) (hw : w.Below p (left + 1))
    {l : Loop} (hl : l ∈ p.loops) (output : Handle) :
    Follow p settings Eq [.visit l output] w (emitUnlessMarked p loopsOver output w.rows l) := by
  by_cases hmarked : l.id ∈ w.emission.loops
  · refine .of_perform w.rows w.emission [] (pure w.rows) ?_ (List.Subset.refl _)
      (run_emitUnlessMarked_of_marked hmarked) (.pure rfl)
    rw [Worklist.perform, if_pos hmarked]
    rfl
  · rw [Follow, run_emitUnlessMarked_of_unmarked hmarked]
    refine follow_emitLoop hover hw hl hmarked ?_
    rw [Worklist.perform, if_neg hmarked]

theorem follow_visits (hover : FollowBelow p settings left loopsOver) (hw : w.Below p (left + 1))
    (id : String) (output : Handle) :
    Follow p settings Eq (visits p id output) w
      ((p.loops.filter fun l => l.iterateOver == id).foldlM
        (emitUnlessMarked p loopsOver output) w.rows) :=
  follow_foldlM (Task.visit · output)
    (fun _ hl _ hw => follow_visit hover hw (List.mem_of_mem_filter hl) output) hw

end Loops

/-- The bound on the recursion covers the loops that are left. -/
theorem loopsOver_followBelow (p : Plan) (settings : Settings) (left : Nat) :
    FollowBelow p settings (left + 1) (loopsOver p left) := by
  induction left with
  -- With no loop left all are marked, so whatever emits loops inside of them is never run.
  | zero =>
      intro id w hw
      have hnever : FollowBelow p settings 0 (loopsOver p 0) :=
        fun _ _ hw => absurd hw (Nat.not_lt_zero _)
      have hnone : w.emission.unmarked p = [] :=
        List.eq_nil_of_length_eq_zero (Nat.lt_one_iff.mp hw)
      have hmarked : ∀ l ∈ p.loops.filter fun l => l.iterateOver == id,
          l.id ∈ w.emission.loops := by
        intro l hl
        simpa using List.filter_eq_nil_iff.mp hnone l (List.mem_of_mem_filter hl)
      have hfollow := follow_visits hnever hw id w.rows
      rw [Follow, run_of_all_marked hmarked] at hfollow
      exact hfollow
  | succ left ih =>
      intro id w hw
      exact follow_visits ih hw id w.rows

/-- Every emission leaves no more loops than there are. -/
theorem below_of_length_le {left : Nat} (hleft : p.loops.length ≤ left) (w : Worklist) :
    w.Below p (left + 1) :=
  Nat.lt_succ_of_le ((List.length_filter_le _ _).trans hleft)

/-- All loops over some data follow, wherever the emission is. -/
theorem allLoopsOver_followBelow (p : Plan) (settings : Settings) :
    FollowBelow p settings (p.loops.length + 1) (allLoopsOver p) :=
  loopsOver_followBelow p settings p.loops.length

/-! ## Operations -/

section Operations

variable {w : Worklist}

theorem follow_emitChain (parts : List Part) :
    Follow p settings Eq (parts.map .part) w (emitChain p parts w.rows) :=
  follow_foldlM Task.part
    (fun part _ _ hw => follow_emitPart (allLoopsOver_followBelow p settings) hw part rfl)
    (below_of_length_le le_rfl w)

/-- Merges the outputs of all sources. -/
def mergeOutputs : List Handle → Emitter Handle
  | [] => fail .missingPrimarySource
  | [output] => pure output
  | first :: others => do
    push (mergeStep first (first :: others))
    pure (.ofStep mergeId)

theorem follow_merge (task : Task) (outputs : List Handle)
    (htask : w.perform p settings task = w.merge outputs) :
    Follow p settings Eq [task] w (mergeOutputs outputs) := by
  rcases outputs with _ | ⟨first, _ | ⟨second, others⟩⟩
  · exact .of_giveUp w.rows w.emission (congrArg Prod.snd htask) rfl
  · exact .of_perform first w.emission [] (pure first) (congrArg Prod.snd htask)
      (List.Subset.refl _) rfl (.pure rfl)
  · exact .of_perform (.ofStep mergeId)
      (w.emission.addSteps [mergeStep first (first :: second :: others)]) []
      (pure (.ofStep mergeId)) (congrArg Prod.snd htask) (List.Subset.refl _) rfl (.pure rfl)

/-- The step that reads a source, if there is one, comes first. -/
theorem run_fetchSource (s : Source) (e : Emission) :
    (fetchSource p s).run e = (do
      let output ← locate p "compiler" s.id
      allLoopsOver p s.id output : Emitter Handle).run
        (e.addSteps (s.readOperation.map s.fetch).toList) := by
  rw [fetchSource]
  rcases s.readOperation with _ | operation
  · rw [Option.map_none, Option.toList_none, Emission.addSteps_nil]
  · rfl

/-- The sources that are left are read one after the other, and merged with what was read before. -/
theorem follow_read (task : Task) (outputs : List Handle) (sources : List Source)
    (htask : w.perform p settings task = w.read p outputs sources) :
    Follow p settings Eq [task] w (do
      let others ← sources.mapM (fetchSource p)
      mergeOutputs (outputs ++ others)) := by
  induction sources generalizing w task outputs with
  | nil =>
      rw [List.mapM_nil, pure_bind, List.append_nil]
      exact follow_merge task outputs htask
  | cons s sources ih =>
      have hrest : (do
          let others ← (s :: sources).mapM (fetchSource p)
          mergeOutputs (outputs ++ others)) = (do
            let output ← fetchSource p s
            let others ← sources.mapM (fetchSource p)
            mergeOutputs (outputs ++ output :: others)) := by
        simp only [List.mapM_cons, bind_assoc, pure_bind]
      have hfetch := run_fetchSource (p := p) s w.emission
      have hround : (w.perform p settings task).2 = (w.read p outputs (s :: sources)).2 :=
        congrArg Prod.snd htask
      rw [hrest]
      rcases hlocation : p.location? s.id with _ | output
      · rw [locate, hlocation] at hfetch
        refine .of_giveUp w.rows (w.emission.addSteps (s.readOperation.map s.fetch).toList) ?_
          (run_bind_of_error hfetch _)
        rw [hround, Worklist.read, locate, hlocation]
        rfl
      · rw [locate, hlocation] at hfetch
        refine .of_perform output (w.emission.addSteps (s.readOperation.map s.fetch).toList)
          (visits p s.id output ++ [.keep outputs sources]) (do
            let output ← allLoopsOver p s.id output
            let others ← sources.mapM (fetchSource p)
            mergeOutputs (outputs ++ output :: others)) ?_ (List.Subset.refl _) ?_ ?_
        · rw [hround, Worklist.read, locate, hlocation]
          rfl
        · rw [StateT.run_bind, hfetch]
          rfl
        · refine Follow.bind _ _
            (allLoopsOver_followBelow p settings s.id _ (below_of_length_le le_rfl _)) ?_
          rintro rows _ e rfl -
          have hkeep (v : Worklist) :=
            ih (w := v) (.keep outputs sources) (outputs ++ [v.rows]) rfl
          simp only [List.append_assoc, List.singleton_append] at hkeep
          exact hkeep (Worklist.after _ rows e)

theorem follow_fetchSources :
    Follow p settings Eq [.read [] p.candidates] w (fetchSources p) := by
  have hmerge : fetchSources p = p.candidates.mapM (fetchSource p) >>= mergeOutputs :=
    bind_congr fun outputs => by rcases outputs with _ | ⟨first, _ | ⟨second, others⟩⟩ <;> rfl
  rw [hmerge]
  exact follow_read (.read [] p.candidates) [] p.candidates rfl

theorem follow_check (lookup : Source) :
    Follow p settings Eq [.check lookup] w (deduplicate settings lookup w.rows) := by
  have hmarks : w.emission.loops ⊆
      (w.emission.deduplicate settings.defaultKeyField lookup w.rows).2.loops := by
    rw [Emission.deduplicate]
    split <;> exact List.Subset.refl _
  exact .of_perform _ _ [] (pure _) rfl hmarks rfl (.pure rfl)

theorem follow_ingest : Follow p settings Eq (Operation.ingest.tasks p) w (ingest p settings) := by
  refine Follow.bind [.read [] p.candidates] _ follow_fetchSources ?_
  rintro rows _ e rfl -
  refine Follow.bind _ _ (follow_emitChain (chainFilters p)) ?_
  rintro rows _ e rfl -
  refine Follow.bind _ _ (follow_foldlM Task.check (fun lookup _ _ _ => follow_check lookup)
    (below_of_length_le le_rfl _)) ?_
  rintro rows _ e rfl -
  exact follow_emitChain (chainReshaping p)

/-- A loop whose turn never came is emitted over what it names. -/
theorem follow_finishLoop {l : Loop} (hl : l ∈ p.loops) :
    Follow p settings (fun _ _ => True) [.remain l] w (finishLoop p l) := by
  by_cases hmarked : l.id ∈ w.emission.loops
  · refine .of_perform w.rows w.emission [] (pure ()) ?_ (List.Subset.refl _)
      (run_unlessMarked_of_marked hmarked) (.pure trivial)
    rw [Worklist.perform, if_pos hmarked]
    rfl
  · rw [Follow, finishLoop, run_unlessMarked_of_unmarked hmarked]
    rcases hlocation : p.location? l.iterateOver with _ | rows
    · rw [locate, hlocation]
      refine Follow.of_giveUp w.rows w.emission ?_ rfl
      rw [Worklist.perform, if_neg hmarked, locate, hlocation]
      rfl
    · have hround : w.perform p settings (.remain l) = w.enter p l rows := by
        rw [Worklist.perform, if_neg hmarked, locate, hlocation]
        rfl
      have hloop := follow_emitLoop (allLoopsOver_followBelow p settings)
        (Nat.lt_succ_of_lt (below_of_length_le le_rfl w)) hl hmarked hround
      rw [locate, hlocation]
      show Follow p settings (fun _ _ => True) [.remain l] w
        (emitLoop p (allLoopsOver p) l rows >>= fun _ => pure ())
      exact Follow.bind [.remain l] [] hloop fun _ _ _ _ _ => .pure trivial

theorem follow_finish :
    Follow p settings (fun _ _ => True) (Operation.finish.tasks p) w (finish p) :=
  follow_forM Task.remain (fun _ hl _ _ => follow_finishLoop hl) (below_of_length_le le_rfl w)

/-- The result of an emitter may be ignored. -/
theorem Follow.ignore {result : α → Handle → Prop} {tasks : List Task} {m : Emitter α}
    (h : Follow p settings result tasks w m) :
    Follow p settings (fun _ _ => True) tasks w (discard m) := by
  have hdiscard : discard m = m >>= fun _ => Pure.pure () := by
    rw [discard, map_const, Function.comp_apply, bind_pure_comp]
  rw [hdiscard, ← List.append_nil tasks]
  exact Follow.bind tasks [] h fun _ _ _ _ _ => .pure trivial

/-- The tasks of an operation that has begun are all there are. -/
theorem Follow.comesTo {v : Worklist} {rows : Handle} {tasks : List Task} {m : Emitter Unit}
    (h : Follow p settings (fun _ _ => True) tasks (w.after rows w.emission) m)
    (htasks : w.tasks = [])
    (hfirst : Reaches p settings v { w.after rows w.emission with tasks }) :
    ComesTo p settings (fun _ _ => True) v w (m.run w.emission) := by
  have hbefore : (w.after rows w.emission).before tasks =
      { w.after rows w.emission with tasks } := by
    simp [Worklist.before, Worklist.after, htasks]
  rw [Follow, hbefore] at h
  exact .of_reaches hfirst (List.Subset.refl _) h

theorem run_render (id : String) (input : Handle) (e : Emission) :
    ((Operation.render id input).emit p settings).run e =
      .ok ((), e.addSteps (p.activeRendering.map fun r => p.renderStep r id input).toList) := by
  rw [Operation.emit, render]
  rcases p.activeRendering with _ | r
  · rw [Option.map_none, Option.toList_none, Emission.addSteps_nil]
    rfl
  · rfl

/-- Each operation comes to the end that its emitter gives, whatever the emission was before. -/
theorem operation_comesTo (p : Plan) (settings : Settings) (op : Operation)
    (htasks : w.tasks = []) :
    ComesTo p settings (fun _ _ => True) { w with operations := op :: w.operations } w
      ((op.emit p settings).run w.emission) := by
  obtain ⟨operations, tasks, rows, e, errors⟩ := w
  obtain rfl : tasks = [] := htasks
  have hfirst : Reaches p settings ⟨op :: operations, [], rows, e, errors⟩
      (Worklist.begin p ⟨operations, [], rows, e, errors⟩ op).2 := .single ⟨_, rfl⟩
  cases op with
  | push s => exact ⟨List.Subset.refl _, rows, trivial, hfirst⟩
  | ingest => exact follow_ingest.ignore.comesTo rfl hfirst
  | enrich chain =>
      exact (follow_emitChain (w := ⟨operations, [], chain, e, errors⟩) (chainAi p)).ignore.comesTo
        (w := ⟨operations, [], rows, e, errors⟩) rfl hfirst
  | render id input =>
      rw [run_render]
      exact ⟨List.Subset.refl _, rows, trivial, hfirst⟩
  | deliver key d payload others recipient =>
      exact ⟨List.Subset.refl _, rows, trivial, hfirst⟩
  | finish => exact follow_finish.comesTo rfl hfirst

/-- Operations one after the other come to the end that their emitters give.  The first one that
fails decides, whatever the others do. -/
theorem operations_comeTo (p : Plan) (settings : Settings) (operations : List Operation)
    (htasks : w.tasks = []) (herrors : w.errors = []) :
    ∃ v, Reaches p settings { w with operations } v ∧ (v.IsOver ∨ v.errors ≠ []) ∧
      (operations.forM (Operation.emit p settings)).run w.emission = v.outcome () := by
  induction operations generalizing w with
  | nil =>
      refine ⟨{ w with operations := [] }, .refl, .inl ⟨htasks, rfl⟩, ?_⟩
      rw [Worklist.outcome, herrors]
      rfl
  | cons op operations ih =>
      have hop := operation_comesTo p settings (w := { w with operations }) op htasks
      rcases hrun : (op.emit p settings).run w.emission with error | ⟨⟨⟩, e⟩
      · rw [List.forM, run_bind_of_error hrun]
        obtain ⟨rows, e, hreaches⟩ := hrun ▸ hop
        refine ⟨_, hreaches, .inr (List.append_ne_nil_of_right_ne_nil _ (List.cons_ne_nil _ _)), ?_⟩
        simp [Worklist.outcome, Worklist.giveUp, Worklist.after, herrors]
      · rw [List.forM, run_bind_of_run hrun]
        obtain ⟨-, rows, -, hreaches⟩ := hrun ▸ hop
        obtain ⟨v, hreaches', hends, hrun'⟩ := ih (w := w.after rows e) htasks herrors
        exact ⟨v, hreaches.trans hreaches', hends, hrun'⟩

end Operations

/-! ## The bound on the recursion -/

/-- Rounds come to no more than one end. -/
theorem eq_of_reaches {v w w' : Worklist} (h : Reaches p settings v w)
    (h' : Reaches p settings v w') (hover : w.IsOver) (hover' : w'.IsOver) : w = w' := by
  have hends {u u' : Worklist} (hu : u.IsOver) (h : Reaches p settings u u') : u = u' := by
    rcases h.cases_head with heq | ⟨_, ⟨event, hround⟩, -⟩
    · exact heq
    · rw [advance_eq_none_iff.mpr hu] at hround
      cases hround
  have hunique : Relator.RightUnique fun w w' : Worklist =>
      ∃ event, w.advance p settings = some (event, w') := by
    rintro _ _ _ ⟨_, h⟩ ⟨_, h'⟩
    exact (Prod.mk.inj (Option.some.inj (h.symm.trans h'))).2
  rcases h.total_of_right_unique hunique h' with hreaches | hreaches
  · exact hends hover hreaches
  · exact (hends hover' hreaches).symm

/-- Tasks that are all there is come to an end that says what the emitter gives. -/
theorem Follow.exists_isOver {tasks : List Task} {output : Handle} {e : Emission}
    {m : Emitter Handle} (h : Follow p settings Eq tasks ⟨[], [], output, e, []⟩ m) :
    ∃ w, Reaches p settings ⟨[], tasks, output, e, []⟩ w ∧ w.IsOver ∧
      m.run e = w.outcome w.rows := by
  have hbefore : Worklist.before ⟨[], [], output, e, []⟩ tasks = ⟨[], tasks, output, e, []⟩ := by
    rw [Worklist.before, List.append_nil]
  rw [Follow, hbefore] at h
  rcases hrun : m.run e with error | ⟨rows, e'⟩
  · obtain ⟨rows, e', hreaches⟩ := hrun ▸ h
    exact ⟨_, hreaches, ⟨rfl, rfl⟩, rfl⟩
  · obtain ⟨-, _, rfl, hreaches⟩ := hrun ▸ h
    exact ⟨_, hreaches, ⟨rfl, rfl⟩, rfl⟩

/-- A bound that covers all loops may as well be larger, whatever the plan: the recursion ends by
itself. -/
theorem loopsOver_eq_allLoopsOver (p : Plan) {left : Nat} (hleft : p.loops.length ≤ left) :
    loopsOver p left = allLoopsOver p := by
  funext id output
  refine StateT.ext fun e => ?_
  obtain ⟨w, hreaches, hover, hrun⟩ :=
    (loopsOver_followBelow p default left id ⟨[], [], output, e, []⟩
      (below_of_length_le hleft _)).exists_isOver
  obtain ⟨w', hreaches', hover', hrun'⟩ :=
    (allLoopsOver_followBelow p default id ⟨[], [], output, e, []⟩
      (below_of_length_le le_rfl _)).exists_isOver
  obtain rfl := eq_of_reaches hreaches hreaches' hover hover'
  exact hrun.trans hrun'.symm

/-- Emitting all loops over an id is emitting each that is not marked, in whose body all loops are
emitted again: the bound on the recursion does not show. -/
theorem allLoopsOver_eq (p : Plan) (id : String) (output : Handle) :
    allLoopsOver p id output =
      (p.loops.filter fun l => l.iterateOver == id).foldlM
        (emitUnlessMarked p (allLoopsOver p) output) output :=
  (congrFun₂ (loopsOver_eq_allLoopsOver p (Nat.le_succ _)) id output).symm

end Emitter
end PlanFlow
