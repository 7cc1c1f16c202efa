import Mathlib.Algebra.GroupWithZero.Nat
import Mathlib.Algebra.Order.BigOperators.Group.List
import Mathlib.Algebra.Order.Group.Nat
import PlanFlow.Emission.Delivering
import PlanFlow.Proofs.Emission.Bound

/-!
# Emission by a worklist

The recursion through parts and loops, with the tasks that are still to be done in place of open
calls.  One round takes the first task; a part and a loop put the tasks that they lead to before the
others.  An operation whose task fails is given up, but the emission stays as it is and the next
operation goes on with it.

No bound is put on the rounds.  A task leads to less than it costs, except where a loop is entered;
but then the loop is marked, and what its body costs is no longer to come.
-/

namespace PlanFlow
namespace Emitter

/-- What a rule may ask of an emission, with whatever data it likes. -/
inductive Operation where
  | push (s : Step)
  | ingest
  | enrich (rows : Handle)
  | render (id : String) (input : Handle)
  | deliver (key : String) (d : Delivery) (payload : Handle) (others : List String)
      (recipient : Option String)
  | finish

/-- The emitter of an operation. -/
def Operation.emit (p : Plan) (settings : Settings) : Operation → Emitter Unit
  | push s => Emitter.push s
  | ingest => discard (Emitter.ingest p settings)
  | enrich rows => discard (Emitter.enrich p rows)
  | render id input => discard (Emitter.render p id input)
  | deliver key d payload others recipient =>
    discard (Emitter.deliver p key d payload others recipient)
  | finish => Emitter.finish p

/-- What is to be done on the current data. -/
inductive Task where
  /-- Reads the sources that are left and merges all outputs. -/
  | read (outputs : List Handle) (sources : List Source)
  /-- Keeps the current data as one more output, and goes on to read. -/
  | keep (outputs : List Handle) (sources : List Source)
  /-- Emits a part. -/
  | part (part : Part)
  /-- Checks the data against a lookup source. -/
  | check (lookup : Source)
  /-- Emits a loop over some data, unless it is marked. -/
  | visit (l : Loop) (rows : Handle)
  /-- Emits a member of the body of a loop. -/
  | member (l : Loop) (id : String)
  /-- Leaves a loop; its output becomes the current data. -/
  | leave (l : Loop)
  /-- Emits a loop over what it iterates over, unless it is marked. -/
  | remain (l : Loop)

/-- What a round emits. -/
inductive Event where
  /-- A step that was given from outside. -/
  | given (s : Step)
  /-- Any number of steps. -/
  | emitted (steps : List Step)
  /-- A loop is marked, and its step emitted if the members of its body are found. -/
  | entered (l : Loop) (s : Option Step)

namespace Event

/-- The steps that are emitted. -/
def steps : Event → List Step
  | given s => [s]
  | emitted steps => steps
  | entered _ s => s.toList

/-- The steps that are emitted and were not given from outside. -/
def own : Event → List Step
  | given _ => []
  | emitted steps => steps
  | entered _ s => s.toList

/-- The loop that is entered. -/
def loop? : Event → Option Loop
  | entered l _ => some l
  | given _ | emitted _ => none

end Event

/-- The state between rounds: the operations that are to come, the tasks of the current one, the
current data, the emission, and the errors of the operations that were given up. -/
structure Worklist where
  operations : List Operation
  tasks : List Task
  rows : Handle
  emission : Emission
  errors : List PlanError

/-- The tasks of the loops over an id. -/
def visits (p : Plan) (id : String) (output : Handle) : List Task :=
  (p.loops.filter fun l => l.iterateOver == id).map (.visit · output)

/-- The step of a loop with the ids of its body. -/
def stepOfLoop (l : Loop) (rows : Handle) (body : List String) : Step :=
  ⟨l.stepId, "For each " ++ l.itemName, rows.dependencies,
    .loop rows.reference l.itemName body l.maxIterations l.maxConcurrency⟩

namespace Worklist

/-- The worklist with tasks before the others. -/
def before (w : Worklist) (tasks : List Task) : Worklist := { w with tasks := tasks ++ w.tasks }

/-- The worklist after steps were emitted. -/
def add (w : Worklist) (steps : List Step) : Worklist :=
  { w with emission := w.emission.addSteps steps }

/-- The current operation is given up. -/
def giveUp (w : Worklist) (error : PlanError) : Worklist :=
  { w with tasks := [], errors := w.errors ++ [error] }

/-- Emits a part; the loops over it come next. -/
def emitPart (p : Plan) (w : Worklist) (part : Part) : Event × Worklist :=
  match (inputOf p part w.rows).run w.emission with
  | .ok ((input, dependencies), _) =>
    let s := part.step input dependencies
    let output := Handle.ofStep part.stepId
    (.emitted [s], { w.add [s] with rows := output }.before (visits p part.id output))
  | .error error => (.emitted [], w.giveUp error)

/-- Enters a loop; its body comes next. -/
def enter (p : Plan) (w : Worklist) (l : Loop) (rows : Handle) : Event × Worklist :=
  let marked := { w with emission := w.emission.addLoop l.id }
  match (l.body.mapM (memberId p)).run marked.emission with
  | .ok (body, _) =>
    let s := stepOfLoop l rows body
    (.entered l (some s), { marked.add [s] with rows := .ofItem l.stepId l.itemName }.before
      (l.body.map (Task.member l) ++ [Task.leave l]))
  | .error error => (.entered l none, marked.giveUp error)

/-- Merges the outputs of all sources. -/
def merge (w : Worklist) : List Handle → Event × Worklist
  | [] => (.emitted [], w.giveUp .missingPrimarySource)
  | [output] => (.emitted [], { w with rows := output })
  | first :: others =>
    let s := mergeStep first (first :: others)
    (.emitted [s], { w.add [s] with rows := .ofStep mergeId })

/-- Reads the next source; the loops over it come next. -/
def read (p : Plan) (w : Worklist) (outputs : List Handle) : List Source → Event × Worklist
  | [] => w.merge outputs
  | s :: sources =>
    let steps := (s.readOperation.map s.fetch).toList
    match (locate p "compiler" s.id).run w.emission with
    | .ok (output, _) =>
      (.emitted steps, { w.add steps with rows := output }.before
        (visits p s.id output ++ [Task.keep outputs sources]))
    | .error error => (.emitted steps, (w.add steps).giveUp error)

/-- Checks the current data against a lookup source. -/
def check (settings : Settings) (w : Worklist) (lookup : Source) : Event × Worklist :=
  let checked := w.emission.deduplicate settings.defaultKeyField lookup w.rows
  (.emitted (checked.2.steps.drop w.emission.steps.length),
    { w with rows := checked.1, emission := checked.2 })

/-- Does a task. -/
def perform (p : Plan) (settings : Settings) (w : Worklist) : Task → Event × Worklist
  | .read outputs sources => w.read p outputs sources
  | .keep outputs sources => w.read p (outputs ++ [w.rows]) sources
  | .part part => w.emitPart p part
  | .check lookup => w.check settings lookup
  | .visit l rows => if l.id ∈ w.emission.loops then (.emitted [], w) else w.enter p l rows
  | .member l id =>
    match p.part? id with
    | some part => w.emitPart p part
    | none => (.emitted [], w.giveUp (.unknownReference l.id id))
  | .leave l => (.emitted [], { w with rows := .ofStep l.stepId })
  | .remain l =>
    if l.id ∈ w.emission.loops then (.emitted [], w)
    else
      match (locate p "compiler" l.iterateOver).run w.emission with
      | .ok (rows, _) => w.enter p l rows
      | .error error => (.emitted [], w.giveUp error)

end Worklist

/-- The tasks of an operation. -/
def Operation.tasks (p : Plan) : Operation → List Task
  | ingest => .read [] p.candidates :: ((chainFilters p).map .part ++
      (p.lookups.map .check ++ (chainReshaping p).map .part))
  | enrich _ => (chainAi p).map .part
  | finish => p.loops.map .remain
  | push _ | render _ _ | deliver _ _ _ _ _ => []

namespace Worklist

/-- Begins an operation. -/
def begin (p : Plan) (w : Worklist) (op : Operation) : Event × Worklist :=
  let w := { w with tasks := op.tasks p }
  match op with
  | .push s => (.given s, w.add [s])
  | .ingest | .finish => (.emitted [], w)
  | .enrich rows => (.emitted [], { w with rows })
  | .render id input =>
    let steps := (p.activeRendering.map fun r => p.renderStep r id input).toList
    (.emitted steps, w.add steps)
  | .deliver key d payload others recipient =>
    let s := p.deliveryStep key d payload others recipient
    (.emitted [s], w.add [s])

/-- One round.  There is none when all is done. -/
def advance (p : Plan) (settings : Settings) (w : Worklist) : Option (Event × Worklist) :=
  match w.tasks with
  | task :: tasks => some ({ w with tasks }.perform p settings task)
  | [] =>
    match w.operations with
    | op :: operations => some ({ w with operations }.begin p op)
    | [] => none

/-- No task and no operation is left. -/
def IsOver (w : Worklist) : Prop := w.tasks = [] ∧ w.operations = []

end Worklist

/-! ## What is to come -/

namespace Task

/-- The most rounds that a task may take, without those in loops. -/
def cost (p : Plan) : Task → Nat
  | read _ sources | keep _ sources => sources.length * (p.loops.length + 1) + 1
  | part _ | member _ _ => p.loops.length + 1
  | check _ | visit _ _ | leave _ | remain _ => 1

/-- The loop of a task is one of the plan. -/
def Within (p : Plan) : Task → Prop
  | visit l _ | remain l => l ∈ p.loops
  | read _ _ | keep _ _ | part _ | check _ | member _ _ | leave _ => True

/-- The most rounds that tasks may take, without those in loops. -/
def costs (p : Plan) (tasks : List Task) : Nat := (tasks.map (cost p)).sum

variable {p : Plan}

@[simp]
theorem costs_nil : costs p [] = 0 := rfl

@[simp]
theorem costs_cons (task : Task) (tasks : List Task) :
    costs p (task :: tasks) = task.cost p + costs p tasks := by
  simp [costs]

@[simp]
theorem costs_append (tasks more : List Task) :
    costs p (tasks ++ more) = costs p tasks + costs p more := by
  simp [costs]

theorem costs_visits_le (id : String) (output : Handle) :
    costs p (visits p id output) ≤ p.loops.length := by
  have hone : costs p (visits p id output) =
      (p.loops.filter fun l => l.iterateOver == id).length := by
    simp [costs, visits, cost, Function.comp_def]
  rw [hone]
  exact List.length_filter_le _ _

theorem within_visits {id : String} {output : Handle} :
    ∀ task ∈ visits p id output, task.Within p := by
  intro task htask
  obtain ⟨l, hl, rfl⟩ := List.mem_map.mp htask
  exact List.mem_of_mem_filter hl

end Task

/-- The most rounds that an operation may take, without those in loops. -/
def Operation.cost (p : Plan) (op : Operation) : Nat := Task.costs p (op.tasks p) + 1

/-- The most rounds that the body of a loop may take, without those in other loops. -/
def bodyCost (p : Plan) (l : Loop) : Nat := Task.costs p (l.body.map (.member l) ++ [.leave l])

/-- The most rounds that the loops that are not marked may take. -/
def loopCosts (p : Plan) (e : Emission) : Nat := ((e.unmarked p).map (bodyCost p)).sum

/-- What is left out of a sum is no more than what the sum loses. -/
theorem add_sum_filter_le {α : Type} (f : α → Nat) (keep : α → Bool) {l : List α} {a : α}
    (ha : a ∈ l) (hleft : keep a = false) :
    f a + ((l.filter keep).map f).sum ≤ (l.map f).sum := by
  have hsum := (((List.filter_append_perm keep l).map f).sum_nat).symm
  rw [List.map_append, List.sum_append_nat] at hsum
  have hle : f a ≤ ((l.filter fun b => !keep b).map f).sum :=
    List.le_sum_of_mem (List.mem_map_of_mem (List.mem_filter.mpr ⟨ha, by simp [hleft]⟩))
  omega

/-- To mark a loop is to pay for its body. -/
theorem bodyCost_add_loopCosts_le {p : Plan} {e : Emission} {l : Loop} (hl : l ∈ p.loops)
    (hunmarked : l.id ∉ e.loops) :
    bodyCost p l + loopCosts p (e.addLoop l.id) ≤ loopCosts p e := by
  rw [loopCosts, loopCosts, Emission.unmarked_addLoop]
  refine add_sum_filter_le (bodyCost p) _ (List.mem_filter.mpr ⟨hl, ?_⟩) (by simp)
  simpa using hunmarked

namespace Worklist

/-- The most rounds that are to come. -/
def toCome (p : Plan) (w : Worklist) : Nat :=
  (w.operations.map (Operation.cost p)).sum + Task.costs p w.tasks + loopCosts p w.emission

/-- The loops of all tasks are those of the plan. -/
def Within (p : Plan) (w : Worklist) : Prop := ∀ task ∈ w.tasks, task.Within p

section ToCome

variable {p : Plan} (w : Worklist)

theorem toCome_before (tasks : List Task) :
    (w.before tasks).toCome p = w.toCome p + Task.costs p tasks := by
  simp only [toCome, before, Task.costs_append]
  omega

theorem toCome_giveUp_le (error : PlanError) : (w.giveUp error).toCome p ≤ w.toCome p := by
  simp only [toCome, giveUp, Task.costs_nil]
  omega

/-- A loop that is marked pays for its body. -/
theorem bodyCost_add_toCome_le {l : Loop} (hl : l ∈ p.loops)
    (hunmarked : l.id ∉ w.emission.loops) :
    bodyCost p l + { w with emission := w.emission.addLoop l.id }.toCome p ≤ w.toCome p := by
  have hpays := bodyCost_add_loopCosts_le hl hunmarked
  simp only [toCome]
  omega

end ToCome

end Worklist

/-- Only a loop that is entered has its step emitted, unless the step was given from outside. -/
def Event.Apt : Event → Prop
  | given _ => True
  | emitted steps => ∀ s ∈ steps, s.work.kind ≠ "loop"
  | entered l s => ∀ step ∈ s, step.id = l.stepId

/-! ## What a round does -/

/-- What a round does that may cost so much: it emits what it says, it enters no loop that is
marked, and less is to come than the costs. -/
structure Turn (p : Plan) (w : Worklist) (cost : Nat) (r : Event × Worklist) : Prop where
  steps : r.2.emission.steps = w.emission.steps ++ r.1.steps
  loops : r.2.emission.loops = (r.1.loop?.map Loop.id).toList ++ w.emission.loops
  fresh : ∀ l ∈ r.1.loop?, l.id ∉ w.emission.loops
  apt : r.1.Apt
  errors : w.errors <+: r.2.errors
  within : r.2.Within p
  toCome : r.2.toCome p < w.toCome p + cost

section Turns

variable {p : Plan} {settings : Settings} {w w' : Worklist} {cost : Nat} {steps : List Step}

/-- A round that enters no loop. -/
theorem Turn.of_emitted (hsteps : w'.emission.steps = w.emission.steps ++ steps)
    (hloops : w'.emission.loops = w.emission.loops) (hkind : ∀ s ∈ steps, s.work.kind ≠ "loop")
    (herrors : w.errors <+: w'.errors) (hwithin : w'.Within p)
    (hcost : w'.toCome p < w.toCome p + cost) : Turn p w cost (.emitted steps, w') where
  steps := hsteps
  loops := hloops
  fresh := nofun
  apt := hkind
  errors := herrors
  within := hwithin
  toCome := hcost

/-- Giving up leaves no task. -/
theorem within_giveUp (w : Worklist) (error : PlanError) : (w.giveUp error).Within p :=
  fun _ htask => absurd htask List.not_mem_nil

theorem Turn.giveUp (hkind : ∀ s ∈ steps, s.work.kind ≠ "loop") (error : PlanError)
    (hcost : 0 < cost) : Turn p w cost (.emitted steps, (w.add steps).giveUp error) := by
  refine .of_emitted rfl rfl hkind (List.prefix_append _ _) (within_giveUp _ _) ?_
  exact Nat.lt_of_le_of_lt ((w.add steps).toCome_giveUp_le error) (Nat.lt_add_of_pos_right hcost)

/-- Giving up before any step is emitted. -/
theorem Turn.giveUp_at_once (error : PlanError) (hcost : 0 < cost) :
    Turn p w cost (.emitted [], w.giveUp error) := by
  refine .of_emitted (List.append_nil _).symm rfl nofun (List.prefix_append _ _)
    (within_giveUp _ _) ?_
  exact Nat.lt_of_le_of_lt (w.toCome_giveUp_le error) (Nat.lt_add_of_pos_right hcost)

/-- A round that at most changes the current data. -/
theorem Turn.rows (hw : w.Within p) (rows : Handle) (hcost : 0 < cost) :
    Turn p w cost (.emitted [], { w with rows }) :=
  .of_emitted (List.append_nil _).symm rfl nofun (List.prefix_refl _) hw
    (Nat.lt_add_of_pos_right hcost)

theorem kind_step_ne_loop (part : Part) (input : Handle) (dependencies : List String) :
    (part.step input dependencies).work.kind ≠ "loop" := by
  cases part <;> simp [Part.step, Part.work, Work.kind]

theorem within_before {tasks : List Task} (hw : w.Within p)
    (htasks : ∀ task ∈ tasks, task.Within p) : (w.before tasks).Within p := by
  intro task htask
  exact (List.mem_append.mp htask).elim (htasks task) (hw task)

theorem emitPart_turn (hw : w.Within p) (part : Part) :
    Turn p w (p.loops.length + 1) (w.emitPart p part) := by
  rw [Worklist.emitPart]
  split
  · refine .of_emitted rfl rfl ?_ (List.prefix_refl _) (within_before hw Task.within_visits) ?_
    · simpa using kind_step_ne_loop part _ _
    · have hvisits := Task.costs_visits_le (p := p) part.id (.ofStep part.stepId)
      rw [Worklist.toCome_before]
      exact Nat.add_lt_add_of_le_of_lt (Nat.le_refl _) (Nat.lt_succ_of_le hvisits)
  · exact .giveUp_at_once _ (Nat.succ_pos _)

theorem within_body (l : Loop) :
    ∀ task ∈ l.body.map (Task.member l) ++ [.leave l], task.Within p := by
  intro task htask
  rcases List.mem_append.mp htask with hmember | hleave
  · obtain ⟨_, -, rfl⟩ := List.mem_map.mp hmember
    trivial
  · obtain rfl := List.mem_singleton.mp hleave
    trivial

/-- Entering a loop leads to its body, but the body of a marked loop is no longer to come. -/
theorem enter_turn (hw : w.Within p) {l : Loop} (hl : l ∈ p.loops)
    (hunmarked : l.id ∉ w.emission.loops) (rows : Handle) : Turn p w 1 (w.enter p l rows) := by
  have hpays := w.bodyCost_add_toCome_le hl hunmarked
  have hfresh : ∀ m ∈ some l, m.id ∉ w.emission.loops := by
    rintro _ ⟨⟩
    exact hunmarked
  rw [Worklist.enter]
  split
  · refine ⟨rfl, rfl, hfresh, ?_, List.prefix_refl _, within_before hw (within_body l), ?_⟩
    · rintro _ ⟨⟩
      rfl
    · -- The body comes next, but the mark has paid for it.
      refine Nat.lt_succ_of_le ?_
      rw [Worklist.toCome_before, Nat.add_comm]
      exact hpays
  · -- A member is missing: the loop stays marked, and no task is left.
    refine ⟨(List.append_nil _).symm, rfl, hfresh, nofun, List.prefix_append _ _,
      within_giveUp _ _, ?_⟩
    exact Nat.lt_succ_of_le ((Worklist.toCome_giveUp_le _ _).trans (Nat.le_of_add_left_le hpays))

theorem merge_turn (hw : w.Within p) (outputs : List Handle) : Turn p w 1 (w.merge outputs) := by
  unfold Worklist.merge
  split
  · exact .giveUp_at_once _ Nat.one_pos
  · exact .rows hw _ Nat.one_pos
  · refine .of_emitted rfl rfl ?_ (List.prefix_refl _) hw (Nat.lt_succ_self _)
    simp [mergeStep, Work.kind]

theorem read_turn (hw : w.Within p) (outputs : List Handle) (sources : List Source) :
    Turn p w (sources.length * (p.loops.length + 1) + 1) (w.read p outputs sources) := by
  cases sources with
  | nil =>
      rw [List.length_nil, Nat.zero_mul, Nat.zero_add]
      exact merge_turn hw outputs
  | cons s sources =>
      have hkind : ∀ step ∈ (s.readOperation.map s.fetch).toList, step.work.kind ≠ "loop" := by
        cases s.readOperation <;> simp [Source.fetch, Work.kind]
      rw [Worklist.read]
      split
      · refine .of_emitted rfl rfl hkind (List.prefix_refl _) (within_before hw ?_) ?_
        · rw [List.forall_mem_append]
          exact ⟨Task.within_visits, by simp [Task.Within]⟩
        · rename_i output _ _
          have hvisits := Task.costs_visits_le (p := p) s.id output
          rw [Worklist.toCome_before, Task.costs_append, Task.costs_cons, Task.costs_nil,
            List.length_cons, Nat.succ_mul, Task.cost]
          show w.toCome p + _ < _
          omega
      · exact .giveUp hkind _ (Nat.succ_pos _)

theorem check_turn (hw : w.Within p) (lookup : Source) :
    Turn p w 1 (w.check settings lookup) := by
  by_cases hchecked : w.emission.checked.contains lookup.id
  · simp only [Worklist.check, Emission.deduplicate, if_pos hchecked, List.drop_length]
    exact .rows hw _ Nat.one_pos
  · simp only [Worklist.check, Emission.deduplicate, if_neg hchecked, List.drop_left]
    refine .of_emitted rfl rfl ?_ (List.prefix_refl _) hw (Nat.lt_succ_self _)
    simp [Source.readReference, Source.extractKeys, Source.excludeKnown, Work.kind]

theorem perform_turn (hw : w.Within p) {task : Task} (htask : task.Within p) :
    Turn p w (task.cost p) (w.perform p settings task) := by
  cases task with
  | read outputs sources => exact read_turn hw outputs sources
  | keep outputs sources => exact read_turn hw _ sources
  | part part => exact emitPart_turn hw part
  | check lookup => exact check_turn hw lookup
  | visit l rows =>
      rw [Worklist.perform]
      split
      · exact .rows hw w.rows Nat.one_pos
      · exact enter_turn hw htask ‹_› rows
  | member l id =>
      rw [Worklist.perform]
      split
      · exact emitPart_turn hw _
      · exact .giveUp_at_once _ (Nat.succ_pos _)
  | leave l => exact .rows hw _ Nat.one_pos
  | remain l =>
      rw [Worklist.perform]
      split
      · exact .rows hw w.rows Nat.one_pos
      · split
        · exact enter_turn hw htask ‹_› _
        · exact .giveUp_at_once _ Nat.one_pos

theorem within_tasks (op : Operation) : ∀ task ∈ op.tasks p, task.Within p := by
  cases op with
  | ingest =>
      simp only [Operation.tasks, List.forall_mem_cons, List.forall_mem_append, List.forall_mem_map]
      exact ⟨trivial, fun _ _ => trivial, fun _ _ => trivial, fun _ _ => trivial⟩
  | enrich rows =>
      simp only [Operation.tasks, List.forall_mem_map]
      exact fun _ _ => trivial
  | finish =>
      simp only [Operation.tasks, List.forall_mem_map]
      exact fun _ hl => hl
  | push _ | render _ _ | deliver _ _ _ _ _ =>
      exact fun _ htask => absurd htask List.not_mem_nil

theorem begin_turn (op : Operation) : Turn p w (op.cost p) (w.begin p op) := by
  have hwithin : { w with tasks := op.tasks p }.Within p := within_tasks op
  have hcost : { w with tasks := op.tasks p }.toCome p < w.toCome p + op.cost p := by
    simp only [Worklist.toCome, Operation.cost]
    omega
  cases op with
  | push s =>
      exact ⟨rfl, rfl, nofun, trivial, List.prefix_refl _, hwithin, hcost⟩
  | ingest | finish =>
      exact .of_emitted (List.append_nil _).symm rfl nofun (List.prefix_refl _) hwithin hcost
  | enrich rows =>
      exact .of_emitted (List.append_nil _).symm rfl nofun (List.prefix_refl _) hwithin hcost
  | render id input =>
      refine .of_emitted rfl rfl ?_ (List.prefix_refl _) hwithin hcost
      cases p.activeRendering <;> simp [Plan.renderStep, Work.kind]
  | deliver key d payload others recipient =>
      refine .of_emitted rfl rfl ?_ (List.prefix_refl _) hwithin hcost
      simp [Plan.deliveryStep, Work.kind]

/-- What was taken from a worklist paid for the round. -/
theorem Turn.of_taken {v : Worklist} {r : Event × Worklist} (h : Turn p v cost r)
    (hemission : v.emission = w.emission) (herrors : v.errors = w.errors)
    (hcost : v.toCome p + cost = w.toCome p) : Turn p w 0 r where
  steps := hemission ▸ h.steps
  loops := hemission ▸ h.loops
  fresh := hemission ▸ h.fresh
  apt := h.apt
  errors := herrors ▸ h.errors
  within := h.within
  toCome := Nat.lt_of_lt_of_eq h.toCome hcost

/-- Less is to come after a round than before it. -/
theorem advance_turn (hw : w.Within p) {r : Event × Worklist}
    (h : w.advance p settings = some r) : Turn p w 0 r := by
  rcases htasks : w.tasks with _ | ⟨task, tasks⟩
  · rcases hoperations : w.operations with _ | ⟨op, operations⟩
    · simp [Worklist.advance, htasks, hoperations] at h
    · simp only [Worklist.advance, htasks, hoperations, Option.some.injEq] at h
      refine h ▸ (begin_turn op).of_taken rfl rfl ?_
      simp only [Worklist.toCome, hoperations, htasks, Task.costs_nil, List.map_cons, List.sum_cons]
      omega
  · simp only [Worklist.advance, htasks, Option.some.injEq] at h
    have hall : ∀ t ∈ task :: tasks, t.Within p := htasks ▸ hw
    rw [List.forall_mem_cons] at hall
    have hrest : ({ w with tasks } : Worklist).Within p := hall.2
    refine h ▸ (perform_turn hrest hall.1).of_taken rfl rfl ?_
    simp only [Worklist.toCome, htasks, Task.costs_cons]
    omega

/-- There is a round as long as not all is done. -/
theorem advance_eq_none_iff : w.advance p settings = none ↔ w.IsOver := by
  rcases htasks : w.tasks with _ | ⟨task, tasks⟩
  · rcases hoperations : w.operations with _ | ⟨op, operations⟩ <;>
      simp [Worklist.advance, Worklist.IsOver, htasks, hoperations]
  · simp [Worklist.advance, Worklist.IsOver, htasks]

end Turns

end Emitter
end PlanFlow
