import PlanFlow.Proofs.Emission.Following

/-!
# Runs of the worklist

A run makes rounds from the operations of a whole life on.  It makes no more of them than all
operations and all bodies of loops cost together, enters no loop twice, and can go on until nothing
is left to do, where it says what the emitters of the operations give.
-/

namespace PlanFlow
namespace Emitter
namespace Worklist

/-- The operations of a whole life, before the first round. -/
def initial (operations : List Operation) : Worklist := ⟨operations, [], default, .start, []⟩

/-- The states that rounds lead to from some operations, and what the rounds emitted in order. -/
inductive Run (p : Plan) (settings : Settings) (operations : List Operation) :
    List Event → Worklist → Prop
  | nil : Run p settings operations [] (initial operations)
  | round {events : List Event} {event : Event} {w v : Worklist}
      (hrun : Run p settings operations events w)
      (hround : w.advance p settings = some (event, v)) :
      Run p settings operations (events ++ [event]) v

/-- The ids of the loops that were entered. -/
def enteredIds (events : List Event) : List String := (events.filterMap Event.loop?).map Loop.id

/-- What every run keeps: the emission is what the rounds emitted, no loop was entered twice, and
every round was paid for. -/
structure Kept (p : Plan) (operations : List Operation) (events : List Event) (w : Worklist) :
    Prop where
  steps : w.emission.steps = events.flatMap Event.steps
  loops : w.emission.loops = (enteredIds events).reverse
  nodup : (enteredIds events).Nodup
  apt : ∀ event ∈ events, event.Apt
  within : w.Within p
  length_le : events.length + w.toCome p ≤ (initial operations).toCome p

theorem kept_initial (p : Plan) (operations : List Operation) :
    Kept p operations [] (initial operations) where
  steps := rfl
  loops := rfl
  nodup := .nil
  apt := nofun
  within _ htask := absurd htask List.not_mem_nil
  length_le := Nat.le_of_eq (Nat.zero_add _)

section Runs

variable {p : Plan} {settings : Settings} {operations : List Operation} {events : List Event}
variable {event : Event} {w v : Worklist}

theorem enteredIds_round (events : List Event) (event : Event) :
    enteredIds (events ++ [event]) = enteredIds events ++ (event.loop?.map Loop.id).toList := by
  cases hloop : event.loop? <;> simp [enteredIds, hloop]

theorem Kept.round (h : Kept p operations events w)
    (hround : w.advance p settings = some (event, v)) :
    Kept p operations (events ++ [event]) v := by
  have hturn := advance_turn h.within hround
  refine ⟨?_, ?_, ?_, ?_, hturn.within, ?_⟩
  · rw [hturn.steps, h.steps, List.flatMap_append, List.flatMap_singleton]
  · rw [hturn.loops, h.loops, enteredIds_round, List.reverse_append]
    cases event.loop? <;> rfl
  · rw [enteredIds_round, List.nodup_append]
    refine ⟨h.nodup, by cases event.loop? <;> simp, ?_⟩
    -- What is entered now was not marked, and all that was entered before is.
    rintro id hid _ hnow rfl
    obtain ⟨l, hl, rfl⟩ := Option.map_eq_some_iff.mp (Option.mem_toList.mp hnow)
    refine hturn.fresh l hl ?_
    rw [h.loops, List.mem_reverse]
    exact hid
  · rw [List.forall_mem_append, List.forall_mem_singleton]
    exact ⟨h.apt, hturn.apt⟩
  · have hless : v.toCome p < w.toCome p := hturn.toCome
    have hlength := h.length_le
    rw [List.length_append, List.length_singleton]
    omega

theorem kept_of_run (h : Run p settings operations events w) : Kept p operations events w := by
  induction h with
  | nil => exact kept_initial p operations
  | round _ hround ih => exact ih.round hround

/-- A run goes on until nothing is left to do, and no error is forgotten. -/
theorem exists_run_over (hrun : Run p settings operations events w) :
    ∃ more v, Run p settings operations (events ++ more) v ∧ v.IsOver ∧ w.errors <+: v.errors := by
  induction hcome : w.toCome p using Nat.strong_induction_on generalizing events w with
  | _ n ih =>
    rcases hround : w.advance p settings with _ | ⟨event, v⟩
    · refine ⟨[], w, ?_, advance_eq_none_iff.mp hround, List.prefix_refl _⟩
      rwa [List.append_nil]
    · have hturn := advance_turn (kept_of_run hrun).within hround
      obtain ⟨more, u, hmore, hover, herrors⟩ :=
        ih _ (hcome ▸ hturn.toCome) (hrun.round hround) rfl
      refine ⟨event :: more, u, ?_, hover, hturn.errors.trans herrors⟩
      rwa [List.append_assoc] at hmore

theorem reaches_of_run (h : Run p settings operations events w) :
    Reaches p settings (initial operations) w := by
  induction h with
  | nil => exact .refl
  | round _ hround ih => exact ih.tail ⟨_, hround⟩

theorem exists_run_of_reaches (h : Reaches p settings (initial operations) w) :
    ∃ events, Run p settings operations events w := by
  induction h with
  | refl => exact ⟨[], .nil⟩
  | tail _ hround ih =>
      obtain ⟨events, hrun⟩ := ih
      obtain ⟨event, hround⟩ := hround
      exact ⟨_, hrun.round hround⟩

/-- The first error stays the first. -/
theorem outcome_eq_of_prefix {α : Type} (a : α) (hfailed : w.errors ≠ [])
    (h : w.errors <+: v.errors) : v.outcome a = w.outcome a := by
  obtain ⟨others, hothers⟩ := h
  obtain ⟨error, errors, herrors⟩ := List.exists_cons_of_ne_nil hfailed
  rw [outcome, outcome, ← hothers, herrors]
  rfl

/-- In the end a run says what the emitters of the operations give. -/
theorem outcome_of_isOver (hrun : Run p settings operations events w) (hover : w.IsOver) :
    (operations.forM (Operation.emit p settings)).run .start = w.outcome () := by
  obtain ⟨v, hreaches, hends, heq⟩ :=
    operations_comeTo p settings (w := initial []) operations rfl rfl
  rw [show Emission.start = (initial []).emission from rfl, heq]
  rcases hends with hover' | hfailed
  · rw [eq_of_reaches hreaches (reaches_of_run hrun) hover' hover]
  · obtain ⟨_, hrun'⟩ := exists_run_of_reaches hreaches
    obtain ⟨_, u, hmore, hover', herrors⟩ := exists_run_over hrun'
    rw [eq_of_reaches (reaches_of_run hrun) (reaches_of_run hmore) hover hover',
      outcome_eq_of_prefix () hfailed herrors]

end Runs

/-- The steps of loops that a round emits are those of the loop that it enters. -/
theorem ids_own_sublist {event : Event} (h : event.Apt) :
    ((event.own.filter fun s => s.work.kind = "loop").map Step.id).Sublist
      (event.loop?.map Loop.stepId).toList := by
  cases event with
  | given s => exact List.nil_sublist _
  | emitted steps =>
      have hnone : (steps.filter fun s => s.work.kind = "loop") = [] :=
        List.filter_eq_nil_iff.mpr fun s hs => by simpa using h s hs
      rw [Event.own, hnone]
      exact List.nil_sublist _
  | entered l s =>
      rcases s with _ | s
      · exact List.nil_sublist _
      · have hid : s.id = l.stepId := h s rfl
        have hsub : ([s].filter fun s => s.work.kind = "loop").Sublist [s] := List.filter_sublist
        have hids := hsub.map Step.id
        rwa [List.map_singleton, hid] at hids

theorem ids_loops_sublist {events : List Event} (h : ∀ event ∈ events, event.Apt) :
    (((events.flatMap Event.own).filter fun s => s.work.kind = "loop").map Step.id).Sublist
      ((events.filterMap Event.loop?).map Loop.stepId) := by
  induction events with
  | nil => exact .slnil
  | cons event rest ih =>
      rw [List.forall_mem_cons] at h
      have hcons : ((event :: rest).filterMap Event.loop?).map Loop.stepId =
          (event.loop?.map Loop.stepId).toList ++
            (rest.filterMap Event.loop?).map Loop.stepId := by
        cases hloop : event.loop? <;> simp [hloop]
      rw [List.flatMap_cons, List.filter_append, List.map_append, hcons]
      exact (ids_own_sublist h.1).append (ih h.2)

/-- The step of every loop is emitted once at most. -/
theorem Kept.nodup_ids {p : Plan} {operations : List Operation} {events : List Event}
    {w : Worklist} (h : Kept p operations events w) :
    (((events.flatMap Event.own).filter fun s => s.work.kind = "loop").map Step.id).Nodup := by
  have hinjective : Function.Injective ("loop_" ++ · : String → String) :=
    fun _ _ => String.append_right_inj _ |>.mp
  have hids : (events.filterMap Event.loop?).map Loop.stepId =
      (enteredIds events).map ("loop_" ++ ·) := (List.map_map ..).symm
  refine (ids_loops_sublist h.apt).nodup ?_
  rw [hids]
  exact h.nodup.map hinjective

/-- All that operations and loops may ever lead to. -/
theorem toCome_initial (p : Plan) (operations : List Operation) :
    (initial operations).toCome p =
      (operations.map (Operation.cost p)).sum + (p.loops.map (bodyCost p)).sum := by
  have hunmarked : Emission.start.unmarked p = p.loops := List.filter_eq_self.mpr fun _ _ => rfl
  rw [toCome, initial, loopCosts, hunmarked, Task.costs_nil, Nat.add_zero]

end Worklist

/-- Whatever a plan refers to, and whatever is asked of the emission in whichever order: emitting
the loops over some data is emitting each that is not marked, and again all loops over what its body
emits, without any bound.  It ends after no more rounds than the operations and the bodies of all
loops cost, and in the end the rounds say what the emitters give.  All along, no loop is entered
twice and the step of no loop is emitted twice, be it from the body of another loop, from its own,
or when the loops whose turn never came are emitted. -/
theorem rounds_end_and_enter_once (p : Plan) (settings : Settings)
    (operations : List Operation) :
    (∀ id output, allLoopsOver p id output =
      (p.loops.filter fun l => l.iterateOver == id).foldlM
        (emitUnlessMarked p (allLoopsOver p) output) output) ∧
    ∀ events w, Worklist.Run p settings operations events w →
      events.length ≤
        (operations.map (Operation.cost p)).sum + (p.loops.map (bodyCost p)).sum ∧
      (∃ more v, Worklist.Run p settings operations (events ++ more) v ∧ v.IsOver) ∧
      (w.IsOver → (operations.forM (Operation.emit p settings)).run .start = w.outcome ()) ∧
      w.emission.steps = events.flatMap Event.steps ∧
      w.emission.loops.reverse = (events.filterMap Event.loop?).map Loop.id ∧
      ((events.filterMap Event.loop?).map Loop.id).Nodup ∧
      (((events.flatMap Event.own).filter fun s => s.work.kind = "loop").map Step.id).Nodup := by
  refine ⟨allLoopsOver_eq p, fun events w hrun => ?_⟩
  have hkept := Worklist.kept_of_run hrun
  obtain ⟨more, v, hmore, hover, -⟩ := Worklist.exists_run_over hrun
  refine ⟨?_, ⟨more, v, hmore, hover⟩, Worklist.outcome_of_isOver hrun, hkept.steps, ?_,
    hkept.nodup, hkept.nodup_ids⟩
  · rw [← Worklist.toCome_initial]
    exact (Nat.le_add_right _ _).trans hkept.length_le
  · rw [hkept.loops, List.reverse_reverse]
    rfl

/-- The loops over the two tasks are in each other's bodies, one id is that of two loops, one loop
is over itself, and the body of another one mentions what is not there. -/
def tangledPlan : Plan :=
  { (default : Plan) with
    sources := [{ (default : Source) with id := "orders", kind := .webhook }]
    aiTasks := [{ (default : AiTask) with id := "tag" }, { (default : AiTask) with id := "rate" }]
    loops := [⟨"each", "orders", "order", ["tag", "rate"], none, none⟩,
      ⟨"inner", "tag", "tagged", ["rate"], none, none⟩,
      ⟨"outer", "rate", "rated", ["tag"], none, none⟩,
      ⟨"inner", "orders", "order", [], none, none⟩,
      ⟨"own", "own", "item", [], none, none⟩,
      ⟨"lost", "own", "item", ["nowhere"], none, none⟩] }

/-- Ingestion enters the loops over the tasks from the body of the first loop, each of them once.
In the end it is the loop with the dangling member that fails. -/
theorem rounds_end_and_enter_once_tangledPlan :
    (∃ events w, Worklist.Run tangledPlan default [.ingest] events w ∧ w.IsOver ∧
      (events.filterMap Event.loop?).map Loop.id = ["each", "inner", "outer"]) ∧
      ∃ events w, Worklist.Run tangledPlan default [.ingest, .finish] events w ∧ w.IsOver ∧
        events.length ≤ 57 ∧ w.outcome () = .error (.unknownReference "compiler" "nowhere") := by
  obtain ⟨-, hingest⟩ := rounds_end_and_enter_once tangledPlan default [.ingest]
  obtain ⟨-, hlife⟩ := rounds_end_and_enter_once tangledPlan default [.ingest, .finish]
  constructor
  · obtain ⟨-, ⟨events, w, hrun, hover⟩, -⟩ := hingest [] _ .nil
    obtain ⟨-, -, hends, -, hentered, -⟩ := hingest _ w hrun
    have hmarks : (([Operation.ingest].forM (Operation.emit tangledPlan default)).run .start).map
        (fun r => r.2.loops) = .ok ["outer", "inner", "each"] := rfl
    refine ⟨_, w, hrun, hover, ?_⟩
    rw [hends hover, Worklist.outcome] at hmarks
    split at hmarks
    · have hloops : w.emission.loops = ["outer", "inner", "each"] := Except.ok.inj hmarks
      rw [← hentered, hloops]
      rfl
    · cases hmarks
  · obtain ⟨-, ⟨events, w, hrun, hover⟩, -⟩ := hlife [] _ .nil
    obtain ⟨hlength, -, hends, -⟩ := hlife _ w hrun
    exact ⟨_, w, hrun, hover, hlength, (hends hover).symm⟩

end Emitter
end PlanFlow
