import PlanFlow.Proofs.Rule.Deliveries
import PlanFlow.Proofs.Rule.StepIds

/-!
# Bodies wait in turn

A runtime goes through the body of a loop once for every item, so no step of the body may run before
the loop has started, or before the steps that stand ahead of it in the body.  By every built-in
rule the steps wait for these, although a part may name other data as its input and loops may run
over what the parts of the body produce.
-/

namespace PlanFlow
namespace Rule

/-- If a plan has no errors, then by every built-in rule that accepts the plan the step of each loop
is emitted, and so are steps of all that its body lists.  Each of these waits, directly or through
others, for the step of the loop, and for every one that stands before it in the body. -/
theorem bodies_wait_in_turn {p : Plan} {settings : Settings} (hvalid : p.errors settings = [])
    {r : Rule} (hr : r ∈ builtIn) (haccepts : r.accepts p = true) :
    ∃ steps, r.steps p settings = .ok steps ∧ ∀ l ∈ p.loops,
      (∃ rows, p.loopStep l rows ∈ steps) ∧
      (p.bodyParts l).map Part.id = l.body ∧
      ∃ members, members ⊆ steps ∧ members.map Step.id = (p.bodyParts l).map Part.stepId ∧
        (∀ s ∈ members, Upstream steps s.dependencies l.stepId) ∧
        members.Pairwise fun a b => Upstream steps b.dependencies a.id := by
  have hp := Plan.sound_of_errors hvalid
  obtain ⟨_, _, steps, -, hsteps, -, -, hwired⟩ :=
    exists_steps_wired hp hr haccepts (emitParts_wires settings hp)
  refine ⟨steps, hsteps, fun l hl => ?_⟩
  obtain ⟨rows, -, hstep⟩ := (hwired l hl).step
  obtain ⟨members, hmembers⟩ := (hwired l hl).members
  refine ⟨⟨rows, hstep⟩, Plan.map_id_bodyParts hp hl, members, hmembers.subset, hmembers.map_id,
    fun s hs => ?_, hmembers.before⟩
  exact hmembers.source s hs l.stepId (List.mem_singleton_self _)

/-- The plan for orders in which each open order is read and answered.  The answer names the open
orders as its input, and a loop runs over the mood that stands before it in the body. -/
def answeredOrdersPlan : Plan :=
  { chainedOrdersPlan with
    aiTasks := [⟨"mood", .sentiment, "Read the mood", none, none, [], []⟩,
      ⟨"reply", .generate, "Answer the order", none, none, [], ["open"]⟩]
    loops := [⟨"each", "open", "order", ["mood", "reply"], none, none⟩,
      ⟨"again", "mood", "result", [], none, none⟩, ⟨"last", "open", "order", [], none, none⟩] }

theorem bodies_wait_in_turn_answeredOrdersPlan :
    answeredOrdersPlan.errors default = [] ∧ routed ∈ builtIn ∧
      routed.accepts answeredOrdersPlan = true ∧
      ∃ steps, routed.steps answeredOrdersPlan default = .ok steps ∧
        ∃ mood ∈ steps, ∃ reply ∈ steps, mood.id = "ai_mood" ∧ reply.id = "ai_reply" ∧
          Upstream steps mood.dependencies "loop_each" ∧
          Upstream steps reply.dependencies "loop_each" ∧
          Upstream steps reply.dependencies "ai_mood" := by
  have hvalid : answeredOrdersPlan.errors default = [] := by decide
  have hmem : routed ∈ builtIn := by simp [builtIn]
  have haccepts : routed.accepts answeredOrdersPlan = true := rfl
  obtain ⟨steps, hsteps, hall⟩ := bodies_wait_in_turn hvalid hmem haccepts
  obtain ⟨-, -, members, hsub, hids, hloop, hbefore⟩ := hall _ List.mem_cons_self
  replace hids : members.map Step.id = ["ai_mood", "ai_reply"] := hids.trans (by decide)
  obtain ⟨mood, rest, rfl, hmood, hrest⟩ := List.map_eq_cons_iff.mp hids
  obtain ⟨reply, others, rfl, hreply, -⟩ := List.map_eq_cons_iff.mp hrest
  have hreplyMem : reply ∈ mood :: reply :: others := by simp
  refine ⟨hvalid, hmem, haccepts, steps, hsteps, mood, hsub List.mem_cons_self, reply,
    hsub hreplyMem, hmood, hreply, hloop mood List.mem_cons_self, hloop reply hreplyMem, ?_⟩
  exact hmood ▸ (List.pairwise_cons.mp hbefore).1 reply List.mem_cons_self

end Rule
end PlanFlow
