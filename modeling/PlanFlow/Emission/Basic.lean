import PlanFlow.Diagnosis.Basic
import PlanFlow.Emission.Part
import PlanFlow.Settings

/-!
# Emitting steps

An emission is the state of turning a plan into steps: the steps so far, the loops that were
emitted, and the lookup sources that records were already checked against.  An emitter changes it,
or gives up with an error.

Loops are emitted where the part that they iterate over is emitted, and those whose turn never came
at the end.  The body of a loop may hold parts that other loops iterate over, so emission recurses
through references of the plan, which may be circular.  A loop is marked before its body is visited
and is never emitted again; the recursion is bounded by the number of loops that are left.
-/

namespace PlanFlow

/-- The state of turning a plan into steps. -/
structure Emission where
  steps : List Step
  loops : List String
  checked : List String
  deriving Inhabited

/-- A change of an emission with a result, or an error. -/
abbrev Emitter := StateT Emission (Except PlanError)

namespace Emission

/-- Nothing has been emitted. -/
def start : Emission := ⟨[], [], []⟩

/-- The emission with one more step. -/
def addStep (e : Emission) (s : Step) : Emission := { e with steps := e.steps ++ [s] }

/-- The emission with a loop marked as emitted. -/
def addLoop (e : Emission) (id : String) : Emission := { e with loops := id :: e.loops }

end Emission

namespace Emitter

/-- Emits a step. -/
def push (s : Step) : Emitter Unit := modify fun e => e.addStep s

/-- Gives up. -/
def fail {α : Type} (error : PlanError) : Emitter α := throw error

/-- The value that is there, or an error. -/
def require {α : Type} (error : PlanError) : Option α → Emitter α
  | some a => pure a
  | none => fail error

/-- Where the data of an id of the plan will be found. -/
def locate (p : Plan) (referrer id : String) : Emitter Handle :=
  require (.unknownReference referrer id) (p.location? id)

/-- The input of a part and its dependencies.  What the part depends on replaces the chain that it
stands in; inside the body of a loop it also waits for the chain. -/
def inputOf (p : Plan) (part : Part) (chain : Handle) : Emitter (Handle × List String) := do
  let (input, dependencies) ←
    match part.dependsOn with
    | [] => pure (chain, chain.dependencies)
    | first :: others => do
      let input ← locate p part.id first
      let inputs ← others.mapM (locate p part.id)
      pure (input, (input :: inputs).flatMap Handle.dependencies)
  let dependencies :=
    if p.inBody part.id then dependencies ++ chain.dependencies else dependencies
  pure (input, dependencies.eraseDups)

/-- Emits the step of a part, and the loops over it by `loopsOver`. -/
def emitPart (p : Plan) (loopsOver : String → Handle → Emitter Handle) (part : Part)
    (chain : Handle) : Emitter Handle := do
  let (input, dependencies) ← inputOf p part chain
  push (part.step input dependencies)
  loopsOver part.id (.ofStep part.stepId)

/-- The id of the step of a member of a loop's body. -/
def memberId (p : Plan) (member : String) : Emitter String := do
  let handle ← locate p "compiler" member
  pure (handle.step.getD member)

/-- Emits a loop over some data, and its body. -/
def emitLoop (p : Plan) (loopsOver : String → Handle → Emitter Handle) (l : Loop)
    (rows : Handle) : Emitter Handle := do
  modify fun e => e.addLoop l.id
  let body ← l.body.mapM (memberId p)
  push ⟨l.stepId, "For each " ++ l.itemName, rows.dependencies,
    .loop rows.reference l.itemName body l.maxIterations l.maxConcurrency⟩
  let _ ← l.body.foldlM (fun item member => do
      let part ← require (.unknownReference l.id member) (p.part? member)
      emitPart p loopsOver part item) (Handle.ofItem l.stepId l.itemName)
  pure (.ofStep l.stepId)

/-- Emits the loops over an id that were not emitted yet, of which at most so many are left.  The
result is that of the last one, or the data that was looped over. -/
def loopsOver (p : Plan) : Nat → String → Handle → Emitter Handle
  | 0, _, output => pure output
  | left + 1, id, output =>
    (p.loops.filter fun l => l.iterateOver == id).foldlM (fun result l => do
      if (← get).loops.contains l.id then pure result
      else emitLoop p (loopsOver p left) l output) output

/-- Emits the loops over an id that were not emitted yet. -/
def allLoopsOver (p : Plan) : String → Handle → Emitter Handle := loopsOver p p.loops.length

/-- Emits parts one after the other, each on the data of the one before. -/
def emitChain (p : Plan) (parts : List Part) (rows : Handle) : Emitter Handle :=
  parts.foldlM (fun rows part => emitPart p (allLoopsOver p) part rows) rows

end Emitter
end PlanFlow
