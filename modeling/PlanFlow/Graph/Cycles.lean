import PlanFlow.Graph.Basic

/-!
# Cycles of a step graph

A depth-first search from every node follows the edges in the direction of execution, from a node to
those that wait for it.  The nodes on the path from the root stand in the open frames, each with the
edges that are still to be followed.  An edge back to a node on the path closes a cycle, and every
such edge gives one.
-/

namespace PlanFlow
namespace StepGraph

/-- A node on the path of the search, and the edges from it that are still to be followed. -/
structure Frame where
  node : Nat
  next : List Nat
  deriving DecidableEq

/-- The state of the search: the nodes that were not entered yet, the path from its last node back
to the root, and the cycles that were found, in order. -/
structure Search where
  fresh : List Nat
  frames : List Frame
  found : List (List Nat)
  deriving DecidableEq

namespace Search

/-- The edges and nodes that the open frames still have to finish. -/
def pending (frames : List Frame) : Nat := total (frames.map fun f => f.next.length + 1)

/-- The cycle that an edge back to a node closes: the path from that node on, and the node again. -/
def cycleThrough (frames : List Frame) (node : Nat) : List Nat :=
  node :: ((frames.map Frame.node).takeWhile (· != node)).reverse ++ [node]

/-- Whether a node is on the path. -/
def onPath (frames : List Frame) (node : Nat) : Bool := (frames.map Frame.node).contains node

end Search

/-- Enters a node that was not entered yet. -/
def enter (g : StepGraph) (s : Search) (node : Nat) : Search :=
  { s with fresh := s.fresh.erase node, frames := ⟨node, g.dependentsAt node⟩ :: s.frames }

/-- Follows edges until no frame is open. -/
def explore (g : StepGraph) (s : Search) : Search :=
  match _frames : s.frames with
  | [] => s
  | ⟨_, []⟩ :: rest => explore g { s with frames := rest }
  | ⟨node, next :: more⟩ :: rest =>
    let moved : Search := { s with frames := ⟨node, more⟩ :: rest }
    if Search.onPath s.frames next then
      explore g { moved with found := s.found ++ [Search.cycleThrough s.frames next] }
    else if _fresh : next ∈ s.fresh then
      explore g (g.enter moved next)
    else explore g moved
termination_by (s.fresh.length, Search.pending s.frames)
decreasing_by
  · simp [_frames, Search.pending, total, Prod.lex_def]
  · simp [_frames, Search.pending, total, Prod.lex_def]
  · have := List.length_pos_of_mem _fresh
    simp [enter, Prod.lex_def, List.length_erase_of_mem _fresh]
    omega
  · simp [_frames, Search.pending, total, Prod.lex_def]

/-- Searches from every node that was not entered before. -/
def exploreFrom (g : StepGraph) (s : Search) : List Nat → Search
  | [] => s
  | root :: rest =>
    if s.fresh.contains root then exploreFrom g (g.explore (g.enter s root)) rest
    else exploreFrom g s rest

/-- The cycles of the graph as positions, each closed by its first node. -/
def cyclePositions (g : StepGraph) : List (List Nat) :=
  (g.exploreFrom ⟨g.positions, [], []⟩ g.positions).found

/-- The cycles of the graph as ids, each closed by its first id. -/
def cycles (g : StepGraph) : List (List String) :=
  g.cyclePositions.map fun path => path.map g.idAt

/-- The cycles of a list of steps; its other defects do not matter. -/
def cyclesOf (steps : List Step) : List (List String) := (ofSteps steps).cycles

end StepGraph
end PlanFlow
