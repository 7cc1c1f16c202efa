import PlanFlow.Graph.Basic

/-!
# The order of a step graph

The nodes are taken from a queue, which first holds the nodes that wait for nothing, in order.  When
a node is taken, every node that waits for it has one dependency less; those with none left join the
queue.  The order covers the graph unless the graph has a cycle.
-/

namespace PlanFlow
namespace StepGraph

/-- One dependency less for each of the dependents, and those of them that have none left. -/
def release (degrees : List Nat) : List Nat → List Nat × List Nat
  | [] => (degrees, [])
  | d :: rest =>
    match degrees[d]? with
    | some 1 =>
      let (degrees, ready) := release (degrees.set d 0) rest
      (degrees, d :: ready)
    | some (k + 2) => release (degrees.set d (k + 1)) rest
    | some 0 | none => release degrees rest

/-- The sum of a list in which one member was replaced. -/
theorem total_set_add (l : List Nat) (i a b : Nat) (h : l[i]? = some a) :
    total (l.set i b) + a = total l + b := by
  induction l generalizing i with
  | nil => simp at h
  | cons x xs ih =>
    cases i with
    | zero => simp at h; subst h; simp [total]; omega
    | succ i => simp at h; have := ih i h; simp [total]; omega

/-- Every node that becomes ready uses up a dependency. -/
theorem total_release_add_length_le (degrees dependents : List Nat) :
    total (release degrees dependents).1 + (release degrees dependents).2.length ≤
      total degrees := by
  induction dependents generalizing degrees with
  | nil => simp [release]
  | cons d rest ih =>
    unfold release
    split
    · rename_i h
      have := ih (degrees.set d 0)
      have := total_set_add degrees d 1 0 h
      simp only [List.length_cons]
      omega
    · rename_i k h
      have := ih (degrees.set d (k + 1))
      have := total_set_add degrees d (k + 2) (k + 1) h
      omega
    · exact ih degrees
    · exact ih degrees

/-- The nodes in the order in which they are taken from the queue. -/
def takeAll (g : StepGraph) (degrees : List Nat) : List Nat → List Nat
  | [] => []
  | node :: queue =>
    node :: takeAll g (release degrees (g.dependentsAt node)).1
      (queue ++ (release degrees (g.dependentsAt node)).2)
termination_by queue => total degrees + queue.length
decreasing_by
  have := total_release_add_length_le degrees (g.dependentsAt node)
  simp only [List.length_append, List.length_cons]
  omega

/-- How many dependencies each node has. -/
def degrees (g : StepGraph) : List Nat := g.nodes.map fun n => n.dependencies.length

/-- The nodes that wait for nothing. -/
def roots (g : StepGraph) : List Nat :=
  g.positions.filter fun i => (g.dependenciesAt i).isEmpty

/-- The order of the nodes, as far as it goes. -/
def order (g : StepGraph) : List Nat := g.takeAll g.degrees g.roots

/-- The number of steps of the longest chain that ends at each node, and the node before the last
one on that chain. -/
structure Chains where
  lengths : List Nat
  previous : List (Option Nat)
  deriving DecidableEq

namespace Chains

/-- The length of the chain that ends at a node. -/
def lengthAt (c : Chains) (node : Nat) : Nat := c.lengths[node]?.getD 0

/-- The depth of a node: the number of edges of its chain. -/
def depthAt (c : Chains) (node : Nat) : Nat := c.lengthAt node - 1

/-- The node with the longer chain; of two equally long ones the first. -/
def longer (c : Chains) (best : Option Nat) (node : Nat) : Option Nat :=
  match best with
  | none => some node
  | some b => if c.lengthAt node ≤ c.lengthAt b then some b else some node

/-- The first node of a list whose chain is longest. -/
def longest (c : Chains) (nodes : List Nat) : Option Nat := nodes.foldl c.longer none

/-- Settles a node, all of whose dependencies are settled. -/
def settle (g : StepGraph) (c : Chains) (node : Nat) : Chains :=
  let best := c.longest (g.dependenciesAt node)
  let length := match best with
    | none => 1
    | some b => c.lengthAt b + 1
  ⟨c.lengths.set node length, c.previous.set node best⟩

/-- The chains of a graph whose nodes are settled in an order. -/
def ofOrder (g : StepGraph) (order : List Nat) : Chains :=
  order.foldl (settle g) ⟨List.replicate g.size 0, List.replicate g.size none⟩

/-- The last `count` nodes of the chain that ends at a node. -/
def endingAt (c : Chains) : Nat → Nat → List Nat
  | 0, _ => []
  | count + 1, node =>
    (match c.previous[node]?.join with
      | none => []
      | some before => endingAt c count before) ++ [node]

/-- The longest chain of all, the first in the order that is as long. -/
def critical (c : Chains) (order : List Nat) : List Nat :=
  match c.longest order with
  | none => []
  | some last => c.endingAt (c.lengthAt last) last

end Chains
end StepGraph
end PlanFlow
