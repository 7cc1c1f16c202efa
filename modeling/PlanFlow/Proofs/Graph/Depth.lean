import PlanFlow.Proofs.Graph.Order

/-!
# The depth of the nodes of a step graph

The nodes are settled in an order in which each comes after its dependencies.  Settling a node
leaves the lengths of all others as they are, so throughout the run the length of a settled node is
one more than the largest length of its dependencies.  Hence the depth of a node is zero if it waits
for nothing, and otherwise one more than the depth of the deepest node that it waits for.
-/

namespace PlanFlow
namespace StepGraph

/-- The first member of a list at which a value is largest. -/
def FirstMax {α : Type} (f : α → Nat) (l : List α) (a : α) : Prop :=
  ∃ before after, l = before ++ a :: after ∧ (∀ b ∈ before, f b < f a) ∧ ∀ b ∈ after, f b ≤ f a

namespace FirstMax

variable {α : Type} {f : α → Nat} {l : List α} {a : α}

theorem mem (h : FirstMax f l a) : a ∈ l := by
  obtain ⟨before, after, rfl, -⟩ := h
  exact List.mem_append_right _ List.mem_cons_self

theorem le (h : FirstMax f l a) {b : α} (hb : b ∈ l) : f b ≤ f a := by
  obtain ⟨before, after, rfl, hbefore, hafter⟩ := h
  rcases List.mem_append.mp hb with hb | hb
  · exact (hbefore b hb).le
  · rcases List.mem_cons.mp hb with rfl | hb
    · exact le_rfl
    · exact hafter b hb

end FirstMax

namespace Chains

variable {c : Chains}

/-- A list of nodes has a longest one unless it is empty, and of those that are as long it is the
first. -/
theorem longest_spec (c : Chains) (nodes : List Nat) :
    match c.longest nodes with
    | none => nodes = []
    | some b => FirstMax c.lengthAt nodes b := by
  induction nodes using List.reverseRecOn with
  | nil => rfl
  | append_singleton before i ih =>
      have hstep : c.longest (before ++ [i]) = c.longer (c.longest before) i := by
        rw [longest, List.foldl_append]
        rfl
      rw [hstep]
      cases hbest : c.longest before with
      | none =>
          rw [hbest] at ih
          subst ih
          exact ⟨[], [], rfl, nofun, nofun⟩
      | some b =>
          rw [hbest] at ih
          obtain ⟨front, back, rfl, hfront, hback⟩ := ih
          by_cases hle : c.lengthAt i ≤ c.lengthAt b
          · simp only [longer, if_pos hle]
            refine ⟨front, back ++ [i], by simp, hfront, ?_⟩
            rw [List.forall_mem_append, List.forall_mem_singleton]
            exact ⟨hback, hle⟩
          · simp only [longer, if_neg hle]
            refine ⟨front ++ b :: back, [], rfl, ?_, nofun⟩
            rw [List.forall_mem_append, List.forall_mem_cons]
            refine ⟨fun j hj => ?_, by omega, fun j hj => ?_⟩
            · have := hfront j hj
              omega
            · have := hback j hj
              omega

/-- Which node is longest depends on the lengths of the nodes alone. -/
theorem longest_congr {c' : Chains} {nodes : List Nat}
    (h : ∀ i ∈ nodes, c'.lengthAt i = c.lengthAt i) : c'.longest nodes = c.longest nodes := by
  induction nodes using List.reverseRecOn with
  | nil => rfl
  | append_singleton before i ih =>
      rw [List.forall_mem_append, List.forall_mem_singleton] at h
      have hstep : ∀ c : Chains, c.longest (before ++ [i]) = c.longer (c.longest before) i := by
        intro c
        rw [longest, List.foldl_append]
        rfl
      rw [hstep, hstep, ih h.1]
      cases hbest : c.longest before with
      | none => rfl
      | some b =>
          have hb := longest_spec c before
          rw [hbest] at hb
          simp only [longer, h.2, h.1 b hb.mem]

/-- The length at a node is one more than the largest length of its dependencies. -/
def LengthOk (g : StepGraph) (c : Chains) (i : Nat) : Prop :=
  (g.dependenciesAt i = [] ∧ c.lengthAt i = 1) ∨
    ∃ d ∈ g.dependenciesAt i, c.lengthAt i = c.lengthAt d + 1 ∧
      ∀ d' ∈ g.dependenciesAt i, c.lengthAt d' ≤ c.lengthAt d

/-- What holds while the nodes are settled: the settled ones come with their dependencies, and their
lengths are right. -/
structure Settled (g : StepGraph) (taken : List Nat) (c : Chains) : Prop where
  size : c.lengths.length = g.size
  closed : ∀ i ∈ taken, ∀ d ∈ g.dependenciesAt i, d ∈ taken
  length : ∀ i ∈ taken, LengthOk g c i

/-- Settling a node changes the length of no other. -/
theorem lengthAt_settle_of_ne {g : StepGraph} {node i : Nat} (h : i ≠ node) :
    (settle g c node).lengthAt i = c.lengthAt i := by
  rw [lengthAt, settle, List.getElem?_set_ne (Ne.symm h), lengthAt]

theorem lengthAt_settle_self {g : StepGraph} {node : Nat} (h : node < c.lengths.length) :
    (settle g c node).lengthAt node =
      match c.longest (g.dependenciesAt node) with
      | none => 1
      | some b => c.lengthAt b + 1 := by
  exact congrArg (fun length => length.getD 0) (List.getElem?_set_self h)

/-- What is said of a node depends on the lengths of the node and its dependencies. -/
theorem LengthOk.congr {g : StepGraph} {c c' : Chains} {i : Nat} (h : LengthOk g c i)
    (hself : c'.lengthAt i = c.lengthAt i)
    (hdeps : ∀ d ∈ g.dependenciesAt i, c'.lengthAt d = c.lengthAt d) : LengthOk g c' i := by
  rcases h with ⟨hnone, hone⟩ | ⟨d, hd, hlength, hmax⟩
  · exact .inl ⟨hnone, hself.trans hone⟩
  · refine .inr ⟨d, hd, by rw [hself, hdeps d hd, hlength], fun d' hd' => ?_⟩
    rw [hdeps d hd, hdeps d' hd']
    exact hmax d' hd'

theorem Settled.settle {g : StepGraph} {taken : List Nat} {node : Nat} (h : Settled g taken c)
    (hnode : node < g.size) (hnew : node ∉ taken) (hdeps : ∀ d ∈ g.dependenciesAt node, d ∈ taken) :
    Settled g (taken ++ [node]) (settle g c node) := by
  have hkeep : ∀ i ∈ taken, (Chains.settle g c node).lengthAt i = c.lengthAt i := by
    intro i hi
    exact lengthAt_settle_of_ne fun heq => hnew (heq ▸ hi)
  have hlt : node < c.lengths.length := h.size ▸ hnode
  have hself := lengthAt_settle_self (g := g) hlt
  refine ⟨?_, ?_, ?_⟩
  · rw [Chains.settle, List.length_set, h.size]
  · rw [List.forall_mem_append, List.forall_mem_singleton]
    exact ⟨fun i hi d hd => List.mem_append_left _ (h.closed i hi d hd),
      fun d hd => List.mem_append_left _ (hdeps d hd)⟩
  · rw [List.forall_mem_append, List.forall_mem_singleton]
    refine ⟨fun i hi => ?_, ?_⟩
    · exact (h.length i hi).congr (hkeep i hi) fun d hd => hkeep d (h.closed i hi d hd)
    · have hbest := longest_spec c (g.dependenciesAt node)
      cases hlongest : c.longest (g.dependenciesAt node) with
      | none =>
          rw [hlongest] at hbest hself
          exact .inl ⟨hbest, hself⟩
      | some b =>
          rw [hlongest] at hbest hself
          have hb := hbest.mem
          refine .inr ⟨b, hb, by rw [hself, hkeep b (hdeps b hb)], fun d hd => ?_⟩
          rw [hkeep b (hdeps b hb), hkeep d (hdeps d hd)]
          exact hbest.le hd

/-- What settling a new node preserves, all of whose dependencies are settled. -/
def PreservedBySettle (g : StepGraph) (P : List Nat → Chains → Prop) : Prop :=
  ∀ {taken : List Nat} {c : Chains} {node : Nat}, P taken c → node < g.size → node ∉ taken →
    (∀ d ∈ g.dependenciesAt node, d ∈ taken) → P (taken ++ [node]) (settle g c node)

/-- What settling a node preserves holds after settling a list of nodes, each of which comes after
its dependencies. -/
theorem settle_induction {g : StepGraph} {P : List Nat → Chains → Prop}
    (hstep : PreservedBySettle g P) {taken rest : List Nat} (h : P taken c)
    (hlegal : g.Legal taken rest) (hnodup : (taken ++ rest).Nodup)
    (hrest : ∀ i ∈ rest, i < g.size) : P (taken ++ rest) (rest.foldl (settle g) c) := by
  induction rest generalizing taken c with
  | nil => simpa using h
  | cons node rest ih =>
      obtain ⟨hdeps, hlegal⟩ := hlegal
      rw [List.forall_mem_cons] at hrest
      have hnew : node ∉ taken := fun hmem =>
        (List.nodup_append.mp hnodup).2.2 node hmem node List.mem_cons_self rfl
      have hsplit : taken ++ node :: rest = taken ++ [node] ++ rest := by simp
      rw [hsplit] at hnodup ⊢
      exact ih (hstep h hrest.1 hnew hdeps) hlegal hnodup hrest.2

end Chains

section Order

variable {g : StepGraph} (hg : g.Coherent) {i j : Nat}
include hg

/-- What settling a node preserves holds of the chains by which a graph is scheduled. -/
theorem chains_induction {P : List Nat → Chains → Prop}
    (hstart : P [] ⟨List.replicate g.size 0, List.replicate g.size none⟩)
    (hstep : Chains.PreservedBySettle g P) : P g.order (Chains.ofOrder g g.order) :=
  Chains.settle_induction hstep hstart (legal_order hg) (nodup_order hg) fun i hi =>
    ((mem_order_iff hg i).mp hi).1

/-- The lengths by which a graph is scheduled are right wherever the order comes. -/
theorem settled_order : Chains.Settled g g.order (Chains.ofOrder g g.order) :=
  chains_induction hg ⟨List.length_replicate, by simp, by simp⟩ Chains.Settled.settle

/-- A node that waits for nothing has depth zero. -/
theorem depthAt_eq_zero (hi : i ∈ g.order) (hnone : g.dependenciesAt i = []) :
    (Chains.ofOrder g g.order).depthAt i = 0 := by
  rcases (settled_order hg).length i hi with ⟨-, hone⟩ | ⟨d, hd, -⟩
  · rw [Chains.depthAt, hone]
  · rw [hnone] at hd
    cases hd

theorem lengthAt_pos (hi : i ∈ g.order) : 1 ≤ (Chains.ofOrder g g.order).lengthAt i := by
  rcases (settled_order hg).length i hi with ⟨-, hone⟩ | ⟨d, -, hlength, -⟩ <;> omega

/-- A node is deeper than what it waits for. -/
theorem depthAt_lt_of_edge (hedge : g.Edge i j) (hj : j ∈ g.order) :
    (Chains.ofOrder g g.order).depthAt i < (Chains.ofOrder g g.order).depthAt j := by
  have hd : i ∈ g.dependenciesAt j := (hg.edge_iff i j).mp hedge
  have hpos := lengthAt_pos hg (((mem_order_iff hg j).mp hj).2 i hd)
  rcases (settled_order hg).length j hj with ⟨hnone, -⟩ | ⟨d, -, hlength, hmax⟩
  · rw [hnone] at hd
    cases hd
  · have hle := hmax i hd
    simp only [Chains.depthAt]
    omega

/-- A node that waits for something is one deeper than the deepest node that it waits for. -/
theorem exists_depthAt_eq (hj : j ∈ g.order) (hsome : g.dependenciesAt j ≠ []) :
    ∃ i, g.Edge i j ∧
      (Chains.ofOrder g g.order).depthAt j = (Chains.ofOrder g g.order).depthAt i + 1 := by
  rcases (settled_order hg).length j hj with ⟨hnone, -⟩ | ⟨d, hd, hlength, -⟩
  · exact absurd hnone hsome
  · have hpos := lengthAt_pos hg (((mem_order_iff hg j).mp hj).2 d hd)
    refine ⟨d, (hg.edge_iff d j).mpr hd, ?_⟩
    simp only [Chains.depthAt]
    omega

/-- A node is one deeper than a node that it waits for, if it waits for no deeper one. -/
theorem depthAt_eq_succ (hj : j ∈ g.order) (hi : i ∈ g.dependenciesAt j)
    (hdeepest : ∀ d ∈ g.dependenciesAt j, (Chains.ofOrder g g.order).depthAt d ≤
      (Chains.ofOrder g g.order).depthAt i) :
    (Chains.ofOrder g g.order).depthAt j = (Chains.ofOrder g g.order).depthAt i + 1 := by
  obtain ⟨d, hedge, heq⟩ := exists_depthAt_eq hg hj (List.ne_nil_of_mem hi)
  have hle := hdeepest d ((hg.edge_iff d j).mp hedge)
  have hlt := depthAt_lt_of_edge hg ((hg.edge_iff i j).mpr hi) hj
  omega

end Order

/-! ## The order by depth -/

/-- What holds of the depths of the nodes in the queue: they ascend from those that were taken, and
lie at most one apart. -/
structure Leveled (depth : Nat → Nat) (taken queue : List Nat) : Prop where
  sorted : (taken ++ queue).Pairwise fun i j => depth i ≤ depth j
  within : ∀ i ∈ queue, ∀ j ∈ queue, depth j ≤ depth i + 1

/-- Nodes join the queue that are one deeper than the node that was taken. -/
theorem Leveled.take {depth : Nat → Nat} {taken queue ready : List Nat} {node : Nat}
    (h : Leveled depth taken (node :: queue)) (hready : ∀ i ∈ ready, depth i = depth node + 1) :
    Leveled depth (taken ++ [node]) (queue ++ ready) := by
  have hsplit : taken ++ [node] ++ (queue ++ ready) = taken ++ node :: queue ++ ready := by simp
  have hmiddle : (node :: queue).Pairwise fun i j => depth i ≤ depth j :=
    (List.pairwise_append.mp h.sorted).2.1
  have hfirst : ∀ i ∈ queue, depth node ≤ depth i := (List.pairwise_cons.mp hmiddle).1
  have hnode : ∀ i ∈ taken ++ node :: queue, depth i ≤ depth node + 1 := by
    rw [List.forall_mem_append]
    refine ⟨fun i hi => ?_, h.within node List.mem_cons_self⟩
    exact Nat.le_succ_of_le
      ((List.pairwise_append.mp h.sorted).2.2 i hi node List.mem_cons_self)
  refine ⟨?_, ?_⟩
  · rw [hsplit, List.pairwise_append]
    refine ⟨h.sorted, List.pairwise_of_forall_mem_list fun i hi j hj => ?_, fun i hi j hj => ?_⟩
    · rw [hready i hi, hready j hj]
    · rw [hready j hj]
      exact hnode i hi
  · have hlow : ∀ i ∈ queue ++ ready, depth node ≤ depth i := by
      rw [List.forall_mem_append]
      exact ⟨hfirst, fun i hi => (hready i hi).symm ▸ Nat.le_succ _⟩
    have hhigh : ∀ j ∈ queue ++ ready, depth j ≤ depth node + 1 := by
      rw [List.forall_mem_append]
      exact ⟨fun j hj => hnode j (List.mem_append_right _ (List.mem_cons_of_mem _ hj)),
        fun j hj => (hready j hj).le⟩
    exact fun i hi j hj => (hhigh j hj).trans (Nat.succ_le_succ (hlow i hi))

section ByDepth

variable {g : StepGraph} (hg : g.Coherent)
include hg

/-- What joins the queue when a node is taken is one deeper than the node. -/
theorem depthAt_ready {taken degrees queue : List Nat} {node : Nat}
    (hqueued : g.Queued taken degrees (node :: queue))
    (hleveled : Leveled (Chains.ofOrder g g.order).depthAt taken (node :: queue))
    (htaken : ∀ i ∈ taken ++ [node], i ∈ g.order) {i : Nat}
    (hi : i ∈ (release degrees (g.dependentsAt node)).2) :
    (Chains.ofOrder g g.order).depthAt i = (Chains.ofOrder g g.order).depthAt node + 1 := by
  have hdependent : i ∈ g.dependentsAt node := by
    rw [ready_release (hg.nodup_dependentsAt node)] at hi
    exact (List.mem_filter.mp hi).1
  obtain ⟨hlt, hdeps⟩ := ((hqueued.take hg).mem_iff i).mp
    (List.mem_append_right _ (List.mem_append_right _ hi))
  have horder : i ∈ g.order := (mem_order_iff hg i).mpr ⟨hlt, fun d hd => htaken d (hdeps d hd)⟩
  refine depthAt_eq_succ hg horder ((hg.edge_iff node i).mp hdependent) fun d hd => ?_
  rcases List.mem_append.mp (hdeps d hd) with hd | hd
  · exact (List.pairwise_append.mp hleveled.sorted).2.2 d hd node List.mem_cons_self
  · rw [List.mem_singleton.mp hd]

theorem Leveled.run {taken degrees queue : List Nat} (hqueued : g.Queued taken degrees queue)
    (hleveled : Leveled (Chains.ofOrder g g.order).depthAt taken queue)
    (horder : taken ++ g.takeAll degrees queue = g.order) :
    g.order.Pairwise fun i j =>
      (Chains.ofOrder g g.order).depthAt i ≤ (Chains.ofOrder g g.order).depthAt j := by
  induction degrees, queue using takeAll.induct g generalizing taken with
  -- With an empty queue the whole order was taken.
  | case1 degrees =>
      rw [takeAll] at horder
      have hsorted := hleveled.sorted
      rwa [horder] at hsorted
  | case2 degrees node queue ih =>
      rw [takeAll, List.append_cons] at horder
      have htaken : ∀ i ∈ taken ++ [node], i ∈ g.order := fun i hi => by
        rw [← horder]
        exact List.mem_append_left _ hi
      exact ih (hqueued.take hg)
        (hleveled.take fun i hi => depthAt_ready hg hqueued hleveled htaken hi) horder

/-- The order never goes back to a lower depth. -/
theorem order_pairwise_depthAt :
    g.order.Pairwise fun i j =>
      (Chains.ofOrder g g.order).depthAt i ≤ (Chains.ofOrder g g.order).depthAt j := by
  have hroots : ∀ i ∈ g.roots, (Chains.ofOrder g g.order).depthAt i = 0 := by
    intro i hi
    obtain ⟨hlt, hnone⟩ := List.mem_filter.mp hi
    rw [List.isEmpty_iff] at hnone
    refine depthAt_eq_zero hg ((mem_order_iff hg i).mpr ⟨mem_positions.mp hlt, ?_⟩) hnone
    rw [hnone]
    exact fun d => nofun
  refine Leveled.run hg g.queued_start ⟨?_, fun i hi j hj => ?_⟩ rfl
  · exact List.pairwise_of_forall_mem_list fun i hi j hj => by rw [hroots i hi, hroots j hj]
  · rw [hroots i hi, hroots j hj]
    exact Nat.zero_le _

end ByDepth
end StepGraph
end PlanFlow
