import Mathlib.Data.Fintype.EquivFin
import Mathlib.Data.List.Perm.Basic
import PlanFlow.Graph.Order
import PlanFlow.Proofs.Graph.Edges

/-!
# The order of a step graph

While nodes are taken from the queue, the degree of a node is the number of its dependencies that
were not taken yet, and the nodes that were queued so far are those whose dependencies were all
taken.  So a node is in the order exactly if all its dependencies are, and it comes after them.  In
a graph without cycles that is every node.
-/

namespace PlanFlow
namespace StepGraph

/-! ## Release -/

section Release

variable {degrees dependents : List Nat}

/-- Each of the dependents has one dependency less. -/
theorem getElem?_release (hnodup : dependents.Nodup) (i : Nat) :
    (release degrees dependents).1[i]? =
      if i ∈ dependents then degrees[i]?.map (· - 1) else degrees[i]? := by
  induction dependents generalizing degrees with
  | nil => simp [release]
  | cons d rest ih =>
      obtain ⟨hd, hrest⟩ := List.nodup_cons.mp hnodup
      by_cases hi : i = d
      -- The member itself: later members leave its degree as it is.
      · subst hi
        unfold release
        split <;> rename_i hdegree
        · simp [ih hrest, hd, List.getElem?_set_self', hdegree]
        · simp [ih hrest, hd, List.getElem?_set_self', hdegree]
        · simp [ih hrest, hd, hdegree]
        · simp [ih hrest, hd, hdegree]
      · unfold release
        split <;> simp [ih hrest, hi, List.getElem?_set_ne (Ne.symm hi)]

/-- Those that had one left are ready. -/
theorem ready_release (hnodup : dependents.Nodup) :
    (release degrees dependents).2 = dependents.filter fun d => degrees[d]? == some 1 := by
  induction dependents generalizing degrees with
  | nil => simp [release]
  | cons d rest ih =>
      obtain ⟨hd, hrest⟩ := List.nodup_cons.mp hnodup
      have hset : ∀ k, (rest.filter fun x => (degrees.set d k)[x]? == some 1) =
          rest.filter fun x => degrees[x]? == some 1 := by
        intro k
        refine List.filter_congr fun x hx => ?_
        have hne : d ≠ x := fun heq => hd (heq ▸ hx)
        rw [List.getElem?_set_ne hne]
      unfold release
      split <;> rename_i hdegree <;> simp [ih hrest, hset, hdegree]

end Release

/-! ## The queue -/

/-- The dependencies of a node that were not taken yet. -/
def waiting (g : StepGraph) (taken : List Nat) (i : Nat) : List Nat :=
  (g.dependenciesAt i).filter fun d => decide (d ∉ taken)

theorem waiting_eq_nil_iff {g : StepGraph} {taken : List Nat} {i : Nat} :
    g.waiting taken i = [] ↔ ∀ d ∈ g.dependenciesAt i, d ∈ taken := by
  simp [waiting]

/-- Taking a node leaves one dependency less to every node that waits for it. -/
theorem length_waiting_concat {g : StepGraph} (hg : g.Coherent) {taken : List Nat} {node : Nat}
    (hnode : node ∉ taken) (i : Nat) :
    (g.waiting (taken ++ [node]) i).length =
      if i ∈ g.dependentsAt node then (g.waiting taken i).length - 1
      else (g.waiting taken i).length := by
  have herase : g.waiting (taken ++ [node]) i = (g.waiting taken i).erase node := by
    have hnodup : (g.waiting taken i).Nodup := (hg.nodup_dependenciesAt i).filter _
    rw [hnodup.erase_eq_filter, waiting, waiting, List.filter_filter]
    refine List.filter_congr fun d _ => ?_
    rw [Bool.eq_iff_iff]
    simp [and_comm]
  have hmem : node ∈ g.waiting taken i ↔ i ∈ g.dependentsAt node := by
    rw [waiting, List.mem_filter, ← hg.edge_iff]
    simp [hnode, Edge]
  rw [herase, List.length_erase]
  simp only [hmem]

/-- What holds whenever the next node is taken from the queue. -/
structure Queued (g : StepGraph) (taken degrees queue : List Nat) : Prop where
  nodup : (taken ++ queue).Nodup
  mem_iff : ∀ i, i ∈ taken ++ queue ↔ i < g.size ∧ ∀ d ∈ g.dependenciesAt i, d ∈ taken
  degree : ∀ i, i < g.size → degrees[i]? = some (g.waiting taken i).length

theorem queued_start (g : StepGraph) : g.Queued [] g.degrees g.roots where
  nodup := by simpa [roots, positions] using List.nodup_range.filter _
  mem_iff i := by simp [roots, List.eq_nil_iff_forall_not_mem]
  degree i hi := by
    have hnode : g.nodes[i]? = some g.nodes[i] := List.getElem?_eq_getElem hi
    simp [degrees, waiting, dependenciesAt, hnode]

/-- Taking the first node of the queue. -/
theorem Queued.take {g : StepGraph} (hg : g.Coherent) {taken degrees queue : List Nat} {node : Nat}
    (h : g.Queued taken degrees (node :: queue)) :
    g.Queued (taken ++ [node]) (release degrees (g.dependentsAt node)).1
      (queue ++ (release degrees (g.dependentsAt node)).2) := by
  have hnode : node ∉ taken := fun hmem =>
    (List.nodup_append.mp h.nodup).2.2 node hmem node List.mem_cons_self rfl
  have hready : ∀ i, i ∈ (release degrees (g.dependentsAt node)).2 ↔
      i ∈ g.dependentsAt node ∧ (g.waiting taken i).length = 1 := by
    intro i
    rw [ready_release (hg.nodup_dependentsAt node), List.mem_filter, beq_iff_eq]
    refine and_congr_right fun hi => ?_
    rw [h.degree i (hg.lt_right hi), Option.some.injEq]
  have hrelease : ∀ i, i ∈ g.dependentsAt node → node ∈ g.waiting taken i := by
    intro i hi
    rw [waiting, List.mem_filter]
    exact ⟨(hg.edge_iff node i).mp hi, decide_eq_true hnode⟩
  have hassoc : taken ++ [node] ++ (queue ++ (release degrees (g.dependentsAt node)).2) =
      taken ++ node :: queue ++ (release degrees (g.dependentsAt node)).2 := by
    simp
  refine ⟨?_, fun i => ?_, fun i hi => ?_⟩
  -- What becomes ready was not queued before, since the taken node was missing.
  · rw [hassoc, List.nodup_append]
    refine ⟨h.nodup, ?_, ?_⟩
    · rw [ready_release (hg.nodup_dependentsAt node)]
      exact (hg.nodup_dependentsAt node).filter _
    · rintro i hi _ hi' rfl
      have hdeps := ((h.mem_iff i).mp hi).2
      exact hnode (hdeps node ((hg.edge_iff node i).mp ((hready i).mp hi').1))
  · rw [hassoc, List.mem_append, h.mem_iff i, hready i, ← waiting_eq_nil_iff,
      ← waiting_eq_nil_iff, ← List.length_eq_zero_iff, ← List.length_eq_zero_iff,
      length_waiting_concat hg hnode]
    by_cases hi : i ∈ g.dependentsAt node
    · have hpos : 0 < (g.waiting taken i).length := List.length_pos_of_mem (hrelease i hi)
      have hsize : i < g.size := hg.lt_right hi
      simp only [hi, hsize, if_true, true_and]
      omega
    · simp [hi]
  · rw [getElem?_release (hg.nodup_dependentsAt node), h.degree i hi,
      length_waiting_concat hg hnode]
    split <;> rfl

/-! ## The order -/

/-- Each member of a list comes after its dependencies, some of which were taken before. -/
def Legal (g : StepGraph) : List Nat → List Nat → Prop
  | _, [] => True
  | taken, i :: rest =>
      (∀ d ∈ g.dependenciesAt i, d ∈ taken) ∧ Legal g (taken ++ [i]) rest

theorem takeAll_spec {g : StepGraph} (hg : g.Coherent) {taken degrees queue : List Nat}
    (h : g.Queued taken degrees queue) :
    (taken ++ g.takeAll degrees queue).Nodup ∧
      (∀ i, i ∈ taken ++ g.takeAll degrees queue ↔
        i < g.size ∧ ∀ d ∈ g.dependenciesAt i, d ∈ taken ++ g.takeAll degrees queue) ∧
      g.Legal taken (g.takeAll degrees queue) := by
  induction degrees, queue using takeAll.induct g generalizing taken with
  -- With an empty queue, the invariant says what is claimed.
  | case1 degrees =>
      have hnodup := h.nodup
      have hmem := h.mem_iff
      rw [takeAll]
      rw [List.append_nil] at hnodup hmem ⊢
      exact ⟨hnodup, hmem, trivial⟩
  | case2 degrees node queue ih =>
      obtain ⟨hnodup, hmem, hlegal⟩ := ih (h.take hg)
      rw [List.append_assoc] at hnodup hmem
      rw [takeAll]
      have hnode : node ∈ taken ++ node :: queue := by simp
      exact ⟨hnodup, hmem, ((h.mem_iff node).mp hnode).2, hlegal⟩

section Order

variable {g : StepGraph} (hg : g.Coherent)
include hg

theorem nodup_order : g.order.Nodup :=
  (takeAll_spec hg g.queued_start).1

/-- A node is in the order exactly if all its dependencies are. -/
theorem mem_order_iff (i : Nat) :
    i ∈ g.order ↔ i < g.size ∧ ∀ d ∈ g.dependenciesAt i, d ∈ g.order :=
  (takeAll_spec hg g.queued_start).2.1 i

/-- In the order, every node comes after its dependencies. -/
theorem legal_order : g.Legal [] g.order :=
  (takeAll_spec hg g.queued_start).2.2

/-- A node to which no cycle leads is in the order. -/
theorem mem_order_of_uncycled {i : Nat} (hi : i < g.size)
    (huncycled : ∀ c, Relation.TransGen g.Edge c c → ¬Relation.ReflTransGen g.Edge c i) :
    i ∈ g.order := by
  -- There are finitely many such nodes, so going back along the edges comes to an end.
  let Uncycled : Type := {i : Fin g.size //
    ∀ c, Relation.TransGen g.Edge c c → ¬Relation.ReflTransGen g.Edge c i}
  let before (i j : Uncycled) : Prop := Relation.TransGen g.Edge i.1 j.1
  have htrans : IsTrans Uncycled before := ⟨fun _ _ _ => Relation.TransGen.trans⟩
  have hirrefl : Std.Irrefl before := ⟨fun i hcycle => i.2 i.1 hcycle .refl⟩
  have hwf : WellFounded before := Finite.wellFounded_of_trans_of_irrefl before
  suffices hall : ∀ i : Uncycled, (i.1 : Nat) ∈ g.order from hall ⟨⟨i, hi⟩, huncycled⟩
  intro i
  induction i using hwf.induction with
  | _ i ih =>
      rw [mem_order_iff hg]
      refine ⟨i.1.isLt, fun d hd => ?_⟩
      have hedge : g.Edge d i.1 := (hg.edge_iff d i.1).mpr hd
      have hd : ∀ c, Relation.TransGen g.Edge c c → ¬Relation.ReflTransGen g.Edge c d :=
        fun c hcycle hreach => i.2 c hcycle (hreach.tail hedge)
      exact ih ⟨⟨d, hedge.lt_left⟩, hd⟩ (Relation.TransGen.single hedge)

/-- In a graph without cycles, every node is in the order. -/
theorem order_perm_positions (hacyclic : ∀ i, ¬Relation.TransGen g.Edge i i) :
    g.order.Perm g.positions := by
  have hnodup : g.positions.Nodup := List.nodup_range
  rw [List.perm_ext_iff_of_nodup (nodup_order hg) hnodup]
  intro i
  rw [mem_positions]
  exact ⟨fun hi => ((mem_order_iff hg i).mp hi).1,
    fun hi => mem_order_of_uncycled hg hi fun c hcycle => absurd hcycle (hacyclic c)⟩

end Order
end StepGraph
end PlanFlow
