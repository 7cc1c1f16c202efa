import PlanFlow.Proofs.Graph.Depth

/-!
# The queue, one edge at a time

While the nodes are taken from the queue, every edge takes one from the count of the node that it
leads to.  Here each of these is a step of its own, and a count that is used up already cannot be
lowered: the run would stop there.  It never does.  Whatever the graph of a list of steps, the run
goes on until the queue is empty, and the nodes that were taken are those that no cycle leads to.
-/

namespace PlanFlow
namespace StepGraph

/-- The state while nodes are taken from the queue: how many dependencies each node has left, the
queue, the dependents of the last node that still have to be released, and what was taken. -/
structure Draining where
  degrees : List Nat
  queue : List Nat
  releasing : List Nat
  taken : List Nat
  deriving DecidableEq

namespace Draining

/-- One step: the next dependent has one dependency less, and joins the queue if none is left, or
the next node is taken.  There is no step if a dependent has no dependency left already, and none
in the end. -/
def advance (g : StepGraph) : Draining → Option Draining
  | ⟨degrees, queue, d :: rest, taken⟩ =>
    match degrees[d]? with
    | some (k + 1) =>
      some ⟨degrees.set d k, if k = 0 then queue ++ [d] else queue, rest, taken⟩
    | some 0 | none => none
  | ⟨degrees, node :: queue, [], taken⟩ =>
    some ⟨degrees, queue, g.dependentsAt node, taken ++ [node]⟩
  | ⟨_, [], [], _⟩ => none

/-- One state leads to another by steps. -/
def Reaches (g : StepGraph) : Draining → Draining → Prop :=
  Relation.ReflTransGen fun s t => advance g s = some t

/-- Nothing was taken yet, and the nodes that wait for nothing are in the queue. -/
def start (g : StepGraph) : Draining := ⟨g.degrees, g.roots, [], []⟩

/-- The state in which `released` of the dependents of a node that was just taken are released. -/
def within (taken degrees queue : List Nat) (node : Nat) (released rest : List Nat) : Draining :=
  ⟨(release degrees released).1, queue ++ (release degrees released).2, rest, taken ++ [node]⟩

section Release

variable {degrees released : List Nat} {d : Nat}

/-- Releasing one more is one step after the others were released. -/
theorem release_concat {k : Nat} (h : (release degrees released).1[d]? = some (k + 1)) :
    release degrees (released ++ [d]) = ((release degrees released).1.set d k,
      if k = 0 then (release degrees released).2 ++ [d] else (release degrees released).2) := by
  induction released generalizing degrees with
  | nil =>
      cases k with
      | zero => simp_all [release]
      | succ k => simp_all [release]
  | cons x rest ih =>
      rw [List.cons_append]
      unfold release at h ⊢
      split <;> rename_i hx
      · rw [hx] at h
        rw [ih h]
        by_cases hk : k = 0 <;> simp [hk]
      · rw [hx] at h
        exact ih h
      · rw [hx] at h
        exact ih h
      · rw [hx] at h
        exact ih h

end Release

/-! ## Steps -/

section Steps

variable {g : StepGraph} {taken degrees queue released rest : List Nat} {node d : Nat}

/-- Where a dependent is released, it still waits for the node that was just taken. -/
theorem exists_degree (hg : g.Coherent) (h : g.Queued taken degrees (node :: queue))
    (hsplit : g.dependentsAt node = released ++ d :: rest) :
    ∃ k, (release degrees released).1[d]? = some (k + 1) := by
  have hnodup : (released ++ d :: rest).Nodup := hsplit ▸ hg.nodup_dependentsAt node
  have hreleased : released.Nodup := (List.nodup_append.mp hnodup).1
  have hd : d ∉ released := fun hmem =>
    (List.nodup_append.mp hnodup).2.2 d hmem d List.mem_cons_self rfl
  have hedge : g.Edge node d := by
    show d ∈ g.dependentsAt node
    rw [hsplit]
    simp
  have hnode : node ∉ taken := fun hmem =>
    (List.nodup_append.mp h.nodup).2.2 node hmem node List.mem_cons_self rfl
  have hwaits : node ∈ g.waiting taken d := by
    rw [waiting, List.mem_filter]
    exact ⟨(hg.edge_iff node d).mp hedge, decide_eq_true hnode⟩
  have hpos : 0 < (g.waiting taken d).length := List.length_pos_of_mem hwaits
  rw [getElem?_release hreleased, if_neg hd, h.degree d (hg.lt_right hedge)]
  exact ⟨(g.waiting taken d).length - 1, by rw [Nat.sub_add_cancel hpos]⟩

theorem advance_within (hg : g.Coherent) (h : g.Queued taken degrees (node :: queue))
    (hsplit : g.dependentsAt node = released ++ d :: rest) :
    advance g (within taken degrees queue node released (d :: rest)) =
      some (within taken degrees queue node (released ++ [d]) rest) := by
  obtain ⟨k, hk⟩ := exists_degree hg h hsplit
  simp only [within, advance, hk, release_concat hk]
  split <;> simp

/-- What a run comes to: between two nodes the queue is as it should be, and within the edges of a
node, some of its dependents are released. -/
inductive Phase (g : StepGraph) : Draining → Prop
  | between {taken degrees queue : List Nat} (h : g.Queued taken degrees queue) :
      Phase g ⟨degrees, queue, [], taken⟩
  | within {taken degrees queue released rest : List Nat} {node : Nat}
      (h : g.Queued taken degrees (node :: queue))
      (hsplit : g.dependentsAt node = released ++ rest) :
      Phase g (within taken degrees queue node released rest)

/-- Every step keeps to the phases, and only the empty queue ends them. -/
theorem Phase.progress (hg : g.Coherent) {s : Draining} (h : Phase g s) :
    (s.queue = [] ∧ s.releasing = []) ∨ ∃ t, advance g s = some t ∧ Phase g t := by
  have hbetween {taken degrees queue : List Nat} (h : g.Queued taken degrees queue) :
      (queue = []) ∨
        ∃ t, advance g ⟨degrees, queue, [], taken⟩ = some t ∧ Phase g t := by
    cases queue with
    | nil => exact .inl rfl
    | cons node queue =>
        refine .inr ⟨_, rfl, ?_⟩
        simpa only [Draining.within, release, List.append_nil] using
          @Phase.within g taken degrees queue [] (g.dependentsAt node) node h rfl
  cases h with
  | between h => exact (hbetween h).imp_left fun hempty => ⟨hempty, rfl⟩
  | @within taken degrees queue released rest node h hsplit =>
      cases rest with
      | nil =>
          have hnext := h.take hg
          rw [hsplit, List.append_nil] at hnext
          exact (hbetween hnext).imp_left fun hempty => ⟨hempty, rfl⟩
      | cons d rest =>
          exact .inr ⟨_, advance_within hg h hsplit, .within h (by simp [hsplit])⟩

/-- Once a node is taken, all its dependents are released. -/
theorem reaches_released (hg : g.Coherent) (h : g.Queued taken degrees (node :: queue))
    (hsplit : g.dependentsAt node = released ++ rest) :
    Reaches g (within taken degrees queue node released rest)
      (within taken degrees queue node (g.dependentsAt node) []) := by
  induction rest generalizing released with
  | nil =>
      rw [hsplit, List.append_nil]
      exact .refl
  | cons d rest ih => exact .head (advance_within hg h hsplit) (ih (by simp [hsplit]))

/-- The run takes all nodes that the queue comes to. -/
theorem reaches_end (hg : g.Coherent) (h : g.Queued taken degrees queue) :
    ∃ left, Reaches g ⟨degrees, queue, [], taken⟩
      ⟨left, [], [], taken ++ g.takeAll degrees queue⟩ := by
  induction degrees, queue using takeAll.induct g generalizing taken with
  | case1 degrees => exact ⟨degrees, by simpa [takeAll] using .refl⟩
  | case2 degrees node queue ih =>
      obtain ⟨left, hrest⟩ := ih (h.take hg)
      have hreleased : Reaches g ⟨degrees, queue, g.dependentsAt node, taken ++ [node]⟩
          ⟨(release degrees (g.dependentsAt node)).1,
            queue ++ (release degrees (g.dependentsAt node)).2, [], taken ++ [node]⟩ := by
        simpa only [within, release, List.append_nil] using
          reaches_released hg h (List.nil_append (g.dependentsAt node)).symm
      rw [List.append_assoc] at hrest
      rw [takeAll]
      exact ⟨left, .head rfl (hreleased.trans hrest)⟩

end Steps

/-! ## Runs -/

section Runs

variable {g : StepGraph} {s : Draining}

theorem phase_of_reaches (hg : g.Coherent) (h : Reaches g (start g) s) : Phase g s := by
  induction h with
  | refl => exact .between g.queued_start
  | @tail s t _ hstep ih =>
      rcases ih.progress hg with ⟨hqueue, hreleasing⟩ | ⟨t', hadvance, hphase⟩
      · obtain ⟨degrees, queue, releasing, taken⟩ := s
        obtain rfl : queue = [] := hqueue
        obtain rfl : releasing = [] := hreleasing
        cases hstep
      · obtain rfl : t = t' := Option.some.inj (hstep.symm.trans hadvance)
        exact hphase

/-- A dependent that is to be released has a dependency left. -/
theorem exists_degree_of_phase (hg : g.Coherent) (h : Phase g s) {d : Nat} {rest : List Nat}
    (hreleasing : s.releasing = d :: rest) : ∃ k, s.degrees[d]? = some (k + 1) := by
  cases h with
  | between => cases hreleasing
  | within h hsplit =>
      obtain rfl : _ = d :: rest := hreleasing
      exact exists_degree hg h hsplit

end Runs

end Draining

/-! ## What is taken -/

section Taken

variable {g : StepGraph} (hg : g.Coherent)
include hg

theorem mem_order_of_edge {i j : Nat} (hedge : g.Edge i j) (hj : j ∈ g.order) : i ∈ g.order :=
  ((mem_order_iff hg j).mp hj).2 i ((hg.edge_iff i j).mp hedge)

theorem depthAt_lt_of_transGen {i j : Nat} (h : Relation.TransGen g.Edge i j) (hj : j ∈ g.order) :
    i ∈ g.order ∧ (Chains.ofOrder g g.order).depthAt i < (Chains.ofOrder g g.order).depthAt j := by
  induction h using Relation.TransGen.head_induction_on with
  | single hedge => exact ⟨mem_order_of_edge hg hedge hj, depthAt_lt_of_edge hg hedge hj⟩
  | head hedge _ ih =>
      obtain ⟨hmem, hlt⟩ := ih
      exact ⟨mem_order_of_edge hg hedge hmem, (depthAt_lt_of_edge hg hedge hmem).trans hlt⟩

/-- The order comes to exactly those nodes that no cycle leads to. -/
theorem mem_order_iff_uncycled (i : Nat) :
    i ∈ g.order ↔ i < g.size ∧
      ∀ c, Relation.TransGen g.Edge c c → ¬Relation.ReflTransGen g.Edge c i := by
  constructor
  · intro hi
    refine ⟨((mem_order_iff hg i).mp hi).1, fun c hcycle hreach => ?_⟩
    -- A node of a cycle would be deeper than itself.
    have hc : c ∈ g.order := by
      rcases Relation.reflTransGen_iff_eq_or_transGen.mp hreach with rfl | hpath
      · exact hi
      · exact (depthAt_lt_of_transGen hg hpath hi).1
    exact Nat.lt_irrefl _ (depthAt_lt_of_transGen hg hcycle hc).2
  · rintro ⟨hi, huncycled⟩
    exact mem_order_of_uncycled hg hi huncycled

theorem length_order_eq_iff :
    g.order.length = g.size ↔ ∀ i, ¬Relation.TransGen g.Edge i i := by
  constructor
  · intro hlength i hcycle
    have hsubset : g.order ⊆ g.positions := fun j hj =>
      mem_positions.mpr ((mem_order_iff hg j).mp hj).1
    have hall : g.order.Perm g.positions := by
      refine ((nodup_order hg).subperm hsubset).perm_of_length_le ?_
      simp [positions, hlength]
    obtain ⟨_, hedge, -⟩ := Relation.TransGen.head'_iff.mp hcycle
    have hi : i ∈ g.order := hall.mem_iff.mpr (mem_positions.mpr hedge.lt_left)
    exact ((mem_order_iff_uncycled hg i).mp hi).2 i hcycle .refl
  · intro hacyclic
    rw [(order_perm_positions hg hacyclic).length_eq, positions, List.length_range]

end Taken

/-- However the steps depend on each other, no count that is used up is lowered while the queue is
drained; the run ends, takes no node twice, and takes exactly the nodes that no cycle leads to.  So
it takes all of them exactly if there is no cycle. -/
theorem order_omits_cycles (steps : List Step) :
    (∀ s, Draining.Reaches (ofSteps steps) (.start (ofSteps steps)) s →
      ∀ d rest, s.releasing = d :: rest → ∃ k, s.degrees[d]? = some (k + 1)) ∧
    (∃ left, Draining.Reaches (ofSteps steps) (.start (ofSteps steps))
      ⟨left, [], [], (ofSteps steps).order⟩) ∧
    (ofSteps steps).order.Nodup ∧
    (∀ i, i ∈ (ofSteps steps).order ↔ i < steps.length ∧
      ∀ c, Relation.TransGen (ofSteps steps).Edge c c →
        ¬Relation.ReflTransGen (ofSteps steps).Edge c i) ∧
    ((ofSteps steps).order.length = steps.length ↔
      ∀ i, ¬Relation.TransGen (ofSteps steps).Edge i i) := by
  have hg := coherent_ofSteps steps
  refine ⟨fun s hs d rest => ?_, ?_, nodup_order hg, fun i => ?_, ?_⟩
  · exact Draining.exists_degree_of_phase hg (Draining.phase_of_reaches hg hs)
  · exact Draining.reaches_end hg (queued_start _)
  · rw [mem_order_iff_uncycled hg, size_ofSteps]
  · rw [← size_ofSteps, length_order_eq_iff hg]

/-- Rows are merged with what is made of them, so the steps after that never run.  The log waits for
the rows alone, which it names twice. -/
def mergeSteps : List Step :=
  [call "fetch" [], call "merge" ["fetch", "clean"], call "clean" ["merge"],
    call "send" ["clean"], call "log" ["fetch", "nowhere", "fetch"]]
where
  /-- A step that calls an operation of its own name. -/
  call (id : String) (dependencies : List String) : Step :=
    ⟨id, id, dependencies, .action "rows" id []⟩

theorem order_omits_cycles_mergeSteps :
    Draining.Reaches (ofSteps mergeSteps) (.start (ofSteps mergeSteps))
      ⟨[0, 2, 1, 1, 1], [], [1, 4], [0]⟩ ∧
    (∃ k, [0, 2, 1, 1, 1][1]? = some (k + 1)) ∧
    Relation.TransGen (ofSteps mergeSteps).Edge 1 1 ∧
    Relation.ReflTransGen (ofSteps mergeSteps).Edge 1 3 ∧
    3 ∉ (ofSteps mergeSteps).order ∧ (ofSteps mergeSteps).order = [0, 4] := by
  obtain ⟨hsafe, -, -, hmem, -⟩ := order_omits_cycles mergeSteps
  have hfirst : Draining.Reaches (ofSteps mergeSteps) (.start (ofSteps mergeSteps))
      ⟨[0, 2, 1, 1, 1], [], [1, 4], [0]⟩ := .single (by decide +kernel)
  have hmerge : 2 ∈ (ofSteps mergeSteps).dependentsAt 1 := by decide +kernel
  have hclean : 1 ∈ (ofSteps mergeSteps).dependentsAt 2 := by decide +kernel
  have hsend : 3 ∈ (ofSteps mergeSteps).dependentsAt 2 := by decide +kernel
  have hcycle : Relation.TransGen (ofSteps mergeSteps).Edge 1 1 := .tail (.single hmerge) hclean
  have hafter : Relation.ReflTransGen (ofSteps mergeSteps).Edge 1 3 :=
    .tail (.single hmerge) hsend
  exact ⟨hfirst, hsafe _ hfirst 1 [4] rfl, hcycle, hafter,
    fun h => ((hmem 3).mp h).2 1 hcycle hafter, by decide +kernel⟩

end StepGraph
end PlanFlow
