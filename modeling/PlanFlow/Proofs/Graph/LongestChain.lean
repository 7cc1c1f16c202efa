import Mathlib.Order.Bounds.Basic
import PlanFlow.Proofs.Graph.Placement

/-!
# The longest chain

When a node is settled, the longest of its dependencies is stored with it, and nothing that is
settled later changes it.  So the walk back from a node comes to a node that waits for nothing, on a
chain that is as long as the node's length says.  No chain is longer, since the depth rises by at
least one from each step of a chain to the next.
-/

namespace PlanFlow
namespace StepGraph

namespace FirstMax

variable {α β : Type} {f f' : α → Nat} {l : List α} {a : α}

/-- Where values are compared alike, they have the same first maximum. -/
theorem congr (h : FirstMax f l a) (hlt : ∀ b ∈ l, ∀ b' ∈ l, f b < f b' ↔ f' b < f' b') :
    FirstMax f' l a := by
  have ha := h.mem
  obtain ⟨before, after, rfl, hbefore, hafter⟩ := h
  refine ⟨before, after, rfl, fun b hb => ?_, fun b hb => ?_⟩
  · exact (hlt b (List.mem_append_left _ hb) a ha).mp (hbefore b hb)
  · have hb' := List.mem_append_right before (List.mem_cons_of_mem a hb)
    rw [← not_lt, ← hlt a ha b hb', not_lt]
    exact hafter b hb

theorem map {g : β → Nat} {h : α → β} (hmax : FirstMax (g ∘ h) l a) :
    FirstMax g (l.map h) (h a) := by
  obtain ⟨before, after, rfl, hbefore, hafter⟩ := hmax
  exact ⟨before.map h, after.map h, by simp, List.forall_mem_map.mpr hbefore,
    List.forall_mem_map.mpr hafter⟩

end FirstMax

namespace Chains

variable {g : StepGraph} {c : Chains} {taken : List Nat} {node : Nat}

/-- The node before a node on its chain. -/
def previousAt (c : Chains) (node : Nat) : Option Nat := c.previous[node]?.join

/-- What holds while the nodes are settled: the node before a settled one is the longest of its
dependencies. -/
structure Traced (g : StepGraph) (taken : List Nat) (c : Chains) : Prop extends
    Settled g taken c where
  sizePrevious : c.previous.length = g.size
  previous : ∀ i ∈ taken, c.previousAt i = c.longest (g.dependenciesAt i)

theorem Traced.settle (h : Traced g taken c) (hnode : node < g.size) (hnew : node ∉ taken)
    (hdeps : ∀ d ∈ g.dependenciesAt node, d ∈ taken) :
    Traced g (taken ++ [node]) (Chains.settle g c node) := by
  have hstable : ∀ nodes : List Nat, (∀ i ∈ nodes, i ∈ taken) →
      (Chains.settle g c node).longest nodes = c.longest nodes := by
    intro nodes hnodes
    exact longest_congr fun i hi => lengthAt_settle_of_ne fun heq => hnew (heq ▸ hnodes i hi)
  refine ⟨h.toSettled.settle hnode hnew hdeps, ?_, ?_⟩
  · rw [Chains.settle, List.length_set, h.sizePrevious]
  · rw [List.forall_mem_append, List.forall_mem_singleton]
    refine ⟨fun i hi => ?_, ?_⟩
    · have hne : node ≠ i := fun heq => hnew (heq ▸ hi)
      rw [hstable _ (h.closed i hi), ← h.previous i hi]
      simp only [previousAt, Chains.settle, List.getElem?_set_ne hne]
    · rw [hstable _ hdeps]
      simp [previousAt, Chains.settle, h.sizePrevious, hnode]

/-- A chain of settled nodes that ends at a node, starts with one that waits for nothing, and is as
long as the length of the node says. -/
structure EndsAt (g : StepGraph) (taken : List Nat) (c : Chains) (path : List Nat) (node : Nat) :
    Prop where
  settled : path ⊆ taken
  linked : path.IsChain g.Edge
  last : path.getLast? = some node
  first : ∀ i, path.head? = some i → g.dependenciesAt i = []
  length : path.length = c.lengthAt node

/-- The walk back from a settled node. -/
theorem Traced.endsAt (hg : g.Coherent) (h : Traced g taken c) (hnode : node ∈ taken) :
    EndsAt g taken c (c.endingAt (c.lengthAt node) node) node := by
  suffices hall : ∀ count, c.lengthAt node = count →
      EndsAt g taken c (c.endingAt count node) node from hall _ rfl
  intro count hcount
  induction count generalizing node with
  | zero => rcases h.length node hnode with ⟨-, hone⟩ | ⟨d, -, hlength, -⟩ <;> omega
  | succ count ih =>
      have hprevious : c.previous[node]?.join = c.longest (g.dependenciesAt node) :=
        h.previous node hnode
      have hbest := longest_spec c (g.dependenciesAt node)
      rw [endingAt, hprevious]
      cases hlongest : c.longest (g.dependenciesAt node) with
      -- Nothing is waited for, so the walk has come to its end.
      | none =>
          rw [hlongest] at hbest
          rcases h.length node hnode with ⟨-, hone⟩ | ⟨d, hd, -⟩
          · exact ⟨by simpa using hnode, by simp, by simp, by simpa using hbest, by simp [hone]⟩
          · rw [hbest] at hd
            cases hd
      | some b =>
          rw [hlongest] at hbest
          have hlength : c.lengthAt node = c.lengthAt b + 1 := by
            rcases h.length node hnode with ⟨hnone, -⟩ | ⟨d, hd, hlength, hmax⟩
            · have hb := hbest.mem
              rw [hnone] at hb
              cases hb
            · rw [hlength, le_antisymm (hbest.le hd) (hmax b hbest.mem)]
          have hends := ih (h.closed node hnode b hbest.mem) (by omega)
          have hne : c.endingAt count b ≠ [] := fun hnil => by
            rw [hnil] at hends
            cases hends.last
          refine ⟨?_, ?_, by simp, fun i hi => hends.first i ?_, ?_⟩
          · exact List.append_subset.mpr ⟨hends.settled, by simpa using hnode⟩
          · refine hends.linked.append (List.isChain_singleton node) fun x hx y hy => ?_
            rw [hends.last] at hx
            obtain rfl := Option.mem_some_iff.mp hx
            obtain rfl := Option.mem_some_iff.mp hy
            exact (hg.edge_iff b node).mpr hbest.mem
          · rwa [List.head?_append_of_ne_nil _ hne] at hi
          · rw [List.length_append, hends.length, hlength, List.length_singleton]

end Chains

/-- The chains by which a graph is scheduled can be walked back wherever the order comes. -/
theorem traced_order {g : StepGraph} (hg : g.Coherent) :
    Chains.Traced g g.order (Chains.ofOrder g g.order) :=
  chains_induction hg ⟨⟨List.length_replicate, by simp, by simp⟩, List.length_replicate, by simp⟩
    Chains.Traced.settle

/-! ## Chains of steps -/

/-- Steps each of which lists the one before it. -/
structure DependencyChain (steps : List Step) (chain : List String) : Prop where
  ids : ∀ id ∈ chain, id ∈ steps.map Step.id
  linked : chain.IsChain (Feeds steps)

/-- A chain on which a value rises is no longer than the value at its end allows. -/
theorem length_le_of_rising {α : Type} {f : α → Nat} {l : List α} {b : α}
    (h : l.IsChain fun x y => f x < f y) (hlast : l.getLast? = some b) : l.length ≤ f b + 1 := by
  induction l using List.reverseRecOn generalizing b with
  | nil => cases hlast
  | append_singleton before a ih =>
      obtain rfl : a = b := by simpa using hlast
      obtain ⟨hbefore, -, hlink⟩ := List.isChain_append.mp h
      cases hmid : before.getLast? with
      | none => simp [List.getLast?_eq_none_iff.mp hmid]
      | some x =>
          have hlt : f x < f a := hlink x hmid a rfl
          have hle := ih hbefore hmid
          simp only [List.length_append, List.length_singleton]
          omega

section Valid

variable {steps : List Step} (hvalid : allErrors steps = [])
include hvalid

theorem DependencyChain.length_le {chain : List String} (h : DependencyChain steps chain)
    {id : String} (hlast : chain.getLast? = some id) : chain.length ≤ levelOf steps id + 1 :=
  length_le_of_rising (h.linked.imp fun _ _ => levelOf_lt_of_feeds hvalid) hlast

/-- No chain has more steps than there are, since levels rise along it. -/
theorem DependencyChain.length_le_length {chain : List String} (h : DependencyChain steps chain) :
    chain.length ≤ steps.length := by
  have hrising : (chain.map (levelOf steps)).IsChain (· < ·) :=
    (List.isChain_map _).mpr (h.linked.imp fun _ _ => levelOf_lt_of_feeds hvalid)
  have hnodup : chain.Nodup :=
    .of_map _ ((List.isChain_iff_pairwise.mp hrising).imp fun hlt => Nat.ne_of_lt hlt)
  have hle := (hnodup.subperm h.ids).length_le
  rwa [List.length_map] at hle

/-- To every step leads a chain that is as long as its level allows. -/
theorem exists_dependencyChain {s : Step} (hs : s ∈ steps) :
    ∃ chain, DependencyChain steps chain ∧ chain.getLast? = some s.id ∧
      chain.length = levelOf steps s.id + 1 := by
  generalize hlevel : levelOf steps s.id = level
  induction level generalizing s with
  | zero =>
      refine ⟨[s.id], ⟨?_, List.isChain_singleton s.id⟩, rfl, rfl⟩
      rw [List.forall_mem_singleton]
      exact List.mem_map_of_mem hs
  | succ level ih =>
      have hsome : s.dependencies ≠ [] := fun hnone => by
        rw [levelOf_eq_zero hvalid hs hnone] at hlevel
        cases hlevel
      obtain ⟨d, hd, heq⟩ := exists_levelOf_eq hvalid hs hsome
      obtain ⟨t, ht, rfl⟩ := List.mem_map.mp (resolved_of_valid hvalid s hs d hd)
      obtain ⟨chain, hchain, hlast, hlength⟩ := ih ht (by omega)
      refine ⟨chain ++ [s.id], ⟨?_, ?_⟩, by simp, by simp [hlength]⟩
      · rw [List.forall_mem_append, List.forall_mem_singleton]
        exact ⟨hchain.ids, List.mem_map_of_mem hs⟩
      · refine hchain.linked.append (List.isChain_singleton s.id) fun x hx y hy => ?_
        rw [hlast] at hx
        obtain rfl := Option.mem_some_iff.mp hx
        obtain rfl := Option.mem_some_iff.mp hy
        exact ⟨s, hs, rfl, hd⟩

/-- The level of a step is the largest number of edges of a chain that leads to it. -/
theorem isGreatest_levelOf {s : Step} (hs : s ∈ steps) :
    IsGreatest {edges | ∃ chain, DependencyChain steps chain ∧ chain.getLast? = some s.id ∧
      chain.length = edges + 1} (levelOf steps s.id) := by
  constructor
  · exact exists_dependencyChain hvalid hs
  · rintro edges ⟨chain, hchain, hlast, hlength⟩
    have := hchain.length_le hvalid hlast
    omega

/-! ## The critical path -/

omit hvalid in
/-- A chain of nodes is a chain of the steps at their positions. -/
theorem DependencyChain.of_isChain {path : List Nat} (hlinked : path.IsChain (ofSteps steps).Edge)
    (hnodes : ∀ i ∈ path, i < steps.length) :
    DependencyChain steps (path.map (ofSteps steps).idAt) := by
  refine ⟨List.forall_mem_map.mpr fun i hi => ?_, (List.isChain_map _).mpr (hlinked.imp ?_)⟩
  · rw [idAt_ofSteps (List.getElem?_eq_getElem (hnodes i hi))]
    exact List.mem_map_of_mem (List.getElem_mem _)
  · intro i j hedge
    obtain ⟨s, hj, d, hd, hi⟩ := edge_ofSteps.mp hedge
    rw [idAt_of_position? hi, idAt_ofSteps hj]
    exact ⟨s, List.mem_of_getElem? hj, rfl, hd⟩

/-- A step waits for nothing if its node does. -/
theorem dependencies_eq_nil_of_idAt {i : Nat} (hi : i < steps.length)
    (hnone : (ofSteps steps).dependenciesAt i = []) {s : Step} (hs : s ∈ steps)
    (hid : s.id = (ofSteps steps).idAt i) : s.dependencies = [] := by
  have hstep := List.getElem?_eq_getElem hi
  rw [idAt_ofSteps hstep] at hid
  obtain rfl := List.inj_on_of_nodup_map (nodup_of_valid hvalid) hs (List.getElem_mem hi) hid
  refine List.eq_nil_iff_forall_not_mem.mpr fun d hd => ?_
  obtain ⟨j, hj⟩ := Option.isSome_iff_exists.mp
    (position?_isSome_iff.mpr (resolved_of_valid hvalid _ hs d hd))
  have hmem := mem_dependenciesAt_ofSteps.mpr ⟨_, hstep, d, hd, hj⟩
  rw [hnone] at hmem
  cases hmem

/-- The steps of the critical path. -/
theorem exists_criticalPath (hsome : steps ≠ []) :
    ∃ last path, FirstMax (levelOf steps) (scheduleOf steps).order last ∧
      levelOf steps last = (scheduleOf steps).maxDepth ∧
      (scheduleOf steps).criticalPath = ⟨path, path.length⟩ ∧
      DependencyChain steps path ∧ path.getLast? = some last ∧
      path.length = levelOf steps last + 1 ∧
      ∀ s ∈ steps, path.head? = some s.id → s.dependencies = [] := by
  let g := ofSteps steps
  let c := Chains.ofOrder g g.order
  have hg : g.Coherent := coherent_ofSteps steps
  have hbest := Chains.longest_spec c g.order
  cases hlongest : c.longest g.order with
  | none =>
      rw [hlongest] at hbest
      have hids := (order_perm_ids hvalid).symm
      rw [scheduleOf, schedule, hbest] at hids
      exact absurd (List.map_eq_nil_iff.mp hids.eq_nil) hsome
  | some node =>
      rw [hlongest] at hbest
      have hends := (traced_order hg).endsAt hg hbest.mem
      have hpath : c.critical g.order = c.endingAt (c.lengthAt node) node := by
        rw [Chains.critical, hlongest]
      have hrange : ∀ i ∈ g.order, i < steps.length := fun i => (mem_order_of_valid hvalid).mp
      have hlength : ∀ i ∈ g.order, c.lengthAt i = levelOf steps (g.idAt i) + 1 := by
        intro i hi
        have hpos : 1 ≤ c.lengthAt i := lengthAt_pos hg hi
        rw [levelOf_idAt hvalid hi]
        exact (Nat.sub_add_cancel hpos).symm
      refine ⟨g.idAt node, (c.critical g.order).map g.idAt, .map (hbest.congr ?_), ?_, rfl, ?_, ?_,
        ?_, fun s hs hhead => ?_⟩
      · intro i hi j hj
        rw [hlength i hi, hlength j hj, Nat.add_lt_add_iff_right, Function.comp, Function.comp]
      · rw [levelOf_idAt hvalid hbest.mem]
        apply le_antisymm
        · exact depthAt_le_maxDepth c
            (((order_perm_of_valid hvalid).mem_iff).mp hbest.mem)
        · refine maxDepth_le_iff.mpr fun i hi => ?_
          exact Nat.sub_le_sub_right (hbest.le ((order_perm_of_valid hvalid).mem_iff.mpr hi)) 1
      · rw [hpath]
        exact .of_isChain hends.linked fun i hi => hrange i (hends.settled hi)
      · rw [hpath, List.getLast?_map, hends.last, Option.map_some]
      · rw [hpath, List.length_map, hends.length, hlength node hbest.mem]
      · rw [hpath, List.head?_map] at hhead
        obtain ⟨i, hi, hid⟩ := Option.map_eq_some_iff.mp hhead
        exact dependencies_eq_nil_of_idAt hvalid
          (hrange i (hends.settled (List.mem_of_mem_head? hi))) (hends.first i hi) hs hid.symm

/-- The depths and the critical path are bounded by the number of steps. -/
theorem criticalPath_length_le :
    (scheduleOf steps).criticalPath.length ≤ steps.length ∧
      (scheduleOf steps).maxDepth ≤ steps.length := by
  by_cases hnil : steps = []
  · subst hnil
    decide +kernel
  · obtain ⟨last, path, -, hdeepest, heq, hchain, -, hlength, -⟩ := exists_criticalPath hvalid hnil
    have hle := hchain.length_le_length hvalid
    rw [heq, ← hdeepest]
    exact ⟨hle, by omega⟩

end Valid
end StepGraph

namespace Validation

open StepGraph

/-- The depth of a step in the schedule of a valid list is the largest number of edges of a chain of
dependencies that leads to it.  The critical path is such a chain.  It starts with a step that waits
for nothing, ends with the first of the deepest steps in the order, and no chain has more steps. -/
theorem criticalPath_longest {settings : Settings} {steps : List Step} {s : Schedule}
    (h : (Validation.ofSteps settings steps).schedule? = some s) :
    (∀ t ∈ steps, ∃ depth, Entries.find? t.id s.depths = some depth ∧
      IsGreatest {edges | ∃ chain, DependencyChain steps chain ∧ chain.getLast? = some t.id ∧
        chain.length = edges + 1} depth) ∧
    DependencyChain steps s.criticalPath.steps ∧
    (∀ t ∈ steps, s.criticalPath.steps.head? = some t.id → t.dependencies = []) ∧
    s.criticalPath.steps.length = s.criticalPath.length ∧
    s.criticalPath.length = (if steps = [] then 0 else s.maxDepth + 1) ∧
    (∀ chain, DependencyChain steps chain → chain.length ≤ s.criticalPath.length) ∧
    ∀ last, s.criticalPath.steps.getLast? = some last → FirstMax s.depthOf s.order last := by
  obtain ⟨hvalid, rfl⟩ := schedule?_ofSteps_eq_some_iff.mp h
  refine ⟨fun t ht => ⟨_, find?_depths hvalid ht, isGreatest_levelOf hvalid ht⟩, ?_⟩
  by_cases hnil : steps = []
  · subst hnil
    have hempty : (scheduleOf []).criticalPath = ⟨[], 0⟩ := by decide +kernel
    rw [hempty]
    refine ⟨⟨nofun, List.isChain_nil⟩, nofun, rfl, rfl, fun chain hchain => ?_, nofun⟩
    have hnone : chain = [] := List.eq_nil_iff_forall_not_mem.mpr fun id hid => by
      simpa using hchain.ids id hid
    rw [hnone, List.length_nil]
  · obtain ⟨last, path, hmax, hdeepest, heq, hchain, hlast, hlength, hfirst⟩ :=
      exists_criticalPath hvalid hnil
    rw [heq, if_neg hnil, ← hdeepest]
    refine ⟨hchain, hfirst, rfl, hlength, fun chain hother => ?_, fun x hx => ?_⟩
    · cases hend : chain.getLast? with
      | none => simp [List.getLast?_eq_none_iff.mp hend]
      | some id =>
          have hid := hother.ids id (List.mem_of_getLast? hend)
          have hle := hmax.le ((order_perm_ids hvalid).mem_iff.mpr hid)
          have := hother.length_le hvalid hend
          dsimp only
          omega
    · obtain rfl := Option.some.inj (hlast.symm.trans hx)
      refine hmax.congr fun a ha b hb => ?_
      obtain ⟨t, ht, rfl⟩ := List.mem_map.mp ((order_perm_ids hvalid).mem_iff.mp ha)
      obtain ⟨u, hu, rfl⟩ := List.mem_map.mp ((order_perm_ids hvalid).mem_iff.mp hb)
      rw [depthOf_scheduleOf hvalid ht, depthOf_scheduleOf hvalid hu]

/-- Both chains of the report are as long; the path is the one whose steps come first. -/
theorem criticalPath_longest_reportSteps :
    (Validation.ofSteps default reportSteps).schedule? = some (scheduleOf reportSteps) ∧
      (scheduleOf reportSteps).criticalPath = ⟨["leads", "count", "send"], 3⟩ ∧
      (∀ chain, DependencyChain reportSteps chain → chain.length ≤ 3) ∧
      FirstMax (scheduleOf reportSteps).depthOf (scheduleOf reportSteps).order "send" := by
  have hpath : (scheduleOf reportSteps).criticalPath = ⟨["leads", "count", "send"], 3⟩ := by
    decide +kernel
  obtain ⟨-, -, -, -, -, hlongest, hlast⟩ := criticalPath_longest schedule?_reportSteps
  rw [hpath] at hlongest hlast
  exact ⟨schedule?_reportSteps, hpath, hlongest, hlast "send" rfl⟩

end Validation
end PlanFlow
