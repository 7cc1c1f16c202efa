import Mathlib.Data.List.Infix
import PlanFlow.Proofs.Graph.Schedule
import PlanFlow.Proofs.Json.Entries

/-!
# Where a step is placed

A node joins the queue when the last of its dependencies is taken, so the nodes are taken in the
order of the places of their latest dependencies, and of those that join together the first comes
first.  With the depths of the steps this determines the order: there is only one order of the ids
that never goes back to a lower depth, keeps the steps of depth zero as they were listed, and on
every other depth follows the latest dependencies.
-/

namespace PlanFlow

/-! ## Places in a list -/

section Places

variable {α β : Type} [DecidableEq α] [DecidableEq β]

/-- The place in an order at which the latest of some members stands, counted from one; zero if
there are none. -/
def latestPlace (order members : List α) : Nat :=
  (members.map fun a => order.idxOf a + 1).foldl max 0

theorem latestPlace_le_iff {order members : List α} {n : Nat} :
    latestPlace order members ≤ n ↔ ∀ a ∈ members, order.idxOf a < n := by
  rw [latestPlace, StepGraph.foldl_max_le_iff, List.forall_mem_map]
  exact and_iff_right n.zero_le

theorem idxOf_map_of_injOn {f : α → β} {l : List α} {a : α} (hinj : ∀ b ∈ l, f b = f a → b = a) :
    (l.map f).idxOf (f a) = l.idxOf a := by
  induction l with
  | nil => rfl
  | cons b rest ih =>
      rw [List.forall_mem_cons] at hinj
      by_cases hb : b = a
      · simp [hb]
      · have hf : f b ≠ f a := fun heq => hb (hinj.1 heq)
        rw [List.map_cons, List.idxOf_cons_ne _ hf, List.idxOf_cons_ne _ hb, ih hinj.2]

/-- Where the members stand in a prefix, the rest of the order does not matter. -/
theorem latestPlace_append {members before : List α} (h : members ⊆ before) (after : List α) :
    latestPlace (before ++ after) members = latestPlace before members := by
  unfold latestPlace
  congr 1
  refine List.map_congr_left fun a ha => ?_
  rw [List.idxOf_append_of_mem (h ha)]

end Places

section Ascending

variable {α : Type} {f : α → Nat} {l : List α}

/-- The members with the least value stand at the front of a list that ascends. -/
theorem filter_prefix_of_ascending {n : Nat} (hsorted : l.Pairwise fun a b => f a ≤ f b)
    (hleast : ∀ a ∈ l, n ≤ f a) : (l.filter fun a => f a == n) <+: l := by
  induction l with
  | nil => exact List.prefix_rfl
  | cons a rest ih =>
      obtain ⟨ha, hrest⟩ := List.pairwise_cons.mp hsorted
      rw [List.forall_mem_cons] at hleast
      by_cases hn : f a = n
      · rw [List.filter_cons_of_pos (by simpa using hn), List.prefix_cons_inj]
        exact ih hrest hleast.2
      · have hnone : ((a :: rest).filter fun b => f b == n) = [] := by
          rw [List.filter_eq_nil_iff, List.forall_mem_cons]
          refine ⟨by simpa using hn, fun b hb => ?_⟩
          have := ha b hb
          have := hleast.1
          simp only [beq_iff_eq]
          omega
        rw [hnone]
        exact List.nil_prefix

/-- The members with one value stand together in a list that ascends. -/
theorem filter_infix_of_ascending (hsorted : l.Pairwise fun a b => f a ≤ f b) (n : Nat) :
    (l.filter fun a => f a == n) <:+: l := by
  induction l with
  | nil => exact List.infix_rfl
  | cons a rest ih =>
      obtain ⟨ha, hrest⟩ := List.pairwise_cons.mp hsorted
      by_cases hn : f a = n
      · refine (filter_prefix_of_ascending hsorted ?_).isInfix
        rw [List.forall_mem_cons]
        exact ⟨hn.ge, fun b hb => hn ▸ ha b hb⟩
      · rw [List.filter_cons_of_neg (by simpa using hn)]
        exact (ih hrest).trans (List.suffix_cons a rest).isInfix

end Ascending

namespace StepGraph

/-! ## The order of the queue -/

/-- The place of the latest dependency of a node. -/
def latestAt (g : StepGraph) (i : Nat) : Nat := latestPlace g.order (g.dependenciesAt i)

/-- A node comes before another if its latest dependency does, or if they wait for the same one and
it has the lower position. -/
def JoinsBefore (g : StepGraph) (i j : Nat) : Prop :=
  g.latestAt i < g.latestAt j ∨ g.latestAt i = g.latestAt j ∧ i < j

/-- What holds of the nodes that joined the queue so far: they are in order, and their dependencies
were taken. -/
structure Joined (g : StepGraph) (taken queue : List Nat) : Prop where
  sorted : (taken ++ queue).Pairwise g.JoinsBefore
  within : ∀ i ∈ taken ++ queue, g.latestAt i ≤ taken.length

/-- Nodes join the queue whose latest dependency is the node that was taken. -/
theorem Joined.take {g : StepGraph} {taken queue ready : List Nat} {node : Nat}
    (h : g.Joined taken (node :: queue)) (hready : ∀ i ∈ ready, g.latestAt i = taken.length + 1)
    (hascending : ready.Pairwise (· < ·)) : g.Joined (taken ++ [node]) (queue ++ ready) := by
  have hsplit : taken ++ [node] ++ (queue ++ ready) = taken ++ node :: queue ++ ready := by simp
  refine ⟨?_, ?_⟩
  · rw [hsplit, List.pairwise_append]
    refine ⟨h.sorted, ?_, fun i hi j hj => .inl ?_⟩
    · refine hascending.imp_of_mem fun hi hj hlt => .inr ⟨?_, hlt⟩
      rw [hready _ hi, hready _ hj]
    · rw [hready j hj]
      exact Nat.lt_succ_of_le (h.within i hi)
  · rw [hsplit, List.length_append, List.length_singleton, List.forall_mem_append]
    exact ⟨fun i hi => Nat.le_succ_of_le (h.within i hi), fun i hi => (hready i hi).le⟩

section Order

variable {g : StepGraph} (hg : g.Coherent)
include hg

/-- What joins the queue when a node is taken has the node for its latest dependency. -/
theorem latestAt_ready {taken degrees queue rest : List Nat} {node : Nat}
    (hqueued : g.Queued taken degrees (node :: queue)) (horder : taken ++ node :: rest = g.order)
    {i : Nat} (hi : i ∈ (release degrees (g.dependentsAt node)).2) :
    g.latestAt i = taken.length + 1 := by
  have hdependent : i ∈ g.dependentsAt node := by
    rw [ready_release (hg.nodup_dependentsAt node)] at hi
    exact (List.mem_filter.mp hi).1
  have hdeps : ∀ d ∈ g.dependenciesAt i, d ∈ taken ++ [node] := by
    refine (((hqueued.take hg).mem_iff i).mp ?_).2
    exact List.mem_append_right _ (List.mem_append_right _ hi)
  have hnew : node ∉ taken := fun hmem =>
    (List.nodup_append.mp hqueued.nodup).2.2 node hmem node List.mem_cons_self rfl
  have hplace : g.order.idxOf node = taken.length := by
    rw [← horder, List.idxOf_append_of_notMem hnew, List.idxOf_cons_self, Nat.add_zero]
  apply le_antisymm
  · rw [latestAt, latestPlace_le_iff]
    intro d hd
    rcases List.mem_append.mp (hdeps d hd) with hd | hd
    · rw [← horder, List.idxOf_append_of_mem hd]
      exact Nat.lt_succ_of_lt (List.idxOf_lt_length_of_mem hd)
    · rw [List.mem_singleton.mp hd, hplace]
      exact Nat.lt_succ_self _
  · have hlt := latestPlace_le_iff.mp (le_refl (g.latestAt i)) node
      ((hg.edge_iff node i).mp hdependent)
    rwa [hplace] at hlt

theorem Joined.run (hascending : ∀ i, (g.dependentsAt i).Pairwise (· < ·))
    {taken degrees queue : List Nat} (hqueued : g.Queued taken degrees queue)
    (hjoined : g.Joined taken queue) (horder : taken ++ g.takeAll degrees queue = g.order) :
    g.order.Pairwise g.JoinsBefore := by
  induction degrees, queue using takeAll.induct g generalizing taken with
  -- With an empty queue the whole order was taken.
  | case1 degrees =>
      rw [takeAll] at horder
      have hsorted := hjoined.sorted
      rwa [horder] at hsorted
  | case2 degrees node queue ih =>
      rw [takeAll] at horder
      have hready : (release degrees (g.dependentsAt node)).2.Pairwise (· < ·) := by
        rw [ready_release (hg.nodup_dependentsAt node)]
        exact (hascending node).filter _
      refine ih (hqueued.take hg) (hjoined.take (fun i hi => ?_) hready) ?_
      · exact latestAt_ready hg hqueued horder hi
      · rw [← horder, List.append_assoc, List.singleton_append]

/-- The nodes are taken in the order of their latest dependencies. -/
theorem order_pairwise_joinsBefore (hascending : ∀ i, (g.dependentsAt i).Pairwise (· < ·)) :
    g.order.Pairwise g.JoinsBefore := by
  have hroots : ∀ i ∈ g.roots, g.latestAt i = 0 := by
    intro i hi
    rw [latestAt, List.isEmpty_iff.mp (List.mem_filter.mp hi).2]
    rfl
  refine Joined.run hg hascending g.queued_start ⟨?_, fun i hi => (hroots i hi).le⟩ rfl
  have hpositions : g.roots.Pairwise (· < ·) := List.pairwise_lt_range.filter _
  refine hpositions.imp_of_mem fun hi hj hlt => .inr ⟨?_, hlt⟩
  rw [hroots _ hi, hroots _ hj]

end Order

/-! ## The order of the ids -/

section Ids

variable {steps : List Step}

/-- In the order of a valid list, the dependencies of a step have the places of the nodes that it
waits for. -/
theorem latestPlace_scheduleOf (hvalid : allErrors steps = []) {i : Nat} {s : Step}
    (hs : steps[i]? = some s) :
    latestPlace (scheduleOf steps).order s.dependencies = (ofSteps steps).latestAt i := by
  have hplace : ∀ {j : Nat} {d : String}, position? steps d = some j →
      (scheduleOf steps).order.idxOf d = (ofSteps steps).order.idxOf j := by
    intro j d hj
    rw [← idAt_of_position? hj]
    refine idxOf_map_of_injOn fun k hk heq => ?_
    have hk' := List.getElem?_eq_getElem ((mem_order_of_valid hvalid).mp hk)
    have hfound := position?_eq_some_of_nodup (nodup_of_valid hvalid) hk'
    rw [← idAt_ofSteps hk', heq, idAt_of_position? hj] at hfound
    exact Option.some.inj (hfound.symm.trans hj)
  refine eq_of_forall_ge_iff fun n => ?_
  rw [latestAt, latestPlace_le_iff, latestPlace_le_iff]
  constructor
  · intro h j hj
    obtain ⟨t, ht, d, hd, hposition⟩ := mem_dependenciesAt_ofSteps.mp hj
    obtain rfl := Option.some.inj (hs.symm.trans ht)
    rw [← hplace hposition]
    exact h d hd
  · intro h d hd
    obtain ⟨j, hj⟩ := Option.isSome_iff_exists.mp (position?_isSome_iff.mpr
      (resolved_of_valid hvalid s (List.mem_of_getElem? hs) d hd))
    rw [hplace hj]
    exact h j (mem_dependenciesAt_ofSteps.mpr ⟨s, hs, d, hd, hj⟩)

end Ids

end StepGraph

/-! ## The only order -/

/-- Of two steps the one whose latest dependency is placed first; if they have the same one, the one
that is listed first. -/
def Step.JoinsBefore (steps : List Step) (order : List String) (a b : Step) : Prop :=
  latestPlace order a.dependencies < latestPlace order b.dependencies ∨
    latestPlace order a.dependencies = latestPlace order b.dependencies ∧
      (steps.map Step.id).idxOf a.id < (steps.map Step.id).idxOf b.id

/-- How the ids of some steps with given depths are ordered. -/
structure Arranged (steps : List Step) (depth : String → Nat) (order : List String) : Prop where
  ascending : order.Pairwise fun a b => depth a ≤ depth b
  roots : ∀ a ∈ steps, ∀ b ∈ steps, depth a.id = 0 → depth b.id = 0 →
    [a.id, b.id].Sublist order → (steps.map Step.id).idxOf a.id < (steps.map Step.id).idxOf b.id
  deeper : ∀ a ∈ steps, ∀ b ∈ steps, 0 < depth a.id → depth a.id = depth b.id →
    [a.id, b.id].Sublist order → a.JoinsBefore steps order b

section Unique

variable {steps : List Step} {depth : String → Nat}

/-- Every step is deeper than those that it waits for, which are steps themselves. -/
def DeepensAlong (steps : List Step) (depth : String → Nat) : Prop :=
  ∀ s ∈ steps, ∀ d ∈ s.dependencies, d ∈ steps.map Step.id ∧ depth d < depth s.id

variable {before after after' : List String} {a b : String} {s t : Step}
  (hdeps : DeepensAlong steps depth)
include hdeps

/-- Nothing is waited for on depth zero. -/
theorem DeepensAlong.dependencies_eq_nil (hs : s ∈ steps) (hzero : depth s.id = 0) :
    s.dependencies = [] := by
  refine List.eq_nil_iff_forall_not_mem.mpr fun d hd => ?_
  have := (hdeps s hs d hd).2
  omega

/-- What a step waits for stands before everything that is as deep as the step. -/
theorem Arranged.dependencies_subset (h : Arranged steps depth (before ++ a :: after))
    (hperm : (before ++ a :: after).Perm (steps.map Step.id)) (hs : s ∈ steps)
    (hle : depth s.id ≤ depth a) : s.dependencies ⊆ before := by
  intro d hd
  obtain ⟨hid, hlt⟩ := hdeps s hs d hd
  rcases List.mem_append.mp (hperm.mem_iff.mpr hid) with hmem | hmem
  · exact hmem
  · have hsorted : (a :: after).Pairwise fun x y => depth x ≤ depth y :=
      (List.pairwise_append.mp h.ascending).2.1
    have hlow : depth a ≤ depth d := by
      rcases List.mem_cons.mp hmem with rfl | hmem
      · exact le_rfl
      · exact (List.pairwise_cons.mp hsorted).1 d hmem
    omega

/-- Of the steps of one depth that are not in a part of an arranged order yet, the next one is
settled by that part. -/
theorem Arranged.joinsBefore_of_next (h : Arranged steps depth (before ++ s.id :: after))
    (hperm : (before ++ s.id :: after).Perm (steps.map Step.id)) (hs : s ∈ steps) (ht : t ∈ steps)
    (hafter : t.id ∈ after) (hdepth : depth s.id = depth t.id) : s.JoinsBefore steps before t := by
  have hpair : [s.id, t.id].Sublist (before ++ s.id :: after) :=
    ((List.singleton_sublist.mpr hafter).cons_cons s.id).trans (List.sublist_append_right _ _)
  by_cases hzero : depth s.id = 0
  · refine .inr ⟨?_, h.roots s hs t ht hzero (hdepth ▸ hzero) hpair⟩
    rw [hdeps.dependencies_eq_nil hs hzero, hdeps.dependencies_eq_nil ht (hdepth ▸ hzero)]
  · have hjoins := h.deeper s hs t ht (Nat.pos_of_ne_zero hzero) hdepth hpair
    have hsub := h.dependencies_subset hdeps hperm hs le_rfl
    have hsub' := h.dependencies_subset hdeps hperm ht hdepth.ge
    rwa [Step.JoinsBefore, latestPlace_append hsub, latestPlace_append hsub'] at hjoins

/-- Two arranged orders that begin alike go on with the same id. -/
theorem Arranged.next_eq (h : Arranged steps depth (before ++ a :: after))
    (h' : Arranged steps depth (before ++ b :: after'))
    (hperm : (before ++ a :: after).Perm (steps.map Step.id))
    (hperm' : (before ++ b :: after').Perm (steps.map Step.id)) : a = b := by
  by_contra hne
  have hrest : (a :: after).Perm (b :: after') :=
    (List.perm_append_left_iff before).mp (hperm.trans hperm'.symm)
  have hb : b ∈ after :=
    (List.mem_cons.mp (hrest.mem_iff.mpr List.mem_cons_self)).resolve_left (Ne.symm hne)
  have ha : a ∈ after' :=
    (List.mem_cons.mp (hrest.mem_iff.mp List.mem_cons_self)).resolve_left hne
  obtain ⟨s, hs, rfl⟩ := List.mem_map.mp (hperm.mem_iff.mp (List.mem_append_right _
    (List.mem_cons_self (a := a))))
  obtain ⟨t, ht, rfl⟩ := List.mem_map.mp (hperm'.mem_iff.mp (List.mem_append_right _
    (List.mem_cons_self (a := b))))
  have hle := (List.pairwise_cons.mp (List.pairwise_append.mp h.ascending).2.1).1 _ hb
  have hge := (List.pairwise_cons.mp (List.pairwise_append.mp h'.ascending).2.1).1 _ ha
  have hdepth : depth s.id = depth t.id := le_antisymm hle hge
  have hfirst := h.joinsBefore_of_next hdeps hperm hs ht hb hdepth
  have hsecond := h'.joinsBefore_of_next hdeps hperm' ht hs ha hdepth.symm
  unfold Step.JoinsBefore at hfirst hsecond
  omega

/-- There is only one arranged order of the ids. -/
theorem Arranged.eq {order other : List String} (h : Arranged steps depth order)
    (h' : Arranged steps depth other) (hperm : order.Perm (steps.map Step.id))
    (hperm' : other.Perm (steps.map Step.id)) : order = other := by
  suffices hall : ∀ rest rest' before, order = before ++ rest → other = before ++ rest' →
      rest = rest' from hall order other [] rfl rfl
  intro rest
  induction rest with
  | nil =>
      rintro rest' before rfl rfl
      have hlength := hperm.length_eq.trans hperm'.length_eq.symm
      simpa using hlength
  | cons a rest ih =>
      rintro rest' before rfl rfl
      cases rest' with
      | nil =>
          have hlength := hperm.length_eq.trans hperm'.length_eq.symm
          simp at hlength
      | cons b rest' =>
          obtain rfl := h.next_eq hdeps h' hperm hperm'
          have hrest := ih rest' (before ++ [a]) (by simp) (by simp)
          rw [hrest]

end Unique

/-! ## The order of a valid list -/

/-- The depth that a schedule has for an id. -/
def Schedule.depthOf (s : Schedule) (id : String) : Nat := (Entries.find? id s.depths).getD 0

namespace StepGraph

section Valid

variable {steps : List Step} (hvalid : allErrors steps = [])
include hvalid

/-- The depths of a schedule are the levels of the steps. -/
theorem find?_depths {s : Step} (hs : s ∈ steps) :
    Entries.find? s.id (scheduleOf steps).depths = some (levelOf steps s.id) := by
  obtain ⟨i, hi⟩ := List.mem_iff_getElem?.mp hs
  obtain ⟨hlt, -⟩ := List.getElem?_eq_some_iff.mp hi
  refine Entries.find?_ofList_of_mem ?_ (List.mem_map.mpr ⟨i, ?_, ?_⟩)
  · have hids : (ofSteps steps).positions.map (Prod.fst ∘ fun i => ((ofSteps steps).idAt i,
        (Chains.ofOrder (ofSteps steps) (ofSteps steps).order).depthAt i)) = steps.map Step.id :=
      map_idAt_positions steps
    rw [List.map_map, hids]
    exact nodup_of_valid hvalid
  · rwa [mem_positions, size_ofSteps]
  · rw [idAt_ofSteps hi, levelOf_eq (position?_eq_some_of_nodup (nodup_of_valid hvalid) hi)]

theorem depthOf_scheduleOf {s : Step} (hs : s ∈ steps) :
    (scheduleOf steps).depthOf s.id = levelOf steps s.id := by
  rw [Schedule.depthOf, find?_depths hvalid hs, Option.getD_some]

theorem deepensAlong_scheduleOf : DeepensAlong steps (scheduleOf steps).depthOf := by
  intro s hs d hd
  have hid := resolved_of_valid hvalid s hs d hd
  obtain ⟨t, ht, rfl⟩ := List.mem_map.mp hid
  refine ⟨hid, ?_⟩
  rw [depthOf_scheduleOf hvalid hs, depthOf_scheduleOf hvalid ht]
  exact levelOf_lt_of_precedes hvalid (precedes_of_mem (nodup_of_valid hvalid) hs hd hid)

/-- A step that stands before another in the order joined the queue before it. -/
theorem joinsBefore_of_sublist {a b : Step} (ha : a ∈ steps) (hb : b ∈ steps)
    (h : [a.id, b.id].Sublist (scheduleOf steps).order) :
    a.JoinsBefore steps (scheduleOf steps).order b := by
  have hnodup := nodup_of_valid hvalid
  have hstep : ∀ {i : Nat} {s : Step}, i ∈ (ofSteps steps).order → s ∈ steps →
      s.id = (ofSteps steps).idAt i → steps[i]? = some s := by
    intro i s hi hs hid
    have hi' := List.getElem?_eq_getElem ((mem_order_of_valid hvalid).mp hi)
    rw [idAt_ofSteps hi'] at hid
    rw [hi', List.inj_on_of_nodup_map hnodup hs (List.mem_of_getElem? hi') hid]
  have hplace : ∀ {i : Nat} {s : Step}, steps[i]? = some s →
      (steps.map Step.id).idxOf s.id = i := by
    intro i s hi
    obtain ⟨hlt, rfl⟩ := List.getElem?_eq_some_iff.mp hi
    rw [← List.getElem_map Step.id (h := by simpa using hlt)]
    exact hnodup.idxOf_getElem i _
  obtain ⟨pair, hsub, heq⟩ := List.sublist_map_iff.mp h
  obtain ⟨i, j, rfl⟩ : ∃ i j, pair = [i, j] := by
    rw [← List.length_eq_two, ← List.length_map (f := (ofSteps steps).idAt), ← heq]
    rfl
  obtain ⟨hid, hid'⟩ : a.id = (ofSteps steps).idAt i ∧ b.id = (ofSteps steps).idAt j := by
    simpa using heq
  have hi := hstep (hsub.subset List.mem_cons_self) ha hid
  have hj := hstep (hsub.subset (List.mem_cons_of_mem _ List.mem_cons_self)) hb hid'
  have hjoins := List.pairwise_iff_forall_sublist.mp (order_pairwise_joinsBefore
    (coherent_ofSteps steps) (pairwise_lt_dependentsAt_ofSteps steps)) hsub
  unfold Step.JoinsBefore
  rw [latestPlace_scheduleOf hvalid hi, latestPlace_scheduleOf hvalid hj, hplace hi, hplace hj]
  exact hjoins

theorem arranged_scheduleOf :
    Arranged steps (scheduleOf steps).depthOf (scheduleOf steps).order where
  ascending := by
    refine (order_pairwise_levelOf hvalid).imp_of_mem fun {a b} ha hb hle => ?_
    obtain ⟨s, hs, rfl⟩ := List.mem_map.mp ((order_perm_ids hvalid).mem_iff.mp ha)
    obtain ⟨t, ht, rfl⟩ := List.mem_map.mp ((order_perm_ids hvalid).mem_iff.mp hb)
    rwa [depthOf_scheduleOf hvalid hs, depthOf_scheduleOf hvalid ht]
  roots a ha b hb hzero hzero' hsub := by
    have hdeps := deepensAlong_scheduleOf hvalid
    have hjoins := joinsBefore_of_sublist hvalid ha hb hsub
    unfold Step.JoinsBefore at hjoins
    rw [hdeps.dependencies_eq_nil ha hzero, hdeps.dependencies_eq_nil hb hzero'] at hjoins
    omega
  deeper _ ha _ hb _ _ hsub := joinsBefore_of_sublist hvalid ha hb hsub

omit hvalid in
/-- A batch is a piece of the order. -/
theorem batch_infix_order {batch : Batch} (hbatch : batch ∈ (scheduleOf steps).batches) :
    batch.steps <:+: (scheduleOf steps).order := by
  obtain ⟨depth, -, hsome⟩ := List.mem_filterMap.mp hbatch
  dsimp only at hsome
  split at hsome
  · obtain rfl := Option.some.inj hsome
    exact (filter_infix_of_ascending (order_pairwise_depthAt (coherent_ofSteps steps)) depth).map _
  · cases hsome

end Valid
end StepGraph

namespace Validation

open StepGraph

/-- Only a list without defects has a schedule, and it is the one of its graph. -/
theorem schedule?_ofSteps_eq_some_iff {settings : Settings} {steps : List Step} {s : Schedule} :
    (Validation.ofSteps settings steps).schedule? = some s ↔
      allErrors steps = [] ∧ s = scheduleOf steps := by
  by_cases h : allErrors steps = []
  · rw [ofSteps_of_no_errors h, schedule?, Option.some.injEq]
    exact ⟨fun heq => ⟨h, heq.symm⟩, fun ⟨_, heq⟩ => heq.symm⟩
  · rw [ofSteps_of_errors h, schedule?]
    exact ⟨nofun, fun ⟨hnil, _⟩ => absurd hnil h⟩

/-- The order of a valid list has every id once and each step after those that it waits for.  It is
the only arrangement of the ids by which depths never decrease, steps of depth zero stay as they
were listed, and the steps of any other depth follow the places of their latest dependencies and
then the list.  So a batch is a piece of the order. -/
theorem order_unique {settings : Settings} {steps : List Step} {s : Schedule}
    (h : (Validation.ofSteps settings steps).schedule? = some s) :
    s.order.Perm (steps.map Step.id) ∧
      (∀ t ∈ steps, ∀ d ∈ t.dependencies, [d, t.id].Sublist s.order) ∧
      Arranged steps s.depthOf s.order ∧
      (∀ other : List String, other.Perm (steps.map Step.id) → Arranged steps s.depthOf other →
        other = s.order) ∧
      ∀ batch ∈ s.batches, batch.steps <:+: s.order := by
  obtain ⟨hvalid, rfl⟩ := schedule?_ofSteps_eq_some_iff.mp h
  have hperm := order_perm_ids hvalid
  have harranged := arranged_scheduleOf hvalid
  refine ⟨hperm, fun t ht d hd => pair_sublist_order hvalid ht hd, harranged, ?_,
    fun batch hbatch => batch_infix_order hbatch⟩
  intro other hother harranged'
  exact harranged'.eq (deepensAlong_scheduleOf hvalid) harranged hother hperm

/-- Orders are labelled and leads are counted before both are sent.  The labels are listed before
the count, but they wait for what is placed later. -/
def reportSteps : List Step :=
  [call "leads" [], call "orders" [], call "label" ["orders"], call "count" ["leads"],
    call "send" ["count", "label"]]
where
  /-- A step that calls an operation of its own name. -/
  call (id : String) (dependencies : List String) : Step :=
    ⟨id, id, dependencies, .action "report" id []⟩

theorem schedule?_reportSteps :
    (Validation.ofSteps default reportSteps).schedule? = some (scheduleOf reportSteps) :=
  schedule?_ofSteps_eq_some_iff.mpr
    ⟨allErrors_eq_nil_of_idxOf_lt (by decide) (by decide), rfl⟩

theorem order_unique_reportSteps :
    (Validation.ofSteps default reportSteps).schedule? = some (scheduleOf reportSteps) ∧
      (scheduleOf reportSteps).order = ["leads", "orders", "count", "label", "send"] ∧
      (scheduleOf reportSteps).batches = [⟨0, ["leads", "orders"]⟩, ⟨1, ["count", "label"]⟩] ∧
      ∀ other : List String, other.Perm (reportSteps.map Step.id) →
        Arranged reportSteps (scheduleOf reportSteps).depthOf other →
          other = (scheduleOf reportSteps).order := by
  obtain ⟨-, -, -, hunique, -⟩ := order_unique schedule?_reportSteps
  exact ⟨schedule?_reportSteps, by decide +kernel, by decide +kernel, hunique⟩

end Validation
end PlanFlow
