import PlanFlow.Proofs.Emission.Upstream
import PlanFlow.Proofs.Graph.Depth
import PlanFlow.Proofs.Graph.Validation

/-!
# The schedule of a list of steps

In the schedule of a valid list of steps the order lists every step once, after those that it waits
for.  The level of a step is its depth: a step is on a higher level than all that it waits for,
directly or through others, and one above the highest of them.  Two steps stand in one batch exactly
if they are on one level, so steps of a batch never wait for each other.
-/

namespace PlanFlow
namespace StepGraph

/-! ## Positions and ids -/

section Positions

variable {steps : List Step}

theorem map_idAt_positions (steps : List Step) :
    (ofSteps steps).positions.map (ofSteps steps).idAt = steps.map Step.id := by
  refine List.ext_getElem (by simp [positions]) fun i hi hi' => ?_
  rw [List.length_map] at hi'
  rw [List.getElem_map, List.getElem_map]
  simp only [positions, List.getElem_range]
  exact idAt_ofSteps (List.getElem?_eq_getElem hi')

/-- Where no id is used twice, every step is the first one with its id. -/
theorem position?_eq_some_of_nodup (hnodup : (steps.map Step.id).Nodup) {i : Nat} {s : Step}
    (hs : steps[i]? = some s) : position? steps s.id = some i := by
  refine position?_eq_some_iff.mpr ⟨⟨s, hs, rfl⟩, fun k hk t ht heq => ?_⟩
  have hi : (steps.map Step.id)[i]? = some s.id := by rw [List.getElem?_map, hs, Option.map_some]
  have hki : (steps.map Step.id)[k]? = some s.id := by
    rw [List.getElem?_map, ht, Option.map_some, heq]
  obtain ⟨hlt, -⟩ := List.getElem?_eq_some_iff.mp hki
  exact absurd ((List.getElem?_inj hlt hnodup).mp (hki.trans hi.symm)) (Nat.ne_of_lt hk)

theorem find?_eq_some_of_nodup (hnodup : (steps.map Step.id).Nodup) {s : Step} (hs : s ∈ steps) :
    (steps.find? fun t => t.id == s.id) = some s := by
  obtain ⟨i, hi⟩ := List.mem_iff_getElem?.mp hs
  exact (getElem?_of_position? (position?_eq_some_of_nodup hnodup hi)).symm.trans hi

/-- Where no id is used twice, a step comes after those that it lists. -/
theorem precedes_of_mem (hnodup : (steps.map Step.id).Nodup) {s : Step} (hs : s ∈ steps)
    {d : String} (hd : d ∈ s.dependencies) (hid : d ∈ steps.map Step.id) :
    Precedes steps d s.id :=
  ⟨hid, s, find?_eq_some_of_nodup hnodup hs, hd⟩

end Positions

/-! ## The order -/

/-- In a legal order a dependency was taken before, or it stands before the node. -/
theorem Legal.pair_sublist {g : StepGraph} {taken rest : List Nat} (h : g.Legal taken rest)
    {i d : Nat} (hi : i ∈ rest) (hd : d ∈ g.dependenciesAt i) :
    d ∈ taken ∨ [d, i].Sublist rest := by
  induction rest generalizing taken with
  | nil => cases hi
  | cons node rest ih =>
      obtain ⟨hdeps, hrest⟩ := h
      rcases List.mem_cons.mp hi with rfl | hi
      · exact .inl (hdeps d hd)
      · rcases ih hrest hi with hmem | hsub
        · rcases List.mem_append.mp hmem with hmem | hmem
          · exact .inl hmem
          · rw [List.mem_singleton.mp hmem]
            exact .inr (.cons_cons node (List.singleton_sublist.mpr hi))
        · exact .inr (.cons node hsub)

theorem foldl_max_le_iff {l : List Nat} {start n : Nat} :
    l.foldl max start ≤ n ↔ start ≤ n ∧ ∀ m ∈ l, m ≤ n := by
  induction l generalizing start with
  | nil => simp
  | cons m rest ih =>
      rw [List.foldl_cons, ih, Nat.max_le, List.forall_mem_cons, and_assoc]

theorem maxDepth_le_iff {g : StepGraph} {c : Chains} {n : Nat} :
    g.maxDepth c ≤ n ↔ ∀ i ∈ g.positions, c.depthAt i ≤ n := by
  rw [maxDepth, foldl_max_le_iff, List.forall_mem_map]
  exact and_iff_right (Nat.zero_le n)

theorem depthAt_le_maxDepth {g : StepGraph} (c : Chains) {i : Nat} (hi : i ∈ g.positions) :
    c.depthAt i ≤ g.maxDepth c :=
  maxDepth_le_iff.mp le_rfl i hi

/-- The schedule of a list of steps, which is right if the list is valid. -/
def scheduleOf (steps : List Step) : Schedule :=
  (ofSteps steps).schedule (ofSteps steps).order

/-- The depth of the first step with an id. -/
def levelOf (steps : List Step) (id : String) : Nat :=
  ((position? steps id).map (Chains.ofOrder (ofSteps steps) (ofSteps steps).order).depthAt).getD 0

theorem levelOf_eq {steps : List Step} {id : String} {i : Nat} (h : position? steps id = some i) :
    levelOf steps id = (Chains.ofOrder (ofSteps steps) (ofSteps steps).order).depthAt i := by
  rw [levelOf, h, Option.map_some, Option.getD_some]

/-- No step is deeper than the schedule. -/
theorem levelOf_le_maxDepth {steps : List Step} {id : String} (hid : id ∈ steps.map Step.id) :
    levelOf steps id ≤ (scheduleOf steps).maxDepth := by
  obtain ⟨i, hi⟩ := Option.isSome_iff_exists.mp (position?_isSome_iff.mpr hid)
  obtain ⟨⟨s, hs, -⟩, -⟩ := position?_eq_some_iff.mp hi
  obtain ⟨hlt, -⟩ := List.getElem?_eq_some_iff.mp hs
  rw [levelOf_eq hi]
  refine depthAt_le_maxDepth _ (mem_positions.mpr ?_)
  rwa [size_ofSteps]

section Valid

variable {steps : List Step} (hvalid : allErrors steps = [])
include hvalid

theorem nodup_of_valid : (steps.map Step.id).Nodup := (allErrors_eq_nil_iff.mp hvalid).1

theorem resolved_of_valid : ∀ s ∈ steps, ∀ d ∈ s.dependencies, d ∈ steps.map Step.id :=
  (allErrors_eq_nil_iff.mp hvalid).2.1

theorem acyclic_of_valid : ∀ id, ¬Relation.TransGen (Precedes steps) id id :=
  (allErrors_eq_nil_iff.mp hvalid).2.2

theorem order_perm_of_valid : (ofSteps steps).order.Perm (ofSteps steps).positions := by
  have hnone : cyclesOf steps = [] := (cyclesOf_eq_nil_iff steps).mpr (acyclic_of_valid hvalid)
  rw [cyclesOf, cycles, List.map_eq_nil_iff,
    cyclePositions_eq_nil_iff (coherent_ofSteps steps)] at hnone
  exact order_perm_positions (coherent_ofSteps steps) hnone

theorem mem_order_of_valid {i : Nat} : i ∈ (ofSteps steps).order ↔ i < steps.length := by
  rw [(order_perm_of_valid hvalid).mem_iff, mem_positions, size_ofSteps]

/-- The order lists the ids of all steps, each once. -/
theorem order_perm_ids : (scheduleOf steps).order.Perm (steps.map Step.id) := by
  rw [← map_idAt_positions]
  exact (order_perm_of_valid hvalid).map _

/-- In the order a step stands after those that it waits for. -/
theorem pair_sublist_order {s : Step} (hs : s ∈ steps) {d : String} (hd : d ∈ s.dependencies) :
    [d, s.id].Sublist (scheduleOf steps).order := by
  obtain ⟨j, hj⟩ := List.mem_iff_getElem?.mp hs
  have hmem := resolved_of_valid hvalid s hs d hd
  obtain ⟨i, hi⟩ := Option.isSome_iff_exists.mp (position?_isSome_iff.mpr hmem)
  have hdep : i ∈ (ofSteps steps).dependenciesAt j :=
    mem_dependenciesAt_ofSteps.mpr ⟨s, hj, d, hd, hi⟩
  obtain ⟨hlt, -⟩ := List.getElem?_eq_some_iff.mp hj
  have hlegal := legal_order (coherent_ofSteps steps)
  rcases hlegal.pair_sublist ((mem_order_of_valid hvalid).mpr hlt) hdep with hnil | hsub
  · cases hnil
  · have hpair := hsub.map (ofSteps steps).idAt
    rwa [List.map_cons, List.map_singleton, idAt_of_position? hi, idAt_ofSteps hj] at hpair

/-! ## Levels -/

/-- The level of a step is the depth of its node. -/
theorem levelOf_idAt {i : Nat} (hi : i ∈ (ofSteps steps).order) :
    levelOf steps ((ofSteps steps).idAt i) =
      (Chains.ofOrder (ofSteps steps) (ofSteps steps).order).depthAt i := by
  have hstep := List.getElem?_eq_getElem ((mem_order_of_valid hvalid).mp hi)
  rw [idAt_ofSteps hstep]
  exact levelOf_eq (position?_eq_some_of_nodup (nodup_of_valid hvalid) hstep)

theorem levelOf_lt_of_precedes {a b : String} (h : Precedes steps a b) :
    levelOf steps a < levelOf steps b := by
  obtain ⟨i, j, hi, hj, hedge⟩ := exists_edge_of_precedes h
  have hlt := (coherent_ofSteps steps).lt_right hedge
  rw [size_ofSteps] at hlt
  rw [levelOf_eq hi, levelOf_eq hj]
  exact depthAt_lt_of_edge (coherent_ofSteps steps) hedge ((mem_order_of_valid hvalid).mpr hlt)

/-- A step is on a higher level than all that it waits for, directly or through others. -/
theorem levelOf_lt_of_transGen {a b : String} (h : Relation.TransGen (Precedes steps) a b) :
    levelOf steps a < levelOf steps b := by
  induction h with
  | single hstep => exact levelOf_lt_of_precedes hvalid hstep
  | tail _ hstep ih => exact ih.trans (levelOf_lt_of_precedes hvalid hstep)

theorem precedes_of_feeds {a b : String} (h : Feeds steps a b) : Precedes steps a b := by
  obtain ⟨s, hs, rfl, ha⟩ := h
  exact precedes_of_mem (nodup_of_valid hvalid) hs ha (resolved_of_valid hvalid s hs a ha)

theorem levelOf_lt_of_feeds {a b : String} (h : Feeds steps a b) :
    levelOf steps a < levelOf steps b :=
  levelOf_lt_of_precedes hvalid (precedes_of_feeds hvalid h)

theorem levelOf_lt_of_transGen_feeds {a b : String} (h : Relation.TransGen (Feeds steps) a b) :
    levelOf steps a < levelOf steps b :=
  levelOf_lt_of_transGen hvalid (Relation.TransGen.mono (fun _ _ => precedes_of_feeds hvalid) a b h)

/-- A step that waits for nothing is on level zero. -/
theorem levelOf_eq_zero {s : Step} (hs : s ∈ steps) (hnone : s.dependencies = []) :
    levelOf steps s.id = 0 := by
  obtain ⟨j, hj⟩ := List.mem_iff_getElem?.mp hs
  obtain ⟨hlt, -⟩ := List.getElem?_eq_some_iff.mp hj
  rw [levelOf_eq (position?_eq_some_of_nodup (nodup_of_valid hvalid) hj)]
  refine depthAt_eq_zero (coherent_ofSteps steps) ((mem_order_of_valid hvalid).mpr hlt) ?_
  rw [dependenciesAt_ofSteps hj, waitsFor, hnone]
  rfl

/-- A step that waits for others is one level above one of them. -/
theorem exists_levelOf_eq {s : Step} (hs : s ∈ steps) (hsome : s.dependencies ≠ []) :
    ∃ d ∈ s.dependencies, levelOf steps s.id = levelOf steps d + 1 := by
  obtain ⟨j, hj⟩ := List.mem_iff_getElem?.mp hs
  obtain ⟨hlt, -⟩ := List.getElem?_eq_some_iff.mp hj
  obtain ⟨first, hfirst⟩ := List.exists_mem_of_ne_nil _ hsome
  obtain ⟨k, hk⟩ := Option.isSome_iff_exists.mp
    (position?_isSome_iff.mpr (resolved_of_valid hvalid s hs first hfirst))
  have hdeps : (ofSteps steps).dependenciesAt j ≠ [] :=
    List.ne_nil_of_mem (mem_dependenciesAt_ofSteps.mpr ⟨s, hj, first, hfirst, hk⟩)
  obtain ⟨i, hedge, hdepth⟩ :=
    exists_depthAt_eq (coherent_ofSteps steps) ((mem_order_of_valid hvalid).mpr hlt) hdeps
  obtain ⟨t, ht, d, hd, hi⟩ := edge_ofSteps.mp hedge
  obtain rfl : s = t := Option.some.inj (hj.symm.trans ht)
  refine ⟨d, hd, ?_⟩
  rw [levelOf_eq hi, levelOf_eq (position?_eq_some_of_nodup (nodup_of_valid hvalid) hj), hdepth]

/-- A step that waits for something, and besides only for what is no higher, is one level above
it. -/
theorem levelOf_eq_succ {s : Step} (hs : s ∈ steps) {d : String} (hd : d ∈ s.dependencies)
    (hothers : ∀ other ∈ s.dependencies, levelOf steps other ≤ levelOf steps d) :
    levelOf steps s.id = levelOf steps d + 1 := by
  obtain ⟨highest, hmem, heq⟩ := exists_levelOf_eq hvalid hs (List.ne_nil_of_mem hd)
  have hle := hothers highest hmem
  have hlt := levelOf_lt_of_precedes hvalid
    (precedes_of_mem (nodup_of_valid hvalid) hs hd (resolved_of_valid hvalid s hs d hd))
  omega

/-! ## Batches -/

/-- The ids of a depth are those of the steps on that level. -/
theorem mem_atDepth_iff {id : String} {depth : Nat} :
    id ∈ (ofSteps steps).atDepth (Chains.ofOrder (ofSteps steps) (ofSteps steps).order)
        (ofSteps steps).order depth ↔
      id ∈ steps.map Step.id ∧ levelOf steps id = depth := by
  have hposition : ∀ {i : Nat} {s : Step}, steps[i]? = some s → position? steps s.id = some i :=
    position?_eq_some_of_nodup (nodup_of_valid hvalid)
  simp only [atDepth, List.mem_map, List.mem_filter, beq_iff_eq, mem_order_of_valid hvalid]
  constructor
  · rintro ⟨i, ⟨hlt, hdepth⟩, rfl⟩
    have hi : steps[i]? = some steps[i] := List.getElem?_eq_getElem hlt
    rw [idAt_ofSteps hi]
    exact ⟨⟨_, List.getElem_mem hlt, rfl⟩, (levelOf_eq (hposition hi)).trans hdepth⟩
  · rintro ⟨⟨s, hs, rfl⟩, hlevel⟩
    obtain ⟨i, hi⟩ := List.mem_iff_getElem?.mp hs
    obtain ⟨hlt, -⟩ := List.getElem?_eq_some_iff.mp hi
    exact ⟨i, ⟨hlt, (levelOf_eq (hposition hi)).symm.trans hlevel⟩, idAt_ofSteps hi⟩

/-- The steps of a batch are on one level. -/
theorem levelOf_eq_of_mem_batch {batch : Batch} (hbatch : batch ∈ (scheduleOf steps).batches)
    {id : String} (hid : id ∈ batch.steps) : levelOf steps id = batch.depth := by
  obtain ⟨depth, -, hsome⟩ := List.mem_filterMap.mp hbatch
  dsimp only at hsome
  split at hsome
  · obtain rfl := Option.some.inj hsome
    exact ((mem_atDepth_iff hvalid).mp hid).2
  · cases hsome

/-- Two steps on one level stand in one batch. -/
theorem exists_batch {a b : String} (ha : a ∈ steps.map Step.id) (hb : b ∈ steps.map Step.id)
    (hne : a ≠ b) (hlevel : levelOf steps a = levelOf steps b) :
    ∃ batch ∈ (scheduleOf steps).batches, a ∈ batch.steps ∧ b ∈ batch.steps := by
  let g := ofSteps steps
  let c := Chains.ofOrder g g.order
  have ha' : a ∈ g.atDepth c g.order (levelOf steps a) := (mem_atDepth_iff hvalid).mpr ⟨ha, rfl⟩
  have hb' : b ∈ g.atDepth c g.order (levelOf steps a) :=
    (mem_atDepth_iff hvalid).mpr ⟨hb, hlevel.symm⟩
  refine ⟨⟨levelOf steps a, g.atDepth c g.order (levelOf steps a)⟩, ?_, ha', hb'⟩
  have hlong : 1 < (g.atDepth c g.order (levelOf steps a)).length := by
    have hpair : [a, b].Nodup := by simpa using hne
    have hsubset : [a, b] ⊆ g.atDepth c g.order (levelOf steps a) :=
      List.cons_subset.mpr ⟨ha', Ids.singleton_subset hb'⟩
    exact (hpair.subperm hsubset).length_le
  have hle : levelOf steps a ≤ g.maxDepth c := levelOf_le_maxDepth ha
  refine List.mem_filterMap.mpr ⟨levelOf steps a, List.mem_range.mpr (Nat.lt_succ_of_le hle), ?_⟩
  exact if_pos hlong

/-! ## Levels along the order -/

omit hvalid in
/-- Of two members of a list one stands before the other. -/
theorem pair_sublist_or_swap {l : List String} {a b : String} (ha : a ∈ l) (hb : b ∈ l)
    (hne : a ≠ b) : [a, b].Sublist l ∨ [b, a].Sublist l := by
  obtain ⟨before, after, rfl⟩ := List.append_of_mem ha
  rcases List.mem_append.mp hb with hb | hb
  · exact .inr ((List.singleton_sublist.mpr hb).append
      (List.singleton_sublist.mpr List.mem_cons_self))
  · have hafter : b ∈ after := (List.mem_cons.mp hb).resolve_left (Ne.symm hne)
    exact .inl (((List.singleton_sublist.mpr hafter).cons_cons a).trans
      (List.sublist_append_right before _))

/-- The order never goes back to a lower level. -/
theorem order_pairwise_levelOf :
    (scheduleOf steps).order.Pairwise fun a b => levelOf steps a ≤ levelOf steps b := by
  refine List.pairwise_map.mpr ((order_pairwise_depthAt (coherent_ofSteps steps)).imp_of_mem ?_)
  intro i j hi hj hle
  rwa [levelOf_idAt hvalid hi, levelOf_idAt hvalid hj]

/-- A step is on a higher level than another exactly if it comes after the other and is in no batch
with it. -/
theorem levelOf_lt_iff {a b : String} (ha : a ∈ steps.map Step.id) (hb : b ∈ steps.map Step.id) :
    levelOf steps a < levelOf steps b ↔
      [a, b].Sublist (scheduleOf steps).order ∧
        ∀ batch ∈ (scheduleOf steps).batches, ¬(a ∈ batch.steps ∧ b ∈ batch.steps) := by
  have hsorted : ∀ {x y}, [x, y].Sublist (scheduleOf steps).order →
      levelOf steps x ≤ levelOf steps y :=
    List.pairwise_iff_forall_sublist.mp (order_pairwise_levelOf hvalid)
  have hperm := order_perm_ids hvalid
  constructor
  · intro hlt
    have hne : a ≠ b := fun heq => Nat.ne_of_lt hlt (congrArg _ heq)
    refine ⟨?_, fun batch hbatch => ?_⟩
    · rcases pair_sublist_or_swap (hperm.mem_iff.mpr ha) (hperm.mem_iff.mpr hb) hne with h | h
      · exact h
      · exact absurd (hsorted h) (Nat.not_le_of_lt hlt)
    · rintro ⟨hina, hinb⟩
      rw [levelOf_eq_of_mem_batch hvalid hbatch hina,
        levelOf_eq_of_mem_batch hvalid hbatch hinb] at hlt
      exact Nat.lt_irrefl _ hlt
  · rintro ⟨hsub, hapart⟩
    refine lt_of_le_of_ne (hsorted hsub) fun heq => ?_
    have hnodup : [a, b].Nodup := (hperm.nodup_iff.mpr (nodup_of_valid hvalid)).sublist hsub
    have hne : a ≠ b := by simpa using hnodup
    obtain ⟨batch, hbatch, hboth⟩ := exists_batch hvalid ha hb hne heq
    exact hapart batch hbatch hboth

end Valid
end StepGraph
end PlanFlow
