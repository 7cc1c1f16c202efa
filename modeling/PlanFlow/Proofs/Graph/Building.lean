import PlanFlow.Proofs.Graph.Edges
import PlanFlow.Proofs.Listing

/-!
# Building a step graph in two passes

The first pass goes over the steps and keeps at which position each id came first and which ids were
reported as repeated.  The second one goes over what the steps mention and enters each edge at both
of its ends, unless it was entered before.  The passes come to the graph of the steps and to its
structural errors.
-/

namespace PlanFlow
namespace StepGraph

/-! ## The first pass -/

/-- What the first pass keeps: the ids that it came to with the positions at which they came first,
the ids that were reported, and the reports. -/
structure Census where
  index : List (String × Nat)
  reported : List String
  errors : List GraphError

namespace Census

/-- Takes the id of the step at a position. -/
def take (c : Census) (entry : Step × Nat) : Census :=
  if (Entries.find? entry.1.id c.index).isSome then
    if c.reported.contains entry.1.id then c
    else
      { c with
        reported := entry.1.id :: c.reported
        errors := c.errors ++ [.duplicateStep entry.1.id] }
  else { c with index := (entry.1.id, entry.2) :: c.index }

/-- The first pass over steps. -/
def ofSteps (steps : List Step) : Census := steps.zipIdx.foldl take ⟨[], [], []⟩

/-- The index leads to the first positions in the steps, and the ids that are repeated among them
were reported. -/
structure Covers (c : Census) (steps : List Step) : Prop where
  find : ∀ id, Entries.find? id c.index = position? steps id
  mem_reported : ∀ id, id ∈ c.reported ↔ 2 ≤ (steps.map Step.id).count id
  errors_eq : c.errors = (Ids.repeated (steps.map Step.id)).map .duplicateStep

theorem position?_concat (steps : List Step) (s : Step) (id : String) :
    position? (steps ++ [s]) id =
      (position? steps id).or (if s.id = id then some steps.length else none) := by
  rw [position?, List.findIdx?_append, ← position?]
  by_cases h : s.id = id <;> simp [h]

theorem count_concat (steps : List Step) (s : Step) (id : String) :
    ((steps ++ [s]).map Step.id).count id =
      (steps.map Step.id).count id + if s.id = id then 1 else 0 := by
  simp [List.count_append, List.count_singleton]

/-- An id that came before is still found where it came first. -/
theorem Covers.find_concat {c : Census} {steps : List Step} (h : c.Covers steps) {s : Step}
    (hold : (Entries.find? s.id c.index).isSome) (id : String) :
    Entries.find? id c.index = position? (steps ++ [s]) id := by
  rw [position?_concat, ← h.find]
  by_cases hid : s.id = id
  · subst hid
    rw [Option.or_of_isSome hold]
  · rw [if_neg hid, Option.or_none]

/-- An id is entered when it comes for the first time and reported when it comes for the second
time; after that it does not matter. -/
theorem Covers.take {c : Census} {steps : List Step} (h : c.Covers steps) (s : Step) :
    (c.take (s, steps.length)).Covers (steps ++ [s]) := by
  have hknown : (Entries.find? s.id c.index).isSome ↔ 1 ≤ (steps.map Step.id).count s.id := by
    rw [h.find, position?_isSome_iff, ← List.count_pos_iff, Nat.succ_le_iff]
  have hreported := h.mem_reported s.id
  have hrepeated : Ids.repeated ((steps ++ [s]).map Step.id) = Ids.repeated (steps.map Step.id) ++
      if (steps.map Step.id).count s.id = 1 then [s.id] else [] := by
    rw [List.map_append, List.map_singleton, Ids.repeated_concat]
  obtain hcount | hcount | hcount : (steps.map Step.id).count s.id = 0 ∨
      (steps.map Step.id).count s.id = 1 ∨ 2 ≤ (steps.map Step.id).count s.id := by omega
  · have hnew : ¬(Entries.find? s.id c.index).isSome := by
      rw [hknown]
      omega
    rw [Census.take, if_neg hnew]
    refine ⟨fun id => ?_, fun id => ?_, ?_⟩
    · rw [position?_concat, ← h.find, Entries.find?]
      by_cases hid : s.id = id
      · subst hid
        rw [Option.not_isSome_iff_eq_none.mp hnew, if_pos rfl, Option.none_or]
      · rw [if_neg hid, if_neg hid, Option.or_none]
    · rw [h.mem_reported, count_concat]
      split
      · subst id
        omega
      · rfl
    · rw [h.errors_eq, hrepeated, if_neg (by omega), List.append_nil]
  · have hold := hknown.mpr (Nat.le_of_eq hcount.symm)
    have honce : s.id ∉ c.reported := by
      rw [hreported]
      omega
    rw [Census.take, if_pos hold, if_neg (List.contains_iff_mem.not.mpr honce)]
    refine ⟨h.find_concat hold, fun id => ?_, ?_⟩
    · rw [List.mem_cons, h.mem_reported, count_concat]
      split
      · subst id
        simp [hcount]
      · exact or_iff_right (Ne.symm ‹_›)
    · rw [h.errors_eq, hrepeated, if_pos hcount, List.map_append, List.map_singleton]
  · have hold := hknown.mpr (Nat.le_of_succ_le hcount)
    rw [Census.take, if_pos hold, if_pos (List.contains_iff_mem.mpr (hreported.mpr hcount))]
    refine ⟨h.find_concat hold, fun id => ?_, ?_⟩
    · rw [h.mem_reported, count_concat]
      split
      · subst id
        omega
      · rfl
    · rw [h.errors_eq, hrepeated, if_neg (by omega), List.append_nil]

theorem covers_ofSteps (steps : List Step) : (ofSteps steps).Covers steps := by
  induction steps using List.reverseRecOn with
  | nil => exact ⟨fun _ => rfl, fun id => by simp [ofSteps], rfl⟩
  | append_singleton steps s ih =>
      have htake : ofSteps (steps ++ [s]) = (ofSteps steps).take (s, steps.length) := by
        simp [ofSteps, List.zipIdx_append]
      rw [htake]
      exact ih.take s

end Census

/-! ## The second pass -/

/-- The graph with one more edge, which both of its ends know. -/
def join (g : StepGraph) (d i : Nat) : StepGraph :=
  let waiting := g.nodes.modify i fun n => { n with dependencies := n.dependencies ++ [d] }
  ⟨waiting.modify d fun n => { n with dependents := n.dependents ++ [i] }⟩

/-- The state of the second pass: the graph with the edges so far, and the errors. -/
structure Drawing where
  graph : StepGraph
  errors : List GraphError

namespace Drawing

/-- Follows a dependency of the step at a position. -/
def follow (index : List (String × Nat)) (s : Step) (i : Nat) (w : Drawing) (id : String) :
    Drawing :=
  match Entries.find? id index with
  | some d =>
    if (w.graph.dependenciesAt i).contains d then w else { w with graph := w.graph.join d i }
  | none => { w with errors := w.errors ++ [.missingDependency s.id id] }

/-- Follows all dependencies of the step at a position. -/
def followAll (index : List (String × Nat)) (w : Drawing) (entry : Step × Nat) : Drawing :=
  entry.1.dependencies.foldl (follow index entry.1 entry.2) w

end Drawing

/-- The graph of steps without any edges. -/
def bare (steps : List Step) : StepGraph := ⟨steps.map fun s => ⟨s.id, [], []⟩⟩

/-- The two passes over steps. -/
def built (steps : List Step) : Drawing :=
  let census := Census.ofSteps steps
  steps.zipIdx.foldl (Drawing.followAll census.index) ⟨bare steps, census.errors⟩

/-- The graph of steps that wait for the positions in some lists, as far as the lists go. -/
def withLists (steps : List Step) (lists : List (List Nat)) : StepGraph :=
  ⟨steps.zipIdx.map fun (s, i) => ⟨s.id, lists[i]?.getD [], holding lists i⟩⟩

section Lists

variable {steps : List Step} {lists : List (List Nat)} {list : List Nat} {d : Nat}

theorem getElem?_join (g : StepGraph) (d i k : Nat) : (g.join d i).nodes[k]? =
    g.nodes[k]?.map fun n => ⟨n.id, n.dependencies ++ if k = i then [d] else [],
      n.dependents ++ if k = d then [i] else []⟩ := by
  rw [join, List.getElem?_modify, List.getElem?_modify]
  cases g.nodes[k]? with
  | none => rfl
  | some n => by_cases hd : d = k <;> by_cases hi : i = k <;> simp [hd, hi, Ne.symm]

theorem ext_nodes {g g' : StepGraph} (h : ∀ k : Nat, g.nodes[k]? = g'.nodes[k]?) : g = g' :=
  congrArg StepGraph.mk (List.ext_getElem? h)

theorem getElem?_withLists (k : Nat) : (withLists steps lists).nodes[k]? =
    steps[k]?.map fun s => ⟨s.id, lists[k]?.getD [], holding lists k⟩ := by
  simp [withLists, List.getElem?_zipIdx, Option.map_map, Function.comp_def]

theorem withLists_nil : withLists steps [] = bare steps := by
  refine ext_nodes fun k => ?_
  rw [getElem?_withLists, bare, List.getElem?_map]
  rfl

/-- If the lists are complete, the graph is. -/
theorem withLists_waitsFor : withLists steps (steps.map (waitsFor steps)) = ofSteps steps := by
  refine ext_nodes fun k => ?_
  rw [getElem?_withLists, getElem?_ofSteps]
  refine Option.map_congr fun s hs => ?_
  rw [List.getElem?_map, hs, Option.map_some, Option.getD_some]

theorem holding_concat (n : Nat) : holding (lists ++ [list]) n =
    holding lists n ++ if n ∈ list then [lists.length] else [] := by
  by_cases h : n ∈ list <;> simp [holding, List.zipIdx_append, h]

theorem getD_concat (k : Nat) : (lists ++ [list])[k]?.getD [] =
    if k = lists.length then list else lists[k]?.getD [] := by
  rcases Nat.lt_trichotomy k lists.length with h | rfl | h
  · rw [List.getElem?_append_left h, if_neg (Nat.ne_of_lt h)]
  · simp
  · have hnone : lists[k]? = none := List.getElem?_eq_none (Nat.le_of_lt h)
    have hnone' : (lists ++ [list])[k]? = none := by
      refine List.getElem?_eq_none ?_
      rw [List.length_append]
      exact h
    rw [hnone, hnone', if_neg (Nat.ne_of_gt h)]

/-- A step whose dependencies were not followed yet waits for nothing. -/
theorem withLists_concat_nil : withLists steps (lists ++ [[]]) = withLists steps lists := by
  refine ext_nodes fun k => ?_
  have hnone : (lists ++ [[]])[k]?.getD [] = lists[k]?.getD [] := by
    rw [getD_concat]
    split
    · subst k
      simp
    · rfl
  rw [getElem?_withLists, getElem?_withLists, hnone, holding_concat, if_neg List.not_mem_nil,
    List.append_nil]

/-- To enter an edge of the last step is to add to the last list. -/
theorem join_withLists (hnew : d ∉ list) :
    (withLists steps (lists ++ [list])).join d lists.length =
      withLists steps (lists ++ [list ++ [d]]) := by
  refine ext_nodes fun k => ?_
  have hdependencies : (lists ++ [list])[k]?.getD [] ++ (if k = lists.length then [d] else []) =
      (lists ++ [list ++ [d]])[k]?.getD [] := by
    rw [getD_concat, getD_concat]
    split
    · rfl
    · exact List.append_nil _
  have hdependents : holding (lists ++ [list]) k ++ (if k = d then [lists.length] else []) =
      holding (lists ++ [list ++ [d]]) k := by
    rw [holding_concat, holding_concat, List.append_assoc]
    by_cases hk : k = d
    · subst hk
      simp [hnew]
    · simp [hk]
  rw [getElem?_join, getElem?_withLists, getElem?_withLists, Option.map_map, ← hdependencies,
    ← hdependents]
  rfl

/-- In a graph by lists a step waits for the positions in its list. -/
theorem dependenciesAt_withLists (hlt : lists.length < steps.length) :
    (withLists steps (lists ++ [list])).dependenciesAt lists.length = list := by
  rw [dependenciesAt, getElem?_withLists, List.getElem?_eq_getElem hlt, getD_concat, if_pos rfl]
  rfl

end Lists

section Following

variable {steps : List Step} {index : List (String × Nat)} {lists : List (List Nat)}
variable (hindex : ∀ id, Entries.find? id index = position? steps id)
variable (hlt : lists.length < steps.length)
include hindex hlt

/-- To follow one more dependency adds its position to the list, unless it is there. -/
theorem follow_withLists (s : Step) (ids : List String) (id : String)
    (errors : List GraphError) :
    Drawing.follow index s lists.length
        ⟨withLists steps (lists ++ [(ids.filterMap (position? steps)).eraseDups]), errors⟩ id =
      ⟨withLists steps (lists ++ [((ids ++ [id]).filterMap (position? steps)).eraseDups]),
        errors ++ ([id].filter fun d => (position? steps d).isNone).map
          (.missingDependency s.id)⟩ := by
  rw [Drawing.follow, hindex, List.filterMap_append]
  cases hpos : position? steps id with
  | none => simp [hpos]
  | some d =>
      have hsingle : [id].filterMap (position? steps) = [d] := by simp [hpos]
      have hresolved : ([id].filter fun d => (position? steps d).isNone) = [] := by simp [hpos]
      rw [hsingle, hresolved, List.map_nil, List.append_nil]
      simp only [dependenciesAt_withLists hlt, List.contains_iff_mem, List.mem_eraseDups]
      by_cases hd : d ∈ ids.filterMap (position? steps)
      · rw [if_pos hd, Ids.eraseDups_concat_of_mem hd]
      · rw [if_neg hd, Ids.eraseDups_concat_of_not_mem hd,
          join_withLists (List.mem_eraseDups.not.mpr hd)]

theorem followAll_withLists (s : Step) (errors : List GraphError) :
    Drawing.followAll index ⟨withLists steps lists, errors⟩ (s, lists.length) =
      ⟨withLists steps (lists ++ [waitsFor steps s]),
        errors ++ (unresolved steps s).map (.missingDependency s.id)⟩ := by
  have hall (ids : List String) :
      ids.foldl (Drawing.follow index s lists.length) ⟨withLists steps lists, errors⟩ =
        ⟨withLists steps (lists ++ [(ids.filterMap (position? steps)).eraseDups]),
          errors ++ (ids.filter fun d => (position? steps d).isNone).map
            (.missingDependency s.id)⟩ := by
    induction ids using List.reverseRecOn with
    | nil => simp [withLists_concat_nil]
    | append_singleton ids id ih =>
        rw [List.foldl_concat, ih, follow_withLists hindex hlt, List.filter_append,
          List.map_append, List.append_assoc]
  exact hall s.dependencies

end Following

/-- The second pass over the first steps enters the edges of these steps. -/
theorem foldl_followAll {steps : List Step} {index : List (String × Nat)}
    (hindex : ∀ id, Entries.find? id index = position? steps id) (errors : List GraphError)
    {done : List Step} (hle : done.length ≤ steps.length) :
    done.zipIdx.foldl (Drawing.followAll index) ⟨bare steps, errors⟩ =
      ⟨withLists steps (done.map (waitsFor steps)),
        errors ++ done.flatMap fun s => (unresolved steps s).map (.missingDependency s.id)⟩ := by
  induction done using List.reverseRecOn with
  | nil => simp [withLists_nil]
  | append_singleton done s ih =>
      rw [List.length_append, List.length_singleton] at hle
      have hlength : (done.map (waitsFor steps)).length = done.length := List.length_map _
      have hzip : (done ++ [s]).zipIdx =
          done.zipIdx ++ [(s, (done.map (waitsFor steps)).length)] := by
        simp [List.zipIdx_append]
      rw [hzip, List.foldl_concat, ih (Nat.le_of_succ_le hle),
        followAll_withLists hindex (hlength ▸ hle), List.map_append, List.flatMap_append,
        List.map_singleton, List.flatMap_singleton, List.append_assoc]

/-- The passes come to the graph of the steps and to its errors. -/
theorem built_eq (steps : List Step) : built steps = ⟨ofSteps steps, structuralErrors steps⟩ := by
  have hcensus := Census.covers_ofSteps steps
  rw [built, foldl_followAll hcensus.find _ (Nat.le_refl _), hcensus.errors_eq,
    withLists_waitsFor, structuralErrors]

/-! ## What the graph and the errors say -/

/-- What is found by some members of a list stands in the order in which these come first. -/
theorem pairwise_idxOf_filterMap {α β : Type} [BEq α] [LawfulBEq α] [BEq β] [LawfulBEq β]
    {find : α → Option β} {name : β → α} (hname : ∀ a b, find a = some b → name b = a)
    (l : List α) : (l.filterMap find).eraseDups.Pairwise fun b c =>
      l.idxOf (name b) < l.idxOf (name c) := by
  have hmem {l : List α} {b : β} (hb : b ∈ (l.filterMap find).eraseDups) : name b ∈ l := by
    obtain ⟨a, ha, hfind⟩ := List.mem_filterMap.mp (List.mem_eraseDups.mp hb)
    rwa [hname a b hfind]
  induction l using List.reverseRecOn with
  | nil => simp
  | append_singleton l last ih =>
      have hkept : (l.filterMap find).eraseDups.Pairwise fun b c =>
          (l ++ [last]).idxOf (name b) < (l ++ [last]).idxOf (name c) := by
        refine ih.imp_of_mem fun {b c} hb hc hlt => ?_
        rwa [List.idxOf_append_of_mem (hmem hb), List.idxOf_append_of_mem (hmem hc)]
      rw [List.filterMap_append]
      cases hlast : find last with
      | none => simpa [hlast] using hkept
      | some d =>
          have hsingle : [last].filterMap find = [d] := by simp [hlast]
          rw [hsingle]
          by_cases hd : d ∈ l.filterMap find
          · rwa [Ids.eraseDups_concat_of_mem hd]
          · -- A member that was there before would have been found before.
            have hnew : last ∉ l := fun hmem => hd (List.mem_filterMap.mpr ⟨last, hmem, hlast⟩)
            rw [Ids.eraseDups_concat_of_not_mem hd, List.pairwise_append]
            refine ⟨hkept, List.pairwise_singleton _ _, fun b hb c hc => ?_⟩
            obtain rfl := List.mem_singleton.mp hc
            rw [hname last c hlast, List.idxOf_append_of_mem (hmem hb),
              List.idxOf_append_of_notMem hnew]
            exact Nat.lt_add_right _ (List.idxOf_lt_length_of_mem (hmem hb))

/-- An id stands at a position for the second time. -/
def RepeatedAt (steps : List Step) (place : Nat) (id : String) : Prop :=
  (steps.map Step.id)[place]? = some id ∧
    ∃! earlier, earlier < place ∧ (steps.map Step.id)[earlier]? = some id

/-- At the number of a step and a place in its dependencies stands an id that no step has; so says
the error. -/
def DanglingAt (steps : List Step) (place : ℕ ×ₗ ℕ) (error : GraphError) : Prop :=
  ∃ i s k d, toLex (i, k) = place ∧ steps[i]? = some s ∧ s.dependencies[k]? = some d ∧
    d ∉ steps.map Step.id ∧ error = .missingDependency s.id d

section Statement

variable {steps : List Step}

theorem position?_eq_some_iff_firstAt {id : String} {d : Nat} :
    position? steps id = some d ↔ ∃ t, FirstAt Step.id steps d t ∧ t.id = id := by
  have hbefore (b : Step) : b ∈ steps.take d ↔ ∃ k < d, steps[k]? = some b := by
    simp [List.mem_iff_getElem?, List.getElem?_take]
  simp only [position?_eq_some_iff, FirstAt, hbefore]
  constructor
  · rintro ⟨⟨t, ht, rfl⟩, hfirst⟩
    refine ⟨t, ⟨ht, ?_⟩, rfl⟩
    rintro b ⟨k, hk, hget⟩
    exact hfirst k hk b hget
  · rintro ⟨t, ⟨ht, hfirst⟩, rfl⟩
    exact ⟨⟨t, ht, rfl⟩, fun k hk b hget => hfirst b ⟨k, hk, hget⟩⟩

theorem mem_dependenciesAt_iff_firstAt {i d : Nat} {s : Step} (h : steps[i]? = some s) :
    d ∈ (ofSteps steps).dependenciesAt i ↔
      ∃ t, FirstAt Step.id steps d t ∧ t.id ∈ s.dependencies := by
  rw [dependenciesAt_ofSteps h, mem_waitsFor]
  constructor
  · rintro ⟨id, hid, hpos⟩
    obtain ⟨t, ht, rfl⟩ := position?_eq_some_iff_firstAt.mp hpos
    exact ⟨t, ht, hid⟩
  · rintro ⟨t, ht, hid⟩
    exact ⟨t.id, hid, position?_eq_some_iff_firstAt.mpr ⟨t, ht, rfl⟩⟩

/-- The dependencies of a step stand in the order in which it mentions them first. -/
theorem pairwise_dependenciesAt_ofSteps {i : Nat} {s : Step} (h : steps[i]? = some s) :
    ((ofSteps steps).dependenciesAt i).Pairwise fun a b =>
      s.dependencies.idxOf ((ofSteps steps).idAt a) <
        s.dependencies.idxOf ((ofSteps steps).idAt b) := by
  rw [dependenciesAt_ofSteps h, waitsFor]
  refine pairwise_idxOf_filterMap (fun id d hpos => ?_) s.dependencies
  obtain ⟨⟨t, ht, hid⟩, -⟩ := position?_eq_some_iff.mp hpos
  rw [idAt_ofSteps ht, hid]

/-- Nothing waits for a step that is not the first one with its id. -/
theorem dependentsAt_of_repeated {i : Nat} {s : Step} (h : steps[i]? = some s)
    (hrepeated : ¬FirstAt Step.id steps i s) : (ofSteps steps).dependentsAt i = [] := by
  refine List.eq_nil_iff_forall_not_mem.mpr fun j hj => hrepeated ?_
  have hpos := position?_of_edge (i := i) (j := j) hj
  rw [idAt_ofSteps h, position?_eq_some_iff_firstAt] at hpos
  obtain ⟨t, ht, -⟩ := hpos
  rwa [Option.some.inj (h.symm.trans ht.1)]

/-- The dependencies that lead nowhere are reported where they stand. -/
theorem lists_dangling (steps : List Step) : Lists (DanglingAt steps)
    (steps.flatMap fun s => (unresolved steps s).map (.missingDependency s.id)) := by
  have hstep (s : Step) : Lists (fun k error => ∃ d, (s.dependencies[k]? = some d ∧
      (position? steps d).isNone = true) ∧ GraphError.missingDependency s.id d = error)
      ((unresolved steps s).map (.missingDependency s.id)) :=
    ((Lists.members s.dependencies).filter _).image _
  refine (Lists.flatMap hstep steps).congr fun place error => ?_
  constructor
  · rintro ⟨i, s, k, hplace, hs, d, ⟨hd, hnone⟩, rfl⟩
    rw [Option.isNone_iff_eq_none, position?_eq_none_iff] at hnone
    exact ⟨i, s, k, d, hplace, hs, hd, hnone, rfl⟩
  · rintro ⟨i, s, k, d, hplace, hs, hd, hnone, rfl⟩
    rw [← position?_eq_none_iff, ← Option.isNone_iff_eq_none] at hnone
    exact ⟨i, s, k, hplace, hs, d, ⟨hd, hnone⟩, rfl⟩

theorem lt_length_of_mem_links {i j : Nat}
    (h : j ∈ (ofSteps steps).dependenciesAt i ++ (ofSteps steps).dependentsAt i) :
    i < steps.length ∧ j < steps.length := by
  have hg := coherent_ofSteps steps
  have hsize := size_ofSteps steps
  rcases List.mem_append.mp h with hdependency | hdependent
  · have hedge := (hg.edge_iff j i).mpr hdependency
    exact ⟨hsize ▸ hg.lt_right hedge, hsize ▸ hedge.lt_left⟩
  · exact ⟨hsize ▸ Edge.lt_left hdependent, hsize ▸ hg.lt_right hdependent⟩

end Statement

/-- The two passes come to the graph of the steps and to its structural errors.  The graph has one
node for each step, in their order.  A node waits for the first steps with the ids that its step
mentions, each once and in the order of the first mentions.  Every edge stands at both of its ends,
and both are positions of steps; what waits for a node ascends, and nothing waits for a node whose
id came before.  There is one error for each repeated id, where it comes for the second time, and
then one for each mention that leads nowhere. -/
theorem built_links_both_ends (steps : List Step) :
    built steps = ⟨ofSteps steps, structuralErrors steps⟩ ∧
    (ofSteps steps).nodes.map GraphNode.id = steps.map Step.id ∧
    (∀ i s, steps[i]? = some s →
      ((ofSteps steps).dependenciesAt i).Nodup ∧
      (∀ d, d ∈ (ofSteps steps).dependenciesAt i ↔
        ∃ t, FirstAt Step.id steps d t ∧ t.id ∈ s.dependencies) ∧
      ((ofSteps steps).dependenciesAt i).Pairwise fun a b =>
        s.dependencies.idxOf ((ofSteps steps).idAt a) <
          s.dependencies.idxOf ((ofSteps steps).idAt b)) ∧
    (∀ d j, j ∈ (ofSteps steps).dependentsAt d ↔ d ∈ (ofSteps steps).dependenciesAt j) ∧
    (∀ d, ((ofSteps steps).dependentsAt d).Pairwise (· < ·)) ∧
    (∀ i, ∀ j ∈ (ofSteps steps).dependenciesAt i ++ (ofSteps steps).dependentsAt i,
      i < steps.length ∧ j < steps.length) ∧
    (∀ i s, steps[i]? = some s → ¬FirstAt Step.id steps i s →
      (ofSteps steps).dependentsAt i = []) ∧
    ∃ repeated dangling, structuralErrors steps = repeated.map .duplicateStep ++ dangling ∧
      Lists (RepeatedAt steps) repeated ∧ Lists (DanglingAt steps) dangling := by
  have hg := coherent_ofSteps steps
  refine ⟨built_eq steps, ?_, fun i s hs => ⟨hg.nodup_dependenciesAt i, fun d => ?_, ?_⟩,
    hg.edge_iff, fun d => ?_, fun i j => lt_length_of_mem_links, fun i s hs hrepeated => ?_,
    Ids.repeated (steps.map Step.id), _, rfl, ?_, lists_dangling steps⟩
  · refine List.ext_getElem? fun i => ?_
    rw [List.getElem?_map, List.getElem?_map, getElem?_ofSteps, Option.map_map]
    rfl
  · exact mem_dependenciesAt_iff_firstAt hs
  · exact pairwise_dependenciesAt_ofSteps hs
  · exact pairwise_lt_dependentsAt_ofSteps steps d
  · exact dependentsAt_of_repeated hs hrepeated
  · exact (Lists.members (steps.map Step.id)).repeated

/-- The second step has the id of the first one.  The last one mentions an id twice, one that no
step has and its own. -/
def tangledSteps : List Step :=
  [call "fetch" [], call "fetch" ["send"], call "send" ["log", "fetch", "send", "fetch"]]
where
  /-- A step that calls an operation of its own name. -/
  call (id : String) (dependencies : List String) : Step :=
    ⟨id, id, dependencies, .action "rows" id []⟩

/-- The last step waits for the first one and for itself, and nothing waits for the second one. -/
theorem built_links_both_ends_tangledSteps :
    (built tangledSteps).graph.nodes =
      [⟨"fetch", [], [2]⟩, ⟨"fetch", [2], []⟩, ⟨"send", [0, 2], [1, 2]⟩] ∧
    (built tangledSteps).errors = [.duplicateStep "fetch", .missingDependency "send" "log"] ∧
    (∃ t, FirstAt Step.id tangledSteps 0 t ∧
      t.id ∈ ["log", "fetch", "send", "fetch"]) ∧
    (ofSteps tangledSteps).dependentsAt 1 = [] := by
  obtain ⟨hbuilt, -, hdependencies, -, -, -, hrepeated, -⟩ := built_links_both_ends tangledSteps
  obtain ⟨-, hfirst, -⟩ := hdependencies 2 _ rfl
  rw [hbuilt]
  refine ⟨by decide +kernel, by decide +kernel, (hfirst 0).mp (by decide +kernel),
    hrepeated 1 _ rfl fun h => ?_⟩
  exact h.2 _ List.mem_cons_self rfl

end StepGraph
end PlanFlow
