import PlanFlow.Proofs.Rule.References

/-!
# Ids of emitted steps

The ids of the steps that a rule emits are known from the plan.  Ids of different kinds of steps
differ in their first three characters, except that a filter may be named like the step that drops
known rows, and a loop like the loop over the groups.  So no id is used twice unless a part is
listed twice in bodies or one of these names is taken.
-/

namespace PlanFlow

namespace Ids

/-! ## Stems -/

/-- The first three characters of an id. -/
def stem (id : String) : String := String.ofList (id.toList.take 3)

theorem stem_append {first : String} (hlength : 3 ≤ first.toList.length) (rest : String) :
    stem (first ++ rest) = stem first := by
  rw [stem, stem, String.toList_append, List.take_append_of_le_length hlength]

theorem ne_append {id first : String} (hlength : 3 ≤ first.toList.length)
    (hstem : stem id ≠ stem first) (rest : String) : id ≠ first ++ rest := by
  rintro rfl
  exact hstem (stem_append hlength rest)

/-- Every id of a list has one of some stems. -/
def HaveStems (stems ids : List String) : Prop := ∀ id ∈ ids, stem id ∈ stems

theorem HaveStems.append {stems ids ids' : List String} (h : HaveStems stems ids)
    (h' : HaveStems stems ids') : HaveStems stems (ids ++ ids') :=
  List.forall_mem_append.mpr ⟨h, h'⟩

theorem HaveStems.map_append {α : Type} {stems : List String} (first : String)
    (h : ∀ id, stem (first ++ id) ∈ stems) (f : α → String) (l : List α) :
    HaveStems stems (l.map fun a => first ++ f a) := by
  intro id hid
  obtain ⟨a, -, rfl⟩ := List.mem_map.mp hid
  exact h (f a)

theorem HaveStems.ite {stems ids : List String} {condition : Prop} [Decidable condition]
    (h : HaveStems stems ids) : HaveStems stems (if condition then ids else []) := by
  split
  · exact h
  · exact fun _ hid => by cases hid

theorem nodup_ite {ids : List String} {condition : Prop} [Decidable condition] (h : ids.Nodup) :
    (if condition then ids else []).Nodup := by
  split
  · exact h
  · exact List.nodup_nil

/-- Lists of ids with different stems have no id in common. -/
theorem nodup_flatMap_iff_of_stems {groups : List (List String × List String)}
    (hstems : ∀ g ∈ groups, HaveStems g.1 g.2)
    (hdistinct : (groups.map Prod.fst).Pairwise fun s s' => ∀ stem ∈ s, stem ∉ s') :
    (groups.flatMap Prod.snd).Nodup ↔ ∀ g ∈ groups, g.2.Nodup := by
  rw [List.nodup_flatMap]
  refine and_iff_left_of_imp fun _ => ?_
  rw [List.pairwise_map] at hdistinct
  refine hdistinct.imp_of_mem fun hg hg' hdisjoint id hid hid' => ?_
  exact hdisjoint _ (hstems _ hg id hid) (hstems _ hg' id hid')

/-- A common prefix makes no difference. -/
theorem nodup_map_append_iff {α : Type} {f : α → String} {l : List α} (first : String) :
    (l.map fun a => first ++ f a).Nodup ↔ (l.map f).Nodup := by
  have hmap : (l.map fun a => first ++ f a) = (l.map f).map (first ++ ·) := by
    rw [List.map_map]
    rfl
  rw [hmap]
  exact List.nodup_map_iff fun a b h => (String.append_right_inj first).mp h

end Ids

namespace Part

/-- Parts of different kinds have steps of different names, and so do parts with different ids. -/
theorem id_eq_of_stepId_eq {a b : Part} (h : a.stepId = b.stepId) : a.id = b.id := by
  have hstem := congrArg Ids.stem h
  -- Parts of one kind share their prefix; for parts of two kinds the stems are different.
  cases a <;> cases b <;> first
    | exact (String.append_right_inj _).mp h
    | simp [stepId, Ids.stem] at hstem

/-- The step of a part is named like one that drops known rows only if it is a filter. -/
theorem stepId_eq_excludeKnownId_iff {part : Part} {s : Source} :
    part.stepId = s.excludeKnownId ↔ ∃ f, part = .filter f ∧ f.id = "new_items_" ++ s.id := by
  have hid : s.excludeKnownId = "filter_" ++ ("new_items_" ++ s.id) :=
    calc
      s.excludeKnownId = "filter_" ++ "new_items_" ++ s.id := rfl
      _ = "filter_" ++ ("new_items_" ++ s.id) := String.append_assoc
  rw [hid]
  constructor
  · intro h
    have hstem := congrArg Ids.stem h
    cases part with
    | filter f => exact ⟨f, rfl, (String.append_right_inj "filter_").mp h⟩
    | partition q => simp [stepId, Ids.stem] at hstem
    | transform t => simp [stepId, Ids.stem] at hstem
    | ai a => simp [stepId, Ids.stem] at hstem
  · rintro ⟨f, rfl, hf⟩
    rw [stepId, hf]

theorem haveStems (l : List Part) : Ids.HaveStems ["fil", "par", "tra", "ai_"] (l.map stepId) := by
  intro id hid
  obtain ⟨part, -, rfl⟩ := List.mem_map.mp hid
  cases part <;> simp [stepId, Ids.stem]

end Part

namespace Plan

variable {p : Plan}

/-! ## How often parts are emitted -/

theorem map_id_occurrences (hp : p.Sound) :
    p.occurrences.map Part.id = p.chainParts.map Part.id ++ p.loops.flatMap Loop.body := by
  rw [occurrences, List.map_append, List.map_flatMap]
  refine congrArg _ (List.flatMap_congr fun l hl => map_id_bodyParts hp hl)

/-- No part is emitted twice exactly if none is listed twice. -/
theorem nodup_map_id_occurrences_iff (hp : p.Sound) :
    (p.occurrences.map Part.id).Nodup ↔ (p.loops.flatMap Loop.body).Nodup := by
  have hchain : (p.chainParts.map Part.id).Nodup :=
    hp.nodup_parts.sublist (List.filter_sublist.map Part.id)
  have hdisjoint : (p.chainParts.map Part.id).Disjoint (p.loops.flatMap Loop.body) := by
    intro id hid hlisted
    obtain ⟨part, hpart, rfl⟩ := List.mem_map.mp hid
    obtain ⟨l, hl, hbody⟩ := List.mem_flatMap.mp hlisted
    have hin : p.inBody part.id = true :=
      List.any_eq_true.mpr ⟨l, hl, List.contains_iff_mem.mpr hbody⟩
    have hout := (List.mem_filter.mp hpart).2
    rw [hin] at hout
    cases hout
  rw [map_id_occurrences hp, List.nodup_append']
  exact ⟨fun h => h.2.1, fun h => ⟨hchain, h, hdisjoint⟩⟩

theorem nodup_map_stepId_occurrences_iff (hp : p.Sound) :
    (p.occurrences.map Part.stepId).Nodup ↔ (p.loops.flatMap Loop.body).Nodup := by
  rw [← nodup_map_id_occurrences_iff hp]
  constructor
  · intro h
    refine h.of_map.map_on fun a ha b hb hid => ?_
    exact List.inj_on_of_nodup_map hp.nodup_parts (mem_parts_of_mem_occurrences ha)
      (mem_parts_of_mem_occurrences hb) hid
  · intro h
    refine h.of_map.map_on fun a ha b hb hid => ?_
    exact List.inj_on_of_nodup_map h ha hb (Part.id_eq_of_stepId_eq hid)

/-- The ids of the steps that parts and lookup sources are emitted as, where they may meet. -/
theorem nodup_occurrences_append_iff (hp : p.Sound) :
    (p.occurrences.map Part.stepId ++ p.lookups.map Source.excludeKnownId).Nodup ↔
      (p.loops.flatMap Loop.body).Nodup ∧
        ∀ f ∈ p.filters, ∀ s ∈ p.lookups, f.id ≠ "new_items_" ++ s.id := by
  have hlookups : (p.lookups.map Source.excludeKnownId).Nodup :=
    (Ids.nodup_map_append_iff "filter_new_items_").mpr
      (hp.nodup_sources.sublist (List.filter_sublist.map Source.id))
  rw [List.nodup_append', nodup_map_stepId_occurrences_iff hp]
  refine and_congr_right fun _ => ?_
  constructor
  -- Every filter is emitted at least once, so its name would be taken twice.
  · rintro ⟨-, hdisjoint⟩ f hf s hs hid
    have hpart : Part.filter f ∈ p.parts := by
      simp only [parts, List.mem_append, List.mem_map]
      exact .inl (.inl (.inl ⟨f, hf, rfl⟩))
    refine hdisjoint (List.mem_map_of_mem (mem_occurrences hp hpart)) ?_
    rw [Part.stepId_eq_excludeKnownId_iff.mpr ⟨f, rfl, hid⟩]
    exact List.mem_map_of_mem hs
  · refine fun hfilters => ⟨hlookups, fun id hid hknown => ?_⟩
    obtain ⟨part, hpart, rfl⟩ := List.mem_map.mp hid
    obtain ⟨s, hs, hsid⟩ := List.mem_map.mp hknown
    obtain ⟨f, rfl, hf⟩ := Part.stepId_eq_excludeKnownId_iff.mp hsid.symm
    have hmem := mem_parts_of_mem_occurrences hpart
    simp only [parts, List.mem_append, List.mem_map] at hmem
    rcases hmem with ((⟨f', hf', heq⟩ | ⟨_, -, heq⟩) | ⟨_, -, heq⟩) | ⟨_, -, heq⟩
    · obtain rfl := Part.filter.inj heq
      exact hfilters f' hf' s hs hf
    · cases heq
    · cases heq
    · cases heq

/-! ## Ids of parts -/

/-- The id of the step of a part that is not a loop starts in one of a few ways. -/
theorem stem_of_mem_emittedIds {id : String} (hid : id ∈ p.emittedIds) :
    Ids.stem id ∈ ["fet", "mer", "rea", "ext", "fil", "par", "tra", "ai_"] ∨
      ∃ l ∈ p.loops, id = l.stepId := by
  have hstem {first : String} (hlength : 3 ≤ first.toList.length)
      (hfirst : Ids.stem first ∈ ["fet", "mer", "rea", "ext", "fil", "par", "tra", "ai_"])
      (rest : String) :
      Ids.stem (first ++ rest) ∈ ["fet", "mer", "rea", "ext", "fil", "par", "tra", "ai_"] := by
    rwa [Ids.stem_append hlength]
  have hparts (part : Part) : Ids.stem part.stepId ∈
      ["fet", "mer", "rea", "ext", "fil", "par", "tra", "ai_"] := by
    cases part <;> exact hstem (by decide) (by decide) _
  rcases mem_emittedIds.mp hid with hfetch | hmerge | hpart | hloop | hcheck
  · obtain ⟨s, -, rfl⟩ := List.mem_map.mp hfetch
    exact .inl (hstem (by decide) (by decide) _)
  · rw [mergeIds] at hmerge
    split at hmerge
    · rw [List.mem_singleton.mp hmerge]
      exact .inl (by decide)
    · cases hmerge
  · obtain ⟨part, -, rfl⟩ := List.mem_map.mp hpart
    exact .inl (hparts part)
  · obtain ⟨l, hl, hid⟩ := List.mem_flatMap.mp hloop
    rcases List.mem_cons.mp hid with rfl | hbody
    · exact .inr ⟨l, hl, rfl⟩
    · obtain ⟨part, -, rfl⟩ := List.mem_map.mp hbody
      exact .inl (hparts part)
  · obtain ⟨s, -, hid⟩ := List.mem_flatMap.mp hcheck
    simp only [Source.checkIds, List.mem_cons, List.not_mem_nil, or_false] at hid
    rcases hid with rfl | rfl | rfl
    · exact .inl (hstem (by decide) (by decide) _)
    · exact .inl (hstem (by decide) (by decide) _)
    · exact .inl (hstem (by decide) (by decide) _)

/-- No part is named like what a rule adds, unless it is a loop. -/
theorem not_mem_emittedIds_of_stem {id : String}
    (hid : Ids.stem id ∈ ["del", "rou", "gro", "ren"]) : id ∉ p.emittedIds := by
  have hdisjoint : ∀ stem ∈ ["del", "rou", "gro", "ren"],
      stem ∉ ["fet", "mer", "rea", "ext", "fil", "par", "tra", "ai_"] := by decide
  intro hmem
  rcases stem_of_mem_emittedIds hmem with hpart | ⟨l, -, rfl⟩
  · exact hdisjoint _ hid hpart
  · rw [Loop.stepId, Ids.stem_append (by decide)] at hid
    exact absurd hid (by decide)

end Plan

/-- The steps of parts have the ids that the parts give rise to. -/
theorem Emitted.id_mem {p : Plan} {settings : Settings} (hp : p.Sound) {s : Step}
    (hs : Emitted p settings s) : s.id ∈ p.emittedIds := by
  obtain ⟨site, hsite, rfl⟩ := hs
  cases hsite with
  | fetch hs hread =>
      refine Plan.mem_emittedIds.mpr (.inl (List.mem_map_of_mem (List.mem_filter.mpr ⟨hs, ?_⟩)))
      rw [hread]
      rfl
  | merge hmany => exact Plan.mergeId_mem_emittedIds hmany
  | part hpart => exact Plan.stepId_mem_emittedIds hp hpart
  | loop hl => exact Plan.loopStepId_mem_emittedIds hl
  | readReference hs | extractKeys hs | excludeKnown hs =>
      apply Plan.checkIds_subset_emittedIds hs
      simp [Source.checkIds, Site.readReference, Site.extractKeys, Site.excludeKnown,
        Source.readReference, Source.extractKeys, Source.excludeKnown]

namespace Rule

variable {p : Plan}

/-! ## Ids of tails -/

/-- The ids of the steps of a tail, by the kinds of steps that share no ids. -/
def tailKinds (r : Rule) (p : Plan) : List (List String × List String) :=
  [(["del"], deliverIds p),
    (["rou"], if r.name = routed.name then p.branches.map routeId else []),
    (["gro", "loo"], if r.name = grouped.name then [groupId, groupLoopId] else []),
    (["ren"], renderIds p (if r.name = grouped.name then groupRenderId else renderId))]

theorem flatMap_tailKinds (r : Rule) (p : Plan) :
    (r.tailKinds p).flatMap Prod.snd = r.tailIds p := by
  simp [tailKinds, tailIds]

theorem haveStems_tailKinds (r : Rule) (p : Plan) :
    ∀ g ∈ r.tailKinds p, Ids.HaveStems g.1 g.2 := by
  simp only [tailKinds, List.forall_mem_cons, List.not_mem_nil, false_implies, implies_true,
    and_true]
  refine ⟨?_, ?_, ?_, ?_⟩
  · rw [deliverIds, ← List.map_id' p.deliveryIds]
    exact .map_append "deliver_" (by simp [Ids.stem]) _ _
  · exact .ite (.map_append "route_" (by simp [Ids.stem]) _ _)
  · exact .ite (by simp [Ids.HaveStems, groupId, groupLoopId, Ids.stem])
  · refine .ite fun id hid => ?_
    rw [List.mem_singleton.mp hid]
    split <;> simp [groupRenderId, renderId, Ids.stem]

theorem nodup_deliverIds (hp : p.Sound) : (deliverIds p).Nodup := by
  refine (Ids.nodup_map_append_iff "deliver_").mpr ?_
  rw [List.map_id']
  exact hp.nodup_deliveries

theorem nodup_routeIds (hp : p.Sound) : (p.branches.map routeId).Nodup :=
  (Ids.nodup_map_append_iff "route_").mpr hp.nodup_branches

/-- No tail uses an id twice. -/
theorem nodup_tailIds (hp : p.Sound) (r : Rule) : (r.tailIds p).Nodup := by
  rw [← flatMap_tailKinds, Ids.nodup_flatMap_iff_of_stems (haveStems_tailKinds r p)]
  · simp only [tailKinds, List.forall_mem_cons, List.not_mem_nil, false_implies, implies_true,
      and_true]
    exact ⟨nodup_deliverIds hp, Ids.nodup_ite (nodup_routeIds hp), Ids.nodup_ite (by decide),
      Ids.nodup_ite (List.nodup_singleton _)⟩
  · simp only [tailKinds, List.map_cons, List.map_nil]
    decide

theorem stem_of_mem_tailIds {r : Rule} {id : String} (hid : id ∈ r.tailIds p) :
    Ids.stem id ∈ ["del", "rou", "gro", "ren"] ∨ r.name = grouped.name ∧ id = groupLoopId := by
  rw [← flatMap_tailKinds] at hid
  obtain ⟨⟨stems, ids⟩, hkind, hid⟩ := List.mem_flatMap.mp hid
  have hstem : Ids.stem id ∈ stems := haveStems_tailKinds r p _ hkind id hid
  simp only [tailKinds, List.mem_cons, List.not_mem_nil, or_false, Prod.mk.injEq] at hkind
  rcases hkind with ⟨rfl, -⟩ | ⟨rfl, -⟩ | ⟨-, rfl⟩ | ⟨rfl, -⟩
  · exact .inl (Ids.singleton_subset (by decide) hstem)
  · exact .inl (Ids.singleton_subset (by decide) hstem)
  · split at hid
    · rename_i hr
      simp only [List.mem_cons, List.not_mem_nil, or_false] at hid
      rcases hid with rfl | rfl
      · exact .inl (by decide)
      · exact .inr ⟨hr, rfl⟩
    · cases hid
  · exact .inl (Ids.singleton_subset (by decide) hstem)

/-- A tail takes no id of a part, unless a loop is named like the loop over the groups. -/
theorem not_mem_emittedIds_of_mem_tailIds {r : Rule}
    (hgroups : r.name = grouped.name → ∀ l ∈ p.loops, l.id ≠ "groups") {id : String}
    (hid : id ∈ r.tailIds p) : id ∉ p.emittedIds := by
  rcases stem_of_mem_tailIds hid with hstem | ⟨hr, rfl⟩
  · exact Plan.not_mem_emittedIds_of_stem hstem
  · intro hmem
    rcases Plan.stem_of_mem_emittedIds hmem with hpart | ⟨l, hl, hloop⟩
    · exact absurd hpart (by decide)
    · exact hgroups hr l hl ((String.append_right_inj "loop_").mp hloop.symm)

/-- What is emitted under the id of a step of a tail is that step. -/
theorem eq_of_id_eq {settings : Settings} (hp : p.Sound) {r : Rule} (hr : r ∈ builtIn)
    (haccepts : r.accepts p = true)
    (hgroups : r.name = grouped.name → ∀ l ∈ p.loops, l.id ≠ "groups") {rows : Handle}
    {steps : List Step} (hshape : ∀ s ∈ steps, Emitted p settings s ∨ s ∈ r.tail p rows)
    {s t : Step} (ht : t ∈ r.tail p rows) (hs : s ∈ steps) (hid : s.id = t.id) : s = t := by
  have hids := map_id_tail hr haccepts rows
  have hmem : t.id ∈ r.tailIds p := hids.mem_iff.mp (List.mem_map_of_mem ht)
  rcases hshape s hs with hpart | htail
  · exact absurd (hid ▸ hpart.id_mem hp) (not_mem_emittedIds_of_mem_tailIds hgroups hmem)
  · exact List.inj_on_of_nodup_map (hids.nodup_iff.mpr (nodup_tailIds hp r)) htail ht hid

/-! ## All ids -/

/-- The ids of the steps that a rule emits, by the kinds of steps that share no ids. -/
def stepKinds (r : Rule) (p : Plan) : List (List String × List String) :=
  [(["fet"], p.fetchIds),
    (["mer"], p.mergeIds),
    (["rea"], p.lookups.map Source.readReferenceId),
    (["ext"], p.lookups.map Source.extractKeysId),
    (["fil", "par", "tra", "ai_"],
      p.occurrences.map Part.stepId ++ p.lookups.map Source.excludeKnownId),
    (["loo"], p.loops.map Loop.stepId ++ if r.name = grouped.name then [groupLoopId] else []),
    (["del"], deliverIds p),
    (["rou"], if r.name = routed.name then p.branches.map routeId else []),
    (["gro"], if r.name = grouped.name then [groupId] else []),
    (["ren"], renderIds p (if r.name = grouped.name then groupRenderId else renderId))]

theorem haveStems_stepKinds (r : Rule) (p : Plan) :
    ∀ g ∈ r.stepKinds p, Ids.HaveStems g.1 g.2 := by
  simp only [stepKinds, List.forall_mem_cons, List.not_mem_nil, false_implies, implies_true,
    and_true]
  refine ⟨?_, ?_, ?_, ?_, ?_, ?_, ?_, ?_, ?_, ?_⟩
  · exact .map_append "fetch_" (by simp [Ids.stem]) _ _
  · exact .ite (by simp [Ids.HaveStems, Emitter.mergeId, Ids.stem])
  · exact .map_append "read_reference_" (by simp [Ids.stem]) _ _
  · exact .map_append "extract_ids_" (by simp [Ids.stem]) _ _
  · exact (Part.haveStems _).append (.map_append "filter_new_items_" (by simp [Ids.stem]) _ _)
  · refine .append (.map_append "loop_" (by simp [Ids.stem]) _ _) (.ite ?_)
    simp [Ids.HaveStems, groupLoopId, Ids.stem]
  · rw [deliverIds, ← List.map_id' p.deliveryIds]
    exact .map_append "deliver_" (by simp [Ids.stem]) _ _
  · exact .ite (.map_append "route_" (by simp [Ids.stem]) _ _)
  · exact .ite (by simp [Ids.HaveStems, groupId, Ids.stem])
  · refine .ite fun id hid => ?_
    rw [List.mem_singleton.mp hid]
    split <;> simp [groupRenderId, renderId, Ids.stem]

/-- The loops of a plan may meet the loop over the groups. -/
theorem nodup_loops_append_iff (hp : p.Sound) (r : Rule) :
    (p.loops.map Loop.stepId ++ if r.name = grouped.name then [groupLoopId] else []).Nodup ↔
      ¬(r.name = grouped.name ∧ ∃ l ∈ p.loops, l.id = "groups") := by
  have hloops : (p.loops.map Loop.stepId).Nodup :=
    (Ids.nodup_map_append_iff "loop_").mpr hp.nodup_loops
  have hgroups (l : Loop) : l.stepId = groupLoopId ↔ l.id = "groups" := by
    have hid : groupLoopId = "loop_" ++ "groups" := rfl
    rw [hid, Loop.stepId, String.append_right_inj]
  by_cases hr : r.name = grouped.name
  · rw [if_pos hr, List.nodup_append', List.disjoint_singleton]
    simp [hr, hloops, hgroups]
  · simp [hr, hloops]

/-- No id is emitted twice unless a part is listed twice, a filter is named like the step that drops
known rows, or a loop is named like the loop over the groups. -/
theorem nodup_stepKinds_iff (hp : p.Sound) (r : Rule) :
    ((r.stepKinds p).flatMap Prod.snd).Nodup ↔
      (p.loops.flatMap Loop.body).Nodup ∧
        (∀ f ∈ p.filters, ∀ s ∈ p.lookups, f.id ≠ "new_items_" ++ s.id) ∧
        ¬(r.name = grouped.name ∧ ∃ l ∈ p.loops, l.id = "groups") := by
  rw [Ids.nodup_flatMap_iff_of_stems (haveStems_stepKinds r p)]
  · have hcandidates : (p.candidates.map Source.id).Nodup :=
      hp.nodup_sources.sublist (List.filter_sublist.map Source.id)
    have hlookups : (p.lookups.map Source.id).Nodup :=
      hp.nodup_sources.sublist (List.filter_sublist.map Source.id)
    have hfetch : p.fetchIds.Nodup :=
      (Ids.nodup_map_append_iff "fetch_").mpr
        (hcandidates.sublist (List.filter_sublist.map Source.id))
    have hread : (p.lookups.map Source.readReferenceId).Nodup :=
      (Ids.nodup_map_append_iff "read_reference_").mpr hlookups
    have hextract : (p.lookups.map Source.extractKeysId).Nodup :=
      (Ids.nodup_map_append_iff "extract_ids_").mpr hlookups
    have hsingle (condition : Prop) [Decidable condition] (id : String) :
        (if condition then [id] else []).Nodup := Ids.nodup_ite (List.nodup_singleton id)
    simp only [stepKinds, List.forall_mem_cons, List.not_mem_nil, false_implies, implies_true,
      and_true, Plan.nodup_occurrences_append_iff hp, nodup_loops_append_iff hp r]
    constructor
    · rintro ⟨-, -, -, -, hparts, hloops, -⟩
      exact ⟨hparts.1, hparts.2, hloops⟩
    · rintro ⟨hbodies, hfilters, hloops⟩
      exact ⟨hfetch, hsingle _ _, hread, hextract, ⟨hbodies, hfilters⟩, hloops,
        nodup_deliverIds hp, Ids.nodup_ite (nodup_routeIds hp), hsingle _ _, hsingle _ _⟩
  · simp only [stepKinds, List.map_cons, List.map_nil]
    decide

/-! ## Listing the ids -/

theorem flatMap_loopIds_perm (p : Plan) :
    (p.loops.flatMap p.loopIds).Perm
      (p.loops.map Loop.stepId ++ (p.loops.flatMap p.bodyParts).map Part.stepId) := by
  rw [List.map_flatMap]
  exact (List.map_append_flatMap_perm _ _ _).symm

theorem flatMap_checkIds_perm (ls : List Source) :
    (ls.flatMap Source.checkIds).Perm
      (ls.map Source.readReferenceId ++
        (ls.map Source.extractKeysId ++ ls.map Source.excludeKnownId)) := by
  have hlast : (ls.flatMap fun s => [s.extractKeysId, s.excludeKnownId]).Perm
      (ls.map Source.extractKeysId ++ ls.map Source.excludeKnownId) := by
    rw [List.map_eq_flatMap (f := Source.excludeKnownId)]
    exact (List.map_append_flatMap_perm _ _ _).symm
  exact (List.map_append_flatMap_perm _ _ _).symm.trans (hlast.append_left _)

/-- The ids of all steps, kind by kind. -/
theorem perm_stepKinds (r : Rule) (p : Plan) :
    (p.emittedIds ++ r.tailIds p).Perm ((r.stepKinds p).flatMap Prod.snd) := by
  -- Both sides are sums of the same counts, up to how loops and checks are interleaved.
  rw [List.perm_iff_count]
  intro id
  have hloops := (flatMap_loopIds_perm p).count_eq id
  have hchecks := (flatMap_checkIds_perm p.lookups).count_eq id
  have hgroups : (if r.name = grouped.name then [groupId, groupLoopId] else []).count id =
      (if r.name = grouped.name then [groupId] else []).count id +
        (if r.name = grouped.name then [groupLoopId] else []).count id := by
    split
    · rw [← List.singleton_append, List.count_append]
    · rfl
  simp only [List.count_append] at hloops hchecks
  simp only [Plan.emittedIds, tailIds, stepKinds, Plan.occurrences, List.flatMap_cons,
    List.flatMap_nil, List.append_nil, List.map_append, List.count_append]
  omega

/-- The ids of all steps in the order of the kinds of things that they belong to. -/
theorem perm_listing (r : Rule) (p : Plan) :
    (p.emittedIds ++ r.tailIds p).Perm
      (p.fetchIds ++ p.mergeIds ++ p.lookups.flatMap Source.checkIds ++
        p.chainParts.map Part.stepId ++ (p.loops.flatMap p.bodyParts).map Part.stepId ++
        p.loops.map Loop.stepId ++ r.tailIds p) := by
  rw [List.perm_iff_count]
  intro id
  have hloops := (flatMap_loopIds_perm p).count_eq id
  simp only [List.count_append] at hloops
  simp only [Plan.emittedIds, List.count_append]
  omega

/-- If a plan has no errors, every built-in rule that accepts it emits exactly one step for each
source that is read, for the merge of several sources, for each loop, for each delivery and for the
rendering, three for each lookup source, one for each part that is in no body, and one for each time
that a body lists a part; a rule that routes adds one for each branch, and a rule that groups adds
two.  An id is used twice exactly if a part is listed twice in bodies, if a filter takes the name of
the step that drops the rows known to a lookup source, or if a loop takes that of the loop over the
groups. -/
theorem steps_ids {p : Plan} {settings : Settings} (hvalid : p.errors settings = []) {r : Rule}
    (hr : r ∈ builtIn) (haccepts : r.accepts p = true) :
    ∃ steps, r.steps p settings = .ok steps ∧
      (steps.map Step.id).Perm
        ((p.candidates.filter fun s => s.readOperation.isSome).map (fun s => "fetch_" ++ s.id) ++
          (if 2 ≤ p.candidates.length then ["merge_sources"] else []) ++
          p.lookups.flatMap (fun s =>
            ["read_reference_" ++ s.id, "extract_ids_" ++ s.id, "filter_new_items_" ++ s.id]) ++
          (p.parts.filter fun part => !p.inBody part.id).map Part.stepId ++
          (p.loops.flatMap fun l => l.body.filterMap p.part?).map Part.stepId ++
          p.loops.map (fun l => "loop_" ++ l.id) ++
          (p.deliveryIds.map (fun key => "deliver_" ++ key) ++
            (if r.name = routed.name then p.branches.map fun b => "route_" ++ b.id else []) ++
            (if r.name = grouped.name then ["group_rows", "loop_groups"] else []) ++
            (if p.activeRendering.isSome then
              [if r.name = grouped.name then "render_group" else "render_output"] else []))) ∧
      (∀ l ∈ p.loops, (l.body.filterMap p.part?).map Part.id = l.body) ∧
      ((∃ id, .duplicateStep id ∈ (Validation.ofSteps settings steps).errors) ↔
        (∃ id, 2 ≤ (p.loops.flatMap Loop.body).count id) ∨
        (∃ f ∈ p.filters, ∃ s ∈ p.lookups, f.id = "new_items_" ++ s.id) ∨
        (r.name = grouped.name ∧ ∃ l ∈ p.loops, l.id = "groups")) := by
  have hp := Plan.sound_of_errors hvalid
  obtain ⟨_, steps, hsteps, -, -, hids⟩ := exists_steps settings hp hr haccepts
  refine ⟨steps, hsteps, hids.trans (perm_listing r p), fun l hl => p.map_id_bodyParts hp hl, ?_⟩
  have hduplicates : (∃ id, .duplicateStep id ∈ (Validation.ofSteps settings steps).errors) ↔
      ¬((r.stepKinds p).flatMap Prod.snd).Nodup := by
    rw [← (hids.trans (perm_stepKinds r p)).nodup_iff, List.nodup_iff_count_le_one]
    simp only [Validation.errors_ofSteps, StepGraph.duplicateStep_mem_allErrors, not_forall, not_le]
    rfl
  rw [hduplicates, nodup_stepKinds_iff hp, List.nodup_iff_count_le_one, not_and_or, not_and_or,
    not_not]
  simp only [not_forall, not_le, not_not, ne_eq, exists_prop]
  rfl

/-- In the plan for orders, no id is used twice: nothing is listed twice, and no filter takes the
name of the step that drops the known orders. -/
theorem steps_ids_ordersPlan :
    ordersPlan.errors default = [] ∧ routed ∈ builtIn ∧ routed.accepts ordersPlan = true ∧
      ∃ steps, routed.steps ordersPlan default = .ok steps ∧
        (steps.map Step.id).Perm
          ["fetch_orders", "merge_sources", "read_reference_known", "extract_ids_known",
            "filter_new_items_known", "filter_open", "transform_short", "ai_mood", "loop_each",
            "loop_again", "deliver_mail", "deliver_delivery_2", "route_angry", "render_output"] ∧
        ∀ id, .duplicateStep id ∉ (Validation.ofSteps default steps).errors := by
  have hvalid : ordersPlan.errors default = [] := by decide
  have hmem : routed ∈ builtIn := by simp [builtIn]
  have haccepts : routed.accepts ordersPlan = true := rfl
  obtain ⟨steps, hsteps, hids, -, hduplicates⟩ := steps_ids hvalid hmem haccepts
  refine ⟨hvalid, hmem, haccepts, steps, hsteps, hids, ?_⟩
  rw [← not_exists, hduplicates]
  rintro (⟨id, hid⟩ | ⟨f, hf, s, hs, hname⟩ | ⟨hname, -⟩)
  · have hnodup : (ordersPlan.loops.flatMap Loop.body).Nodup := by decide
    have := List.nodup_iff_count_le_one.mp hnodup id
    omega
  · have hdistinct : ∀ f ∈ ordersPlan.filters, ∀ s ∈ ordersPlan.lookups,
        f.id ≠ "new_items_" ++ s.id := by decide
    exact hdistinct f hf s hs hname
  · exact absurd hname (by decide)

end Rule
end PlanFlow
