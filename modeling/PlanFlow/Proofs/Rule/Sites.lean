import PlanFlow.Proofs.Rule.Deliveries

/-!
# Where the steps of a rule are made

After the parts, a rule renders, groups or routes the rows that the parts end with, and delivers
them.  These are sites too: each takes the rows, or those of the current group, or what an earlier
one of them made, and each delivery hands over a payload.  The steps of a rule are made at the sites
of the parts and of its tail, each at one.
-/

namespace PlanFlow

namespace Site

/-- Rows are rendered. -/
def render (p : Plan) (r : Rendering) (id : String) (rows : Handle) : Site :=
  ⟨p.renderStep r id rows, [.all rows], none⟩

/-- Rows are grouped by a field. -/
def group (field : String) (rows : Handle) : Site := ⟨Rule.groupStep field rows, [.all rows], none⟩

/-- A loop iterates over the groups. -/
def groups (p : Plan) : Site := ⟨Rule.groupLoopStep p, [.all (.ofStep Rule.groupId)], none⟩

/-- The rows are routed by a condition of their own. -/
def route (b : Branch) (rows : Handle) : Site := ⟨Rule.routeStep b rows, [], none⟩

/-- A payload is delivered. -/
def deliver (p : Plan) (key : String) (d : Delivery) (payload : Handle) (others : List String)
    (recipient : Option String) : Site :=
  ⟨p.deliveryStep key d payload others recipient, [], some payload⟩

end Site

namespace Rule

open Emitter

/-! ## Tails -/

/-- The site of the rendering, if the plan asks for it. -/
def renderSites (p : Plan) (id : String) (rows : Handle) : List Site :=
  p.activeRendering.toList.map fun r => .render p r id rows

/-- The site of a delivery.  By the rule that groups, what takes place once per group gets the rows
of the group; by all others, a delivery gets all rows. -/
def deliverySite (r : Rule) (p : Plan) (rows : Handle) (key : String) (d : Delivery) : Site :=
  if r.name = grouped.name then
    if perGroup d then
      .deliver p key d (payloadOf d (rendered p groupRenderId) groupRows) [] (groupRecipient d)
    else .deliver p key d rows [groupLoopId] d.recipient
  else
    .deliver p key d (payloadOf d (rendered p renderId) rows)
      (if r.name = routed.name then routesTo p key else []) d.recipient

/-- The sites of what a rule does before it delivers. -/
def preparingSites (r : Rule) (p : Plan) (rows : Handle) : List Site :=
  if r.name = grouped.name then
    (p.groupBy.toList.map fun field => .group field rows) ++ [.groups p] ++
      renderSites p groupRenderId groupRows
  else if r.name = routed.name then
    renderSites p renderId rows ++ p.branches.map fun b => .route b rows
  else renderSites p renderId rows

/-- The deliveries, in the order in which a rule emits them: the rule that groups puts off those
that do not take place once per group. -/
def orderedDeliveries (r : Rule) (p : Plan) : List (String × Delivery) :=
  if r.name = grouped.name then
    (p.keyedDeliveries.filter fun (_, d) => perGroup d) ++
      p.keyedDeliveries.filter fun (_, d) => !perGroup d
  else p.keyedDeliveries

/-- The sites of a tail. -/
def tailSites (r : Rule) (p : Plan) (rows : Handle) : List Site :=
  r.preparingSites p rows ++ (r.orderedDeliveries p).map fun (key, d) => r.deliverySite p rows key d

theorem mem_orderedDeliveries {r : Rule} {p : Plan} {entry : String × Delivery} :
    entry ∈ r.orderedDeliveries p ↔ entry ∈ p.keyedDeliveries := by
  rw [orderedDeliveries]
  split
  · exact (List.filter_append_perm _ _).mem_iff
  · exact Iff.rfl

section Tails

variable {p : Plan} {rows : Handle} {r : Rule}

theorem map_step_renderSites (p : Plan) (id : String) (rows : Handle) :
    (renderSites p id rows).map Site.step = renderSteps p id rows := List.map_map

theorem map_step_groupedSites (hrule : r.name = grouped.name) :
    (r.tailSites p rows).map Site.step = groupedTail p rows := by
  have hper : (p.keyedDeliveries.filter fun (_, d) => perGroup d).map
      (fun (key, d) => (r.deliverySite p rows key d).step) = groupDeliverySteps p := by
    refine List.map_congr_left ?_
    rintro ⟨key, d⟩ hd
    show (r.deliverySite p rows key d).step = _
    rw [deliverySite, if_pos hrule, if_pos (List.mem_filter.mp hd).2]
    rfl
  have honce : (p.keyedDeliveries.filter fun (_, d) => !perGroup d).map
      (fun (key, d) => (r.deliverySite p rows key d).step) = onceDeliverySteps p rows := by
    refine List.map_congr_left ?_
    rintro ⟨key, d⟩ hd
    show (r.deliverySite p rows key d).step = _
    rw [deliverySite, if_pos hrule, if_neg (by simpa using (List.mem_filter.mp hd).2)]
    rfl
  rw [tailSites, preparingSites, if_pos hrule, orderedDeliveries, if_pos hrule, groupedTail,
    ← hper, ← honce, ← map_step_renderSites]
  simp only [List.map_append, List.map_map, List.append_assoc]
  rfl

/-- The steps of the sites of a tail are its steps. -/
theorem map_step_tailSites (r : Rule) (p : Plan) (rows : Handle) :
    (r.tailSites p rows).map Site.step = r.tail p rows := by
  rw [tail]
  by_cases hgrouped : r.name = grouped.name
  · rw [if_pos hgrouped]
    exact map_step_groupedSites hgrouped
  · rw [if_neg hgrouped, tailSites, preparingSites, if_neg hgrouped, orderedDeliveries,
      if_neg hgrouped]
    simp only [deliverySite, if_neg hgrouped, List.map_append, List.map_map]
    split
    · rw [List.map_append, map_step_renderSites, List.map_map]
      rfl
    · rw [map_step_renderSites]
      rfl

end Tails

/-! ## The site of a delivery -/

/-- What an id starts with says that it is not the id of a delivery. -/
theorem head_append {first : String} (hfirst : first.toList.head?.any (· != 'd') = true)
    (rest : String) : (first ++ rest).toList.head? ≠ some 'd' := by
  rw [String.toList_append]
  cases hchars : first.toList with
  | nil =>
      rw [hchars] at hfirst
      cases hfirst
  | cons c chars =>
      rw [hchars] at hfirst
      simpa using hfirst

/-- Of the steps of parts none is named like a delivery. -/
theorem head_of_sited {p : Plan} {settings : Settings} {site : Site}
    (hsite : Sited p settings site) : site.id.toList.head? ≠ some 'd' := by
  cases hsite with
  | fetch => exact head_append (by decide) _
  | merge =>
      show Emitter.mergeId.toList.head? ≠ some 'd'
      decide
  | @part part => cases part <;> exact head_append (by decide) _
  | loop => exact head_append (by decide) _
  | readReference => exact head_append (by decide) _
  | extractKeys => exact head_append (by decide) _
  | excludeKnown => exact head_append (by decide) _

section Deliveries

variable {p : Plan} {rows : Handle} {r : Rule} {site : Site}

theorem head_renderSites {id : String} (hid : id.toList.head? ≠ some 'd')
    (hsite : site ∈ renderSites p id rows) : site.id.toList.head? ≠ some 'd' := by
  obtain ⟨rendering, -, rfl⟩ := List.mem_map.mp hsite
  exact hid

/-- Neither is what a rule does before it delivers. -/
theorem head_preparingSites (hsite : site ∈ r.preparingSites p rows) :
    site.id.toList.head? ≠ some 'd' := by
  rw [preparingSites] at hsite
  split at hsite
  · simp only [List.mem_append, List.mem_singleton] at hsite
    rcases hsite with (hgroup | rfl) | hrender
    · obtain ⟨field, -, rfl⟩ := List.mem_map.mp hgroup
      show groupId.toList.head? ≠ some 'd'
      decide
    · show groupLoopId.toList.head? ≠ some 'd'
      decide
    · exact head_renderSites (by decide) hrender
  · split at hsite
    · rcases List.mem_append.mp hsite with hrender | hroute
      · exact head_renderSites (by decide) hrender
      · obtain ⟨b, -, rfl⟩ := List.mem_map.mp hroute
        exact head_append (by decide) _
    · exact head_renderSites (by decide) hsite

/-- A site of a tail that is named like a delivery is the site of the delivery. -/
theorem eq_deliverySite (hp : p.Sound) {key : String} {d : Delivery}
    (hd : (key, d) ∈ p.keyedDeliveries) (hid : site.id = Plan.deliveryStepId key)
    (hsite : site ∈ r.tailSites p rows) : site = r.deliverySite p rows key d := by
  rcases List.mem_append.mp hsite with hsite | hsite
  · refine absurd ?_ (head_preparingSites hsite)
    simp [hid, Plan.deliveryStepId]
  · obtain ⟨⟨other, d'⟩, hd', rfl⟩ := List.mem_map.mp hsite
    have hother : (r.deliverySite p rows other d').id = Plan.deliveryStepId other := by
      unfold deliverySite
      split
      · split <;> rfl
      · rfl
    obtain ⟨rfl, rfl⟩ := Prod.mk.inj
      (eq_of_deliveryStepId_eq hp hd (mem_orderedDeliveries.mp hd') (hother.symm.trans hid))
    rfl

end Deliveries

/-! ## All sites -/

/-- The sites of the steps that a rule emits for a plan, in any order: those of the parts, and those
of its tail on the rows that the parts end with. -/
def Lays (r : Rule) (p : Plan) (settings : Settings) (sites : List Site) : Prop :=
  ∃ (rows : Handle) (parts : List Site), p.PartSites settings rows parts ∧
    sites.Perm (parts ++ r.tailSites p rows)

/-- In a sound plan a built-in rule that accepts the plan emits steps at the sites of the plan. -/
theorem exists_sites {p : Plan} (settings : Settings) (hp : p.Sound) {r : Rule} (hr : r ∈ builtIn)
    (haccepts : r.accepts p = true) :
    ∃ (rows : Handle) (sites parts : List Site), r.steps p settings = .ok (sites.map Site.step) ∧
      Obtainable p rows ∧ (∀ site ∈ parts, Sited p settings site) ∧
      p.PartSites settings rows parts ∧ sites.Perm (parts ++ r.tailSites p rows) := by
  obtain ⟨rows, _, before, after, -, hsteps, hrows, hsited, hparts⟩ :=
    exists_sites_run settings hp hr haccepts
  refine ⟨rows, before ++ (r.tailSites p rows ++ after), before ++ after, ?_, hrows, hsited, hparts,
    ?_⟩
  · rw [hsteps, List.map_append, List.map_append, map_step_tailSites]
  · rw [List.append_assoc]
    exact List.perm_append_comm.append_left _

end Rule
end PlanFlow
