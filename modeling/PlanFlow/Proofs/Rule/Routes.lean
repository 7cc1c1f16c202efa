import PlanFlow.Proofs.Rule.Deliveries
import PlanFlow.Proofs.Rule.StepIds

/-!
# Routes

A branch names the deliveries that it leads to, in lists that may overlap and repeat themselves.
Each delivery waits once for every branch that names it, in the order of the branches, and then for
what it hands over.  Nothing else waits for a branch, and nothing waits for a delivery, so no
delivery waits for a branch that does not name it, not even through other steps.
-/

namespace PlanFlow
namespace Rule

open Emitter
open Relation (ReflTransGen TransGen)

variable {p : Plan} {settings : Settings} {rows : Handle} {steps : List Step} {key : String}

/-! ## Branches and the deliveries that they name -/

/-- The branches that name a delivery, each once. -/
theorem routesTo_eq (hp : p.Sound) (key : String) :
    routesTo p key = (p.branches.filter fun b =>
      key ∈ b.thenDeliver ∨ key ∈ b.elseDeliver).map routeId := by
  rw [routesTo_eq_eraseDups]
  exact Ids.eraseDups_of_nodup ((nodup_routeIds hp).sublist (List.filter_sublist.map routeId))

theorem mem_routesTo_iff (hp : p.Sound) {b : Branch} (hb : b ∈ p.branches) :
    routeId b ∈ routesTo p key ↔ key ∈ b.thenDeliver ∨ key ∈ b.elseDeliver := by
  rw [routesTo_eq hp]
  constructor
  · intro hmem
    obtain ⟨other, hother, hid⟩ := List.mem_map.mp hmem
    obtain ⟨hother, hnames⟩ := List.mem_filter.mp hother
    obtain rfl := List.inj_on_of_nodup_map (nodup_routeIds hp) hother hb hid
    exact of_decide_eq_true hnames
  · intro hnames
    exact List.mem_map_of_mem (List.mem_filter.mpr ⟨hb, decide_eq_true hnames⟩)

/-! ## What is waited for -/

/-- Neither branches nor deliveries are among what parts and the rendering are turned into. -/
theorem not_mem_before {id : String} (hid : Ids.stem id ∈ ["rou", "del"]) :
    id ∉ p.emittedIds ++ renderIds p renderId := by
  have hsub : ["rou", "del"] ⊆ ["del", "rou", "gro", "ren"] := by decide
  intro hmem
  rcases List.mem_append.mp hmem with hpart | hrender
  · exact Plan.not_mem_emittedIds_of_stem (hsub hid) hpart
  · rw [renderIds] at hrender
    split at hrender
    · rw [List.mem_singleton.mp hrender] at hid
      exact absurd hid (by decide)
    · cases hrender

theorem stem_routeId (b : Branch) : Ids.stem (routeId b) ∈ ["rou", "del"] := by
  rw [routeId, Ids.stem_append (by decide)]
  decide

theorem stem_deliveryStepId (key : String) :
    Ids.stem (Plan.deliveryStepId key) ∈ ["rou", "del"] := by
  rw [Plan.deliveryStepId, Ids.stem_append (by decide)]
  decide

theorem routeId_ne_deliveryStepId (b : Branch) (key : String) :
    routeId b ≠ Plan.deliveryStepId key := by
  apply Ids.ne_append (by decide)
  rw [routeId, Ids.stem_append (by decide)]
  decide

section Steps

variable (hp : p.Sound) (hrows : Obtainable p rows)
include hp hrows

/-- What a delivery hands over comes from the parts or was rendered. -/
theorem payload_dependencies_subset (d : Delivery) :
    (payloadOf d (rendered p renderId) rows).dependencies ⊆
      p.emittedIds ++ renderIds p renderId :=
  payloadOf_dependencies_subset d
    (List.subset_append_of_subset_left _ (hrows.dependencies_subset hp))
    (List.subset_append_right _ _)

/-- The routes of a delivery come before its payload, and nothing is listed twice. -/
theorem dependencies_routed (d : Delivery) :
    (p.deliveryStep key d (payloadOf d (rendered p renderId) rows) (routesTo p key)
      d.recipient).dependencies =
        routesTo p key ++ (payloadOf d (rendered p renderId) rows).dependencies := by
  apply dependencies_deliveryStep key d d.recipient (Ids.nodup_eraseDups _)
  intro id hroute hpayload
  obtain ⟨b, -, rfl⟩ := List.mem_map.mp (routesTo_subset p key hroute)
  exact not_mem_before (stem_routeId b) (payload_dependencies_subset hp hrows d hpayload)

variable (hshape : ∀ s ∈ steps, Emitted p settings s ∨ s ∈ routed.tail p rows)
include hshape

/-- A step other than a delivery waits for parts alone. -/
theorem dependencies_subset_or_delivery {s : Step} (hs : s ∈ steps) :
    s.dependencies ⊆ p.emittedIds ∨ ∃ key d, (key, d) ∈ p.keyedDeliveries ∧
      s = p.deliveryStep key d (payloadOf d (rendered p renderId) rows) (routesTo p key)
        d.recipient := by
  have hrowIds := hrows.dependencies_subset hp
  rcases hshape s hs with hpart | htail
  · exact .inl (List.Subset.trans (List.subset_append_left _ _) (hpart.references_subset hp))
  · have htail : s ∈ routedTail p rows := htail
    simp only [routedTail, List.mem_append] at htail
    rcases htail with (hrender | hroute) | hdelivery
    · obtain ⟨r, -, rfl⟩ := List.mem_map.mp hrender
      exact .inl hrowIds
    · obtain ⟨b, -, rfl⟩ := List.mem_map.mp hroute
      exact .inl hrowIds
    · obtain ⟨⟨key, d⟩, hd, rfl⟩ := List.mem_map.mp hdelivery
      exact .inr ⟨key, d, hd, rfl⟩

/-- No step waits for a delivery. -/
theorem not_feeds_of_delivery (key x : String) : ¬Feeds steps (Plan.deliveryStepId key) x := by
  rintro ⟨s, hs, -, hmem⟩
  have hbefore := not_mem_before (p := p) (stem_deliveryStepId key)
  rcases dependencies_subset_or_delivery hp hrows hshape hs with hsub | ⟨other, d, -, rfl⟩
  · exact hbefore (List.mem_append_left _ (hsub hmem))
  · rcases mem_dependencies_deliveryStep.mp hmem with hroute | hpayload
    · obtain ⟨b, -, hid⟩ := List.mem_map.mp (routesTo_subset p other hroute)
      exact routeId_ne_deliveryStepId b key hid
    · exact hbefore (payload_dependencies_subset hp hrows d hpayload)

/-- Only deliveries that a branch names wait for it, and they do so directly. -/
theorem names_of_transGen {b : Branch} (hb : b ∈ p.branches) (hkey : key ∈ p.deliveryIds)
    (hpath : TransGen (Feeds steps) (routeId b) (Plan.deliveryStepId key)) :
    key ∈ b.thenDeliver ∨ key ∈ b.elseDeliver := by
  obtain ⟨_, ⟨s, hs, rfl, hmem⟩, hrest⟩ := TransGen.head'_iff.mp hpath
  have hbefore := not_mem_before (p := p) (stem_routeId b)
  rcases dependencies_subset_or_delivery hp hrows hshape hs with hsub | ⟨other, d, -, rfl⟩
  · exact absurd (List.mem_append_left _ (hsub hmem)) hbefore
  -- The path ends where it comes to a delivery.
  rcases ReflTransGen.cases_head hrest with hid | ⟨_, hfeeds, -⟩
  · obtain rfl : other = key := (String.append_right_inj "deliver_").mp hid
    refine (mem_routesTo_iff hp hb).mp ?_
    refine (mem_dependencies_deliveryStep.mp hmem).resolve_right fun hpayload => ?_
    exact hbefore (payload_dependencies_subset hp hrows d hpayload)
  · exact absurd hfeeds (not_feeds_of_delivery hp hrows hshape other _)

end Steps

/-! ## All steps -/

/-- If a plan has no errors and the rule that routes accepts it, then one step is emitted for each
branch and one for each delivery.  The step of a branch leads to the steps of the deliveries that
the branch names, in their order.  The step of a delivery lists the branches that name it, each
once and in the order of the plan, and then the step that produces what it hands over: what is
rendered if it takes a message and the plan asks for a rendering, else the rows that the parts end
with.  It waits for no other branch, neither directly nor through others. -/
theorem deliveries_routed {p : Plan} {settings : Settings} (hvalid : p.errors settings = [])
    (haccepts : routed.accepts p = true) :
    ∃ steps rows e renders, routed.steps p settings = .ok steps ∧
      (emitParts p settings).run .start = .ok (rows, e) ∧
      (renders = true ↔ ∃ r, p.rendering = some r ∧ r.kind ≠ .none) ∧
      (∀ b ∈ p.branches, ∃ s ∈ steps, s.id = "route_" ++ b.id ∧ (∀ t ∈ steps, t.id = s.id → t = s) ∧
        s.dependencies = rows.dependencies ∧
        s.work = .conditional b.condition (b.thenDeliver.map fun key => "deliver_" ++ key)
          (b.elseDeliver.map fun key => "deliver_" ++ key)) ∧
      ∀ key d, (key, d) ∈ p.keyedDeliveries →
        ∃ s ∈ steps, s.id = "deliver_" ++ key ∧ (∀ t ∈ steps, t.id = s.id → t = s) ∧
          ∃ payload, payload =
              (if d.method.takesMessage && renders then .ofStep "render_output" else rows) ∧
            s.work = .action d.plugin d.effectiveOperation
              (p.deliveryParams d payload d.recipient) ∧
            s.dependencies = (p.branches.filter fun b =>
              key ∈ b.thenDeliver ∨ key ∈ b.elseDeliver).map (fun b => "route_" ++ b.id) ++
                payload.dependencies ∧
            s.dependencies.Nodup ∧
            ∀ b ∈ p.branches,
              ("route_" ++ b.id ∈ s.dependencies ↔
                key ∈ b.thenDeliver ∨ key ∈ b.elseDeliver) ∧
              (TransGen (Feeds steps) ("route_" ++ b.id) s.id ↔
                key ∈ b.thenDeliver ∨ key ∈ b.elseDeliver) := by
  have hp := Plan.sound_of_errors hvalid
  have hr : routed ∈ builtIn := by simp [builtIn]
  obtain ⟨rows, e, steps, hrun, hsteps, hrows, htail, hshape, -⟩ :=
    exists_steps_run settings hp hr haccepts
  have hname : routed.name ≠ grouped.name := by decide
  have hunique : ∀ t ∈ routed.tail p rows, ∀ s ∈ steps, s.id = t.id → s = t := fun t ht s hs hid =>
    eq_of_id_eq hp hr haccepts (fun h => absurd h hname) hshape ht hs hid
  refine ⟨steps, rows, e, p.activeRendering.isSome, hsteps, hrun, activeRendering_isSome_iff,
    fun b hb => ?_, fun key d hd => ?_⟩
  · have hroute : routeStep b rows ∈ routed.tail p rows :=
      List.mem_append_left _ (List.mem_append_right _ (List.mem_map_of_mem hb))
    exact ⟨_, htail hroute, rfl, hunique _ hroute, rfl, rfl⟩
  · have hdelivery : p.deliveryStep key d (payloadOf d (rendered p renderId) rows) (routesTo p key)
        d.recipient ∈ routed.tail p rows :=
      List.mem_append_right _ (List.mem_map.mpr ⟨(key, d), hd, rfl⟩)
    have hlists : ∀ b ∈ p.branches, key ∈ b.thenDeliver ∨ key ∈ b.elseDeliver → routeId b ∈
        (p.deliveryStep key d (payloadOf d (rendered p renderId) rows) (routesTo p key)
          d.recipient).dependencies := fun b hb hnames =>
      mem_dependencies_deliveryStep.mpr (.inl ((mem_routesTo_iff hp hb).mpr hnames))
    have hnamed : ∀ b ∈ p.branches, TransGen (Feeds steps) (routeId b) (Plan.deliveryStepId key) →
        key ∈ b.thenDeliver ∨ key ∈ b.elseDeliver := fun b hb hpath =>
      names_of_transGen hp hrows hshape hb (List.mem_map_of_mem hd) hpath
    refine ⟨_, htail hdelivery, rfl, hunique _ hdelivery, _, payloadOf_rendered d renderId rows,
      rfl, ?_, Ids.nodup_eraseDups _,
      fun b hb => ⟨⟨fun hmem => ?_, hlists b hb⟩, hnamed b hb, fun hnames => ?_⟩⟩
    · rw [dependencies_routed hp hrows, routesTo_eq hp]
      rfl
    · exact hnamed b hb (.single ⟨_, htail hdelivery, rfl, hmem⟩)
    · exact .single ⟨_, htail hdelivery, rfl, hlists b hb hnames⟩

/-- The plan for orders with branches that name one delivery more than once, and a sink that none
names. -/
def sharedOrdersPlan : Plan :=
  { chainedOrdersPlan with
    branches := [⟨"angry", ⟨"mood", .isNotEmpty, none⟩, ["mail", "delivery_2", "mail"], ["mail"]⟩,
      ⟨"late", ⟨"due", .isEmpty, none⟩, [], ["mail"]⟩]
    deliveries := chainedOrdersPlan.deliveries ++
      [⟨some "log", .file, "store", none, none, none, []⟩] }

theorem deliveries_routed_sharedOrdersPlan :
    sharedOrdersPlan.errors default = [] ∧ routed.accepts sharedOrdersPlan = true ∧
      ∃ steps, routed.steps sharedOrdersPlan default = .ok steps ∧
        (∃ s ∈ steps, s.id = "deliver_mail" ∧
          s.dependencies = ["route_angry", "route_late", "render_output"]) ∧
        (∃ s ∈ steps, s.id = "deliver_delivery_2" ∧ "route_angry" ∈ s.dependencies ∧
          ¬TransGen (Feeds steps) "route_late" s.id) ∧
        ∃ s ∈ steps, s.id = "deliver_log" ∧
          ∀ b ∈ sharedOrdersPlan.branches, ¬TransGen (Feeds steps) ("route_" ++ b.id) s.id := by
  have hvalid : sharedOrdersPlan.errors default = [] := by decide
  have haccepts : routed.accepts sharedOrdersPlan = true := rfl
  obtain ⟨steps, rows, e, renders, hsteps, -, hrenders, -, hdeliveries⟩ :=
    deliveries_routed hvalid haccepts
  obtain rfl : renders = true := hrenders.mpr ⟨_, rfl, by decide⟩
  obtain ⟨mail, hmail, hmailId, -, _, rfl, -, hmailLists, -⟩ :=
    hdeliveries "mail" _ List.mem_cons_self
  obtain ⟨store, hstore, hstoreId, -, _, rfl, -, -, -, hstoreRoutes⟩ :=
    hdeliveries "delivery_2" _ (List.mem_cons_of_mem _ List.mem_cons_self)
  obtain ⟨log, hlog, hlogId, -, _, rfl, -, -, -, hlogRoutes⟩ :=
    hdeliveries "log" _ (List.mem_cons_of_mem _ (List.mem_cons_of_mem _ List.mem_cons_self))
  refine ⟨hvalid, haccepts, steps, hsteps, ⟨mail, hmail, hmailId, hmailLists⟩,
    ⟨store, hstore, hstoreId, ?_, ?_⟩, log, hlog, hlogId, fun b hb hpath => ?_⟩
  · exact (hstoreRoutes _ List.mem_cons_self).1.mpr (by decide)
  · intro hpath
    have hnames := (hstoreRoutes _ (List.mem_cons_of_mem _ List.mem_cons_self)).2.mp hpath
    exact absurd hnames (by decide)
  · have hnone : ∀ b ∈ sharedOrdersPlan.branches,
        ¬("log" ∈ b.thenDeliver ∨ "log" ∈ b.elseDeliver) := by decide
    exact hnone b hb ((hlogRoutes b hb).2.mp hpath)

end Rule
end PlanFlow
