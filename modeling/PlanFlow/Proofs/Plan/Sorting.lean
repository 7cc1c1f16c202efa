import Mathlib.Data.List.Basic
import PlanFlow.Compiler

/-!
# Drafts sorted into plans

A draft becomes a plan by sorting its items by kind.  The plan has of every kind exactly the items
of the draft, in their order, so none is lost, doubled or put elsewhere.  Only a blank goal and a
second item of a kind that a plan has once can stand in the way.  How items of different kinds are
interleaved in a draft therefore makes no difference.
-/

namespace PlanFlow

theorem map_toList_inj {α β : Type} {f : α → β} (hf : Function.Injective f) {a b : Option α}
    (h : a.toList.map f = b.toList.map f) : a = b := by
  cases a <;> cases b <;> simp_all [hf.eq_iff]

/-- The kinds of the items of a draft. -/
inductive ItemKind where
  | fetch
  | filter
  | transform
  | ai
  | branch
  | loop
  | partition
  | group
  | render
  | deliver
  | edgeCase
  deriving DecidableEq

namespace ItemKind

/-- A plan has at most one item of the kind. -/
def IsSingle (kind : ItemKind) : Prop := kind = .group ∨ kind = .render

end ItemKind

namespace DraftItem

/-- The kind of an item. -/
def kind : DraftItem → ItemKind
  | .fetch _ => .fetch
  | .filter _ => .filter
  | .transform _ => .transform
  | .ai _ => .ai
  | .branch _ => .branch
  | .loop _ => .loop
  | .partition _ => .partition
  | .group _ => .group
  | .render _ => .render
  | .deliver _ => .deliver
  | .edgeCase _ => .edgeCase

/-- The items of a kind, in their order. -/
def ofKind (items : List DraftItem) (kind : ItemKind) : List DraftItem :=
  items.filter fun item => item.kind = kind

theorem ofKind_append (first second : List DraftItem) (kind : ItemKind) :
    ofKind (first ++ second) kind = ofKind first kind ++ ofKind second kind :=
  List.filter_append first second

theorem ofKind_singleton (item : DraftItem) : ofKind [item] item.kind = [item] := by
  simp [ofKind]

end DraftItem

namespace Plan

/-- The parts of a kind that a plan has, as items of a draft. -/
def items (p : Plan) : ItemKind → List DraftItem
  | .fetch => p.sources.map .fetch
  | .filter => p.filters.map .filter
  | .transform => p.transforms.map .transform
  | .ai => p.aiTasks.map .ai
  | .branch => p.branches.map .branch
  | .loop => p.loops.map .loop
  | .partition => p.partitions.map .partition
  | .group => p.grouping.toList.map .group
  | .render => p.rendering.toList.map .render
  | .deliver => p.deliveries.map .deliver
  | .edgeCase => p.edgeCases.map .edgeCase

theorem length_items_le {p : Plan} {kind : ItemKind} (h : kind.IsSingle) :
    (p.items kind).length ≤ 1 := by
  rcases h with rfl | rfl
  · cases hgrouping : p.grouping <;> simp [items, hgrouping]
  · cases hrendering : p.rendering <;> simp [items, hrendering]

/-- Two plans are equal if they have the same parts of every kind and agree in the rest. -/
theorem eq_of_items_eq {p q : Plan} (hgoal : p.goal = q.goal) (hversion : p.version = q.version)
    (hclarifications : p.clarifications = q.clarifications)
    (hitems : ∀ kind, p.items kind = q.items kind) : p = q := by
  have hsources := (List.map_injective_iff.mpr @DraftItem.fetch.inj) (hitems .fetch)
  have hfilters := (List.map_injective_iff.mpr @DraftItem.filter.inj) (hitems .filter)
  have htransforms := (List.map_injective_iff.mpr @DraftItem.transform.inj) (hitems .transform)
  have htasks := (List.map_injective_iff.mpr @DraftItem.ai.inj) (hitems .ai)
  have hbranches := (List.map_injective_iff.mpr @DraftItem.branch.inj) (hitems .branch)
  have hloops := (List.map_injective_iff.mpr @DraftItem.loop.inj) (hitems .loop)
  have hpartitions := (List.map_injective_iff.mpr @DraftItem.partition.inj) (hitems .partition)
  have hgrouping := map_toList_inj @DraftItem.group.inj (hitems .group)
  have hrendering := map_toList_inj @DraftItem.render.inj (hitems .render)
  have hdeliveries := (List.map_injective_iff.mpr @DraftItem.deliver.inj) (hitems .deliver)
  have hedgeCases := (List.map_injective_iff.mpr @DraftItem.edgeCase.inj) (hitems .edgeCase)
  cases p
  cases q
  simp_all

/-- A plan with further items: those of every kind come after the ones that are there. -/
structure Extends (p : Plan) (added : List DraftItem) (q : Plan) : Prop where
  goal : q.goal = p.goal
  version : q.version = p.version
  clarifications : q.clarifications = p.clarifications
  items : ∀ kind, q.items kind = p.items kind ++ DraftItem.ofKind added kind

theorem Extends.refl (p : Plan) : p.Extends [] p :=
  ⟨rfl, rfl, rfl, fun kind => by simp [DraftItem.ofKind]⟩

theorem Extends.trans {p q r : Plan} {first second : List DraftItem}
    (hfirst : p.Extends first q) (hrest : q.Extends second r) :
    p.Extends (first ++ second) r where
  goal := hrest.goal.trans hfirst.goal
  version := hrest.version.trans hfirst.version
  clarifications := hrest.clarifications.trans hfirst.clarifications
  items kind := by
    rw [hrest.items, hfirst.items, DraftItem.ofKind_append, List.append_assoc]

end Plan

namespace Draft

open Plan

/-- An item is put after those of its kind, unless it would be the second one of a single kind. -/
theorem addItem_cases (p : Plan) (item : DraftItem) :
    (∃ q, addItem p item = .ok q ∧ p.Extends [item] q) ∨
      ∃ fault, addItem p item = .error fault ∧ item.kind.IsSingle ∧ p.items item.kind ≠ [] := by
  cases item with
  | group g =>
      cases hgrouping : p.grouping with
      | none =>
          refine .inl ⟨{ p with grouping := some g }, by simp [addItem, hgrouping], rfl, rfl, rfl,
            fun kind => ?_⟩
          cases kind <;> simp [Plan.items, DraftItem.ofKind, DraftItem.kind, hgrouping]
      | some _ =>
          exact .inr ⟨.repeated "group", by simp [addItem, hgrouping], .inl rfl,
            by simp [Plan.items, DraftItem.kind, hgrouping]⟩
  | render r =>
      cases hrendering : p.rendering with
      | none =>
          refine .inl ⟨{ p with rendering := some r }, by simp [addItem, hrendering], rfl, rfl,
            rfl, fun kind => ?_⟩
          cases kind <;> simp [Plan.items, DraftItem.ofKind, DraftItem.kind, hrendering]
      | some _ =>
          exact .inr ⟨.repeated "render", by simp [addItem, hrendering], .inr rfl,
            by simp [Plan.items, DraftItem.kind, hrendering]⟩
  | _ =>
      refine .inl ⟨_, rfl, rfl, rfl, rfl, fun kind => ?_⟩
      cases kind <;> simp [Plan.items, DraftItem.ofKind, DraftItem.kind]

/-- Items are put into a plan one after the other, as long as no single kind comes twice. -/
theorem foldlM_addItem (added : List DraftItem) (p : Plan) :
    (∃ q, added.foldlM addItem p = .ok q ∧ p.Extends added q) ∨
      ∃ fault, added.foldlM addItem p = .error fault ∧ ∃ kind : ItemKind, kind.IsSingle ∧
        2 ≤ (p.items kind ++ DraftItem.ofKind added kind).length := by
  induction added generalizing p with
  | nil => exact .inl ⟨p, rfl, .refl p⟩
  | cons item rest ih =>
      rw [List.foldlM_cons, ← List.singleton_append]
      rcases addItem_cases p item with ⟨q, hq, hextends⟩ | ⟨fault, hfault, hsingle, hsome⟩
      · rw [hq]
        rcases ih q with ⟨r, hr, hrest⟩ | ⟨fault, hfault, kind, hsingle, hlong⟩
        · exact .inl ⟨r, hr, hextends.trans hrest⟩
        · refine .inr ⟨fault, hfault, kind, hsingle, ?_⟩
          rwa [hextends.items, List.append_assoc, ← DraftItem.ofKind_append] at hlong
      · rw [hfault]
        refine .inr ⟨fault, rfl, item.kind, hsingle, ?_⟩
        have hpos : 0 < (p.items item.kind).length := List.length_pos_iff.mpr hsome
        rw [DraftItem.ofKind_append, DraftItem.ofKind_singleton]
        simp only [List.length_append, List.length_singleton]
        omega

/-- A plan that says what a draft says: of every kind it has the items of the draft, in their
order. -/
structure SortsInto (d : Draft) (p : Plan) : Prop where
  goal : p.goal = d.goal
  version : p.version = d.version.getD defaultVersion
  clarifications : p.clarifications = d.clarifications
  items : ∀ kind, p.items kind = DraftItem.ofKind d.items kind

/-- Two drafts that say the same in the same order, kind by kind. -/
structure Rearranges (d others : Draft) : Prop where
  goal : others.goal = d.goal
  version : others.version = d.version
  clarifications : others.clarifications = d.clarifications
  items : ∀ kind, DraftItem.ofKind others.items kind = DraftItem.ofKind d.items kind

variable {d others : Draft} {p q : Plan}

theorem items_outline (d : Draft) (kind : ItemKind) : d.outline.items kind = [] := by
  cases kind <;> rfl

theorem sortsInto_iff_extends : d.SortsInto p ↔ d.outline.Extends d.items p := by
  constructor
  · intro h
    exact ⟨h.goal, h.version, h.clarifications, fun kind => by
      rw [items_outline, List.nil_append, h.items]⟩
  · intro h
    exact ⟨h.goal, h.version, h.clarifications, fun kind => by
      rw [h.items, items_outline, List.nil_append]⟩

theorem SortsInto.eq (hp : d.SortsInto p) (hq : d.SortsInto q) : p = q :=
  eq_of_items_eq (hp.goal.trans hq.goal.symm) (hp.version.trans hq.version.symm)
    (hp.clarifications.trans hq.clarifications.symm)
    fun kind => (hp.items kind).trans (hq.items kind).symm

theorem sortsInto_congr (h : d.Rearranges others) : others.SortsInto p ↔ d.SortsInto p := by
  constructor
  · intro hp
    exact ⟨hp.goal.trans h.goal, h.version ▸ hp.version, hp.clarifications.trans h.clarifications,
      fun kind => (hp.items kind).trans (h.items kind)⟩
  · intro hp
    exact ⟨hp.goal.trans h.goal.symm, h.version ▸ hp.version,
      hp.clarifications.trans h.clarifications.symm,
      fun kind => (hp.items kind).trans (h.items kind).symm⟩

theorem toPlan_eq_ok_iff :
    d.toPlan = .ok p ↔ Text.isBlankText d.goal = false ∧ d.SortsInto p := by
  rw [toPlan]
  cases hgoal : Text.isBlankText d.goal with
  | true => simp
  | false =>
      simp only [Bool.false_eq_true, if_false, true_and]
      rcases foldlM_addItem d.items d.outline with ⟨q, hq, hextends⟩ | ⟨fault, hfault, kind, h⟩
      · have hsorts : d.SortsInto q := sortsInto_iff_extends.mpr hextends
        rw [hq, Except.ok.injEq]
        exact ⟨fun heq => heq ▸ hsorts, hsorts.eq⟩
      · rw [hfault]
        -- A plan has no room for a second item of a single kind.
        refine ⟨nofun, fun hp => ?_⟩
        have hshort : (p.items kind).length ≤ 1 := length_items_le h.1
        rw [hp.items] at hshort
        rw [items_outline, List.nil_append] at h
        omega

theorem exists_fault_iff :
    (∃ fault, d.toPlan = .error fault) ↔ Text.isBlankText d.goal = true ∨
      ∃ kind : ItemKind, kind.IsSingle ∧ 2 ≤ (DraftItem.ofKind d.items kind).length := by
  constructor
  · rintro ⟨fault, hfault⟩
    rw [toPlan] at hfault
    cases hgoal : Text.isBlankText d.goal with
    | true => exact .inl rfl
    | false =>
        rw [hgoal, if_neg Bool.false_ne_true] at hfault
        rcases foldlM_addItem d.items d.outline with ⟨q, hq, -⟩ | ⟨_, -, kind, h⟩
        · rw [hq] at hfault
          cases hfault
        · rw [items_outline, List.nil_append] at h
          exact .inr ⟨kind, h⟩
  · intro h
    cases hplan : d.toPlan with
    | error fault => exact ⟨fault, rfl⟩
    | ok p =>
        obtain ⟨hgoal, hsorts⟩ := toPlan_eq_ok_iff.mp hplan
        rcases h with hblank | ⟨kind, hsingle, hlong⟩
        · rw [hgoal] at hblank
          cases hblank
        · have hshort : (p.items kind).length ≤ 1 := length_items_le hsingle
          rw [hsorts.items] at hshort
          omega

/-- Sorting fails exactly if the goal is blank or there are two groupings or two renderings, and
otherwise gives the plan with the items of every kind in their order.  So a rearrangement that keeps
the order within each kind gives the same plan, or fails too, and every compiler makes of it what it
makes of that plan. -/
theorem toPlan_sorts_items (d : Draft) :
    ((∃ fault, d.toPlan = .error fault) ↔ Text.isBlankText d.goal = true ∨
      2 ≤ (DraftItem.ofKind d.items .group).length ∨
      2 ≤ (DraftItem.ofKind d.items .render).length) ∧
    (∀ p, d.toPlan = .ok p → d.SortsInto p) ∧
    ∀ others, d.Rearranges others →
      (∃ p, d.toPlan = .ok p ∧ others.toPlan = .ok p ∧ ∀ c : Compiler,
        c.compileDraft d = c.compile p ∧ c.compileDraft others = c.compile p) ∨
      ∃ fault fault', d.toPlan = .error fault ∧ others.toPlan = .error fault' := by
  refine ⟨?_, fun p hp => (toPlan_eq_ok_iff.mp hp).2, fun others h => ?_⟩
  · rw [exists_fault_iff]
    simp only [ItemKind.IsSingle, or_and_right, exists_or, exists_eq_left]
  · have hsame : ∀ p, others.toPlan = .ok p ↔ d.toPlan = .ok p := fun p => by
      rw [toPlan_eq_ok_iff, toPlan_eq_ok_iff, h.goal, sortsInto_congr h]
    cases hd : d.toPlan with
    | ok p =>
        have hothers : others.toPlan = .ok p := (hsame p).mpr hd
        refine .inl ⟨p, rfl, hothers, fun c => ?_⟩
        simp only [Compiler.compileDraft, hd, hothers, and_self]
    | error fault =>
        cases hothers : others.toPlan with
        | ok p => exact nomatch hd.symm.trans ((hsame p).mp hothers)
        | error fault' => exact .inr ⟨fault, fault', rfl, rfl⟩

/-- A draft that states its rendering first and reads a second source after a filter. -/
def leadsDraft : Draft where
  goal := "Mail the leads"
  version := none
  items := [.render ⟨.table, [], none, none⟩,
    .fetch ⟨"leads", .tabular, "sheets", none, "Leads", .primary, none, none, []⟩,
    .filter ⟨"open", "status", .isNotEmpty, none, []⟩,
    .fetch ⟨"events", .webhook, "hooks", none, "Events", .secondary, none, none, []⟩,
    .filter ⟨"named", "name", .isNotEmpty, none, ["open"]⟩,
    .deliver ⟨some "mail", .email, "mailer", none, some "desk", none, []⟩]
  clarifications := []

/-- The same draft, kind by kind. -/
def sortedLeadsDraft : Draft :=
  { leadsDraft with items := [
      .fetch ⟨"leads", .tabular, "sheets", none, "Leads", .primary, none, none, []⟩,
      .fetch ⟨"events", .webhook, "hooks", none, "Events", .secondary, none, none, []⟩,
      .filter ⟨"open", "status", .isNotEmpty, none, []⟩,
      .filter ⟨"named", "name", .isNotEmpty, none, ["open"]⟩,
      .render ⟨.table, [], none, none⟩,
      .deliver ⟨some "mail", .email, "mailer", none, some "desk", none, []⟩] }

theorem toPlan_sorts_items_leadsDraft :
    leadsDraft.Rearranges sortedLeadsDraft ∧ ∃ p, leadsDraft.toPlan = .ok p ∧
      leadsDraft.SortsInto p ∧ sortedLeadsDraft.toPlan = .ok p ∧ ∀ c : Compiler,
        c.compileDraft leadsDraft = c.compile p ∧
          c.compileDraft sortedLeadsDraft = c.compile p := by
  have hrearranges : leadsDraft.Rearranges sortedLeadsDraft :=
    ⟨rfl, rfl, rfl, fun kind => by cases kind <;> rfl⟩
  have hplan : ∃ p, leadsDraft.toPlan = .ok p := ⟨_, rfl⟩
  obtain ⟨-, hsorts, hothers⟩ := toPlan_sorts_items leadsDraft
  rcases hothers sortedLeadsDraft hrearranges with ⟨p, hp, hsame, hcompile⟩ | ⟨_, _, hfault, -⟩
  · exact ⟨hrearranges, p, hp, hsorts p hp, hsame, hcompile⟩
  · obtain ⟨p, hp⟩ := hplan
    exact nomatch hp.symm.trans hfault

end Draft
end PlanFlow
