import PlanFlow.Proofs.Rule.Tail
import PlanFlow.Proofs.Step.Reading

/-!
# What rules emit is read again

Steps take what they hold from the plan, or put it together from texts.  Configurations are put
together in order, and where entries of the plan join them, these are written one by one.  So if the
plan holds what documents hold, every step that a rule emits does.
-/

namespace PlanFlow

open Entries (Canonical)

variable {p : Plan} {settings : Settings}

/-! ## Parts -/

namespace Part

theorem stated_labelSchema (a : AiTask) : Value.Stated (labelSchema a) := by
  intro v hv
  unfold labelSchema at hv
  split at hv
  · obtain rfl := Option.some.inj hv
    have hlabels : Canonical [("enum", .strings a.labels), ("type", .string "string")] :=
      .cons (Value.isCanonical_strings _) (by decide) (.single rfl)
    have hproperties : Canonical [("classification", .object
        [("enum", .strings a.labels), ("type", .string "string")])] := .single hlabels.object
    refine ⟨Canonical.object (.cons hproperties.object (by decide) ?_), nofun⟩
    exact .cons (Value.isCanonical_strings _) (by decide) (.single rfl)
  · cases hv

/-- The work of a part holds what the part holds. -/
theorem readable_work (hp : p.Readable) {part : Part} (hpart : part ∈ p.parts) (input : Handle) :
    (part.work input).Readable := by
  simp only [Plan.parts, List.mem_append, List.mem_map] at hpart
  rcases hpart with ((⟨f, hf, rfl⟩ | ⟨q, -, rfl⟩) | ⟨t, ht, rfl⟩) | ⟨a, ha, rfl⟩
  · show Canonical (("field", .string f.field) :: ("operator", .string f.comparison.name) ::
      f.value.toList.map fun v => ("value", v))
    cases hvalue : f.value with
    | none => exact .cons rfl (by decide) (.single rfl)
    | some v =>
        have hv := (hp.filters f hf v hvalue).1
        exact .cons rfl (by decide) (.cons rfl (by decide) (.single hv))
  · exact .cons (Value.isCanonical_strings _) (by decide) (.single rfl)
  · exact hp.transforms t ht
  · intro v hv
    cases hschema : a.outputSchema with
    | none =>
        rw [hschema] at hv
        exact stated_labelSchema a v hv
    | some schema =>
        rw [hschema] at hv
        exact hp.aiTasks a ha v (hschema.trans hv)

end Part

/-- Every step of the parts of a plan holds what documents hold, if the plan does. -/
theorem Emitted.readable (hp : p.Readable) {s : Step} (h : Emitted p settings s) :
    s.work.Readable := by
  obtain ⟨site, hsite, rfl⟩ := h
  have hparams : ∀ source ∈ p.sources,
      Canonical (Entries.extend [("location", .string source.location)] source.config) :=
    fun source hsource => .extend (.single rfl) (hp.sources source hsource).values
  cases hsite with
  | fetch hs hread => exact hparams _ (List.mem_of_mem_filter hs)
  | merge hmany houtputs => exact .single (Value.isCanonical_strings _)
  | part hpart hchain hinputs => exact Part.readable_work hp hpart _
  | loop hl hrows => exact hp.loops _ hl
  | readReference hs => exact hparams _ (List.mem_of_mem_filter hs)
  | extractKeys hs => exact .single rfl
  | excludeKnown hs hrows => exact .cons rfl (by decide) (.single rfl)

/-! ## Tails -/

namespace Plan

theorem isCanonical_onEmpty (p : Plan) : ∀ entry ∈ p.onEmpty, entry.2.IsCanonical := by
  unfold onEmpty
  split
  · exact List.forall_mem_singleton.mpr rfl
  · exact nofun

theorem canonical_renderConfig (p : Plan) (r : Rendering) : Canonical (p.renderConfig r) := by
  refine .ofList ?_
  simp only [List.forall_mem_append, List.forall_mem_map]
  refine ⟨⟨⟨⟨List.forall_mem_singleton.mpr rfl, ?_⟩, fun _ _ => rfl⟩, fun _ _ => rfl⟩,
    p.isCanonical_onEmpty⟩
  split
  · exact List.forall_mem_nil _
  · exact List.forall_mem_singleton.mpr (Value.isCanonical_strings _)

theorem canonical_deliveryParams {d : Delivery} (hd : d.config.Canonical) (payload : Handle)
    (recipient : Option String) : Canonical (p.deliveryParams d payload recipient) := by
  refine .extend (.ofList ?_) hd.values
  simp only [List.forall_mem_append, List.forall_mem_map]
  exact ⟨⟨fun _ _ => rfl, List.forall_mem_singleton.mpr rfl⟩, p.isCanonical_onEmpty⟩

theorem mem_deliveries_of_keyed {key : String} {d : Delivery} (h : (key, d) ∈ p.keyedDeliveries) :
    d ∈ p.deliveries := by
  obtain ⟨⟨d', index⟩, hmem, heq⟩ := List.mem_map.mp h
  obtain rfl : d' = d := (Prod.mk.inj heq).2
  exact List.fst_mem_of_mem_zipIdx hmem

end Plan

namespace Rule

/-- Every step of a tail holds what documents hold, if the plan does. -/
theorem readable_of_mem_tail (hp : p.Readable) (r : Rule) {rows : Handle} {s : Step}
    (hs : s ∈ r.tail p rows) : s.work.Readable := by
  have hrender : ∀ id input, ∀ s ∈ renderSteps p id input, s.work.Readable := by
    intro id input s hs
    obtain ⟨rendering, -, rfl⟩ := List.mem_map.mp hs
    exact p.canonical_renderConfig rendering
  have hdeliver : ∀ entry ∈ p.keyedDeliveries, ∀ payload others recipient,
      (p.deliveryStep entry.1 entry.2 payload others recipient).work.Readable :=
    fun entry hentry payload _ recipient => Plan.canonical_deliveryParams
      (hp.deliveries _ (Plan.mem_deliveries_of_keyed hentry)) payload recipient
  have hdeliveries : ∀ others, ∀ s ∈ deliverySteps p rows others, s.work.Readable := by
    intro others s hs
    obtain ⟨entry, hentry, rfl⟩ := List.mem_map.mp hs
    exact hdeliver entry hentry _ _ _
  unfold tail at hs
  split at hs
  · simp only [groupedTail, List.mem_append] at hs
    rcases hs with (((hs | hs) | hs) | hs) | hs
    · obtain ⟨field, -, rfl⟩ := List.mem_map.mp hs
      exact .single rfl
    · obtain rfl := List.mem_singleton.mp hs
      exact ⟨limited_none, limited_none⟩
    · exact hrender _ _ s hs
    · obtain ⟨entry, hentry, rfl⟩ := List.mem_map.mp hs
      exact hdeliver entry (List.mem_of_mem_filter hentry) _ _ _
    · obtain ⟨entry, hentry, rfl⟩ := List.mem_map.mp hs
      exact hdeliver entry (List.mem_of_mem_filter hentry) _ _ _
  · split at hs
    · simp only [routedTail, List.mem_append] at hs
      rcases hs with (hs | hs) | hs
      · exact hrender _ _ s hs
      · obtain ⟨b, hb, rfl⟩ := List.mem_map.mp hs
        exact hp.branches b hb
      · exact hdeliveries _ s hs
    · simp only [linearTail, List.mem_append] at hs
      rcases hs with hs | hs
      · exact hrender _ _ s hs
      · exact hdeliveries _ s hs

/-- A step that a built-in rule emits is read as it was written. -/
theorem reads_encode_of_mem_steps (hp : p.Readable) (hsound : p.Sound) {r : Rule} (hr : r ∈ builtIn)
    (haccepts : r.accepts p = true) {steps : List Step} (hsteps : r.steps p settings = .ok steps)
    {s : Step} (hs : s ∈ steps) : Step.decode.Reads s.encode s := by
  obtain ⟨rows, steps', hsteps', -, hshape, -⟩ := exists_steps settings hsound hr haccepts
  obtain rfl := Except.ok.inj (hsteps.symm.trans hsteps')
  refine Step.reads_encode ?_
  rcases hshape s hs with hemitted | htail
  · exact hemitted.readable hp
  · exact readable_of_mem_tail hp r htail

end Rule
end PlanFlow
