import PlanFlow.Proofs.Emission.Chain

/-!
# The bodies of loops

What a part in the body of a loop depends on takes the place of the current item as its input, but
the step of the part waits for the chain that it stands in all the same.  So along a body nothing
is lost that was upstream of the current item, whatever loops are emitted between the parts, and
every part waits for all that stand before it.
-/

namespace PlanFlow

namespace Plan

variable {p : Plan}

/-- A part in a body waits for the chain that it stands in, whatever else it depends on. -/
theorem subset_waitsOf {part : Part} (hbody : p.inBody part.id = true) (chain : Handle) :
    chain.dependencies ⊆ p.waitsOf part chain := by
  intro id hid
  rw [waitsOf, if_pos hbody, List.mem_eraseDups]
  exact List.mem_append_right _ hid

theorem inBody_of_mem_bodyParts {l : Loop} (hl : l ∈ p.loops) {part : Part}
    (hpart : part ∈ p.bodyParts l) : p.inBody part.id = true := by
  obtain ⟨id, hid, hfind⟩ := List.mem_filterMap.mp hpart
  have heq : part.id = id := by simpa using List.find?_some hfind
  exact List.any_eq_true.mpr ⟨l, hl, List.contains_iff_mem.mpr (heq ▸ hid)⟩

end Plan

/-- Steps with some ids wait in turn: each for where they start, and for all that stand before
it. -/
structure InTurn (steps : List Step) (source ids : List String) (members : List Step) : Prop where
  subset : members ⊆ steps
  map_id : members.map Step.id = ids
  source : ∀ s ∈ members, ∀ x ∈ source, Upstream steps s.dependencies x
  before : members.Pairwise fun a b => Upstream steps b.dependencies a.id

namespace InTurn

variable {steps more members : List Step} {source mid ids loops : List String} {first : Step}

theorem nil (steps : List Step) (source : List String) : InTurn steps source [] [] where
  subset := List.nil_subset _
  map_id := rfl
  source := nofun
  before := .nil

theorem mono (h : InTurn steps source ids members) (hsub : steps ⊆ more) :
    InTurn more source ids members where
  subset := List.Subset.trans h.subset hsub
  map_id := h.map_id
  source s hs x hx := (h.source s hs x hx).mono hsub
  before := h.before.imp fun hab => hab.mono hsub

/-- A step that waits for a source stands before steps that wait for what it leaves behind. -/
theorem cons (hfirst : first ∈ steps) (hsource : source ⊆ first.dependencies)
    (hpasses : Passes steps [first.id] loops mid) (h : InTurn steps mid ids members) :
    InTurn steps source (first.id :: ids) (first :: members) := by
  have hleft : ∀ s ∈ members, ∀ x, Upstream steps [first.id] x → Upstream steps s.dependencies x :=
    fun s hs x hx => (hpasses.upstream (.inl hx)).trans fun y hy => h.source s hs y hy
  refine ⟨List.cons_subset.mpr ⟨hfirst, h.subset⟩, by rw [List.map_cons, h.map_id], ?_, ?_⟩
  · rw [List.forall_mem_cons]
    refine ⟨fun x hx => .of_mem (hsource hx), fun s hs x hx => hleft s hs x ?_⟩
    exact (Upstream.of_mem hx).through hfirst hsource
  · refine List.pairwise_cons.mpr ⟨fun s hs => hleft s hs first.id ?_, h.before⟩
    exact .of_mem (List.mem_singleton_self _)

end InTurn

namespace Emitter

variable {p : Plan} {loopsOver : String → Handle → Emitter Handle}

/-- The steps of parts in bodies wait in turn for the rows before them. -/
theorem emitParts_inTurn (hp : p.Sound) (hover : EmitsLoops p default loopsOver)
    (hpassesOver : PassesOver p loopsOver) {parts : List Part}
    (hparts : ∀ part ∈ parts, part ∈ p.parts ∧ p.inBody part.id = true) {rows : Handle}
    (hrows : Obtainable p rows) (e : Emission) :
    Yields (parts.foldlM (fun rows part => emitPart p loopsOver part rows) rows) e fun _ e' =>
      ∃ members, InTurn e'.steps rows.dependencies (parts.map Part.stepId) members := by
  induction parts generalizing rows e with
  | nil => exact .pure ⟨[], .nil _ _⟩
  | cons part rest ih =>
      rw [List.forall_mem_cons] at hparts
      obtain ⟨⟨hpart, hbody⟩, hrest⟩ := hparts
      rw [List.foldlM_cons]
      refine .bind ((emitPart_yields hp hover hpart hrows e).and
        (emitPart_passes hp hover hpassesOver hpart rows e)) ?_
      rintro mid e₁ ⟨⟨-, hmid, -⟩, hstep, loops, -, hpasses⟩
      refine ((emitParts_yields hp hover (fun other hother => (hrest other hother).1) hmid e₁).and
        (ih hrest hmid e₁)).mono ?_
      rintro _ e' ⟨⟨_, -, hgrows⟩, members, hmembers⟩
      have hsub := hgrows.steps_subset
      exact ⟨_, .cons (hsub hstep) (Plan.subset_waitsOf hbody rows) (hpasses.mono hsub) hmembers⟩

end Emitter
end PlanFlow
