import PlanFlow.Proofs.Checks
import PlanFlow.Proofs.Rule.Placeholders
import PlanFlow.Proofs.Workflow.Inputs

/-!
# Which input a workflow asks for

Rows of a source that is not read arrive as input, under the id of the source.  The profile of a
workflow lists the names of input that it finds in placeholders.  So it lists the id of a source
whose rows are taken as a whole if the id can be found, that is, if it is made of ASCII letters,
digits and underscores.  An AI task that takes a field of the rows names the input in another form,
which is not found.
-/

namespace PlanFlow

/-! ## The texts by which input is named -/

namespace Handle

theorem toList_reference_ofInput (name : String) :
    (ofInput name).reference.toList =
      ['\x7b', '\x7b'] ++ Text.inputWord ++ name.toList ++ ['\x7d', '\x7d'] := by
  simp [reference, ofInput, Text.inputWord]

theorem toList_field_ofInput (name field : String) :
    ((ofInput name).field field).toList =
      '\x7b' :: '\x7b' :: (Text.inputWord ++ name.toList ++ '.' :: field.toList ++
        ['\x7d', '\x7d']) := by
  simp [Handle.field, ofInput, Text.inputWord]

/-- A text that names input as a whole has a placeholder of it. -/
theorem hasPlaceholder_reference (name : String) :
    Text.HasPlaceholder (ofInput name).reference name := by
  refine ⟨[], _, [], ⟨[], [], nofun, nofun, rfl⟩, ?_⟩
  rw [toList_reference_ofInput]
  simp

/-- A text that names a field of input has no placeholder of it. -/
theorem not_hasPlaceholder_field {name field : String} (hname : Text.IsName name.toList)
    (hfield : '\x7b' ∉ field.toList) : ¬Text.HasPlaceholder ((ofInput name).field field) name := by
  intro h
  have hbraces : '\x7b' ∉ name.toList := fun hmem => absurd (hname.2 _ hmem) (by decide)
  obtain ⟨left, right, after, hleft, hright, hsplit⟩ :=
    Text.exists_of_hasPlaceholder (toList_field_ofInput name field)
      (by simp [Text.inputWord, hbraces, hfield]) h
  -- What is found would have to end with the point behind the name.
  obtain rfl : left = [] := by
    cases left with
    | nil => rfl
    | cons c left =>
        obtain ⟨rfl, -⟩ : 'i' = c ∧ _ := List.cons.inj hsplit
        exact absurd (hleft _ List.mem_cons_self) (by decide)
  have hrest : '.' :: (field.toList ++ ['\x7d', '\x7d']) = right ++ '\x7d' :: '\x7d' :: after := by
    simpa using hsplit
  cases right with
  | nil => exact absurd (List.cons.inj hrest).1 (by decide)
  | cons c right =>
      obtain ⟨rfl, -⟩ := List.cons.inj hrest
      exact absurd (hright _ List.mem_cons_self) (by decide)

end Handle

/-! ## The texts of steps -/

/-- The texts of an entry are among those of the map. -/
theorem entryTextsAt_subset (key : String) (config : Entries Value) :
    entryTextsAt key config ⊆ Value.entryTexts config := by
  rw [entryTextsAt]
  cases hfind : Entries.find? key config with
  | none => exact List.nil_subset _
  | some value => exact Value.texts_subset_entryTexts (Entries.mem_of_find? hfind)

/-- The texts by which work takes its data are searched for placeholders. -/
theorem Work.dataTexts_subset_texts (work : Work) : work.dataTexts ⊆ work.texts := by
  cases work with
  | action => exact List.nil_subset _
  | conditional => exact List.nil_subset _
  | loop => exact List.Subset.refl _
  | ai instruction input => exact List.subset_cons_self _ _
  | transform operation input config =>
      have hinput : [input] ⊆ (Work.transform operation input config).texts :=
        List.cons_subset_cons input (List.nil_subset _)
      have hentry (key : String) :
          input :: entryTextsAt key config ⊆ (Work.transform operation input config).texts :=
        List.cons_subset_cons input (entryTextsAt_subset key config)
      cases operation <;> first | exact hinput | exact hentry _

/-- A step takes its data by a text: its work does, or it hands over to a sink what the text
stands for. -/
def Step.TakesBy (p : Plan) (s : Step) (text : String) : Prop :=
  text ∈ s.work.dataTexts ∨
    ∃ key d params, (key, d) ∈ p.keyedDeliveries ∧ s.id = Plan.deliveryStepId key ∧
      s.work = .action d.plugin d.effectiveOperation params ∧
      Entries.find? (Rule.payloadName d) params = some (.string text)

theorem Step.TakesBy.mem_texts {p : Plan} {s : Step} {text : String} (h : s.TakesBy p text) :
    text ∈ s.texts := by
  rcases h with h | ⟨key, d, params, -, -, hwork, hfind⟩
  · exact Work.dataTexts_subset_texts s.work h
  · rw [Step.texts, hwork]
    exact Value.texts_subset_entryTexts (Entries.mem_of_find? hfind) (List.mem_singleton_self text)

namespace Compiler

variable {c : Compiler} {p : Plan} {w : Workflow}

/-- The input that a workflow asks for is what placeholders of its steps name. -/
theorem mem_inputs_iff (hw : c.compile p = .success w) {name : String} :
    name ∈ w.profile.inputs ↔ Text.IsName name.toList ∧
      ∃ s ∈ w.steps, ∃ text ∈ s.texts, Text.HasPlaceholder text name := by
  obtain ⟨_, hmakes⟩ := exists_makes_of_success hw
  rw [hmakes.profile]
  exact Profile.mem_inputsOf_iff

/-- The id of a source whose rows arrive as input is listed exactly if it is made of ASCII letters,
digits and underscores and a text of a step has a placeholder of it.  A text by which a step takes
the rows as a whole has one, and a text by which one takes a field of them has not. -/
theorem mem_inputs_of_takesBy (hw : c.compile p = .success w) {s : Source} (hs : s ∈ p.candidates)
    (hread : s.readOperation = none) :
    (s.id ∈ w.profile.inputs ↔ Text.IsName s.id.toList ∧
      ∃ step ∈ w.steps, ∃ text ∈ step.texts, Text.HasPlaceholder text s.id) ∧
    ∀ step ∈ w.steps, ∀ text, step.TakesBy p text →
      (text = s.handle.reference → (s.id ∈ w.profile.inputs ↔ Text.IsName s.id.toList)) ∧
      ∀ field : String, text = s.handle.field field → '\x7b' ∉ field.toList →
        Text.IsName s.id.toList → ¬Text.HasPlaceholder text s.id := by
  have hlookup : s.isLookup = false := by simpa using (List.mem_filter.mp hs).2
  have hhandle : s.handle = .ofInput s.id := by
    rw [Source.handle, hlookup, hread]
    rfl
  refine ⟨mem_inputs_iff hw, fun step hstep text htakes => ⟨?_, ?_⟩⟩
  · rintro rfl
    rw [mem_inputs_iff hw]
    constructor
    · exact And.left
    · intro hname
      refine ⟨hname, step, hstep, _, htakes.mem_texts, ?_⟩
      exact hhandle ▸ Handle.hasPlaceholder_reference s.id
  · rintro field rfl hfield hname
    exact hhandle ▸ Handle.not_hasPlaceholder_field hname hfield

/-! ## Forms -/

/-- A plan that answers the entries of a form by an AI task, on all of an entry or on a field. -/
def formPlan (id : String) (field : Option String) : Plan :=
  { (default : Plan) with
    version := "1.0"
    goal := "Answer the form"
    sources := [⟨id, .webhook, "forms", none, "contact form", .primary, none, none, []⟩]
    aiTasks := [⟨"reply", .generate, "Answer politely", field, none, [], []⟩]
    deliveries := [⟨some "mail", .email, "google-mail", none, some "desk@example.com", none, []⟩] }

theorem select_formPlan (id : String) (field : Option String) :
    RuleBook.standard.select (formPlan id field) = .ok Rule.enriched := by
  rw [RuleBook.select, RuleBook.ordered_standard]
  rfl

/-- The steps of a plan about a form. -/
def formSteps (id : String) (field : Option String) : List Step :=
  ((Rule.enriched.steps (formPlan id field) default).toOption).getD []

/-- A plan about a form becomes a workflow if its steps are in order. -/
theorem exists_formWorkflow (id : String) (field : Option String)
    (hvalid : (formPlan id field).errors default = [])
    (hsteps : Rule.enriched.steps (formPlan id field) default = .ok (formSteps id field))
    (hcalls : ∀ s ∈ formSteps id field, callErrors leadsCatalog s = [])
    (hnodup : ((formSteps id field).map Step.id).Nodup)
    (hlt : ∀ s ∈ formSteps id field, ∀ d ∈ s.dependencies,
      ((formSteps id field).map Step.id).idxOf d < ((formSteps id field).map Step.id).idxOf s.id) :
    ∃ w, (standard leadsCatalog).compile (formPlan id field) = .success w ∧
      w.steps = formSteps id field := by
  obtain ⟨w, hw, heq, -⟩ := exists_workflow (c := standard leadsCatalog) hvalid
    (select_formPlan id field) hsteps hcalls hnodup hlt
  exact ⟨w, hw, heq⟩

/-- The AI task takes all of an entry, and the workflow asks for it. -/
theorem mem_inputs_of_takesBy_lead :
    ∃ w, (standard leadsCatalog).compile (formPlan "lead" none) = .success w ∧
      (∃ s ∈ (formPlan "lead" none).candidates, s.readOperation = none ∧ s.id = "lead" ∧
        ∃ step ∈ w.steps, step.TakesBy (formPlan "lead" none) s.handle.reference) ∧
      "lead" ∈ w.profile.inputs := by
  obtain ⟨w, hw, hsteps⟩ := exists_formWorkflow "lead" none (by decide +kernel) rfl
    (by decide +kernel) (by decide +kernel) (by decide +kernel)
  obtain ⟨s, hs, hread, hid, hhandle⟩ : ∃ s ∈ (formPlan "lead" none).candidates,
      s.readOperation = none ∧ s.id = "lead" ∧ s.handle = .ofInput "lead" := by decide
  obtain ⟨step, hstep, htakes⟩ : ∃ step ∈ formSteps "lead" none,
      (Handle.ofInput "lead").reference ∈ step.work.dataTexts := by decide +kernel
  rw [← hhandle] at htakes
  rw [← hsteps] at hstep
  have hlisted := ((mem_inputs_of_takesBy hw hs hread).2 step hstep _ (.inl htakes)).1 rfl
  refine ⟨w, hw, ⟨s, hs, hread, hid, step, hstep, .inl htakes⟩, ?_⟩
  rw [← hid, hlisted, hid]
  decide

/-- The AI task takes a field of an entry of one form, and all of an entry of another one whose id
has a hyphen.  The workflows ask for neither. -/
theorem not_mem_inputs_lead_body :
    (∃ w, (standard leadsCatalog).compile (formPlan "lead" (some "body")) = .success w ∧
      (∃ s ∈ (formPlan "lead" (some "body")).candidates, s.readOperation = none ∧ s.id = "lead") ∧
      (∃ step ∈ w.steps, (Handle.ofInput "lead").field "body" ∈ step.work.dataTexts) ∧
      "lead" ∉ w.profile.inputs) ∧
    ∃ w, (standard leadsCatalog).compile (formPlan "new-lead" none) = .success w ∧
      (∃ s ∈ (formPlan "new-lead" none).candidates, s.readOperation = none ∧ s.id = "new-lead") ∧
      (∃ step ∈ w.steps, (Handle.ofInput "new-lead").reference ∈ step.work.dataTexts) ∧
      "new-lead" ∉ w.profile.inputs := by
  constructor
  · obtain ⟨w, hw, hsteps⟩ := exists_formWorkflow "lead" (some "body") (by decide +kernel) rfl
      (by decide +kernel) (by decide +kernel) (by decide +kernel)
    obtain ⟨_, hmakes⟩ := exists_makes_of_success hw
    refine ⟨w, hw, by decide, ?_, ?_⟩
    · rw [hsteps]
      decide +kernel
    · rw [hmakes.profile, hsteps]
      show "lead" ∉ Profile.inputsOf (formSteps "lead" (some "body"))
      decide +kernel
  · obtain ⟨w, hw, hsteps⟩ := exists_formWorkflow "new-lead" none (by decide +kernel) rfl
      (by decide +kernel) (by decide +kernel) (by decide +kernel)
    refine ⟨w, hw, by decide, ?_, fun h => ?_⟩
    · rw [hsteps]
      decide +kernel
    · exact absurd ((mem_inputs_iff hw).mp h).1 (by decide)

end Compiler
end PlanFlow
