import PlanFlow.Proofs.Text.Placeholder
import PlanFlow.Workflow.Profile

/-!
# The input that steps name

The texts of a step are searched one after the other: what an action is called with, the instruction
and the input of an AI task, the input and the configuration of a transformation, what a condition
compares, and what a loop runs over.  Arrays and objects are searched to their leaves, but not the
keys of objects; names, ids, labels and schemas are not searched at all.  The profile of a workflow
lists the names of input that are found, each once and in the order of the places where they are
found first.
-/

namespace PlanFlow

/-! ## The texts of a step -/

namespace Value

/-- A text stands in a value: it is the value, or stands in an item or under a key. -/
inductive Holds : Value → String → Prop where
  | text (s : String) : Holds (.string s) s
  | item {items : List Value} {v : Value} {s : String} (hmem : v ∈ items) (h : v.Holds s) :
      Holds (.array items) s
  | entry {entries : List (String × Value)} {key : String} {v : Value} {s : String}
      (hmem : (key, v) ∈ entries) (h : v.Holds s) : Holds (.object entries) s

theorem itemTexts_eq_flatMap (items : List Value) : itemTexts items = items.flatMap texts := by
  induction items with
  | nil => rfl
  | cons v rest ih => rw [itemTexts, ih, List.flatMap_cons]

theorem entryTexts_eq_flatMap (entries : List (String × Value)) :
    entryTexts entries = entries.flatMap fun entry => entry.2.texts := by
  induction entries with
  | nil => rfl
  | cons entry rest ih => rw [entryTexts, ih, List.flatMap_cons]

/-- The texts of an entry are texts of the map. -/
theorem texts_subset_entryTexts {key : String} {value : Value} {entries : List (String × Value)}
    (h : (key, value) ∈ entries) : value.texts ⊆ entryTexts entries := by
  rw [entryTexts_eq_flatMap]
  exact fun text htext => List.mem_flatMap_of_mem h htext

theorem Holds.mem_texts {v : Value} {s : String} (h : v.Holds s) : s ∈ v.texts := by
  induction h with
  | text s => exact List.mem_singleton_self s
  | item hmem _ ih =>
      rw [texts, itemTexts_eq_flatMap]
      exact List.mem_flatMap_of_mem hmem ih
  | entry hmem _ ih => exact texts_subset_entryTexts hmem ih

theorem holds_of_mem_texts {s : String} : ∀ {v : Value}, s ∈ v.texts → v.Holds s
  | .string _, h => by
      obtain rfl := List.mem_singleton.mp h
      exact .text s
  | .array items, h => by
      rw [texts, itemTexts_eq_flatMap] at h
      obtain ⟨v, hmem, h⟩ := List.mem_flatMap.mp h
      have hsize := List.sizeOf_lt_of_mem hmem
      exact .item hmem (holds_of_mem_texts h)
  | .object entries, h => by
      rw [texts, entryTexts_eq_flatMap] at h
      obtain ⟨⟨key, v⟩, hmem, h⟩ := List.mem_flatMap.mp h
      have hsize : sizeOf v < sizeOf entries :=
        Nat.lt_trans (by simp only [Prod.mk.sizeOf_spec]; omega) (List.sizeOf_lt_of_mem hmem)
      exact .entry hmem (holds_of_mem_texts h)

/-- The texts in a value are those that stand in it at any depth. -/
theorem mem_texts_iff {v : Value} {s : String} : s ∈ v.texts ↔ v.Holds s :=
  ⟨holds_of_mem_texts, Holds.mem_texts⟩

theorem mem_entryTexts_iff {entries : List (String × Value)} {s : String} :
    s ∈ entryTexts entries ↔ ∃ key v, (key, v) ∈ entries ∧ v.Holds s := by
  simp only [entryTexts_eq_flatMap, List.mem_flatMap, Prod.exists, mem_texts_iff]

end Value

namespace Work

/-- Work carries a text in what it is about: at any depth in what an action is called with, the
configuration of a transformation and what a condition compares with, and as it is where it names
its data or instructs an AI model. -/
def Carries (text : String) : Work → Prop
  | .action _ _ params => ∃ key v, (key, v) ∈ params ∧ v.Holds text
  | .ai instruction input _ _ => text = instruction ∨ text = input
  | .transform _ input config => text = input ∨ ∃ key v, (key, v) ∈ config ∧ v.Holds text
  | .conditional condition _ _ =>
    text = condition.field ∨ ∃ v, condition.value = some v ∧ v.Holds text
  | .loop iterateOver _ _ _ _ => text = iterateOver

theorem mem_texts_iff {work : Work} {text : String} : text ∈ work.texts ↔ work.Carries text := by
  cases work with
  | action plugin operation params => exact Value.mem_entryTexts_iff
  | ai instruction input schema labels => simp [texts, Carries]
  | transform operation input config => simp [texts, Carries, Value.mem_entryTexts_iff]
  | conditional condition thenSteps elseSteps =>
      rw [texts, Carries, List.mem_cons]
      cases condition.value with
      | none => simp
      | some v => simp [Value.mem_texts_iff]
  | loop iterateOver itemName body iterations concurrency => simp [texts, Carries]

end Work

/-! ## The search -/

namespace Profile

/-- Places in the texts of steps: the number of a step, of a text of it and of a character of the
text, each counted from zero and the step counting most. -/
abbrev Place := ℕ ×ₗ ℕ ×ₗ ℕ

/-- At a place in the texts of steps begins a placeholder of a name. -/
def NamedAt (steps : List Step) (place : Place) (name : String) : Prop :=
  ∃ i j k s text, toLex (i, toLex (j, k)) = place ∧ steps[i]? = some s ∧
    s.texts[j]? = some text ∧ Text.PlaceholderAt text name k

/-- At a place in the texts of steps begins the first placeholder of a name. -/
def FirstNamedAt (steps : List Step) (place : Place) (name : String) : Prop :=
  IsLeast {place | NamedAt steps place name} place

theorem exists_namedAt_iff {steps : List Step} {name : String} :
    (∃ place, NamedAt steps place name) ↔
      ∃ s ∈ steps, ∃ text ∈ s.texts, Text.HasPlaceholder text name := by
  constructor
  · rintro ⟨_, i, j, k, s, text, rfl, hs, htext, hname⟩
    exact ⟨s, List.mem_of_getElem? hs, text, List.mem_of_getElem? htext,
      Text.hasPlaceholder_iff.mpr ⟨k, hname⟩⟩
  · rintro ⟨s, hs, text, htext, hholds⟩
    obtain ⟨i, hs⟩ := List.mem_iff_getElem?.mp hs
    obtain ⟨j, htext⟩ := List.mem_iff_getElem?.mp htext
    obtain ⟨k, hname⟩ := Text.hasPlaceholder_iff.mp hholds
    exact ⟨_, i, j, k, s, text, rfl, hs, htext, hname⟩

/-- The texts of steps are searched in the order of their places. -/
theorem names_lists (steps : List Step) :
    Lists (fun place name => Text.IsName name.toList ∧ NamedAt steps place name)
      (steps.flatMap fun s => s.texts.flatMap Text.inputNames) := by
  have htexts (s : Step) := Lists.flatMap Text.inputNames_lists s.texts
  refine (Lists.flatMap htexts steps).congr fun place name => ?_
  constructor
  · rintro ⟨i, s, _, hplace, hs, j, text, k, rfl, htext, hname, hholds⟩
    exact ⟨hname, i, j, k, s, text, hplace, hs, htext, hholds⟩
  · rintro ⟨hname, i, j, k, s, text, hplace, hs, htext, hholds⟩
    exact ⟨i, s, _, hplace, hs, j, text, k, rfl, htext, hname, hholds⟩

theorem mem_inputsOf_iff {steps : List Step} {name : String} :
    name ∈ inputsOf steps ↔ Text.IsName name.toList ∧
      ∃ s ∈ steps, ∃ text ∈ s.texts, Text.HasPlaceholder text name := by
  rw [inputsOf, List.mem_eraseDups, (names_lists steps).mem_iff, exists_and_left,
    exists_namedAt_iff]

/-- Names are listed in the order of their first placeholders. -/
theorem pairwise_inputsOf (steps : List Step) :
    (inputsOf steps).Pairwise fun earlier later => ∃ i j,
      FirstNamedAt steps i earlier ∧ FirstNamedAt steps j later ∧ i < j := by
  refine (names_lists steps).pairwise_first.imp_of_mem ?_
  rintro earlier later hearlier hlater ⟨i, j, hi, hj, hlt⟩
  have hnames {name : String} (hname : name ∈ inputsOf steps) :
      {place | Text.IsName name.toList ∧ NamedAt steps place name} =
        {place | NamedAt steps place name} :=
    Set.ext fun place => and_iff_right (mem_inputsOf_iff.mp hname).1
  rw [hnames hearlier] at hi
  rw [hnames hlater] at hj
  exact ⟨i, j, hi, hj, hlt⟩

/-- The input that a profile lists is what placeholders in the texts of the steps name: a name is
listed exactly if it is made of ASCII letters, digits and underscores and a placeholder of it stands
anywhere in a text.  No name is listed twice, and a name stands before another one exactly if its
first placeholder does. -/
theorem inputs_listed (p : Plan) (steps : List Step) (workflowType : String) :
    (∀ name, name ∈ (ofPlan p steps workflowType).inputs ↔ Text.IsName name.toList ∧
      ∃ s ∈ steps, ∃ text, s.work.Carries text ∧ Text.HasPlaceholder text name) ∧
    (ofPlan p steps workflowType).inputs.Nodup ∧
    (ofPlan p steps workflowType).inputs.Pairwise fun earlier later => ∃ i j,
      FirstNamedAt steps i earlier ∧ FirstNamedAt steps j later ∧ i < j := by
  refine ⟨fun name => ?_, Ids.nodup_eraseDups _, pairwise_inputsOf steps⟩
  show name ∈ inputsOf steps ↔ _
  simp only [mem_inputsOf_iff, Step.texts, Work.mem_texts_iff]

end Profile
end PlanFlow
