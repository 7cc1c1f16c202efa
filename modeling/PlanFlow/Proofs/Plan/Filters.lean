import PlanFlow.Plan.Filters
import PlanFlow.Proofs.Listing

/-!
# Filters in conflict

Two filters at different positions are in conflict if they are on one field and one of them
contradicts the other.  A field with such filters is warned about once, with the ids of all of them,
and the fields stand in the order of their first filters.  Which fields and ids these are does not
depend on the order of the filters.
-/

namespace PlanFlow

section Apart

variable {α : Type} {l others : List α} {a b c : α}

/-- Two members of a list stand at different positions. -/
def Apart (l : List α) (a b : α) : Prop := ∃ i j : ℕ, i ≠ j ∧ l[i]? = some a ∧ l[j]? = some b

theorem not_apart_nil : ¬Apart ([] : List α) a b := by
  rintro ⟨i, j, -, ha, -⟩
  cases ha

/-- One of two members may be the first of the list. -/
theorem apart_cons :
    Apart (c :: l) a b ↔ (a = c ∧ b ∈ l) ∨ (b = c ∧ a ∈ l) ∨ Apart l a b := by
  constructor
  · rintro ⟨i, j, hne, ha, hb⟩
    cases i with
    | zero =>
        cases j with
        | zero => exact absurd rfl hne
        | succ j => exact .inl ⟨(Option.some.inj ha).symm, List.mem_of_getElem? hb⟩
    | succ i =>
        cases j with
        | zero => exact .inr (.inl ⟨(Option.some.inj hb).symm, List.mem_of_getElem? ha⟩)
        | succ j => exact .inr (.inr ⟨i, j, fun heq => hne (congrArg Nat.succ heq), ha, hb⟩)
  · rintro (⟨rfl, hb⟩ | ⟨rfl, ha⟩ | ⟨i, j, hne, ha, hb⟩)
    · obtain ⟨j, hj⟩ := List.getElem?_of_mem hb
      exact ⟨0, j + 1, Nat.zero_ne_add_one j, rfl, hj⟩
    · obtain ⟨i, hi⟩ := List.getElem?_of_mem ha
      exact ⟨i + 1, 0, Nat.add_one_ne_zero i, hi, rfl⟩
    · exact ⟨i + 1, j + 1, fun heq => hne (Nat.succ.inj heq), ha, hb⟩

theorem Apart.left_mem (h : Apart l a b) : a ∈ l := by
  obtain ⟨i, j, -, ha, -⟩ := h
  exact List.mem_of_getElem? ha

/-- Members that are kept stay apart. -/
theorem apart_filter {keep : α → Bool} :
    Apart (l.filter keep) a b ↔ Apart l a b ∧ keep a = true ∧ keep b = true := by
  induction l with
  | nil => simp [not_apart_nil]
  | cons c l ih =>
      rw [List.filter_cons]
      split
      · rename_i hkeep
        simp only [apart_cons, ih, List.mem_filter]
        constructor
        · rintro (⟨rfl, hb, hkb⟩ | ⟨rfl, ha, hka⟩ | ⟨h, hka, hkb⟩)
          · exact ⟨.inl ⟨rfl, hb⟩, hkeep, hkb⟩
          · exact ⟨.inr (.inl ⟨rfl, ha⟩), hka, hkeep⟩
          · exact ⟨.inr (.inr h), hka, hkb⟩
        · rintro ⟨⟨rfl, hb⟩ | ⟨rfl, ha⟩ | h, hka, hkb⟩
          · exact .inl ⟨rfl, hb, hkb⟩
          · exact .inr (.inl ⟨rfl, ha, hka⟩)
          · exact .inr (.inr ⟨h, hka, hkb⟩)
      · rename_i hdrop
        simp only [apart_cons, ih]
        constructor
        · rintro ⟨h, hka, hkb⟩
          exact ⟨.inr (.inr h), hka, hkb⟩
        · rintro ⟨⟨rfl, hb⟩ | ⟨rfl, ha⟩ | h, hka, hkb⟩
          · exact absurd hka hdrop
          · exact absurd hkb hdrop
          · exact ⟨h, hka, hkb⟩

/-- The order of the list does not matter. -/
theorem apart_perm (h : l.Perm others) : Apart l a b ↔ Apart others a b := by
  induction h with
  | nil => exact Iff.rfl
  | cons c h ih => rw [apart_cons, apart_cons, ih, h.mem_iff, h.mem_iff]
  | swap c d l =>
      simp only [apart_cons, List.mem_cons]
      tauto
  | trans _ _ ih ih' => exact ih.trans ih'

end Apart

namespace Filter

/-- No row satisfies both of two filters on one field, where the first is looked at first. -/
inductive Contradicts (a b : Filter) : Prop
  /-- Two values are required, and they differ. -/
  | values {v w : Value} (ha : a.comparison = .equals) (hb : b.comparison = .equals)
      (hv : a.value = some v) (hw : b.value = some w) (hdiffer : v.same w = false)
  /-- A value is required and excluded. -/
  | excluded {v w : Value} (ha : a.comparison = .equals) (hb : b.comparison = .notEquals)
      (hv : a.value = some v) (hw : b.value = some w) (hsame : v.same w = true)
  /-- The field is required to be empty and not to be. -/
  | emptiness (ha : a.comparison = .isEmpty) (hb : b.comparison = .isNotEmpty)
  /-- No number is above the one bound and below the other. -/
  | range {lower upper : Binary64} (ha : a.comparison = .greaterThan)
      (hb : b.comparison = .lessThan) (hlower : a.bound = some lower)
      (hupper : b.bound = some upper) (hempty : upper.atMost lower = true)

theorem contradicts_iff {a b : Filter} : contradicts a b = true ↔ a.Contradicts b := by
  constructor
  · intro h
    unfold contradicts at h
    split at h
    · rename_i ha hb
      split at h
      · rename_i hv hw
        exact .values ha hb hv hw (by simpa using h)
      · cases h
    · rename_i ha hb
      split at h
      · rename_i hv hw
        exact .excluded ha hb hv hw h
      · cases h
    · rename_i ha hb
      exact .emptiness ha hb
    · rename_i ha hb
      split at h
      · rename_i hlower hupper
        exact .range ha hb hlower hupper h
      · cases h
    · cases h
  · intro h
    cases h with
    | values ha hb hv hw hdiffer => simp [contradicts, ha, hb, hv, hw, hdiffer]
    | excluded ha hb hv hw hsame => simp [contradicts, ha, hb, hv, hw, hsame]
    | emptiness ha hb => simp [contradicts, ha, hb]
    | range ha hb hlower hupper hempty => simp [contradicts, ha, hb, hlower, hupper, hempty]

theorem conflicts_comm (a b : Filter) : conflicts a b = conflicts b a :=
  Bool.or_comm _ _

theorem conflicts_iff {a b : Filter} :
    conflicts a b = true ↔ a.Contradicts b ∨ b.Contradicts a := by
  rw [conflicts, Bool.or_eq_true, contradicts_iff, contradicts_iff]

/-- A filter on a field is in conflict with another one on it. -/
def InConflict (filters : List Filter) (field : String) (f : Filter) : Prop :=
  f.field = field ∧
    ∃ g, Apart filters f g ∧ g.field = field ∧ (f.Contradicts g ∨ g.Contradicts f)

variable {filters others : List Filter} {field id : String} {f : Filter}

theorem inConflict_perm (h : filters.Perm others) :
    InConflict filters field f ↔ InConflict others field f := by
  unfold InConflict
  simp only [apart_perm h]

/-- The pairs are all pairs of filters that stand apart. -/
theorem mem_conflictPairs :
    id ∈ conflictPairs filters ↔ ∃ f g, Apart filters f g ∧ conflicts f g = true ∧ f.id = id := by
  induction filters with
  | nil => simp [conflictPairs, not_apart_nil]
  | cons first rest ih =>
      rw [conflictPairs, List.mem_append, ih]
      constructor
      · rintro (hfirst | ⟨f, g, hapart, hconflict, rfl⟩)
        · obtain ⟨g, hg, hid⟩ := List.mem_flatMap.mp hfirst
          obtain ⟨hrest, hconflict⟩ := List.mem_filter.mp hg
          rcases List.mem_pair.mp hid with rfl | rfl
          · exact ⟨first, g, apart_cons.mpr (.inl ⟨rfl, hrest⟩), hconflict, rfl⟩
          · rw [conflicts_comm] at hconflict
            exact ⟨g, first, apart_cons.mpr (.inr (.inl ⟨rfl, hrest⟩)), hconflict, rfl⟩
        · exact ⟨f, g, apart_cons.mpr (.inr (.inr hapart)), hconflict, rfl⟩
      · rintro ⟨f, g, hapart, hconflict, rfl⟩
        have hpair {g : Filter} (hg : g ∈ rest) (hconflict : conflicts first g = true) {id : String}
            (hid : id ∈ [first.id, g.id]) :
            id ∈ (rest.filter (conflicts first)).flatMap fun g => [first.id, g.id] :=
          List.mem_flatMap.mpr ⟨g, List.mem_filter.mpr ⟨hg, hconflict⟩, hid⟩
        rcases apart_cons.mp hapart with ⟨rfl, hg⟩ | ⟨rfl, hf⟩ | hrest
        · exact .inl (hpair hg hconflict (by simp))
        · rw [conflicts_comm] at hconflict
          exact .inl (hpair hf hconflict (by simp))
        · exact .inr ⟨f, g, hrest, hconflict, rfl⟩

/-- The ids are those of the filters that are in conflict on the field. -/
theorem mem_conflictsOn :
    id ∈ conflictsOn filters field ↔ ∃ f, InConflict filters field f ∧ f.id = id := by
  rw [conflictsOn, List.mem_eraseDups, mem_conflictPairs]
  simp only [apart_filter, conflicts_iff, beq_iff_eq, InConflict]
  constructor
  · rintro ⟨f, g, ⟨hapart, hf, hg⟩, hconflict, hid⟩
    exact ⟨f, ⟨hf, g, hapart, hg, hconflict⟩, hid⟩
  · rintro ⟨f, ⟨hf, g, hapart, hg, hconflict⟩, hid⟩
    exact ⟨f, g, ⟨hapart, hf, hg⟩, hconflict, hid⟩

theorem conflictsOn_ne_nil_iff :
    conflictsOn filters field ≠ [] ↔ ∃ f, InConflict filters field f := by
  constructor
  · intro hne
    obtain ⟨id, hid⟩ := List.exists_mem_of_ne_nil _ hne
    obtain ⟨f, hf, -⟩ := mem_conflictsOn.mp hid
    exact ⟨f, hf⟩
  · rintro ⟨f, hf⟩
    exact List.ne_nil_of_mem (mem_conflictsOn.mpr ⟨f, hf, rfl⟩)

/-! ## Warnings -/

/-- The fields on which filters are in conflict. -/
def conflictFields (filters : List Filter) : List String :=
  (filters.map Filter.field).eraseDups.filter fun field => !(conflictsOn filters field).isEmpty

theorem warnings_eq (filters : List Filter) : warnings filters =
    (conflictFields filters).map fun field =>
      .filtersContradict field (conflictsOn filters field) := by
  rw [conflictFields, ← List.filterMap_eq_map, List.filterMap_filter]
  refine List.filterMap_congr fun field _ => ?_
  cases hnone : (conflictsOn filters field).isEmpty
  · simp [hnone]
  · simp [hnone]

/-- What is warned about: each field with filters in conflict once, in the order of the first
filters, and for a field the ids of all filters that are in conflict on it, each once. -/
structure Flagged (filters : List Filter) (fields : List String) (ids : String → List String) :
    Prop where
  warnings_eq : warnings filters = fields.map fun field => .filtersContradict field (ids field)
  fields_nodup : fields.Nodup
  fields_listed : Lists (fun i field => (∃ f, FirstAt Filter.field filters i f ∧ f.field = field) ∧
    ∃ f, InConflict filters field f) fields
  ids_nodup : ∀ field, (ids field).Nodup
  mem_ids : ∀ field id, id ∈ ids field ↔ ∃ f, InConflict filters field f ∧ f.id = id

theorem flagged_conflictFields (filters : List Filter) :
    Flagged filters (conflictFields filters) (conflictsOn filters) where
  warnings_eq := warnings_eq filters
  fields_nodup := (Ids.nodup_eraseDups _).filter _
  fields_listed := by
    refine ((Lists.firsts Filter.field filters).filter _).congr fun i field => ?_
    rw [Bool.not_eq_true', List.isEmpty_eq_false_iff, conflictsOn_ne_nil_iff]
  ids_nodup field := Ids.nodup_eraseDups _
  mem_ids field id := mem_conflictsOn

namespace Flagged

variable {fields fields' : List String} {ids ids' : String → List String}

theorem mem_fields (h : Flagged filters fields ids) :
    field ∈ fields ↔ ∃ f, InConflict filters field f := by
  rw [h.fields_listed.mem_iff]
  constructor
  · rintro ⟨i, -, hconflict⟩
    exact hconflict
  · intro hconflict
    have hfield : field ∈ (filters.map Filter.field).eraseDups := by
      obtain ⟨f, rfl, g, hapart, -⟩ := hconflict
      exact List.mem_eraseDups.mpr (List.mem_map_of_mem hapart.left_mem)
    obtain ⟨i, hfirst⟩ := (Lists.firsts Filter.field filters).mem_iff.mp hfield
    exact ⟨i, hfirst, hconflict⟩

/-- In another order the filters flag the same fields with the same ids. -/
theorem perm (h : Flagged filters fields ids) (h' : Flagged others fields' ids')
    (hperm : filters.Perm others) :
    fields.Perm fields' ∧ ∀ field, (ids field).Perm (ids' field) := by
  constructor
  · rw [List.perm_ext_iff_of_nodup h.fields_nodup h'.fields_nodup]
    intro field
    simp only [h.mem_fields, h'.mem_fields, inConflict_perm hperm]
  · intro field
    rw [List.perm_ext_iff_of_nodup (h.ids_nodup field) (h'.ids_nodup field)]
    intro id
    simp only [h.mem_ids, h'.mem_ids, inConflict_perm hperm]

end Flagged

/-- Filters in conflict are warned about field by field, and another order of the filters does not
change which fields are flagged and with which ids. -/
theorem warnings_flag_conflicts (filters : List Filter) :
    ∃ fields ids, Flagged filters fields ids ∧
      ∀ others, filters.Perm others → ∃ fields' ids', Flagged others fields' ids' ∧
        fields.Perm fields' ∧ ∀ field, (ids field).Perm (ids' field) := by
  have hflagged := flagged_conflictFields filters
  refine ⟨_, _, hflagged, fun others hperm => ?_⟩
  have hothers := flagged_conflictFields others
  exact ⟨_, _, hothers, hflagged.perm hothers hperm⟩

/-- Two filters of which one keeps the rows without a status, and the other those with one. -/
def statusFilters : List Filter :=
  [⟨"blank", "status", .isEmpty, none, []⟩, ⟨"filled", "status", .isNotEmpty, none, []⟩]

/-- The two filters are flagged in either order. -/
theorem warnings_flag_conflicts_status :
    ∃ fields ids, Flagged statusFilters fields ids ∧ ∃ fields' ids',
      Flagged statusFilters.reverse fields' ids' ∧ fields.Perm fields' ∧
        (∀ field, (ids field).Perm (ids' field)) ∧
        "status" ∈ fields ∧ "blank" ∈ ids "status" ∧ "filled" ∈ ids "status" := by
  obtain ⟨fields, ids, h, hperm⟩ := warnings_flag_conflicts statusFilters
  obtain ⟨fields', ids', h', hfields, hids⟩ := hperm _ (List.reverse_perm _).symm
  have hblank : InConflict statusFilters "status" ⟨"blank", "status", .isEmpty, none, []⟩ :=
    ⟨rfl, _, ⟨0, 1, Nat.zero_ne_one, rfl, rfl⟩, rfl, .inl (.emptiness rfl rfl)⟩
  have hfilled : InConflict statusFilters "status" ⟨"filled", "status", .isNotEmpty, none, []⟩ :=
    ⟨rfl, _, ⟨1, 0, Nat.one_ne_zero, rfl, rfl⟩, rfl, .inr (.emptiness rfl rfl)⟩
  exact ⟨fields, ids, h, fields', ids', h', hfields, hids, h.mem_fields.mpr ⟨_, hblank⟩,
    (h.mem_ids _ _).mpr ⟨_, hblank, rfl⟩, (h.mem_ids _ _).mpr ⟨_, hfilled, rfl⟩⟩

end Filter
end PlanFlow
