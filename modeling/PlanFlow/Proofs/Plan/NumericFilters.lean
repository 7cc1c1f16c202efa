import PlanFlow.Proofs.Number.Rounding
import PlanFlow.Proofs.Plan.Filters

/-!
# Filters of numbers

Two filters of one field whose values are numbers.  An empty range is found by rounding its bounds,
and a value is another one if it is another number or is written in the other form.  So a range is
also taken for empty if its bounds are rounded to one number, and `1` and `1.0` are two values.
Where no bound is rounded, and no integer meets a fraction, the warnings are those of exact
arithmetic.
-/

namespace PlanFlow
namespace Filter

theorem warnings_ne_nil_iff {filters : List Filter} :
    warnings filters ≠ [] ↔ ∃ field f, InConflict filters field f := by
  have hflagged := flagged_conflictFields filters
  rw [hflagged.warnings_eq, Ne, List.map_eq_nil_iff]
  constructor
  · intro hne
    obtain ⟨field, hfield⟩ := List.exists_mem_of_ne_nil _ hne
    exact ⟨field, hflagged.mem_fields.mp hfield⟩
  · rintro ⟨field, hconflict⟩
    exact List.ne_nil_of_mem (hflagged.mem_fields.mpr hconflict)

/-- Two filters of one field are warned about if they are in conflict, in whatever order. -/
theorem warnings_pair_ne_nil_iff {f g : Filter} {pair : List Filter} (hfield : f.field = g.field)
    (hpair : pair.Perm [f, g]) : warnings pair ≠ [] ↔ conflicts f g = true := by
  rw [warnings_ne_nil_iff, conflicts_iff]
  simp only [inConflict_perm hpair]
  constructor
  · rintro ⟨field, a, ha, b, hapart, hb, hcontradict⟩
    rw [apart_cons, apart_cons] at hapart
    rcases hapart with ⟨rfl, hmem⟩ | ⟨rfl, hmem⟩ | ⟨rfl, hmem⟩ | ⟨rfl, hmem⟩ | hapart
    · rwa [List.mem_singleton.mp hmem] at hcontradict
    · rw [List.mem_singleton.mp hmem] at hcontradict
      exact hcontradict.symm
    · cases hmem
    · cases hmem
    · exact absurd hapart not_apart_nil
  · intro hcontradict
    exact ⟨g.field, f, hfield, g, ⟨0, 1, Nat.zero_ne_one, rfl, rfl⟩, rfl, hcontradict⟩

section Numbers

variable {f g : Filter} {m n : Number}

theorem conflicts_range (hf : f.comparison = .greaterThan) (hg : g.comparison = .lessThan)
    (hm : f.value = some (.number m)) (hn : g.value = some (.number n)) :
    conflicts f g = true ↔ n.toBinary64.exact ≤ m.toBinary64.exact := by
  simp [conflicts, contradicts, bound, hf, hg, hm, hn, Binary64.atMost_iff]

theorem conflicts_values (hf : f.comparison = .equals) (hg : g.comparison = .equals)
    (hm : f.value = some (.number m)) (hn : g.value = some (.number n)) :
    conflicts f g = true ↔ ¬(m.exact = n.exact ∧ m.isInt = n.isInt) := by
  have hcomm : n.same m = true ↔ m.same n = true := by
    rw [Number.same_iff, Number.same_iff, eq_comm, @eq_comm Bool]
  rw [conflicts, Bool.or_eq_true, ← Number.same_iff]
  simp only [contradicts, hf, hg, hm, hn, Value.same, Value.alike, Bool.not_eq_true',
    ← Bool.not_eq_true, hcomm, or_self]

theorem conflicts_excluded (hf : f.comparison = .equals) (hg : g.comparison = .notEquals)
    (hm : f.value = some (.number m)) (hn : g.value = some (.number n)) :
    conflicts f g = true ↔ m.exact = n.exact ∧ m.isInt = n.isInt := by
  simp [conflicts, contradicts, hf, hg, hm, hn, Value.same, Value.alike, Number.same_iff]

/-- The warning about two filters of one field, one for each number, is given exactly if the verdict
holds, whatever else there is to the filters and however they are ordered. -/
def WarnedExactly (c d : Comparison) (m n : Number) (verdict : Prop) : Prop :=
  ∀ f g : Filter, f.field = g.field → f.comparison = c → g.comparison = d →
    f.value = some (.number m) → g.value = some (.number n) →
      ∀ pair, pair.Perm [f, g] → (warnings pair ≠ [] ↔ verdict)

/-- What the filters are called and what they depend on does not matter. -/
theorem warnedExactly_iff {c d : Comparison} {conflict verdict : Prop}
    (hconflict : ∀ f g : Filter, f.comparison = c → g.comparison = d →
      f.value = some (.number m) → g.value = some (.number n) →
        (conflicts f g = true ↔ conflict)) :
    WarnedExactly c d m n verdict ↔ (conflict ↔ verdict) := by
  constructor
  · intro h
    let f : Filter := ⟨"first", "field", c, some (.number m), []⟩
    let g : Filter := ⟨"second", "field", d, some (.number n), []⟩
    have hwarned := warnings_pair_ne_nil_iff (f := f) (g := g) rfl (.refl [f, g])
    rw [← hconflict f g rfl rfl rfl rfl, ← hwarned]
    exact h f g rfl rfl rfl rfl rfl _ (.refl _)
  · intro h f g hfield hf hg hm hn pair hpair
    rwa [warnings_pair_ne_nil_iff hfield hpair, hconflict f g hf hg hm hn]

/-- Fractions, and integers of at most 53 bits, are compared as they are. -/
theorem range_warnedExactly (hm : ∀ k, m = .int k → k.natAbs ≤ 2 ^ 53)
    (hn : ∀ k, n = .int k → k.natAbs ≤ 2 ^ 53) :
    WarnedExactly .greaterThan .lessThan m n (n.exact ≤ m.exact) := by
  rw [warnedExactly_iff fun f g => conflicts_range, Number.exact_toBinary64 hm,
    Number.exact_toBinary64 hn]

end Numbers

/-- A range of numbers is flagged if it is empty or its bounds are rounded to one number, required
values if they differ or are of two forms, and an excluded value if it is the same in the same form.
So the warnings are those of exact arithmetic exactly where rounding keeps the bounds of a range
apart, and where equal values are of one form. -/
theorem number_warnings_exact_iff {m n : Number} (hm : m.Fits) (hn : n.Fits) :
    WarnedExactly .greaterThan .lessThan m n
      (n.exact ≤ m.exact ∨ n.toBinary64.exact = m.toBinary64.exact) ∧
    WarnedExactly .equals .equals m n (m.exact ≠ n.exact ∨ m.isInt ≠ n.isInt) ∧
    WarnedExactly .equals .notEquals m n (m.exact = n.exact ∧ m.isInt = n.isInt) ∧
    (WarnedExactly .greaterThan .lessThan m n (n.exact ≤ m.exact) ↔
      (m.exact < n.exact → n.toBinary64.exact ≠ m.toBinary64.exact)) ∧
    (WarnedExactly .equals .equals m n (m.exact ≠ n.exact) ↔
      (m.exact = n.exact → m.isInt = n.isInt)) ∧
    (WarnedExactly .equals .notEquals m n (m.exact = n.exact) ↔
      (m.exact = n.exact → m.isInt = n.isInt)) := by
  have hrange (verdict : Prop) : WarnedExactly .greaterThan .lessThan m n verdict ↔
      (n.exact ≤ m.exact ∨ n.toBinary64.exact = m.toBinary64.exact ↔ verdict) := by
    rw [← Number.exact_toBinary64_le_iff hn hm]
    exact warnedExactly_iff fun f g => conflicts_range
  have hvalues (verdict : Prop) : WarnedExactly .equals .equals m n verdict ↔
      (¬(m.exact = n.exact ∧ m.isInt = n.isInt) ↔ verdict) :=
    warnedExactly_iff fun f g => conflicts_values
  have hexcluded (verdict : Prop) : WarnedExactly .equals .notEquals m n verdict ↔
      (m.exact = n.exact ∧ m.isInt = n.isInt ↔ verdict) :=
    warnedExactly_iff fun f g => conflicts_excluded
  refine ⟨(hrange _).mpr .rfl, (hvalues _).mpr not_and_or, (hexcluded _).mpr .rfl, ?_, ?_, ?_⟩
  · rw [hrange, or_iff_left_iff_imp, ← not_le]
    exact not_imp_not.symm
  · rw [hvalues, not_iff_not, and_iff_left_iff_imp]
  · rw [hexcluded, and_iff_left_iff_imp]

/-- Two times that are less than a rounding step apart. -/
theorem number_warnings_exact_iff_stamps :
    (Number.int (2 ^ 60)).Fits ∧ (Number.int (2 ^ 60 + 64)).Fits ∧
      ¬WarnedExactly .greaterThan .lessThan (.int (2 ^ 60)) (.int (2 ^ 60 + 64))
        ((Number.int (2 ^ 60 + 64)).exact ≤ (Number.int (2 ^ 60)).exact) ∧
      WarnedExactly .equals .equals (.int (2 ^ 60)) (.int (2 ^ 60 + 64))
        ((Number.int (2 ^ 60)).exact ≠ (Number.int (2 ^ 60 + 64)).exact) := by
  have hlower : (Number.int (2 ^ 60)).Fits := ⟨by norm_num, by norm_num⟩
  have hupper : (Number.int (2 ^ 60 + 64)).Fits := ⟨by norm_num, by norm_num⟩
  obtain ⟨-, -, -, hrange, hvalues, -⟩ := number_warnings_exact_iff hlower hupper
  have hround : (Number.int (2 ^ 60 + 64)).toBinary64 = (Number.int (2 ^ 60)).toBinary64 := by
    decide +kernel
  have hlt : (Number.int (2 ^ 60)).exact < (Number.int (2 ^ 60 + 64)).exact := by
    norm_num [Number.exact]
  exact ⟨hlower, hupper, fun h => hrange.mp h hlt (congrArg Binary64.exact hround),
    hvalues.mpr fun _ => rfl⟩

/-- Records after one time and before another, with the count `1` twice, and with the rank `1` and
not with the rank `1`. -/
def recordFilters : List Filter :=
  [⟨"after", "stamp", .greaterThan, some (.number (.int (2 ^ 60))), []⟩,
    ⟨"before", "stamp", .lessThan, some (.number (.int (2 ^ 60 + 64))), []⟩,
    ⟨"one", "count", .equals, some (.number (.int 1)), []⟩,
    ⟨"single", "count", .equals, some (.number (.float ⟨false, 2 ^ 52, -52⟩)), []⟩,
    ⟨"first", "rank", .equals, some (.number (.int 1)), []⟩,
    ⟨"others", "rank", .notEquals, some (.number (.float ⟨false, 2 ^ 52, -52⟩)), []⟩]

/-- The times are flagged though a whole number is between them, the counts though they are one
number, and the ranks are not flagged though they are one number. -/
theorem warnings_recordFilters :
    warnings recordFilters = [.filtersContradict "stamp" ["after", "before"],
      .filtersContradict "count" ["one", "single"]] ∧
    (Number.int (2 ^ 60)).exact < (Number.int (2 ^ 60 + 1)).exact ∧
    (Number.int (2 ^ 60 + 1)).exact < (Number.int (2 ^ 60 + 64)).exact ∧
    (Number.float ⟨false, 2 ^ 52, -52⟩).exact = (Number.int 1).exact := by
  refine ⟨by decide +kernel, ?_, ?_, ?_⟩
  · norm_num [Number.exact]
  · norm_num [Number.exact]
  · norm_num [Number.exact, Binary64.exact, Binary64.sign]

end Filter
end PlanFlow
