import PlanFlow.Diagnosis.Basic
import PlanFlow.Plan.Basic

/-!
# Filters that contradict each other

Two filters on one field contradict each other if no row can satisfy both.  Only what can be seen
from the filters themselves is found: two different required values, a value required and excluded,
a field required to be empty and not, and an empty range of numbers.  Numbers are compared as
binary64 numbers.
-/

namespace PlanFlow
namespace Filter

/-- The value of a filter as a binary64 number, if it is a number. -/
def bound (f : Filter) : Option Binary64 :=
  match f.value with
  | some (.number n) => some n.toBinary64
  | _ => none

/-- Whether no row satisfies both filters, where the first is looked at in the first place. -/
def contradicts (a b : Filter) : Bool :=
  match a.comparison, b.comparison with
  | .equals, .equals =>
    match a.value, b.value with
    | some v, some w => !v.same w
    | _, _ => false
  | .equals, .notEquals =>
    match a.value, b.value with
    | some v, some w => v.same w
    | _, _ => false
  | .isEmpty, .isNotEmpty => true
  | .greaterThan, .lessThan =>
    match a.bound, b.bound with
    | some lower, some upper => upper.atMost lower
    | _, _ => false
  | _, _ => false

/-- Whether no row satisfies both filters. -/
def conflicts (a b : Filter) : Bool := contradicts a b || contradicts b a

/-- The ids of the filters of a list that are in conflict, pair by pair. -/
def conflictPairs : List Filter → List String
  | [] => []
  | f :: rest =>
    ((rest.filter (conflicts f)).flatMap fun g => [f.id, g.id]) ++ conflictPairs rest

/-- The ids of the filters on a field that are in conflict, each once. -/
def conflictsOn (filters : List Filter) (field : String) : List String :=
  (conflictPairs (filters.filter fun f => f.field == field)).eraseDups

/-- The warnings about filters in conflict, one for a field. -/
def warnings (filters : List Filter) : List Warning :=
  (filters.map Filter.field).eraseDups.filterMap fun field =>
    let ids := conflictsOn filters field
    if ids.isEmpty then none else some (.filtersContradict field ids)

end Filter
end PlanFlow
