import PlanFlow.Proofs.Rule.Deliveries
import PlanFlow.Proofs.Rule.StepIds

/-!
# Groups

What runs once per group is listed in the body of the loop over the groups before any of it is
emitted: the rendering if the plan asks for one, and the deliveries that take a message or have
their recipient in the rows.  Just these are emitted on the rows of a group, or on what is rendered
of them, and so after the loop has started.  The other deliveries come after the loop, and get the
rows as they were before they were grouped.
-/

namespace PlanFlow
namespace Rule

open Emitter
open Relation (TransGen)

variable {p : Plan} {settings : Settings} {rows : Handle} {steps : List Step} {key : String}
variable {d : Delivery}

/-! ## What is predicted -/

/-- A delivery after the loop over the groups is not in its body. -/
theorem not_mem_groupBody (hp : p.Sound) {key : String} {d : Delivery}
    (hd : (key, d) ∈ p.keyedDeliveries) (honce : perGroup d = false) :
    Plan.deliveryStepId key ∉ groupBody p := by
  intro hmem
  rcases List.mem_append.mp hmem with hmem | hmem
  · split at hmem
    · exact Ids.ne_append (by decide) (by decide) key (List.mem_singleton.mp hmem).symm
    · cases hmem
  · obtain ⟨⟨other, d'⟩, hd', hid⟩ := List.mem_map.mp hmem
    obtain ⟨hmem', hper⟩ := List.mem_filter.mp hd'
    obtain ⟨-, rfl⟩ := Prod.mk.inj (eq_of_deliveryStepId_eq hp hd hmem' hid)
    exact absurd hper (by simp [honce])

end Rule
end PlanFlow
