import Mathlib.Data.List.Nodup
import Mathlib.Logic.Relation
import PlanFlow.Step.Basic

/-!
# What lies upstream

An id feeds another if a step with that other id lists it.  Upstream of some ids lies what is one of
them or feeds one of them, directly or through others.  Data is passed on by steps each of which
lists exactly what the one before it left behind: then nothing that was upstream is lost, and
nothing but these steps joins it.
-/

namespace PlanFlow

open Relation (ReflTransGen TransGen)

/-- A step with the second id lists the first. -/
def Feeds (steps : List Step) (a b : String) : Prop := ∃ s ∈ steps, s.id = b ∧ a ∈ s.dependencies

instance (steps : List Step) (a b : String) : Decidable (Feeds steps a b) :=
  inferInstanceAs (Decidable (∃ s ∈ steps, s.id = b ∧ a ∈ s.dependencies))

/-- An id is one of a list of ids, or feeds one of them directly or through others. -/
def Upstream (steps : List Step) (ids : List String) (x : String) : Prop :=
  ∃ id ∈ ids, ReflTransGen (Feeds steps) x id

/-- Steps with some ids pass on what a list of ids leaves behind: each lists exactly what the one
before it left, and the last leaves its own id. -/
inductive Passes (steps : List Step) (source : List String) : List String → List String → Prop
  | start : Passes steps source [] source
  | step {ids target : List String} {s : Step} (h : Passes steps source ids target) (hs : s ∈ steps)
      (hdeps : ∀ id, id ∈ s.dependencies ↔ id ∈ target) :
      Passes steps source (ids ++ [s.id]) [s.id]

variable {steps more : List Step} {ids ids' source target : List String} {x : String}

theorem Feeds.mono {a b : String} (h : Feeds steps a b) (hsub : steps ⊆ more) : Feeds more a b := by
  obtain ⟨s, hs, hid, ha⟩ := h
  exact ⟨s, hsub hs, hid, ha⟩

namespace Upstream

theorem of_mem (h : x ∈ ids) : Upstream steps ids x := ⟨x, h, .refl⟩

theorem mono (h : Upstream steps ids x) (hsub : steps ⊆ more) : Upstream more ids x := by
  obtain ⟨id, hid, hpath⟩ := h
  have hle : Feeds steps ≤ Feeds more := fun _ _ hfeeds => hfeeds.mono hsub
  exact ⟨id, hid, ReflTransGen.mono hle x id hpath⟩

theorem mono_ids (h : Upstream steps ids x) (hsub : ids ⊆ ids') : Upstream steps ids' x := by
  obtain ⟨id, hid, hpath⟩ := h
  exact ⟨id, hsub hid, hpath⟩

/-- What lies upstream of ids lies upstream of all that these lie upstream of. -/
theorem trans (h : Upstream steps ids x) (hids : ∀ y ∈ ids, Upstream steps ids' y) :
    Upstream steps ids' x := by
  obtain ⟨y, hy, hpath⟩ := h
  obtain ⟨id, hid, hmore⟩ := hids y hy
  exact ⟨id, hid, hpath.trans hmore⟩

/-- What lies upstream of the dependencies of a step feeds the step. -/
theorem feeds {s : Step} (h : Upstream steps ids x) (hs : s ∈ steps) (hids : ids ⊆ s.dependencies) :
    TransGen (Feeds steps) x s.id := by
  obtain ⟨id, hid, hpath⟩ := h
  exact .tail' hpath ⟨s, hs, rfl, hids hid⟩

theorem through {s : Step} (h : Upstream steps ids x) (hs : s ∈ steps)
    (hids : ids ⊆ s.dependencies) : Upstream steps [s.id] x :=
  ⟨s.id, List.mem_singleton_self _, (h.feeds hs hids).to_reflTransGen⟩

/-- What feeds something inside a region from outside lies upstream of where the region is
entered. -/
theorem of_entry (inside entry : List String) {y : String}
    (hclosed : ∀ a b, Feeds steps a b → b ∈ inside → a ∈ inside ∨ a ∈ entry)
    (h : TransGen (Feeds steps) x y) (hy : y ∈ inside) (hx : x ∉ inside) :
    Upstream steps entry x := by
  induction h with
  | single hfeeds => exact .of_mem ((hclosed _ _ hfeeds hy).resolve_left hx)
  | @tail b c hpath hfeeds ih =>
      rcases hclosed b c hfeeds hy with hb | hb
      · exact ih hb
      · exact ⟨b, hb, hpath.to_reflTransGen⟩

end Upstream

/-- Where no id is used twice, what feeds a step is what lies upstream of its dependencies. -/
theorem transGen_feeds_iff (hnodup : (steps.map Step.id).Nodup) {s : Step} (hs : s ∈ steps) :
    TransGen (Feeds steps) x s.id ↔ Upstream steps s.dependencies x := by
  refine ⟨fun h => ?_, fun h => h.feeds hs (List.Subset.refl _)⟩
  obtain ⟨d, hpath, t, ht, hid, hd⟩ := TransGen.tail'_iff.mp h
  obtain rfl := List.inj_on_of_nodup_map hnodup ht hs hid
  exact ⟨d, hd, hpath⟩

namespace Passes

theorem mono (h : Passes steps source ids target) (hsub : steps ⊆ more) :
    Passes more source ids target := by
  induction h with
  | start => exact .start
  | step _ hs hdeps ih => exact .step ih (hsub hs) hdeps

theorem trans {mid : List String} (h₁ : Passes steps source ids mid)
    (h₂ : Passes steps mid ids' target) : Passes steps source (ids ++ ids') target := by
  induction h₂ with
  | start => rwa [List.append_nil]
  | step _ hs hdeps ih =>
      rw [← List.append_assoc]
      exact .step ih hs hdeps

/-- Nothing is lost: what was upstream is, and so are the steps in between. -/
theorem upstream (h : Passes steps source ids target) (hx : Upstream steps source x ∨ x ∈ ids) :
    Upstream steps target x := by
  induction h with
  | start =>
      rcases hx with hx | hx
      · exact hx
      · cases hx
  | @step ids target s _ hs hdeps ih =>
      rw [List.mem_append, List.mem_singleton, ← or_assoc] at hx
      rcases hx with hx | rfl
      · exact (ih hx).through hs fun id hid => (hdeps id).mpr hid
      · exact .of_mem (List.mem_singleton_self _)

/-- What is upstream feeds all steps in between. -/
theorem feeds (h : Passes steps source ids target) (hx : Upstream steps source x) {id : String}
    (hid : id ∈ ids) : TransGen (Feeds steps) x id := by
  induction h with
  | start => cases hid
  | @step ids target s h hs hdeps ih =>
      rcases List.mem_append.mp hid with hid | hid
      · exact ih hid
      · rw [List.mem_singleton.mp hid]
        exact (h.upstream (.inl hx)).feeds hs fun id hid => (hdeps id).mpr hid

/-- Nothing joins: what is left behind, and what the steps in between list, comes from the source or
is one of these steps. -/
theorem closed (h : Passes steps source ids target) :
    target ⊆ ids ++ source ∧
      ∀ id ∈ ids, ∃ s ∈ steps, s.id = id ∧ s.dependencies ⊆ ids ++ source := by
  induction h with
  | start => exact ⟨List.subset_append_right _ _, nofun⟩
  | @step ids target s _ hs hdeps ih =>
      obtain ⟨htarget, hsteps⟩ := ih
      have hwider : ids ++ source ⊆ ids ++ [s.id] ++ source := by
        intro id hid
        rcases List.mem_append.mp hid with hid | hid
        · exact List.mem_append_left _ (List.mem_append_left _ hid)
        · exact List.mem_append_right _ hid
      refine ⟨by simp, fun id hid => ?_⟩
      rcases List.mem_append.mp hid with hid | hid
      · obtain ⟨t, ht, hid, hlists⟩ := hsteps id hid
        exact ⟨t, ht, hid, List.Subset.trans hlists hwider⟩
      · rw [List.mem_singleton] at hid
        refine ⟨s, hs, hid.symm, fun d hd => hwider (htarget ?_)⟩
        exact (hdeps d).mp hd

end Passes
end PlanFlow
