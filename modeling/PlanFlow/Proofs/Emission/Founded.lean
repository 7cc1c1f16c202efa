import PlanFlow.Proofs.Emission.InOrder

/-!
# Steps that can be finished

A step can be finished if all that it lists can be.  Said of ids this is monotone: what can be
finished in some steps can be finished in more.  Where no id is used twice, a step that can be
finished never waits for itself.  Steps that are in order can be finished.
-/

namespace PlanFlow

open Relation (ReflTransGen TransGen)

/-- Some step with an id lists only what can be finished. -/
inductive Founded (steps : List Step) : String → Prop
  | step {s : Step} (hs : s ∈ steps) (hdeps : ∀ d ∈ s.dependencies, Founded steps d) :
      Founded steps s.id

variable {steps more : List Step} {ids source target : List String} {x : String}

namespace Founded

theorem mono (h : Founded steps x) (hsub : steps ⊆ more) : Founded more x := by
  induction h with
  | step hs _ ih => exact .step (hsub hs) ih

/-- What feeds something that can be finished can be finished. -/
theorem of_feeds (hnodup : (steps.map Step.id).Nodup) {y : String} (h : Founded steps y)
    (hfeeds : Feeds steps x y) : Founded steps x := by
  cases h with
  | step hs hdeps =>
      obtain ⟨t, ht, hid, hx⟩ := hfeeds
      obtain rfl := List.inj_on_of_nodup_map hnodup ht hs hid
      exact hdeps x hx

theorem of_upstream (hnodup : (steps.map Step.id).Nodup) (h : ∀ id ∈ ids, Founded steps id)
    (hx : Upstream steps ids x) : Founded steps x := by
  obtain ⟨id, hid, hpath⟩ := hx
  induction hpath using ReflTransGen.head_induction_on with
  | refl => exact h id hid
  | head hfeeds _ ih => exact ih.of_feeds hnodup hfeeds

/-- What can be finished does not wait for itself. -/
theorem not_transGen_self (hnodup : (steps.map Step.id).Nodup) (h : Founded steps x) :
    ¬TransGen (Feeds steps) x x := by
  induction h with
  | @step s hs _ ih =>
      intro hcycle
      obtain ⟨d, hd, hpath⟩ := (transGen_feeds_iff hnodup hs).mp hcycle
      exact ih d hd (.head' ⟨s, hs, rfl, hd⟩ hpath)

/-- If all steps can be finished, none waits for itself. -/
theorem acyclic (hnodup : (steps.map Step.id).Nodup) (h : ∀ s ∈ steps, Founded steps s.id)
    (id : String) : ¬TransGen (Feeds steps) id id := by
  intro hcycle
  obtain ⟨_, -, s, hs, rfl, -⟩ := TransGen.tail'_iff.mp hcycle
  exact (h s hs).not_transGen_self hnodup hcycle

end Founded

/-- Steps in order can be finished if what is known before them can be. -/
theorem InOrderAfter.founded {known : List String} (h : InOrderAfter known more)
    (hknown : ∀ id ∈ known, Founded steps id) (hsub : more ⊆ steps) :
    ∀ s ∈ more, Founded steps s.id := by
  have hall : ∀ n before s after, before.length = n → more = before ++ s :: after →
      Founded steps s.id := by
    intro n
    induction n using Nat.strongRecOn with
    | _ n ih =>
        rintro before s after rfl hsplit
        refine .step (hsub (by simp [hsplit])) fun d hd => ?_
        rcases List.mem_append.mp (h before s after hsplit hd) with hd | hd
        · exact hknown d hd
        -- What stands before the step is split closer to the start.
        · obtain ⟨t, ht, rfl⟩ := List.mem_map.mp hd
          obtain ⟨first, others, rfl⟩ := List.append_of_mem ht
          exact ih first.length (by simp) first t (others ++ s :: after) rfl (by simp [hsplit])
  intro s hs
  obtain ⟨before, after, hsplit⟩ := List.append_of_mem hs
  exact hall _ before s after rfl hsplit

/-- What comes after something that can be finished, with nothing else joining, can be finished. -/
theorem Passes.founded (h : Passes steps source ids target)
    (hsource : ∀ id ∈ source, Founded steps id) :
    (∀ id ∈ ids, Founded steps id) ∧ ∀ id ∈ target, Founded steps id := by
  induction h with
  | start => exact ⟨nofun, hsource⟩
  | @step ids target s _ hs hdeps ih =>
      have hlast : Founded steps s.id := .step hs fun d hd => ih.2 d ((hdeps d).mp hd)
      rw [List.forall_mem_append, List.forall_mem_singleton]
      exact ⟨⟨ih.1, hlast⟩, hlast⟩

/-- What has to be finished before some data is there can be finished. -/
def Emission.Founds (e : Emission) (h : Handle) : Prop := ∀ id ∈ h.dependencies, Founded e.steps id

theorem Emission.Orderly.founds {e : Emission} {h : Handle} (horderly : e.Orderly h) :
    e.Founds h := by
  intro id hid
  obtain ⟨s, hs, rfl⟩ := List.mem_map.mp (horderly.provided hid)
  exact (inOrder_iff.mp horderly.inOrder).founded nofun (List.Subset.refl _) s hs

end PlanFlow
