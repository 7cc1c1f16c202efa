import Mathlib.Data.List.Chain
import Mathlib.Logic.Relation

/-!
# Closed walks

A closed walk is written with its first member repeated at the end, as reported cycles are.  A
relation has a closed walk exactly if something is reached from itself.  If all steps of a relation
but some lead upward in a rank, every closed walk takes one of those.
-/

namespace PlanFlow

/-- A walk of at least one step along a relation, back to where it starts. -/
structure ClosedWalk {α : Type} (R : α → α → Prop) (walk : List α) : Prop where
  chain : walk.IsChain R
  closed : walk.head? = walk.getLast?
  long : 2 ≤ walk.length

/-- A closed walk that comes to nothing twice before it is closed. -/
structure SimpleCycle {α : Type} (R : α → α → Prop) (walk : List α) : Prop
    extends ClosedWalk R walk where
  nodup : walk.dropLast.Nodup

namespace ClosedWalk

variable {α β : Type} {R : α → α → Prop} {walk : List α}

/-- The members of the first step of a closed walk; the last member is the first again. -/
theorem exists_cons (h : ClosedWalk R walk) :
    ∃ a b rest, walk = a :: b :: rest ∧ (b :: rest).getLast (List.cons_ne_nil _ _) = a := by
  obtain ⟨-, hclosed, hlong⟩ := h
  match walk with
  | [] => simp at hlong
  | [_] => simp at hlong
  | a :: b :: rest =>
      refine ⟨a, b, rest, rfl, ?_⟩
      rw [List.head?_cons, List.getLast?_cons_cons, List.getLast?_eq_some_getLast (by simp)]
        at hclosed
      exact (Option.some.inj hclosed).symm

theorem exists_transGen (h : ClosedWalk R walk) : ∃ a ∈ walk, Relation.TransGen R a a := by
  obtain ⟨a, b, rest, rfl, hlast⟩ := h.exists_cons
  obtain ⟨hstep, htail⟩ := List.isChain_cons_cons.mp h.chain
  refine ⟨a, List.mem_cons_self, Relation.TransGen.head'_iff.mpr ⟨b, hstep, ?_⟩⟩
  exact List.relationReflTransGen_of_exists_isChain_cons rest htail hlast

theorem exists_of_transGen {a : α} (h : Relation.TransGen R a a) : ∃ walk, ClosedWalk R walk := by
  obtain ⟨b, hstep, hreach⟩ := Relation.TransGen.head'_iff.mp h
  obtain ⟨rest, hchain, hlast⟩ := List.exists_isChain_cons_of_relationReflTransGen hreach
  refine ⟨a :: b :: rest, List.isChain_cons_cons.mpr ⟨hstep, hchain⟩, ?_, by simp⟩
  rw [List.head?_cons, List.getLast?_cons_cons, List.getLast?_eq_some_getLast (by simp), hlast]

theorem map {S : β → β → Prop} (f : α → β) (h : ClosedWalk R walk)
    (hf : ∀ a ∈ walk, ∀ b ∈ walk, R a b → S (f a) (f b)) : ClosedWalk S (walk.map f) where
  chain := by
    rw [List.isChain_map]
    exact h.chain.imp_of_mem_imp fun _ _ ha hb hab => hf _ ha _ hb hab
  closed := by rw [List.head?_map, List.getLast?_map, h.closed]
  long := by simpa using h.long

/-- A step of the relation leads on from everything on a closed walk. -/
theorem exists_next (h : ClosedWalk R walk) {a : α} (ha : a ∈ walk) : ∃ b, R a b := by
  obtain ⟨first, second, rest, hwalk, hlast⟩ := h.exists_cons
  obtain ⟨before, after, hsplit⟩ := List.append_of_mem ha
  have hchain := h.chain
  cases after with
  | nil =>
      -- The last member is the first, from which the first step leads on.
      have hend : walk.getLast? = some a := by rw [hsplit]; simp
      have hfirst : some first = some a := by rw [← hend, ← h.closed, hwalk, List.head?_cons]
      obtain rfl := Option.some.inj hfirst
      rw [hwalk] at hchain
      exact ⟨second, (List.isChain_cons_cons.mp hchain).1⟩
  | cons b after =>
      rw [hsplit] at hchain
      exact ⟨b, (List.isChain_append_cons_cons.mp hchain).2.1⟩

/-- If every step that is not special leads upward, every closed walk takes a special step. -/
theorem exists_step_of_rank {special : α → α → Prop} (rank : α → Nat)
    (hrank : ∀ a b, R a b → special a b ∨ rank a < rank b) (h : ClosedWalk R walk) :
    ∃ a b, [a, b] <:+: walk ∧ special a b := by
  by_contra hnone
  push Not at hnone
  have hup : ClosedWalk (fun a b => rank a < rank b) walk := by
    refine ⟨?_, h.closed, h.long⟩
    rw [List.isChain_iff_forall_rel_of_append_cons_cons]
    rintro a b before after rfl
    have hstep : R a b := (List.isChain_append_cons_cons.mp h.chain).2.1
    exact (hrank a b hstep).resolve_left (hnone a b ⟨before, after, by simp⟩)
  obtain ⟨a, -, hreach⟩ := hup.exists_transGen
  have hlift : ∀ b, Relation.TransGen (fun a b => rank a < rank b) a b → rank a < rank b := by
    intro b hb
    induction hb with
    | single hstep => exact hstep
    | tail _ hstep ih => exact Nat.lt_trans ih hstep
  exact Nat.lt_irrefl _ (hlift a hreach)

end ClosedWalk
end PlanFlow
