import Mathlib.Data.List.Nodup
import Mathlib.Data.List.Perm.Basic
import PlanFlow.Cache

/-!
# Lists by recency

A bounded list by recency has what was stored for some plans, from the least to the most recently
used one.  Its calls keep it well formed: no plan is repeated and it is never longer than its limit.
Every lookup is counted, as found or as missed.
-/

namespace PlanFlow

/-- A call of a cache that takes effect at once. -/
inductive CacheCall (α : Type) where
  | get (plan : α)
  | insert (plan : α) (workflow : Workflow)
  | invalidate (plan : α)
  | clear

namespace CacheCall

variable {α : Type}

/-- The plan that a call is about. -/
def plan? : CacheCall α → Option α
  | .get plan | .insert plan _ | .invalidate plan => some plan
  | .clear => none

/-- Whether a call looks a plan up. -/
def isGet : CacheCall α → Bool
  | .get _ => true
  | .insert _ _ | .invalidate _ | .clear => false

/-- A call discards what was stored for a plan: it stores something else for it, or forgets it. -/
def Discards (plan : α) : CacheCall α → Prop
  | .get _ => False
  | .insert other _ | .invalidate other => other = plan
  | .clear => True

/-- The plans that calls are about. -/
def plansOf (calls : List (CacheCall α × Nat)) : List α := calls.filterMap fun call => call.1.plan?

end CacheCall

/-! ## Calls one after the other -/

section Serve

variable {σ τ κ β : Type}

/-- Handles calls one after the other, and collects the answers. -/
def serve (handle : σ → κ → List β × σ) : σ → List κ → List β × σ
  | s, [] => ([], s)
  | s, call :: rest =>
    let (answers, s) := handle s call
    let (more, s) := serve handle s rest
    (answers ++ more, s)

theorem serve_append (handle : σ → κ → List β × σ) (s : σ) (calls more : List κ) :
    (serve handle s (calls ++ more)).2 = (serve handle (serve handle s calls).2 more).2 := by
  induction calls generalizing s with
  | nil => rfl
  | cons call rest ih => exact ih _

/-- Two ways to handle calls give the same answers if they do at every single call, in states that
belong together. -/
theorem serve_simulates {handle : σ → κ → List β × σ} {handle' : τ → κ → List β × τ}
    {rel : σ → τ → Prop} {calls : List κ}
    (hstep : ∀ call ∈ calls, ∀ s t, rel s t →
      (handle s call).1 = (handle' t call).1 ∧ rel (handle s call).2 (handle' t call).2)
    {s : σ} {t : τ} (h : rel s t) :
    (serve handle s calls).1 = (serve handle' t calls).1 ∧
      rel (serve handle s calls).2 (serve handle' t calls).2 := by
  induction calls generalizing s t with
  | nil => exact ⟨rfl, h⟩
  | cons call rest ih =>
      rw [List.forall_mem_cons] at hstep
      obtain ⟨hanswers, hrel⟩ := hstep.1 s t h
      obtain ⟨hmore, hend⟩ := ih hstep.2 hrel
      constructor
      · simp only [serve, hanswers, hmore]
      · exact hend

end Serve

/-! ## Lists by recency -/

/-- What was stored for a plan, and when. -/
structure LruItem (α : Type) where
  plan : α
  workflow : Workflow
  storedAt : Nat

/-- A bounded list by recency: its items from the least to the most recently used one, and how often
a plan was found and missed. -/
structure LruList (α : Type) where
  limits : CacheLimits
  items : List (LruItem α)
  hits : Nat
  misses : Nat

namespace LruList

variable {α : Type}

/-- The list without items. -/
def empty (limits : CacheLimits) : LruList α := ⟨limits, [], 0, 0⟩

/-- An item is used as long as less than the lifetime, if there is one, has passed since it was
stored. -/
def IsFresh (limits : CacheLimits) (now : Nat) (item : LruItem α) : Prop :=
  ∀ lifetime ∈ limits.lifetime, now - item.storedAt < lifetime

instance (limits : CacheLimits) (now : Nat) (item : LruItem α) :
    Decidable (IsFresh limits now item) :=
  inferInstanceAs (Decidable (∀ lifetime ∈ limits.lifetime, _))

variable [DecidableEq α]

/-- The items of all other plans. -/
def without (plan : α) (items : List (LruItem α)) : List (LruItem α) :=
  items.filter fun item => item.plan ≠ plan

/-- Looks a plan up.  An item that is found becomes the most recently used one, and keeps the time
at which it was stored; one that is no longer fresh is dropped, and the plan was missed. -/
def get (l : LruList α) (plan : α) (now : Nat) : Option Workflow × LruList α :=
  match l.items.find? fun item => item.plan = plan with
  | none => (none, { l with misses := l.misses + 1 })
  | some item =>
    if IsFresh l.limits now item then
      (some item.workflow, { l with items := without plan l.items ++ [item], hits := l.hits + 1 })
    else (none, { l with items := without plan l.items, misses := l.misses + 1 })

/-- Stores a workflow as the most recently used item, and drops as many of the least recently used
ones as there are too many. -/
def insert (l : LruList α) (plan : α) (workflow : Workflow) (now : Nat) : LruList α :=
  let items := without plan l.items ++ [⟨plan, workflow, now⟩]
  { l with items := items.drop (items.length - l.limits.maxEntries) }

/-- The answers to a call at some time, and the list after it. -/
def handle (l : LruList α) : CacheCall α × Nat → List (Option Workflow) × LruList α
  | (.get plan, now) => ([(l.get plan now).1], (l.get plan now).2)
  | (.insert plan workflow, now) => ([], l.insert plan workflow now)
  | (.invalidate plan, _) => ([], { l with items := without plan l.items })
  | (.clear, _) => ([], { l with items := [] })

/-- No plan is repeated, and there are no more items than the limit. -/
structure WellFormed (l : LruList α) : Prop where
  nodup : (l.items.map LruItem.plan).Nodup
  bounded : l.items.length ≤ l.limits.maxEntries

omit [DecidableEq α] in
theorem wellFormed_empty (limits : CacheLimits) : (empty limits : LruList α).WellFormed where
  nodup := List.nodup_nil
  bounded := Nat.zero_le _

section Operations

variable {l : LruList α} {plan : α} {item : LruItem α}

theorem mem_without {items : List (LruItem α)} :
    item ∈ without plan items ↔ item ∈ items ∧ item.plan ≠ plan := by
  simp [without]

theorem nodup_without {items : List (LruItem α)} (h : (items.map LruItem.plan).Nodup) :
    ((without plan items).map LruItem.plan).Nodup :=
  h.sublist (List.filter_sublist.map _)

theorem nodup_without_append {items : List (LruItem α)} (h : (items.map LruItem.plan).Nodup)
    (item : LruItem α) (hplan : item.plan = plan) :
    ((without plan items ++ [item]).map LruItem.plan).Nodup := by
  rw [List.map_append, List.nodup_append]
  refine ⟨nodup_without h, List.nodup_singleton _, ?_⟩
  rintro id hid _ hlast rfl
  obtain ⟨other, hother, rfl⟩ := List.mem_map.mp hid
  exact (mem_without.mp hother).2 ((List.mem_singleton.mp hlast).trans hplan)

/-- Moving an item to the end only changes the order. -/
theorem perm_without_append {items : List (LruItem α)} (h : (items.map LruItem.plan).Nodup)
    (hitem : item ∈ items) (hplan : item.plan = plan) :
    items.Perm (without plan items ++ [item]) := by
  refine (List.perm_ext_iff_of_nodup h.of_map ?_).mpr fun other => ?_
  · exact (nodup_without_append h item hplan).of_map
  · rw [List.mem_append, mem_without, List.mem_singleton]
    constructor
    · intro hother
      by_cases heq : other.plan = plan
      · exact .inr (List.inj_on_of_nodup_map h hother hitem (heq.trans hplan.symm))
      · exact .inl ⟨hother, heq⟩
    · rintro (⟨hother, -⟩ | rfl)
      · exact hother
      · exact hitem

/-- A call keeps the list well formed and its limits the same, and a lookup is counted once. -/
theorem handle_wellFormed (h : l.WellFormed) (call : CacheCall α × Nat) :
    (l.handle call).2.WellFormed ∧ (l.handle call).2.limits = l.limits ∧
      (l.handle call).2.hits + (l.handle call).2.misses =
        l.hits + l.misses + if call.1.isGet then 1 else 0 := by
  obtain ⟨call, now⟩ := call
  have hshorter (plan : α) : (without plan l.items).length ≤ l.limits.maxEntries :=
    Nat.le_trans (List.length_filter_le _ _) h.bounded
  cases call with
  | get plan =>
      simp only [handle, get, CacheCall.isGet, if_true]
      split
      · exact ⟨⟨h.nodup, h.bounded⟩, rfl, by simp only; omega⟩
      · rename_i item hfind
        have hplan : item.plan = plan := by simpa using List.find?_some hfind
        have hitem : item ∈ l.items := List.mem_of_find?_eq_some hfind
        split
        · refine ⟨⟨nodup_without_append h.nodup item hplan, ?_⟩, rfl, by simp only; omega⟩
          exact (perm_without_append h.nodup hitem hplan).length_eq ▸ h.bounded
        · exact ⟨⟨nodup_without h.nodup, hshorter plan⟩, rfl, by simp only; omega⟩
  | insert plan workflow =>
      refine ⟨⟨?_, ?_⟩, rfl, rfl⟩
      · have hnodup := nodup_without_append h.nodup ⟨plan, workflow, now⟩ rfl
        exact hnodup.sublist ((List.drop_sublist _ _).map _)
      · simp only [handle, insert, List.length_drop]
        omega
  | invalidate plan => exact ⟨⟨nodup_without h.nodup, hshorter plan⟩, rfl, rfl⟩
  | clear => exact ⟨⟨List.nodup_nil, Nat.zero_le _⟩, rfl, rfl⟩

/-- What a list holds after a call was stored by the call, or was held before and is not
discarded. -/
theorem mem_items_handle {call : CacheCall α × Nat} (h : item ∈ (l.handle call).2.items) :
    call = (.insert item.plan item.workflow, item.storedAt) ∨
      item ∈ l.items ∧ ¬call.1.Discards item.plan := by
  obtain ⟨call, now⟩ := call
  cases call with
  | get plan =>
      refine .inr ⟨?_, id⟩
      simp only [handle, get] at h
      split at h
      · exact h
      · rename_i found hfind
        split at h
        · rcases List.mem_append.mp h with h | h
          · exact (mem_without.mp h).1
          · exact List.mem_singleton.mp h ▸ List.mem_of_find?_eq_some hfind
        · exact (mem_without.mp h).1
  | insert plan workflow =>
      rcases List.mem_append.mp (List.mem_of_mem_drop h) with h | h
      · obtain ⟨hitem, hne⟩ := mem_without.mp h
        exact .inr ⟨hitem, hne.symm⟩
      · exact .inl (by rw [List.mem_singleton.mp h])
  | invalidate plan =>
      obtain ⟨hitem, hne⟩ := mem_without.mp h
      exact .inr ⟨hitem, hne.symm⟩
  | clear => cases h

/-- What a list holds after some calls was stored by one of them or was held before, and no later
call discards it. -/
theorem mem_items_serve {calls : List (CacheCall α × Nat)}
    (h : item ∈ (serve handle l calls).2.items) :
    (∃ before later,
      calls = before ++ (.insert item.plan item.workflow, item.storedAt) :: later ∧
        ∀ call ∈ later, ¬call.1.Discards item.plan) ∨
      item ∈ l.items ∧ ∀ call ∈ calls, ¬call.1.Discards item.plan := by
  induction calls generalizing l with
  | nil => exact .inr ⟨h, nofun⟩
  | cons call rest ih =>
      rcases ih h with ⟨before, later, rfl, hlater⟩ | ⟨hitem, hrest⟩
      · exact .inl ⟨call :: before, later, rfl, hlater⟩
      · rcases mem_items_handle hitem with rfl | ⟨hitem, hcall⟩
        · exact .inl ⟨[], rest, rfl, hrest⟩
        · exact .inr ⟨hitem, List.forall_mem_cons.mpr ⟨hcall, hrest⟩⟩

/-- What is found for a plan is a fresh item of it. -/
theorem exists_item_of_get {now : Nat} {workflow : Workflow}
    (h : (l.get plan now).1 = some workflow) :
    ∃ item ∈ l.items, item.plan = plan ∧ item.workflow = workflow ∧ IsFresh l.limits now item := by
  unfold get at h
  split at h
  · cases h
  · rename_i item hfind
    have hplan : item.plan = plan := by simpa using List.find?_some hfind
    split at h
    · rename_i hfresh
      exact ⟨item, List.mem_of_find?_eq_some hfind, hplan, Option.some.inj h, hfresh⟩
    · cases h

/-- So it is for calls one after the other. -/
theorem serve_wellFormed (h : l.WellFormed) (calls : List (CacheCall α × Nat)) :
    (serve handle l calls).2.WellFormed ∧ (serve handle l calls).2.limits = l.limits ∧
      (serve handle l calls).2.hits + (serve handle l calls).2.misses =
        l.hits + l.misses + calls.countP (fun call => call.1.isGet) := by
  induction calls generalizing l with
  | nil => exact ⟨h, rfl, rfl⟩
  | cons call rest ih =>
      obtain ⟨hstep, hlimits, hcounts⟩ := handle_wellFormed h call
      obtain ⟨hrest, hlimits', hcounts'⟩ := ih hstep
      refine ⟨hrest, hlimits'.trans hlimits, ?_⟩
      rw [List.countP_cons]
      exact hcounts'.trans (by omega)

end Operations
end LruList

end PlanFlow
