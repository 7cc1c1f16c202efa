import Mathlib.Algebra.Group.Nat.Defs
import PlanFlow.Proofs.Cache.Recency

/-!
# The cache as a list by recency

A cache keeps its workflows in a map, and the order in which their plans were used in a queue beside
it.  Its calls keep the two in step: together they are a list by recency.  For every sequence of
calls, whoever makes them and whatever times are read, the cache answers as the list does and holds
what the list holds.  Plans are told apart by their fingerprints, so this is said of plans that the
hash tells apart, whichever hash it is.
-/

namespace PlanFlow

namespace LruItem

variable (hash : String → UInt64)

/-- The fingerprint of an item's plan. -/
def key (item : LruItem Plan) : UInt64 := Cache.keyOf hash item.plan

/-- The entry that a cache has for an item. -/
def entry (item : LruItem Plan) : UInt64 × CacheEntry :=
  (item.key hash, ⟨item.workflow, item.storedAt⟩)

theorem key_eq {item : LruItem Plan} {plan : Plan} (h : item.plan = plan) :
    item.key hash = Cache.keyOf hash plan := by
  rw [key, h]

end LruItem

namespace Cache

/-- The answers to a call at some time, and the cache after it. -/
def handle (hash : String → UInt64) (c : Cache) :
    CacheCall Plan × Nat → List (Option Workflow) × Cache
  | (.get plan, now) => ([(c.get hash plan now).1], (c.get hash plan now).2)
  | (.insert plan workflow, now) => ([], c.insert hash plan workflow now)
  | (.invalidate plan, _) => ([], c.invalidate hash plan)
  | (.clear, _) => ([], c.clear)

/-- A cache holds a list: its map has the items, by key, and its queue has their keys in order. -/
structure Mirrors (hash : String → UInt64) (c : Cache) (l : LruList Plan) : Prop where
  limits : c.limits = l.limits
  hits : c.hits = .ofNat l.hits
  misses : c.misses = .ofNat l.misses
  nodup : (l.items.map (LruItem.key hash)).Nodup
  entries : c.entries.Perm (l.items.map (LruItem.entry hash))
  order : c.order = l.items.map (LruItem.key hash)

theorem mirrors_empty (hash : String → UInt64) (limits : CacheLimits) :
    (empty limits).Mirrors hash (.empty limits) where
  limits := rfl
  hits := rfl
  misses := rfl
  nodup := List.nodup_nil
  entries := .refl _
  order := rfl

/-- What is found for a key is its entry, if no key is repeated. -/
theorem lookup_of_mem {entries : List (UInt64 × CacheEntry)} (hnodup : (entries.map Prod.fst).Nodup)
    {key : UInt64} {entry : CacheEntry} (h : (key, entry) ∈ entries) :
    entries.lookup key = some entry := by
  obtain ⟨before, after, rfl⟩ := List.append_of_mem h
  refine List.lookup_eq_some_iff.mpr ⟨before, after, rfl, fun other hother => ?_⟩
  rw [List.map_append, List.nodup_append] at hnodup
  have hne : other.1 ≠ key :=
    hnodup.2.2 other.1 (List.mem_map_of_mem hother) key List.mem_cons_self
  simpa using hne.symm

/-- Evicting drops the entries of the oldest keys, as many as there are too many. -/
theorem evict_spec (maxEntries : Nat) {entries pairs : List (UInt64 × CacheEntry)}
    (hperm : entries.Perm pairs) (hnodup : (pairs.map Prod.fst).Nodup) :
    (evict maxEntries entries (pairs.map Prod.fst)).1.Perm
        (pairs.drop (pairs.length - maxEntries)) ∧
      (evict maxEntries entries (pairs.map Prod.fst)).2 =
        (pairs.drop (pairs.length - maxEntries)).map Prod.fst := by
  induction pairs generalizing entries with
  | nil =>
      rw [List.drop_nil]
      exact ⟨hperm, rfl⟩
  | cons pair rest ih =>
      have hlength : entries.length = rest.length + 1 := hperm.length_eq
      rw [List.map_cons, List.nodup_cons] at hnodup
      obtain ⟨hfirst, hrest⟩ := hnodup
      simp only [List.map_cons, evict, List.length_cons]
      split
      · have hkeep : dropEntry pair.1 (pair :: rest) = rest := by
          rw [dropEntry, List.filter_cons_of_neg (by simp)]
          refine List.filter_eq_self.mpr fun entry hentry => ?_
          have hne : entry.1 ≠ pair.1 := fun heq =>
            hfirst (heq ▸ List.mem_map_of_mem (f := Prod.fst) hentry)
          simpa using hne
        have hdrop : (dropEntry pair.1 entries).Perm rest := by
          rw [← hkeep]
          exact hperm.filter _
        rw [show rest.length + 1 - maxEntries = rest.length - maxEntries + 1 by omega,
          List.drop_succ_cons]
        exact ih hdrop hrest
      · rw [show rest.length + 1 - maxEntries = 0 by omega]
        exact ⟨hperm, rfl⟩

namespace Mirrors

variable {hash : String → UInt64} {c : Cache} {l : LruList Plan} {plan : Plan}

theorem nodup_plans (h : c.Mirrors hash l) : (l.items.map LruItem.plan).Nodup := by
  have hkeys := h.nodup
  rw [show LruItem.key hash = keyOf hash ∘ LruItem.plan from rfl, ← List.map_map] at hkeys
  exact hkeys.of_map

theorem map_fst_entries (h : c.Mirrors hash l) :
    (c.entries.map Prod.fst).Perm (l.items.map (LruItem.key hash)) := by
  have hperm := h.entries.map Prod.fst
  rwa [List.map_map] at hperm

/-- The queue has every key of the map once, and no others. -/
theorem order_perm (h : c.Mirrors hash l) :
    c.order.Nodup ∧ c.order.Perm (c.entries.map Prod.fst) :=
  ⟨h.order ▸ h.nodup, h.order ▸ h.map_fst_entries.symm⟩

/-- What a cache finds for a plan is the item of the plan. -/
theorem lookup_eq (h : c.Mirrors hash l)
    (hkeys : ∀ item ∈ l.items, item.key hash = keyOf hash plan → item.plan = plan) :
    c.entries.lookup (keyOf hash plan) =
      (l.items.find? fun item => item.plan = plan).map fun item =>
        ⟨item.workflow, item.storedAt⟩ := by
  cases hfind : l.items.find? fun item => item.plan = plan with
  | none =>
      refine List.lookup_eq_none_iff.mpr fun entry hentry => ?_
      obtain ⟨item, hitem, rfl⟩ := List.mem_map.mp (h.entries.mem_iff.mp hentry)
      have hplan : item.plan ≠ plan := by simpa using List.find?_eq_none.mp hfind item hitem
      exact bne_iff_ne.mpr fun heq => hplan (hkeys item hitem heq.symm)
  | some item =>
      have hplan : item.plan = plan := by simpa using List.find?_some hfind
      have hmem : item.entry hash ∈ c.entries :=
        h.entries.mem_iff.mpr (List.mem_map_of_mem (List.mem_of_find?_eq_some hfind))
      exact lookup_of_mem (h.map_fst_entries.nodup_iff.mpr h.nodup) (hplan ▸ hmem)

/-- Without the key of a plan, a map and a queue have the items of all other plans. -/
theorem without_plan (h : c.Mirrors hash l)
    (hkeys : ∀ item ∈ l.items, item.key hash = keyOf hash plan → item.plan = plan) :
    (dropEntry (keyOf hash plan) c.entries).Perm
        ((LruList.without plan l.items).map (LruItem.entry hash)) ∧
      c.order.filter (· != keyOf hash plan) =
        (LruList.without plan l.items).map (LruItem.key hash) := by
  have hwithout : LruList.without plan l.items =
      l.items.filter fun item => item.key hash != keyOf hash plan := by
    refine List.filter_congr fun item hitem => ?_
    have hiff : item.plan = plan ↔ item.key hash = keyOf hash plan :=
      ⟨LruItem.key_eq hash, hkeys item hitem⟩
    simp [bne, beq_eq_decide, hiff]
  constructor
  · have hperm := h.entries.filter fun entry => entry.1 != keyOf hash plan
    rw [List.filter_map, Function.comp_def] at hperm
    rw [dropEntry, hwithout]
    exact hperm
  · rw [h.order, List.filter_map, hwithout, Function.comp_def]

/-- Removing a plan from a cache removes its item. -/
theorem remove (h : c.Mirrors hash l)
    (hkeys : ∀ item ∈ l.items, item.key hash = keyOf hash plan → item.plan = plan) :
    (c.remove (keyOf hash plan)).Mirrors hash
      { l with items := LruList.without plan l.items } where
  limits := h.limits
  hits := h.hits
  misses := h.misses
  nodup := h.nodup.sublist (List.filter_sublist.map _)
  entries := (h.without_plan hkeys).1
  order := (h.without_plan hkeys).2

theorem isExpired_eq (h : c.Mirrors hash l) (item : LruItem Plan) (now : Nat) :
    c.isExpired ⟨item.workflow, item.storedAt⟩ now =
      !decide (LruList.IsFresh l.limits now item) := by
  rw [Bool.eq_iff_iff, isExpired, h.limits]
  simp [LruList.IsFresh, Option.any_eq_true]

/-- Moving the key of an item to the end of the queue moves the item to the end of the list. -/
theorem touch (h : c.Mirrors hash l)
    (hkeys : ∀ item ∈ l.items, item.key hash = keyOf hash plan → item.plan = plan)
    {item : LruItem Plan} (hitem : item ∈ l.items) (hplan : item.plan = plan) :
    (c.touch (keyOf hash plan)).Mirrors hash
      { l with items := LruList.without plan l.items ++ [item] } := by
  have hperm := LruList.perm_without_append h.nodup_plans hitem hplan
  exact {
    limits := h.limits
    hits := h.hits
    misses := h.misses
    nodup := (hperm.map _).nodup_iff.mp h.nodup
    entries := h.entries.trans (hperm.map _)
    order := by
      simp only [Cache.touch, (h.without_plan hkeys).2, List.map_append, List.map_singleton,
        LruItem.key_eq hash hplan] }

/-- Looking a plan up in a cache is looking it up in the list. -/
theorem get (h : c.Mirrors hash l)
    (hkeys : ∀ item ∈ l.items, item.key hash = keyOf hash plan → item.plan = plan) (now : Nat) :
    (c.get hash plan now).1 = (l.get plan now).1 ∧
      (c.get hash plan now).2.Mirrors hash (l.get plan now).2 := by
  have hmiss : c.misses + 1 = .ofNat (l.misses + 1) := by rw [h.misses, UInt64.ofNat_add]; rfl
  have hhit : c.hits + 1 = .ofNat (l.hits + 1) := by rw [h.hits, UInt64.ofNat_add]; rfl
  have hfound := h.lookup_eq hkeys
  unfold Cache.get LruList.get
  cases hfind : l.items.find? fun item => item.plan = plan with
  | none =>
      rw [hfind, Option.map_none] at hfound
      simp only [hfound, true_and]
      exact { h with misses := hmiss }
  | some item =>
      have hplan : item.plan = plan := by simpa using List.find?_some hfind
      have hitem : item ∈ l.items := List.mem_of_find?_eq_some hfind
      rw [hfind, Option.map_some] at hfound
      simp only [hfound, h.isExpired_eq item now]
      by_cases hfresh : LruList.IsFresh l.limits now item
      · simp only [hfresh, decide_true, Bool.not_true, Bool.false_eq_true, if_false, if_true,
          true_and]
        exact { h.touch hkeys hitem hplan with hits := hhit }
      · simp only [hfresh, decide_false, Bool.not_false, if_true, if_false, true_and]
        exact { h.remove hkeys with misses := hmiss }

/-- Storing a workflow in a cache is storing it in the list. -/
theorem insert (h : c.Mirrors hash l)
    (hkeys : ∀ item ∈ l.items, item.key hash = keyOf hash plan → item.plan = plan)
    (workflow : Workflow) (now : Nat) :
    (c.insert hash plan workflow now).Mirrors hash (l.insert plan workflow now) := by
  let items := LruList.without plan l.items ++ [⟨plan, workflow, now⟩]
  have hperm : ((keyOf hash plan, ⟨workflow, now⟩) :: dropEntry (keyOf hash plan) c.entries).Perm
      (items.map (LruItem.entry hash)) := by
    rw [List.map_append]
    exact (List.perm_append_singleton _ _).symm.trans ((h.without_plan hkeys).1.append_right _)
  have horder : c.order.filter (· != keyOf hash plan) ++ [keyOf hash plan] =
      (items.map (LruItem.entry hash)).map Prod.fst := by
    rw [(h.without_plan hkeys).2, List.map_map, List.map_append, List.map_singleton]
    rfl
  have hnodup : (items.map (LruItem.key hash)).Nodup := by
    have hothers : ((LruList.without plan l.items).map (LruItem.key hash)).Nodup :=
      h.nodup.sublist (List.filter_sublist.map _)
    rw [List.map_append, List.map_singleton, List.nodup_append]
    refine ⟨hothers, List.nodup_singleton _, fun key hkey other hother heq => ?_⟩
    obtain ⟨item, hitem, rfl⟩ := List.mem_map.mp hkey
    obtain ⟨hmem, hne⟩ := LruList.mem_without.mp hitem
    exact hne (hkeys item hmem (heq.trans (List.mem_singleton.mp hother)))
  have hentries : ((items.map (LruItem.entry hash)).map Prod.fst).Nodup := by
    rwa [List.map_map]
  obtain ⟨hperm', horder'⟩ := evict_spec c.limits.maxEntries hperm hentries
  rw [← horder] at hperm' horder'
  rw [List.length_map, ← List.map_drop] at hperm' horder'
  rw [List.map_map] at horder'
  have hl : l.insert plan workflow now =
      { l with items := items.drop (items.length - c.limits.maxEntries) } := by
    rw [h.limits]
    rfl
  rw [hl]
  exact {
    limits := h.limits
    hits := h.hits
    misses := h.misses
    nodup := hnodup.sublist ((List.drop_sublist _ _).map _)
    entries := hperm'
    order := horder' }

/-- A cache that holds a list answers a call as the list does, and holds the list after the call. -/
theorem handle (h : c.Mirrors hash l) {call : CacheCall Plan × Nat}
    (hkeys : ∀ plan ∈ call.1.plan?, ∀ item ∈ l.items,
      item.key hash = keyOf hash plan → item.plan = plan) :
    (c.handle hash call).1 = (l.handle call).1 ∧
      (c.handle hash call).2.Mirrors hash (l.handle call).2 := by
  obtain ⟨call, now⟩ := call
  cases call with
  | get plan =>
      obtain ⟨hanswer, hstep⟩ := h.get (hkeys plan rfl) now
      exact ⟨congrArg (fun answer => [answer]) hanswer, hstep⟩
  | insert plan workflow => exact ⟨rfl, h.insert (hkeys plan rfl) workflow now⟩
  | invalidate plan => exact ⟨rfl, h.remove (hkeys plan rfl)⟩
  | clear =>
      exact ⟨rfl, {
        limits := h.limits
        hits := h.hits
        misses := h.misses
        nodup := List.nodup_nil
        entries := .refl _
        order := rfl }⟩

end Mirrors

/-- A failed compilation leaves a cache as looking the plan up leaves it. -/
theorem getOrCompile_of_failure {hash : String → UInt64} {c : Cache} {compiler : Compiler}
    {p : Plan} {errors : List PlanError} {warnings : List Warning}
    (h : compiler.compile p = .failure errors warnings) (now : Nat) :
    (c.getOrCompile hash compiler p now).2 = (c.get hash p now).2 := by
  unfold getOrCompile
  split
  · rename_i hget
    rw [hget]
  · rename_i hget
    simp only [hget, h]

/-! ## Sequences of calls -/

/-- A hash tells plans apart: no two of them have one fingerprint. -/
def KeysDistinct (hash : String → UInt64) (plans : List Plan) : Prop :=
  ∀ p ∈ plans, ∀ q ∈ plans, keyOf hash p = keyOf hash q → p = q

section Calls

variable {hash : String → UInt64} {calls : List (CacheCall Plan × Nat)}

/-- What calls make of a cache and of a list, both empty at first. -/
theorem mirrors_serve (limits : CacheLimits)
    (hkeys : KeysDistinct hash (CacheCall.plansOf calls)) :
    (serve (handle hash) (empty limits) calls).1 =
        (serve LruList.handle (.empty limits) calls).1 ∧
      (serve (handle hash) (empty limits) calls).2.Mirrors hash
        (serve LruList.handle (.empty limits) calls).2 := by
  -- The plans of the list's items are among those of the calls, so the keys tell them apart.
  have hstep : ∀ call ∈ calls, ∀ (c : Cache) (l : LruList Plan),
      (c.Mirrors hash l ∧ ∀ item ∈ l.items, item.plan ∈ CacheCall.plansOf calls) →
        (c.handle hash call).1 = (l.handle call).1 ∧
          ((c.handle hash call).2.Mirrors hash (l.handle call).2 ∧
            ∀ item ∈ (l.handle call).2.items, item.plan ∈ CacheCall.plansOf calls) := by
    rintro call hcall c l ⟨hmirrors, hplans⟩
    have hplan {plan : Plan} (h : plan ∈ call.1.plan?) : plan ∈ CacheCall.plansOf calls :=
      List.mem_filterMap.mpr ⟨call, hcall, h⟩
    obtain ⟨hanswers, hmirrors'⟩ := hmirrors.handle fun plan h item hitem =>
      hkeys item.plan (hplans item hitem) plan (hplan h)
    refine ⟨hanswers, hmirrors', fun item hitem => ?_⟩
    rcases LruList.mem_items_handle hitem with rfl | ⟨hitem, -⟩
    · exact hplan rfl
    · exact hplans item hitem
  have hsimulates := serve_simulates hstep (s := empty limits) (t := .empty limits)
    ⟨mirrors_empty hash limits, fun _ hitem => absurd hitem List.not_mem_nil⟩
  exact ⟨hsimulates.1, hsimulates.2.1⟩

/-- With a hash that tells the plans of some calls apart, a cache answers the calls as the list by
recency does, and holds the list.  No plan is repeated in the list and it is never longer than the
limit, so the queue has every key of the map once; every lookup is counted, by counters of 64 bits,
and a compilation that fails stores nothing. -/
theorem serve_eq_serve_lruList (limits : CacheLimits)
    (hkeys : KeysDistinct hash (CacheCall.plansOf calls)) :
    let c := (serve (handle hash) (empty limits) calls).2
    let l := (serve LruList.handle (.empty limits) calls).2
    (serve (handle hash) (empty limits) calls).1 =
        (serve LruList.handle (.empty limits) calls).1 ∧
      c.Mirrors hash l ∧ (l.items.map LruItem.plan).Nodup ∧ l.items.length ≤ limits.maxEntries ∧
      c.order.Nodup ∧ c.order.Perm (c.entries.map Prod.fst) ∧
      (c.hits + c.misses).toNat = calls.countP (fun call => call.1.isGet) % 2 ^ 64 ∧
      ∀ compiler p now errors warnings, compiler.compile p = .failure errors warnings →
        (c.getOrCompile hash compiler p now).2 = (c.get hash p now).2 := by
  intro c l
  obtain ⟨hanswers, hmirrors⟩ := mirrors_serve limits hkeys
  obtain ⟨hwellFormed, hlimits, hcounts⟩ :=
    LruList.serve_wellFormed (LruList.wellFormed_empty limits) calls
  refine ⟨hanswers, hmirrors, hwellFormed.nodup, ?_, hmirrors.order_perm.1, hmirrors.order_perm.2,
    ?_, fun _ _ now _ _ h => getOrCompile_of_failure h now⟩
  · rw [← show l.limits = limits from hlimits]
    exact hwellFormed.bounded
  · rw [hmirrors.hits, hmirrors.misses, ← UInt64.ofNat_add, UInt64.toNat_ofNat', hcounts]
    simp [LruList.empty]

/-- A plan of which only the goal is known. -/
def goalPlan (goal : String) : Plan := { (default : Plan) with goal := goal }

/-- A polynomial hash of the bytes of a text. -/
def polynomialHash (text : String) : UInt64 :=
  text.toUTF8.data.toList.foldl (fun hash byte => 31 * hash + byte.toUInt64) 0

/-- Two plans that take turns in a cache. -/
def turns (p q : Plan) : List (CacheCall Plan × Nat) :=
  [(.insert p default, 0), (.get p, 5), (.insert q default, 6), (.get p, 7), (.get q, 20)]

/-- In a cache for one plan, the second plan drives the first one out, and expires. -/
theorem serve_eq_serve_lruList_turns :
    KeysDistinct polynomialHash
        (CacheCall.plansOf (turns (goalPlan "Sort") (goalPlan "Mail"))) ∧
      (serve (handle polynomialHash) (empty ⟨1, some 10⟩)
        (turns (goalPlan "Sort") (goalPlan "Mail"))).1 = [some default, none, none] := by
  have hne : keyOf polynomialHash (goalPlan "Sort") ≠ keyOf polynomialHash (goalPlan "Mail") := by
    decide +kernel
  have hplans : goalPlan "Sort" ≠ goalPlan "Mail" := fun heq =>
    hne (congrArg (keyOf polynomialHash) heq)
  have hkeys : KeysDistinct polynomialHash
      (CacheCall.plansOf (turns (goalPlan "Sort") (goalPlan "Mail"))) := by
    simp [KeysDistinct, turns, CacheCall.plansOf, CacheCall.plan?, hne, hne.symm]
  refine ⟨hkeys, (serve_eq_serve_lruList ⟨1, some 10⟩ hkeys).1.trans ?_⟩
  simp [turns, serve, LruList.handle, LruList.get, LruList.insert, LruList.empty,
    LruList.without, LruList.IsFresh, hplans, hplans.symm]

end Calls
end Cache

end PlanFlow
