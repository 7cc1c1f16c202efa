import PlanFlow.Proofs.Cache.Mirror
import PlanFlow.Proofs.Checks

/-!
# Where cached workflows come from

A cache keeps workflows by their plans only, and any compiler may be used with it.  So what is found
for a plan is what the compiler that stored a workflow for it last has made of it.  That is the
workflow of the compiler at hand if all compilers that stored the plan agree with it; compilers with
different catalogs need not.

A plan that is missing is compiled and then stored.  Other uses of the cache may come between
looking it up and storing it, so the two are told apart in a history.
-/

namespace PlanFlow

/-- A use of a cache that takes effect at once.  Storing is about compiling a plan, and keeping the
workflow if there is one. -/
inductive CacheUse where
  | lookUp (plan : Plan)
  | store (compiler : Compiler) (plan : Plan)
  | invalidate (plan : Plan)
  | clear

namespace CacheUse

/-- The call of the cache that is made by a use. -/
def call? : CacheUse → Option (CacheCall Plan)
  | .lookUp plan => some (.get plan)
  | .store compiler plan =>
    match compiler.compile plan with
    | .success w => some (.insert plan w)
    | .failure _ _ => none
  | .invalidate plan => some (.invalidate plan)
  | .clear => some .clear

/-- The calls that are made by uses at some times. -/
def callsOf (uses : List (CacheUse × Nat)) : List (CacheCall Plan × Nat) :=
  uses.filterMap fun use => use.1.call?.map (·, use.2)

theorem call?_eq_insert_iff {use : CacheUse} {p : Plan} {w : Workflow} :
    use.call? = some (.insert p w) ↔
      ∃ compiler, use = .store compiler p ∧ compiler.compile p = .success w := by
  cases use with
  | store compiler plan =>
      simp only [call?, store.injEq]
      split
      · rename_i made hmade
        constructor
        · intro h
          obtain ⟨rfl, rfl⟩ := CacheCall.insert.inj (Option.some.inj h)
          exact ⟨compiler, ⟨rfl, rfl⟩, hmade⟩
        · rintro ⟨_, ⟨rfl, rfl⟩, hw⟩
          rw [Outcome.success.inj (hmade.symm.trans hw)]
      · rename_i hfails
        constructor
        · nofun
        · rintro ⟨_, ⟨rfl, rfl⟩, hw⟩
          cases hfails.symm.trans hw
  | lookUp plan => simp [call?]
  | invalidate plan => simp [call?]
  | clear => simp [call?]

/-- Behind a call that stores a workflow is a use of a compiler that made it, and later calls are
those of later uses. -/
theorem exists_store_of_callsOf {uses : List (CacheUse × Nat)} {p : Plan} {w : Workflow}
    {stored : Nat} {before later : List (CacheCall Plan × Nat)}
    (h : callsOf uses = before ++ (.insert p w, stored) :: later) :
    ∃ compiler usesBefore usesLater,
      uses = usesBefore ++ (.store compiler p, stored) :: usesLater ∧
        compiler.compile p = .success w ∧ callsOf usesLater = later := by
  obtain ⟨first, second, rfl, -, hsecond⟩ := List.filterMap_eq_append_iff.mp h
  obtain ⟨skipped, ⟨use, time⟩, usesLater, rfl, -, hmade, hlater⟩ :=
    List.filterMap_eq_cons_iff.mp hsecond
  obtain ⟨call, hcall, heq⟩ := Option.map_eq_some_iff.mp hmade
  obtain ⟨rfl, rfl⟩ := Prod.mk.inj heq
  obtain ⟨compiler, rfl, hw⟩ := call?_eq_insert_iff.mp hcall
  exact ⟨compiler, first ++ skipped, usesLater, by simp, hw, hlater⟩

end CacheUse

namespace Cache

open CacheUse (callsOf)

/-- The cache after a history of uses, empty at first. -/
def after (hash : String → UInt64) (limits : CacheLimits) (uses : List (CacheUse × Nat)) : Cache :=
  (serve (handle hash) (empty limits) (callsOf uses)).2

/-- The outcome of looking a plan up, and compiling it if it is missing, is that of the compiler at
hand or what is found. -/
theorem getOrCompile_fst (hash : String → UInt64) (c : Cache) (compiler : Compiler) (p : Plan)
    (now : Nat) :
    (c.getOrCompile hash compiler p now).1 = compiler.compile p ∨
      ∃ w, (c.get hash p now).1 = some w ∧
        (c.getOrCompile hash compiler p now).1 = .success w := by
  unfold getOrCompile
  split
  · rename_i w _ hget
    exact .inr ⟨w, by rw [hget], rfl⟩
  · refine .inl ?_
    split
    · rename_i hw
      exact hw.symm
    · rename_i hfails
      exact hfails.symm

section History

variable {hash : String → UInt64} {limits : CacheLimits} {uses : List (CacheUse × Nat)} {p : Plan}
  {w : Workflow} {now : Nat}

/-- What is found for a plan was made of it by the compiler that stored it last, within the
lifetime. -/
theorem exists_store_of_get (hkeys : KeysDistinct hash (p :: CacheCall.plansOf (callsOf uses)))
    (h : ((after hash limits uses).get hash p now).1 = some w) :
    ∃ compiler stored before later, uses = before ++ (.store compiler p, stored) :: later ∧
      compiler.compile p = .success w ∧
      (∀ call ∈ callsOf later, ¬call.1.Discards p) ∧
      ∀ lifetime ∈ limits.lifetime, now - stored < lifetime := by
  let l := (serve LruList.handle (.empty limits) (callsOf uses)).2
  have hmirrors : (after hash limits uses).Mirrors hash l :=
    (mirrors_serve limits fun p hp q hq =>
      hkeys p (List.mem_cons_of_mem _ hp) q (List.mem_cons_of_mem _ hq)).2
  have hlimits : l.limits = limits :=
    (LruList.serve_wellFormed (LruList.wellFormed_empty limits) (callsOf uses)).2.1
  have horigin (item : LruItem Plan) (hitem : item ∈ l.items) :=
    (LruList.mem_items_serve hitem).resolve_right fun h => absurd h.1 List.not_mem_nil
  have hplans : ∀ item ∈ l.items, item.key hash = keyOf hash p → item.plan = p := by
    intro item hitem hkey
    obtain ⟨before, later, hsplit, -⟩ := horigin item hitem
    refine hkeys item.plan (List.mem_cons_of_mem _ ?_) p List.mem_cons_self hkey
    rw [hsplit]
    simp [CacheCall.plansOf, CacheCall.plan?]
  rw [(hmirrors.get hplans now).1] at h
  obtain ⟨item, hitem, rfl, rfl, hfresh⟩ := LruList.exists_item_of_get h
  obtain ⟨before, later, hsplit, hlater⟩ := horigin item hitem
  obtain ⟨compiler, usesBefore, usesLater, huses, hw, rfl⟩ :=
    CacheUse.exists_store_of_callsOf hsplit
  exact ⟨compiler, item.storedAt, usesBefore, usesLater, huses, hw, hlater, hlimits ▸ hfresh⟩

/-- Looking a plan up, and compiling it if it is missing, makes one or two uses of a cache. -/
theorem getOrCompile_snd (hash : String → UInt64) (limits : CacheLimits)
    (uses : List (CacheUse × Nat)) (compiler : Compiler) (p : Plan) (now : Nat) :
    ((after hash limits uses).getOrCompile hash compiler p now).2 =
      after hash limits (uses ++ (.lookUp p, now) ::
        if ((after hash limits uses).get hash p now).1.isSome then []
        else [(.store compiler p, now)]) := by
  have happend (more : List (CacheUse × Nat)) :
      after hash limits (uses ++ more) =
        (serve (handle hash) (after hash limits uses) (callsOf more)).2 := by
    simp only [after, callsOf, List.filterMap_append, serve_append]
  rw [happend]
  unfold getOrCompile
  split
  · rename_i hget
    simp [hget, callsOf, CacheUse.call?, serve, handle]
  · rename_i hget
    cases hcompile : compiler.compile p <;>
      simp [hget, hcompile, callsOf, CacheUse.call?, serve, handle]

/-- With a hash that tells the plans at hand apart, the outcome of looking a plan up, and compiling
it if it is missing, is that of the compiler at hand, or the workflow that was made of the plan by
the compiler that stored it last, within the lifetime.  So it is that of the compiler at hand if all
compilers that stored the plan agree with it.  The cache is then as after one or two more uses. -/
theorem getOrCompile_origin (hkeys : KeysDistinct hash (p :: CacheCall.plansOf (callsOf uses)))
    (compiler : Compiler) (now : Nat) :
    let c := after hash limits uses
    let outcome := (c.getOrCompile hash compiler p now).1
    (outcome = compiler.compile p ∨
      ∃ other stored before later w, uses = before ++ (.store other p, stored) :: later ∧
        other.compile p = .success w ∧ outcome = .success w ∧
        (∀ call ∈ callsOf later, ¬call.1.Discards p) ∧
        ∀ lifetime ∈ limits.lifetime, now - stored < lifetime) ∧
    ((∀ other stored w, (.store other p, stored) ∈ uses → other.compile p = .success w →
        compiler.compile p = .success w) → outcome = compiler.compile p) ∧
    (c.getOrCompile hash compiler p now).2 = after hash limits (uses ++ (.lookUp p, now) ::
      if (c.get hash p now).1.isSome then [] else [(.store compiler p, now)]) := by
  intro c outcome
  have huse := getOrCompile_snd hash limits uses compiler p now
  rcases getOrCompile_fst hash c compiler p now with hcompiled | ⟨w, hget, hfound⟩
  · exact ⟨.inl hcompiled, fun _ => hcompiled, huse⟩
  · obtain ⟨other, stored, before, later, huses, hw, hlater, hfresh⟩ :=
      exists_store_of_get hkeys hget
    refine ⟨?_, ?_, huse⟩
    · exact .inr ⟨other, stored, before, later, w, huses, hw, hfound, hlater, hfresh⟩
    · intro hagree
      have hstore : (.store other p, stored) ∈ uses := by simp [huses]
      exact hfound.trans (hagree other stored w hstore hw).symm

end History

/-! ## Two compilers and one cache -/

open Compiler (leadsCatalog leadsPlan)

/-- The leads are mailed by a compiler whose catalog has what they need. -/
theorem exists_leads :
    ∃ w, (Compiler.standard leadsCatalog).compile (leadsPlan []) = .success w := by
  obtain ⟨w, hw, -⟩ := Compiler.exists_leadsWorkflow [] (by decide +kernel) rfl (by decide +kernel)
    (by decide +kernel) (by decide +kernel)
  exact ⟨w, hw⟩

/-- A compiler finds what it has stored itself. -/
theorem getOrCompile_origin_leads :
    let compiler := Compiler.standard leadsCatalog
    let uses : List (CacheUse × Nat) := [(.store compiler (leadsPlan []), 0)]
    KeysDistinct polynomialHash (leadsPlan [] :: CacheCall.plansOf (callsOf uses)) ∧
      ((after polynomialHash default uses).getOrCompile polynomialHash compiler
        (leadsPlan []) 5).1 = compiler.compile (leadsPlan []) := by
  intro compiler uses
  obtain ⟨w, hw⟩ := exists_leads
  have hkeys : KeysDistinct polynomialHash
      (leadsPlan [] :: CacheCall.plansOf (callsOf uses)) := by
    simp [KeysDistinct, uses, compiler, callsOf, CacheUse.call?, hw, CacheCall.plansOf,
      CacheCall.plan?]
  refine ⟨hkeys, (getOrCompile_origin hkeys compiler 5).2.1 ?_⟩
  intro other stored w' hstore hw'
  obtain ⟨⟨rfl, -⟩, -⟩ : (other = compiler ∧ True) ∧ stored = 0 := by simpa [uses] using hstore
  exact hw'

/-- A catalog without plugins. -/
def emptyCatalog : Catalog := ⟨[]⟩

/-- A compiler whose catalog has nothing that could be called finds what another one has stored. -/
theorem getOrCompile_of_other_catalog :
    let c :=
      ((empty default).getOrCompile polynomialHash (.standard leadsCatalog) (leadsPlan []) 0).2
    ∃ w, (c.getOrCompile polynomialHash (.standard emptyCatalog) (leadsPlan []) 5).1 = .success w ∧
      ∀ w', (Compiler.standard emptyCatalog).compile (leadsPlan []) ≠ .success w' := by
  intro c
  obtain ⟨w, hw⟩ := exists_leads
  refine ⟨w, ?_, fun w' hw' => ?_⟩
  · simp [c, getOrCompile, get, hw, empty, insert, touch, dropEntry, evict, isExpired, default]
  · have herrors : (Compiler.standard emptyCatalog).stepErrors (Compiler.leadsSteps []) ≠ [] :=
      fun h => absurd (Compiler.stepErrors_eq_nil_iff.mp h).1 (by decide +kernel)
    rw [Compiler.compile_eq_finish (by decide +kernel) (Compiler.select_leadsPlan []) rfl] at hw'
    obtain ⟨_, hfails⟩ := Compiler.finish_of_errors (leadsPlan []) Rule.simple
      (Filter.warnings (leadsPlan []).filters) herrors
    cases hfails.symm.trans hw'

end Cache
end PlanFlow
