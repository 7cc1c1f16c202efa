import PlanFlow.Proofs.Compiler
import PlanFlow.Proofs.Graph.Schedule

/-!
# The stages of a compilation

A compilation fails at one stage and reports all that this stage finds, or it succeeds with steps in
which no stage found anything.  This holds for every catalog, all settings and every rule book: a
rule may emit any steps, and only the checks that follow decide whether they become a workflow.  The
schedule of a workflow is that of the very steps that it has.
-/

namespace PlanFlow

open StepGraph (Precedes)

/-- The first rule of a book that accepts a plan. -/
def RuleBook.Chooses (b : RuleBook) (p : Plan) (r : Rule) : Prop :=
  ∃ before after, b.ordered = before ++ r :: after ∧ r.accepts p = true ∧
    ∀ earlier ∈ before, earlier.accepts p = false

theorem RuleBook.select_eq_ok_iff {b : RuleBook} {p : Plan} {r : Rule} :
    b.select p = .ok r ↔ b.Chooses p r := by
  have hfind : b.select p = .ok r ↔ (b.ordered.find? fun r => r.accepts p) = some r := by
    rw [select]
    cases b.ordered.find? fun r => r.accepts p with
    | none => simp
    | some found => simp
  rw [hfind, List.find?_eq_some_iff_append]
  constructor
  · rintro ⟨haccepts, before, after, hsplit, hbefore⟩
    exact ⟨before, after, hsplit, haccepts, fun earlier hmem => by simpa using hbefore earlier hmem⟩
  · rintro ⟨before, after, hsplit, haccepts, hbefore⟩
    exact ⟨haccepts, before, after, hsplit, fun earlier hmem => by simpa using hbefore earlier hmem⟩

theorem RuleBook.mem_ordered {b : RuleBook} {r : Rule} : r ∈ b.ordered ↔ r ∈ b.rules :=
  List.mem_mergeSort

theorem RuleBook.select_eq_error_iff {b : RuleBook} {p : Plan} {e : PlanError} :
    b.select p = .error e ↔ (∀ r ∈ b.rules, r.accepts p = false) ∧ e = .noMatchingRule p.shape := by
  rw [select]
  cases hfind : b.ordered.find? fun r => r.accepts p with
  | none =>
      have hnone : ∀ r ∈ b.rules, r.accepts p = false := fun r hr => by
        simpa using List.find?_eq_none.mp hfind r (mem_ordered.mpr hr)
      exact ⟨fun h => ⟨hnone, (Except.error.inj h).symm⟩, fun h => congrArg _ h.2.symm⟩
  | some found =>
      have haccepts := List.find?_some hfind
      have hmem := List.mem_of_find?_eq_some hfind
      simp only [reduceCtorEq, false_iff, not_and]
      intro hall
      exact absurd (hall found (mem_ordered.mp hmem)) (by simpa using haccepts)

theorem RuleBook.Chooses.mem {b : RuleBook} {p : Plan} {r : Rule} (h : b.Chooses p r) :
    r ∈ b.rules := by
  obtain ⟨before, after, hsplit, -⟩ := h
  have hmem : r ∈ b.ordered := by simp [hsplit]
  exact mem_ordered.mp hmem

theorem RuleBook.Chooses.accepts {b : RuleBook} {p : Plan} {r : Rule} (h : b.Chooses p r) :
    r.accepts p = true := by
  obtain ⟨_, _, -, haccepts, -⟩ := h
  exact haccepts

theorem Rule.before_iff {a b : Rule} :
    Rule.before a b = true ↔
      a.priority < b.priority ∨ a.priority = b.priority ∧ a.name ≤ b.name := by
  simp [Rule.before]

theorem Rule.before_trans {a b c : Rule} (hab : Rule.before a b = true)
    (hbc : Rule.before b c = true) : Rule.before a c = true := by
  rw [before_iff] at *
  rcases hab with hab | ⟨hab, hname⟩
  · rcases hbc with hbc | ⟨hbc, -⟩
    · exact .inl (hab.trans hbc)
    · exact .inl (hbc ▸ hab)
  · rcases hbc with hbc | ⟨hbc, hname'⟩
    · exact .inl (hab ▸ hbc)
    · exact .inr ⟨hab.trans hbc, String.le_trans hname hname'⟩

theorem Rule.before_total (a b : Rule) : (Rule.before a b || Rule.before b a) = true := by
  rw [Bool.or_eq_true, before_iff, before_iff]
  rcases Nat.lt_trichotomy a.priority b.priority with hlt | heq | hlt
  · exact .inl (.inl hlt)
  · rcases String.le_total a.name b.name with hname | hname
    · exact .inl (.inr ⟨heq, hname⟩)
    · exact .inr (.inr ⟨heq.symm, hname⟩)
  · exact .inr (.inl hlt)

/-- Of the rules that accept a plan, the one that is chosen has the lowest priority, and of those
the first name. -/
theorem RuleBook.Chooses.before {b : RuleBook} {p : Plan} {r : Rule} (h : b.Chooses p r)
    {other : Rule} (hother : other ∈ b.rules) (haccepts : other.accepts p = true) :
    Rule.before r other = true := by
  obtain ⟨before, after, hsplit, -, hnone⟩ := h
  have hsorted : b.ordered.Pairwise fun a b => Rule.before a b = true :=
    @List.pairwise_mergeSort _ Rule.before (fun _ _ _ => Rule.before_trans) Rule.before_total _
  have hmem : other ∈ before ++ r :: after := hsplit ▸ mem_ordered.mpr hother
  rw [hsplit, List.pairwise_append, List.pairwise_cons] at hsorted
  rcases List.mem_append.mp hmem with hmem | hmem
  · rw [hnone other hmem] at haccepts
    cases haccepts
  · rcases List.mem_cons.mp hmem with rfl | hmem
    · exact (Bool.or_self _).symm.trans (Rule.before_total other other)
    · exact hsorted.2.1.1 other hmem

namespace Compiler

/-! ## Calls -/

/-- Whether a step calls what the catalog does not have. -/
def Offends (catalog : Capabilities) (s : Step) : Bool :=
  match s.work with
  | .action plugin operation _ =>
    !(catalog.hasPlugin plugin && catalog.hasOperation plugin operation)
  | _ => false

/-- What is reported about a step that calls what the catalog does not have. -/
inductive CallFault (catalog : Capabilities) (s : Step) : PlanError → Prop
  | plugin {plugin operation : String} {params : Entries Value}
      (hcall : s.work = .action plugin operation params)
      (hmissing : catalog.hasPlugin plugin = false) :
      CallFault catalog s (.unknownPlugin s.id plugin)
  | operation {plugin operation : String} {params : Entries Value}
      (hcall : s.work = .action plugin operation params)
      (hplugin : catalog.hasPlugin plugin = true)
      (hmissing : catalog.hasOperation plugin operation = false) :
      CallFault catalog s (.unknownOperation s.id plugin operation)

/-- One error is reported about a step that offends, and none about any other. -/
theorem callErrors_spec (catalog : Capabilities) (s : Step) :
    if Offends catalog s then ∃ e, callErrors catalog s = [e] ∧ CallFault catalog s e
    else callErrors catalog s = [] := by
  cases hcall : s.work with
  | action plugin operation params =>
      simp only [Offends, callErrors, hcall]
      cases hplugin : catalog.hasPlugin plugin with
      | false => exact ⟨_, rfl, .plugin hcall hplugin⟩
      | true =>
          cases hoperation : catalog.hasOperation plugin operation with
          | false => exact ⟨_, rfl, .operation hcall hplugin hoperation⟩
          | true => rfl
  | ai | transform | conditional | loop => simp [Offends, callErrors, hcall]

/-- The errors about calls are one for each step that offends, in the order of the steps. -/
theorem forall₂_callFault (catalog : Capabilities) (steps : List Step) :
    List.Forall₂ (CallFault catalog) (steps.filter (Offends catalog))
      (steps.flatMap (callErrors catalog)) := by
  induction steps with
  | nil => exact .nil
  | cons s rest ih =>
      have hspec := callErrors_spec catalog s
      rw [List.flatMap_cons]
      by_cases hoffends : Offends catalog s = true
      · rw [if_pos hoffends] at hspec
        obtain ⟨e, heq, hfault⟩ := hspec
        rw [List.filter_cons_of_pos hoffends, heq]
        exact .cons hfault ih
      · rw [if_neg hoffends] at hspec
        rw [List.filter_cons_of_neg hoffends, hspec]
        exact ih

/-- No error about calls: every action is in the catalog. -/
theorem mem_catalog_of_callErrors_eq_nil {catalog : Capabilities} {s : Step}
    (h : callErrors catalog s = []) {plugin operation : String} {params : Entries Value}
    (hcall : s.work = .action plugin operation params) :
    catalog.hasPlugin plugin = true ∧ catalog.hasOperation plugin operation = true := by
  have hspec := callErrors_spec catalog s
  by_cases hoffends : Offends catalog s = true
  · rw [if_pos hoffends, h] at hspec
    obtain ⟨_, hnil, -⟩ := hspec
    cases hnil
  · simpa [Offends, hcall] using hoffends

/-! ## The last stages -/

variable {c : Compiler} {p : Plan} {r : Rule} {steps : List Step}

/-- The errors that the last two stages report together. -/
def stepErrors (c : Compiler) (steps : List Step) : List PlanError :=
  steps.flatMap (callErrors c.catalog) ++ (Validation.ofSteps c.settings steps).errors.map .graph

theorem stepErrors_eq_nil_iff :
    c.stepErrors steps = [] ↔
      (∀ s ∈ steps, callErrors c.catalog s = []) ∧ StepGraph.allErrors steps = [] := by
  rw [stepErrors, List.append_eq_nil_iff, List.flatMap_eq_nil_iff, List.map_eq_nil_iff,
    Validation.errors_ofSteps]

/-- The workflow of steps that a rule emitted without errors, after some warnings. -/
def workflowOf (c : Compiler) (p : Plan) (r : Rule) (warnings : List Warning) (steps : List Step) :
    Workflow where
  steps := steps
  profile := .ofPlan p steps r.workflowType
  metadata := .describe steps r.name r.workflowType p.version
  schedule := StepGraph.scheduleOf steps
  warnings := (warnings ++ steps.flatMap (callWarnings c.catalog) ++
    (Validation.ofSteps c.settings steps).warnings).map .ofWarning

/-- Steps without errors become a workflow, with their own schedule. -/
theorem finish_of_no_errors (p : Plan) (r : Rule) (warnings : List Warning)
    (h : c.stepErrors steps = []) :
    c.finish p r warnings steps = .success (c.workflowOf p r warnings steps) := by
  obtain ⟨hcalls, hgraph⟩ := stepErrors_eq_nil_iff.mp h
  have hnone : steps.flatMap (callErrors c.catalog) = [] := List.flatMap_eq_nil_iff.mpr hcalls
  rw [finish, workflowOf, Validation.ofSteps_of_no_errors hgraph]
  simp only [hnone, List.isEmpty_nil, if_true]
  rfl

/-- Steps with errors become none, and all their errors are reported. -/
theorem finish_of_errors (p : Plan) (r : Rule) (warnings : List Warning)
    (h : c.stepErrors steps ≠ []) :
    ∃ warnings', c.finish p r warnings steps = .failure (c.stepErrors steps) warnings' := by
  rw [finish, stepErrors]
  cases hvalidation : Validation.ofSteps c.settings steps with
  | invalid errors => exact ⟨_, rfl⟩
  | valid schedule graphWarnings =>
      have hcalls : steps.flatMap (callErrors c.catalog) ≠ [] := by
        intro hnil
        rw [stepErrors, hvalidation, hnil] at h
        exact h rfl
      simp only [Validation.errors, List.map_nil, List.append_nil, List.isEmpty_iff, hcalls,
        if_false]
      exact ⟨_, rfl⟩

/-! ## Outcomes -/

/-- A workflow was made from a plan by a rule: the plan has no errors, the rule is the first that
accepts it, the steps are all that the rule emitted and have no errors, and everything else in the
workflow is what these determine. -/
structure Makes (c : Compiler) (p : Plan) (r : Rule) (w : Workflow) : Prop where
  valid : p.errors c.settings = []
  chosen : c.rules.Chooses p r
  emitted : r.steps p c.settings = .ok w.steps
  noErrors : c.stepErrors w.steps = []
  record : w = c.workflowOf p r (Filter.warnings p.filters) w.steps

/-- The stages at which a compilation fails, each with all the errors that it reports: those of the
plan, that no rule accepts it, that the chosen rule gives up, or one for each step that offends
followed by all defects of the graph of the steps. -/
inductive Fails (c : Compiler) (p : Plan) : List PlanError → Prop
  | plan (hinvalid : p.errors c.settings ≠ []) : Fails c p (p.errors c.settings)
  | selection (hvalid : p.errors c.settings = [])
      (hnone : ∀ r ∈ c.rules.rules, r.accepts p = false) :
      Fails c p [.noMatchingRule p.shape]
  | emission {r : Rule} {e : PlanError} (hvalid : p.errors c.settings = [])
      (hchosen : c.rules.Chooses p r) (hsteps : r.steps p c.settings = .error e) : Fails c p [e]
  | validation {r : Rule} {steps : List Step} {faults : List PlanError}
      (hvalid : p.errors c.settings = []) (hchosen : c.rules.Chooses p r)
      (hsteps : r.steps p c.settings = .ok steps)
      (hfaults : List.Forall₂ (CallFault c.catalog) (steps.filter (Offends c.catalog)) faults)
      (hsome : faults ≠ [] ∨ (Validation.ofSteps c.settings steps).errors ≠ []) :
      Fails c p (faults ++ (Validation.ofSteps c.settings steps).errors.map .graph)

/-- How a compilation ends. -/
inductive Ends (c : Compiler) (p : Plan) : Outcome → Prop
  | success {r : Rule} {w : Workflow} (h : Makes c p r w) : Ends c p (.success w)
  | failure {errors : List PlanError} {warnings : List Warning} (hsome : errors ≠ [])
      (h : Fails c p errors) : Ends c p (.failure errors warnings)

theorem compile_of_plan_errors (hinvalid : p.errors c.settings ≠ []) :
    c.compile p = .failure (p.errors c.settings) (Filter.warnings p.filters) := by
  rw [compile, if_neg (by simpa using hinvalid)]

theorem compile_of_select_error {e : PlanError} (hvalid : p.errors c.settings = [])
    (hselect : c.rules.select p = .error e) :
    c.compile p = .failure [e] (Filter.warnings p.filters) := by
  rw [compile, hvalid, List.isEmpty_nil, if_pos rfl, hselect]

theorem compile_of_steps_error {e : PlanError} (hvalid : p.errors c.settings = [])
    (hselect : c.rules.select p = .ok r) (hsteps : r.steps p c.settings = .error e) :
    c.compile p = .failure [e] (Filter.warnings p.filters) := by
  rw [compile, hvalid, List.isEmpty_nil, if_pos rfl, hselect]
  simp only [hsteps]

/-- Steps that a rule emits without errors become the workflow of the plan. -/
theorem exists_makes (hvalid : p.errors c.settings = []) (hselect : c.rules.select p = .ok r)
    (hsteps : r.steps p c.settings = .ok steps) (hnone : c.stepErrors steps = []) :
    ∃ w, c.compile p = .success w ∧ w.steps = steps ∧ Makes c p r w :=
  ⟨_, (compile_eq_finish hvalid hselect hsteps).trans (finish_of_no_errors p r _ hnone), rfl,
    hvalid, RuleBook.select_eq_ok_iff.mp hselect, hsteps, hnone, rfl⟩

theorem compile_ends (c : Compiler) (p : Plan) : Ends c p (c.compile p) := by
  by_cases hvalid : p.errors c.settings = []
  · cases hselect : c.rules.select p with
    | error e =>
        obtain ⟨hnone, rfl⟩ := RuleBook.select_eq_error_iff.mp hselect
        rw [compile_of_select_error hvalid hselect]
        exact .failure (List.cons_ne_nil _ _) (.selection hvalid hnone)
    | ok r =>
        have hchosen := RuleBook.select_eq_ok_iff.mp hselect
        cases hsteps : r.steps p c.settings with
        | error e =>
            rw [compile_of_steps_error hvalid hselect hsteps]
            exact .failure (List.cons_ne_nil _ _) (.emission hvalid hchosen hsteps)
        | ok steps =>
            by_cases hnone : c.stepErrors steps = []
            · obtain ⟨w, hw, -, hmakes⟩ := exists_makes hvalid hselect hsteps hnone
              rw [hw]
              exact .success hmakes
            · obtain ⟨warnings, hw⟩ := finish_of_errors p r (Filter.warnings p.filters) hnone
              rw [compile_eq_finish hvalid hselect hsteps, hw]
              refine .failure hnone (.validation hvalid hchosen hsteps
                (forall₂_callFault _ steps) ?_)
              by_contra hboth
              rw [not_or, not_not, not_not] at hboth
              exact hnone (by rw [stepErrors, hboth.1, hboth.2]; rfl)
  · rw [compile_of_plan_errors hvalid]
    exact .failure hvalid (.plan hvalid)

theorem exists_makes_of_success {w : Workflow} (hw : c.compile p = .success w) :
    ∃ r, Makes c p r w := by
  have hends := compile_ends c p
  rw [hw] at hends
  cases hends with
  | success hmakes => exact ⟨_, hmakes⟩

theorem Makes.profile {w : Workflow} (h : Makes c p r w) :
    w.profile = .ofPlan p w.steps r.workflowType := congrArg Workflow.profile h.record

theorem Makes.metadata {w : Workflow} (h : Makes c p r w) :
    w.metadata = .describe w.steps r.name r.workflowType p.version :=
  congrArg Workflow.metadata h.record

theorem Makes.schedule {w : Workflow} (h : Makes c p r w) :
    w.schedule = StepGraph.scheduleOf w.steps := congrArg Workflow.schedule h.record

theorem Makes.allErrors_eq_nil {w : Workflow} (h : Makes c p r w) :
    StepGraph.allErrors w.steps = [] :=
  (stepErrors_eq_nil_iff.mp h.noErrors).2

/-- Steps whose calls the catalog has, and which stand after those that they wait for, become the
workflow of the plan. -/
theorem exists_workflow (hvalid : p.errors c.settings = []) (hselect : c.rules.select p = .ok r)
    (hsteps : r.steps p c.settings = .ok steps) (hcalls : ∀ s ∈ steps, callErrors c.catalog s = [])
    (hnodup : (steps.map Step.id).Nodup)
    (hlt : ∀ s ∈ steps, ∀ d ∈ s.dependencies,
      (steps.map Step.id).idxOf d < (steps.map Step.id).idxOf s.id) :
    ∃ w, c.compile p = .success w ∧ w.steps = steps ∧ w.schedule = StepGraph.scheduleOf steps := by
  have hgraph := StepGraph.allErrors_eq_nil_of_idxOf_lt hnodup hlt
  obtain ⟨w, hw, rfl, hmakes⟩ :=
    exists_makes hvalid hselect hsteps (stepErrors_eq_nil_iff.mpr ⟨hcalls, hgraph⟩)
  exact ⟨w, hw, rfl, hmakes.schedule⟩

/-- What holds of a plan that compiles to a workflow: the plan has no errors, the steps are those of
the first rule that accepts it, the catalog has every call, and the schedule is that of the steps,
which puts each step after all that it waits for. -/
structure Compiled (c : Compiler) (p : Plan) (w : Workflow) : Prop where
  valid : p.errors c.settings = []
  chosen : ∃ r, c.rules.Chooses p r ∧
    (∀ other ∈ c.rules.rules, other.accepts p = true → Rule.before r other = true) ∧
    w.metadata.rule = r.name ∧ r.steps p c.settings = .ok w.steps
  nodup : (w.steps.map Step.id).Nodup
  resolved : ∀ s ∈ w.steps, ∀ d ∈ s.dependencies, d ∈ w.steps.map Step.id
  acyclic : ∀ id, ¬Relation.TransGen (Precedes w.steps) id id
  calls : ∀ s ∈ w.steps, ∀ plugin operation params, s.work = .action plugin operation params →
    c.catalog.hasPlugin plugin = true ∧ c.catalog.hasOperation plugin operation = true
  scheduled : (Validation.ofSteps c.settings w.steps).schedule? = some w.schedule
  order_perm : w.schedule.order.Perm (w.steps.map Step.id)
  ordered : ∀ s ∈ w.steps, ∀ d ∈ s.dependencies, [d, s.id].Sublist w.schedule.order

theorem Makes.compiled {w : Workflow} (h : Makes c p r w) : Compiled c p w := by
  obtain ⟨hcalls, hgraph⟩ := stepErrors_eq_nil_iff.mp h.noErrors
  have hrule : w.metadata.rule = r.name := congrArg Metadata.rule h.metadata
  refine ⟨h.valid, ⟨r, h.chosen, fun _ => h.chosen.before, hrule, h.emitted⟩,
    StepGraph.nodup_of_valid hgraph, StepGraph.resolved_of_valid hgraph,
    StepGraph.acyclic_of_valid hgraph, ?_, ?_, ?_, ?_⟩
  · exact fun s hs _ _ _ hcall => mem_catalog_of_callErrors_eq_nil (hcalls s hs) hcall
  · rw [Validation.ofSteps_of_no_errors hgraph, h.schedule]
    rfl
  · rw [h.schedule]
    exact StepGraph.order_perm_ids hgraph
  · rw [h.schedule]
    exact fun s hs d hd => StepGraph.pair_sublist_order hgraph hs hd

/-- Every compilation, by any rules, ends with a workflow of checked steps, or with at least one
error: those of the first stage that finds any, and all that this stage finds. -/
theorem compile_outcome (c : Compiler) (p : Plan) :
    match c.compile p with
    | .success w => Compiled c p w
    | .failure errors _ => errors ≠ [] ∧ Fails c p errors := by
  have hends := compile_ends c p
  cases hcompile : c.compile p with
  | success w =>
      rw [hcompile] at hends
      cases hends with
      | success hmakes => exact hmakes.compiled
  | failure errors warnings =>
      rw [hcompile] at hends
      cases hends with
      | failure hsome hfails => exact ⟨hsome, hfails⟩

end Compiler
end PlanFlow
