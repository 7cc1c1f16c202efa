import PlanFlow.Proofs.Graph.LongestChain
import PlanFlow.Proofs.RuntimeInput
import PlanFlow.Proofs.Rule.Reading

/-!
# Workflows that are read again

A workflow is read as it was written if its steps are, and if its counts are machine words.  What is
compiled from a plan that was read of a document has such steps, and no count in it is larger than
the number of its steps.
-/

namespace PlanFlow

open Record.Restores (required optional withDefault listOf listUnlessEmpty)

/-! ## The parts of a workflow -/

/-- A count is a machine word. -/
def Counted (n : Nat) : Prop := n < UInt64.size

theorem CriticalPath.reads_encode {c : CriticalPath} (h : Counted c.length) :
    decode.Reads c.encode c := by
  have hfields := ((required "steps" (.strings c.steps)).map CriticalPath.mk)
    |>.seq (required "length" (.usize h))
  exact hfields.reads (by decide) _

theorem Batch.reads_encode {b : Batch} (h : Counted b.depth) : decode.Reads b.encode b := by
  have hfields := ((required "depth" (.usize h)).map Batch.mk)
    |>.seq (required "step_ids" (.strings b.steps))
  exact hfields.reads (by decide) _

/-- The counts of a schedule are machine words, and its depths stand in order. -/
structure Schedule.Readable (s : Schedule) : Prop where
  path : Counted s.criticalPath.length
  maxDepth : Counted s.maxDepth
  batches : ∀ b ∈ s.batches, Counted b.depth
  sorted : s.depths.Sorted
  depths : ∀ entry ∈ s.depths, Counted entry.2

theorem Schedule.reads_encode {s : Schedule} (h : s.Readable) : decode.Reads s.encode s := by
  have hfields := ((required "topological_order" (.strings s.order)).map Schedule.mk)
    |>.seq (required "critical_path" (CriticalPath.reads_encode h.path))
    |>.seq (required "max_depth" (.usize h.maxDepth))
    |>.seq (required "parallel_batches" (.list fun b hb => b.reads_encode (h.batches b hb)))
    |>.seq (required "depths" (.map h.sorted fun entry hentry => .usize (h.depths entry hentry)))
  exact hfields.reads (by decide) _

theorem Metadata.reads_encode {m : Metadata} (hsteps : Counted m.stepCount)
    (hai : Counted m.aiStepCount) : decode.Reads m.encode m := by
  have hfields := ((required "rule_used" (.text m.rule)).map Metadata.mk)
    |>.seq (required "workflow_type" (.text m.workflowType))
    |>.seq (required "step_count" (.usize hsteps))
    |>.seq (required "ai_step_count" (.usize hai))
    |>.seq (required "deterministic_step_percentage" (.f64 m.deterministicShare))
    |>.seq (required "compilation_time_ms" (.f64 m.time))
    |>.seq (required "ir_version" (.text m.planVersion))
    |>.seq (required "compiler_version" (.text m.compilerVersion))
  exact hfields.reads (by decide) _

theorem DiagnosticLevel.reads_name (l : DiagnosticLevel) : decode.Reads (.string l.name) l :=
  .choice (by decide) (by cases l <;> simp [all])

theorem Diagnostic.reads_encode (d : Diagnostic) : decode.Reads d.encode d := by
  obtain ⟨_, hids⟩ := listUnlessEmpty "ids" (.strings d.ids)
  have hfields := ((required "level" d.level.reads_name).map Diagnostic.mk)
    |>.seq (required "code" (.text d.code)) |>.seq (required "message" (.text d.message))
    |>.seq hids
  exact hfields.reads (by decide) _

theorem Profile.reads_encode (p : Profile) : decode.Reads p.encode p := by
  obtain ⟨_, hedgeCases⟩ := listUnlessEmpty "edge_cases"
    (.list fun e (_ : e ∈ p.edgeCases) => e.reads_encode)
  have hfields := ((required "agent_name" (.text p.agentName)).map Profile.mk)
    |>.seq (required "description" (.text p.description))
    |>.seq (required "workflow_type" (.text p.workflowType))
    |>.seq (required "suggested_plugins" (.strings p.plugins))
    |>.seq (required "required_inputs" (.strings p.inputs))
    |>.seq (required "suggested_outputs" (.strings p.outputs)) |>.seq hedgeCases
  exact hfields.reads (by decide) _

/-- A workflow is read as it was written if its parts are. -/
theorem Workflow.reads_encode {w : Workflow}
    (hsteps : ∀ s ∈ w.steps, Step.decode.Reads s.encode s)
    (hmetadata : Metadata.decode.Reads w.metadata.encode w.metadata)
    (hschedule : w.schedule.Readable) : decode.Reads w.encode w := by
  have hfields := ((required "workflow_steps" (.list hsteps)).map Workflow.mk)
    |>.seq (required "dsl_wrapper" w.profile.reads_encode)
    |>.seq (required "metadata" hmetadata)
    |>.seq (required "execution_plan" (Schedule.reads_encode hschedule))
    |>.seq (listOf "warnings" (.list fun d (_ : d ∈ w.warnings) => d.reads_encode))
  exact hfields.reads (by decide) _

/-! ## Compiled workflows -/

/-- The workflow with the time that its compilation took. -/
def Workflow.timed (w : Workflow) (time : Binary64) : Workflow :=
  { w with metadata := { w.metadata with time := time } }

open StepGraph in
/-- The counts in the schedule of a valid list are no larger than the number of its steps. -/
theorem StepGraph.readable_scheduleOf {steps : List Step} (hvalid : allErrors steps = [])
    (hlength : steps.length < UInt64.size) : (scheduleOf steps).Readable := by
  obtain ⟨hpath, hdepth⟩ := criticalPath_length_le hvalid
  have hcounted : ∀ {depth}, depth ≤ (scheduleOf steps).maxDepth → Counted depth := fun hle =>
    lt_of_le_of_lt (hle.trans hdepth) hlength
  refine ⟨lt_of_le_of_lt hpath hlength, hcounted le_rfl, fun b hb => ?_, Entries.sorted_ofList _,
    fun entry hentry => ?_⟩
  · obtain ⟨depth, hdepth, hsome⟩ := List.mem_filterMap.mp hb
    dsimp only at hsome
    split at hsome
    · obtain rfl := Option.some.inj hsome
      exact hcounted (Nat.le_of_lt_succ (List.mem_range.mp hdepth))
    · cases hsome
  · obtain ⟨i, hi, rfl⟩ := List.mem_map.mp (Entries.mem_of_mem_ofList hentry)
    exact hcounted (depthAt_le_maxDepth _ hi)

namespace Compiler

variable {c : Compiler} {p : Plan} {w : Workflow}

/-- A workflow that built-in rules made from a plan that was read of a document is read again from
what is written of it, whatever time the compilation took, and so is each of its steps.  A machine
word counts its steps, as it does those of every list in memory. -/
theorem workflow_reads_again {mode : ReadMode} {node : Node}
    (hread : Plan.decode mode node = .ok p) (hrules : ∀ r ∈ c.rules.rules, r ∈ Rule.builtIn)
    (hw : c.compile p = .success w) (hlength : w.steps.length < UInt64.size) (time : Binary64) :
    Workflow.decode.ofValue (w.timed time).encode.canonical = .ok (w.timed time) ∧
      ∀ s ∈ w.steps, Step.decode.ofValue s.encode.canonical = .ok s := by
  obtain ⟨r, hr, haccepts, hvalid, hemitted, hgraph, hschedule⟩ :=
    exists_builtIn_of_success hrules hw
  obtain ⟨_, hmakes⟩ := exists_makes_of_success hw
  have hsteps : ∀ s ∈ w.steps, Step.decode.Reads s.encode s := fun s hs =>
    Rule.reads_encode_of_mem_steps (Plan.decode_gives mode node p hread)
      (Plan.sound_of_errors hvalid) hr haccepts hemitted hs
  refine ⟨Workflow.reads_encode hsteps (Metadata.reads_encode ?_ ?_) ?_, hsteps⟩
  · show Counted w.metadata.stepCount
    rw [hmakes.metadata]
    exact hlength
  · show Counted w.metadata.aiStepCount
    rw [hmakes.metadata]
    exact lt_of_le_of_lt List.countP_le_length hlength
  · show w.schedule.Readable
    rw [hschedule]
    exact StepGraph.readable_scheduleOf hgraph hlength

theorem workflow_reads_again_sortNew :
    ∃ w, Plan.decode .buffered (.ofValue (leadsPlan sortNew).encode.canonical) =
        .ok (leadsPlan sortNew) ∧
      (∀ r ∈ (standard leadsCatalog).rules.rules, r ∈ Rule.builtIn) ∧
      (standard leadsCatalog).compile (leadsPlan sortNew) = .success w ∧
      w.steps.length < UInt64.size ∧
      Workflow.decode.ofValue (w.timed (.ofNat 3)).encode.canonical =
        .ok (w.timed (.ofNat 3)) := by
  obtain ⟨w, hw, hsteps⟩ := exists_leadsWorkflow sortNew (by decide +kernel) rfl
    (by decide +kernel) (by decide +kernel) (by decide +kernel)
  have hrules : ∀ r ∈ (standard leadsCatalog).rules.rules, r ∈ Rule.builtIn := fun _ hr => hr
  have hread : Plan.decode .buffered (.ofValue (leadsPlan sortNew).encode.canonical) =
      .ok (leadsPlan sortNew) := by
    refine Plan.reads_encode ⟨?_, nofun, ?_, nofun, nofun, nofun, ?_⟩
    · simp [leadsPlan, Entries.Canonical.nil]
    · simp [leadsPlan, sortNew, Entries.Canonical.nil]
    · simp [leadsPlan, Entries.Canonical.nil]
  have hlength : w.steps.length < UInt64.size := by
    rw [hsteps]
    decide +kernel
  exact ⟨w, hread, hrules, hw, hlength, (workflow_reads_again hread hrules hw hlength _).1⟩

end Compiler
end PlanFlow
