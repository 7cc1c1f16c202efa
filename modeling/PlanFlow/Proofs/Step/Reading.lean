import PlanFlow.Proofs.Json.Flattened
import PlanFlow.Proofs.Plan.Reading
import PlanFlow.Step.Json

/-!
# Steps that are read again

A step of each of the five kinds is read as it was written, if what it holds is what documents hold.
Some of its fields are left out when they have nothing to say, and others are written as null or as
empty; both are read as what they stand for.
-/

namespace PlanFlow

open Record.Restores (required optional withDefault listOf)

/-! ## Fields that are left out -/

namespace Record.Restores

variable {α : Type} {decode : Decoder α} {a : α}

/-- A field is left out where it has its default. -/
theorem entry? (name : String) (default : α) {o : Option Value} (hnone : o = none → default = a)
    (hsome : ∀ v, o = some v → decode.Reads v a) :
    ∃ absent, (Record.withDefault name default decode).Restores (Work.entry? name o) absent a := by
  cases o with
  | none =>
      obtain rfl := hnone rfl
      exact ⟨[name], omitted name default decode⟩
  | some v => exact ⟨[], withDefault name default (hsome v rfl)⟩

/-- A list is left out where it is empty. -/
theorem listUnlessEmpty (name : String) {v : Value} {as : List α}
    (h : (Decoder.list decode).Reads v as) : ∃ absent, (Record.listOf name decode).Restores
      (if as.isEmpty then [] else [(name, v)]) absent as := by
  cases as with
  | nil => exact ⟨[name], omitted name [] _⟩
  | cons a rest => exact ⟨[], listOf name h⟩

end Record.Restores

theorem Work.entry?_ite (key : String) (v : Value) (c : Prop) [Decidable c] :
    Work.entry? key (if c then none else some v) = if c then [] else [(key, v)] := by
  split <;> rfl

/-! ## Work -/

/-- Work holds what documents hold. -/
def Work.Readable : Work → Prop
  | .action _ _ params => params.Canonical
  | .ai _ _ outputSchema _ => Value.Stated outputSchema
  | .transform _ _ config => config.Canonical
  | .conditional condition _ _ => Value.Stated condition.value
  | .loop _ _ _ maxIterations maxConcurrency => Limited maxIterations ∧ Limited maxConcurrency

theorem RowOperation.reads_name (o : RowOperation) : decode.Reads (.string o.name) o :=
  .choice (by decide) (by cases o <;> simp [all])

/-- A limit is left out where there is none. -/
theorem Record.Restores.limit (name : String) {limit : Option Nat} (h : Limited limit) :
    ∃ absent, (Record.optional name Decoder.u32).Restores
      (Work.entry? name (limit.map .nat)) absent limit := by
  refine entry? name none (fun hnone => (Option.map_eq_none_iff.mp hnone).symm) fun v hv => ?_
  obtain ⟨n, rfl, rfl⟩ := Option.map_eq_some_iff.mp hv
  exact .some (.natural _ (h n rfl)) nofun

/-- A value that may be missing is left out where it is. -/
theorem Record.Restores.stated (name : String) {o : Option Value} (h : Value.Stated o) :
    ∃ absent, (Record.optional name Decoder.value).Restores (Work.entry? name o) absent o := by
  refine entry? name none (fun hnone => hnone.symm) fun v hv => ?_
  obtain ⟨hcanonical, hnull⟩ := h v hv
  exact hv ▸ .some (.value hcanonical) hnull

/-- The fields of some work are those of its kind, which are none of a step. -/
theorem Work.restores {work : Work} (h : work.Readable) :
    ∃ (part : Record Work) (type : String) (absent : List String),
      Entries.find? work.kind Work.variants = some (part.decode type) ∧
      part.Restores work.entries absent work ∧
      (Step.record.fields.map Field.name ++ "type" :: part.fields.map Field.name).Nodup := by
  cases work with
  | action plugin operation params =>
      have hfields := ((required "plugin" (.text plugin)).map Work.action)
        |>.seq (required "operation" (.text operation))
        |>.seq (withDefault "params" [] (.object h))
      exact ⟨actionRecord, _, _, rfl, hfields, by decide⟩
  | ai instruction input outputSchema labels =>
      obtain ⟨_, hschema⟩ := Record.Restores.stated "output_schema" h
      obtain ⟨_, hlabels⟩ := Record.Restores.listUnlessEmpty "labels" (.strings labels)
      rw [← Work.entry?_ite] at hlabels
      have hfields := ((required "instruction" (.text instruction)).map Work.ai)
        |>.seq (required "input" (.text input)) |>.seq hschema |>.seq hlabels
      exact ⟨aiRecord, _, _, rfl, hfields, by decide⟩
  | transform operation input config =>
      have hfields := ((required "operation" operation.reads_name).map Work.transform)
        |>.seq (required "input" (.text input)) |>.seq (withDefault "config" [] (.object h))
      exact ⟨transformRecord, _, _, rfl, hfields, by decide⟩
  | conditional condition thenSteps elseSteps =>
      have hfields := ((required "condition" (Condition.reads_encode h)).map Work.conditional)
        |>.seq (listOf "then_steps" (.strings thenSteps))
        |>.seq (listOf "else_steps" (.strings elseSteps))
      exact ⟨conditionalRecord, _, _, rfl, hfields, by decide⟩
  | loop iterateOver itemName body maxIterations maxConcurrency =>
      obtain ⟨_, hiterations⟩ := Record.Restores.limit "max_iterations" h.1
      obtain ⟨_, hconcurrency⟩ := Record.Restores.limit "max_concurrency" h.2
      have hfields := ((required "iterate_over" (.text iterateOver)).map Work.loop)
        |>.seq (required "item_name" (.text itemName)) |>.seq (listOf "body" (.strings body))
        |>.seq hiterations |>.seq hconcurrency
      exact ⟨loopRecord, _, _, rfl, hfields, by decide⟩

/-- A step that holds what documents hold is read as it was written. -/
theorem Step.reads_encode {s : Step} (h : s.work.Readable) : decode.Reads s.encode s := by
  obtain ⟨part, type, absent, hvariant, hwork, hnodup⟩ := Work.restores h
  have hfields := ((required "id" (.text s.id)).map Step.mk)
    |>.seq (required "name" (.text s.name))
    |>.seq (listOf "dependencies" (.strings s.dependencies))
  exact hfields.flattened hwork hvariant hnodup _

end PlanFlow
