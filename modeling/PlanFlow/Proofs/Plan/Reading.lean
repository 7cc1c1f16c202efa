import PlanFlow.Proofs.Json.Decoded
import PlanFlow.Proofs.Json.Reading

/-!
# Plans that are read again

Every part of a plan is read as it was written, if the values of any kind in it are as documents
hold them: objects are in order, a value is not null where null says that it is missing, and limits
have 32 bits.  This is so of all plans that were read of documents, however these were laid out.
-/

namespace PlanFlow

/-! ## What documents hold -/

/-- A limit has 32 bits. -/
def Limited (limit : Option Nat) : Prop := ∀ n, limit = some n → n < UInt32.size

/-- The parts of a plan hold what documents hold. -/
structure Plan.Readable (p : Plan) : Prop where
  sources : ∀ s ∈ p.sources, s.config.Canonical
  filters : ∀ f ∈ p.filters, Value.Stated f.value
  transforms : ∀ t ∈ p.transforms, t.config.Canonical
  aiTasks : ∀ a ∈ p.aiTasks, Value.Stated a.outputSchema
  branches : ∀ b ∈ p.branches, Value.Stated b.condition.value
  loops : ∀ l ∈ p.loops, Limited l.maxIterations ∧ Limited l.maxConcurrency
  deliveries : ∀ d ∈ p.deliveries, d.config.Canonical

theorem Value.stated_none : Value.Stated none := nofun

theorem limited_none : Limited none := nofun

theorem Decoder.Gives.limited : (Decoder.nullable Decoder.u32).Gives Limited := .nullable .natural

theorem Source.decode_gives : decode.Gives fun s => s.config.Canonical := by
  refine .record ?_ _
  refine .seq ?_ (.withDefault .nil .object)
  iterate 7 refine .skip ?_
  exact .first fun _ _ _ _ _ _ _ _ _ hconfig => hconfig

theorem Filter.decode_gives : decode.Gives fun f => Value.Stated f.value := by
  refine .record ?_ _
  refine .skip ?_
  refine .seq ?_ (.optional Value.stated_none .stated)
  iterate 2 refine .skip ?_
  exact .first fun _ _ _ _ hvalue _ => hvalue

theorem Transform.decode_gives : decode.Gives fun t => t.config.Canonical := by
  refine .record ?_ _
  refine .skip ?_
  refine .seq ?_ (.withDefault .nil .object)
  refine .skip ?_
  exact .first fun _ _ _ hconfig _ => hconfig

theorem AiTask.decode_gives : decode.Gives fun a => Value.Stated a.outputSchema := by
  refine .record ?_ _
  iterate 2 refine .skip ?_
  refine .seq ?_ (.optional Value.stated_none .stated)
  iterate 3 refine .skip ?_
  exact .first fun _ _ _ _ _ hschema _ _ => hschema

theorem Condition.decode_gives : decode.Gives fun c => Value.Stated c.value := by
  refine .record ?_ _
  refine .seq ?_ (.optional Value.stated_none .stated)
  refine .skip ?_
  exact .first fun _ _ _ hvalue => hvalue

theorem Branch.decode_gives : decode.Gives fun b => Value.Stated b.condition.value := by
  refine .record ?_ _
  iterate 2 refine .skip ?_
  refine .seq ?_ (.required Condition.decode_gives)
  exact .first fun _ _ hcondition _ _ => hcondition

theorem Loop.decode_gives :
    decode.Gives fun l => Limited l.maxIterations ∧ Limited l.maxConcurrency := by
  refine .record ?_ _
  refine .seq ?_ (.optional limited_none .limited)
  refine .seq ?_ (.optional limited_none .limited)
  iterate 3 refine .skip ?_
  exact .first fun _ _ _ _ _ hiterations _ hconcurrency => ⟨hiterations, hconcurrency⟩

theorem Delivery.decode_gives : decode.Gives fun d => d.config.Canonical := by
  refine .record ?_ _
  refine .seq ?_ (.withDefault .nil .object)
  iterate 5 refine .skip ?_
  exact .first fun _ _ _ _ _ _ _ hconfig => hconfig

/-- Whatever a document looks like, the plan that is read of it holds what documents hold. -/
theorem Plan.decode_gives : decode.Gives Plan.Readable := by
  refine .record ?_ _
  iterate 2 refine .skip ?_
  refine .seq ?_ (.required (.list Delivery.decode_gives))
  iterate 3 refine .skip ?_
  refine .seq ?_ (.listOf Loop.decode_gives)
  refine .seq ?_ (.listOf Branch.decode_gives)
  refine .seq ?_ (.listOf AiTask.decode_gives)
  refine .seq ?_ (.listOf Transform.decode_gives)
  refine .seq ?_ (.listOf Filter.decode_gives)
  refine .seq ?_ (.required (.list Source.decode_gives))
  refine .skip (.first ?_)
  intro version goal sources hsources filters hfilters transforms htransforms aiTasks haiTasks
    branches hbranches loops hloops partitions grouping rendering deliveries hdeliveries edgeCases
    clarifications
  exact ⟨hsources, hfilters, htransforms, haiTasks, hbranches, hloops, hdeliveries⟩

/-! ## Reading what was written -/

open Record.Restores (required optional withDefault listOf)

theorem SourceKind.reads_name (kind : SourceKind) : decode.Reads (.string kind.name) kind :=
  .choice (by decide) (by cases kind <;> simp [all])

theorem SourceRole.reads_name (role : SourceRole) : decode.Reads (.string role.name) role :=
  .choice (by decide) (by cases role <;> simp [all])

theorem Comparison.reads_name (c : Comparison) : decode.Reads (.string c.name) c :=
  .choice (by decide) (by cases c <;> simp [all])

theorem Reshaping.reads_name (r : Reshaping) : decode.Reads (.string r.name) r :=
  .choice (by decide) (by cases r <;> simp [all])

theorem AiKind.reads_name (kind : AiKind) : decode.Reads (.string kind.name) kind :=
  .choice (by decide) (by cases kind <;> simp [all])

theorem RenderingKind.reads_name (kind : RenderingKind) : decode.Reads (.string kind.name) kind :=
  .choice (by decide) (by cases kind <;> simp [all])

theorem DeliveryMethod.reads_name (m : DeliveryMethod) : decode.Reads (.string m.name) m :=
  .choice (by decide) (by cases m <;> simp [all])

theorem EdgeCondition.reads_name (c : EdgeCondition) : decode.Reads (.string c.name) c :=
  .choice (by decide) (by cases c <;> simp [all])

theorem EdgeAction.reads_name (a : EdgeAction) : decode.Reads (.string a.name) a :=
  .choice (by decide) (by cases a <;> simp [all])

theorem Source.reads_encode {s : Source} (h : s.config.Canonical) : decode.Reads s.encode s := by
  have hfields := ((required "id" (.text s.id)).map Source.mk)
    |>.seq (required "type" s.kind.reads_name) |>.seq (required "source" (.text s.plugin))
    |>.seq (optional "operation" (.text? s.operation))
    |>.seq (required "location" (.text s.location))
    |>.seq (withDefault "role" .primary s.role.reads_name)
    |>.seq (optional "key_field" (.text? s.keyField))
    |>.seq (optional "match_field" (.text? s.matchField))
    |>.seq (withDefault "config" [] (.object h))
  exact hfields.reads (by decide) _

theorem Filter.reads_encode {f : Filter} (h : Value.Stated f.value) :
    decode.Reads f.encode f := by
  have hfields := ((required "id" (.text f.id)).map Filter.mk)
    |>.seq (required "field" (.text f.field))
    |>.seq (required "operator" f.comparison.reads_name) |>.seq (optional "value" (.any? h))
    |>.seq (listOf "depends_on" (.strings f.dependsOn))
  exact hfields.reads (by decide) _

theorem Transform.reads_encode {t : Transform} (h : t.config.Canonical) :
    decode.Reads t.encode t := by
  have hfields := ((required "id" (.text t.id)).map Transform.mk)
    |>.seq (required "operation" t.operation.reads_name)
    |>.seq (withDefault "config" [] (.object h))
    |>.seq (listOf "depends_on" (.strings t.dependsOn))
  exact hfields.reads (by decide) _

theorem AiTask.reads_encode {a : AiTask} (h : Value.Stated a.outputSchema) :
    decode.Reads a.encode a := by
  have hfields := ((required "id" (.text a.id)).map AiTask.mk)
    |>.seq (required "type" a.kind.reads_name)
    |>.seq (required "instruction" (.text a.instruction))
    |>.seq (optional "input_field" (.text? a.inputField))
    |>.seq (optional "output_schema" (.any? h)) |>.seq (listOf "labels" (.strings a.labels))
    |>.seq (listOf "depends_on" (.strings a.dependsOn))
  exact hfields.reads (by decide) _

theorem Condition.reads_encode {c : Condition} (h : Value.Stated c.value) :
    decode.Reads c.encode c := by
  have hfields := ((required "field" (.text c.field)).map Condition.mk)
    |>.seq (required "operator" c.comparison.reads_name) |>.seq (optional "value" (.any? h))
  exact hfields.reads (by decide) _

theorem Branch.reads_encode {b : Branch} (h : Value.Stated b.condition.value) :
    decode.Reads b.encode b := by
  have hfields := ((required "id" (.text b.id)).map Branch.mk)
    |>.seq (required "condition" (Condition.reads_encode h))
    |>.seq (listOf "then_deliver" (.strings b.thenDeliver))
    |>.seq (listOf "else_deliver" (.strings b.elseDeliver))
  exact hfields.reads (by decide) _

theorem Loop.reads_encode {l : Loop} (h : Limited l.maxIterations ∧ Limited l.maxConcurrency) :
    decode.Reads l.encode l := by
  have hfields := ((required "id" (.text l.id)).map Loop.mk)
    |>.seq (required "iterate_over" (.text l.iterateOver))
    |>.seq (withDefault "item_name" "item" (.text l.itemName))
    |>.seq (listOf "body" (.strings l.body)) |>.seq (optional "max_iterations" (.u32? h.1))
    |>.seq (optional "max_concurrency" (.u32? h.2))
  exact hfields.reads (by decide) _

theorem Partition.reads_encode (p : Partition) : decode.Reads p.encode p := by
  have hfields := ((required "id" (.text p.id)).map Partition.mk)
    |>.seq (required "field" (.text p.field)) |>.seq (listOf "buckets" (.strings p.buckets))
    |>.seq (listOf "depends_on" (.strings p.dependsOn))
  exact hfields.reads (by decide) _

theorem Grouping.reads_encode (g : Grouping) : decode.Reads g.encode g := by
  have hfields := ((optional "group_by" (.text? g.groupBy)).map Grouping.mk)
    |>.seq (withDefault "emit_per_group" false (.bool g.emitPerGroup))
  exact hfields.reads (by decide) _

theorem Rendering.reads_encode (r : Rendering) : decode.Reads r.encode r := by
  have hfields := ((required "type" r.kind.reads_name).map Rendering.mk)
    |>.seq (listOf "columns" (.strings r.columns)) |>.seq (optional "template" (.text? r.template))
    |>.seq (optional "empty_message" (.text? r.emptyMessage))
  exact hfields.reads (by decide) _

theorem Delivery.reads_encode {d : Delivery} (h : d.config.Canonical) :
    decode.Reads d.encode d := by
  have hfields := ((optional "id" (.text? d.id)).map Delivery.mk)
    |>.seq (required "method" d.method.reads_name) |>.seq (required "plugin_key" (.text d.plugin))
    |>.seq (optional "operation" (.text? d.operation))
    |>.seq (optional "recipient" (.text? d.recipient))
    |>.seq (optional "recipient_source" (.text? d.recipientSource))
    |>.seq (withDefault "config" [] (.object h))
  exact hfields.reads (by decide) _

theorem EdgeCase.reads_encode (e : EdgeCase) : decode.Reads e.encode e := by
  have hfields := ((required "condition" e.condition.reads_name).map EdgeCase.mk)
    |>.seq (required "action" e.action.reads_name) |>.seq (optional "message" (.text? e.message))
    |>.seq (optional "recipient" (.text? e.recipient))
  exact hfields.reads (by decide) _

/-- A plan that holds what documents hold is read as it was written. -/
theorem Plan.reads_encode {p : Plan} (h : p.Readable) : decode.Reads p.encode p := by
  have hfields := ((required "ir_version" (.text p.version)).map Plan.mk)
    |>.seq (required "goal" (.text p.goal))
    |>.seq (required "data_sources" (.list fun s hs => s.reads_encode (h.sources s hs)))
    |>.seq (listOf "filters" (.list fun f hf => f.reads_encode (h.filters f hf)))
    |>.seq (listOf "transforms" (.list fun t ht => t.reads_encode (h.transforms t ht)))
    |>.seq (listOf "ai_operations" (.list fun a ha => a.reads_encode (h.aiTasks a ha)))
    |>.seq (listOf "conditionals" (.list fun b hb => b.reads_encode (h.branches b hb)))
    |>.seq (listOf "loops" (.list fun l hl => l.reads_encode (h.loops l hl)))
    |>.seq (listOf "partitions" (.list fun q (_ : q ∈ p.partitions) => q.reads_encode))
    |>.seq (optional "grouping"
      (.ofOption fun g (_ : p.grouping = some g) => ⟨g.reads_encode, nofun⟩))
    |>.seq (optional "rendering"
      (.ofOption fun r (_ : p.rendering = some r) => ⟨r.reads_encode, nofun⟩))
    |>.seq (required "delivery" (.list fun d hd => d.reads_encode (h.deliveries d hd)))
    |>.seq (listOf "edge_cases" (.list fun e (_ : e ∈ p.edgeCases) => e.reads_encode))
    |>.seq (required "clarifications_required" (.strings p.clarifications))
  exact hfields.reads (by decide) _

namespace Plan

/-- A plan that was read of a document, be it a text or a value, is read again from what is written
of it.  So plans that were read and are written alike are one plan. -/
theorem reads_again {mode : ReadMode} {node : Node} {p : Plan} (h : decode mode node = .ok p) :
    decode.ofValue p.encode.canonical = .ok p ∧
      ∀ mode' node' q, decode mode' node' = .ok q →
        q.encode.canonical = p.encode.canonical → q = p := by
  have hread := reads_encode (decode_gives mode node p h)
  refine ⟨hread, fun mode' node' q hq heq => ?_⟩
  have hread' := reads_encode (decode_gives mode' node' q hq)
  rw [Decoder.Reads, heq] at hread'
  exact Except.ok.inj (hread'.symm.trans hread)

/-- A plan that is written as the list of its fields.  Its loop is written as an object, in which
the keys stand in no order and most are left out. -/
def leadsDocument : String :=
  "[\"1.0\", \"Mail leads\", [], [], [], [], [], " ++
    "[\x7b\"iterate_over\": \"leads\", \"id\": \"each\"\x7d], [], null, null, [], [], []]"

theorem reads_again_leadsDocument :
    ∃ p, decode.ofText leadsDocument = .ok p ∧ p.goal = "Mail leads" ∧
      p.loops = [⟨"each", "leads", "item", [], none, none⟩] ∧
      decode.ofValue p.encode.canonical = .ok p := by
  have hparts : (decode.ofText leadsDocument).toOption.map (fun p => (p.goal, p.loops)) =
      some ("Mail leads", [⟨"each", "leads", "item", [], none, none⟩]) := by decide +kernel
  cases hread : decode.ofText leadsDocument with
  | error fault =>
      rw [hread] at hparts
      cases hparts
  | ok p =>
      rw [hread] at hparts
      obtain ⟨hgoal, hloops⟩ := Prod.mk.inj (Option.some.inj hparts)
      exact ⟨p, rfl, hgoal, hloops, (reads_again (Decoder.decode_of_ofText hread)).1⟩

end Plan
end PlanFlow
