import Mathlib.Data.List.Forall2
import PlanFlow.Emission.Ingestion
import PlanFlow.Proofs.Plan.Sound

/-!
# Where steps are made

A step is made at a site, where certain data is at hand, and takes that data by placeholders: all of
it, or a field.  Which data is at hand follows from the plan.  A loop takes the data that it
iterates over, and its body starts from its current item.  A part takes what it depends on, or else
what is handed on to it: the data of what stands before it, or the output of a loop over that.  The
rows of all sources go through the parts that stand in no body in the same way.
-/

namespace PlanFlow

/-! ## Sites -/

/-- What a step takes of some data: all of it, or a field. -/
structure Intake where
  data : Handle
  field? : Option String

namespace Intake

/-- All of some data. -/
def all (data : Handle) : Intake := ⟨data, none⟩

/-- The placeholder of what is taken. -/
def text (i : Intake) : String :=
  match i.field? with
  | none => i.data.reference
  | some name => i.data.field name

end Intake

/-- A step where it is made, with what it takes there, and what it hands over if it delivers. -/
structure Site where
  step : Step
  intakes : List Intake
  payload? : Option Handle

/-- The field of its input that a part takes, unless it takes all. -/
def Part.inputField? : Part → Option String
  | .ai a => a.inputField
  | .filter _ | .partition _ | .transform _ => none

namespace Plan

/-- The parts in the body of a loop, as often as they are listed. -/
def bodyParts (p : Plan) (l : Loop) : List Part := l.body.filterMap p.part?

/-- The ids of the step of a loop and of those in its body. -/
def loopIds (p : Plan) (l : Loop) : List String := l.stepId :: (p.bodyParts l).map Part.stepId

theorem mem_parts_of_mem_bodyParts {p : Plan} {l : Loop} {part : Part}
    (h : part ∈ p.bodyParts l) : part ∈ p.parts := by
  obtain ⟨id, -, hid⟩ := List.mem_filterMap.mp h
  exact List.mem_of_find?_eq_some hid

/-- A body holds the parts that it lists. -/
theorem map_id_bodyParts {p : Plan} (hp : p.Sound) {l : Loop} (hl : l ∈ p.loops) :
    (p.bodyParts l).map Part.id = l.body := by
  have hfound : ∀ id ∈ l.body, (p.part? id).map Part.id = some id := by
    intro id hid
    obtain ⟨part, hpart, rfl⟩ := hp.exists_part_of_body hl hid
    rw [hp.part?_of_mem hpart, Option.map_some]
  rw [bodyParts, List.map_filterMap, List.filterMap_congr hfound, List.filterMap_some]

/-- The step of a loop in a sound plan. -/
def loopStep (p : Plan) (l : Loop) (rows : Handle) : Step :=
  ⟨l.stepId, "For each " ++ l.itemName, rows.dependencies,
    .loop rows.reference l.itemName ((p.bodyParts l).map Part.stepId) l.maxIterations
      l.maxConcurrency⟩

/-- The data that a part takes: that of what it depends on, or the chain that it stands in. -/
def inputsOf (p : Plan) (part : Part) (chain : Handle) : List Handle :=
  if part.dependsOn.isEmpty then [chain] else part.dependsOn.filterMap p.location?

/-- The steps that a part waits for. -/
def waitsOf (p : Plan) (part : Part) (chain : Handle) : List String :=
  let dependencies := (p.inputsOf part chain).flatMap Handle.dependencies
  (if p.inBody part.id then dependencies ++ chain.dependencies else dependencies).eraseDups

end Plan

namespace Site

/-- The id of the step of a site. -/
def id (s : Site) : String := s.step.id

/-- All data that goes into the step of a site. -/
def data (s : Site) : List Handle := s.intakes.map Intake.data ++ s.payload?.toList

/-- A source of rows is read. -/
def fetch (s : Source) (operation : String) : Site := ⟨s.fetch operation, [], none⟩

/-- Rows are merged.  The first ones are the input, and are listed with the others. -/
def merge (first : Handle) (others : List Handle) : Site :=
  ⟨Emitter.mergeStep first (first :: others), .all first :: (first :: others).map .all, none⟩

/-- A part takes the first of its inputs. -/
def part (p : Plan) (part : Part) (chain : Handle) : Site :=
  let input := (p.inputsOf part chain).headD chain
  ⟨part.step input (p.waitsOf part chain), [⟨input, part.inputField?⟩], none⟩

/-- A loop iterates over rows. -/
def loop (p : Plan) (l : Loop) (rows : Handle) : Site := ⟨p.loopStep l rows, [.all rows], none⟩

/-- A lookup source is read. -/
def readReference (s : Source) : Site := ⟨s.readReference, [], none⟩

/-- The keys of a lookup source are taken out of what was read. -/
def extractKeys (settings : Settings) (s : Source) : Site :=
  ⟨s.extractKeys settings.defaultKeyField, [.all (.ofStep s.readReferenceId)], none⟩

/-- The rows that a lookup source knows are dropped. -/
def excludeKnown (settings : Settings) (s : Source) (rows : Handle) : Site :=
  ⟨s.excludeKnown settings.defaultKeyField rows,
    [.all rows, .all (.ofStep s.extractKeysId)], none⟩

end Site

/-! ## What is handed on -/

/-- What is handed on by what has an id: its data, or the output of a loop over it. -/
inductive Plan.HandsOn (p : Plan) (id : String) : Handle → Prop
  | located {h : Handle} (hlocation : p.location? id = some h) : p.HandsOn id h
  | loop {l : Loop} (hl : l ∈ p.loops) (hover : l.iterateOver = id) :
      p.HandsOn id (.ofStep l.stepId)

/-- The sites of parts one after the other, from some rows on: each part is handed what the one
before it hands on. -/
inductive Plan.Chained (p : Plan) : Handle → List Part → List Site → Handle → Prop
  | nil (rows : Handle) : p.Chained rows [] [] rows
  | cons {part : Part} {rest : List Part} {sites : List Site} {rows mid out : Handle}
      (hpart : p.HandsOn part.id mid) (hrest : p.Chained mid rest sites out) :
      p.Chained rows (part :: rest) (.part p part rows :: sites) out

/-- The sites of a loop: its own, on the data that it iterates over, and those of its body, which
starts from its current item. -/
inductive Plan.LoopSites (p : Plan) (l : Loop) : List Site → Prop
  | intro {rows out : Handle} {body : List Site} (hrows : p.location? l.iterateOver = some rows)
      (hbody : p.Chained (.ofItem l.stepId l.itemName) (p.bodyParts l) body out) :
      p.LoopSites l (.loop p l rows :: body)

theorem Plan.Chained.map_id {p : Plan} {rows out : Handle} {parts : List Part} {sites : List Site}
    (h : p.Chained rows parts sites out) : sites.map Site.id = parts.map Part.stepId := by
  induction h with
  | nil => rfl
  | cons _ _ ih => exact congrArg _ ih

theorem Plan.LoopSites.map_id {p : Plan} {l : Loop} {sites : List Site} (h : p.LoopSites l sites) :
    sites.map Site.id = p.loopIds l := by
  obtain ⟨-, hbody⟩ := h
  exact congrArg _ hbody.map_id

/-- The first part in the body of a loop is handed the current item of that loop. -/
theorem Plan.LoopSites.first_mem {p : Plan} {l : Loop} {sites : List Site} {part : Part}
    {rest : List Part} (h : p.LoopSites l sites) (hparts : p.bodyParts l = part :: rest) :
    .part p part (.ofItem l.stepId l.itemName) ∈ sites := by
  obtain ⟨-, hbody⟩ := h
  rw [hparts] at hbody
  cases hbody with
  | cons _ _ => exact List.mem_cons_of_mem _ List.mem_cons_self

/-- The sites of loops have the ids of their steps, and of those in their bodies. -/
theorem Plan.LoopSites.map_id_flatten {p : Plan} {loops : List Loop} {bodies : List (List Site)}
    (h : List.Forall₂ p.LoopSites loops bodies) :
    bodies.flatten.map Site.id = loops.flatMap p.loopIds := by
  induction h with
  | nil => rfl
  | cons hfirst _ ih =>
      rw [List.flatten_cons, List.map_append, ih, hfirst.map_id, List.flatMap_cons]

/-! ## The rows -/

/-- The sites at which sources of rows are read, unless their rows arrive as input. -/
def fetchSites (sources : List Source) : List Site :=
  sources.filterMap fun s => s.readOperation.map (Site.fetch s)

/-- The site at which the rows of several sources are merged, and what becomes of them. -/
inductive Merged : List Handle → List Site → Handle → Prop
  | one (output : Handle) : Merged [output] [] output
  | several (first second : Handle) (others : List Handle) :
      Merged (first :: second :: others) [.merge first (second :: others)]
        (.ofStep Emitter.mergeId)

/-- The sites at which rows are checked against lookup sources, one after the other. -/
def checkSites (settings : Settings) : List Source → Handle → List Site
  | [], _ => []
  | s :: rest, rows =>
    .readReference s :: .extractKeys settings s :: .excludeKnown settings s rows ::
      checkSites settings rest (.ofStep s.excludeKnownId)

/-- What is left of rows that are checked against lookup sources. -/
def checkedRows : List Source → Handle → Handle
  | [], rows => rows
  | s :: rest, _ => checkedRows rest (.ofStep s.excludeKnownId)

/-- The sites of the sources, and of the parts that stand in no body, with the rows that they end
with. -/
inductive Plan.RowSites (p : Plan) (settings : Settings) : List Site → Handle → Prop
  | intro {outputs : List Handle} {merge filters reshaping ai : List Site}
      {merged filtered reshaped rows : Handle}
      (hfetched : List.Forall₂ (fun s h => p.HandsOn s.id h) p.candidates outputs)
      (hmerged : Merged outputs merge merged)
      (hfiltered : p.Chained merged (Emitter.chainFilters p) filters filtered)
      (hreshaped : p.Chained (checkedRows p.lookups filtered) (Emitter.chainReshaping p) reshaping
        reshaped)
      (henriched : p.Chained reshaped (Emitter.chainAi p) ai rows) :
      p.RowSites settings (fetchSites p.candidates ++ merge ++ filters ++
        checkSites settings p.lookups filtered ++ reshaping ++ ai) rows

/-- The sites of all parts of a plan: those of the rows, and those of every loop and its body. -/
def Plan.PartSites (p : Plan) (settings : Settings) (rows : Handle) (sites : List Site) : Prop :=
  ∃ (own : List Site) (bodies : List (List Site)), p.RowSites settings own rows ∧
    List.Forall₂ p.LoopSites p.loops bodies ∧ sites.Perm (own ++ bodies.flatten)

theorem Plan.LoopSites.exists_mem {p : Plan} {loops : List Loop} {bodies : List (List Site)}
    (h : List.Forall₂ p.LoopSites loops bodies) {l : Loop} (hl : l ∈ loops) :
    ∃ body ∈ bodies, p.LoopSites l body := by
  induction h with
  | nil => cases hl
  | @cons _ body _ _ hfirst _ ih =>
      rcases List.mem_cons.mp hl with rfl | hl
      · exact ⟨body, List.mem_cons_self, hfirst⟩
      · obtain ⟨body, hbody, hsites⟩ := ih hl
        exact ⟨body, List.mem_cons_of_mem _ hbody, hsites⟩

/-- The sites of every loop are among those of a plan. -/
theorem Plan.PartSites.exists_loopSites {p : Plan} {settings : Settings} {rows : Handle}
    {sites : List Site} (h : p.PartSites settings rows sites) {l : Loop} (hl : l ∈ p.loops) :
    ∃ body, p.LoopSites l body ∧ body ⊆ sites := by
  obtain ⟨own, bodies, -, hbodies, hperm⟩ := h
  obtain ⟨body, hmem, hbody⟩ := LoopSites.exists_mem hbodies hl
  refine ⟨body, hbody, fun site hsite => hperm.mem_iff.mpr (List.mem_append_right _ ?_)⟩
  exact List.mem_flatten_of_mem hmem hsite

theorem checkSites_concat (settings : Settings) (lookups : List Source) (s : Source)
    (rows : Handle) :
    checkSites settings (lookups ++ [s]) rows = checkSites settings lookups rows ++
      [.readReference s, .extractKeys settings s,
        .excludeKnown settings s (checkedRows lookups rows)] := by
  induction lookups generalizing rows with
  | nil => rfl
  | cons first rest ih =>
      rw [List.cons_append, checkSites, ih]
      rfl

theorem checkedRows_concat (lookups : List Source) (s : Source) (rows : Handle) :
    checkedRows (lookups ++ [s]) rows = .ofStep s.excludeKnownId := by
  induction lookups generalizing rows with
  | nil => rfl
  | cons first rest ih => exact ih _

end PlanFlow
