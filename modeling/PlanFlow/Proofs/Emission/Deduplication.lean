import PlanFlow.Emission.Deduplication
import PlanFlow.Proofs.Emission.Ingestion
import PlanFlow.Proofs.Listing
import PlanFlow.Proofs.Text.Order

/-!
# Checking rows more than once

Whoever emits steps may ask for rows to be checked as often as it likes, against any lookup sources
and with any rows, and whatever steps there are already.  Only the first request for the id of a
source emits steps, which are three and come behind all that was there; every request gets the
handle of the step that drops the rows, and the ids that were asked for are remembered in the order
of their bytes.
-/

namespace PlanFlow

/-- A request that rows are checked against a lookup source. -/
structure CheckRequest where
  lookup : Source
  rows : Handle

namespace CheckRequest

/-- The id that a request is known by. -/
def id (r : CheckRequest) : String := r.lookup.id

/-- The three steps that a request asks for.  The first one reads the lookup source.  The second one
waits for it and takes the keys of what was read.  The third one waits for what produces the rows,
if a step does, and for the second one, and drops the rows whose match field is among the keys.  The
key field is that of the source, or the default; the match field is that of the source, or the key
field. -/
structure AsksFor (r : CheckRequest) (defaultKeyField : String) (read extract drop : Step) :
    Prop where
  read_eq : read = {
    id := "read_reference_" ++ r.lookup.id
    name := "read_reference"
    dependencies := []
    work := .action r.lookup.plugin (r.lookup.readOperation.getD "read")
      (Entries.extend [("location", .string r.lookup.location)] r.lookup.config) }
  extract_eq : extract = {
    id := "extract_ids_" ++ r.lookup.id
    name := "extract_ids"
    dependencies := [read.id]
    work := .transform .extractKeys ("\x7b\x7b" ++ (read.id ++ ".data") ++ "\x7d\x7d")
      [("key_field", .string (r.lookup.keyField.getD defaultKeyField))] }
  drop_eq : drop = {
    id := "filter_new_items_" ++ r.lookup.id
    name := "filter_new_items"
    dependencies := r.rows.step.toList ++ [extract.id]
    work := .transform .excludeKnown ("\x7b\x7b" ++ r.rows.path ++ "\x7d\x7d")
      [("known_keys", .string ("\x7b\x7b" ++ (extract.id ++ ".data") ++ "\x7d\x7d")),
        ("match_field",
          .string (r.lookup.matchField.getD (r.lookup.keyField.getD defaultKeyField)))] }

/-- The handle of the rows that are left after a request. -/
def answer (r : CheckRequest) : Handle :=
  ⟨some ("filter_new_items_" ++ r.lookup.id), "filter_new_items_" ++ r.lookup.id ++ ".data"⟩

/-- The steps of a request, in their order. -/
def steps (r : CheckRequest) (defaultKeyField : String) : List Step :=
  [r.lookup.readReference, r.lookup.extractKeys defaultKeyField,
    r.lookup.excludeKnown defaultKeyField r.rows]

theorem asksFor_iff {r : CheckRequest} {defaultKeyField : String} {read extract drop : Step} :
    r.AsksFor defaultKeyField read extract drop ↔
      [read, extract, drop] = r.steps defaultKeyField := by
  constructor
  · rintro ⟨rfl, rfl, rfl⟩
    rfl
  · intro h
    simp only [steps, List.cons.injEq, and_true] at h
    obtain ⟨rfl, rfl, rfl⟩ := h
    exact ⟨rfl, rfl, rfl⟩

end CheckRequest

namespace Emission

variable {e : Emission} {defaultKeyField : String} {r : CheckRequest}

/-- The ids stay in strict order of their bytes. -/
theorem pairwise_insertId {id : String} {ids : List String}
    (h : ids.Pairwise fun a b => Text.bytes a < Text.bytes b) :
    (insertId id ids).Pairwise fun a b => Text.bytes a < Text.bytes b := by
  simp only [Text.bytes_lt_bytes_iff] at h ⊢
  induction ids with
  | nil => exact List.pairwise_singleton _ _
  | cons first rest ih =>
      obtain ⟨hfirst, hrest⟩ := List.pairwise_cons.mp h
      unfold insertId
      by_cases hlt : id < first
      · rw [if_pos hlt]
        refine List.pairwise_cons.mpr ⟨fun x hx => ?_, h⟩
        rcases List.mem_cons.mp hx with rfl | hx
        · exact hlt
        · exact String.lt_trans hlt (hfirst x hx)
      · by_cases heq : id = first
        · rw [if_neg hlt, if_pos heq]
          exact h
        · rw [if_neg hlt, if_neg heq]
          refine List.pairwise_cons.mpr ⟨fun x hx => ?_, ih hrest⟩
          rcases Emitter.mem_insertId.mp hx with rfl | hx
          · exact Std.lt_of_le_of_ne (String.not_lt.mp hlt) (Ne.symm heq)
          · exact hfirst x hx

/-- The emission after a request, and the handle that it gets. -/
def request (e : Emission) (defaultKeyField : String) (r : CheckRequest) : Handle × Emission :=
  e.deduplicate defaultKeyField r.lookup r.rows

/-- The emission after a list of requests, and the handles that they get. -/
def requestAll (e : Emission) (defaultKeyField : String) (requests : List CheckRequest) :
    List Handle × Emission :=
  requests.foldl (fun done r =>
    (done.1 ++ [(done.2.request defaultKeyField r).1], (done.2.request defaultKeyField r).2)) ([], e)

theorem request_fst : (e.request defaultKeyField r).1 = r.answer := by
  unfold request deduplicate
  split <;> rfl

/-- A request for an id that was asked for before changes nothing. -/
theorem request_of_mem (h : r.id ∈ e.checked) : (e.request defaultKeyField r).2 = e := by
  have hchecked : e.checked.contains r.lookup.id = true := List.contains_iff_mem.mpr h
  unfold request deduplicate
  rw [if_pos hchecked]

/-- A request for a new id adds its steps behind the others, and the id to those that were asked
for. -/
theorem request_of_not_mem (h : r.id ∉ e.checked) :
    (e.request defaultKeyField r).2 =
      { e with
        steps := e.steps ++ r.steps defaultKeyField
        checked := insertId r.id e.checked } := by
  have hunchecked : ¬e.checked.contains r.lookup.id = true := List.contains_iff_mem.not.mpr h
  unfold request deduplicate
  rw [if_neg hunchecked]
  rfl

variable {requests : List CheckRequest}

theorem requestAll_concat (requests : List CheckRequest) (r : CheckRequest) :
    e.requestAll defaultKeyField (requests ++ [r]) =
      ((e.requestAll defaultKeyField requests).1 ++ [r.answer],
        ((e.requestAll defaultKeyField requests).2.request defaultKeyField r).2) := by
  unfold requestAll
  rw [List.foldl_concat, request_fst]

/-- What a list of requests brings about, from steps that were there already. -/
structure Answered (defaultKeyField : String) (steps : List Step) (requests : List CheckRequest)
    (handles : List Handle) (e : Emission) : Prop where
  handles_eq : handles = requests.map CheckRequest.answer
  /-- The steps of the requests that are the first for their id stand behind the others. -/
  steps_eq : ∃ triples : List (List Step), e.steps = steps ++ triples.flatten ∧
    Lists (fun i triple => ∃ r read extract drop, FirstAt CheckRequest.id requests i r ∧
      r.AsksFor defaultKeyField read extract drop ∧ triple = [read, extract, drop]) triples
  sorted : e.checked.Pairwise fun a b => Text.bytes a < Text.bytes b
  mem_checked : ∀ id, id ∈ e.checked ↔ ∃ r ∈ requests, r.id = id

/-- A request keeps what holds of all requests so far. -/
theorem Answered.request {steps : List Step} {handles : List Handle}
    (h : Answered defaultKeyField steps requests handles e) (r : CheckRequest) :
    Answered defaultKeyField steps (requests ++ [r]) (handles ++ [r.answer])
      (e.request defaultKeyField r).2 := by
  obtain ⟨triples, hsteps, hlists⟩ := h.steps_eq
  have hhandles : handles ++ [r.answer] = (requests ++ [r]).map CheckRequest.answer := by
    simp [h.handles_eq]
  by_cases hchecked : r.id ∈ e.checked
  · obtain ⟨earlier, hearlier, hid⟩ := (h.mem_checked r.id).mp hchecked
    rw [request_of_mem hchecked]
    refine ⟨hhandles, ⟨triples, hsteps, hlists.congr fun i triple => ?_⟩, h.sorted, fun id => ?_⟩
    · have hnew : ¬∀ c ∈ requests, c.id ≠ r.id := fun hnew => hnew earlier hearlier hid
      simp only [firstAt_concat, hnew, and_false, or_false]
    · rw [h.mem_checked]
      simp only [List.mem_append, List.mem_singleton]
      constructor
      · rintro ⟨other, hother, rfl⟩
        exact ⟨other, .inl hother, rfl⟩
      · rintro ⟨other, hother | rfl, rfl⟩
        · exact ⟨other, hother, rfl⟩
        · exact ⟨earlier, hearlier, hid⟩
  · have hnew : ∀ c ∈ requests, c.id ≠ r.id := fun c hc hid =>
      hchecked ((h.mem_checked r.id).mpr ⟨c, hc, hid⟩)
    rw [request_of_not_mem hchecked]
    refine ⟨hhandles, ⟨triples ++ [r.steps defaultKeyField], ?_, ?_⟩, pairwise_insertId h.sorted,
      fun id => ?_⟩
    · simp [hsteps]
    · have hbehind : ∀ i triple, (∃ r read extract drop, FirstAt CheckRequest.id requests i r ∧
          r.AsksFor defaultKeyField read extract drop ∧ triple = [read, extract, drop]) →
          i < requests.length := by
        rintro i triple ⟨_, _, _, _, hfirst, -⟩
        exact hfirst.lt_length
      refine (hlists.concat hbehind).congr fun i triple => ?_
      simp only [firstAt_concat]
      constructor
      · rintro (⟨other, read, extract, drop, hfirst, hasks⟩ | ⟨rfl, rfl⟩)
        · exact ⟨other, read, extract, drop, .inl hfirst, hasks⟩
        · exact ⟨r, _, _, _, .inr ⟨rfl, rfl, hnew⟩, CheckRequest.asksFor_iff.mpr rfl, rfl⟩
      · rintro ⟨other, read, extract, drop, hfirst | ⟨rfl, rfl, -⟩, hasks, rfl⟩
        · exact .inl ⟨other, read, extract, drop, hfirst, hasks, rfl⟩
        · exact .inr ⟨rfl, CheckRequest.asksFor_iff.mp hasks⟩
    · show id ∈ insertId r.id e.checked ↔ _
      rw [Emitter.mem_insertId, h.mem_checked]
      simp only [List.mem_append, List.mem_singleton, or_and_right, exists_or, exists_eq_left]
      rw [or_comm, eq_comm]

theorem answered_requestAll (defaultKeyField : String) (steps : List Step) (loops : List String)
    (requests : List CheckRequest) :
    Answered defaultKeyField steps requests
      ((Emission.mk steps loops []).requestAll defaultKeyField requests).1
      ((Emission.mk steps loops []).requestAll defaultKeyField requests).2 := by
  induction requests using List.reverseRecOn with
  | nil =>
      refine ⟨rfl, ⟨[], by simp [requestAll], Lists.nil ?_⟩, List.Pairwise.nil,
        by simp [requestAll]⟩
      rintro i triple ⟨_, _, _, _, hfirst, -⟩
      exact Nat.not_lt_zero _ hfirst.lt_length
  | append_singleton requests r ih =>
      rw [requestAll_concat]
      exact ih.request r

/-- Requests that rows are checked leave all steps that were there as they are.  Behind them come
three steps for each id, in the order of the first requests for the ids, and no other steps.  Each
request gets the handle of the step that drops the rows known to its lookup source.  The ids that
were asked for are in strict order of their bytes.  A further request for one of them changes
nothing, and one for another id adds its three steps behind all others. -/
theorem requests_answered (defaultKeyField : String) (steps : List Step) (loops : List String)
    (requests : List CheckRequest) : ∃ handles e,
    (Emission.mk steps loops []).requestAll defaultKeyField requests = (handles, e) ∧
    Answered defaultKeyField steps requests handles e ∧
    ∀ r, (e.request defaultKeyField r).1 = r.answer ∧
      if r.id ∈ e.checked then (e.request defaultKeyField r).2 = e
      else ∃ read extract drop, r.AsksFor defaultKeyField read extract drop ∧
        (e.request defaultKeyField r).2.steps = e.steps ++ [read, extract, drop] := by
  have hanswered := answered_requestAll defaultKeyField steps loops requests
  rcases hrun : (Emission.mk steps loops []).requestAll defaultKeyField requests with ⟨handles, e⟩
  rw [hrun] at hanswered
  refine ⟨handles, e, rfl, hanswered, fun r => ⟨request_fst, ?_⟩⟩
  split
  · rename_i hchecked
    exact request_of_mem hchecked
  · rename_i hunchecked
    rw [request_of_not_mem hunchecked]
    exact ⟨_, _, _, CheckRequest.asksFor_iff.mpr rfl, rfl⟩

end Emission
end PlanFlow
