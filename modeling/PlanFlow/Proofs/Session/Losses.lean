import PlanFlow.Proofs.Session.History
import PlanFlow.Proofs.Session.Recording
import PlanFlow.Proofs.Session.Tracking

/-!
# Records from which calls are missing

An unreliable store may lose any of the calls of a run.  The tracker does not learn of it, so the
calls that are applied are some of those of the run, in their order.  What they leave is incomplete,
but it is not wrong.  There is no session without the first call.  With it, a stage is recorded if
its append or its completion was applied.  The one gives the name and the input, the other one the
output; and the session has an end if the last call was applied.
-/

namespace PlanFlow

/-! ## The calls of a run -/

/-- The calls by which the stage of an index is recorded. -/
def StageReport.calls (id : Uuid) (clock : Nat → Timestamp) (index : Nat) (r : StageReport) :
    List StoreCall :=
  [.append id ⟨index, r.name, r.input, none, clock (2 * index + 1), none⟩,
    .complete id index r.output (clock (2 * index + 2))]

namespace StoreCall

/-- Whether a call appends the stage of an index. -/
def appends (index : Nat) : StoreCall → Bool
  | .append _ stage => stage.index == index
  | .create _ | .complete _ _ _ _ | .close _ _ _ => false

/-- Whether a call completes the stage of an index. -/
def completes (index : Nat) : StoreCall → Bool
  | .complete _ other _ _ => other == index
  | .create _ | .append _ _ | .close _ _ _ => false

/-- The calls of stages, the first of which has the index `count`. -/
def ofStages (id : Uuid) (clock : Nat → Timestamp) (count : Nat) (reports : List StageReport) :
    List StoreCall :=
  (reports.zipIdx count).flatMap fun (r, index) => r.calls id clock index

/-- The calls of a run, by a clock that is read once for each event. -/
def ofRun (id : Uuid) (input : SessionInput) (provider : Option Provider)
    (reports : List StageReport) (ending : Ending) (clock : Nat → Timestamp) : List StoreCall :=
  .create (.start id input provider (clock 0)) ::
    (ofStages id clock 0 reports ++ [.close id ending.status (clock (2 * reports.length + 1))])

/-- What becomes of a session by calls that are all about it. -/
def effects (calls : List StoreCall) (found : Option Session) : Option Session :=
  calls.foldl (fun found call => call.effect found) found

theorem effects_append (calls more : List StoreCall) (found : Option Session) :
    effects (calls ++ more) found = effects more (effects calls found) :=
  List.foldl_append

theorem ofStages_cons (id : Uuid) (clock : Nat → Timestamp) (count : Nat) (r : StageReport)
    (rest : List StageReport) :
    ofStages id clock count (r :: rest) =
      r.calls id clock count ++ ofStages id clock (count + 1) rest :=
  rfl

/-- The calls of stages are about the session, and neither create it nor close it. -/
theorem of_mem_ofStages {id : Uuid} {clock : Nat → Timestamp} {count : Nat}
    {reports : List StageReport} {call : StoreCall} (h : call ∈ ofStages id clock count reports) :
    call.session = id ∧ call.isCreate = false ∧ call.isClose = false := by
  obtain ⟨⟨r, index⟩, -, hcall⟩ := List.mem_flatMap.mp h
  rcases List.mem_pair.mp hcall with rfl | rfl <;> exact ⟨rfl, rfl, rfl⟩

end StoreCall

/-- A tracker attempts the calls of a run when it handles the events of the run. -/
theorem Tracker.calls_ofRun (id : Uuid) (input : SessionInput) (provider : Option Provider)
    {reports : List StageReport} (hreports : reports.length ≤ 2 ^ 32) (ending : Ending)
    (clock : Nat → Timestamp) :
    Tracker.new.calls (fun _ => id) clock 0 (SessionEvent.ofRun input provider reports ending) =
      StoreCall.ofRun id input provider reports ending clock := by
  have hstages : ∀ count, count + reports.length ≤ 2 ^ 32 →
      Tracker.calls (fun _ => id) clock (2 * count + 1) ⟨.started id none, .ofNat count⟩
        (reports.flatMap StageReport.events ++ [ending.event]) =
          StoreCall.ofStages id clock count reports ++
            [.close id ending.status (clock (2 * (count + reports.length) + 1))] := by
    clear hreports
    induction reports with
    | nil => cases ending <;> exact fun count _ => rfl
    | cons r rest ih =>
        intro count hcount
        rw [List.length_cons, Nat.add_comm rest.length, ← Nat.add_assoc] at hcount ⊢
        have hindex : (UInt32.ofNat count).toNat = count :=
          UInt32.toNat_ofNat_of_lt' (by omega : count < 2 ^ 32)
        rw [StoreCall.ofStages_cons, List.append_assoc, ← ih (count + 1) hcount, UInt32.ofNat_add]
        simp only [List.flatMap_cons, StageReport.events, StageReport.calls, List.cons_append,
          calls, handle, Option.getD_some, hindex]
        rfl
  have hrest := hstages 0 (by rwa [Nat.zero_add])
  rw [Nat.zero_add reports.length] at hrest
  rw [StoreCall.ofRun, ← hrest]
  rfl

/-! ## Calls that reach an unreliable store -/

namespace UnreliableStore

/-- The calls that reached the store. -/
def applied (u : UnreliableStore) : List StoreCall :=
  (u.log.filter fun entry => entry.2 = .reaches).map Prod.fst

/-- The store after calls, each of which has its fate. -/
def serve (u : UnreliableStore) (calls : List StoreCall) : UnreliableStore :=
  calls.foldl (fun u call => (service call u).2) u

theorem applied_sublist (u : UnreliableStore) : List.Sublist u.applied (u.log.map Prod.fst) :=
  List.filter_sublist.map Prod.fst

theorem snd_service (call : StoreCall) (u : UnreliableStore) :
    (service call u).2.fates = u.fates.tail ∧
      (service call u).2.log = u.log ++ [(call, u.nextFate)] := by
  unfold service
  split <;> exact ⟨rfl, rfl⟩

/-- Calls are logged in order, with their fates. -/
theorem log_serve (u : UnreliableStore) (calls : List StoreCall) :
    (u.serve calls).log =
      u.log ++ calls.mapIdx fun i call => (call, u.fates.getD i .reaches) := by
  induction calls generalizing u with
  | nil => exact (List.append_nil _).symm
  | cons call rest ih =>
      obtain ⟨hfates, hlog⟩ := snd_service call u
      refine (ih (service call u).2).trans ?_
      rw [hlog, hfates, List.append_assoc, List.mapIdx_cons]
      cases hu : u.fates <;> simp [nextFate, hu]

theorem map_fst_log_serve (u : UnreliableStore) (calls : List StoreCall) :
    (u.serve calls).log.map Prod.fst = u.log.map Prod.fst ++ calls := by
  rw [log_serve, List.map_append]
  exact congrArg _ (List.ext_getElem (by simp) (by simp))

/-- A call that is lost changes nothing, and one that is not lost is applied. -/
theorem store_service {u : UnreliableStore} {store : SessionStore}
    (h : u.store = store.serve u.applied) (call : StoreCall) :
    (service call u).2.store = store.serve (service call u).2.applied := by
  rw [applied, (snd_service call u).2, List.filter_append, List.map_append]
  cases hfate : u.nextFate with
  | reaches =>
      have hserved : (service call u).2.store = (SessionStore.service call u.store).2 := by
        simp only [service, hfate]
      rw [hserved, h]
      exact (SessionStore.serve_append store u.applied [call]).symm
  | lost | refused detail =>
      have hkept : (service call u).2.store = u.store := by
        simp only [service, hfate, note]
      rw [hkept, h]
      exact congrArg store.serve (List.append_nil _).symm

theorem store_serve {u : UnreliableStore} {store : SessionStore}
    (h : u.store = store.serve u.applied) (calls : List StoreCall) :
    (u.serve calls).store = store.serve (u.serve calls).applied := by
  induction calls generalizing u with
  | nil => exact h
  | cons call rest ih => exact ih (store_service h call)

end UnreliableStore

/-- Calls that are all about one session change what a store has for it, and nothing else. -/
theorem SessionStore.get?_serve {calls : List StoreCall} {id : Uuid}
    (h : ∀ call ∈ calls, call.session = id) (store : SessionStore) :
    (store.serve calls).get? id = StoreCall.effects calls (store.get? id) := by
  induction calls generalizing store with
  | nil => rfl
  | cons call rest ih =>
      obtain ⟨hcall, hrest⟩ := List.forall_mem_cons.mp h
      refine (ih hrest (service call store).2).trans ?_
      rw [get?_service, if_pos hcall]
      rfl

/-! ## Parts of a record -/

/-- A stage is recorded as far as calls are about it: with its name and its input exactly if one of
them appends it, and with its output exactly if one of them completes it. -/
structure StageReport.IsPartlyIn (r : StageReport) (stage : Stage) (calls : List StoreCall) :
    Prop where
  named : (stage.name = r.name ∧ stage.input = r.input) ↔ ∃ call ∈ calls, call.appends stage.index
  output : ∀ value, stage.output = some value ↔
    value = r.output ∧ ∃ call ∈ calls, call.completes stage.index

/-- The record of a session has the stages that calls are about, in the order of their indices, and
each of them as far as the calls are about it. -/
structure Session.RecordsPart (s : Session) (reports : List StageReport)
    (calls : List StoreCall) : Prop where
  increasing : (s.stages.map Stage.index).Pairwise (· < ·)
  indices : ∀ index, index ∈ s.stages.map Stage.index ↔
    ∃ call ∈ calls, call.appends index ∨ call.completes index
  stages : ∀ stage ∈ s.stages, ∃ r, reports[stage.index]? = some r ∧ r.IsPartlyIn stage calls

/-- A completion of a stage that is not there is recorded without a name. -/
theorem completeIn_of_new {index : Nat} {stages : List Stage}
    (h : ∀ s ∈ stages, s.index < index) (output : Value) (time : Timestamp) :
    Session.completeIn index output time stages =
      stages ++ [⟨index, "", .null, some output, time, some time⟩] := by
  induction stages with
  | nil => rfl
  | cons s rest ih =>
      obtain ⟨hs, hrest⟩ := List.forall_mem_cons.mp h
      rw [Session.completeIn, if_neg (Nat.ne_of_lt hs), ih hrest]
      rfl

section Parts

variable {r : StageReport} {reports : List StageReport} {session : Session} {id : Uuid}
variable {clock : Nat → Timestamp} {calls part : List StoreCall} {index : Nat}

/-- The calls of a stage are about that stage only. -/
theorem StageReport.index_of_mem (hpart : List.Sublist part (r.calls id clock index))
    {call : StoreCall} (hcall : call ∈ part) (other : Nat) :
    call.appends other ∨ call.completes other ↔ index = other := by
  rcases List.mem_pair.mp (hpart.subset hcall) with rfl | rfl <;>
    simp [StoreCall.appends, StoreCall.completes]

/-- A stage is recorded as far as the calls are about it; other calls do not matter. -/
theorem StageReport.IsPartlyIn.congr {stage : Stage} (h : r.IsPartlyIn stage calls)
    {others : List StoreCall}
    (hcalls : ∀ call : StoreCall, call.appends stage.index ∨ call.completes stage.index →
      (call ∈ calls ↔ call ∈ others)) : r.IsPartlyIn stage others where
  named := h.named.trans
    (exists_congr fun call => and_congr_left fun hcall => hcalls call (.inl hcall))
  output value := (h.output value).trans (and_congr_right fun _ =>
    exists_congr fun call => and_congr_left fun hcall => hcalls call (.inr hcall))

/-- The calls of a stage that are applied are none of them, one of them, or both. -/
theorem StageReport.part_cases (hpart : List.Sublist part (r.calls id clock index)) :
    let append : StoreCall :=
      .append id ⟨index, r.name, r.input, none, clock (2 * index + 1), none⟩
    let complete : StoreCall := .complete id index r.output (clock (2 * index + 2))
    part = [] ∨ part = [append] ∨ part = [complete] ∨ part = [append, complete] := by
  simp only [StageReport.calls, List.sublist_cons_iff, List.sublist_nil] at hpart
  grind

/-- Some of the calls of a new stage make one more record, unless there are none of them. -/
theorem StageReport.effects_part (hname : r.name ≠ "")
    (hpart : List.Sublist part (r.calls id clock index)) (hne : part ≠ [])
    (hstages : ∀ s ∈ session.stages, s.index < index) :
    ∃ stage, StoreCall.effects part (some session) = some (session.appendStages [stage]) ∧
      stage.index = index ∧ r.IsPartlyIn stage part := by
  let complete : StoreCall := .complete id index r.output (clock (2 * index + 2))
  have houtput (hcomplete : complete ∈ part) (value : Value) : some r.output = some value ↔
      value = r.output ∧ ∃ call ∈ part, call.completes index := by
    rw [Option.some_inj, eq_comm]
    exact (and_iff_left ⟨complete, hcomplete, beq_self_eq_true index⟩).symm
  rcases StageReport.part_cases hpart with rfl | rfl | rfl | rfl
  · exact absurd rfl hne
  · refine ⟨_, rfl, rfl, ?_, ?_⟩ <;> simp [StoreCall.appends, StoreCall.completes]
  · let stage : Stage := ⟨index, "", .null, some r.output, clock (2 * index + 2),
      some (clock (2 * index + 2))⟩
    have hcompleted : session.completeStage index r.output (clock (2 * index + 2)) =
        session.appendStages [stage] := by
      rw [Session.completeStage, completeIn_of_new hstages]
      rfl
    refine ⟨stage, congrArg some hcompleted, rfl, ?_, houtput List.mem_cons_self⟩
    -- No stage of a run is without a name.
    simpa [StoreCall.appends, stage] using fun h => absurd h hname
  · let added : Stage := ⟨index, r.name, r.input, none, clock (2 * index + 1), none⟩
    have hcompleted : (session.appendStage added).completeStage index r.output
        (clock (2 * index + 2)) = session.appendStages [r.stage clock index] := by
      rw [Session.completeStage, Session.appendStage, completeIn_append hstages rfl]
      rfl
    refine ⟨r.stage clock index, congrArg some hcompleted, rfl, ?_, houtput (by simp [complete])⟩
    simp [StageReport.stage, StoreCall.appends]

namespace Session.RecordsPart

theorem index_lt (h : session.RecordsPart reports calls) :
    ∀ s ∈ session.stages, s.index < reports.length := by
  intro s hs
  obtain ⟨r, hr, -⟩ := h.stages s hs
  exact (List.getElem?_eq_some_iff.mp hr).1

/-- Calls that are about the next stage do not matter for the stages before it. -/
theorem stages_concat (h : session.RecordsPart reports calls) (r : StageReport)
    (hlater : ∀ call ∈ part, ∀ index, call.appends index ∨ call.completes index →
      reports.length = index) :
    ∀ s ∈ session.stages,
      ∃ r', (reports ++ [r])[s.index]? = some r' ∧ r'.IsPartlyIn s (calls ++ part) := by
  intro s hs
  obtain ⟨r', hr', hpartly⟩ := h.stages s hs
  have hlt := h.index_lt s hs
  refine ⟨r', (List.getElem?_append_left hlt).trans hr', hpartly.congr fun call hcall => ?_⟩
  rw [List.mem_append]
  exact (or_iff_left fun hmem => Nat.ne_of_gt hlt (hlater call hmem s.index hcall)).symm

/-- A record of the next stage is a part of the record if it is recorded as far as its calls. -/
theorem appendStage (h : session.RecordsPart reports calls) {new : Stage}
    (hnew : new.index = reports.length) (hne : part ≠ [])
    (hlater : ∀ call ∈ part, ∀ index, call.appends index ∨ call.completes index ↔
      reports.length = index)
    (hpartly : r.IsPartlyIn new part) :
    (session.appendStages [new]).RecordsPart (reports ++ [r]) (calls ++ part) := by
  have hmap : (session.appendStages [new]).stages.map Stage.index =
      session.stages.map Stage.index ++ [reports.length] := by
    rw [Session.appendStages, List.map_append, List.map_singleton, hnew]
  refine ⟨?_, fun index => ?_, fun s hs => ?_⟩
  · rw [hmap, List.pairwise_append]
    refine ⟨h.increasing, List.pairwise_singleton _ _, fun index hindex other hother => ?_⟩
    obtain ⟨s, hs, rfl⟩ := List.mem_map.mp hindex
    exact List.mem_singleton.mp hother ▸ h.index_lt s hs
  · obtain ⟨first, hfirst⟩ := List.exists_mem_of_ne_nil part hne
    simp only [hmap, List.mem_append, List.mem_singleton, h.indices, or_and_right, exists_or]
    refine or_congr_right ⟨fun hindex => ?_, ?_⟩
    · exact ⟨first, hfirst, (hlater first hfirst index).mpr hindex.symm⟩
    · rintro ⟨call, hcall, hindex⟩
      exact ((hlater call hcall index).mp hindex).symm
  · rcases List.mem_append.mp hs with hs | hs
    · exact h.stages_concat r (fun call hcall index => (hlater call hcall index).mp) s hs
    · obtain rfl := List.mem_singleton.mp hs
      refine ⟨r, by rw [hnew]; simp, hpartly.congr fun call hcall => ?_⟩
      rw [List.mem_append]
      refine (or_iff_right fun hmem => ?_).symm
      -- The earlier calls are about stages that are there.
      obtain ⟨other, hother, hindex⟩ :=
        List.mem_map.mp ((h.indices s.index).mpr ⟨call, hmem, hcall⟩)
      exact Nat.ne_of_lt (h.index_lt other hother) (hindex.trans hnew)

/-- One more stage is recorded as far as its calls are applied. -/
theorem concat (h : session.RecordsPart reports calls) (hname : r.name ≠ "")
    (hpart : List.Sublist part (r.calls id clock reports.length)) :
    ∃ more, StoreCall.effects part (some session) = some (session.appendStages more) ∧
      (session.appendStages more).RecordsPart (reports ++ [r]) (calls ++ part) := by
  have hlater : ∀ call ∈ part, ∀ index, call.appends index ∨ call.completes index ↔
      reports.length = index :=
    fun call hcall => StageReport.index_of_mem hpart hcall
  by_cases hne : part = []
  · subst hne
    refine ⟨[], by rw [Session.appendStages_nil]; rfl, ?_⟩
    rw [Session.appendStages_nil]
    refine ⟨h.increasing, ?_, h.stages_concat r fun _ hcall => absurd hcall List.not_mem_nil⟩
    rw [List.append_nil]
    exact h.indices
  · obtain ⟨new, heffects, hnew, hpartly⟩ := StageReport.effects_part hname hpart hne h.index_lt
    exact ⟨[new], heffects, h.appendStage hnew hne hlater hpartly⟩

/-- So are several stages, one after the other. -/
theorem append (h : session.RecordsPart reports calls) {rest : List StageReport}
    (hnames : ∀ r ∈ rest, r.name ≠ "")
    (hpart : List.Sublist part (StoreCall.ofStages id clock reports.length rest)) :
    ∃ more, StoreCall.effects part (some session) = some (session.appendStages more) ∧
      (session.appendStages more).RecordsPart (reports ++ rest) (calls ++ part) := by
  induction rest generalizing session reports calls part with
  | nil =>
      obtain rfl := List.sublist_nil.mp hpart
      refine ⟨[], by rw [Session.appendStages_nil]; rfl, ?_⟩
      rw [Session.appendStages_nil, List.append_nil, List.append_nil]
      exact h
  | cons r rest ih =>
      obtain ⟨hname, hnames⟩ := List.forall_mem_cons.mp hnames
      rw [StoreCall.ofStages_cons] at hpart
      obtain ⟨first, later, rfl, hfirst, hlater⟩ := List.sublist_append_iff.mp hpart
      obtain ⟨stage, heffect, hstage⟩ := h.concat hname hfirst
      have hlength : (reports ++ [r]).length = reports.length + 1 := List.length_append
      rw [← hlength] at hlater
      obtain ⟨more, heffects, hmore⟩ := ih hstage hnames hlater
      refine ⟨stage ++ more, ?_, ?_⟩
      · rw [StoreCall.effects_append, heffect, heffects]
        simp [Session.appendStages]
      · simpa [Session.appendStages] using hmore

/-- The end of a session leaves its stages as they are. -/
theorem close (h : session.RecordsPart reports calls) (id : Uuid) (status : SessionStatus)
    (time : Timestamp) :
    (session.close status time).RecordsPart reports (calls ++ [.close id status time]) := by
  have hcalls (call : StoreCall) (index : Nat) (hcall : call.appends index ∨ call.completes index) :
      call ∈ calls ↔ call ∈ calls ++ [.close id status time] := by
    rw [List.mem_append, List.mem_singleton]
    refine (or_iff_left ?_).symm
    rintro rfl
    exact hcall.elim nofun nofun
  refine ⟨h.increasing, fun index => (h.indices index).trans ?_, fun s hs => ?_⟩
  · exact exists_congr fun call => and_congr_left (hcalls call index)
  · obtain ⟨r, hr, hpartly⟩ := h.stages s hs
    exact ⟨r, hr, hpartly.congr fun call => hcalls call s.index⟩

end Session.RecordsPart

end Parts

/-! ## Runs of which calls are missing -/

/-- The record of a session is what calls leave of the record of a whole run: it has the same start,
its stages as far as calls are about them, and the same end exactly if one of them closes it. -/
structure Session.IsPartOf (s whole : Session) (reports : List StageReport)
    (calls : List StoreCall) : Prop where
  start : (s.id, s.path, s.input, s.provider, s.createdAt) =
    (whole.id, whole.path, whole.input, whole.provider, whole.createdAt)
  stages : s.RecordsPart reports calls
  terminal : s.status.isTerminal ↔ ∃ call ∈ calls, call.isClose
  ending : s.status.isTerminal → s.status = whole.status ∧ s.closedAt = whole.closedAt

namespace StoreCall

/-- Without the call that creates it, there is no session. -/
theorem effects_none {calls : List StoreCall} (h : ∀ call ∈ calls, call.isCreate = false) :
    effects calls none = none := by
  induction calls with
  | nil => rfl
  | cons call rest ih =>
      obtain ⟨hcall, hrest⟩ := List.forall_mem_cons.mp h
      cases call with
      | create s => cases hcall
      | append | complete | close => exact ih hrest

variable {id : Uuid} {input : SessionInput} {provider : Option Provider}
variable {reports : List StageReport} {ending : Ending} {clock : Nat → Timestamp}

/-- All calls of a run are about its session. -/
theorem session_of_mem_ofRun {call : StoreCall}
    (h : call ∈ ofRun id input provider reports ending clock) : call.session = id := by
  rcases List.mem_cons.mp h with rfl | h
  · rfl
  · rcases List.mem_append.mp h with h | h
    · exact (of_mem_ofStages h).1
    · rw [List.mem_singleton.mp h]
      rfl

/-- With the call that creates it, the other calls leave a part of the record of the run. -/
theorem effects_create (hnames : ∀ r ∈ reports, r.name ≠ "") {part last : List StoreCall}
    (hpart : List.Sublist part (ofStages id clock 0 reports))
    (hlast : List.Sublist last [.close id ending.status (clock (2 * reports.length + 1))]) :
    let calls := .create (.start id input provider (clock 0)) :: (part ++ last)
    ∃ session, effects calls none = some session ∧
      session.IsPartOf (.ofRun id input provider reports ending clock) reports calls := by
  intro calls
  let created : Session := .start id input provider (clock 0)
  have hstart : created.RecordsPart [] [.create created] :=
    ⟨List.Pairwise.nil, by simp [created, Session.start, appends, completes],
      fun _ hs => absurd hs List.not_mem_nil⟩
  obtain ⟨more, heffects, hmore⟩ := hstart.append hnames hpart
  have hopen : ¬∃ call ∈ StoreCall.create created :: part, call.isClose := by
    rintro ⟨call, hcall, hclose⟩
    rcases List.mem_cons.mp hcall with rfl | hcall
    · cases hclose
    · rw [(of_mem_ofStages (hpart.subset hcall)).2.2] at hclose
      cases hclose
  have hserved : effects calls none = effects last (some (created.appendStages more)) := by
    rw [← heffects]
    exact effects_append part last (some created)
  rw [hserved]
  rcases List.sublist_singleton.mp hlast with rfl | rfl
  · have hcalls : calls = .create created :: part := congrArg _ (List.append_nil part)
    rw [hcalls]
    have hgoesOn : ¬(created.appendStages more).status.isTerminal := Bool.false_ne_true
    exact ⟨_, rfl, rfl, hmore, ⟨fun hends => absurd hends hgoesOn, fun hclosed =>
      absurd hclosed hopen⟩, fun hends => absurd hends hgoesOn⟩
  · refine ⟨_, rfl, rfl, hmore.close id _ _, ⟨fun _ => ?_, fun _ => ?_⟩, fun _ => ⟨rfl, rfl⟩⟩
    · exact ⟨_, List.mem_cons_of_mem _ (List.mem_append_right _ (List.mem_singleton_self _)), rfl⟩
    · cases ending <;> rfl

/-- Some of the calls of a run leave no session if they do not create it, and else a part of the
record of the run. -/
theorem effects_of_sublist (hnames : ∀ r ∈ reports, r.name ≠ "") {calls : List StoreCall}
    (h : List.Sublist calls (ofRun id input provider reports ending clock)) :
    ((¬∃ call ∈ calls, call.isCreate) → effects calls none = none) ∧
      ((∃ call ∈ calls, call.isCreate) → ∃ session, effects calls none = some session ∧
        session.IsPartOf (.ofRun id input provider reports ending clock) reports calls) := by
  refine ⟨fun hlost => effects_none fun call hcall => ?_, ?_⟩
  · exact Bool.eq_false_iff.mpr fun hcreate => hlost ⟨call, hcall, hcreate⟩
  · rintro ⟨call, hcall, hcreate⟩
    obtain hrest | ⟨rest, rfl, hrest⟩ := List.sublist_cons_iff.mp h
    · rcases List.mem_append.mp (hrest.subset hcall) with hstage | hclose
      · rw [(of_mem_ofStages hstage).2.1] at hcreate
        cases hcreate
      · rw [List.mem_singleton.mp hclose] at hcreate
        cases hcreate
    · obtain ⟨part, last, rfl, hpart, hlast⟩ := List.sublist_append_iff.mp hrest
      exact effects_create hnames hpart hlast

end StoreCall
end PlanFlow
