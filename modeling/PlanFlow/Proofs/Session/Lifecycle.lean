import PlanFlow.Proofs.Session.Order
import PlanFlow.Proofs.Session.Recording

/-!
# The lifecycle of a session and its record

A tracker numbers the stages by their completions.  So a stage that is added while another one is
open gets the index of that one, and the store has two records of one index.  A completion without
an open stage has an index of its own, for which the store makes up a record.

Otherwise the record is in step with the events, until the indices, which have 32 bits, are used up
and start again.  So a record has one stage for each that was added, numbered from zero and with its
own output, exactly when the events follow the lifecycle of a session and add no more stages than
there are indices.
-/

namespace PlanFlow

/-- The record of a session has the stages of its events: one for each that was added, numbered from
zero, and each with the output of its completion. -/
structure Session.RecordsStages (s : Session) (events : List SessionEvent) : Prop where
  indices : s.stages.map Stage.index = List.range s.stages.length
  inputs : (s.stages.map fun stage => (stage.name, stage.input)) = SessionEvent.additions events
  outputs : ∀ k : Nat, s.stages[k]?.bind Stage.output = (SessionEvent.completions events)[k]?

/-- A completion keeps the indices of the stages, and adds its own if there is no stage of it. -/
theorem map_index_completeIn (index : Nat) (output : Value) (time : Timestamp)
    (stages : List Stage) :
    (Session.completeIn index output time stages).map Stage.index =
      if index ∈ stages.map Stage.index then stages.map Stage.index
      else stages.map Stage.index ++ [index] := by
  induction stages with
  | nil => rfl
  | cons s rest ih =>
      unfold Session.completeIn
      split
      · rename_i hindex
        simp [hindex]
      · rename_i hindex
        rw [List.map_cons, ih]
        split <;> rename_i h <;> simp [h, Ne.symm hindex]

/-- The record of a session agrees with events that were in order, and with the tracker. -/
structure InStep (events : List SessionEvent) (session : Session) (t : Tracker) : Prop where
  records : session.RecordsStages events
  indexed : session.stages.length ≤ 2 ^ 32
  completed : t.nextIndex = .ofNat (SessionEvent.completions events).length
  stages : ¬t.isClosed → session.stages.length =
    (SessionEvent.completions events).length + if t.openStage?.isSome then 1 else 0
  opened : ∀ index, t.openStage? = some index → index = t.nextIndex

/-- The record of a session has two stages of one index, or more stages than were added, or an index
for each of its stages but not for each of the stages that were completed. -/
def Muddled (events : List SessionEvent) (session : Session) : Prop :=
  ¬(session.stages.map Stage.index).Nodup ∨
    (SessionEvent.additions events).length < session.stages.length ∨
    (∀ index ∈ session.stages.map Stage.index, index < 2 ^ 32) ∧
      2 ^ 32 < (SessionEvent.completions events).length

theorem Session.RecordsStages.length_stages {session : Session} {events : List SessionEvent}
    (h : session.RecordsStages events) :
    session.stages.length = (SessionEvent.additions events).length := by
  rw [← h.inputs, List.length_map]

theorem Session.RecordsStages.not_muddled {session : Session} {events : List SessionEvent}
    (h : session.RecordsStages events) : ¬Muddled events session := by
  rintro (hindices | hlength | ⟨hindices, hcompleted⟩)
  · rw [h.indices] at hindices
    exact hindices List.nodup_range
  · rw [h.length_stages] at hlength
    exact Nat.lt_irrefl _ hlength
  · -- The output that comes after those of all stages is recorded nowhere.
    have hfew : session.stages.length ≤ 2 ^ 32 := by
      refine Nat.le_of_not_lt fun hmany => ?_
      rw [h.indices] at hindices
      exact Nat.lt_irrefl _ (hindices (2 ^ 32) (List.mem_range.mpr hmany))
    have houtput := h.outputs session.stages.length
    rw [List.getElem?_eq_none (Nat.le_refl _), Option.bind_none] at houtput
    have hlast := List.getElem?_eq_none_iff.mp houtput.symm
    omega

section Record

variable {events : List SessionEvent} {session later : Session} {t : Tracker} {id fresh : Uuid}
variable {now : Timestamp} {event : SessionEvent} {call : StoreCall} {index : UInt32}

/-- What a tracker with a session goes on with: the three calls that are about a session. -/
theorem Tracker.call_cases (ht : t.session? ≠ none)
    (h : (t.handle fresh now event).2 = some call) :
    ∃ id openStage, t = ⟨.started id openStage, t.nextIndex⟩ ∧
      ((∃ name input, event = .addStage name input ∧
          call = .append id ⟨t.nextIndex.toNat, name, input, none, now, none⟩ ∧
          (t.handle fresh now event).1 = ⟨.started id (some t.nextIndex), t.nextIndex⟩) ∨
        (∃ output, event = .completeStage output ∧
          call = .complete id (openStage.getD t.nextIndex).toNat output now ∧
          (t.handle fresh now event).1 = ⟨.started id none, t.nextIndex + 1⟩) ∨
        ∃ status, event.added? = none ∧ event.completed? = none ∧ call = .close id status now ∧
          (t.handle fresh now event).1 = ⟨.closed id, t.nextIndex⟩) := by
  obtain ⟨state, index⟩ := t
  cases state with
  | notStarted => exact absurd rfl ht
  | closed id => cases event <;> cases h
  | started id openStage =>
      refine ⟨id, openStage, rfl, ?_⟩
      cases event with
      | start => cases h
      | addStage name input => exact .inl ⟨name, input, rfl, (Option.some.inj h).symm, rfl⟩
      | completeStage output => exact .inr (.inl ⟨output, rfl, (Option.some.inj h).symm, rfl⟩)
      | complete | fail => exact .inr (.inr ⟨_, rfl, rfl, (Option.some.inj h).symm, rfl⟩)

namespace InStep

theorem toNat_nextIndex (h : InStep events session t) :
    t.nextIndex.toNat = (SessionEvent.completions events).length % 2 ^ 32 := by
  rw [h.completed, UInt32.toNat_ofNat']

/-- The index of a stage that is open is the number of the completed ones. -/
theorem toNat_of_open (h : InStep events session ⟨.started id (some index), index⟩) :
    index.toNat = (SessionEvent.completions events).length ∧
      session.stages.length = index.toNat + 1 := by
  have hindex : index.toNat = _ := h.toNat_nextIndex
  have hlength : session.stages.length = _ + 1 := h.stages nofun
  have hindexed := h.indexed
  omega

/-- A stage that is added while none is open is recorded under the next index, if there is one. -/
theorem add (h : InStep events session ⟨.started id none, index⟩)
    (hfree : session.stages.length < 2 ^ 32) (name : String) (input : Value) (now : Timestamp) :
    InStep (events ++ [.addStage name input])
      (session.appendStage ⟨index.toNat, name, input, none, now, none⟩)
      ⟨.started id (some index), index⟩ := by
  have hindex : index.toNat = _ := h.toNat_nextIndex
  obtain ⟨⟨hindices, hinputs, houtputs⟩, -, hcompleted, hstages, -⟩ := h
  have hcount : session.stages.length = (SessionEvent.completions events).length := hstages nofun
  have hlength : session.stages.length = index.toNat := by omega
  have hsame : SessionEvent.completions (events ++ [.addStage name input]) =
      SessionEvent.completions events := by
    rw [SessionEvent.completions_concat]
    exact List.append_nil _
  refine ⟨⟨?_, ?_, fun k => ?_⟩, ?_, ?_, fun _ => ?_, ?_⟩
  · simp [Session.appendStage, hindices, hlength, List.range_succ]
  · simp [Session.appendStage, hinputs, SessionEvent.additions_concat, SessionEvent.added?]
  · rw [hsame, ← houtputs, Session.appendStage, List.getElem?_append]
    split
    · rfl
    · rename_i hk
      rw [List.getElem?_eq_none (Nat.le_of_not_lt hk)]
      cases k - session.stages.length <;> rfl
  · rw [Session.appendStage, List.length_append]
    exact hfree
  · rw [hsame]
    exact hcompleted
  · simp [Session.appendStage, hcount, hsame, Tracker.openStage?]
  · simp [Tracker.openStage?]

/-- A stage that is added is recorded under an index that another one has, if there is one with the
next index. -/
theorem muddled_add (h : InStep events session t)
    (hindex : t.nextIndex.toNat < session.stages.length) (stage : Stage)
    (hstage : stage.index = t.nextIndex.toNat) (more : List SessionEvent) :
    Muddled more (session.appendStage stage) := by
  have htaken : stage.index ∈ session.stages.map Stage.index := by
    rw [h.records.indices, hstage]
    exact List.mem_range.mpr hindex
  refine .inl fun hnodup => ?_
  rw [Session.appendStage, List.map_append, List.map_singleton] at hnodup
  exact (List.nodup_append.mp hnodup).2.2 _ htaken _ (List.mem_singleton_self _) rfl

/-- The stage that is open is the last one, and its index is greater than that of all others. -/
theorem exists_open (h : InStep events session ⟨.started id (some index), index⟩) :
    ∃ front last, session.stages = front ++ [last] ∧
      front.map Stage.index = List.range index.toNat ∧ last.index = index.toNat := by
  have hlength : session.stages.length = index.toNat + 1 := h.toNat_of_open.2
  have hne : session.stages ≠ [] := by
    intro hnil
    simp [hnil] at hlength
  have hsplit := (List.dropLast_append_getLast hne).symm
  have hindices := h.records.indices
  rw [hlength, List.range_succ, hsplit, List.map_append, List.map_singleton] at hindices
  obtain ⟨hfront, hlast⟩ := List.append_inj' hindices rfl
  exact ⟨_, _, hsplit, hfront, (List.cons.inj hlast).1⟩

/-- A completion of the stage that is open is recorded with it. -/
theorem complete (h : InStep events session ⟨.started id (some index), index⟩) (output : Value)
    (now : Timestamp) :
    InStep (events ++ [.completeStage output]) (session.completeStage index.toNat output now)
      ⟨.started id none, index + 1⟩ := by
  obtain ⟨front, last, hsplit, hfront, hlast⟩ := h.exists_open
  obtain ⟨hindex, hstages⟩ := h.toNat_of_open
  obtain ⟨⟨-, hinputs, houtputs⟩, hindexed, hcompleted, -, -⟩ := h
  have hmore : SessionEvent.completions (events ++ [.completeStage output]) =
      SessionEvent.completions events ++ [output] := SessionEvent.completions_concat ..
  have hlength : front.length = index.toNat := by simpa using congrArg List.length hfront
  have hbelow : ∀ s ∈ front, s.index < index.toNat := by
    intro s hs
    exact List.mem_range.mp (hfront ▸ List.mem_map_of_mem hs)
  have hrecorded : (session.completeStage index.toNat output now).stages =
      front ++ [{ last with output := some output, completedAt := some now }] := by
    rw [Session.completeStage, hsplit]
    exact completeIn_append hbelow hlast output now
  -- All stages before the open one have their outputs, so the next output is that of the open one.
  refine ⟨⟨?_, ?_, fun k => ?_⟩, ?_, ?_, fun _ => ?_, ?_⟩
  · simp [hrecorded, hfront, hlast, hlength, List.range_succ]
  · simpa [hrecorded, hsplit, SessionEvent.additions_concat, SessionEvent.added?] using hinputs
  · have hk := houtputs k
    have hcount : front.length = (SessionEvent.completions events).length := hlength.trans hindex
    rw [hsplit, List.getElem?_append] at hk
    rw [hrecorded, hmore, List.getElem?_append, List.getElem?_append, ← hcount]
    split
    · rename_i hlt
      rw [if_pos hlt] at hk
      exact hk
    · cases k - front.length <;> rfl
  · simpa [hrecorded, hsplit] using hindexed
  · rw [hmore, List.length_append, UInt32.ofNat_add, ← hcompleted]
    rfl
  · rw [hrecorded, hmore, List.length_append, List.length_append, hlength, hindex]
    rfl
  · simp [Tracker.openStage?]

/-- A completion while no stage is open gets a record of its own, or there is no index for it. -/
theorem muddled_complete (h : InStep events session ⟨.started id none, index⟩) (output : Value)
    (now : Timestamp) :
    Muddled (events ++ [.completeStage output])
      (session.completeStage index.toNat output now) := by
  have hindex : index.toNat = _ := h.toNat_nextIndex
  have hcount : session.stages.length = (SessionEvent.completions events).length := h.stages nofun
  have hindexed := h.indexed
  have hrecorded := map_index_completeIn index.toNat output now session.stages
  rw [h.records.indices] at hrecorded
  by_cases hfree : session.stages.length < 2 ^ 32
  · have hnew : index.toNat ∉ List.range session.stages.length := by
      rw [List.mem_range]
      omega
    rw [if_neg hnew] at hrecorded
    have hlength := congrArg List.length hrecorded
    rw [List.length_map, List.length_append, List.length_range, h.records.length_stages] at hlength
    refine .inr (.inl ?_)
    rw [SessionEvent.additions_concat, Session.completeStage, hlength]
    simp [SessionEvent.added?]
  · have htaken : index.toNat ∈ List.range session.stages.length :=
      List.mem_range.mpr (by omega)
    rw [if_pos htaken] at hrecorded
    refine .inr (.inr ⟨fun other hother => ?_, ?_⟩)
    · rw [Session.completeStage, hrecorded, List.mem_range] at hother
      omega
    · simp only [SessionEvent.completions_concat, SessionEvent.completed?, List.length_append,
        Option.toList_some, List.length_singleton]
      omega

/-- The end of a session leaves its stages as they are. -/
theorem close {openStage : Option UInt32}
    (h : InStep events session ⟨.started id openStage, index⟩) (hadded : event.added? = none)
    (hcompleted : event.completed? = none) (status : SessionStatus) (now : Timestamp) :
    InStep (events ++ [event]) (session.close status now) ⟨.closed id, index⟩ := by
  have hadditions : SessionEvent.additions (events ++ [event]) = SessionEvent.additions events := by
    rw [SessionEvent.additions_concat, hadded, Option.toList_none, List.append_nil]
  have hcompletions :
      SessionEvent.completions (events ++ [event]) = SessionEvent.completions events := by
    rw [SessionEvent.completions_concat, hcompleted, Option.toList_none, List.append_nil]
  refine ⟨⟨h.records.indices, hadditions ▸ h.records.inputs, hcompletions ▸ h.records.outputs⟩,
    h.indexed, hcompletions ▸ h.completed, fun hopen => absurd rfl hopen, nofun⟩

/-- A call keeps the record in step with the events, except if the event is misplaced, or adds a
stage when all indices are taken: then the record is muddled. -/
theorem handle (h : InStep events session t) (ht : t.session? ≠ none)
    (hcall : (t.handle fresh now event).2 = some call) :
    ∃ later, call.effect (some session) = some later ∧
      (¬event.MisplacedAt t → (SessionEvent.additions (events ++ [event])).length ≤ 2 ^ 32 →
        InStep (events ++ [event]) later (t.handle fresh now event).1) ∧
      (event.MisplacedAt t ∨ 2 ^ 32 < (SessionEvent.additions (events ++ [event])).length →
        Muddled (events ++ [event]) later) := by
  obtain ⟨id, openStage, hstate, hevent⟩ := Tracker.call_cases ht hcall
  have hadditions := h.records.length_stages
  have hindexed := h.indexed
  have hindex := h.toNat_nextIndex
  rw [SessionEvent.additions_concat, List.length_append, ← hadditions]
  obtain ⟨name, input, rfl, rfl, hafter⟩ | ⟨output, rfl, rfl, hafter⟩ |
    ⟨status, hadded, hcompleted, rfl, hafter⟩ := hevent
  · refine ⟨_, rfl, ?_⟩
    rw [hafter]
    cases openStage with
    | none =>
        have hplaced : ¬(SessionEvent.addStage name input).MisplacedAt t := by
          rw [hstate]
          simp [SessionEvent.MisplacedAt, SessionEvent.added?, SessionEvent.completed?,
            Tracker.openStage?]
        refine ⟨fun _ hfree => ?_, fun hfull => h.muddled_add ?_ _ rfl _⟩
        · rw [hstate] at h
          exact h.add hfree name input now
        · have hmany : 2 ^ 32 < session.stages.length + 1 := hfull.resolve_left hplaced
          omega
    | some openStage =>
        have hmisplaced : (SessionEvent.addStage name input).MisplacedAt t :=
          .inl ⟨rfl, by rw [hstate]; rfl⟩
        refine ⟨fun hplace => absurd hmisplaced hplace, fun _ => h.muddled_add ?_ _ rfl _⟩
        obtain rfl : openStage = t.nextIndex := h.opened openStage (by rw [hstate]; rfl)
        rw [hstate] at h
        have hlength := h.toNat_of_open.2
        omega
  · refine ⟨_, rfl, ?_⟩
    have hfits : ¬2 ^ 32 < session.stages.length +
        (SessionEvent.completeStage output).added?.toList.length := Nat.not_lt.mpr hindexed
    rw [hafter]
    rw [hstate] at h
    cases openStage with
    | none =>
        refine ⟨fun hplace => ?_, fun _ => h.muddled_complete output now⟩
        rw [hstate] at hplace
        exact absurd (.inr ⟨rfl, Bool.false_ne_true⟩) hplace
    | some openStage =>
        obtain rfl : openStage = t.nextIndex := h.opened openStage rfl
        refine ⟨fun _ _ => h.complete output now, fun hmuddled => ?_⟩
        have hmisplaced := hmuddled.resolve_right hfits
        rw [hstate] at hmisplaced
        simp [SessionEvent.MisplacedAt, SessionEvent.added?, SessionEvent.completed?,
          Tracker.openStage?] at hmisplaced
  · refine ⟨_, rfl, fun _ _ => ?_, fun hmuddled => ?_⟩
    · rw [hafter]
      rw [hstate] at h
      exact h.close hadded hcompleted status now
    · rw [hadded, Option.toList_none, List.length_nil] at hmuddled
      have hmisplaced := hmuddled.resolve_right (Nat.not_lt.mpr hindexed)
      simp [SessionEvent.MisplacedAt, hadded, hcompleted] at hmisplaced

end InStep

namespace Muddled

/-- More events and stages do not clear up a record, unless there are fewer stages than were added.
-/
theorem mono (h : Muddled events session) (event : SessionEvent)
    (hindices : session.stages.map Stage.index <+: later.stages.map Stage.index)
    (hbelow : ∀ index ∈ later.stages.map Stage.index,
      index ∈ session.stages.map Stage.index ∨ index < 2 ^ 32)
    (hlength : event.added?.toList.length + session.stages.length ≤ later.stages.length) :
    Muddled (events ++ [event]) later := by
  rcases h with hindex | hadded | ⟨hindex, hcompleted⟩
  · exact .inl fun hnodup => hindex (hnodup.sublist hindices.sublist)
  · refine .inr (.inl ?_)
    rw [SessionEvent.additions_concat, List.length_append]
    omega
  · refine .inr (.inr ⟨fun index h => (hbelow index h).elim (hindex index) id, ?_⟩)
    rw [SessionEvent.completions_concat, List.length_append]
    omega

/-- A record that is muddled stays so. -/
theorem handle (h : Muddled events session) (ht : t.session? ≠ none)
    (hcall : (t.handle fresh now event).2 = some call) :
    ∃ later, call.effect (some session) = some later ∧ Muddled (events ++ [event]) later := by
  obtain ⟨id, openStage, -, hevent⟩ := Tracker.call_cases ht hcall
  obtain ⟨name, input, rfl, rfl, -⟩ | ⟨output, rfl, rfl, -⟩ | ⟨status, hadded, -, rfl, -⟩ := hevent
  · let stage : Stage := ⟨t.nextIndex.toNat, name, input, none, now, none⟩
    refine ⟨session.appendStage stage, rfl, h.mono _ ?_ (fun index hindex => ?_) ?_⟩
    · exact ⟨[stage.index], by simp [Session.appendStage]⟩
    · rw [Session.appendStage, List.map_append, List.map_singleton, List.mem_append,
        List.mem_singleton] at hindex
      exact hindex.imp_right fun heq : index = _ => heq ▸ t.nextIndex.toNat_lt
    · simp [SessionEvent.added?, Session.appendStage, Nat.add_comm]
  · let index := openStage.getD t.nextIndex
    have hindices := map_index_completeIn index.toNat output now session.stages
    have hprefix : session.stages.map Stage.index <+:
        (session.completeStage index.toNat output now).stages.map Stage.index := by
      rw [Session.completeStage, hindices]
      split
      · exact List.prefix_rfl
      · exact List.prefix_append _ _
    refine ⟨session.completeStage index.toNat output now, rfl,
      h.mono _ hprefix (fun other hother => ?_) ?_⟩
    · rw [Session.completeStage, hindices] at hother
      split at hother
      · exact .inl hother
      · rw [List.mem_append, List.mem_singleton] at hother
        exact hother.imp_right fun heq : other = _ => heq ▸ index.toNat_lt
    · have hlength := hprefix.length_le
      rw [List.length_map, List.length_map] at hlength
      simpa [SessionEvent.added?] using hlength
  · refine ⟨_, rfl, h.mono _ List.prefix_rfl (fun _ => .inl) ?_⟩
    rw [hadded, Option.toList_none, List.length_nil, Nat.zero_add]
    exact Nat.le_refl _

end Muddled
end Record

/-! ## Runs with a store that applies every call -/

namespace Surroundings

variable {σ : Type} (s : Surroundings σ) {count : Nat} {t : Tracker} {store : SessionStore}
variable {event : SessionEvent} {earlier : List SessionEvent} {session : Session} {id : Uuid}

/-- The same surroundings, with a store that applies every call. -/
def direct : Surroundings SessionStore := ⟨s.settings, SessionStore.service, s.clock, s.ids⟩

theorem store_run_of_none (h : (t.handle (s.ids count) (s.clock count) event).2 = none)
    (store : σ) (rest : List SessionEvent) :
    (s.run count t store (event :: rest)).store = (s.run (count + 1) t store rest).store := by
  simp only [run_cons, h, Tracker.handle_of_eq_none h, Option.elim_none]

theorem store_run_of_some {call : StoreCall}
    (h : (t.handle (s.ids count) (s.clock count) event).2 = some call) (store : σ)
    (rest : List SessionEvent) :
    (s.run count t store (event :: rest)).store =
      (s.run (count + 1) (t.handle (s.ids count) (s.clock count) event).1
        (s.service call store).2 rest).store := by
  simp only [run_cons, h, Option.elim_some]

/-- After the call of an event, the store has what the call makes of the session. -/
theorem get?_call {fresh : Uuid} {now : Timestamp} {call : StoreCall} (ht : t.session? = some id)
    (hcall : (t.handle fresh now event).2 = some call) (store : SessionStore) :
    (t.handle fresh now event).1.session? = some id ∧
      (SessionStore.service call store).2.get? id = call.effect (store.get? id) := by
  obtain ⟨hstays, hsession⟩ := t.session?_handle fresh now event
  have hid : call.session = id := by
    rw [← Option.some_inj, ← hsession call hcall]
    exact hstays id ht
  refine ⟨hstays id ht, ?_⟩
  rw [SessionStore.get?_service, if_pos hid]

/-- A record that is muddled stays so to the end of a run. -/
theorem muddled_run (ht : t.session? = some id) (hfound : store.get? id = some session)
    (h : Muddled earlier session) (events : List SessionEvent) :
    ∃ later, (s.direct.run count t store events).store.get? id = some later ∧
      Muddled (earlier ++ (s.direct.run count t store events).accepted) later := by
  induction events generalizing count t store earlier session with
  | nil => exact ⟨session, hfound, by simpa [run, TrackerRun.accepted] using h⟩
  | cons event rest ih =>
      cases hcall : (t.handle (s.ids count) (s.clock count) event).2 with
      | none =>
          rw [store_run_of_none s.direct hcall, accepted_run_of_none s.direct hcall]
          exact ih ht hfound h
      | some call =>
          obtain ⟨hsession, hget⟩ := get?_call ht hcall store
          obtain ⟨later, heffect, hlater⟩ := h.handle (by simp [ht]) hcall
          rw [store_run_of_some s.direct hcall, accepted_run_of_some s.direct hcall,
            List.append_cons]
          exact ih hsession (hget.trans (hfound ▸ heffect)) hlater

/-- A record that is in step with the events has their stages at the end of a run exactly when the
stages that follow are added and completed in turn, and there are indices for all of them. -/
theorem records_run_iff (count : Nat) (ht : t.session? = some id)
    (hfound : store.get? id = some session) (h : InStep earlier session t)
    (events : List SessionEvent) :
    ∃ later, (s.direct.run count t store events).store.get? id = some later ∧
      let accepted := (s.direct.run count t store events).accepted
      (later.RecordsStages (earlier ++ accepted) ↔ Alternate t.openStage?.isSome accepted ∧
        (SessionEvent.additions (earlier ++ accepted)).length ≤ 2 ^ 32) := by
  induction events generalizing count t store earlier session with
  | nil =>
      refine ⟨session, hfound, ?_⟩
      have hindexed := h.indexed
      rw [h.records.length_stages] at hindexed
      show session.RecordsStages (earlier ++ []) ↔
        True ∧ (SessionEvent.additions (earlier ++ [])).length ≤ 2 ^ 32
      rw [List.append_nil]
      exact iff_of_true h.records ⟨trivial, hindexed⟩
  | cons event rest ih =>
      cases hcall : (t.handle (s.ids count) (s.clock count) event).2 with
      | none =>
          rw [store_run_of_none s.direct hcall, accepted_run_of_none s.direct hcall]
          exact ih (count + 1) ht hfound h
      | some call =>
          obtain ⟨hsession, hget⟩ := get?_call ht hcall store
          obtain ⟨next, heffect, hfits, hmuddles⟩ := h.handle (by simp [ht]) hcall
          have hnext := hget.trans (hfound ▸ heffect)
          have hopen := Tracker.openStage?_handle (Option.isSome_of_eq_some hcall)
          rw [store_run_of_some s.direct hcall, accepted_run_of_some s.direct hcall]
          simp only [Alternate]
          rw [← and_assoc, ← SessionEvent.not_misplacedAt_iff, ← hopen, List.append_cons]
          -- After one event that does not fit neither side can hold; up to then all is in step.
          by_cases hmuddled : event.MisplacedAt t ∨
              2 ^ 32 < (SessionEvent.additions (earlier ++ [event])).length
          · obtain ⟨later, hlater, hmuddled'⟩ :=
              s.muddled_run hsession hnext (hmuddles hmuddled) rest
            refine ⟨later, hlater, fun hrecords => absurd hmuddled' hrecords.not_muddled, ?_⟩
            rintro ⟨⟨hplace, -⟩, hfew⟩
            refine hmuddled.elim (absurd · hplace) fun hmany => absurd hfew ?_
            rw [SessionEvent.additions, List.filterMap_append, List.length_append, Nat.not_le]
            exact Nat.lt_add_right _ hmany
          · obtain ⟨hplace, hfew⟩ := not_or.mp hmuddled
            rw [and_iff_right hplace]
            exact ih (count + 1) hsession hnext (hfits hplace (Nat.le_of_not_lt hfew))

/-- The record of a run has the stages of its events exactly when they are added and completed in
turn, and there are indices for all of them. -/
theorem records_track_iff (sessions : SessionStore) (events : List SessionEvent) :
    let run := s.direct.run count .new sessions events
    ∀ id, run.tracker.session? = some id → ∃ session, run.store.get? id = some session ∧
      (session.RecordsStages run.accepted ↔ Alternate false run.accepted ∧
        (SessionEvent.additions run.accepted).length ≤ 2 ^ 32) := by
  intro run id hid
  induction events generalizing count with
  | nil => cases hid
  | cons event rest ih =>
      cases event with
      | start input provider =>
          let session : Session := .start (s.ids count) input provider (s.clock count)
          have hstep : InStep [.start input provider] session ⟨.started (s.ids count) none, 0⟩ :=
            ⟨⟨rfl, rfl, fun _ => rfl⟩, Nat.zero_le _, rfl, fun _ => rfl, nofun⟩
          have hfound : (sessions.put session).get? (s.ids count) = some session := by
            exact (SessionStore.get?_put ..).trans (if_pos rfl)
          obtain rfl : s.ids count = id := by
            have hsession := (session_of_mem_calls s.direct (count + 1)
              ⟨.started (s.ids count) none, 0⟩ (sessions.put session) rest).1 _ rfl
            exact Option.some.inj (hsession.symm.trans hid)
          obtain ⟨later, hlater, hrecords⟩ :=
            s.records_run_iff (count + 1) rfl hfound hstep rest
          have hcall : (Tracker.new.handle (s.ids count) (s.clock count)
              (.start input provider)).2 = some (.create session) := rfl
          refine ⟨later, hlater, ?_⟩
          rw [accepted_run_of_some s.direct hcall]
          exact hrecords.trans (and_congr_left' ⟨fun h => ⟨nofun, nofun, h⟩, fun h => h.2.2⟩)
      -- A tracker without a session skips every other event.
      | addStage | completeStage | complete | fail => exact ih hid

/-- The events that are not skipped follow the lifecycle of a session exactly when none of them is
out of order.  With a store that applies every call, the record of the session then has the stages
of its events, numbered from zero and each with its own output, if there are indices of 32 bits for
all of them; and otherwise it has not. -/
theorem lifecycle_iff (store : σ) (sessions : SessionStore) (events : List SessionEvent) :
    (FollowsLifecycle (s.track store events).accepted ↔
      ∀ h ∈ (s.track store events).handled, ¬h.OutOfOrder) ∧
    let run := s.direct.track sessions events
    ∀ id, run.tracker.session? = some id → ∃ session, run.store.get? id = some session ∧
      (session.RecordsStages run.accepted ↔ FollowsLifecycle run.accepted ∧
        (SessionEvent.additions run.accepted).length ≤ 2 ^ 32) := by
  have hframed {τ : Type} (s : Surroundings τ) (store : τ) :
      Framed SessionEvent.isStart SessionEvent.isEnding (s.track store events).accepted :=
    (Tracker.framed_calls rfl 0 events).congr (s.kinds_accepted 0 .new store events)
  refine ⟨?_, fun id hid => ?_⟩
  · rw [followsLifecycle_iff (hframed s store)]
    exact s.alternate_accepted_iff 0 .new store events
  · rw [followsLifecycle_iff (hframed s.direct sessions)]
    exact s.records_track_iff sessions events id hid

/-- Surroundings whose clock stands still. -/
def still : Surroundings SessionStore := ⟨default, SessionStore.service, default, default⟩

/-- A stage is added while another one is open, and one is completed although none is open. -/
def outOfOrder : List SessionEvent :=
  [.start (.prompt "Mail the leads") none, .addStage "draft" .null, .addStage "check" .null,
    .completeStage (.string "drafted"), .completeStage (.string "checked")]

/-- No event of `outOfOrder` is skipped.  The output of the stage that was added last is recorded
with the other one of its index, and the last output with a stage that was never added. -/
theorem not_followsLifecycle_outOfOrder :
    let run := still.direct.track .empty outOfOrder
    run.accepted = outOfOrder ∧ ¬FollowsLifecycle run.accepted ∧
      (run.store.get? default).map (fun session =>
        session.stages.map fun stage => (stage.index, stage.name, stage.output)) =
          some [(0, "draft", some (.string "drafted")), (0, "check", none),
            (1, "", some (.string "checked"))] := by
  refine ⟨rfl, fun h => ?_, rfl⟩
  obtain ⟨event, hevent, -⟩ := h.added [.start (.prompt "Mail the leads") none]
    (.addStage "draft" .null) [] (.addStage "check" .null)
    [.completeStage (.string "drafted"), .completeStage (.string "checked")] rfl rfl rfl
  cases hevent

end Surroundings
end PlanFlow
