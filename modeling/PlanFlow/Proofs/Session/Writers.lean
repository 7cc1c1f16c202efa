import PlanFlow.Proofs.Session.Store
import PlanFlow.Session.Recorder

/-!
# Writers that share a store

The events of several runs wait in the queues of their recorders.  Each queue has a writer, and the
writers take turns in any order: at each turn one of them takes the first event out of its queue and
has its tracker handle it.  A run puts its events into its queue without looking at the store, so it
does not matter for the store when it does, and all events are in the queues from the start.

A writer changes nothing but its own session, and sees nothing else.  So what the store has for its
session in the end is what it would have if the writer had been alone with the store.
-/

namespace PlanFlow

namespace UnreliableStore

variable {u : UnreliableStore}

/-- What a store knows about the session of an id: its record, and how many calls have closed it. -/
def view (u : UnreliableStore) (id : Uuid) : Option Session × Nat :=
  (u.store.get? id, u.log.countP fun entry => decide (entry.1.session = id) && entry.1.isClose)

/-- A store that loses no more calls. -/
def Reliable (u : UnreliableStore) : Prop := u.fates = []

theorem Reliable.service (h : u.Reliable) (call : StoreCall) :
    UnreliableStore.service call u =
      ((SessionStore.service call u.store).1,
        ⟨(SessionStore.service call u.store).2, [], u.log ++ [(call, .reaches)]⟩) := by
  obtain ⟨store, fates, log⟩ := u
  obtain rfl : fates = [] := h
  rfl

theorem Reliable.snd_service (h : u.Reliable) (call : StoreCall) :
    (UnreliableStore.service call u).2.Reliable := by
  rw [h.service]
  rfl

/-- A call that reaches the store is seen under the id of its session only. -/
theorem Reliable.view_service (h : u.Reliable) (call : StoreCall) (id : Uuid) :
    (UnreliableStore.service call u).2.view id =
      if call.session = id then
        (call.effect (u.view id).1, (u.view id).2 + if call.isClose then 1 else 0)
      else u.view id := by
  simp only [h.service, view, SessionStore.get?_service, List.countP_append, List.countP_singleton]
  by_cases hid : call.session = id <;> simp [hid]

end UnreliableStore

namespace Tracker

/-- Handling an event is one call of the store, or none. -/
theorem snd_track {σ : Type} (t : Tracker) (settings : TrackingSettings) (service : StoreService σ)
    (store : σ) (fresh : Uuid) (now : Timestamp) (event : SessionEvent) :
    (t.track settings service store fresh now event).2 =
      ((t.handle fresh now event).1,
        (t.handle fresh now event).2.elim store fun call => (service call store).2) := by
  unfold track
  split <;> rename_i h <;> rw [h] <;> rfl

/-- A tracker that is about no session but a given one stays so, and so are its calls. -/
theorem session_of_handle {t : Tracker} {id : Uuid} (h : ∀ other ∈ t.session?, other = id)
    (now : Timestamp) (event : SessionEvent) :
    (∀ other ∈ (t.handle id now event).1.session?, other = id) ∧
      ∀ call ∈ (t.handle id now event).2, call.session = id := by
  obtain ⟨state, index⟩ := t
  cases state with
  | notStarted => cases event <;> simp [handle, close, session?, StoreCall.session, Session.start]
  | started other openStage =>
      obtain rfl : other = id := h other rfl
      cases event <;> simp [handle, close, session?, StoreCall.session]
  | closed other =>
      obtain rfl : other = id := h other rfl
      cases event <;> simp [handle, close, session?]

end Tracker

/-! ## Writers -/

/-- A writer: the session and the settings of its run, its tracker, and the events that are still in
the queue, oldest first. -/
structure SessionWriter where
  settings : TrackingSettings
  session : Uuid
  tracker : Tracker
  queue : List SessionEvent

namespace SessionWriter

/-- The writer of a recorder. -/
def ofRecorder (settings : TrackingSettings) (r : Recorder) : SessionWriter :=
  ⟨settings, r.session, .new, r.queue.getD []⟩

/-- Takes the first event out of the queue and has the tracker handle it. -/
def turn (w : SessionWriter) (now : Timestamp) (u : UnreliableStore) :
    SessionWriter × UnreliableStore :=
  match w.queue with
  | [] => (w, u)
  | event :: rest =>
    let (_, tracker, u) := w.tracker.track w.settings UnreliableStore.service u w.session now event
    ({ w with tracker := tracker, queue := rest }, u)

/-- The turns of a writer that is alone with a store. -/
def turns (w : SessionWriter) (u : UnreliableStore) : List Timestamp →
    SessionWriter × UnreliableStore
  | [] => (w, u)
  | now :: rest =>
    let (w, u) := w.turn now u
    w.turns u rest

/-- The tracker of a writer is about the writer's own session. -/
def Owns (w : SessionWriter) : Prop := ∀ id ∈ w.tracker.session?, id = w.session

theorem owns_ofRecorder (settings : TrackingSettings) (r : Recorder) :
    (ofRecorder settings r).Owns :=
  nofun

/-- What a turn is apart from the store: the writer after it, and the call that is made. -/
def handled (w : SessionWriter) (now : Timestamp) : SessionWriter × Option StoreCall :=
  match w.queue with
  | [] => (w, none)
  | event :: rest =>
    let (tracker, call) := w.tracker.handle w.session now event
    ({ w with tracker := tracker, queue := rest }, call)

theorem turn_eq (w : SessionWriter) (now : Timestamp) (u : UnreliableStore) :
    w.turn now u = ((w.handled now).1,
      (w.handled now).2.elim u fun call => (UnreliableStore.service call u).2) := by
  unfold turn handled
  split
  · rfl
  · simp only [Tracker.snd_track]

section Turn

variable {w : SessionWriter} {u u' : UnreliableStore}

theorem session_turn (w : SessionWriter) (now : Timestamp) (u : UnreliableStore) :
    (w.turn now u).1.session = w.session := by
  rw [turn_eq]
  unfold handled
  split <;> rfl

/-- The calls of a writer are about its own session. -/
theorem Owns.handled (h : w.Owns) (now : Timestamp) :
    (w.handled now).1.Owns ∧ ∀ call ∈ (w.handled now).2, call.session = w.session := by
  unfold SessionWriter.handled
  cases w.queue with
  | nil => exact ⟨h, nofun⟩
  | cons event rest => exact Tracker.session_of_handle h now event

theorem Owns.turn (h : w.Owns) (now : Timestamp) (u : UnreliableStore) : (w.turn now u).1.Owns := by
  rw [turn_eq]
  exact (h.handled now).1

theorem reliable_turn (hu : u.Reliable) (w : SessionWriter) (now : Timestamp) :
    (w.turn now u).2.Reliable := by
  rw [turn_eq]
  cases (w.handled now).2 with
  | none => exact hu
  | some call => exact hu.snd_service call

/-- A turn leaves the sessions of all others as they are. -/
theorem Owns.view_turn_of_ne (h : w.Owns) (hu : u.Reliable) (now : Timestamp) {id : Uuid}
    (hid : w.session ≠ id) : (w.turn now u).2.view id = u.view id := by
  rw [turn_eq]
  cases hcall : (w.handled now).2 with
  | none => rfl
  | some call =>
      have hsession := (h.handled now).2 call hcall
      exact (hu.view_service call id).trans (if_neg (hsession ▸ hid))

/-- What a turn does depends on what the store has for the writer's own session, and on nothing
else. -/
theorem turn_congr (hu : u.Reliable) (hu' : u'.Reliable)
    (hview : u.view w.session = u'.view w.session) (now : Timestamp) :
    (w.turn now u).1 = (w.turn now u').1 ∧
      (w.turn now u).2.view w.session = (w.turn now u').2.view w.session := by
  rw [turn_eq, turn_eq]
  refine ⟨rfl, ?_⟩
  cases (w.handled now).2 with
  | none => exact hview
  | some call =>
      show (UnreliableStore.service call u).2.view w.session =
        (UnreliableStore.service call u').2.view w.session
      rw [hu.view_service, hu'.view_service, hview]

theorem turns_congr (hu : u.Reliable) (hu' : u'.Reliable)
    (hview : u.view w.session = u'.view w.session) (times : List Timestamp) :
    (w.turns u times).1 = (w.turns u' times).1 ∧
      (w.turns u times).2.view w.session = (w.turns u' times).2.view w.session := by
  induction times generalizing w u u' with
  | nil => exact ⟨rfl, hview⟩
  | cons now rest ih =>
      obtain ⟨hsame, hview⟩ := turn_congr hu hu' hview now
      simp only [turns, ← hsame]
      rw [← session_turn w now u] at hview ⊢
      exact ih (reliable_turn hu w now) (reliable_turn hu' w now) hview

end Turn
end SessionWriter

/-! ## Taking turns -/

/-- Writers, and the store that they share. -/
structure Writers where
  writers : List SessionWriter
  store : UnreliableStore

namespace Writers

/-- A turn of the writer at a position, at some time; there may be none at the position. -/
def step (s : Writers) (turn : Nat × Timestamp) : Writers :=
  match s.writers[turn.1]? with
  | none => s
  | some w =>
    let (w, store) := w.turn turn.2 s.store
    ⟨s.writers.set turn.1 w, store⟩

/-- Turns one after the other. -/
def run (s : Writers) (schedule : List (Nat × Timestamp)) : Writers := schedule.foldl step s

/-- The times at which the writer at a position has its turns. -/
def timesOf (i : Nat) (schedule : List (Nat × Timestamp)) : List Timestamp :=
  schedule.filterMap fun turn => if turn.1 = i then some turn.2 else none

/-- Writers of distinct sessions, each with a tracker of its own, and a store that loses no call. -/
structure WellFormed (s : Writers) : Prop where
  nodup : (s.writers.map SessionWriter.session).Nodup
  owns : ∀ w ∈ s.writers, w.Owns
  reliable : s.store.Reliable

variable {s : Writers}

theorem step_of_getElem? {turn : Nat × Timestamp} {w : SessionWriter}
    (hw : s.writers[turn.1]? = some w) :
    s.step turn =
      ⟨s.writers.set turn.1 (w.turn turn.2 s.store).1, (w.turn turn.2 s.store).2⟩ := by
  unfold step
  rw [hw]

theorem step_of_eq {turn : Nat × Timestamp} {w : SessionWriter}
    (hw : s.writers[turn.1]? = some w) :
    (s.step turn).writers[turn.1]? = some (w.turn turn.2 s.store).1 ∧
      (s.step turn).store = (w.turn turn.2 s.store).2 := by
  rw [step_of_getElem? hw]
  exact ⟨List.getElem?_set_self (List.getElem?_eq_some_iff.mp hw).1, rfl⟩

theorem step_of_none {turn : Nat × Timestamp} (hnone : s.writers[turn.1]? = none) :
    s.step turn = s := by
  unfold step
  rw [hnone]

/-- A turn leaves the sessions of the writers as they are. -/
theorem map_session_step (s : Writers) (turn : Nat × Timestamp) :
    (s.step turn).writers.map SessionWriter.session = s.writers.map SessionWriter.session := by
  cases hw : s.writers[turn.1]? with
  | none => rw [step_of_none hw]
  | some w =>
      rw [step_of_getElem? hw, List.map_set, SessionWriter.session_turn]
      obtain ⟨hi, rfl⟩ := List.getElem?_eq_some_iff.mp hw
      rw [← List.map_set, List.set_getElem_self]

/-- A turn keeps the writers apart. -/
theorem WellFormed.step (h : s.WellFormed) (turn : Nat × Timestamp) : (s.step turn).WellFormed := by
  cases hw : s.writers[turn.1]? with
  | none => rwa [step_of_none hw]
  | some w =>
      refine ⟨map_session_step s turn ▸ h.nodup, fun other hother => ?_, ?_⟩
      · rw [step_of_getElem? hw] at hother
        rcases List.mem_or_eq_of_mem_set hother with hother | rfl
        · exact h.owns other hother
        · exact (h.owns w (List.mem_of_getElem? hw)).turn turn.2 s.store
      · rw [(step_of_eq hw).2]
        exact SessionWriter.reliable_turn h.reliable w turn.2

theorem WellFormed.session_ne (h : s.WellFormed) {i j : Nat} {w other : SessionWriter}
    (hw : s.writers[i]? = some w) (hother : s.writers[j]? = some other) (hne : j ≠ i) :
    other.session ≠ w.session := by
  intro heq
  have hlt : j < (s.writers.map SessionWriter.session).length := by
    rw [List.length_map]
    exact (List.getElem?_eq_some_iff.mp hother).1
  refine hne ((List.getElem?_inj hlt h.nodup).mp ?_)
  rw [List.getElem?_map, List.getElem?_map, hother, hw, Option.map_some, Option.map_some, heq]

/-- A turn of another writer changes neither a writer nor its session. -/
theorem WellFormed.step_of_ne (h : s.WellFormed) {turn : Nat × Timestamp} {i : Nat}
    (hi : turn.1 ≠ i) {w : SessionWriter} (hw : s.writers[i]? = some w) :
    (s.step turn).writers[i]? = some w ∧
      (s.step turn).store.view w.session = s.store.view w.session := by
  cases hother : s.writers[turn.1]? with
  | none =>
      rw [step_of_none hother]
      exact ⟨hw, rfl⟩
  | some other =>
      have hne := h.session_ne hw hother hi
      rw [step_of_getElem? hother]
      refine ⟨(List.getElem?_set_ne hi).trans hw, ?_⟩
      exact (h.owns other (List.mem_of_getElem? hother)).view_turn_of_ne h.reliable turn.2 hne

/-- In a run, each writer and its session go through what they would go through alone. -/
theorem WellFormed.run_eq_turns (h : s.WellFormed) (schedule : List (Nat × Timestamp)) {i : Nat}
    {w : SessionWriter} (hw : s.writers[i]? = some w) :
    (s.run schedule).writers[i]? = some (w.turns s.store (timesOf i schedule)).1 ∧
      (s.run schedule).store.view w.session =
        (w.turns s.store (timesOf i schedule)).2.view w.session := by
  -- The writer's own turn is the next one that it has alone.  Any other turn may change the store,
  -- but the turns that the writer still has do the same before and after it.
  induction schedule generalizing s w with
  | nil => exact ⟨hw, rfl⟩
  | cons turn rest ih =>
      by_cases hi : turn.1 = i
      · subst hi
        have htimes : timesOf turn.1 (turn :: rest) = turn.2 :: timesOf turn.1 rest := by
          simp [timesOf]
        obtain ⟨hwriter, hstore⟩ := step_of_eq hw
        obtain ⟨hturns, hview⟩ := ih (h.step turn) hwriter
        rw [SessionWriter.session_turn] at hview
        rw [hstore] at hturns hview
        rw [htimes]
        exact ⟨hturns, hview⟩
      · have htimes : timesOf i (turn :: rest) = timesOf i rest := by
          simp [timesOf, hi]
        obtain ⟨hsame, hview⟩ := h.step_of_ne hi hw
        obtain ⟨hwriter, hstore⟩ := ih (h.step turn) hsame
        obtain ⟨hturns, hviews⟩ :=
          SessionWriter.turns_congr (h.step turn).reliable h.reliable hview (timesOf i rest)
        rw [htimes, ← hturns, ← hviews]
        exact ⟨hwriter, hstore⟩

/-! ## The sessions in the store -/

/-- The ids of the sessions in the store. -/
def storedIds (s : Writers) : List Uuid := s.store.store.sessions.map Session.id

/-- A turn makes at most one call, which is about the session of a writer. -/
theorem WellFormed.store_step (h : s.WellFormed) (turn : Nat × Timestamp) :
    (s.step turn).store = s.store ∨ ∃ call, call.session ∈ s.writers.map SessionWriter.session ∧
      (s.step turn).store = (UnreliableStore.service call s.store).2 := by
  cases hw : s.writers[turn.1]? with
  | none => exact .inl (by rw [step_of_none hw])
  | some w =>
      have hmem := List.mem_of_getElem? hw
      rw [(step_of_eq hw).2, SessionWriter.turn_eq]
      cases hcall : (w.handled turn.2).2 with
      | none => exact .inl rfl
      | some call =>
          refine .inr ⟨call, ?_, rfl⟩
          rw [((h.owns w hmem).handled turn.2).2 call hcall]
          exact List.mem_map_of_mem hmem

/-- The store has no session but those of the writers, and none of them twice. -/
def Stores (s : Writers) : Prop :=
  s.storedIds.Nodup ∧ s.storedIds ⊆ s.writers.map SessionWriter.session

theorem WellFormed.stores_step (h : s.WellFormed) (hstores : s.Stores) (turn : Nat × Timestamp) :
    (s.step turn).Stores := by
  rw [Stores, map_session_step, storedIds]
  rcases h.store_step turn with hsame | ⟨call, hcall, hstore⟩
  · rw [hsame]
    exact hstores
  · rw [hstore, h.reliable.service]
    refine ⟨SessionStore.nodup_service hstores.1 call, fun id hid => ?_⟩
    rw [SessionStore.mem_ids_iff, SessionStore.get?_service] at hid
    by_cases heq : call.session = id
    · exact heq ▸ hcall
    · rw [if_neg heq, ← SessionStore.mem_ids_iff] at hid
      exact hstores.2 hid

/-- So it is at the end of a run. -/
theorem WellFormed.run (h : s.WellFormed) (hstores : s.Stores) (schedule : List (Nat × Timestamp)) :
    (s.run schedule).WellFormed ∧ (s.run schedule).Stores ∧
      (s.run schedule).writers.map SessionWriter.session =
        s.writers.map SessionWriter.session := by
  induction schedule generalizing s with
  | nil => exact ⟨h, hstores, rfl⟩
  | cons turn rest ih =>
      obtain ⟨hwellFormed, hids, hsessions⟩ := ih (h.step turn) (h.stores_step hstores turn)
      exact ⟨hwellFormed, hids, hsessions.trans (map_session_step s turn)⟩

end Writers
end PlanFlow
