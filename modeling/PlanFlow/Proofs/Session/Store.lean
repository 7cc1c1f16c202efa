import Mathlib.Data.List.Nodup
import PlanFlow.Session.Unreliable

/-!
# What calls change in a store

Every call of a session store is about one session.  It changes what the store has for the id of
that session, in a way that depends on nothing else in the store, and leaves all other sessions as
they are.  No two sessions of a store have the same id.
-/

namespace PlanFlow

namespace StoreCall

/-- What becomes of the session of a call, if the store has one. -/
def effect : StoreCall → Option Session → Option Session
  | .create s, _ => some s
  | .append _ stage, found => found.map fun s => s.appendStage stage
  | .complete _ index output time, found => found.map fun s => s.completeStage index output time
  | .close _ status time, found => found.map fun s => s.close status time

/-- Whether a call closes its session. -/
def isClose : StoreCall → Bool
  | .close _ _ _ => true
  | .create _ | .append _ _ | .complete _ _ _ _ => false

end StoreCall

namespace SessionStore

variable {store : SessionStore} {session : Session} {id : Uuid}

theorem get?_put (store : SessionStore) (session : Session) (id : Uuid) :
    (store.put session).get? id = if session.id = id then some session else store.get? id := by
  obtain ⟨sessions⟩ := store
  show (write session sessions).find? (fun s => s.id == id) = _
  induction sessions with
  | nil => by_cases h : session.id = id <;> simp [write, get?, h]
  | cons s rest ih =>
      unfold write
      split
      · rename_i heq
        by_cases h : session.id = id <;> simp [get?, heq, h]
      · rename_i hne
        by_cases h : s.id = id
        · have hother : session.id ≠ id := fun heq => hne (h.trans heq.symm)
          simp [get?, h, hother]
        · simp only [get?] at ih
          simp [get?, h, ih]

theorem id_of_get? (h : store.get? id = some session) : session.id = id := by
  simpa using List.find?_some h

/-- What a change makes of a store, which stays as it is if the session is not there. -/
def changed (store : SessionStore) (id : Uuid) (f : Session → Session) : SessionStore :=
  match store.change id f with
  | .ok changed => changed
  | .error _ => store

/-- A change that leaves the session its id is seen under that id only. -/
theorem get?_changed (f : Session → Session) (hf : ∀ s, (f s).id = s.id) (id other : Uuid) :
    (store.changed id f).get? other =
      if id = other then (store.get? other).map f else store.get? other := by
  unfold changed change
  cases hfind : store.get? id with
  | none =>
      by_cases h : id = other
      · simp [← h, hfind]
      · simp [h]
  | some s =>
      by_cases h : id = other
      · simp [get?_put, hf, id_of_get? hfind, ← h, hfind]
      · simp [get?_put, hf, id_of_get? hfind, h]

/-- The store after a call. -/
theorem snd_service (call : StoreCall) (store : SessionStore) :
    (service call store).2 = match call with
      | .create s => store.put s
      | .append id stage => store.changed id fun s => s.appendStage stage
      | .complete id index output time =>
        store.changed id fun s => s.completeStage index output time
      | .close id status time => store.changed id fun s => s.close status time := by
  cases call with
  | create s => rfl
  | append | complete | close =>
      simp only [service, apply, changed]
      generalize store.change _ _ = result
      cases result <;> rfl

/-- A call changes what the store has for the id of its session, and nothing else. -/
theorem get?_service (call : StoreCall) (store : SessionStore) (id : Uuid) :
    (service call store).2.get? id =
      if call.session = id then call.effect (store.get? id) else store.get? id := by
  rw [snd_service]
  cases call with
  | create s => exact get?_put store s id
  | append other stage => exact get?_changed (·.appendStage stage) (fun _ => rfl) other id
  | complete other index output time =>
      exact get?_changed (·.completeStage index output time) (fun _ => rfl) other id
  | close other status time => exact get?_changed (·.close status time) (fun _ => rfl) other id

/-! ## Ids of a store -/

theorem map_id_write (session : Session) (sessions : List Session) :
    (write session sessions).map Session.id =
      if session.id ∈ sessions.map Session.id then sessions.map Session.id
      else sessions.map Session.id ++ [session.id] := by
  induction sessions with
  | nil => rfl
  | cons s rest ih =>
      unfold write
      split
      · rename_i heq
        simp [heq]
      · rename_i hne
        rw [List.map_cons, ih]
        split <;> rename_i h <;> simp [h, Ne.symm hne]

theorem nodup_put (h : (store.sessions.map Session.id).Nodup) (session : Session) :
    ((store.put session).sessions.map Session.id).Nodup := by
  show ((write session store.sessions).map Session.id).Nodup
  rw [map_id_write]
  split
  · exact h
  · rename_i hnew
    exact List.nodup_append.mpr ⟨h, List.nodup_singleton _, fun a ha b hb heq =>
      hnew (List.mem_singleton.mp hb ▸ heq ▸ ha)⟩

theorem nodup_changed (h : (store.sessions.map Session.id).Nodup) (id : Uuid)
    (f : Session → Session) : ((store.changed id f).sessions.map Session.id).Nodup := by
  unfold changed change
  cases store.get? id with
  | none => exact h
  | some s => exact nodup_put h (f s)

/-- A call does not give two sessions the same id. -/
theorem nodup_service (h : (store.sessions.map Session.id).Nodup) (call : StoreCall) :
    ((service call store).2.sessions.map Session.id).Nodup := by
  rw [snd_service]
  cases call with
  | create s => exact nodup_put h s
  | append id stage => exact nodup_changed h id _
  | complete id index output time => exact nodup_changed h id _
  | close id status time => exact nodup_changed h id _

theorem mem_ids_iff : id ∈ store.sessions.map Session.id ↔ (store.get? id).isSome := by
  simp [get?]

end SessionStore
end PlanFlow
