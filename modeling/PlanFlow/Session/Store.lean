import PlanFlow.Session.Basic

/-!
# The session store

The store keeps sessions by their ids.  There are four calls: a session is created, a stage is
appended, a stage is completed, and a session is closed.  All but the first need a session that is
there.  The completion of a stage that the store does not have is kept as a stage without a name, so
that its output is not lost.
-/

namespace PlanFlow

/-- Why a call of a session store fails. -/
inductive StoreFault where
  | sessionNotFound (id : String)
  /-- The store did not answer within so many milliseconds. -/
  | timeout (limit : Nat)
  | unavailable (detail : String)
  deriving DecidableEq, Inhabited

namespace StoreFault

/-- The wording of the fault. -/
def message : StoreFault → String
  | .sessionNotFound id => "Session '" ++ id ++ "' not found"
  | .timeout limit => "Session store call timed out after " ++ toString limit ++ " ms"
  | .unavailable detail => "Session store unavailable: " ++ detail

end StoreFault

/-- A call of a session store. -/
inductive StoreCall where
  | create (session : Session)
  | append (id : Uuid) (stage : Stage)
  | complete (id : Uuid) (index : Nat) (output : Value) (time : Timestamp)
  | close (id : Uuid) (status : SessionStatus) (time : Timestamp)
  deriving Inhabited

namespace StoreCall

/-- The session that a call is about. -/
def session : StoreCall → Uuid
  | .create s => s.id
  | .append id _ | .complete id _ _ _ | .close id _ _ => id

end StoreCall

namespace Session

/-- The session with one more stage. -/
def appendStage (s : Session) (stage : Stage) : Session :=
  { s with stages := s.stages ++ [stage] }

/-- The stages with the output of one of them, the first of its index; if there is none, a stage
that has nothing but its output. -/
def completeIn (index : Nat) (output : Value) (time : Timestamp) : List Stage → List Stage
  | [] => [⟨index, "", .null, some output, time, some time⟩]
  | stage :: rest =>
    if stage.index = index then
      { stage with output := some output, completedAt := some time } :: rest
    else stage :: completeIn index output time rest

/-- The session with the output of a stage. -/
def completeStage (s : Session) (index : Nat) (output : Value) (time : Timestamp) : Session :=
  { s with stages := completeIn index output time s.stages }

/-- The session that has ended. -/
def close (s : Session) (status : SessionStatus) (time : Timestamp) : Session :=
  { s with status := status, closedAt := some time }

end Session

/-- Sessions with distinct ids. -/
structure SessionStore where
  sessions : List Session
  deriving Inhabited

namespace SessionStore

/-- The store without sessions. -/
def empty : SessionStore := ⟨[]⟩

/-- The session of an id. -/
def get? (store : SessionStore) (id : Uuid) : Option Session :=
  store.sessions.find? fun s => s.id == id

/-- The number of sessions. -/
def size (store : SessionStore) : Nat := store.sessions.length

/-- The sessions with one written, which replaces the one of its id. -/
def write (session : Session) : List Session → List Session
  | [] => [session]
  | s :: rest => if s.id = session.id then session :: rest else s :: write session rest

/-- The store with a session, which replaces the one of its id. -/
def put (store : SessionStore) (session : Session) : SessionStore :=
  ⟨write session store.sessions⟩

/-- Changes the session of an id. -/
def change (store : SessionStore) (id : Uuid) (f : Session → Session) :
    Except StoreFault SessionStore :=
  match store.get? id with
  | some s => .ok (store.put (f s))
  | none => .error (.sessionNotFound id.text)

/-- The effect of a call. -/
def apply (store : SessionStore) : StoreCall → Except StoreFault SessionStore
  | .create s => .ok (store.put s)
  | .append id stage => store.change id fun s => s.appendStage stage
  | .complete id index output time => store.change id fun s => s.completeStage index output time
  | .close id status time => store.change id fun s => s.close status time

end SessionStore
end PlanFlow
