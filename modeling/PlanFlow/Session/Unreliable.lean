import PlanFlow.Session.Tracker

/-!
# Unreliable stores

A store whose calls may be lost on their way.  The fates of the calls are given in advance, one
after the other; once they are used up, every call reaches the store.  The calls are logged, each
with its fate.
-/

namespace PlanFlow

/-- What happens to a call on its way to the store. -/
inductive Fate where
  | reaches
  /-- The call is lost and never answered. -/
  | lost
  /-- The call is refused before it reaches the store. -/
  | refused (detail : String)
  deriving DecidableEq, Inhabited

/-- A store, the fates of the calls to come, and the calls so far with their fates. -/
structure UnreliableStore where
  store : SessionStore
  fates : List Fate
  log : List (StoreCall × Fate)
  deriving Inhabited

namespace UnreliableStore

/-- The empty store, with the fates of the calls to come. -/
def withFates (fates : List Fate) : UnreliableStore := ⟨.empty, fates, []⟩

/-- The fate of the next call. -/
def nextFate (u : UnreliableStore) : Fate := u.fates.headD .reaches

/-- The store with a call logged, whose fate is used up. -/
def note (u : UnreliableStore) (call : StoreCall) : UnreliableStore :=
  { u with fates := u.fates.tail, log := u.log ++ [(call, u.nextFate)] }

/-- The store as its callers see it. -/
def service : StoreService UnreliableStore := fun call u =>
  match u.nextFate with
  | .reaches =>
    let (answer, store) := SessionStore.service call u.store
    (answer, { u.note call with store := store })
  | .lost => (.silent, u.note call)
  | .refused detail => (.failed (.unavailable detail), u.note call)

end UnreliableStore
end PlanFlow
