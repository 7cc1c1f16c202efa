import Mathlib.Data.List.Induction
import PlanFlow.Proofs.Session.Store

/-!
# What a store keeps

The record of a session grows by more stages, by the output of a stage that had none, and by its
end.  A store keeps its history as long as every record that it has had grows to the one that it has
later.

No call takes a session away, changes another session than its own, or changes anything if it fails.
But a call may write over what is recorded, and a store does not refuse it: a session may be created
again, a stage completed again, and a session that has ended closed again.  The history is kept
exactly when none of this happens.
-/

namespace PlanFlow

/-! ## Records that grow -/

/-- A record of a stage, and a later one of the same stage.  What was there stays, and the output
and the time of the completion may come in. -/
structure Stage.GrowsTo (old new : Stage) : Prop where
  index : new.index = old.index
  name : new.name = old.name
  input : new.input = old.input
  startedAt : new.startedAt = old.startedAt
  output : ∀ value, old.output = some value → new.output = some value
  completedAt : ∀ time, old.completedAt = some time → new.completedAt = some time

/-- Each stage of a list grows to the stage at its place in another list. -/
def Stage.AllGrowTo (old new : List Stage) : Prop :=
  ∀ (i : Nat) (stage : Stage), old[i]? = some stage →
    ∃ later, new[i]? = some later ∧ stage.GrowsTo later

/-- A record of a session, and a later one of the same session.  The stages that were there stay
where they are, and an end that was recorded stays as it is. -/
structure Session.GrowsTo (old new : Session) : Prop where
  start : (new.id, new.path, new.input, new.provider, new.createdAt) =
    (old.id, old.path, old.input, old.provider, old.createdAt)
  stages : Stage.AllGrowTo old.stages new.stages
  ending : old.status.isTerminal → new.status = old.status ∧ new.closedAt = old.closedAt

namespace Stage

/-- The stage with its output. -/
def completed (s : Stage) (output : Value) (time : Timestamp) : Stage :=
  { s with output := some output, completedAt := some time }

theorem GrowsTo.refl (s : Stage) : s.GrowsTo s :=
  ⟨rfl, rfl, rfl, rfl, fun _ h => h, fun _ h => h⟩

theorem GrowsTo.trans {a b c : Stage} (hab : a.GrowsTo b) (hbc : b.GrowsTo c) : a.GrowsTo c where
  index := hbc.index.trans hab.index
  name := hbc.name.trans hab.name
  input := hbc.input.trans hab.input
  startedAt := hbc.startedAt.trans hab.startedAt
  output value h := hbc.output value (hab.output value h)
  completedAt time h := hbc.completedAt time (hab.completedAt time h)

/-- A stage grows by being completed unless it was completed in another way. -/
theorem growsTo_completed_iff {s : Stage} {output : Value} {time : Timestamp} :
    s.GrowsTo (s.completed output time) ↔
      (∀ value, s.output = some value → value = output) ∧
        ∀ t, s.completedAt = some t → t = time := by
  constructor
  · intro h
    refine ⟨fun value hvalue => ?_, fun t ht => ?_⟩
    · exact (Option.some.inj (h.output value hvalue)).symm
    · exact (Option.some.inj (h.completedAt t ht)).symm
  · rintro ⟨houtput, htime⟩
    refine ⟨rfl, rfl, rfl, rfl, fun value hvalue => ?_, fun t ht => ?_⟩
    · rw [houtput value hvalue]
      rfl
    · rw [htime t ht]
      rfl

theorem AllGrowTo.refl (stages : List Stage) : AllGrowTo stages stages :=
  fun _ stage h => ⟨stage, h, .refl stage⟩

theorem AllGrowTo.trans {a b c : List Stage} (hab : AllGrowTo a b) (hbc : AllGrowTo b c) :
    AllGrowTo a c := by
  intro i stage hstage
  obtain ⟨later, hlater, hgrows⟩ := hab i stage hstage
  obtain ⟨last, hlast, hgrows'⟩ := hbc i later hlater
  exact ⟨last, hlast, hgrows.trans hgrows'⟩

theorem allGrowTo_append (stages more : List Stage) : AllGrowTo stages (stages ++ more) := by
  intro i stage hstage
  have hlt := (List.getElem?_eq_some_iff.mp hstage).1
  exact ⟨stage, (List.getElem?_append_left hlt).trans hstage, .refl stage⟩

theorem allGrowTo_cons_iff {a b : Stage} {as bs : List Stage} :
    AllGrowTo (a :: as) (b :: bs) ↔ a.GrowsTo b ∧ AllGrowTo as bs := by
  constructor
  · intro h
    refine ⟨?_, fun i stage hstage => h (i + 1) stage hstage⟩
    obtain ⟨later, hlater, hgrows⟩ := h 0 a rfl
    exact Option.some.inj hlater ▸ hgrows
  · rintro ⟨hhead, htail⟩ i stage hstage
    cases i with
    | zero => exact ⟨b, rfl, Option.some.inj hstage ▸ hhead⟩
    | succ i => exact htail i stage hstage

end Stage

namespace Session

/-- Completing a stage is about the first stage of its index only, if there is one. -/
theorem allGrowTo_completeIn_iff (index : Nat) (output : Value) (time : Timestamp)
    (stages : List Stage) :
    Stage.AllGrowTo stages (completeIn index output time stages) ↔
      ∀ stage, stages.find? (fun s => s.index = index) = some stage →
        stage.GrowsTo (stage.completed output time) := by
  induction stages with
  | nil =>
      constructor
      · nofun
      · intro _ i stage hstage
        simp at hstage
  | cons s rest ih =>
      rw [completeIn]
      split
      · rename_i hindex
        rw [Stage.allGrowTo_cons_iff, List.find?_cons_of_pos (by simpa using hindex)]
        constructor
        · rintro ⟨hgrows, -⟩ stage hstage
          exact Option.some.inj hstage ▸ hgrows
        · intro h
          exact ⟨h s rfl, .refl rest⟩
      · rename_i hindex
        rw [Stage.allGrowTo_cons_iff, List.find?_cons_of_neg (by simpa using hindex), ih]
        exact and_iff_right (.refl s)

theorem GrowsTo.refl (s : Session) : s.GrowsTo s :=
  ⟨rfl, .refl s.stages, fun _ => ⟨rfl, rfl⟩⟩

theorem GrowsTo.trans {a b c : Session} (hab : a.GrowsTo b) (hbc : b.GrowsTo c) : a.GrowsTo c where
  start := hbc.start.trans hab.start
  stages := hab.stages.trans hbc.stages
  ending hterminal := by
    obtain ⟨hstatus, hclosed⟩ := hab.ending hterminal
    rw [← hstatus] at hterminal
    obtain ⟨hstatus', hclosed'⟩ := hbc.ending hterminal
    exact ⟨hstatus'.trans hstatus, hclosed'.trans hclosed⟩

end Session

/-! ## Calls that write over a record -/

namespace StoreCall

/-- A call writes over the record of its session: it creates the session again, it completes a stage
that was completed in another way, or it closes a session that has ended in another way. -/
def Overwrites (old : Session) : StoreCall → Prop
  | .create new => ¬old.GrowsTo new
  | .append _ _ => False
  | .complete _ index output time =>
    ∃ stage, old.stages.find? (fun s => s.index = index) = some stage ∧
      ((∃ value, stage.output = some value ∧ value ≠ output) ∨
        ∃ t, stage.completedAt = some t ∧ t ≠ time)
  | .close _ status time =>
    old.status.isTerminal ∧ ¬(old.status = status ∧ old.closedAt = some time)

/-- A session that is there stays there, and its record grows unless the call writes over it. -/
theorem effect_growsTo_iff (call : StoreCall) (old : Session) :
    ∃ new, call.effect (some old) = some new ∧ (old.GrowsTo new ↔ ¬call.Overwrites old) := by
  cases call with
  | create s => exact ⟨s, rfl, not_not.symm⟩
  | append id stage =>
      refine ⟨old.appendStage stage, rfl, ?_⟩
      have hgrows : old.GrowsTo (old.appendStage stage) :=
        ⟨rfl, Stage.allGrowTo_append old.stages [stage], fun _ => ⟨rfl, rfl⟩⟩
      simpa [Overwrites] using hgrows
  | complete id index output time =>
      refine ⟨old.completeStage index output time, rfl, ?_⟩
      have hstages := Session.allGrowTo_completeIn_iff index output time old.stages
      have hgrows : old.GrowsTo (old.completeStage index output time) ↔
          ∀ stage, old.stages.find? (fun s => s.index = index) = some stage →
            stage.GrowsTo (stage.completed output time) := by
        rw [← hstages]
        exact ⟨fun h => h.stages, fun h => ⟨rfl, h, fun _ => ⟨rfl, rfl⟩⟩⟩
      rw [hgrows]
      simp only [Stage.growsTo_completed_iff, Overwrites]
      grind
  | close id status time =>
      refine ⟨old.close status time, rfl, ?_⟩
      simp only [Overwrites]
      constructor
      · rintro hgrows ⟨hterminal, hother⟩
        obtain ⟨hstatus, hclosed⟩ := hgrows.ending hterminal
        exact hother ⟨hstatus.symm, hclosed.symm⟩
      · intro hkept
        refine ⟨rfl, .refl old.stages, fun hterminal => ?_⟩
        have hsame := not_not.mp fun hother => hkept ⟨hterminal, hother⟩
        exact ⟨hsame.1.symm, hsame.2.symm⟩

end StoreCall

/-! ## The history of a store -/

namespace SessionStore

/-- The store after calls, of which some may fail. -/
def serve (store : SessionStore) (calls : List StoreCall) : SessionStore :=
  calls.foldl (fun store call => (service call store).2) store

/-- Every session of a store is in a later one, and has grown. -/
def GrowsTo (old new : SessionStore) : Prop :=
  ∀ id session, old.get? id = some session →
    ∃ later, new.get? id = some later ∧ session.GrowsTo later

/-- A call writes over what the store has for its session. -/
def IsOverwrittenBy (store : SessionStore) (call : StoreCall) : Prop :=
  ∃ session, store.get? call.session = some session ∧ call.Overwrites session

variable {store : SessionStore}

theorem GrowsTo.refl (store : SessionStore) : store.GrowsTo store :=
  fun _ session h => ⟨session, h, .refl session⟩

theorem GrowsTo.trans {a b c : SessionStore} (hab : a.GrowsTo b) (hbc : b.GrowsTo c) :
    a.GrowsTo c := by
  intro id session hsession
  obtain ⟨later, hlater, hgrows⟩ := hab id session hsession
  obtain ⟨last, hlast, hgrows'⟩ := hbc id later hlater
  exact ⟨last, hlast, hgrows.trans hgrows'⟩

theorem serve_append (store : SessionStore) (calls more : List StoreCall) :
    store.serve (calls ++ more) = (store.serve calls).serve more :=
  List.foldl_append

/-- A call keeps the history of a store unless it writes over a record. -/
theorem growsTo_service_iff (call : StoreCall) (store : SessionStore) :
    store.GrowsTo (service call store).2 ↔ ¬store.IsOverwrittenBy call := by
  constructor
  · rintro hgrows ⟨session, hsession, hoverwrites⟩
    obtain ⟨later, hlater, hlonger⟩ := hgrows call.session session hsession
    obtain ⟨new, hnew, hiff⟩ := call.effect_growsTo_iff session
    rw [get?_service, if_pos rfl, hsession, hnew] at hlater
    obtain rfl := Option.some.inj hlater
    exact hiff.mp hlonger hoverwrites
  · intro hkept id session hsession
    rw [get?_service]
    by_cases hid : call.session = id
    · subst hid
      obtain ⟨new, hnew, hiff⟩ := call.effect_growsTo_iff session
      rw [if_pos rfl, hsession, hnew]
      exact ⟨new, rfl, hiff.mpr fun hoverwrites => hkept ⟨session, hsession, hoverwrites⟩⟩
    · rw [if_neg hid]
      exact ⟨session, hsession, .refl session⟩

/-- A call takes no session away. -/
theorem isSome_get?_service (call : StoreCall) {id : Uuid} (h : (store.get? id).isSome) :
    ((service call store).2.get? id).isSome := by
  rw [get?_service]
  split
  · obtain ⟨session, hsession⟩ := Option.isSome_iff_exists.mp h
    obtain ⟨new, hnew, -⟩ := call.effect_growsTo_iff session
    rw [hsession, hnew]
    rfl
  · exact h

theorem service_of_error {call : StoreCall} {fault : StoreFault}
    (h : store.apply call = .error fault) : service call store = (.failed fault, store) := by
  rw [service, h]

/-- At any moment in a sequence of calls, the next call takes no session away, leaves all sessions
but its own as they are, and changes nothing if it fails.  Records only grow from any moment to any
later one exactly when no call writes over the record of its session. -/
theorem keeps_history_iff (store : SessionStore) (calls : List StoreCall) :
    (∀ earlier call, earlier ++ [call] <+: calls →
      (∀ id, ((store.serve earlier).get? id).isSome →
        ((store.serve (earlier ++ [call])).get? id).isSome) ∧
      (∀ id, id ≠ call.session →
        (store.serve (earlier ++ [call])).get? id = (store.serve earlier).get? id) ∧
      ∀ fault, (store.serve earlier).apply call = .error fault →
        store.serve (earlier ++ [call]) = store.serve earlier) ∧
    ((∀ earlier later, earlier <+: later → later <+: calls →
        (store.serve earlier).GrowsTo (store.serve later)) ↔
      ∀ earlier call, earlier ++ [call] <+: calls →
        ¬(store.serve earlier).IsOverwrittenBy call) := by
  have hnext (earlier : List StoreCall) (call : StoreCall) :
      store.serve (earlier ++ [call]) = (service call (store.serve earlier)).2 :=
    serve_append store earlier [call]
  refine ⟨fun earlier call _ => ?_, fun hkeeps earlier call hcall => ?_, fun hkept => ?_⟩
  · rw [hnext]
    refine ⟨fun id h => isSome_get?_service call h, fun id hid => ?_, fun fault hfault => ?_⟩
    · rw [get?_service, if_neg (Ne.symm hid)]
    · rw [service_of_error hfault]
  · rw [← growsTo_service_iff, ← hnext]
    exact hkeeps earlier (earlier ++ [call]) (List.prefix_append earlier [call]) hcall
  · rintro earlier later ⟨more, rfl⟩ hlater
    -- Each of the calls in between keeps the history, so all of them do.
    induction more using List.reverseRecOn with
    | nil =>
        rw [List.append_nil]
        exact .refl _
    | append_singleton more call ih =>
        rw [← List.append_assoc] at hlater ⊢
        refine (ih ((List.prefix_append _ [call]).trans hlater)).trans ?_
        rw [hnext, growsTo_service_iff]
        exact hkept (earlier ++ more) call hlater

/-- A session is recorded with its output and its end; then it is completed again, closed again, and
created again. -/
def rewriting : List StoreCall :=
  [.create (.start default (.prompt "Mail the leads") none default),
    .append default ⟨0, "draft", .null, none, default, none⟩,
    .complete default 0 (.string "first") default,
    .close default (.completed (.string "sent")) default,
    .complete default 0 (.string "second") default,
    .close default (.failed "too late") default,
    .create (.start default (.prompt "Mail the leads") none default)]

/-- The store of `rewriting` loses the output, then the end, and then the stage. -/
theorem not_growsTo_serve_rewriting :
    let store (n : Nat) : SessionStore := empty.serve (rewriting.take n)
    let recorded (n : Nat) := ((store n).get? default).map fun session =>
      (session.stages.map Stage.output, session.status)
    recorded 4 = some ([some (.string "first")], .completed (.string "sent")) ∧
      recorded 5 = some ([some (.string "second")], .completed (.string "sent")) ∧
      recorded 6 = some ([some (.string "second")], .failed "too late") ∧
      recorded 7 = some ([], .inProgress) ∧
      ¬(store 4).GrowsTo (store 5) ∧ ¬(store 5).GrowsTo (store 6) ∧
      ¬(store 6).GrowsTo (store 7) := by
  refine ⟨rfl, rfl, rfl, rfl, fun h => ?_, fun h => ?_, fun h => ?_⟩
  · obtain ⟨later, hlater, hgrows⟩ := h default _ rfl
    obtain rfl := Option.some.inj hlater
    obtain ⟨stage, hstage, hstays⟩ := hgrows.stages 0 _ rfl
    obtain rfl := Option.some.inj hstage
    have houtput : some (Value.string "second") = some (.string "first") := hstays.output _ rfl
    simp at houtput
  · obtain ⟨later, hlater, hgrows⟩ := h default _ rfl
    obtain rfl := Option.some.inj hlater
    have hstatus : SessionStatus.failed "too late" = .completed (.string "sent") :=
      (hgrows.ending rfl).1
    cases hstatus
  · obtain ⟨later, hlater, hgrows⟩ := h default _ rfl
    obtain rfl := Option.some.inj hlater
    obtain ⟨stage, hstage, -⟩ := hgrows.stages 0 _ rfl
    cases hstage

end SessionStore
end PlanFlow
