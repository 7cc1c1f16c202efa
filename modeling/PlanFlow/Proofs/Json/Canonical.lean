import PlanFlow.Json.Decoder
import PlanFlow.Proofs.Json.Entries

/-!
# Canonical values

In a canonical value the keys of every object stand in order, and none is repeated.  What is read of
a document as any value is canonical, whatever the document looks like, and a value that was built
is read in its canonical form.  So a canonical value is read as it is.
-/

namespace PlanFlow

/-- The keys of every object in a value stand in order. -/
def Value.IsCanonical (v : Value) : Prop := v.canonical = v

/-- A value that may be missing is canonical if it is there, and is not null then. -/
def Value.Stated (o : Option Value) : Prop := ∀ v, o = some v → v.IsCanonical ∧ v ≠ .null

/-- The keys of a map stand in order, and its values are canonical. -/
structure Entries.Canonical (entries : Entries Value) : Prop where
  sorted : Entries.Sorted entries
  values : ∀ entry ∈ entries, entry.2.IsCanonical

namespace Value

theorem canonicalItems_eq_map (items : List Value) :
    canonicalItems items = items.map canonical := by
  induction items with
  | nil => rfl
  | cons v rest ih => rw [canonicalItems, ih, List.map_cons]

theorem canonicalEntries_eq_mapValues (entries : List (String × Value)) :
    canonicalEntries entries = Entries.mapValues canonical entries := by
  induction entries with
  | nil => rfl
  | cons entry rest ih =>
      show (entry.1, canonical entry.2) :: canonicalEntries rest = _
      rw [ih]
      rfl

section Find

variable {entries : List (String × Value)} (hnodup : (entries.map Prod.fst).Nodup)
include hnodup

/-- In canonical form an object has the values that were written to it. -/
theorem find?_canonical (key : String) :
    Entries.find? key (Entries.ofList (canonicalEntries entries)) =
      (Entries.find? key entries).map canonical := by
  have hkeys : ((Entries.mapValues canonical entries).map Prod.fst).Nodup := by
    rwa [Entries.keys_mapValues]
  rw [canonicalEntries_eq_mapValues, Entries.find?_ofList hkeys, Entries.find?_mapValues]

theorem find?_canonical_of_mem {entry : String × Value} (h : entry ∈ entries) :
    Entries.find? entry.1 (Entries.ofList (canonicalEntries entries)) =
      some entry.2.canonical := by
  rw [find?_canonical hnodup, Entries.find?_of_mem hnodup h, Option.map_some]

theorem find?_canonical_of_not_mem {key : String} (h : key ∉ entries.map Prod.fst) :
    Entries.find? key (Entries.ofList (canonicalEntries entries)) = none := by
  rw [find?_canonical hnodup, Option.map_eq_none_iff, ← Option.not_isSome_iff_eq_none,
    Entries.find?_isSome_iff]
  exact h

end Find

theorem canonical_eq_null_iff {v : Value} : v.canonical = .null ↔ v = .null := by
  cases v <;> simp [canonical]

theorem isCanonical_array {items : List Value} (h : ∀ v ∈ items, v.IsCanonical) :
    (Value.array items).IsCanonical := by
  show Value.array (canonicalItems items) = .array items
  rw [canonicalItems_eq_map, List.map_congr_left h, List.map_id']

theorem isCanonical_strings (items : List String) : (Value.strings items).IsCanonical := by
  refine isCanonical_array fun v hv => ?_
  obtain ⟨s, -, rfl⟩ := List.mem_map.mp hv
  rfl

end Value

namespace Entries

variable {entries more : Entries Value} {key key' : String} {value value' : Value}

theorem Canonical.mapValues (h : Canonical entries) :
    mapValues Value.canonical entries = entries := by
  refine (List.map_congr_left fun entry hentry => ?_).trans (List.map_id' _)
  rw [h.values entry hentry]

theorem Canonical.object (h : Canonical entries) : (Value.object entries).IsCanonical := by
  show Value.object (ofList (Value.canonicalEntries entries)) = .object entries
  rw [Value.canonicalEntries_eq_mapValues, h.mapValues, ofList_eq_self h.sorted]

theorem Canonical.nil : Canonical [] := ⟨.nil, nofun⟩

theorem Canonical.single (hvalue : value.IsCanonical) : Canonical [(key, value)] where
  sorted := List.pairwise_singleton _ _
  values := List.forall_mem_singleton.mpr hvalue

theorem Canonical.cons (hvalue : value.IsCanonical) (hkey : key < key')
    (h : Canonical ((key', value') :: entries)) :
    Canonical ((key, value) :: (key', value') :: entries) where
  sorted := by
    obtain ⟨hfirst, -⟩ := List.pairwise_cons.mp h.sorted
    have hrest : ∀ entry ∈ entries, key < entry.1 :=
      fun entry hentry => String.lt_trans hkey (hfirst entry hentry)
    exact List.pairwise_cons.mpr ⟨List.forall_mem_cons.mpr ⟨hkey, hrest⟩, h.sorted⟩
  values := List.forall_mem_cons.mpr ⟨hvalue, h.values⟩

theorem Canonical.extend (h : Canonical entries) (hmore : ∀ entry ∈ more, entry.2.IsCanonical) :
    Canonical (Entries.extend entries more) where
  sorted := h.sorted.extend more
  values entry hentry := (mem_extend hentry).elim (h.values entry) (hmore entry)

theorem Canonical.ofList (h : ∀ entry ∈ more, entry.2.IsCanonical) :
    Canonical (Entries.ofList more) := Canonical.nil.extend h

end Entries

/-! ## Any values -/

namespace Decoder

open Value (IsCanonical canonical canonicalItems canonicalEntries)

theorem bind_eq_ok {α β : Type} {x : Except Fault α} {f : α → Except Fault β} {b : β} :
    x >>= f = .ok b ↔ ∃ a, x = .ok a ∧ f a = .ok b := by
  cases x with
  | ok a => exact ⟨fun h => ⟨a, rfl, h⟩, fun ⟨_, ha, h⟩ => Except.ok.inj ha ▸ h⟩
  | error fault => exact ⟨nofun, nofun⟩

theorem map_eq_ok {α β : Type} {x : Except Fault α} {f : α → β} {b : β} :
    x.map f = .ok b ↔ ∃ a, x = .ok a ∧ f a = b := by
  cases x with
  | ok a =>
      exact ⟨fun h => ⟨a, rfl, Except.ok.inj h⟩, fun ⟨_, ha, h⟩ => Except.ok.inj ha ▸ congrArg _ h⟩
  | error fault => exact ⟨nofun, nofun⟩

mutual

/-- What is read as any value is canonical. -/
theorem isCanonical_of_value {mode : ReadMode} : ∀ {node : Node} {v : Value},
    value mode node = .ok v → v.IsCanonical
  | .null, v, h | .bool _, v, h => by
      obtain rfl := Except.ok.inj h
      rfl
  | .number n, v, h | .string n, v, h => by
      cases n with
      | ok n =>
          obtain rfl := Except.ok.inj h
          rfl
      | error fault => cases h
  | .array nodes ending, v, h => by
      obtain ⟨mode', -, h⟩ := bind_eq_ok.mp h
      obtain ⟨vs, hvs, h⟩ := bind_eq_ok.mp h
      obtain ⟨-, -, h⟩ := bind_eq_ok.mp h
      obtain rfl := Except.ok.inj h
      exact Value.isCanonical_array (isCanonical_of_valueItems hvs)
  | .object nodes ending, v, h => by
      obtain ⟨mode', -, h⟩ := bind_eq_ok.mp h
      obtain ⟨vs, hvs, h⟩ := bind_eq_ok.mp h
      obtain ⟨-, -, h⟩ := bind_eq_ok.mp h
      obtain rfl := Except.ok.inj h
      exact (Entries.Canonical.ofList (isCanonical_of_valueEntries hvs)).object
  | .broken b, v, h => by cases h

theorem isCanonical_of_valueItems {mode : ReadMode} : ∀ {nodes : List Node} {vs : List Value},
    valueItems mode nodes = .ok vs → ∀ v ∈ vs, v.IsCanonical
  | [], vs, h => by
      obtain rfl := Except.ok.inj h
      exact nofun
  | node :: rest, vs, h => by
      obtain ⟨v, hv, h⟩ := bind_eq_ok.mp h
      obtain ⟨others, hothers, h⟩ := bind_eq_ok.mp h
      obtain rfl := Except.ok.inj h
      exact List.forall_mem_cons.mpr ⟨isCanonical_of_value hv, isCanonical_of_valueItems hothers⟩

theorem isCanonical_of_valueEntries {mode : ReadMode} : ∀ {nodes : List (Key × Node)}
    {vs : List (String × Value)}, valueEntries mode nodes = .ok vs →
      ∀ entry ∈ vs, entry.2.IsCanonical
  | [], vs, h => by
      obtain rfl := Except.ok.inj h
      exact nofun
  | (key, node) :: rest, vs, h => by
      obtain ⟨k, -, h⟩ := bind_eq_ok.mp h
      obtain ⟨v, hv, h⟩ := bind_eq_ok.mp h
      obtain ⟨others, hothers, h⟩ := bind_eq_ok.mp h
      obtain rfl := Except.ok.inj h
      exact List.forall_mem_cons.mpr ⟨isCanonical_of_value hv, isCanonical_of_valueEntries hothers⟩

end

mutual

/-- A value that was built is read in its canonical form. -/
theorem value_ofValue : ∀ v : Value, value .buffered (.ofValue v) = .ok v.canonical
  | .null | .bool _ | .number _ | .string _ => rfl
  | .array items => by
      show (valueItems .buffered (Node.ofItems items) >>= fun vs => Except.ok (Value.array vs)) = _
      rw [valueItems_ofItems items]
      rfl
  | .object entries => by
      show (valueEntries .buffered (Node.ofEntries entries) >>= fun vs =>
        Except.ok (Value.object (Entries.ofList vs))) = _
      rw [valueEntries_ofEntries entries]
      rfl

theorem valueItems_ofItems : ∀ items : List Value,
    valueItems .buffered (Node.ofItems items) = .ok (canonicalItems items)
  | [] => rfl
  | v :: rest => by
      rw [Node.ofItems, valueItems, value_ofValue v, valueItems_ofItems rest]
      rfl

theorem valueEntries_ofEntries : ∀ entries : List (String × Value),
    valueEntries .buffered (Node.ofEntries entries) = .ok (canonicalEntries entries)
  | [] => rfl
  | (key, v) :: rest => by
      rw [Node.ofEntries, valueEntries, value_ofValue v, valueEntries_ofEntries rest]
      rfl

end

theorem buffer_ofValue (v : Value) : buffer .buffered (.ofValue v) = .ok () :=
  congrArg (Except.map _) (value_ofValue v)

/-- The entries of an object are read as the values that stand in them. -/
theorem entries_value (mode : ReadMode) (nodes : List (Key × Node)) :
    entries value mode nodes = valueEntries mode nodes := by
  induction nodes with
  | nil => rfl
  | cons entry rest ih =>
      show (entry.1 >>= fun k => value mode entry.2 >>= fun a =>
        entries value mode rest >>= fun as => .ok ((k, a) :: as)) = _
      rw [ih]
      rfl

/-- What is read as an object of any values is canonical. -/
theorem canonical_of_object {mode : ReadMode} {node : Node} {config : Entries Value}
    (h : object mode node = .ok config) : Entries.Canonical config := by
  cases node with
  | object nodes ending =>
      obtain ⟨mode', -, h⟩ := bind_eq_ok.mp h
      obtain ⟨vs, hvs, h⟩ := bind_eq_ok.mp h
      obtain ⟨-, -, h⟩ := bind_eq_ok.mp h
      obtain rfl := Except.ok.inj h
      rw [entries_value] at hvs
      exact .ofList (isCanonical_of_valueEntries hvs)
  | _ => cases h

end Decoder

mutual

/-- A value that was built has no fault for a reader who ignores it. -/
theorem Node.ignored_ofValue : ∀ v : Value, (Node.ofValue v).ignored = none
  | .null | .bool _ | .number _ | .string _ => rfl
  | .array items => by
      show (Node.ignoredItems (Node.ofItems items)).or none = none
      rw [Node.ignoredItems_ofItems items]
      rfl
  | .object entries => by
      show (Node.ignoredEntries (Node.ofEntries entries)).or none = none
      rw [Node.ignoredEntries_ofEntries entries]
      rfl

theorem Node.ignoredItems_ofItems : ∀ items : List Value,
    Node.ignoredItems (Node.ofItems items) = none
  | [] => rfl
  | v :: rest => by
      rw [Node.ofItems, Node.ignoredItems, Node.ignored_ofValue v, Node.ignoredItems_ofItems rest]
      rfl

theorem Node.ignoredEntries_ofEntries : ∀ entries : List (String × Value),
    Node.ignoredEntries (Node.ofEntries entries) = none
  | [] => rfl
  | (key, v) :: rest => by
      rw [Node.ofEntries, Node.ignoredEntries, Node.ignored_ofValue v,
        Node.ignoredEntries_ofEntries rest]
      rfl

end
end PlanFlow
