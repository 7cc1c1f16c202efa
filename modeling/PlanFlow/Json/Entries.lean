/-!
# Entries sorted by key

A map from texts is a list of entries in strictly ascending order of their keys.  Writing to a key
replaces its value, so of several entries read for one key the last remains.  Keys are compared by
their code points, which is also the order of their UTF-8 bytes.
-/

namespace PlanFlow

/-- The entries of a map, in strictly ascending order of the keys. -/
abbrev Entries (α : Type) := List (String × α)

namespace Entries

variable {α β : Type}

/-- Writes a value to a key. -/
def insert (key : String) (value : α) : Entries α → Entries α
  | [] => [(key, value)]
  | (k, v) :: rest =>
    if key < k then (key, value) :: (k, v) :: rest
    else if key = k then (key, value) :: rest
    else (k, v) :: insert key value rest

/-- The value of a key. -/
def find? (key : String) : Entries α → Option α
  | [] => none
  | (k, v) :: rest => if k = key then some v else find? key rest

/-- Whether a key has a value. -/
def contains (key : String) (entries : Entries α) : Bool := (find? key entries).isSome

/-- The map of a list of entries, the last one of a key winning. -/
def ofList (entries : List (String × α)) : Entries α :=
  entries.foldl (fun map entry => insert entry.1 entry.2 map) []

/-- The map that also holds the entries of the second map, which win. -/
def extend (map more : Entries α) : Entries α :=
  more.foldl (fun map entry => insert entry.1 entry.2 map) map

/-- The map with every value replaced. -/
def mapValues (f : α → β) (entries : Entries α) : Entries β :=
  entries.map fun entry => (entry.1, f entry.2)

/-- The map with the value of a key changed, starting from `fresh` if it has none. -/
def update (key : String) (fresh : α) (change : α → α) (entries : Entries α) : Entries α :=
  insert key (change ((find? key entries).getD fresh)) entries

/-- The keys ascend strictly. -/
def Sorted (entries : Entries α) : Prop := entries.Pairwise fun a b => a.1 < b.1

end Entries
end PlanFlow
