import Mathlib.Data.List.Nodup
import Mathlib.Data.List.Perm.Basic
import PlanFlow.Json.Entries

/-!
# What is found in a map

What is found for a key is the value that was written to it last.  So a map that is made from a list
without repeated keys has exactly the entries of the list, and a map that is extended keeps what it
has for the keys that are not written again.  Maps are kept in the order of their keys, so no key is
repeated in them, and a map in order is made from its own entries.
-/

namespace PlanFlow
namespace Entries

variable {α : Type} {key : String} {value : α} {entries : List (String × α)}

theorem mem_of_find? (h : find? key entries = some value) : (key, value) ∈ entries := by
  induction entries with
  | nil => cases h
  | cons entry rest ih =>
      unfold find? at h
      split at h
      · rename_i hkey
        obtain rfl := Option.some.inj h
        rw [← hkey]
        exact List.mem_cons_self
      · exact List.mem_cons_of_mem _ (ih h)

theorem find?_isSome_iff : (find? key entries).isSome ↔ key ∈ entries.map Prod.fst := by
  induction entries with
  | nil => simp [find?]
  | cons entry rest ih =>
      unfold find?
      split
      · rename_i hkey
        simp [← hkey]
      · rename_i hkey
        simp only [ih, List.map_cons, List.mem_cons]
        exact ⟨.inr, fun h => h.resolve_left fun heq => hkey heq.symm⟩

theorem find?_of_mem (hnodup : (entries.map Prod.fst).Nodup) (h : (key, value) ∈ entries) :
    find? key entries = some value := by
  have hsome : (find? key entries).isSome :=
    find?_isSome_iff.mpr (List.mem_map_of_mem (f := Prod.fst) h)
  obtain ⟨found, hfound⟩ := Option.isSome_iff_exists.mp hsome
  have heq := List.inj_on_of_nodup_map hnodup (mem_of_find? hfound) h rfl
  rw [hfound, (Prod.mk.inj heq).2]

/-! ## Writing -/

theorem find?_insert (written : String) :
    find? key (insert written value entries) =
      if written = key then some value else find? key entries := by
  induction entries with
  | nil => rfl
  | cons entry rest ih =>
      unfold insert
      split
      · simp only [find?]
      · split
        · rename_i heq
          by_cases hkey : written = key <;> simp [find?, ← heq, hkey]
        -- The key is written further on, behind an entry for another key.
        · rename_i hne
          by_cases hkey : written = key
          · subst hkey
            simp [find?, Ne.symm hne, ih]
          · simp [find?, hkey, ih]

/-- A map keeps what it has for a key that is not written again. -/
theorem find?_extend_of_not_mem {map : Entries α} (h : key ∉ entries.map Prod.fst) :
    find? key (extend map entries) = find? key map := by
  induction entries generalizing map with
  | nil => rfl
  | cons entry rest ih =>
      rw [List.map_cons, List.mem_cons, not_or] at h
      show find? key (extend (insert entry.1 entry.2 map) rest) = find? key map
      rw [ih h.2, find?_insert, if_neg (Ne.symm h.1)]

/-- A map has the entries of a list in which no key is repeated. -/
theorem find?_ofList_of_mem (hnodup : (entries.map Prod.fst).Nodup) (h : (key, value) ∈ entries) :
    find? key (ofList entries) = some value := by
  suffices hextend : ∀ map : Entries α, find? key (extend map entries) = some value from hextend []
  induction entries with
  | nil => cases h
  | cons entry rest ih =>
      rw [List.map_cons, List.nodup_cons] at hnodup
      intro map
      show find? key (extend (insert entry.1 entry.2 map) rest) = some value
      rcases List.mem_cons.mp h with rfl | h
      · rw [find?_extend_of_not_mem hnodup.1, find?_insert, if_pos rfl]
      · exact ih hnodup.2 h _

/-- A map finds what a list without repeated keys has. -/
theorem find?_ofList (hnodup : (entries.map Prod.fst).Nodup) :
    find? key (ofList entries) = find? key entries := by
  cases hfind : find? key entries with
  | some value => exact find?_ofList_of_mem hnodup (mem_of_find? hfind)
  | none =>
      refine find?_extend_of_not_mem fun hkey => ?_
      rw [← find?_isSome_iff, hfind] at hkey
      cases hkey

/-- Leaving out other keys does not change what is found. -/
theorem find?_filter (keep : String → Bool) (hkeep : keep key = true) :
    find? key (entries.filter fun entry => keep entry.1) = find? key entries := by
  induction entries with
  | nil => rfl
  | cons entry rest ih =>
      by_cases hkey : entry.1 = key
      · simp [find?, hkey, hkeep]
      · simp only [List.filter_cons]
        split <;> simp [find?, hkey, ih]

theorem find?_mapValues {β : Type} (f : α → β) :
    find? key (mapValues f entries) = (find? key entries).map f := by
  induction entries with
  | nil => rfl
  | cons entry rest ih =>
      show (if entry.1 = key then _ else find? key (mapValues f rest)) = _
      by_cases hkey : entry.1 = key <;> simp [find?, hkey, ih]

theorem keys_mapValues {β : Type} (f : α → β) (entries : Entries α) :
    (mapValues f entries).map Prod.fst = entries.map Prod.fst := by
  simp [mapValues, Function.comp_def]

/-! ## Maps in order -/

section Sorted

variable {entries : Entries α}

theorem Sorted.nodup (h : Sorted entries) : (entries.map Prod.fst).Nodup := by
  rw [List.Nodup, List.pairwise_map]
  exact h.imp fun hlt => String.ne_of_lt hlt

theorem mem_insert {entry : String × α} (h : entry ∈ insert key value entries) :
    entry = (key, value) ∨ entry ∈ entries := by
  induction entries with
  | nil => exact .inl (List.mem_singleton.mp h)
  | cons first rest ih =>
      unfold insert at h
      split at h
      · exact List.mem_cons.mp h
      · split at h
        · exact (List.mem_cons.mp h).imp_right (List.mem_cons_of_mem _)
        · rcases List.mem_cons.mp h with h | h
          · exact .inr (h ▸ List.mem_cons_self)
          · exact (ih h).imp_right (List.mem_cons_of_mem _)

theorem Sorted.insert (h : Sorted entries) : Sorted (Entries.insert key value entries) := by
  induction entries with
  | nil => exact List.pairwise_singleton _ _
  | cons first rest ih =>
      obtain ⟨hfirst, hrest⟩ := List.pairwise_cons.mp h
      unfold Entries.insert
      split
      · rename_i hlt
        refine List.pairwise_cons.mpr ⟨fun entry hentry => ?_, h⟩
        rcases List.mem_cons.mp hentry with rfl | hentry
        · exact hlt
        · exact String.lt_trans hlt (hfirst entry hentry)
      · split
        · rename_i heq
          exact List.pairwise_cons.mpr ⟨fun entry hentry => heq ▸ hfirst entry hentry, hrest⟩
        · rename_i hnlt hne
          refine List.pairwise_cons.mpr ⟨fun entry hentry => ?_, ih hrest⟩
          rcases mem_insert hentry with rfl | hentry
          · exact Std.lt_of_le_of_ne (String.not_lt.mp hnlt) (Ne.symm hne)
          · exact hfirst entry hentry

theorem mem_extend {map more : Entries α} {entry : String × α} (h : entry ∈ extend map more) :
    entry ∈ map ∨ entry ∈ more := by
  induction more generalizing map with
  | nil => exact .inl h
  | cons first rest ih =>
      rcases ih h with h | h
      · rcases mem_insert h with rfl | h
        · exact .inr List.mem_cons_self
        · exact .inl h
      · exact .inr (List.mem_cons_of_mem _ h)

theorem Sorted.extend {map : Entries α} (h : Sorted map) (more : Entries α) :
    Sorted (Entries.extend map more) := by
  induction more generalizing map with
  | nil => exact h
  | cons first rest ih => exact ih h.insert

theorem sorted_ofList (entries : List (String × α)) : Sorted (ofList entries) :=
  Sorted.extend .nil entries

theorem mem_of_mem_ofList {entry : String × α} (h : entry ∈ ofList entries) : entry ∈ entries :=
  (mem_extend h).resolve_left nofun

/-- What comes after all keys is written at the end. -/
theorem insert_of_lt (h : ∀ entry ∈ entries, entry.1 < key) :
    insert key value entries = entries ++ [(key, value)] := by
  induction entries with
  | nil => rfl
  | cons first rest ih =>
      rw [List.forall_mem_cons] at h
      have hnlt : ¬key < first.1 := String.lt_asymm h.1
      have hne : key ≠ first.1 := (String.ne_of_lt h.1).symm
      unfold insert
      rw [if_neg hnlt, if_neg hne, ih h.2]
      rfl

/-- A map in order is made from its own entries. -/
theorem ofList_eq_self (h : Sorted entries) : ofList entries = entries := by
  suffices hextend : ∀ map more : Entries α, Sorted (map ++ more) → extend map more = map ++ more
    from hextend [] entries h
  intro map more
  induction more generalizing map with
  | nil => exact fun _ => (List.append_nil map).symm
  | cons first rest ih =>
      intro hsorted
      have hlt : ∀ entry ∈ map, entry.1 < first.1 := fun entry hentry =>
        (List.pairwise_append.mp hsorted).2.2 entry hentry first List.mem_cons_self
      show extend (insert first.1 first.2 map) rest = map ++ first :: rest
      rw [insert_of_lt hlt, ih _ (by simpa using hsorted), List.append_assoc]
      rfl

end Sorted
end Entries
end PlanFlow
