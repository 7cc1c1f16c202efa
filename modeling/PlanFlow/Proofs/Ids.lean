import Mathlib.Data.List.Induction
import Mathlib.Data.List.Nodup
import PlanFlow.Ids

/-!
# Lists of ids

What is repeated in a list of ids is reported once for each repeated id, and the list of distinct
ids has no repetitions.
-/

namespace PlanFlow
namespace Ids

theorem singleton_subset {id : String} {ids : List String} (h : id ∈ ids) : [id] ⊆ ids :=
  List.cons_subset.mpr ⟨h, List.nil_subset ids⟩

/-- The distinct members of a list stand in it once each. -/
theorem nodup_eraseDups {α : Type} [BEq α] [LawfulBEq α] (l : List α) : l.eraseDups.Nodup := by
  induction hn : l.length using Nat.strongRecOn generalizing l with
  | _ n ih =>
      cases l with
      | nil => simp
      | cons a as =>
          have hshorter : (as.filter fun b => !b == a).length < n := by
            have := List.length_filter_le (fun b => !b == a) as
            simp only [List.length_cons] at hn
            omega
          rw [List.eraseDups_cons]
          exact List.nodup_cons.mpr ⟨by simp, ih _ hshorter _ rfl⟩

/-- Where nothing is repeated, all members are distinct as they are. -/
theorem eraseDups_of_nodup {α : Type} [BEq α] [LawfulBEq α] {l : List α} (h : l.Nodup) :
    l.eraseDups = l := by
  induction l with
  | nil => simp
  | cons a as ih =>
      obtain ⟨ha, has⟩ := List.nodup_cons.mp h
      have hothers : (as.filter fun b => !b == a) = as := by
        refine List.filter_eq_self.mpr fun b hb => ?_
        simpa using fun heq : b = a => ha (heq ▸ hb)
      rw [List.eraseDups_cons, hothers, ih has]

/-- What was there before stays as it is. -/
theorem eraseDups_concat_of_mem {α : Type} [BEq α] [LawfulBEq α] {l : List α} {a : α}
    (h : a ∈ l) : (l ++ [a]).eraseDups = l.eraseDups := by
  have hnone : [a].removeAll l = [] := by simp [List.removeAll, h]
  rw [List.eraseDups_append, hnone, List.eraseDups_nil, List.append_nil]

/-- What is new comes last. -/
theorem eraseDups_concat_of_not_mem {α : Type} [BEq α] [LawfulBEq α] {l : List α} {a : α}
    (h : a ∉ l) : (l ++ [a]).eraseDups = l.eraseDups ++ [a] := by
  have hnew : [a].removeAll l = [a] := by simp [List.removeAll, h]
  rw [List.eraseDups_append, hnew, eraseDups_of_nodup (List.nodup_singleton a)]

/-- It does not matter how often a member is repeated at the end. -/
theorem eraseDups_append_replicate {α : Type} [BEq α] [LawfulBEq α] (l : List α) (a : α) {n : Nat}
    (hn : n ≠ 0) : (l ++ List.replicate n a).eraseDups = (l ++ [a]).eraseDups := by
  induction n with
  | zero => exact absurd rfl hn
  | succ n ih =>
      cases n with
      | zero => rfl
      | succ n =>
          rw [List.replicate_succ', ← List.append_assoc, eraseDups_concat_of_mem (by simp)]
          exact ih (Nat.succ_ne_zero n)

/-- Lists of the same distinct members have them also with one more member at the end. -/
theorem eraseDups_concat_congr {α : Type} [BEq α] [LawfulBEq α] {l l' : List α}
    (h : l.eraseDups = l'.eraseDups) (a : α) : (l ++ [a]).eraseDups = (l' ++ [a]).eraseDups := by
  have hmem : a ∈ l ↔ a ∈ l' := by rw [← List.mem_eraseDups, h, List.mem_eraseDups]
  by_cases ha : a ∈ l
  · rw [eraseDups_concat_of_mem ha, eraseDups_concat_of_mem (hmem.mp ha), h]
  · rw [eraseDups_concat_of_not_mem ha, eraseDups_concat_of_not_mem (mt hmem.mpr ha), h]

/-- The distinct members of a list stand in the order in which they come first. -/
theorem pairwise_idxOf_eraseDups {α : Type} [BEq α] [LawfulBEq α] (l : List α) :
    l.eraseDups.Pairwise fun a b => l.idxOf a < l.idxOf b := by
  induction l using List.reverseRecOn with
  | nil => simp
  | append_singleton l a ih =>
      have hkept : l.eraseDups.Pairwise fun b c => (l ++ [a]).idxOf b < (l ++ [a]).idxOf c := by
        refine ih.imp_of_mem fun {b c} hb hc hlt => ?_
        rwa [List.idxOf_append_of_mem (List.mem_eraseDups.mp hb),
          List.idxOf_append_of_mem (List.mem_eraseDups.mp hc)]
      by_cases ha : a ∈ l
      · rwa [eraseDups_concat_of_mem ha]
      · rw [eraseDups_concat_of_not_mem ha, List.pairwise_append]
        refine ⟨hkept, List.pairwise_singleton _ _, fun b hb c hc => ?_⟩
        obtain rfl := List.mem_singleton.mp hc
        have hb := List.mem_eraseDups.mp hb
        rw [List.idxOf_append_of_mem hb, List.idxOf_append_of_notMem ha]
        exact Nat.lt_add_right _ (List.idxOf_lt_length_of_mem hb)

/-- An id is reported after `seen` if it occurs for the second time in what follows. -/
theorem mem_repeatedAfter {id : String} {seen rest : List String} :
    id ∈ repeatedAfter seen rest ↔ seen.count id ≤ 1 ∧ 2 ≤ seen.count id + rest.count id := by
  induction rest generalizing seen with
  | nil =>
      simp only [repeatedAfter, List.not_mem_nil, List.count_nil, false_iff]
      omega
  | cons first rest ih =>
      have hreport : id ∈ repeatedAfter seen (first :: rest) ↔
          (first = id ∧ seen.count id = 1) ∨ id ∈ repeatedAfter (first :: seen) rest := by
        by_cases hfirst : first = id
        · subst hfirst
          by_cases hcount : seen.count first = 1 <;> simp [repeatedAfter, hcount]
        · simp only [repeatedAfter]
          split <;> simp [hfirst, Ne.symm hfirst]
      rw [hreport, ih]
      by_cases hfirst : first = id
      · subst hfirst
        simp only [List.count_cons_self, true_and]
        omega
      · simp [hfirst]

/-- No id is reported twice. -/
theorem nodup_repeatedAfter (seen rest : List String) : (repeatedAfter seen rest).Nodup := by
  induction rest generalizing seen with
  | nil => simp [repeatedAfter]
  | cons first rest ih =>
      simp only [repeatedAfter]
      split
      · rename_i hcount
        refine List.nodup_cons.mpr ⟨?_, ih _⟩
        rw [mem_repeatedAfter, List.count_cons_self, hcount]
        omega
      · exact ih _

theorem mem_repeated {id : String} {ids : List String} :
    id ∈ repeated ids ↔ 2 ≤ ids.count id := by
  rw [repeated, mem_repeatedAfter]
  simp

theorem nodup_repeated (ids : List String) : (repeated ids).Nodup :=
  nodup_repeatedAfter [] ids

theorem repeated_eq_nil_iff {ids : List String} : repeated ids = [] ↔ ids.Nodup := by
  rw [List.eq_nil_iff_forall_not_mem, List.nodup_iff_count_le_one]
  simp only [mem_repeated]
  exact forall_congr' fun id => by omega

theorem repeatedAfter_concat (seen rest : List String) (id : String) :
    repeatedAfter seen (rest ++ [id]) =
      repeatedAfter seen rest ++ if seen.count id + rest.count id = 1 then [id] else [] := by
  induction rest generalizing seen with
  | nil => by_cases hcount : seen.count id = 1 <;> simp [repeatedAfter, hcount]
  | cons first rest ih =>
      have hcount : (first :: seen).count id + rest.count id =
          seen.count id + (first :: rest).count id := by
        simp only [List.count_cons]
        omega
      simp only [List.cons_append, repeatedAfter, ih, hcount]
      split
      · rw [List.cons_append]
      · rfl

/-- One more id is reported if it occurred once before. -/
theorem repeated_concat (ids : List String) (id : String) :
    repeated (ids ++ [id]) = repeated ids ++ if ids.count id = 1 then [id] else [] := by
  rw [repeated, repeatedAfter_concat]
  simp [repeated]

end Ids
end PlanFlow
