import Mathlib.Data.List.NodupEquivFin
import Mathlib.Data.Prod.Lex
import Mathlib.Order.Bounds.Basic
import PlanFlow.Proofs.Ids

/-!
# Listings

A search from left to right lists what stands at some places, in the order of the places.  Searches
one after the other list what stands in one place or another, and a search of all members of a list
lists it by the members first.  If only the first of equal things is kept, what is left is in the
order of the first places, and what is repeated is in the order of the second places.
-/

namespace PlanFlow

variable {P Q α β : Type}

/-- A list holds what stands at places, once for each place and in the order of the places. -/
def Lists [LT P] (Stands : P → α → Prop) (l : List α) : Prop :=
  ∃ entries : List (P × α), (entries.map Prod.fst).Pairwise (· < ·) ∧
    (∀ place a, (place, a) ∈ entries ↔ Stands place a) ∧ entries.map Prod.snd = l

/-- At a place of a list stands the first member with its key. -/
def FirstAt (key : α → β) (l : List α) (i : ℕ) (a : α) : Prop :=
  l[i]? = some a ∧ ∀ b ∈ l.take i, key b ≠ key a

theorem FirstAt.lt_length {key : α → β} {l : List α} {i : ℕ} {a : α} (h : FirstAt key l i a) :
    i < l.length :=
  (List.getElem?_eq_some_iff.mp h.1).1

/-- One more member leaves the first ones where they are, and is one itself if its key is new. -/
theorem firstAt_concat {key : α → β} {l : List α} {a b : α} {i : ℕ} :
    FirstAt key (l ++ [a]) i b ↔
      FirstAt key l i b ∨ i = l.length ∧ b = a ∧ ∀ c ∈ l, key c ≠ key a := by
  unfold FirstAt
  rcases Nat.lt_trichotomy i l.length with hlt | rfl | hgt
  · rw [List.getElem?_append_left hlt, List.take_append_of_le_length (Nat.le_of_lt hlt)]
    simp [Nat.ne_of_lt hlt]
  · simp only [List.getElem?_concat_length, List.take_left, List.getElem?_length, Option.some.injEq,
      reduceCtorEq, false_and, false_or, true_and]
    constructor
    · rintro ⟨rfl, hnew⟩
      exact ⟨rfl, hnew⟩
    · rintro ⟨rfl, hnew⟩
      exact ⟨rfl, hnew⟩
  · have hnone : (l ++ [a])[i]? = none := by simp; omega
    have hnone' : l[i]? = none := by simp; omega
    simp [hnone, hnone', Nat.ne_of_gt hgt]

namespace Lists

section Parts

variable [LT P] [LT Q] {Stands Others : P → α → Prop} {l others : List α}

theorem nil (h : ∀ place a, ¬Stands place a) : Lists Stands [] :=
  ⟨[], .nil, fun place a => by simp [h place a], rfl⟩

theorem congr (hstands : ∀ place a, Stands place a ↔ Others place a) (h : Lists Stands l) :
    Lists Others l := by
  obtain ⟨entries, hsorted, hmem, rfl⟩ := h
  exact ⟨entries, hsorted, fun place a => (hmem place a).trans (hstands place a), rfl⟩

theorem mem_iff (h : Lists Stands l) {a : α} : a ∈ l ↔ ∃ place, Stands place a := by
  obtain ⟨entries, -, hmem, rfl⟩ := h
  simp [hmem]

/-- Two lists one after the other, if all places of the first one come first. -/
theorem append (h : Lists Stands l) (h' : Lists Others others)
    (hlt : ∀ place a, Stands place a → ∀ later b, Others later b → place < later) :
    Lists (fun place a => Stands place a ∨ Others place a) (l ++ others) := by
  obtain ⟨entries, hsorted, hmem, rfl⟩ := h
  obtain ⟨entries', hsorted', hmem', rfl⟩ := h'
  refine ⟨entries ++ entries', ?_, fun place a => ?_, List.map_append⟩
  · rw [List.map_append, List.pairwise_append]
    refine ⟨hsorted, hsorted', fun place hplace later hlater => ?_⟩
    obtain ⟨⟨_, a⟩, ha, rfl⟩ := List.mem_map.mp hplace
    obtain ⟨⟨_, b⟩, hb, rfl⟩ := List.mem_map.mp hlater
    exact hlt _ a ((hmem _ a).mp ha) _ b ((hmem' _ b).mp hb)
  · rw [List.mem_append, hmem, hmem']

theorem singleton (place : P) (a : α) : Lists (fun q b => q = place ∧ b = a) [a] :=
  ⟨[(place, a)], List.pairwise_singleton _ _, fun q b => by simp, rfl⟩

/-- Nothing or one thing, by a condition. -/
theorem single {holds : Prop} {a : α} (place : P) (hsome : holds → l = [a])
    (hnone : ¬holds → l = []) : Lists (fun q b => holds ∧ q = place ∧ b = a) l := by
  by_cases h : holds
  · rw [hsome h]
    exact (singleton place a).congr fun q b => by simp [h]
  · rw [hnone h]
    exact nil fun q b hb => h hb.1

/-- What stands at a place before all others is listed first. -/
theorem cons {place : P} {a : α} (h : Lists Stands l)
    (hlt : ∀ later b, Stands later b → place < later) :
    Lists (fun q b => (q = place ∧ b = a) ∨ Stands q b) (a :: l) := by
  refine (singleton place a).append h fun q b hq later c hlater => ?_
  rw [hq.1]
  exact hlt later c hlater

/-- What stands at a place behind all others is listed last. -/
theorem concat {place : P} {a : α} (h : Lists Stands l)
    (hlt : ∀ earlier b, Stands earlier b → earlier < place) :
    Lists (fun q b => Stands q b ∨ (q = place ∧ b = a)) (l ++ [a]) := by
  refine h.append (singleton place a) fun q b hq later c hlater => ?_
  rw [hlater.1]
  exact hlt q b hq

/-- The places may be named otherwise if their order stays. -/
theorem map {f : P → Q} (hf : ∀ place later, place < later → f place < f later)
    (h : Lists Stands l) : Lists (fun q a => ∃ place, f place = q ∧ Stands place a) l := by
  obtain ⟨entries, hsorted, hmem, rfl⟩ := h
  refine ⟨entries.map fun entry => (f entry.1, entry.2), ?_, fun q a => ?_, ?_⟩
  · rw [List.map_map, List.pairwise_map]
    exact (List.pairwise_map.mp hsorted).imp fun hlt => hf _ _ hlt
  · simp only [List.mem_map, Prod.exists, Prod.mk.injEq, hmem]
    exact ⟨fun ⟨place, b, hstands, hq, hb⟩ => ⟨place, hq, hb ▸ hstands⟩,
      fun ⟨place, hq, hstands⟩ => ⟨place, a, hstands, hq, rfl⟩⟩
  · rw [List.map_map]
    rfl

/-- A list holds its members at their positions. -/
theorem members (l : List α) : Lists (fun (i : ℕ) a => l[i]? = some a) l := by
  refine ⟨l.zipIdx.map Prod.swap, ?_, fun i a => ?_, ?_⟩
  · rw [List.map_map]
    show (l.zipIdx.map Prod.snd).Pairwise _
    rw [List.zipIdx_map_snd]
    exact List.pairwise_lt_range'
  · show _ ↔ l[i]? = some a
    rw [List.mem_map, ← List.mem_zipIdx_iff_getElem? (x := (a, i))]
    constructor
    · rintro ⟨⟨_, _⟩, hentry, heq⟩
      cases heq
      exact hentry
    · intro hentry
      exact ⟨(a, i), hentry, rfl⟩
  · rw [List.map_map]
    exact List.zipIdx_map_fst _ _

/-- What is kept stays at its place. -/
theorem filter (keep : α → Bool) (h : Lists Stands l) :
    Lists (fun q a => Stands q a ∧ keep a = true) (l.filter keep) := by
  obtain ⟨entries, hsorted, hmem, rfl⟩ := h
  refine ⟨entries.filter fun entry => keep entry.2, ?_, fun q a => ?_, ?_⟩
  · exact hsorted.sublist (List.filter_sublist.map _)
  · rw [List.mem_filter, hmem]
  · rw [List.filter_map]
    rfl

/-- What is made of the members stands at their places. -/
theorem image (f : α → β) (h : Lists Stands l) :
    Lists (fun q b => ∃ a, Stands q a ∧ f a = b) (l.map f) := by
  obtain ⟨entries, hsorted, hmem, rfl⟩ := h
  refine ⟨entries.map fun entry => (entry.1, f entry.2), ?_, fun q b => ?_, ?_⟩
  · rw [List.map_map]
    exact hsorted
  · simp only [List.mem_map, Prod.exists, Prod.mk.injEq, hmem]
    constructor
    · rintro ⟨_, a, ha, rfl, rfl⟩
      exact ⟨a, ha, rfl⟩
    · rintro ⟨a, ha, rfl⟩
      exact ⟨q, a, ha, rfl, rfl⟩
  · simp

end Parts

theorem toLex_add_lt [LT P] (n : ℕ) {place later : ℕ ×ₗ P} (hlt : place < later) :
    toLex ((ofLex place).1 + n, (ofLex place).2) <
      toLex ((ofLex later).1 + n, (ofLex later).2) := by
  rw [Prod.Lex.lt_iff] at hlt
  rw [Prod.Lex.toLex_lt_toLex]
  simpa using hlt

/-- What is found in the members of a list stands at the number of the member, and then at a place
in the member. -/
theorem flatMap [LT P] {Stands : β → P → α → Prop} {f : β → List α}
    (h : ∀ b, Lists (Stands b) (f b)) (bs : List β) :
    Lists (fun (place : ℕ ×ₗ P) a =>
      ∃ i b q, toLex (i, q) = place ∧ bs[i]? = some b ∧ Stands b q a) (bs.flatMap f) := by
  induction bs with
  | nil => exact nil fun place a ⟨i, b, q, _, hb, _⟩ => by simp at hb
  | cons b bs ih =>
      have hhead : Lists (fun (place : ℕ ×ₗ P) a => ∃ q, toLex (0, q) = place ∧ Stands b q a)
          (f b) :=
        (h b).map fun q later hlt => Prod.Lex.toLex_lt_toLex.mpr (.inr ⟨rfl, hlt⟩)
      have htail := ih.map fun place later => toLex_add_lt 1
      rw [List.flatMap_cons]
      refine (hhead.append htail ?_).congr fun place a => ?_
      · rintro _ a ⟨q, rfl, -⟩ _ a' ⟨later, rfl, -⟩
        exact Prod.Lex.toLex_lt_toLex.mpr (.inl (Nat.succ_pos _))
      · constructor
        · rintro (⟨q, hplace, hstands⟩ | ⟨_, hplace, i, c, q, rfl, hc, hstands⟩)
          · exact ⟨0, b, q, hplace, rfl, hstands⟩
          · exact ⟨i + 1, c, q, hplace, hc, hstands⟩
        · rintro ⟨i, c, q, hplace, hc, hstands⟩
          cases i with
          | zero =>
              obtain rfl : b = c := Option.some.inj hc
              exact .inl ⟨q, hplace, hstands⟩
          | succ i => exact .inr ⟨toLex (i, q), hplace, i, c, q, rfl, hc, hstands⟩

/-! ## First places -/

section First

variable [LinearOrder P] [BEq α] [LawfulBEq α] {Stands : P → α → Prop} {l : List α}

/-- The first entry of a member of an ascending list is its entry at the least place. -/
theorem isLeast_getElem {entries : List (P × α)}
    (hsorted : (entries.map Prod.fst).Pairwise (· < ·)) {a : α}
    (hlt : (entries.map Prod.snd).idxOf a < entries.length) :
    IsLeast {place | (place, a) ∈ entries} entries[(entries.map Prod.snd).idxOf a].1 := by
  have hlt' : (entries.map Prod.snd).idxOf a < (entries.map Prod.snd).length := by
    rwa [List.length_map]
  have hfirst : entries[(entries.map Prod.snd).idxOf a] =
      (entries[(entries.map Prod.snd).idxOf a].1, a) := by
    refine Prod.ext rfl ?_
    have hmember := List.getElem_idxOf hlt'
    rwa [List.getElem_map] at hmember
  constructor
  · show (_, a) ∈ entries
    rw [← hfirst]
    exact List.getElem_mem hlt
  · intro place hplace
    obtain ⟨j, hj, hentry⟩ := List.mem_iff_getElem.mp hplace
    have hle : (entries.map Prod.snd).idxOf a ≤ j := by
      by_contra hbefore
      have hother := List.not_of_lt_findIdx (Nat.lt_of_not_le hbefore)
      simp [hentry] at hother
    rcases Nat.eq_or_lt_of_le hle with heq | hbefore
    · simp only [heq, hentry, Std.le_refl]
    · have hplaces := List.pairwise_iff_getElem.mp (List.pairwise_map.mp hsorted) _ j hlt hj hbefore
      rw [hentry] at hplaces
      exact le_of_lt hplaces

/-- What is kept of a list is in the order of the first places. -/
theorem pairwise_first (h : Lists Stands l) :
    l.eraseDups.Pairwise fun a b => ∃ i j,
      IsLeast {place | Stands place a} i ∧ IsLeast {place | Stands place b} j ∧ i < j := by
  obtain ⟨entries, hsorted, hmem, rfl⟩ := h
  simp only [← hmem]
  refine (Ids.pairwise_idxOf_eraseDups _).imp_of_mem fun {a b} ha hb hlt => ?_
  have hlength {c : α} (hc : c ∈ (entries.map Prod.snd).eraseDups) :
      (entries.map Prod.snd).idxOf c < entries.length := by
    simpa using List.idxOf_lt_length_of_mem (List.mem_eraseDups.mp hc)
  refine ⟨_, _, isLeast_getElem hsorted (hlength ha), isLeast_getElem hsorted (hlength hb), ?_⟩
  exact List.pairwise_iff_getElem.mp (List.pairwise_map.mp hsorted) _ _ _ _ hlt

end First

/-- The keys of a list, each once, stand where they come first. -/
theorem firsts [BEq β] [LawfulBEq β] (key : α → β) (l : List α) :
    Lists (fun (i : ℕ) b => ∃ a, FirstAt key l i a ∧ key a = b) (l.map key).eraseDups := by
  induction l using List.reverseRecOn with
  | nil => exact nil fun i b ⟨a, h, _⟩ => by simp [FirstAt] at h
  | append_singleton l last ih =>
      rw [List.map_append, List.map_singleton]
      by_cases hold : key last ∈ l.map key
      · rw [Ids.eraseDups_concat_of_mem hold]
        refine ih.congr fun i b => exists_congr fun a => and_congr_left fun _ => ?_
        obtain ⟨c, hc, hkey⟩ := List.mem_map.mp hold
        rw [firstAt_concat, or_iff_left]
        rintro ⟨-, -, hnew⟩
        exact hnew c hc hkey
      · rw [Ids.eraseDups_concat_of_not_mem hold]
        have hnew : ∀ c ∈ l, key c ≠ key last := fun c hc hkey =>
          hold (List.mem_map.mpr ⟨c, hc, hkey⟩)
        refine (ih.concat fun i b ⟨a, ha, _⟩ => ha.lt_length).congr fun i b => ?_
        simp only [firstAt_concat]
        constructor
        · rintro (⟨a, ha, rfl⟩ | ⟨rfl, rfl⟩)
          · exact ⟨a, .inl ha, rfl⟩
          · exact ⟨last, .inr ⟨rfl, rfl, hnew⟩, rfl⟩
        · rintro ⟨a, ha | ⟨rfl, rfl, -⟩, rfl⟩
          · exact .inl ⟨a, ha, rfl⟩
          · exact .inr ⟨rfl, rfl⟩

/-! ## Second places -/

section Second

variable [LinearOrder P]

section Counts

variable [DecidableEq α] {Stands : P → α → Prop} {l : List α} {a : α}

/-- What is listed twice stands at two places. -/
theorem two_le_count_iff (h : Lists Stands l) :
    2 ≤ l.count a ↔ ∃ earlier place, earlier < place ∧ Stands earlier a ∧ Stands place a := by
  obtain ⟨entries, hsorted, hmem, rfl⟩ := h
  simp only [← hmem]
  rw [← List.duplicate_iff_two_le_count, List.duplicate_iff_exists_distinct_get]
  have hordered := List.pairwise_iff_getElem.mp (List.pairwise_map.mp hsorted)
  constructor
  · rintro ⟨⟨n, hn⟩, ⟨m, hm⟩, hlt, hfirst, hsecond⟩
    rw [List.length_map] at hn hm
    simp only [List.get_eq_getElem, List.getElem_map] at hfirst hsecond
    refine ⟨entries[n].1, entries[m].1, hordered n m hn hm hlt, ?_, ?_⟩
    · rw [hfirst]
      exact List.getElem_mem hn
    · rw [hsecond]
      exact List.getElem_mem hm
  · rintro ⟨earlier, place, hlt, hearlier, hplace⟩
    obtain ⟨n, hn, hfirst⟩ := List.getElem_of_mem hearlier
    obtain ⟨m, hm, hsecond⟩ := List.getElem_of_mem hplace
    have hnm : n < m := by
      by_contra hle
      rcases Nat.eq_or_lt_of_le (Nat.le_of_not_lt hle) with rfl | hmn
      · rw [hfirst] at hsecond
        cases hsecond
        exact lt_irrefl _ hlt
      · have hback := hordered m n hm hn hmn
        rw [hfirst, hsecond] at hback
        exact lt_asymm hlt hback
    refine ⟨⟨n, by simpa using hn⟩, ⟨m, by simpa using hm⟩, hnm, ?_, ?_⟩
    · simp [hfirst]
    · simp [hsecond]

/-- What is listed once stands at one place. -/
theorem count_eq_one_iff (h : Lists Stands l) : l.count a = 1 ↔ ∃! place, Stands place a := by
  have hone : 1 ≤ l.count a ↔ ∃ place, Stands place a := by
    rw [Nat.one_le_iff_ne_zero, ← Nat.pos_iff_ne_zero, List.count_pos_iff, h.mem_iff]
  have htwo := h.two_le_count_iff (a := a)
  constructor
  · intro hcount
    obtain ⟨place, hplace⟩ := hone.mp (by omega)
    refine ⟨place, hplace, fun other hother => ?_⟩
    by_contra hne
    rcases lt_or_gt_of_ne hne with hlt | hlt
    · have := htwo.mpr ⟨other, place, hlt, hother, hplace⟩
      omega
    · have := htwo.mpr ⟨place, other, hlt, hplace, hother⟩
      omega
  · rintro ⟨place, hplace, honly⟩
    have hlisted := hone.mpr ⟨place, hplace⟩
    by_contra hcount
    obtain ⟨earlier, later, hlt, hearlier, hlater⟩ := htwo.mp (by omega)
    rw [honly earlier hearlier, honly later hlater] at hlt
    exact lt_irrefl place hlt

end Counts

/-- What is repeated stands at the place at which it stands for the second time. -/
theorem repeated {Stands : P → String → Prop} {l : List String} (h : Lists Stands l) :
    Lists (fun place id => Stands place id ∧ ∃! earlier, earlier < place ∧ Stands earlier id)
      (Ids.repeated l) := by
  obtain ⟨entries, hsorted, hmem, rfl⟩ := h
  simp only [← hmem]
  clear hmem
  induction entries using List.reverseRecOn with
  | nil => exact nil fun place id hid => by simp at hid
  | append_singleton entries last ih =>
      rw [List.map_append, List.pairwise_append] at hsorted
      obtain ⟨hbefore, -, hall⟩ := hsorted
      have hlast {place : P} {id : String} (h : (place, id) ∈ entries) : place < last.1 :=
        hall place (List.mem_map_of_mem h) last.1 (by simp)
      have hlisted : Lists (fun place id => (place, id) ∈ entries) (entries.map Prod.snd) :=
        ⟨entries, hbefore, fun _ _ => Iff.rfl, rfl⟩
      rw [List.map_append, List.map_singleton, Ids.repeated_concat]
      refine ((ih hbefore).append (single last.1 (a := last.2)
        (fun hone => if_pos (hlisted.count_eq_one_iff.mpr hone))
        fun hone => if_neg fun hcount => hone (hlisted.count_eq_one_iff.mp hcount)) ?_).congr ?_
      · rintro place id ⟨hplace, -⟩ later _ ⟨-, rfl, -⟩
        exact hlast hplace
      · intro place id
        have hconcat : (place, id) ∈ entries ++ [last] ↔
            (place, id) ∈ entries ∨ place = last.1 ∧ id = last.2 := by
          rw [List.mem_append, List.mem_singleton, Prod.ext_iff]
        -- What is new comes behind all that was there, so it is nowhere an earlier place.
        have hkept (hplace : place ≤ last.1) (earlier : P) :
            (earlier < place ∧ (earlier, id) ∈ entries ++ [last]) ↔
              earlier < place ∧ (earlier, id) ∈ entries := by
          refine and_congr_right fun hlt => ?_
          rw [List.mem_append, List.mem_singleton, Prod.ext_iff, or_iff_left]
          rintro ⟨rfl, -⟩
          exact absurd hlt (not_lt_of_ge hplace)
        have hnew (earlier : P) :
            (earlier < last.1 ∧ (earlier, id) ∈ entries) ↔ (earlier, id) ∈ entries :=
          and_iff_right_of_imp hlast
        rw [hconcat, or_and_right]
        refine or_congr (and_congr_right fun hplace => ?_) ?_
        · exact (existsUnique_congr (hkept (le_of_lt (hlast hplace)))).symm
        · constructor
          · rintro ⟨hone, rfl, rfl⟩
            rw [existsUnique_congr (hkept le_rfl), existsUnique_congr hnew]
            exact ⟨⟨rfl, rfl⟩, hone⟩
          · rintro ⟨⟨rfl, rfl⟩, hone⟩
            rw [existsUnique_congr (hkept le_rfl), existsUnique_congr hnew] at hone
            exact ⟨hone, rfl, rfl⟩

end Second
end Lists
end PlanFlow
