import PlanFlow.Proofs.Stages
import PlanFlow.Proofs.Text.Order

/-!
# Rule books under composition

A rule book is composed by adding rules and by removing the rules of names.  What is left for a name
is the rule that was added last, unless the name was removed after that.  No two rules that are left
have the same name, so priority and name put them into a strict order, and which rule is chosen for
a plan depends on the rules that are left alone: two compositions that leave the same rules try them
in the same order, whatever was added first.
-/

namespace PlanFlow

/-- One rule is tried before another: it has the lower priority, or the same one and the name with
the smaller bytes. -/
def Rule.ComesBefore (a b : Rule) : Prop :=
  a.priority < b.priority ∨ a.priority = b.priority ∧ Text.bytes a.name < Text.bytes b.name

theorem Rule.comesBefore_iff {a b : Rule} : a.ComesBefore b ↔ ¬Rule.before b a = true := by
  unfold ComesBefore
  rw [Text.bytes_lt_bytes_iff, before_iff, ← String.not_le]
  by_cases hname : b.name ≤ a.name <;> simp [hname] <;> omega

theorem Rule.comesBefore_asymm {a b : Rule} (h : a.ComesBefore b) : ¬b.ComesBefore a := by
  rw [comesBefore_iff] at h
  rw [comesBefore_iff, not_not]
  simpa [h] using Rule.before_total a b

/-- Rules with different names do not go before each other both ways. -/
theorem Rule.comesBefore_of_before {a b : Rule} (h : Rule.before a b = true)
    (hname : a.name ≠ b.name) : a.ComesBefore b := by
  rw [comesBefore_iff]
  intro h'
  rw [before_iff] at h h'
  apply hname
  apply String.le_antisymm
  · rcases h with hlt | ⟨-, hle⟩
    · omega
    · exact hle
  · rcases h' with hlt | ⟨-, hle⟩
    · omega
    · exact hle

/-- A change of a rule book. -/
inductive RuleChange where
  /-- Adds a rule, in the place of the one of its name. -/
  | add (rule : Rule)
  /-- Removes the rule of a name. -/
  | remove (name : String)

namespace RuleChange

/-- The name that a change is about. -/
def name : RuleChange → String
  | .add rule => rule.name
  | .remove name => name

/-- A list of changes leaves a rule: it is added, and no later change is about its name. -/
def Leaves (changes : List RuleChange) (r : Rule) : Prop :=
  ∃ before after, changes = before ++ .add r :: after ∧ ∀ change ∈ after, change.name ≠ r.name

theorem not_leaves_nil (r : Rule) : ¬Leaves [] r := by
  rintro ⟨before, after, hsplit, -⟩
  simp at hsplit

/-- One more change leaves the rule that it adds, and those that were left under other names. -/
theorem leaves_concat {changes : List RuleChange} {change : RuleChange} {r : Rule} :
    Leaves (changes ++ [change]) r ↔
      change = .add r ∨ Leaves changes r ∧ change.name ≠ r.name := by
  constructor
  · rintro ⟨before, after, hsplit, hafter⟩
    cases after using List.reverseRecOn with
    | nil =>
        have hlast : change = .add r := by simpa using congrArg List.getLast? hsplit
        exact .inl hlast
    | append_singleton after last =>
        rw [← List.cons_append, ← List.append_assoc] at hsplit
        obtain ⟨hchanges, hlast⟩ := List.append_inj' hsplit rfl
        obtain rfl : change = last := by simpa using hlast
        right
        refine ⟨⟨before, after, hchanges, fun other hother => ?_⟩, ?_⟩
        · exact hafter other (List.mem_append_left _ hother)
        · exact hafter change (by simp)
  · rintro (rfl | ⟨⟨before, after, rfl, hafter⟩, hname⟩)
    · exact ⟨changes, [], rfl, by simp⟩
    · refine ⟨before, after ++ [change], by simp, fun other hother => ?_⟩
      rcases List.mem_append.mp hother with hother | hother
      · exact hafter other hother
      · rwa [List.mem_singleton.mp hother]

end RuleChange

namespace RuleBook

open RuleChange (Leaves)

/-- The book after a change. -/
def change (b : RuleBook) : RuleChange → RuleBook
  | .add rule => b.add rule
  | .remove name => b.without name

/-- The book after a list of changes. -/
def compose (b : RuleBook) (changes : List RuleChange) : RuleBook := changes.foldl change b

/-- All changes that lead to a book: the built-in rules are added first. -/
def historyOf (changes : List RuleChange) : List RuleChange :=
  Rule.builtIn.map .add ++ changes

variable {b : RuleBook} {changes : List RuleChange}

theorem compose_historyOf (changes : List RuleChange) :
    (RuleBook.mk []).compose (historyOf changes) = standard.compose changes := by
  rw [compose, historyOf, List.foldl_append]
  rfl

/-! ## What is left -/

theorem mem_without {name : String} {r : Rule} :
    r ∈ (b.without name).rules ↔ r ∈ b.rules ∧ r.name ≠ name := by
  simp [without]

theorem mem_change {change : RuleChange} {r : Rule} :
    r ∈ (b.change change).rules ↔ change = .add r ∨ r ∈ b.rules ∧ change.name ≠ r.name := by
  cases change with
  | add rule =>
      show r ∈ (b.without rule.name).rules ++ [rule] ↔ _
      rw [List.mem_append, mem_without, List.mem_singleton, RuleChange.add.injEq]
      simp only [RuleChange.name, ne_comm, eq_comm, or_comm]
  | remove name =>
      show r ∈ (b.without name).rules ↔ _
      rw [mem_without]
      simp [RuleChange.name, ne_comm]

theorem nodup_names_without (h : (b.rules.map Rule.name).Nodup) (name : String) :
    ((b.without name).rules.map Rule.name).Nodup :=
  h.sublist (List.filter_sublist.map _)

/-- A change keeps the names distinct. -/
theorem nodup_names_change (h : (b.rules.map Rule.name).Nodup) (change : RuleChange) :
    ((b.change change).rules.map Rule.name).Nodup := by
  cases change with
  | remove name => exact nodup_names_without h name
  | add rule =>
      show (((b.without rule.name).rules ++ [rule]).map Rule.name).Nodup
      rw [List.map_append, List.nodup_append]
      refine ⟨nodup_names_without h rule.name, List.nodup_singleton _, ?_⟩
      intro name hname other hother
      obtain ⟨r, hr, rfl⟩ := List.mem_map.mp hname
      rw [List.mem_singleton.mp hother]
      exact (mem_without.mp hr).2

/-- A book that is composed from nothing has distinct names, and holds what the changes leave. -/
theorem compose_spec (changes : List RuleChange) :
    (((RuleBook.mk []).compose changes).rules.map Rule.name).Nodup ∧
      ∀ r, r ∈ ((RuleBook.mk []).compose changes).rules ↔ Leaves changes r := by
  induction changes using List.reverseRecOn with
  | nil => exact ⟨List.nodup_nil, fun r => by simp [compose, RuleChange.not_leaves_nil]⟩
  | append_singleton changes change ih =>
      have hcompose : (RuleBook.mk []).compose (changes ++ [change]) =
          ((RuleBook.mk []).compose changes).change change := List.foldl_concat _ _ _ _
      rw [hcompose]
      refine ⟨nodup_names_change ih.1 change, fun r => ?_⟩
      rw [mem_change, ih.2, RuleChange.leaves_concat]

/-! ## The order -/

/-- Rules with distinct names are tried in a strict order. -/
theorem pairwise_ordered (h : (b.rules.map Rule.name).Nodup) :
    b.ordered.Pairwise Rule.ComesBefore := by
  have hsorted : b.ordered.Pairwise fun a b => Rule.before a b = true :=
    @List.pairwise_mergeSort _ Rule.before (fun _ _ _ => Rule.before_trans) Rule.before_total _
  have hnames : b.ordered.Pairwise fun a b => a.name ≠ b.name :=
    List.pairwise_map.mp (((List.mergeSort_perm _ _).map Rule.name).nodup_iff.mpr h)
  exact (hsorted.and hnames).imp fun hboth => Rule.comesBefore_of_before hboth.1 hboth.2

/-- Books with distinct names and the same rules try them in the same order. -/
theorem ordered_congr {b' : RuleBook} (h : (b.rules.map Rule.name).Nodup)
    (h' : (b'.rules.map Rule.name).Nodup) (hsame : ∀ r, r ∈ b.rules ↔ r ∈ b'.rules) :
    b.ordered = b'.ordered := by
  have hperm : b.ordered.Perm b'.ordered :=
    (List.mergeSort_perm _ _).trans
      (((List.perm_ext_iff_of_nodup h.of_map h'.of_map).mpr hsame).trans
        (List.mergeSort_perm _ _).symm)
  refine hperm.eq_of_pairwise (fun a b _ _ hab hba => ?_) (pairwise_ordered h) (pairwise_ordered h')
  exact absurd hba (Rule.comesBefore_asymm hab)

/-- The rule that is chosen is the first of all that accept the plan. -/
theorem select_eq_ok_iff_first (h : (b.rules.map Rule.name).Nodup) {p : Plan} {r : Rule} :
    b.select p = .ok r ↔ r ∈ b.rules ∧ r.accepts p = true ∧
      ∀ other ∈ b.rules, other.accepts p = true → other = r ∨ r.ComesBefore other := by
  rw [select_eq_ok_iff]
  constructor
  · intro hchosen
    refine ⟨hchosen.mem, hchosen.accepts, fun other hother haccepts => ?_⟩
    by_cases hname : other.name = r.name
    · exact .inl (List.inj_on_of_nodup_map h hother hchosen.mem hname)
    · exact .inr (Rule.comesBefore_of_before (hchosen.before hother haccepts) (Ne.symm hname))
  · rintro ⟨hr, haccepts, hfirst⟩
    cases hselect : b.select p with
    | error e =>
        have hnone := (select_eq_error_iff.mp hselect).1 r hr
        simp [hnone] at haccepts
    | ok found =>
        have hchosen := select_eq_ok_iff.mp hselect
        rcases hfirst found hchosen.mem hchosen.accepts with rfl | hbefore
        · exact hchosen
        · exact absurd (hchosen.before hr haccepts) (Rule.comesBefore_iff.mp hbefore)

/-! ## Compositions -/

/-- A book that is composed from the built-in rules tries rules with distinct names, strictly by
priority and then by name, and for each name the rule that was added last and not removed since.
It chooses the first of them that accepts a plan, and none exactly if none accepts it.  So two
compositions that leave the same rules choose the same rule for every plan. -/
theorem compose_standard (changes : List RuleChange) :
    ((standard.compose changes).ordered.map Rule.name).Nodup ∧
    (standard.compose changes).ordered.Pairwise Rule.ComesBefore ∧
    (∀ r, r ∈ (standard.compose changes).ordered ↔ Leaves (historyOf changes) r) ∧
    (∀ p r, (standard.compose changes).select p = .ok r ↔
      Leaves (historyOf changes) r ∧ r.accepts p = true ∧
        ∀ other, Leaves (historyOf changes) other → other.accepts p = true →
          other = r ∨ r.ComesBefore other) ∧
    (∀ p e, (standard.compose changes).select p = .error e ↔
      (∀ r, Leaves (historyOf changes) r → r.accepts p = false) ∧ e = .noMatchingRule p.shape) ∧
    ∀ others, (∀ r, Leaves (historyOf changes) r ↔ Leaves (historyOf others) r) →
      ∀ p, (standard.compose changes).select p = (standard.compose others).select p := by
  have hspec (changes : List RuleChange) :
      ((standard.compose changes).rules.map Rule.name).Nodup ∧
        ∀ r, r ∈ (standard.compose changes).rules ↔ Leaves (historyOf changes) r := by
    rw [← compose_historyOf]
    exact compose_spec (historyOf changes)
  obtain ⟨hnodup, hmem⟩ := hspec changes
  refine ⟨?_, pairwise_ordered hnodup, fun r => ?_, fun p r => ?_, fun p e => ?_, ?_⟩
  · exact ((List.mergeSort_perm _ _).map Rule.name).nodup_iff.mpr hnodup
  · rw [mem_ordered, hmem]
  · simp only [select_eq_ok_iff_first hnodup, hmem]
  · simp only [select_eq_error_iff, hmem]
  · intro others hsame p
    obtain ⟨hnodup', hmem'⟩ := hspec others
    have hordered : (standard.compose changes).ordered = (standard.compose others).ordered := by
      apply ordered_congr hnodup hnodup'
      intro r
      rw [hmem, hmem', hsame]
    simp only [select, hordered]

/-! ## Early rules -/

/-- A rule that is tried before the built-in ones. -/
def early (name : String) (accepts : Plan → Bool) : Rule where
  name := name
  priority := 5
  workflowType := "custom"
  accepts := accepts
  emit _ _ := Emitter.push default

/-- Two rules are added; the second one was removed before, and takes the place of an older one. -/
def detour : List RuleChange :=
  [.add (early "b" fun _ => true), .remove "b", .add (early "a" fun _ => false),
    .add (early "b" fun p => p.loops.isEmpty), .remove Rule.simple.name, .add Rule.simple]

/-- The same rules are added, in the other order. -/
def direct : List RuleChange :=
  [.add (early "b" fun p => p.loops.isEmpty), .add (early "a" fun _ => false)]

theorem compose_standard_detour :
    (∀ r, Leaves (historyOf detour) r ↔ Leaves (historyOf direct) r) ∧
      ∀ p, (standard.compose detour).select p = (standard.compose direct).select p := by
  have hsame (r : Rule) : Leaves (historyOf detour) r ↔ Leaves (historyOf direct) r := by
    rw [← (compose_spec _).2, ← (compose_spec _).2]
    have hdetour : ((RuleBook.mk []).compose (historyOf detour)).rules =
        [Rule.grouped, Rule.routed, Rule.enriched] ++
          [early "a" fun _ => false, early "b" fun p => p.loops.isEmpty, Rule.simple] := rfl
    have hdirect : ((RuleBook.mk []).compose (historyOf direct)).rules =
        [Rule.grouped, Rule.routed, Rule.enriched] ++
          [early "a" fun _ => false, early "b" fun p => p.loops.isEmpty, Rule.simple].reverse := rfl
    rw [hdetour, hdirect]
    exact ((List.reverse_perm _).append_left _).mem_iff.symm
  exact ⟨hsame, (compose_standard detour).2.2.2.2.2 direct hsame⟩

end RuleBook
end PlanFlow
