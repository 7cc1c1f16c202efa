import PlanFlow.Plan.Check
import PlanFlow.Proofs.Listing
import PlanFlow.Proofs.Plan.Version

/-!
# Everything that is wrong with a plan

What is wrong with a plan is said here without the checks: a plan declares ids in categories, and
its parts refer to ids of some of them.  `Plan.errors` lists each finding once, in the order of the
checks, and within a check in the order of the plan.  It is empty exactly if nothing is wrong.
-/

namespace PlanFlow

/-- What an id is the id of. -/
inductive Category where
  | source
  | filter
  | transform
  | aiTask
  | partition
  | loop
  | branch
  | delivery
  deriving DecidableEq

namespace Category

/-- All categories, in the order in which ids are declared. -/
def all : List Category :=
  [.source, .filter, .transform, .aiTask, .partition, .loop, .branch, .delivery]

/-- What can be depended on or iterated over. -/
def inputs : List Category := [.source, .filter, .transform, .aiTask, .partition, .loop]

/-- What can stand in the body of a loop. -/
def members : List Category := [.filter, .transform, .aiTask, .partition]

/-- What a branch can lead to. -/
def targets : List Category := [.delivery]

end Category

/-- A part that refers to ids, each of them an id of some categories. -/
structure Referrer where
  id : String
  references : List (List Category × String)

namespace Plan

variable (p : Plan) (settings : Settings)

/-- The ids of a category.  A delivery without an id is known by its position, counted from one. -/
def idsOf : Category → List String
  | .source => p.sources.map Source.id
  | .filter => p.filters.map Filter.id
  | .transform => p.transforms.map Transform.id
  | .aiTask => p.aiTasks.map AiTask.id
  | .partition => p.partitions.map Partition.id
  | .loop => p.loops.map Loop.id
  | .branch => p.branches.map Branch.id
  | .delivery => p.deliveries.mapIdx fun i d => d.id.getD ("delivery_" ++ toString (i + 1))

/-- The parts that refer to others, kind by kind. -/
def referrers : List (List Referrer) :=
  [p.filters.map fun f => ⟨f.id, f.dependsOn.map (Category.inputs, ·)⟩,
    p.transforms.map fun t => ⟨t.id, t.dependsOn.map (Category.inputs, ·)⟩,
    p.aiTasks.map fun a => ⟨a.id, a.dependsOn.map (Category.inputs, ·)⟩,
    p.partitions.map fun q => ⟨q.id, q.dependsOn.map (Category.inputs, ·)⟩,
    p.loops.map fun l =>
      ⟨l.id, (Category.inputs, l.iterateOver) :: l.body.map (Category.members, ·)⟩,
    p.branches.map fun b =>
      ⟨b.id, (b.thenDeliver ++ b.elseDeliver).map (Category.targets, ·)⟩]

/-- An id is declared at a position of the category with some number. -/
def DeclaredAt (place : ℕ ×ₗ ℕ) (id : String) : Prop :=
  ∃ kind category i, toLex (kind, i) = place ∧ Category.all[kind]? = some category ∧
    (p.idsOf category)[i]? = some id

/-- An id is the id of some category among these. -/
def Declares (among : List Category) (id : String) : Prop :=
  ∃ category ∈ among, id ∈ p.idsOf category

instance (among : List Category) (id : String) : Decidable (p.Declares among id) :=
  inferInstanceAs (Decidable (∃ category ∈ among, id ∈ p.idsOf category))

/-- A part refers to an id, which should be one of some categories.  The place is the number of the
kind of the part, its position and the position of the reference. -/
def RefersAt (place : ℕ ×ₗ ℕ ×ₗ ℕ) (referrer : String) (among : List Category) (id : String) :
    Prop :=
  ∃ kind group i r j, toLex (kind, toLex (i, j)) = place ∧ p.referrers[kind]? = some group ∧
    group[i]? = some r ∧ r.id = referrer ∧ r.references[j]? = some (among, id)

/-- Something is wrong with a plan. -/
inductive FoundAt : ℕ ×ₗ ℕ ×ₗ ℕ → PlanError → Prop
  | version (hversion : ¬NamesMajor p.version settings.supportedMajor) :
      FoundAt (toLex (0, toLex (0, 0)))
        (.unsupportedVersion p.version settings.supportedMajor)
  | questions
      (hopen : ∃ question ∈ p.clarifications, ∃ c ∈ question.toList, Text.isBlank c = false) :
      FoundAt (toLex (1, toLex (0, 0))) (.clarificationsRequired p.openQuestions)
  | noSource (hnone : p.sources = []) : FoundAt (toLex (2, toLex (0, 0))) .missingSource
  | noPrimarySource (hsome : p.sources ≠ []) (hlookups : ∀ s ∈ p.sources, s.role = .lookup) :
      FoundAt (toLex (3, toLex (0, 0))) .missingPrimarySource
  | noDelivery (hnone : p.deliveries = []) : FoundAt (toLex (4, toLex (0, 0))) .missingDelivery
  /-- An id is declared for the second time. -/
  | duplicate {place : ℕ ×ₗ ℕ} {id : String} (hdeclared : p.DeclaredAt place id)
      (hsecond : ∃! earlier, earlier < place ∧ p.DeclaredAt earlier id) :
      FoundAt (toLex (5, place)) (.duplicateId id)
  /-- A reference leads nowhere. -/
  | unknown {kind : ℕ} {position : ℕ ×ₗ ℕ} {referrer : String} {among : List Category} {id : String}
      (hrefers : p.RefersAt (toLex (kind, position)) referrer among id)
      (hunknown : ¬p.Declares among id) :
      FoundAt (toLex (kind + 6, position)) (.unknownReference referrer id)

/-- Nothing is wrong with a plan. -/
structure Faultless : Prop where
  version : NamesMajor p.version settings.supportedMajor
  answered : ∀ question ∈ p.clarifications, ∀ c ∈ question.toList, Text.isBlank c = true
  source : ∃ s ∈ p.sources, s.role ≠ .lookup
  delivery : p.deliveries ≠ []
  distinct : ∀ place other id, p.DeclaredAt place id → p.DeclaredAt other id → place = other
  known : ∀ place referrer among id, p.RefersAt place referrer among id → p.Declares among id

variable {p settings}

/-! ## Declared ids -/

theorem keys_eq : p.keyedDeliveries.map Prod.fst = p.idsOf .delivery := by
  unfold keyedDeliveries idsOf
  rw [List.mapIdx_eq_zipIdx_map, List.map_map]
  rfl

theorem ids_eq : p.ids = Category.all.flatMap p.idsOf := by
  unfold ids
  rw [keys_eq]
  simp [Category.all, idsOf]

theorem declares_inputs_iff {id : String} : p.Declares Category.inputs id ↔ id ∈ p.inputIds := by
  simp only [inputIds, Declares, Category.inputs, List.exists_mem_cons_iff, idsOf, List.mem_append]
  simp [or_assoc]

theorem declares_members_iff {id : String} :
    p.Declares Category.members id ↔ id ∈ p.bodyIds := by
  simp only [bodyIds, Declares, Category.members, List.exists_mem_cons_iff, idsOf, List.mem_append]
  simp [or_assoc]

theorem declares_targets_iff {id : String} :
    p.Declares Category.targets id ↔ id ∈ p.deliveryIds := by
  unfold deliveryIds
  rw [keys_eq]
  simp [Declares, Category.targets]

theorem lists_ids : Lists p.DeclaredAt p.ids := by
  rw [ids_eq]
  exact (Lists.flatMap (fun category => Lists.members (p.idsOf category)) Category.all).congr
    fun place id => Iff.rfl

/-! ## References -/

variable (p) in
/-- The errors of the references of a part. -/
def unknownOf (r : Referrer) : List PlanError :=
  (r.references.filter fun reference => !decide (p.Declares reference.1 reference.2)).map
    fun reference => .unknownReference r.id reference.2

theorem unknownOf_append (referrer : String) (references others : List (List Category × String)) :
    p.unknownOf ⟨referrer, references ++ others⟩ =
      p.unknownOf ⟨referrer, references⟩ ++ p.unknownOf ⟨referrer, others⟩ := by
  simp only [unknownOf, List.filter_append, List.map_append]

/-- The known ids are those of some categories. -/
theorem unknownAmong_eq {known : List String} {among : List Category}
    (hknown : ∀ {id}, p.Declares among id ↔ id ∈ known) (referrer : String)
    (references : List String) :
    unknownAmong referrer known references =
      p.unknownOf ⟨referrer, references.map (among, ·)⟩ := by
  have hkept (id : String) : (!known.contains id) = !decide (p.Declares among id) := by
    rw [← List.elem_eq_contains, List.elem_eq_mem, decide_eq_decide.mpr hknown.symm]
  simp only [unknownAmong, unknownOf, hkept, List.filter_map, List.map_map]
  rfl

theorem referenceErrors_eq :
    p.referenceErrors = p.referrers.flatMap fun group => group.flatMap p.unknownOf := by
  have hloop (l : Loop) : unknownAmong l.id p.inputIds [l.iterateOver] ++
      unknownAmong l.id p.bodyIds l.body = p.unknownOf
        ⟨l.id, (Category.inputs, l.iterateOver) :: l.body.map (Category.members, ·)⟩ := by
    rw [unknownAmong_eq declares_inputs_iff, unknownAmong_eq declares_members_iff,
      ← unknownOf_append]
    rfl
  simp only [referenceErrors, hloop]
  simp only [dependsOn, unknownAmong_eq declares_inputs_iff, unknownAmong_eq declares_targets_iff,
    referrers, List.flatMap_append, List.flatMap_map, List.flatMap_cons, List.flatMap_nil,
    List.append_nil, List.append_assoc]

theorem lists_unknownOf (r : Referrer) :
    Lists (fun (j : ℕ) error => ∃ among id, r.references[j]? = some (among, id) ∧
      ¬p.Declares among id ∧ error = .unknownReference r.id id) (p.unknownOf r) := by
  refine (((Lists.members r.references).filter _).image _).congr fun j error => ?_
  constructor
  · rintro ⟨⟨among, id⟩, ⟨hreference, hkept⟩, rfl⟩
    exact ⟨among, id, hreference, by simpa using hkept, rfl⟩
  · rintro ⟨among, id, hreference, hunknown, rfl⟩
    exact ⟨(among, id), ⟨hreference, by simpa using hunknown⟩, rfl⟩

/-- The references that lead nowhere are listed at their places. -/
theorem lists_referenceErrors :
    Lists (fun place error => ∃ referrer among id, p.RefersAt place referrer among id ∧
      ¬p.Declares among id ∧ error = .unknownReference referrer id) p.referenceErrors := by
  rw [referenceErrors_eq]
  have hgroup (group : List Referrer) := Lists.flatMap (lists_unknownOf (p := p)) group
  refine (Lists.flatMap hgroup p.referrers).congr fun place error => ?_
  constructor
  · rintro ⟨kind, group, _, hplace, hgroup, i, r, j, rfl, hr, among, id, hreference, hunknown, he⟩
    exact ⟨r.id, among, id, ⟨kind, group, i, r, j, hplace, hgroup, hr, rfl, hreference⟩, hunknown,
      he⟩
  · rintro ⟨_, among, id, ⟨kind, group, i, r, j, hplace, hgroup, hr, rfl, hreference⟩, hunknown, he⟩
    exact ⟨kind, group, _, hplace, hgroup, i, r, j, rfl, hr, among, id, hreference, hunknown, he⟩

/-! ## The checks one after the other -/

/-- A question is open if it is not blank. -/
theorem openQuestions_ne_nil_iff : p.openQuestions ≠ [] ↔
    ∃ question ∈ p.clarifications, ∃ c ∈ question.toList, Text.isBlank c = false := by
  have hblank (question : String) : String.ofList (Text.trim question.toList) = "" ↔
      ∀ c ∈ question.toList, Text.isBlank c = true := by
    rw [← Text.trim_eq_nil_iff, ← String.toList_inj, String.toList_ofList]
    rfl
  unfold openQuestions
  rw [Ne, List.filter_eq_nil_iff]
  simp [hblank]

theorem candidates_eq_nil_iff : p.candidates = [] ↔ ∀ s ∈ p.sources, s.role = .lookup := by
  simp [candidates, List.filter_eq_nil_iff, Source.isLookup]

/-- The findings of some of the checks, given by their numbers. -/
def FoundBy (p : Plan) (settings : Settings) (Check : ℕ → Prop) (place : ℕ ×ₗ ℕ ×ₗ ℕ)
    (error : PlanError) : Prop :=
  Check (ofLex place).1 ∧ p.FoundAt settings place error

/-- A check that has only one thing to find. -/
theorem lists_check {n : ℕ} {holds : Prop} {error : PlanError} {l : List PlanError}
    (hsome : holds → l = [error]) (hnone : ¬holds → l = [])
    (hfound : holds → p.FoundAt settings (toLex (n, toLex (0, 0))) error)
    (honly : ∀ q e, p.FoundAt settings (toLex (n, q)) e → holds ∧ q = toLex (0, 0) ∧ e = error) :
    Lists (p.FoundBy settings (· = n)) l := by
  refine (Lists.single (toLex (n, toLex (0, 0))) hsome hnone).congr fun place e => ?_
  constructor
  · rintro ⟨h, rfl, rfl⟩
    exact ⟨rfl, hfound h⟩
  · rintro ⟨rfl, h⟩
    obtain ⟨hholds, hplace, he⟩ := honly (ofLex place).2 e h
    exact ⟨hholds, congrArg (fun q => toLex ((ofLex place).1, q)) hplace, he⟩

theorem lists_versionErrors : Lists (p.FoundBy settings (· = 0)) (p.versionErrors settings) := by
  refine lists_check (fun h => if_neg fun hmajor => h (majorOf_eq_some_iff.mp hmajor))
    (fun h => if_pos (majorOf_eq_some_iff.mpr (not_not.mp h))) .version fun q e h => ?_
  cases h with
  | version hversion => exact ⟨hversion, rfl, rfl⟩

theorem lists_questionErrors : Lists (p.FoundBy settings (· = 1)) p.questionErrors := by
  refine lists_check (fun h => if_neg (by simpa using openQuestions_ne_nil_iff.mpr h))
    (fun h => if_pos (by simpa using mt openQuestions_ne_nil_iff.mp h)) .questions fun q e h => ?_
  cases h with
  | questions hopen => exact ⟨hopen, rfl, rfl⟩

/-- Checks one after the other. -/
theorem lists_append {Check Later : ℕ → Prop} {l others : List PlanError}
    (hlt : ∀ m n, Check m → Later n → m < n) (h : Lists (p.FoundBy settings Check) l)
    (h' : Lists (p.FoundBy settings Later) others) :
    Lists (p.FoundBy settings fun n => Check n ∨ Later n) (l ++ others) := by
  refine (h.append h' ?_).congr fun place error => ?_
  · intro place _ hplace later _ hlater
    exact Prod.Lex.toLex_lt_toLex.mpr (.inl (hlt _ _ hplace.1 hlater.1))
  · exact or_and_right.symm

theorem lists_sourceErrors :
    Lists (p.FoundBy settings fun n => n = 2 ∨ n = 3) p.sourceErrors := by
  have hsplit : p.sourceErrors = (if p.sources = [] then [.missingSource] else []) ++
      if p.sources ≠ [] ∧ p.candidates = [] then [.missingPrimarySource] else [] := by
    unfold sourceErrors
    by_cases hnone : p.sources = []
    · simp [hnone]
    · simp [hnone]
  rw [hsplit]
  refine lists_append (by omega) ?_ ?_
  · refine lists_check (fun h => if_pos h) (fun h => if_neg h) .noSource fun q e h => ?_
    cases h with
    | noSource hnone => exact ⟨hnone, rfl, rfl⟩
  · refine lists_check (fun h => if_pos h) (fun h => if_neg h)
      (fun h => .noPrimarySource h.1 (candidates_eq_nil_iff.mp h.2)) fun q e h => ?_
    cases h with
    | noPrimarySource hsome hlookups =>
        exact ⟨⟨hsome, candidates_eq_nil_iff.mpr hlookups⟩, rfl, rfl⟩

theorem lists_deliveryErrors : Lists (p.FoundBy settings (· = 4)) p.deliveryErrors := by
  refine lists_check (fun h => if_pos (by simpa using h)) (fun h => if_neg (by simpa using h))
    .noDelivery fun q e h => ?_
  cases h with
  | noDelivery hnone => exact ⟨hnone, rfl, rfl⟩

theorem lists_duplicateErrors :
    Lists (p.FoundBy settings (· = 5)) ((Ids.repeated p.ids).map .duplicateId) := by
  have hlist := (lists_ids (p := p)).repeated.image PlanError.duplicateId
  refine (hlist.map (f := fun place => toLex (5, place)) fun place later hlt => ?_).congr
    fun place error => ?_
  · exact Prod.Lex.toLex_lt_toLex.mpr (.inr ⟨rfl, hlt⟩)
  · constructor
    · rintro ⟨place, rfl, id, ⟨hdeclared, hsecond⟩, rfl⟩
      exact ⟨rfl, .duplicate hdeclared hsecond⟩
    · rintro ⟨hcheck, hfound⟩
      cases hfound with
      | duplicate hdeclared hsecond => exact ⟨_, rfl, _, ⟨hdeclared, hsecond⟩, rfl⟩
      | _ => simp at hcheck

theorem lists_unknownErrors : Lists (p.FoundBy settings (6 ≤ ·)) p.referenceErrors := by
  refine (lists_referenceErrors.map fun place later => Lists.toLex_add_lt 6).congr
    fun place error => ?_
  constructor
  · rintro ⟨place, rfl, referrer, among, id, hrefers, hunknown, rfl⟩
    exact ⟨Nat.le_add_left 6 _, .unknown hrefers hunknown⟩
  · rintro ⟨hcheck, hfound⟩
    cases hfound with
    | unknown hrefers hunknown => exact ⟨_, rfl, _, _, _, hrefers, hunknown, rfl⟩
    | _ => simp at hcheck

/-- All checks together. -/
theorem lists_errors : Lists (p.FoundAt settings) (p.errors settings) := by
  have hquestions : Lists (p.FoundBy settings fun n => n = 0 ∨ n = 1)
      (p.versionErrors settings ++ p.questionErrors) :=
    lists_append (by omega) lists_versionErrors lists_questionErrors
  have hsources := lists_append (by omega) hquestions lists_sourceErrors
  have hdeliveries := lists_append (by omega) hsources lists_deliveryErrors
  have hids := lists_append (by omega) hdeliveries lists_duplicateErrors
  have hall := lists_append (by omega) hids lists_unknownErrors
  refine hall.congr fun place error => and_iff_right ?_
  omega

/-! ## What the findings say -/

/-- An id is found to be declared for the second time if it is declared twice. -/
theorem exists_duplicate_iff {id : String} :
    (∃ place, p.FoundAt settings place (.duplicateId id)) ↔
      ∃ place other, place < other ∧ p.DeclaredAt place id ∧ p.DeclaredAt other id := by
  constructor
  · rintro ⟨_, hfound⟩
    cases hfound with
    | duplicate hdeclared hsecond =>
        obtain ⟨earlier, hlt, hearlier⟩ := hsecond.exists
        exact ⟨earlier, _, hlt, hearlier, hdeclared⟩
  · intro htwice
    have hrepeated := Ids.mem_repeated.mpr ((lists_ids (p := p)).two_le_count_iff.mpr htwice)
    obtain ⟨place, hdeclared, hsecond⟩ := (lists_ids (p := p)).repeated.mem_iff.mp hrepeated
    exact ⟨_, .duplicate hdeclared hsecond⟩

/-- An id is declared for the second time once. -/
theorem count_duplicateId_le_one (id : String) :
    (p.errors settings).count (.duplicateId id) ≤ 1 := by
  by_contra htwice
  obtain ⟨_, _, hlt, hfirst, hlater⟩ := lists_errors.two_le_count_iff.mp (Nat.lt_of_not_le htwice)
  cases hfirst with
  | @duplicate place _ hdeclared hsecond =>
      cases hlater with
      | @duplicate later _ hdeclared' hsecond' =>
          have hlt' : place < later :=
            ((Prod.Lex.toLex_lt_toLex.mp hlt).resolve_left (lt_irrefl 5)).2
          obtain ⟨earlier, hbefore, hearlier⟩ := hsecond.exists
          -- Both the first and the second declaration come before the later finding.
          have hsame := hsecond'.unique ⟨hlt', hdeclared⟩ ⟨hbefore.trans hlt', hearlier⟩
          exact absurd hsame (ne_of_gt hbefore)

theorem faultless_iff : p.Faultless settings ↔ ∀ place error, ¬p.FoundAt settings place error := by
  constructor
  · intro h place error hfound
    cases hfound with
    | version hversion => exact hversion h.version
    | questions hopen =>
        obtain ⟨question, hquestion, c, hc, hblank⟩ := hopen
        rw [h.answered question hquestion c hc] at hblank
        cases hblank
    | noSource hnone =>
        obtain ⟨s, hs, -⟩ := h.source
        rw [hnone] at hs
        cases hs
    | noPrimarySource _ hlookups =>
        obtain ⟨s, hs, hrole⟩ := h.source
        exact hrole (hlookups s hs)
    | noDelivery hnone => exact h.delivery hnone
    | duplicate hdeclared hsecond =>
        obtain ⟨earlier, hlt, hearlier⟩ := hsecond.exists
        exact absurd (h.distinct _ _ _ hearlier hdeclared) (ne_of_lt hlt)
    | unknown hrefers hunknown => exact hunknown (h.known _ _ _ _ hrefers)
  · intro h
    refine ⟨?_, ?_, ?_, ?_, ?_, ?_⟩
    · by_contra hversion
      exact h _ _ (.version hversion)
    · intro question hquestion c hc
      by_contra hblank
      exact h _ _ (.questions ⟨question, hquestion, c, hc, by simpa using hblank⟩)
    · by_contra hlookups
      have hall : ∀ s ∈ p.sources, s.role = .lookup := by
        intro s hs
        by_contra hrole
        exact hlookups ⟨s, hs, hrole⟩
      by_cases hnone : p.sources = []
      · exact h _ _ (.noSource hnone)
      · exact h _ _ (.noPrimarySource hnone hall)
    · intro hnone
      exact h _ _ (.noDelivery hnone)
    · intro place other id hplace hother
      by_contra hne
      have htwice : ∃ earlier later, earlier < later ∧
          p.DeclaredAt earlier id ∧ p.DeclaredAt later id := by
        rcases lt_or_gt_of_ne hne with hlt | hlt
        · exact ⟨place, other, hlt, hplace, hother⟩
        · exact ⟨other, place, hlt, hother, hplace⟩
      obtain ⟨_, hfound⟩ := exists_duplicate_iff.mpr htwice
      exact h _ _ hfound
    · intro place referrer among id hrefers
      by_contra hunknown
      have hplace : place = toLex ((ofLex place).1, (ofLex place).2) := rfl
      rw [hplace] at hrefers
      exact h _ _ (.unknown hrefers hunknown)

/-- The errors of a plan are what is wrong with it: each finding is listed once, in the order of the
checks and of the plan, and there is none exactly if nothing is wrong.  An id that is
declared more than once is reported once, and so is each reference that leads nowhere. -/
theorem errors_list_findings (p : Plan) (settings : Settings) :
    (p.errors settings = [] ↔ p.Faultless settings) ∧
    Lists (p.FoundAt settings) (p.errors settings) ∧
    ∀ id, (p.errors settings).count (.duplicateId id) ≤ 1 ∧
      (.duplicateId id ∈ p.errors settings ↔
        ∃ place other, place < other ∧ p.DeclaredAt place id ∧ p.DeclaredAt other id) := by
  refine ⟨?_, lists_errors, fun id => ⟨count_duplicateId_le_one id, ?_⟩⟩
  · rw [faultless_iff, List.eq_nil_iff_forall_not_mem]
    simp only [lists_errors.mem_iff]
    exact ⟨fun h place error hfound => h error ⟨place, hfound⟩,
      fun h error ⟨place, hfound⟩ => h place error hfound⟩
  · rw [lists_errors.mem_iff, exists_duplicate_iff]

end Plan
end PlanFlow
