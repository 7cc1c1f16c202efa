import PlanFlow.Graph.Cycles
import PlanFlow.Proofs.Graph.Edges
import PlanFlow.Proofs.Graph.Walks

/-!
# The search for cycles

What holds throughout the search, in three parts.  The fresh nodes, those on the path and those that
are finished are all nodes of the graph, each once, and the path follows the edges.  The cycles
found so far are cycles, and each was closed by an edge that is left behind and closed no other.
Every edge that is left behind closed a cycle, or leads to a node that was finished earlier or is
the next one on the path.

When the search is over all nodes are finished, so every edge that closed no cycle leads to a node
that was finished earlier.  A closed walk cannot take only such edges.
-/

namespace PlanFlow
namespace StepGraph

/-- An edge closes one of the cycles found. -/
def Closes (found : List (List Nat)) (u v : Nat) : Prop := ∃ cycle ∈ found, [u, v] <:+ cycle

/-- A list has only one last pair. -/
theorem pair_suffix_append {α : Type} {a b u v : α} {l : List α} :
    [a, b] <:+ l ++ [u, v] ↔ a = u ∧ b = v := by
  constructor
  · intro h
    have hsuffix : [a, b] <:+ [u, v] :=
      List.suffix_of_suffix_length_le h (List.suffix_append l [u, v]) (by simp)
    simpa using hsuffix.eq_of_length (by simp)
  · rintro ⟨rfl, rfl⟩
    exact List.suffix_append l [a, b]

namespace Search

/-- The nodes on the path of the search, the last one first. -/
def path (frames : List Frame) : List Nat := frames.map Frame.node

@[simp]
theorem path_nil : path [] = [] := rfl

@[simp]
theorem path_cons (f : Frame) (rest : List Frame) : path (f :: rest) = f.node :: path rest := rfl

theorem onPath_iff {frames : List Frame} {v : Nat} : onPath frames v = true ↔ v ∈ path frames :=
  List.contains_iff_mem

theorem cycleThrough_eq {frames : List Frame} {before after : List Nat} {v : Nat}
    (hpath : path frames = before ++ v :: after) (hbefore : v ∉ before) :
    cycleThrough frames v = (before ++ [v]).reverse ++ [v] := by
  have hne : ∀ a ∈ before, (a != v) = true := by
    intro a ha
    exact bne_iff_ne.mpr fun h => hbefore (h ▸ ha)
  have htake : (frames.map Frame.node).takeWhile (· != v) = before := by
    show (path frames).takeWhile (· != v) = before
    rw [hpath, List.takeWhile_append_of_pos hne, List.takeWhile_cons_of_neg (by simp),
      List.append_nil]
  rw [cycleThrough, htake]
  simp

/-- An edge from the last node of the path back to a node on it closes a cycle. -/
theorem cycleThrough_spec {g : StepGraph} {frames : List Frame} {u v : Nat}
    (hchain : (path frames).IsChain fun later earlier => g.Edge earlier later)
    (hnodup : (path frames).Nodup) (hlast : (path frames).head? = some u)
    (hv : v ∈ path frames) (hedge : g.Edge u v) :
    SimpleCycle g.Edge (cycleThrough frames v) ∧
      ∀ a b, [a, b] <:+ cycleThrough frames v ↔ a = u ∧ b = v := by
  obtain ⟨before, after, hpath⟩ := List.append_of_mem hv
  have hbefore : v ∉ before := by
    rw [hpath] at hnodup
    exact fun hmem => (List.nodup_append.mp hnodup).2.2 v hmem v List.mem_cons_self rfl
  -- The cycle is what the path holds up to the node, read backwards.
  have hprefix : before ++ [v] <+: path frames := ⟨after, by simp [hpath]⟩
  obtain ⟨tail, htail⟩ : ∃ tail, before ++ [v] = u :: tail := by
    rw [hpath] at hlast
    cases before with
    | nil => exact ⟨[], by simpa using hlast⟩
    | cons x xs => exact ⟨xs ++ [v], by simpa using hlast⟩
  have hcycle := cycleThrough_eq hpath hbefore
  refine ⟨⟨⟨?_, ?_, ?_⟩, ?_⟩, fun a b => ?_⟩
  · have hwalked := List.IsChain.prefix hchain hprefix
    rw [hcycle, List.isChain_append]
    refine ⟨List.isChain_reverse.mpr hwalked, List.isChain_singleton v, ?_⟩
    simp [htail, hedge]
  · rw [hcycle, List.getLast?_concat]
    simp
  · rw [hcycle]
    simp
  · rw [hcycle, List.dropLast_concat, List.nodup_reverse]
    exact hnodup.sublist hprefix.sublist
  · have hpair : cycleThrough frames v = tail.reverse ++ [u, v] := by
      rw [hcycle, htail]
      simp
    rw [hpair, pair_suffix_append]

/-! ## Moves -/

/-- The moves of the search. -/
inductive Move (g : StepGraph) : Search → Search → Prop
  /-- A path starts at a node that was not entered yet. -/
  | start {fresh : List Nat} {found : List (List Nat)} {root : Nat} (hroot : root ∈ fresh) :
      Move g ⟨fresh, [], found⟩ (g.enter ⟨fresh, [], found⟩ root)
  /-- A node with no edge left is finished. -/
  | leave {fresh : List Nat} {node : Nat} {rest : List Frame} {found : List (List Nat)} :
      Move g ⟨fresh, ⟨node, []⟩ :: rest, found⟩ ⟨fresh, rest, found⟩
  /-- An edge back to the path closes a cycle. -/
  | close {fresh : List Nat} {node next : Nat} {more : List Nat} {rest : List Frame}
      {found : List (List Nat)} (hpath : next ∈ path (⟨node, next :: more⟩ :: rest)) :
      Move g ⟨fresh, ⟨node, next :: more⟩ :: rest, found⟩
        ⟨fresh, ⟨node, more⟩ :: rest,
          found ++ [cycleThrough (⟨node, next :: more⟩ :: rest) next]⟩
  /-- An edge to a fresh node makes the path longer. -/
  | enter {fresh : List Nat} {node next : Nat} {more : List Nat} {rest : List Frame}
      {found : List (List Nat)} (hfresh : next ∈ fresh) :
      Move g ⟨fresh, ⟨node, next :: more⟩ :: rest, found⟩
        (g.enter ⟨fresh, ⟨node, more⟩ :: rest, found⟩ next)
  /-- An edge to a finished node is only left behind. -/
  | skip {fresh : List Nat} {node next : Nat} {more : List Nat} {rest : List Frame}
      {found : List (List Nat)} (hpath : next ∉ path (⟨node, next :: more⟩ :: rest))
      (hfresh : next ∉ fresh) :
      Move g ⟨fresh, ⟨node, next :: more⟩ :: rest, found⟩ ⟨fresh, ⟨node, more⟩ :: rest, found⟩

/-- Exploring makes moves until no frame is open. -/
theorem explore_moves (g : StepGraph) (s : Search) :
    Relation.ReflTransGen (Move g) s (g.explore s) ∧ (g.explore s).frames = [] := by
  induction s using explore.induct g with
  | case1 s hframes =>
      obtain ⟨fresh, frames, found⟩ := s
      obtain rfl : frames = [] := hframes
      rw [explore]
      exact ⟨.refl, rfl⟩
  | case2 s node rest hframes ih =>
      obtain ⟨fresh, frames, found⟩ := s
      obtain rfl : frames = ⟨node, []⟩ :: rest := hframes
      rw [explore]
      exact ⟨.head .leave ih.1, ih.2⟩
  | case3 s node next more rest hframes moved hpath ih =>
      obtain ⟨fresh, frames, found⟩ := s
      obtain rfl : frames = ⟨node, next :: more⟩ :: rest := hframes
      rw [explore]
      simp only [hpath, if_true]
      exact ⟨.head (.close (onPath_iff.mp hpath)) ih.1, ih.2⟩
  | case4 s node next more rest hframes moved hpath hfresh ih =>
      obtain ⟨fresh, frames, found⟩ := s
      obtain rfl : frames = ⟨node, next :: more⟩ :: rest := hframes
      rw [explore]
      simp only [hpath, hfresh, dite_true]
      exact ⟨.head (.enter hfresh) ih.1, ih.2⟩
  | case5 s node next more rest hframes moved hpath hfresh ih =>
      obtain ⟨fresh, frames, found⟩ := s
      obtain rfl : frames = ⟨node, next :: more⟩ :: rest := hframes
      rw [explore]
      simp only [hpath, hfresh, dite_false]
      exact ⟨.head (.skip (onPath_iff.not.mp hpath) hfresh) ih.1, ih.2⟩

/-- No move makes a node fresh again. -/
theorem Move.fresh_sublist {g : StepGraph} {s t : Search} (h : Move g s t) :
    t.fresh.Sublist s.fresh := by
  cases h with
  | start | enter => exact List.erase_sublist
  | leave | close | skip => exact List.Sublist.refl _

theorem fresh_sublist_of_moves {g : StepGraph} {s t : Search}
    (h : Relation.ReflTransGen (Move g) s t) : t.fresh.Sublist s.fresh := by
  induction h with
  | refl => exact List.Sublist.refl _
  | tail _ hmove ih => exact hmove.fresh_sublist.trans ih

/-- Searching from several roots makes moves, and leaves no frame open and no root fresh. -/
theorem exploreFrom_moves {g : StepGraph} {s : Search} (hframes : s.frames = [])
    (hnodup : s.fresh.Nodup) (roots : List Nat) :
    Relation.ReflTransGen (Move g) s (g.exploreFrom s roots) ∧
      (g.exploreFrom s roots).frames = [] ∧
        ∀ root ∈ roots, root ∉ (g.exploreFrom s roots).fresh := by
  induction roots generalizing s with
  | nil => exact ⟨.refl, hframes, by simp⟩
  | cons root rest ih =>
      by_cases hroot : root ∈ s.fresh
      · obtain ⟨fresh, frames, found⟩ := s
        obtain rfl : frames = [] := hframes
        obtain ⟨hmoves, hend⟩ := explore_moves g (g.enter ⟨fresh, [], found⟩ root)
        have hsublist := fresh_sublist_of_moves hmoves
        have hentered : root ∉ (g.enter ⟨fresh, [], found⟩ root).fresh :=
          hnodup.not_mem_erase
        have hnodup' : (g.explore (g.enter ⟨fresh, [], found⟩ root)).fresh.Nodup :=
          (hnodup.erase root).sublist hsublist
        obtain ⟨hrest, hframes', hroots⟩ := ih hend hnodup'
        rw [exploreFrom, if_pos (List.contains_iff_mem.mpr hroot)]
        refine ⟨.head (.start hroot) (hmoves.trans hrest), hframes', ?_⟩
        rw [List.forall_mem_cons]
        have hsublist' := fresh_sublist_of_moves (hmoves.trans hrest)
        exact ⟨fun hmem => hentered (hsublist'.subset hmem), hroots⟩
      · obtain ⟨hrest, hframes', hroots⟩ := ih hframes hnodup
        rw [exploreFrom, if_neg (List.contains_iff_mem.not.mpr hroot)]
        refine ⟨hrest, hframes', ?_⟩
        rw [List.forall_mem_cons]
        exact ⟨fun hmem => hroot ((fresh_sublist_of_moves hrest).subset hmem), hroots⟩

/-! ## Where the nodes are -/

/-- The fresh nodes, those on the path and the finished ones are all nodes, each once.  The path
follows the edges, and every open frame has some of the edges of its node left. -/
structure Placed (g : StepGraph) (s : Search) (done : List Nat) : Prop where
  nodup : (s.fresh ++ path s.frames ++ done).Nodup
  covers : ∀ v, v ∈ s.fresh ++ path s.frames ++ done ↔ v < g.size
  chain : (path s.frames).IsChain fun later earlier => g.Edge earlier later
  left : ∀ f ∈ s.frames, f.next <:+ g.dependentsAt f.node

namespace Placed

variable {g : StepGraph} {fresh : List Nat} {frames rest : List Frame} {found : List (List Nat)}
variable {done more : List Nat} {node next : Nat}

theorem leave (h : Placed g ⟨fresh, ⟨node, []⟩ :: rest, found⟩ done) :
    Placed g ⟨fresh, rest, found⟩ (node :: done) where
  nodup := by
    have hperm : (fresh ++ path rest ++ node :: done).Perm
        (fresh ++ path (⟨node, []⟩ :: rest) ++ done) := by
      simp only [path_cons, List.append_assoc, List.cons_append]
      exact List.perm_middle.append_left fresh
    exact hperm.nodup_iff.mpr h.nodup
  covers v := by
    rw [← h.covers v]
    simp only [path_cons, List.mem_append, List.mem_cons]
    tauto
  chain := h.chain.tail
  left f hf := h.left f (List.mem_cons_of_mem _ hf)

/-- Leaving an edge behind moves no node. -/
theorem advance {found' : List (List Nat)}
    (h : Placed g ⟨fresh, ⟨node, next :: more⟩ :: rest, found⟩ done) :
    Placed g ⟨fresh, ⟨node, more⟩ :: rest, found'⟩ done where
  nodup := h.nodup
  covers := h.covers
  chain := h.chain
  left f hf := by
    rcases List.mem_cons.mp hf with rfl | hf
    · exact (List.suffix_cons next more).trans (h.left _ List.mem_cons_self)
    · exact h.left f (List.mem_cons_of_mem _ hf)

theorem enter (h : Placed g ⟨fresh, frames, found⟩ done) (hfresh : next ∈ fresh)
    (hedge : ∀ u ∈ (path frames).head?, g.Edge u next) :
    Placed g (g.enter ⟨fresh, frames, found⟩ next) done := by
  have hperm : (fresh.erase next ++ path (⟨next, g.dependentsAt next⟩ :: frames) ++ done).Perm
      (fresh ++ path frames ++ done) := by
    simp only [path_cons, List.append_assoc, List.cons_append]
    refine List.perm_middle.trans ?_
    exact ((List.perm_cons_erase hfresh).symm.append_right _)
  refine ⟨hperm.nodup_iff.mpr h.nodup, fun v => ?_, ?_, ?_⟩
  · rw [← h.covers v]
    exact hperm.mem_iff
  · exact List.isChain_cons.mpr ⟨hedge, h.chain⟩
  · rintro f hf
    rcases List.mem_cons.mp hf with rfl | hf
    · exact List.suffix_refl _
    · exact h.left f hf

/-- The edge that is followed next is an edge of the graph. -/
theorem edge_next (h : Placed g ⟨fresh, ⟨node, next :: more⟩ :: rest, found⟩ done) :
    g.Edge node next :=
  (h.left _ List.mem_cons_self).subset List.mem_cons_self

theorem nodup_path {s : Search} (h : Placed g s done) : (path s.frames).Nodup :=
  h.nodup.sublist ((List.sublist_append_right _ _).trans (List.sublist_append_left _ _))

end Placed

/-! ## What was found -/

theorem closes_append_iff {found : List (List Nat)} {cycle : List Nat} {u v : Nat} :
    Closes (found ++ [cycle]) u v ↔ Closes found u v ∨ [u, v] <:+ cycle := by
  simp [Closes, or_and_right, exists_or]

theorem closes_append_left {found : List (List Nat)} {cycle : List Nat} {u v : Nat}
    (h : Closes found u v) : Closes (found ++ [cycle]) u v :=
  closes_append_iff.mpr (.inl h)

theorem closes_append_right (found : List (List Nat)) {cycle : List Nat} {u v : Nat}
    (h : [u, v] <:+ cycle) : Closes (found ++ [cycle]) u v :=
  closes_append_iff.mpr (.inr h)

/-- What was found are cycles, and each was closed by another edge, which is left behind. -/
structure Recorded (g : StepGraph) (s : Search) : Prop where
  cycles : ∀ cycle ∈ s.found, SimpleCycle g.Edge cycle
  distinct : s.found.Pairwise fun p q => ∀ u v, [u, v] <:+ p → ¬[u, v] <:+ q
  behind : ∀ u v, Closes s.found u v → u ∉ s.fresh ∧ ∀ f ∈ s.frames, f.node = u → v ∉ f.next

namespace Recorded

variable {g : StepGraph} {fresh : List Nat} {frames rest : List Frame} {found : List (List Nat)}
variable {done more : List Nat} {node next : Nat}

theorem leave (h : Recorded g ⟨fresh, ⟨node, []⟩ :: rest, found⟩) :
    Recorded g ⟨fresh, rest, found⟩ where
  cycles := h.cycles
  distinct := h.distinct
  behind u v huv := by
    obtain ⟨hu, hf⟩ := h.behind u v huv
    exact ⟨hu, fun f hmem => hf f (List.mem_cons_of_mem _ hmem)⟩

theorem advance (h : Recorded g ⟨fresh, ⟨node, next :: more⟩ :: rest, found⟩) :
    Recorded g ⟨fresh, ⟨node, more⟩ :: rest, found⟩ where
  cycles := h.cycles
  distinct := h.distinct
  behind u v huv := by
    obtain ⟨hu, hf⟩ := h.behind u v huv
    rw [List.forall_mem_cons] at hf
    refine ⟨hu, List.forall_mem_cons.mpr ⟨fun hnode hv => ?_, hf.2⟩⟩
    exact hf.1 hnode (List.mem_cons_of_mem _ hv)

theorem enter (h : Recorded g ⟨fresh, frames, found⟩) (hfresh : next ∈ fresh) :
    Recorded g (g.enter ⟨fresh, frames, found⟩ next) where
  cycles := h.cycles
  distinct := h.distinct
  behind u v huv := by
    obtain ⟨hu, hf⟩ := h.behind u v huv
    refine ⟨fun hmem => hu (List.mem_of_mem_erase hmem), List.forall_mem_cons.mpr ⟨?_, hf⟩⟩
    rintro rfl
    exact absurd hfresh hu

/-- The edge that closes a cycle was not left behind before, and is now. -/
theorem close (hg : g.Coherent) (hp : Placed g ⟨fresh, ⟨node, next :: more⟩ :: rest, found⟩ done)
    (h : Recorded g ⟨fresh, ⟨node, next :: more⟩ :: rest, found⟩)
    (hpath : next ∈ path (⟨node, next :: more⟩ :: rest)) :
    Recorded g ⟨fresh, ⟨node, more⟩ :: rest,
      found ++ [cycleThrough (⟨node, next :: more⟩ :: rest) next]⟩ := by
  obtain ⟨hcycle, hlast⟩ :=
    cycleThrough_spec hp.chain hp.nodup_path rfl hpath hp.edge_next
  have hnew : ¬Closes found node next := fun hcloses =>
    (h.behind node next hcloses).2 _ List.mem_cons_self rfl List.mem_cons_self
  refine ⟨?_, ?_, fun u v huv => ?_⟩
  · rw [List.forall_mem_append]
    exact ⟨h.cycles, by simpa using hcycle⟩
  · rw [List.pairwise_append]
    -- An older cycle with the same last edge would have left the edge behind.
    refine ⟨h.distinct, List.pairwise_singleton _ _, fun p hp' q hq u v hup huq => ?_⟩
    rw [List.mem_singleton.mp hq] at huq
    obtain ⟨rfl, rfl⟩ := (hlast u v).mp huq
    exact hnew ⟨p, hp', hup⟩
  · rcases closes_append_iff.mp huv with hold | hcloses
    · exact h.advance.behind u v hold
    · obtain ⟨rfl, rfl⟩ := (hlast u v).mp hcloses
      have hnodup := hp.nodup
      simp only [path_cons, List.append_assoc, List.cons_append, List.nodup_append,
        List.nodup_cons, List.mem_append, List.mem_cons] at hnodup
      obtain ⟨-, ⟨hrest, -⟩, hdisjoint⟩ := hnodup
      refine ⟨fun hmem => hdisjoint u hmem u (.inl rfl) rfl, ?_⟩
      refine List.forall_mem_cons.mpr ⟨fun _ => ?_, ?_⟩
      -- Dependents are listed once, so the edge is not left a second time.
      · have hsuffix : (v :: more) <:+ g.dependentsAt u := hp.left _ List.mem_cons_self
        exact (List.nodup_cons.mp ((hg.nodup_dependentsAt u).sublist hsuffix.sublist)).1
      · intro f hf hnode
        exact absurd (Or.inl (List.mem_map.mpr ⟨f, hf, hnode⟩)) hrest

end Recorded

/-! ## What was left behind -/

/-- Every edge that an open frame has left behind closed a cycle, or leads to a finished node or to
the node of the frame above. -/
def Examined (g : StepGraph) (found : List (List Nat)) (done : List Nat) :
    Option Nat → List Frame → Prop
  | _, [] => True
  | above, f :: rest =>
      (∀ v, g.Edge f.node v → v ∈ f.next ∨ Closes found f.node v ∨ v ∈ done ∨ above = some v) ∧
        Examined g found done (some f.node) rest

/-- Every edge of a finished node closed a cycle or leads to a node that was finished earlier. -/
def Settled (g : StepGraph) (found : List (List Nat)) : List Nat → Prop
  | [] => True
  | u :: earlier =>
      (∀ v, g.Edge u v → Closes found u v ∨ v ∈ earlier) ∧ Settled g found earlier

section Progress

variable {g : StepGraph} {frames rest : List Frame} {found found' : List (List Nat)}
variable {done done' more : List Nat} {above : Option Nat} {node next : Nat}

theorem Examined.mono (h : Examined g found done above frames)
    (hfound : ∀ u v, Closes found u v → Closes found' u v) (hdone : done ⊆ done') :
    Examined g found' done' above frames := by
  induction frames generalizing above with
  | nil => trivial
  | cons f rest ih =>
      refine ⟨fun v hv => ?_, ih h.2⟩
      exact (h.1 v hv).imp_right (Or.imp (hfound _ v) (Or.imp_left (@hdone v)))

theorem Settled.mono (h : Settled g found done)
    (hfound : ∀ u v, Closes found u v → Closes found' u v) : Settled g found' done := by
  induction done with
  | nil => trivial
  | cons u earlier ih => exact ⟨fun v hv => (h.1 v hv).imp_left (hfound u v), ih h.2⟩

/-- The last node of the path is finished: it was the node above the frame before it. -/
theorem Examined.leave (h : Examined g found done (some node) rest) :
    Examined g found (node :: done) none rest := by
  cases rest with
  | nil => trivial
  | cons f rest =>
      refine ⟨fun v hv => ?_, h.2.mono (fun _ _ => id) (List.subset_cons_self node done)⟩
      rcases h.1 v hv with hleft | hcloses | hdone | habove
      · exact .inl hleft
      · exact .inr (.inl hcloses)
      · exact .inr (.inr (.inl (List.mem_cons_of_mem node hdone)))
      · obtain rfl := Option.some.inj habove
        exact .inr (.inr (.inl List.mem_cons_self))

/-- The next edge of the last node may be left behind once it is accounted for. -/
theorem Examined.advance (h : Examined g found done none (⟨node, next :: more⟩ :: rest))
    (hfound : ∀ u v, Closes found u v → Closes found' u v)
    (hnext : Closes found' node next ∨ next ∈ done ∨ above = some next) :
    Examined g found' done above (⟨node, more⟩ :: rest) := by
  refine ⟨fun v hv => ?_, h.2.mono hfound (List.Subset.refl done)⟩
  rcases h.1 v hv with hleft | hcloses | hdone | habove
  · rcases List.mem_cons.mp hleft with rfl | hmore
    · exact .inr hnext
    · exact .inl hmore
  · exact .inr (.inl (hfound node v hcloses))
  · exact .inr (.inr (.inl hdone))
  · cases habove

/-- Among finished nodes, the edges that closed no cycle lead in the direction of the list. -/
theorem Settled.closes_or_lt (h : Settled g found done) (hnodup : done.Nodup) {u v : Nat}
    (hu : u ∈ done) (hedge : g.Edge u v) :
    Closes found u v ∨ v ∈ done ∧ done.idxOf u < done.idxOf v := by
  induction done with
  | nil => cases hu
  | cons x earlier ih =>
      obtain ⟨hx, hnodup⟩ := List.nodup_cons.mp hnodup
      have hlater : ∀ w ∈ earlier, (x :: earlier).idxOf w = earlier.idxOf w + 1 := by
        intro w hw
        exact List.idxOf_cons_ne _ fun heq => hx (heq ▸ hw)
      by_cases hux : u = x
      · subst hux
        refine (h.1 v hedge).imp_right fun hv => ⟨List.mem_cons_of_mem u hv, ?_⟩
        rw [List.idxOf_cons_self, hlater v hv]
        exact Nat.succ_pos _
      · have hu' : u ∈ earlier := (List.mem_cons.mp hu).resolve_left hux
        refine (ih h.2 hnodup hu').imp_right fun ⟨hv, hlt⟩ => ⟨List.mem_cons_of_mem x hv, ?_⟩
        rw [hlater u hu', hlater v hv]
        exact Nat.succ_lt_succ hlt

end Progress

/-! ## Runs -/

/-- What holds throughout the search. -/
structure Inv (g : StepGraph) (s : Search) (done : List Nat) : Prop where
  placed : Placed g s done
  recorded : Recorded g s
  examined : Examined g s.found done none s.frames
  settled : Settled g s.found done

theorem inv_start (g : StepGraph) : Inv g ⟨g.positions, [], []⟩ [] where
  placed := ⟨by simp [positions, List.nodup_range], by simp, List.isChain_nil, by simp⟩
  recorded := ⟨by simp, List.Pairwise.nil, by simp [Closes]⟩
  examined := trivial
  settled := trivial

/-- Every move keeps the invariant; only `leave` finishes a node. -/
theorem Move.inv {g : StepGraph} (hg : g.Coherent) {s t : Search} (hmove : Move g s t)
    {done : List Nat} (h : Inv g s done) : ∃ done', Inv g t done' := by
  obtain ⟨hplaced, hrecorded, hexamined, hsettled⟩ := h
  cases hmove with
  -- All edges of a node that is entered are still to be followed.
  | start hroot =>
      refine ⟨done, hplaced.enter hroot (by simp), hrecorded.enter hroot, ?_, hsettled⟩
      exact ⟨fun v hv => .inl hv, trivial⟩
  | @leave _ node =>
      refine ⟨node :: done, hplaced.leave, hrecorded.leave, hexamined.2.leave, ?_, hsettled⟩
      intro v hv
      rcases hexamined.1 v hv with hleft | hcloses | hdone | habove
      · cases hleft
      · exact .inl hcloses
      · exact .inr hdone
      · cases habove
  | @close _ node next _ _ found hpath =>
      obtain ⟨-, hlast⟩ :=
        cycleThrough_spec hplaced.chain hplaced.nodup_path rfl hpath hplaced.edge_next
      have hcloses := closes_append_right found ((hlast node next).mpr ⟨rfl, rfl⟩)
      exact ⟨done, hplaced.advance, hrecorded.close hg hplaced hpath,
        hexamined.advance (fun _ _ => closes_append_left) (.inl hcloses),
        hsettled.mono fun _ _ => closes_append_left⟩
  | enter hfresh =>
      have hedge := hplaced.edge_next
      refine ⟨done, (hplaced.advance).enter hfresh ?_, hrecorded.advance.enter hfresh, ?_, hsettled⟩
      · simpa using hedge
      · exact ⟨fun v hv => .inl hv, hexamined.advance (fun _ _ => id) (.inr (.inr rfl))⟩
  | @skip fresh node next _ rest _ hpath hfresh =>
      -- What is neither fresh nor on the path is finished.
      have hdone : next ∈ done := by
        have hmem := (hplaced.covers next).mpr (hg.lt_right hplaced.edge_next)
        rw [List.append_assoc, List.mem_append, List.mem_append] at hmem
        exact (hmem.resolve_left hfresh).resolve_left hpath
      exact ⟨done, hplaced.advance, hrecorded.advance,
        hexamined.advance (fun _ _ => id) (.inr (.inl hdone)), hsettled⟩

theorem inv_of_moves {g : StepGraph} (hg : g.Coherent) {s t : Search}
    (hmoves : Relation.ReflTransGen (Move g) s t) {done : List Nat} (h : Inv g s done) :
    ∃ done', Inv g t done' := by
  induction hmoves with
  | refl => exact ⟨done, h⟩
  | tail _ hmove ih =>
      obtain ⟨middle, hmiddle⟩ := ih
      exact hmove.inv hg hmiddle

/-- In the end every node is finished. -/
theorem exists_inv_end {g : StepGraph} (hg : g.Coherent) :
    ∃ done, Inv g ⟨[], [], g.cyclePositions⟩ done := by
  have hnodup : (⟨g.positions, [], []⟩ : Search).fresh.Nodup := List.nodup_range
  obtain ⟨hmoves, hframes, hroots⟩ := exploreFrom_moves (g := g) rfl hnodup g.positions
  obtain ⟨done, hinv⟩ := inv_of_moves hg hmoves (inv_start g)
  have hfresh : (g.exploreFrom ⟨g.positions, [], []⟩ g.positions).fresh = [] := by
    rw [List.eq_nil_iff_forall_not_mem]
    intro v hv
    have hsize : v < g.size := (hinv.placed.covers v).mp (by simp [hv])
    exact hroots v (mem_positions.mpr hsize) hv
  have hend : g.exploreFrom ⟨g.positions, [], []⟩ g.positions = ⟨[], [], g.cyclePositions⟩ := by
    rw [cyclePositions, ← hfresh]
    exact congrArg (fun frames => Search.mk _ frames _) hframes
  exact ⟨done, hend ▸ hinv⟩

end Search

/-! ## The cycles of a graph -/

section Cycles

variable {g : StepGraph} (hg : g.Coherent)
include hg

theorem simpleCycle_of_mem_cyclePositions {cycle : List Nat} (h : cycle ∈ g.cyclePositions) :
    SimpleCycle g.Edge cycle := by
  obtain ⟨_, hinv⟩ := Search.exists_inv_end hg
  exact hinv.recorded.cycles cycle h

/-- No two of the cycles are closed by the same edge. -/
theorem pairwise_cyclePositions :
    g.cyclePositions.Pairwise fun p q => ∀ u v, [u, v] <:+ p → ¬[u, v] <:+ q := by
  obtain ⟨_, hinv⟩ := Search.exists_inv_end hg
  exact hinv.recorded.distinct

/-- Every closed walk takes an edge that closes one of the cycles. -/
theorem exists_closing_edge {walk : List Nat} (h : ClosedWalk g.Edge walk) :
    ∃ u v, [u, v] <:+: walk ∧ Closes g.cyclePositions u v := by
  obtain ⟨done, hinv⟩ := Search.exists_inv_end hg
  have hnodup : done.Nodup := by simpa using hinv.placed.nodup
  refine h.exists_step_of_rank done.idxOf fun u v hedge => ?_
  have hu : u ∈ done := by simpa using (hinv.placed.covers u).mpr hedge.lt_left
  exact (hinv.settled.closes_or_lt hnodup hu hedge).imp_right And.right

theorem cyclePositions_eq_nil_iff :
    g.cyclePositions = [] ↔ ∀ i, ¬Relation.TransGen g.Edge i i := by
  constructor
  · intro hnil i hi
    obtain ⟨walk, hwalk⟩ := ClosedWalk.exists_of_transGen hi
    obtain ⟨u, v, -, cycle, hcycle, -⟩ := exists_closing_edge hg hwalk
    rw [hnil] at hcycle
    cases hcycle
  · intro hacyclic
    rw [List.eq_nil_iff_forall_not_mem]
    intro cycle hcycle
    obtain ⟨i, -, hi⟩ := (simpleCycle_of_mem_cyclePositions hg hcycle).exists_transGen
    exact hacyclic i hi

end Cycles
end StepGraph
end PlanFlow
