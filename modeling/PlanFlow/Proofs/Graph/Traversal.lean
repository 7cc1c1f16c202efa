import PlanFlow.Proofs.Graph.CycleSearch

/-!
# The search for cycles, round by round

A machine that keeps the bookkeeping of the search in structures of their own: the frames with the
place of the next edge, the path, which nodes are on it, and which were visited.  In one round it
turns to the next root, leaves a node or follows an edge.  The structures agree with each other
whenever a round begins, and every round is a move of the search.
-/

namespace PlanFlow
namespace StepGraph

/-- What a round does. -/
inductive Round where
  /-- The root was visited before. -/
  | pass (root : Nat)
  /-- A path starts at a root. -/
  | start (root : Nat)
  /-- A node has no edge left. -/
  | leave (node : Nat)
  /-- An edge leads back to the path and closes a cycle. -/
  | close (node next : Nat)
  /-- An edge leads back to the path, but its end is not found there. -/
  | lose (node next : Nat)
  /-- An edge leads to a node that was not visited. -/
  | enter (node next : Nat)
  /-- An edge leads to a node that was visited and left. -/
  | skip (node next : Nat)
  deriving DecidableEq

namespace Round

/-- The node that is entered in a round. -/
def entered? : Round → Option Nat
  | .start node | .enter _ node => some node
  | .pass _ | .leave _ | .close _ _ | .lose _ _ | .skip _ _ => none

/-- The edge that is followed in a round. -/
def edge? : Round → Option (Nat × Nat)
  | .close node next | .lose node next | .enter node next | .skip node next => some (node, next)
  | .pass _ | .start _ | .leave _ => none

end Round

/-- The state of the machine: the roots that are to come, the open frames, the last one first, each
with the place of its next edge, the path from its root on, a mark for each node that is on the path
and for each that was visited, and the cycles that were found. -/
structure Traversal where
  roots : List Nat
  frames : List (Nat × Nat)
  path : List Nat
  onPath : List Bool
  visited : List Bool
  found : List (List Nat)
  deriving DecidableEq

namespace Traversal

/-- Visits a node. -/
def visit (t : Traversal) (node : Nat) : Traversal :=
  { t with
    visited := t.visited.set node true
    onPath := t.onPath.set node true
    path := t.path ++ [node]
    frames := (node, 0) :: t.frames }

/-- Leaves the last node of the path, whose frame is closed. -/
def leave (t : Traversal) (node : Nat) (rest : List (Nat × Nat)) : Traversal :=
  { t with
    frames := rest
    path := t.path.dropLast
    onPath := t.onPath.set node false }

/-- Follows an edge.  There is no round if a mark is missing. -/
def follow (t : Traversal) (node next : Nat) : Option (Round × Traversal) :=
  match t.onPath[next]? with
  | some true =>
    match t.path.idxOf? next with
    | some place =>
      some (.close node next, { t with found := t.found ++ [t.path.drop place ++ [next]] })
    | none => some (.lose node next, t)
  | some false =>
    match t.visited[next]? with
    | some true => some (.skip node next, t)
    | some false => some (.enter node next, t.visit next)
    | none => none
  | none => none

/-- One round.  There is none when no frame is open and no root is to come. -/
def advance (g : StepGraph) (t : Traversal) : Option (Round × Traversal) :=
  match t.frames with
  | (node, place) :: rest =>
    match (g.dependentsAt node)[place]? with
    | some next => follow { t with frames := (node, place + 1) :: rest } node next
    | none => some (.leave node, t.leave node rest)
  | [] =>
    match t.roots with
    | root :: roots =>
      match t.visited[root]? with
      | some true => some (.pass root, { t with roots })
      | some false => some (.start root, { t with roots }.visit root)
      | none => none
    | [] => none

/-- No frame is open, and no root is to come. -/
def IsOver (t : Traversal) : Prop := t.frames = [] ∧ t.roots = []

/-- The state before the first round. -/
def initial (g : StepGraph) : Traversal :=
  ⟨g.positions, [], [], List.replicate g.size false, List.replicate g.size false, []⟩

/-- The state of the search that a state of the machine stands for. -/
def view (g : StepGraph) (t : Traversal) : Search where
  fresh := g.positions.filter fun v => t.visited[v]? = some false
  frames := t.frames.map fun f => ⟨f.1, (g.dependentsAt f.1).drop f.2⟩
  found := t.found

/-- The structures of a state agree with each other. -/
structure Consistent (g : StepGraph) (t : Traversal) : Prop where
  path_eq : t.path = (t.frames.map Prod.fst).reverse
  onPath_iff : ∀ v, t.onPath[v]? = some true ↔ v ∈ t.path
  size_onPath : t.onPath.length = g.size
  size_visited : t.visited.length = g.size
  roots_lt : ∀ root ∈ t.roots, root < g.size
  mem_roots : ∀ v, t.visited[v]? = some false → v ∈ t.roots

section View

variable {g : StepGraph} {t : Traversal} {node : Nat}

theorem mem_fresh_view {v : Nat} (hsize : t.visited.length = g.size) :
    v ∈ (t.view g).fresh ↔ t.visited[v]? = some false := by
  have hlt : t.visited[v]? = some false → v < g.size := fun h => by
    rw [← hsize]
    exact (List.getElem?_eq_some_iff.mp h).1
  simp only [view, List.mem_filter, mem_positions, decide_eq_true_iff]
  exact ⟨And.right, fun h => ⟨hlt h, h⟩⟩

theorem path_view : Search.path (t.view g).frames = t.frames.map Prod.fst := by
  simp [view, Search.path]

/-- Visiting a node is entering it. -/
theorem view_visit (t : Traversal) (node : Nat) :
    (t.visit node).view g = g.enter (t.view g) node := by
  have hnodup : (t.view g).fresh.Nodup := List.nodup_range.filter _
  have hfresh : ((t.visit node).view g).fresh = (t.view g).fresh.erase node := by
    rw [hnodup.erase_eq_filter, view, view, List.filter_filter]
    refine List.filter_congr fun v _ => ?_
    by_cases hv : v = node
    · subst hv
      by_cases hlt : v < t.visited.length <;> simp [visit, hlt]
    · simp [visit, List.getElem?_set_ne (Ne.symm hv), hv]
  exact congrArg (fun fresh => Search.mk fresh (g.enter (t.view g) node).frames t.found) hfresh

end View

/-! ## Rounds -/

/-- The edges that were not followed yet: those of the nodes that were not entered, and those that
the open frames have left. -/
def remaining (g : StepGraph) (s : Search) : List (Nat × Nat) :=
  (s.fresh.flatMap fun v => (g.dependentsAt v).map (v, ·)) ++
    s.frames.flatMap fun f => f.next.map (f.node, ·)

/-- How many rounds are to come: one for each root, one to leave each node, and one for each
edge. -/
def toCome (g : StepGraph) (t : Traversal) : Nat :=
  t.roots.length + (t.view g).fresh.length + t.frames.length + (remaining g (t.view g)).length

/-- What the search finds from a state on. -/
def outcome (g : StepGraph) (t : Traversal) : Search :=
  g.exploreFrom (g.explore (t.view g)) t.roots

theorem remaining_enter {g : StepGraph} {s : Search} {node : Nat} (h : node ∈ s.fresh) :
    (remaining g (g.enter s node)).Perm (remaining g s) := by
  have hfresh := (List.perm_cons_erase h).flatMap_right fun v => (g.dependentsAt v).map (v, ·)
  rw [List.flatMap_cons] at hfresh
  refine .trans ?_ (hfresh.symm.append_right _)
  rw [remaining, enter, List.flatMap_cons, ← List.append_assoc]
  exact List.perm_append_comm.append_right _

/-- What a round does to a state: the search goes on as before, the structures agree with each other
again, and what the round enters and follows is no longer to be entered and followed.  The next root
is only taken when no frame is open. -/
structure Turn (g : StepGraph) (t : Traversal) (r : Round) (u : Traversal) : Prop where
  roots_eq : t.frames ≠ [] → u.roots = t.roots
  moves : Relation.ReflTransGen (Search.Move g) (t.view g) (u.view g)
  outcome_eq : outcome g u = outcome g t
  consistent : u.Consistent g
  finds : ∀ node next, r ≠ .lose node next
  entered : (r.entered?.toList ++ (u.view g).fresh).Perm (t.view g).fresh
  followed : (r.edge?.toList ++ remaining g (u.view g)).Perm (remaining g (t.view g))
  toCome_eq : toCome g u + 1 = toCome g t

/-! ## Structures that agree -/

namespace Consistent

variable {g : StepGraph} {t : Traversal} {node place : Nat} {rest : List (Nat × Nat)}

/-- To follow an edge moves a place on, and leaves the path and the marks alone. -/
theorem advance (h : t.Consistent g) (hframes : t.frames = (node, place) :: rest)
    {found : List (List Nat)} :
    { t with frames := (node, place + 1) :: rest, found }.Consistent g where
  path_eq := by simp [h.path_eq, hframes]
  onPath_iff := h.onPath_iff
  size_onPath := h.size_onPath
  size_visited := h.size_visited
  roots_lt := h.roots_lt
  mem_roots := h.mem_roots

theorem visit (h : t.Consistent g) (hnode : node < g.size) {roots : List Nat}
    (hlt : ∀ root ∈ roots, root < g.size)
    (hroots : ∀ v, t.visited[v]? = some false → v = node ∨ v ∈ roots) :
    ({ t with roots }.visit node).Consistent g where
  path_eq := by simp [Traversal.visit, h.path_eq]
  onPath_iff v := by
    have hv := h.onPath_iff v
    have hsize := h.size_onPath
    by_cases hnv : v = node
    · subst hnv
      simp [Traversal.visit, hsize, hnode]
    · simp [Traversal.visit, List.getElem?_set_ne (Ne.symm hnv), hv, hnv]
  size_onPath := by simp [Traversal.visit, h.size_onPath]
  size_visited := by simp [Traversal.visit, h.size_visited]
  roots_lt := hlt
  mem_roots v hv := by
    have hsize := h.size_visited
    by_cases hnv : v = node
    · subst hnv
      simp [Traversal.visit, hsize, hnode] at hv
    · simp only [Traversal.visit, List.getElem?_set_ne (Ne.symm hnv)] at hv
      exact (hroots v hv).resolve_left hnv

/-- When the last node of the path is left, its mark goes with it. -/
theorem leave (h : t.Consistent g) (hframes : t.frames = (node, place) :: rest)
    (hnodup : (t.frames.map Prod.fst).Nodup) : (t.leave node rest).Consistent g where
  path_eq := by simp [Traversal.leave, h.path_eq, hframes]
  onPath_iff v := by
    have hv := h.onPath_iff v
    rw [h.path_eq] at hv
    simp only [hframes, List.map_cons, List.reverse_cons, List.mem_append, List.mem_reverse,
      List.mem_singleton, List.nodup_cons] at hv hnodup
    by_cases hnv : v = node
    · subst hnv
      by_cases hlt : v < t.onPath.length <;>
        simp [Traversal.leave, h.path_eq, hframes, hlt, hnodup.1]
    · simp [Traversal.leave, h.path_eq, hframes, List.getElem?_set_ne (Ne.symm hnv), hv, hnv]
  size_onPath := by simp [Traversal.leave, h.size_onPath]
  size_visited := h.size_visited
  roots_lt := h.roots_lt
  mem_roots := h.mem_roots

end Consistent

/-! ## Every round is a move -/

/-- What is fresh is not on the path. -/
theorem not_mem_path_of_mem_fresh {g : StepGraph} {s : Search} {done : List Nat}
    (hp : Search.Placed g s done) {v : Nat} (hfresh : v ∈ s.fresh) : v ∉ Search.path s.frames := by
  intro hpath
  have hnodup := (List.nodup_append.mp hp.nodup).1
  exact (List.nodup_append.mp hnodup).2.2 v hfresh v hpath rfl

/-- When no frame is open there is nothing to explore. -/
theorem explore_of_closed {g : StepGraph} {s : Search} (hclosed : s.frames = []) :
    g.explore s = s := by
  obtain ⟨fresh, frames, found⟩ := s
  obtain rfl : frames = [] := hclosed
  rw [explore]

/-- A move from an open frame is one step of the exploration. -/
theorem explore_of_move {g : StepGraph} {s s' : Search} {done : List Nat}
    (h : Search.Move g s s') (hp : Search.Placed g s done) (hopen : s.frames ≠ []) :
    g.explore s' = g.explore s := by
  cases h with
  | start => exact absurd rfl hopen
  | leave => rw [explore.eq_def g ⟨_, ⟨_, []⟩ :: _, _⟩]
  | close hpath =>
      rw [explore.eq_def g ⟨_, ⟨_, _ :: _⟩ :: _, _⟩]
      simp [Search.onPath_iff.mpr hpath]
  | enter hfresh =>
      have hpath := Search.onPath_iff.not.mpr (not_mem_path_of_mem_fresh hp hfresh)
      rw [explore.eq_def g ⟨_, ⟨_, _ :: _⟩ :: _, _⟩]
      simp [hpath, hfresh]
  | skip hpath hfresh =>
      rw [explore.eq_def g ⟨_, ⟨_, _ :: _⟩ :: _, _⟩]
      simp [Search.onPath_iff.not.mpr hpath, hfresh]

section Turns

variable {g : StepGraph} {t u : Traversal} {r : Round} {done : List Nat} {node place next : Nat}
variable {rest : List (Nat × Nat)}

/-- A round at an open frame is a move that leaves the roots alone. -/
theorem Turn.of_move (hp : Search.Placed g (t.view g) done)
    (hmove : Search.Move g (t.view g) (u.view g)) (hopen : t.frames ≠ [])
    (hroots : u.roots = t.roots) (hconsistent : u.Consistent g)
    (hfinds : ∀ node next, r ≠ .lose node next)
    (hentered : (r.entered?.toList ++ (u.view g).fresh).Perm (t.view g).fresh)
    (hfollowed : (r.edge?.toList ++ remaining g (u.view g)).Perm (remaining g (t.view g)))
    (hframes : u.frames.length + 1 =
      t.frames.length + r.entered?.toList.length + r.edge?.toList.length) : Turn g t r u where
  roots_eq _ := hroots
  moves := .single hmove
  outcome_eq := by
    rw [outcome, outcome, hroots, explore_of_move hmove hp]
    simpa [view] using hopen
  consistent := hconsistent
  finds := hfinds
  entered := hentered
  followed := hfollowed
  toCome_eq := by
    have hfresh := hentered.length_eq
    have hremaining := hfollowed.length_eq
    rw [List.length_append] at hfresh hremaining
    simp only [toCome, hroots]
    omega

theorem view_of_frames (hframes : t.frames = (node, place) :: rest) :
    t.view g = ⟨(t.view g).fresh, ⟨node, (g.dependentsAt node).drop place⟩ ::
      rest.map fun f => ⟨f.1, (g.dependentsAt f.1).drop f.2⟩, t.found⟩ := by
  simp [view, hframes]

theorem Turn.leave (hc : t.Consistent g) (hp : Search.Placed g (t.view g) done)
    (hframes : t.frames = (node, place) :: rest) (hlast : (g.dependentsAt node)[place]? = none) :
    Turn g t (.leave node) (t.leave node rest) := by
  have hview := view_of_frames (g := g) hframes
  have hnone : (g.dependentsAt node).drop place = [] :=
    List.drop_eq_nil_of_le (List.getElem?_eq_none_iff.mp hlast)
  rw [hnone] at hview
  have hnodup : (t.frames.map Prod.fst).Nodup := by
    rw [← path_view (g := g)]
    exact hp.nodup_path
  refine .of_move hp ?_ (by simp [hframes]) rfl (hc.leave hframes hnodup) nofun ?_ ?_ ?_
  · rw [hview]
    exact .leave
  · exact List.Perm.refl _
  · rw [hview]
    simp only [Round.edge?, remaining, List.flatMap_cons, List.map_nil, List.nil_append]
    exact List.Perm.refl _
  · simp [Traversal.leave, hframes, Round.entered?, Round.edge?]

theorem view_of_next (hframes : t.frames = (node, place) :: rest)
    (hnext : (g.dependentsAt node)[place]? = some next) :
    t.view g = ⟨(t.view g).fresh, ⟨node, next :: (g.dependentsAt node).drop (place + 1)⟩ ::
      rest.map fun f => ⟨f.1, (g.dependentsAt f.1).drop f.2⟩, t.found⟩ := by
  obtain ⟨hlt, hget⟩ := List.getElem?_eq_some_iff.mp hnext
  rw [view_of_frames hframes, List.drop_eq_getElem_cons hlt, hget]

/-- The cycle that is cut from the path is the one that the edge closes. -/
theorem drop_path_eq_cycleThrough {frames : List Frame} {start : Nat}
    (hnodup : (Search.path frames).Nodup)
    (hstart : (Search.path frames).reverse.idxOf? next = some start) :
    (Search.path frames).reverse.drop start ++ [next] = Search.cycleThrough frames next := by
  obtain ⟨hlt, hget, -⟩ := List.idxOf?_eq_some_iff.mp hstart
  have hdrop := List.drop_eq_getElem_cons hlt
  rw [hget] at hdrop
  -- The frames stand last first, so what follows the node on the path stands before its frame.
  have hpath : Search.path frames = ((Search.path frames).reverse.drop (start + 1)).reverse ++
      next :: ((Search.path frames).reverse.take start).reverse := by
    conv_lhs => rw [← List.reverse_reverse (Search.path frames),
      ← List.take_append_drop start (Search.path frames).reverse, hdrop]
    simp
  have hbefore : next ∉ ((Search.path frames).reverse.drop (start + 1)).reverse := fun hmem => by
    rw [hpath] at hnodup
    exact (List.nodup_append.mp hnodup).2.2 next hmem next List.mem_cons_self rfl
  rw [Search.cycleThrough_eq hpath hbefore, hdrop]
  simp

/-- An edge that is followed is no longer to be followed. -/
theorem remaining_follow (g : StepGraph) (fresh more : List Nat) (node next : Nat)
    (rest : List Frame) (found found' : List (List Nat)) :
    ((node, next) :: remaining g ⟨fresh, ⟨node, more⟩ :: rest, found'⟩).Perm
      (remaining g ⟨fresh, ⟨node, next :: more⟩ :: rest, found⟩) := by
  simp only [remaining, List.flatMap_cons, List.map_cons, List.cons_append]
  exact List.perm_middle.symm

theorem Turn.close (hc : t.Consistent g) (hp : Search.Placed g (t.view g) done)
    (hframes : t.frames = (node, place) :: rest)
    (hnext : (g.dependentsAt node)[place]? = some next) {start : Nat}
    (hstart : t.path.idxOf? next = some start) :
    Turn g t (.close node next) { t with
      frames := (node, place + 1) :: rest
      found := t.found ++ [t.path.drop start ++ [next]] } := by
  have hpath : t.path = (Search.path (t.view g).frames).reverse := by
    rw [hc.path_eq, path_view]
  rw [hpath] at hstart
  have hcycle := drop_path_eq_cycleThrough hp.nodup_path hstart
  have hmem : next ∈ Search.path (t.view g).frames := by
    obtain ⟨hlt, hget, -⟩ := List.idxOf?_eq_some_iff.mp hstart
    exact List.mem_reverse.mp (hget ▸ List.getElem_mem hlt)
  have hview := view_of_next hframes hnext
  refine .of_move hp ?_ (by simp [hframes]) rfl (hc.advance hframes) nofun (List.Perm.refl _) ?_ ?_
  · rw [hpath, hcycle]
    rw [hview] at hmem ⊢
    exact .close hmem
  · rw [hview]
    exact remaining_follow ..
  · simp [hframes, Round.entered?, Round.edge?]

theorem Turn.enter (hg : g.Coherent) (hc : t.Consistent g) (hp : Search.Placed g (t.view g) done)
    (hframes : t.frames = (node, place) :: rest)
    (hnext : (g.dependentsAt node)[place]? = some next) (hvisited : t.visited[next]? = some false) :
    Turn g t (.enter node next) ({ t with frames := (node, place + 1) :: rest }.visit next) := by
  have hview := view_of_next hframes hnext
  have hfresh : next ∈ (t.view g).fresh := (mem_fresh_view hc.size_visited).mpr hvisited
  have hlt : next < g.size := hg.lt_right (hview ▸ hp).edge_next
  refine .of_move hp ?_ (by simp [hframes]) rfl ((hc.advance hframes).visit hlt hc.roots_lt
    fun v hv => .inr (hc.mem_roots v hv)) nofun ?_ ?_ ?_
  · rw [view_visit, hview]
    exact .enter hfresh
  · rw [view_visit]
    exact (List.perm_cons_erase hfresh).symm
  · rw [view_visit, hview]
    refine .trans (.cons (node, next) (remaining_enter ?_)) (remaining_follow ..)
    exact hfresh
  · simp [visit, hframes, Round.entered?, Round.edge?]

theorem Turn.skip (hc : t.Consistent g) (hp : Search.Placed g (t.view g) done)
    (hframes : t.frames = (node, place) :: rest)
    (hnext : (g.dependentsAt node)[place]? = some next) (honPath : t.onPath[next]? = some false)
    (hvisited : t.visited[next]? = some true) :
    Turn g t (.skip node next) { t with frames := (node, place + 1) :: rest } := by
  have hview := view_of_next hframes hnext
  have hfresh : next ∉ (t.view g).fresh := by
    rw [mem_fresh_view hc.size_visited, hvisited]
    simp
  have hpath : next ∉ Search.path (t.view g).frames := by
    rw [path_view, ← List.mem_reverse, ← hc.path_eq, ← hc.onPath_iff, honPath]
    simp
  refine .of_move hp ?_ (by simp [hframes]) rfl (hc.advance hframes) nofun (List.Perm.refl _) ?_ ?_
  · rw [hview] at hpath ⊢
    exact .skip hpath hfresh
  · rw [hview]
    exact remaining_follow ..
  · simp [hframes, Round.entered?, Round.edge?]

/-- When no frame is open the next root is taken. -/
theorem outcome_of_closed {root : Nat} {roots : List Nat} (hsize : t.visited.length = g.size)
    (hframes : t.frames = []) (hroots : t.roots = root :: roots) :
    outcome g t = if t.visited[root]? = some false
      then g.exploreFrom (g.explore (g.enter (t.view g) root)) roots
      else g.exploreFrom (t.view g) roots := by
  have hclosed : (t.view g).frames = [] := by simp [view, hframes]
  rw [outcome, explore_of_closed hclosed, hroots, exploreFrom]
  simp only [List.contains_iff_mem, mem_fresh_view hsize]

theorem Turn.start {root : Nat} {roots : List Nat} (hc : t.Consistent g)
    (hframes : t.frames = []) (hroots : t.roots = root :: roots)
    (hvisited : t.visited[root]? = some false) :
    Turn g t (.start root) ({ t with roots }.visit root) := by
  have hview : t.view g = ⟨(t.view g).fresh, [], t.found⟩ := by simp [view, hframes]
  have hfresh : root ∈ (t.view g).fresh := (mem_fresh_view hc.size_visited).mpr hvisited
  have hlt := List.forall_mem_cons.mp (hroots ▸ hc.roots_lt)
  have hmem := fun v hv => List.mem_cons.mp (hroots ▸ hc.mem_roots v hv)
  have henter : ({ t with roots }.visit root).view g = g.enter (t.view g) root := view_visit ..
  have hremaining := remaining_enter (g := g) hfresh
  refine ⟨absurd hframes, .single ?_, ?_, hc.visit hlt.1 hlt.2 hmem, nofun, ?_, ?_, ?_⟩
  · rw [henter, hview]
    exact .start hfresh
  · rw [outcome_of_closed hc.size_visited hframes hroots, if_pos hvisited, outcome, henter]
    rfl
  · rw [henter]
    exact (List.perm_cons_erase hfresh).symm
  · rw [henter]
    exact hremaining
  · have hlength := (List.perm_cons_erase hfresh).length_eq
    simp only [toCome, henter, hremaining.length_eq, hroots]
    simp only [visit, StepGraph.enter, List.length_cons] at hlength ⊢
    omega

theorem Turn.pass {root : Nat} {roots : List Nat} (hc : t.Consistent g)
    (hframes : t.frames = []) (hroots : t.roots = root :: roots)
    (hvisited : t.visited[root]? = some true) :
    Turn g t (.pass root) { t with roots } where
  roots_eq := absurd hframes
  moves := .refl
  outcome_eq := by
    have hclosed : (t.view g).frames = [] := by simp [view, hframes]
    rw [outcome_of_closed hc.size_visited hframes hroots, if_neg (by simp [hvisited]), outcome]
    exact congrArg (g.exploreFrom · roots) (explore_of_closed hclosed)
  consistent := by
    refine ⟨hc.path_eq, hc.onPath_iff, hc.size_onPath, hc.size_visited, ?_, fun v hv => ?_⟩
    · exact (List.forall_mem_cons.mp (hroots ▸ hc.roots_lt)).2
    · refine (List.mem_cons.mp (hroots ▸ hc.mem_roots v hv)).resolve_left ?_
      rintro rfl
      exact absurd (hv.symm.trans hvisited) (by simp)
  finds := nofun
  entered := List.Perm.refl _
  followed := List.Perm.refl _
  toCome_eq := by
    simp only [toCome, hroots, view, List.length_cons]
    omega

end Turns

/-- A node that has a mark is marked or is not. -/
theorem getElem?_mark {marks : List Bool} {v n : Nat} (hsize : marks.length = n) (hv : v < n) :
    marks[v]? = some true ∨ marks[v]? = some false := by
  rw [List.getElem?_eq_getElem (hsize ▸ hv)]
  cases marks[v] <;> simp

/-- There is a round as long as a frame is open or a root is to come. -/
theorem exists_turn {g : StepGraph} (hg : g.Coherent) {t : Traversal} {done : List Nat}
    (hc : t.Consistent g) (hp : Search.Placed g (t.view g) done) (hover : ¬t.IsOver) :
    ∃ r u, advance g t = some (r, u) ∧ Turn g t r u := by
  rcases hframes : t.frames with _ | ⟨⟨node, place⟩, rest⟩
  · rcases hroots : t.roots with _ | ⟨root, roots⟩
    · exact absurd ⟨hframes, hroots⟩ hover
    · have hlt : root < g.size := hc.roots_lt root (hroots ▸ List.mem_cons_self)
      rcases getElem?_mark hc.size_visited hlt with hvisited | hvisited
      · exact ⟨_, _, by simp [advance, hframes, hroots, hvisited], .pass hc hframes hroots hvisited⟩
      · exact ⟨_, _, by simp [advance, hframes, hroots, hvisited],
          .start hc hframes hroots hvisited⟩
  · rcases hnext : (g.dependentsAt node)[place]? with _ | next
    · exact ⟨_, _, by simp [advance, hframes, hnext], .leave hc hp hframes hnext⟩
    · have hlt : next < g.size := hg.lt_right (view_of_next hframes hnext ▸ hp).edge_next
      rcases getElem?_mark hc.size_onPath hlt with honPath | honPath
      -- A marked node is on the path, and is found there.
      · obtain ⟨start, hstart⟩ : ∃ start, t.path.idxOf? next = some start := by
          rw [← Option.isSome_iff_exists, Option.isSome_iff_ne_none]
          simpa using (hc.onPath_iff next).mp honPath
        exact ⟨_, _, by simp [advance, hframes, hnext, follow, honPath, hstart],
          .close hc hp hframes hnext hstart⟩
      · rcases getElem?_mark hc.size_visited hlt with hvisited | hvisited
        · exact ⟨_, _, by simp [advance, hframes, hnext, follow, honPath, hvisited],
            .skip hc hp hframes hnext honPath hvisited⟩
        · exact ⟨_, _, by simp [advance, hframes, hnext, follow, honPath, hvisited],
            .enter hg hc hp hframes hnext hvisited⟩

end Traversal
end StepGraph
end PlanFlow
