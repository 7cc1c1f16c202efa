import PlanFlow.Json.Record
import PlanFlow.Proofs.Json.Canonical

/-!
# What decoders give

Whatever a document looks like, what a decoder makes of it has some properties: an object of any
values is in order, a number has so many bits, a missing value is not null.  A record gives what its
fields give, be it written as an object or as a list.
-/

namespace PlanFlow

/-- All that a decoder makes of documents has a property. -/
def Decoder.Gives {α : Type} (decode : Decoder α) (P : α → Prop) : Prop :=
  ∀ mode node a, decode mode node = .ok a → P a

/-- All that a record builds from its fields has a property. -/
def Record.Gives {α : Type} (r : Record α) (P : α → Prop) : Prop :=
  ∀ lookup a, r.build lookup = .ok a → P a

variable {α β : Type} {P : α → Prop} {Q : β → Prop}

/-! ## Values and lists -/

namespace Decoder

/-- What is read of a text is read of its document. -/
theorem decode_of_ofText {decode : Decoder α} {text : String} {a : α}
    (h : decode.ofText text = .ok a) :
    decode (.streamed ReadMode.depthLimit) (Document.ofText text).root = .ok a := by
  obtain ⟨result, hresult, h⟩ := bind_eq_ok.mp h
  split at h
  · cases h
  · exact Except.ok.inj h ▸ hresult

/-- Only null is read as null. -/
theorem node_eq_null_of_value {mode : ReadMode} {node : Node}
    (h : Decoder.value mode node = .ok .null) : node = .null := by
  cases node with
  | null => rfl
  | bool b => cases h
  | number n =>
      obtain ⟨_, -, hnumber⟩ := map_eq_ok.mp h
      cases hnumber
  | string s =>
      obtain ⟨_, -, hstring⟩ := map_eq_ok.mp h
      cases hstring
  | array nodes ending | object nodes ending =>
      obtain ⟨_, -, h⟩ := bind_eq_ok.mp h
      obtain ⟨_, -, h⟩ := bind_eq_ok.mp h
      obtain ⟨_, -, h⟩ := bind_eq_ok.mp h
      cases h
  | broken b => cases h

namespace Gives

variable {decode : Decoder α}

theorem object : Decoder.object.Gives Entries.Canonical :=
  fun _ _ _ h => canonical_of_object h

/-- A value that may be missing is not null if it is there. -/
theorem stated : (nullable Decoder.value).Gives Value.Stated := by
  intro mode node o h v hv
  subst hv
  unfold Decoder.nullable at h
  split at h
  · cases h
  · rename_i hnode
    obtain ⟨_, hread, heq⟩ := map_eq_ok.mp h
    obtain rfl := Option.some.inj heq
    refine ⟨isCanonical_of_value hread, fun hnull => hnode ?_⟩
    exact node_eq_null_of_value (hnull ▸ hread)

theorem natural {bits : Nat} {type : String} :
    (Decoder.natural bits type).Gives fun n => n < Nat.pow 2 bits := by
  intro mode node n h
  unfold Decoder.natural at h
  split at h
  · split at h
    · rename_i hbound
      exact Except.ok.inj h ▸ hbound.2
    · cases h
  · cases h

theorem nullable (h : decode.Gives P) :
    (Decoder.nullable decode).Gives fun o => ∀ a, o = some a → P a := by
  intro mode node o hread a ho
  subst ho
  unfold Decoder.nullable at hread
  split at hread
  · cases hread
  · obtain ⟨_, hread, heq⟩ := map_eq_ok.mp hread
    exact Option.some.inj heq ▸ h _ _ _ hread

theorem list (h : decode.Gives P) : (Decoder.list decode).Gives fun as => ∀ a ∈ as, P a := by
  have hitems : ∀ mode nodes as, items decode mode nodes = .ok as → ∀ a ∈ as, P a := by
    intro mode nodes
    induction nodes with
    | nil =>
        intro as hread
        obtain rfl := Except.ok.inj hread
        exact nofun
    | cons node rest ih =>
        intro as hread
        obtain ⟨a, ha, hread⟩ := bind_eq_ok.mp hread
        obtain ⟨others, hothers, hread⟩ := bind_eq_ok.mp hread
        obtain rfl := Except.ok.inj hread
        exact List.forall_mem_cons.mpr ⟨h _ _ _ ha, ih others hothers⟩
  intro mode node as hread
  cases node with
  | array nodes ending =>
      obtain ⟨mode', -, hread⟩ := bind_eq_ok.mp hread
      obtain ⟨as', has', hread⟩ := bind_eq_ok.mp hread
      obtain ⟨-, -, hread⟩ := bind_eq_ok.mp hread
      exact Except.ok.inj hread ▸ hitems _ _ _ has'
  | _ => cases hread

end Gives
end Decoder

/-! ## Records -/

namespace Record.Gives

variable {r : Record α} {f : Record (α → β)} {decode : Decoder α} {name : String}

theorem required (h : decode.Gives P) : (Record.required name decode).Gives P := by
  intro lookup a hbuild
  unfold Record.required at hbuild
  dsimp only at hbuild
  split at hbuild
  · exact h _ _ _ hbuild
  · cases hbuild

theorem withDefault {default : α} (hdefault : P default) (h : decode.Gives P) :
    (Record.withDefault name default decode).Gives P := by
  intro lookup a hbuild
  unfold Record.withDefault at hbuild
  dsimp only at hbuild
  split at hbuild
  · exact h _ _ _ hbuild
  · exact Except.ok.inj hbuild ▸ hdefault

theorem optional {Q : Option α → Prop} (hnone : Q none) (h : (Decoder.nullable decode).Gives Q) :
    (Record.optional name decode).Gives Q := withDefault hnone h

theorem listOf (h : decode.Gives P) : (Record.listOf name decode).Gives fun as => ∀ a ∈ as, P a :=
  withDefault nofun h.list

theorem map {g : α → β} (h : r.Gives P) (hg : ∀ a, P a → Q (g a)) : (g <$> r).Gives Q := by
  intro lookup b hbuild
  obtain ⟨a, ha, rfl⟩ := Decoder.map_eq_ok.mp hbuild
  exact hg a (h lookup a ha)

/-- What a record gives with one more field is known from what it gives for any value of the
field. -/
theorem seq (hf : f.Gives fun g => ∀ a, P a → Q (g a)) (h : r.Gives P) : (f <*> r).Gives Q := by
  intro lookup b hbuild
  obtain ⟨g, hg, hbuild⟩ := Decoder.bind_eq_ok.mp hbuild
  obtain ⟨a, ha, hbuild⟩ := Decoder.bind_eq_ok.mp hbuild
  exact Except.ok.inj hbuild ▸ hf lookup g hg a (h lookup a ha)

/-- Nothing has to be known of a field. -/
theorem skip (hf : f.Gives fun g => ∀ a, Q (g a)) : (f <*> r).Gives Q :=
  seq (P := fun _ => True) (fun lookup g hg a _ => hf lookup g hg a) fun _ _ _ => trivial

/-- Nothing has to be known of the first field. -/
theorem first {g : α → β} (hg : ∀ a, Q (g a)) : (g <$> r).Gives Q :=
  map (P := fun _ => True) (fun _ _ _ => trivial) fun a _ => hg a

/-- What is read from a list is built from its items, however the list ends. -/
theorem ofItems (h : r.Gives P) {type : String} {mode : ReadMode} {nodes : List Node}
    {ending : ListEnd} {a : α} (hread : r.ofItems type mode nodes ending = .ok a) : P a := by
  unfold Record.ofItems at hread
  dsimp only at hread
  obtain ⟨-, -, hread⟩ := Decoder.bind_eq_ok.mp hread
  split at hread
  · obtain ⟨-, -, hread⟩ := Decoder.bind_eq_ok.mp hread
    obtain ⟨result, hbuild, hread⟩ := Decoder.bind_eq_ok.mp hread
    exact Except.ok.inj hread ▸ h _ _ hbuild
  · obtain ⟨result, hbuild, hread⟩ := Decoder.bind_eq_ok.mp hread
    -- What follows the fields may be refused, but does not change the result.
    have hresult : result = a := by
      split at hread
      · obtain ⟨-, -, hread⟩ := Decoder.bind_eq_ok.mp hread
        exact Except.ok.inj hread
      · split at hread
        · cases hread
        · exact Except.ok.inj hread
    exact hresult ▸ h _ _ hbuild

end Record.Gives

/-- A record gives the same from an object as from a list. -/
theorem Decoder.Gives.record {r : Record α} (h : r.Gives P) (type : String) :
    (r.decode type).Gives P := by
  intro mode node a hread
  cases node with
  | object entries ending =>
      obtain ⟨mode', -, hread⟩ := Decoder.bind_eq_ok.mp hread
      obtain ⟨-, -, hread⟩ := Decoder.bind_eq_ok.mp hread
      obtain ⟨-, -, hread⟩ := Decoder.bind_eq_ok.mp hread
      exact h _ _ hread
  | array nodes ending =>
      obtain ⟨mode', -, hread⟩ := Decoder.bind_eq_ok.mp hread
      exact h.ofItems hread
  | _ => cases hread

end PlanFlow
