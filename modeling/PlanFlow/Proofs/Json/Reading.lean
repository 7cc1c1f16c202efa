import PlanFlow.Plan.Json
import PlanFlow.Proofs.Json.Canonical

/-!
# Reading what was written

What is written is read as a value whose keys are in order.  A decoder reads a written value as
something if that is what it makes of the value then.  A record reads the entries that were written
for its fields, wherever they stand among others, and has its defaults for the fields that were left
out.  So it is enough to know how each field is read.
-/

namespace PlanFlow

/-- A decoder reads a value, once it is in canonical form, as something. -/
def Decoder.Reads {α : Type} (decode : Decoder α) (v : Value) (a : α) : Prop :=
  decode.ofValue v.canonical = .ok a

namespace Decoder
namespace Reads

variable {α : Type} {decode : Decoder α} {v : Value} {a : α}

/-! ## Single values -/

theorem text (s : String) : Decoder.text.Reads (.string s) s := rfl

theorem bool (b : Bool) : Decoder.bool.Reads (.bool b) b := rfl

theorem f64 (b : Binary64) : Decoder.f64.Reads (.number (.float b)) b := rfl

theorem natural {bits n : Nat} (type : String) (h : n < Nat.pow 2 bits) :
    (Decoder.natural bits type).Reads (.nat n) n := by
  show (if 0 ≤ (n : Int) ∧ (n : Int).toNat < Nat.pow 2 bits then
    Except.ok (n : Int).toNat else _) = Except.ok n
  rw [Int.toNat_natCast]
  exact if_pos ⟨Int.natCast_nonneg n, h⟩

theorem usize {n : Nat} (h : n < UInt64.size) : Decoder.usize.Reads (.nat n) n :=
  natural "usize" h

/-- The name of an alternative is read as it, if no other one has that name. -/
theorem choice {name : α → String} {all : List α} (hnodup : (all.map name).Nodup) (h : a ∈ all) :
    (Decoder.choice (alternatives name all)).Reads (.string (name a)) a := by
  have hmem : (name a, a) ∈ alternatives name all :=
    List.mem_map_of_mem (f := fun a => (name a, a)) h
  have hkeys : (alternatives name all).map Prod.fst = all.map name := by
    rw [alternatives, List.map_map]
    rfl
  show pick (alternatives name all) (name a) = .ok a
  rw [pick, Entries.find?_of_mem (hkeys ▸ hnodup) hmem]

theorem value (h : v.IsCanonical) : Reads Decoder.value v v := by
  show Decoder.value .buffered (.ofValue v.canonical) = .ok v
  rw [value_ofValue, h, h]

theorem object {entries : Entries Value} (h : entries.Canonical) :
    Reads Decoder.object (.object entries) entries := by
  show (Decoder.entries Decoder.value .buffered
    (Node.ofEntries (Entries.ofList (Value.canonicalEntries entries))) >>= fun es =>
      Except.ok (Entries.ofList es)) = .ok entries
  rw [Value.canonicalEntries_eq_mapValues, h.mapValues, Entries.ofList_eq_self h.sorted,
    entries_value, valueEntries_ofEntries, Value.canonicalEntries_eq_mapValues, h.mapValues]
  exact congrArg Except.ok (Entries.ofList_eq_self h.sorted)

/-! ## Lists and values that may be missing -/

theorem list {encode : α → Value} {as : List α} (h : ∀ a ∈ as, decode.Reads (encode a) a) :
    (Decoder.list decode).Reads (.array (as.map encode)) as := by
  have hitems : items decode .buffered (Node.ofItems (Value.canonicalItems (as.map encode))) =
      .ok as := by
    induction as with
    | nil => rfl
    | cons a rest ih =>
        rw [List.forall_mem_cons] at h
        show (decode.ofValue (encode a).canonical >>= fun a => items decode .buffered
          (Node.ofItems (Value.canonicalItems (rest.map encode))) >>= fun as => .ok (a :: as)) = _
        rw [h.1, ih h.2]
        rfl
  show (items decode .buffered (Node.ofItems (Value.canonicalItems (as.map encode))) >>= fun as =>
    Except.ok as) = _
  rw [hitems]
  rfl

theorem strings (items : List String) : (Decoder.list Decoder.text).Reads (.strings items) items :=
  list fun s _ => text s

theorem entries_mapValues {encode : α → Value} {entries : Entries α}
    (h : ∀ entry ∈ entries, decode.Reads (encode entry.2) entry.2) :
    Decoder.entries decode .buffered
      (Node.ofEntries (entries.mapValues fun a => (encode a).canonical)) = .ok entries := by
  induction entries with
  | nil => rfl
  | cons entry rest ih =>
      rw [List.forall_mem_cons] at h
      show (decode.ofValue (encode entry.2).canonical >>= fun a =>
        Decoder.entries decode .buffered (Node.ofEntries
          (Entries.mapValues (fun a => (encode a).canonical) rest)) >>= fun as =>
            .ok ((entry.1, a) :: as)) = _
      rw [h.1, ih h.2]
      rfl

/-- A map in order is read as it was written, if its values are. -/
theorem map {encode : α → Value} {entries : Entries α} (hsorted : entries.Sorted)
    (h : ∀ entry ∈ entries, decode.Reads (encode entry.2) entry.2) :
    (Decoder.map decode).Reads (.object (entries.mapValues encode)) entries := by
  let canonical : Entries Value := entries.mapValues fun a => (encode a).canonical
  have hvalues : Entries.mapValues Value.canonical (entries.mapValues encode) = canonical := by
    simp [canonical, Entries.mapValues, Function.comp_def]
  have hcanonical : canonical.Sorted := List.pairwise_map.mpr hsorted
  show (Decoder.entries decode .buffered (Node.ofEntries
    (Entries.ofList (Value.canonicalEntries (entries.mapValues encode)))) >>= fun es =>
      Except.ok (Entries.ofList es)) = .ok entries
  rw [Value.canonicalEntries_eq_mapValues, hvalues, Entries.ofList_eq_self hcanonical,
    entries_mapValues h]
  exact congrArg Except.ok (Entries.ofList_eq_self hsorted)

/-- What is not written as null is not read as missing. -/
theorem some (h : decode.Reads v a) (hv : v ≠ .null) : (nullable decode).Reads v (some a) := by
  have hread : decode .buffered (.ofValue v.canonical) = .ok a := h
  show nullable decode .buffered (.ofValue v.canonical) = .ok (Option.some a)
  cases hcanonical : v.canonical with
  | null => exact absurd (Value.canonical_eq_null_iff.mp hcanonical) hv
  | _ =>
      rw [hcanonical] at hread
      exact congrArg (Except.map Option.some) hread

theorem ofOption {encode : α → Value} {o : Option α}
    (h : ∀ a, o = Option.some a → decode.Reads (encode a) a ∧ encode a ≠ .null) :
    (nullable decode).Reads (.ofOption encode o) o := by
  cases o with
  | none => rfl
  | some a =>
      obtain ⟨hread, hnull⟩ := h a rfl
      exact some hread hnull

theorem text? (o : Option String) : (nullable Decoder.text).Reads (.text? o) o :=
  ofOption fun s _ => ⟨text s, nofun⟩

theorem u32? {o : Option Nat} (h : ∀ n, o = Option.some n → n < UInt32.size) :
    (nullable Decoder.u32).Reads (.nat? o) o :=
  ofOption fun n hn => ⟨natural _ (h n hn), nofun⟩

theorem any? {o : Option Value} (h : Value.Stated o) :
    Reads (nullable Decoder.value) (.any? o) o := by
  cases o with
  | none => rfl
  | some v =>
      obtain ⟨hcanonical, hnull⟩ := h v rfl
      exact some (value hcanonical) hnull

end Reads
end Decoder

/-! ## Records -/

namespace Node

theorem nodeOf_ofEntries (name : String) (all : Entries Value) :
    Record.nodeOf (ofEntries all) name = (Entries.find? name all).map ofValue := by
  induction all with
  | nil => rfl
  | cons entry rest ih =>
      show (if entry.1 = name then some (ofValue entry.2) else Record.nodeOf (ofEntries rest) name)
        = _
      by_cases hkey : entry.1 = name <;> simp [Entries.find?, hkey, ih]

end Node

namespace Record

variable {α β : Type}

/-- What the decoder of a field reads is no fault for it. -/
theorem fault_field {name : String} {decode : Decoder α} {mode : ReadMode} {node : Node} {a : α}
    (h : decode mode node = .ok a) : (field name decode).fault mode node = none := by
  simp only [field, h]

/-- Entries have no fault if no key is repeated and each field that has an entry can read it. -/
theorem firstFault_ofEntries {fields : List Field} {mode : ReadMode}
    {unknown : Node → Option Fault} {seen : List String} {all : Entries Value}
    (hnodup : (seen ++ all.map Prod.fst).Nodup)
    (hfields : ∀ entry ∈ all, ∀ f ∈ fields, f.name = entry.1 →
      f.fault mode (.ofValue entry.2) = none)
    (hunknown : ∀ v : Value, unknown (.ofValue v) = none) :
    firstFault fields mode unknown seen (Node.ofEntries all) = none := by
  induction all generalizing seen with
  | nil => rfl
  | cons entry rest ih =>
      obtain ⟨key, v⟩ := entry
      rw [List.forall_mem_cons] at hfields
      have hkey : key ∉ seen := fun hseen =>
        (List.nodup_append.mp hnodup).2.2 key hseen key List.mem_cons_self rfl
      rw [Node.ofEntries, firstFault]
      split
      · rw [hunknown]
        refine ih (hnodup.sublist ?_) hfields.2
        exact (List.sublist_cons_self _ _).append_left seen
      · rename_i f hf
        have hname : f.name = key := by simpa using List.find?_some hf
        rw [if_neg (by simpa using hkey), hfields.1 f (List.mem_of_find?_eq_some hf) hname]
        refine ih ?_ hfields.2
        exact (List.perm_middle.nodup_iff).mp hnodup

/-- Entries were written for the fields of a record, and the fields that are absent have defaults.
Wherever these entries are found, and the absent ones are not, something is built from them. -/
structure Restores (r : Record α) (written : List (String × Value)) (absent : List String) (a : α) :
    Prop where
  names : (written.map Prod.fst ++ absent).Perm (r.fields.map Field.name)
  field : ∀ f ∈ r.fields, f.name ∈ absent ∨
    ∃ v, (f.name, v) ∈ written ∧ f.fault .buffered (.ofValue v.canonical) = none
  build : ∀ lookup : Lookup, lookup.mode = .buffered →
    (∀ entry ∈ written, lookup.node? entry.1 = some (.ofValue entry.2.canonical)) →
    (∀ name ∈ absent, lookup.node? name = none) → r.build lookup = .ok a

namespace Restores

variable {r : Record α} {written more : List (String × Value)} {absent missing : List String}
variable {decode : Decoder α} {v : Value} {a : α}

theorem withDefault (name : String) (default : α) (h : decode.Reads v a) :
    (Record.withDefault name default decode).Restores [(name, v)] [] a where
  names := .refl _
  field := List.forall_mem_singleton.mpr (.inr ⟨v, List.mem_singleton_self _, fault_field h⟩)
  build lookup hmode hwritten _ := by
    simp only [Record.withDefault, hwritten _ (List.mem_singleton_self _), hmode]
    exact h

theorem required (name : String) (h : decode.Reads v a) :
    (Record.required name decode).Restores [(name, v)] [] a where
  names := .refl _
  field := List.forall_mem_singleton.mpr (.inr ⟨v, List.mem_singleton_self _, fault_field h⟩)
  build lookup hmode hwritten _ := by
    simp only [Record.required, hwritten _ (List.mem_singleton_self _), hmode]
    exact h

theorem optional (name : String) {o : Option α} (h : (Decoder.nullable decode).Reads v o) :
    (Record.optional name decode).Restores [(name, v)] [] o := withDefault name none h

theorem listOf (name : String) {as : List α} (h : (Decoder.list decode).Reads v as) :
    (Record.listOf name decode).Restores [(name, v)] [] as := withDefault name [] h

/-- A field that is left out has its default. -/
theorem omitted (name : String) (default : α) (decode : Decoder α) :
    (Record.withDefault name default decode).Restores [] [name] default where
  names := .refl _
  field := List.forall_mem_singleton.mpr (.inl (List.mem_singleton_self _))
  build lookup _ _ habsent := by
    simp only [Record.withDefault, habsent name (List.mem_singleton_self _)]

theorem map (h : r.Restores written absent a) (g : α → β) :
    (g <$> r).Restores written absent (g a) where
  names := h.names
  field := h.field
  build lookup hmode hwritten habsent := by
    show (r.build lookup).map g = .ok (g a)
    rw [h.build lookup hmode hwritten habsent]
    rfl

theorem seq {f : Record (α → β)} {g : α → β} (hf : f.Restores written absent g)
    (h : r.Restores more missing a) :
    (f <*> r).Restores (written ++ more) (absent ++ missing) (g a) where
  names := by
    show ((written ++ more).map Prod.fst ++ (absent ++ missing)).Perm
      ((f.fields ++ r.fields).map Field.name)
    rw [List.map_append, List.map_append]
    refine .trans ?_ (hf.names.append h.names)
    rw [List.perm_iff_count]
    intro name
    simp only [List.count_append]
    omega
  field := by
    refine List.forall_mem_append.mpr ⟨fun field hfield => ?_, fun field hfield => ?_⟩
    · refine (hf.field field hfield).imp (List.mem_append_left _) ?_
      rintro ⟨v, hv, hfault⟩
      exact ⟨v, List.mem_append_left _ hv, hfault⟩
    · refine (h.field field hfield).imp (List.mem_append_right _) ?_
      rintro ⟨v, hv, hfault⟩
      exact ⟨v, List.mem_append_right _ hv, hfault⟩
  build lookup hmode hwritten habsent := by
    rw [List.forall_mem_append] at hwritten habsent
    show (f.build lookup >>= fun g => r.build lookup >>= fun a => Except.ok (g a)) = .ok (g a)
    rw [hf.build lookup hmode hwritten.1 habsent.1, h.build lookup hmode hwritten.2 habsent.2]
    rfl

theorem nodup (h : r.Restores written absent a) (hnodup : (r.fields.map Field.name).Nodup) :
    (written.map Prod.fst ++ absent).Nodup := h.names.nodup_iff.mpr hnodup

section Entries

variable {all : Entries Value} (hnodup : (all.map Prod.fst).Nodup)
variable (hwritten : ∀ entry ∈ written, Entries.find? entry.1 all = some entry.2.canonical)
variable (habsent : ∀ name ∈ absent, Entries.find? name all = none)
include hnodup hwritten habsent

/-- Among other entries, those that were written have no fault. -/
theorem firstFault (h : r.Restores written absent a) (unknown : Node → Option Fault)
    (hunknown : ∀ v : Value, unknown (.ofValue v) = none) :
    Record.firstFault r.fields .buffered unknown [] (Node.ofEntries all) = none := by
  refine firstFault_ofEntries hnodup (fun entry hentry f hf hname => ?_) hunknown
  have hfind : Entries.find? f.name all = some entry.2 := hname ▸ Entries.find?_of_mem hnodup hentry
  rcases h.field f hf with hmissing | ⟨v, hv, hfault⟩
  · rw [habsent _ hmissing] at hfind
    cases hfind
  · have heq : entry.2 = v.canonical := Option.some.inj (hfind.symm.trans (hwritten _ hv))
    rw [heq]
    exact hfault

omit hnodup in
theorem build_lookupIn (h : r.Restores written absent a) :
    r.build (lookupIn .buffered (Node.ofEntries all)) = .ok a := by
  refine h.build _ rfl (fun entry hentry => ?_) fun name hname => ?_
  · show nodeOf (Node.ofEntries all) entry.1 = _
    rw [Node.nodeOf_ofEntries, hwritten entry hentry, Option.map_some]
  · show nodeOf (Node.ofEntries all) name = none
    rw [Node.nodeOf_ofEntries, habsent name hname, Option.map_none]

/-- A record is read from entries among which those that were written for it are found. -/
theorem ofEntries (h : r.Restores written absent a) :
    r.ofEntries .buffered (Node.ofEntries all) .closed = .ok a := by
  rw [Record.ofEntries, h.firstFault hnodup hwritten habsent _ Node.ignored_ofValue]
  exact h.build_lookupIn hwritten habsent

end Entries

/-- A record is read from the object of what was written for it. -/
theorem reads (h : r.Restores written absent a) (hnodup : (r.fields.map Field.name).Nodup)
    (type : String) : (r.decode type).Reads (.object written) a := by
  have hnames := h.nodup hnodup
  have hkeys : (written.map Prod.fst).Nodup := hnames.of_append_left
  refine h.ofEntries (Entries.sorted_ofList _).nodup
    (fun _ hentry => Value.find?_canonical_of_mem hkeys hentry) fun name hname => ?_
  refine Value.find?_canonical_of_not_mem hkeys fun hkey => ?_
  exact (List.nodup_append.mp hnames).2.2 name hkey name hname rfl

end Restores
end Record
end PlanFlow
