import PlanFlow.Proofs.Json.Reading

/-!
# Reading flattened parts

A flattened part stands among the fields of a record: an entry with its name, and its own fields.
If no name is used twice, the record finds its fields, the name leads to the reader of the part, and
the part finds its fields among the entries that are left.
-/

namespace PlanFlow
namespace Decoder

variable {α β : Type}

/-- Of the entries of a built object, those of other keys are kept. -/
theorem othersThan_ofEntries (names : List String) (all : Entries Value) :
    othersThan names (Node.ofEntries all) =
      Node.ofEntries (all.filter fun entry => !names.contains entry.1) := by
  induction all with
  | nil => rfl
  | cons entry rest ih =>
      obtain ⟨key, v⟩ := entry
      rw [othersThan] at ih ⊢
      simp only [Node.ofEntries, List.filter_cons, ih]
      cases names.contains key <;> rfl

section TakeTag

variable {tag : String} {readTag : Node → Except Fault β}

theorem takeTag_of_not_mem {found : Option β} {all : Entries Value}
    (h : tag ∉ all.map Prod.fst) :
    takeTag tag readTag (fun _ => .ok ()) found (Node.ofEntries all) =
      .ok (found, Node.ofEntries all) := by
  induction all with
  | nil => rfl
  | cons entry rest ih =>
      obtain ⟨key, v⟩ := entry
      rw [List.map_cons, List.mem_cons, not_or] at h
      show (if key = tag then _ else takeTag tag readTag (fun _ => .ok ()) found
        (Node.ofEntries rest) >>= fun result =>
          Except.ok (result.1, (Except.ok key, Node.ofValue v) :: result.2)) = _
      rw [if_neg (Ne.symm h.1), ih h.2]
      rfl

/-- The entry of a tag is taken out, and the others stay. -/
theorem takeTag_ofEntries {all : Entries Value} (hnodup : (all.map Prod.fst).Nodup) {v : Value}
    (hfind : Entries.find? tag all = some v) {b : β} (hread : readTag (.ofValue v) = .ok b) :
    takeTag tag readTag (fun _ => .ok ()) none (Node.ofEntries all) =
      .ok (some b, Node.ofEntries (all.filter fun entry => entry.1 != tag)) := by
  induction all with
  | nil => cases hfind
  | cons entry rest ih =>
      obtain ⟨key, w⟩ := entry
      rw [List.map_cons, List.nodup_cons] at hnodup
      by_cases hkey : key = tag
      · subst hkey
        obtain rfl : w = v := by simpa [Entries.find?] using hfind
        have hrest : (rest.filter fun entry => entry.1 != key) = rest := by
          refine List.filter_eq_self.mpr fun entry hentry => ?_
          have hmem : entry.1 ∈ rest.map Prod.fst := List.mem_map_of_mem hentry
          exact bne_iff_ne.mpr fun heq => hnodup.1 (heq ▸ hmem)
        show (if key = key then readTag (.ofValue w) >>= fun b =>
          takeTag key readTag (fun _ => .ok ()) (some b) (Node.ofEntries rest) else _) = _
        rw [if_pos rfl, hread, List.filter_cons_of_neg (by simp), hrest]
        exact takeTag_of_not_mem hnodup.1
      · have hfind' : Entries.find? tag rest = some v := by simpa [Entries.find?, hkey] using hfind
        show (if key = tag then _ else takeTag tag readTag (fun _ => .ok ()) none
          (Node.ofEntries rest) >>= fun result =>
            Except.ok (result.1, (Except.ok key, Node.ofValue w) :: result.2)) = _
        rw [if_neg hkey, ih hnodup.2 hfind', List.filter_cons_of_pos (by simpa using hkey)]
        rfl

end TakeTag

/-- A buffered name leads to its variant. -/
theorem tagNameOrIndex_of_find? {variants : List (String × α)} {name : String} {a : α}
    (h : Entries.find? name variants = some a) :
    tagNameOrIndex variants (.ofValue (.string name)) = .ok a := by
  show pick variants name = .ok a
  rw [pick, h]

end Decoder

namespace Record.Restores

variable {α β : Type} {r : Record (β → α)} {part : Record β} {g : β → α} {b : β}
variable {written more : List (String × Value)} {absent missing : List String}
variable {tag name partType : String} {variants : List (String × Decoder β)}

/-- A part is read from the entries that the record leaves, if no other entry has its names. -/
theorem taggedEntries (hpart : part.Restores more missing b)
    (hvariant : Entries.find? name variants = some (part.decode partType)) (names : List String)
    (htag : tag ∉ names) (hnames : ∀ key ∈ part.fields.map Field.name, key ∉ names ∧ key ≠ tag)
    {all : Entries Value} (hnodup : (all.map Prod.fst).Nodup)
    (hname : Entries.find? tag all = some (.string name))
    (hwritten : ∀ entry ∈ more, Entries.find? entry.1 all = some entry.2.canonical)
    (habsent : ∀ key ∈ missing, Entries.find? key all = none) :
    Decoder.taggedEntries tag variants
      (Decoder.othersThan names (Node.ofEntries all)) = .ok b := by
  let left : Entries Value := all.filter fun entry => !names.contains entry.1
  let rest : Entries Value := left.filter fun entry => entry.1 != tag
  have hleft : (left.map Prod.fst).Nodup := hnodup.sublist (List.filter_sublist.map _)
  have hrest : (rest.map Prod.fst).Nodup := hleft.sublist (List.filter_sublist.map _)
  have hname' : Entries.find? tag left = some (.string name) := by
    rw [Entries.find?_filter (fun key => !names.contains key) (by simpa using htag), hname]
  have hfind : ∀ key ∈ part.fields.map Field.name,
      Entries.find? key rest = Entries.find? key all := by
    intro key hkey
    obtain ⟨hother, hne⟩ := hnames key hkey
    rw [Entries.find?_filter (fun key => key != tag) (by simpa using hne),
      Entries.find?_filter (fun key => !names.contains key) (by simpa using hother)]
  have hfields : ∀ key ∈ more.map Prod.fst ++ missing, key ∈ part.fields.map Field.name :=
    fun key hkey => hpart.names.subset hkey
  rw [List.forall_mem_append] at hfields
  rw [Decoder.taggedEntries, Decoder.othersThan_ofEntries,
    Decoder.takeTag_ofEntries hleft hname' (Decoder.tagNameOrIndex_of_find? hvariant)]
  refine hpart.ofEntries hrest (fun entry hentry => ?_) fun key hkey => ?_
  · rw [hfind _ (hfields.1 _ (List.mem_map_of_mem hentry)), hwritten entry hentry]
  · rw [hfind _ (hfields.2 _ hkey), habsent key hkey]

/-- A record with a flattened part is read from the object of what was written for both. -/
theorem flattened (h : r.Restores written absent g) (hpart : part.Restores more missing b)
    (hvariant : Entries.find? name variants = some (part.decode partType))
    (hnodup : (r.fields.map Field.name ++ tag :: part.fields.map Field.name).Nodup)
    (type : String) :
    (Decoder.flattened type r (Decoder.taggedEntries tag variants)).Reads
      (.object (written ++ (tag, .string name) :: more)) (g b) := by
  let entries := written ++ (tag, .string name) :: more
  let all := Entries.ofList (Value.canonicalEntries entries)
  obtain ⟨-, hrest, hapart⟩ := List.nodup_append.mp hnodup
  have hall : (all.map Prod.fst).Nodup := (Entries.sorted_ofList _).nodup
  -- What was written for both, and what was left out, are all names, and each stands there once.
  have hperm : (entries.map Prod.fst ++ (absent ++ missing)).Perm
      (r.fields.map Field.name ++ tag :: part.fields.map Field.name) := by
    refine .trans ?_ (h.names.append (hpart.names.cons tag))
    rw [List.perm_iff_count]
    intro key
    simp only [entries, List.map_append, List.map_cons, List.count_append, List.count_cons]
    omega
  obtain ⟨hkeys, -, hmissing⟩ := List.nodup_append.mp (hperm.nodup_iff.mpr hnodup)
  have hwritten : ∀ entry ∈ entries, Entries.find? entry.1 all = some entry.2.canonical :=
    fun _ hentry => Value.find?_canonical_of_mem hkeys hentry
  have habsent : ∀ key ∈ absent ++ missing, Entries.find? key all = none := fun key hkey =>
    Value.find?_canonical_of_not_mem hkeys fun hmem => hmissing key hmem key hkey rfl
  rw [List.forall_mem_append] at habsent
  obtain ⟨hwritten, hpartWritten⟩ := List.forall_mem_append.mp hwritten
  obtain ⟨hname, hpartWritten⟩ := List.forall_mem_cons.mp hpartWritten
  have hbuild := h.build_lookupIn hwritten habsent.1
  have htagged := hpart.taggedEntries hvariant (r.fields.map Field.name)
    (fun htag => hapart tag htag tag List.mem_cons_self rfl)
    (fun key hkey => ⟨fun hother => hapart key hother key (List.mem_cons_of_mem _ hkey) rfl,
      fun heq => (List.nodup_cons.mp hrest).1 (heq ▸ hkey)⟩)
    hall hname hpartWritten habsent.2
  show Decoder.flattened type r _ .buffered (.object (Node.ofEntries all) .closed) = .ok (g b)
  unfold Decoder.flattened
  show (_ >>= fun _ => _ >>= fun _ =>
    r.build (lookupIn .buffered (Node.ofEntries all)) >>= fun build =>
    Decoder.taggedEntries tag variants
      (Decoder.othersThan (r.fields.map Field.name) (Node.ofEntries all)) >>= fun b =>
    Except.ok (build b)) = .ok (g b)
  -- An entry that is no field of the record is buffered, which no entry that was written hinders.
  rw [h.firstFault hall hwritten habsent.1 _ fun v => by simp only [Decoder.buffer_ofValue],
    hbuild, htagged]
  rfl

end Record.Restores
end PlanFlow
