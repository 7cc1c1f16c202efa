import PlanFlow.Json.Entries
import PlanFlow.Number.Literal

/-!
# JSON values

A value is a tree.  An object keeps the order of its entries, so that a record can be written in the
order of its fields; a value read from a document has its keys sorted and distinct, which is the
canonical form.  Two values are `same` if they are equal up to the numeric equality of binary64
numbers, once both are canonical.  Whether they are equal can be decided in the same way.
-/

namespace PlanFlow

/-- A JSON value. -/
inductive Value where
  | null
  | bool (b : Bool)
  | number (n : Number)
  | string (s : String)
  | array (items : List Value)
  | object (entries : List (String × Value))
  deriving Inhabited

namespace Value

/-- The value of an integer. -/
def int (n : Int) : Value := .number (.int n)

/-- The value of a natural number. -/
def nat (n : Nat) : Value := .number (.int n)

/-- The array of texts. -/
def strings (items : List String) : Value := .array (items.map .string)

/-- The value of something that may be missing, which is then null. -/
def ofOption {α : Type} (encode : α → Value) : Option α → Value
  | none => .null
  | some a => encode a

mutual

/-- The value with the keys of every object sorted, the last entry of a key winning. -/
def canonical : Value → Value
  | .null => .null
  | .bool b => .bool b
  | .number n => .number n
  | .string s => .string s
  | .array items => .array (canonicalItems items)
  | .object entries => .object (Entries.ofList (canonicalEntries entries))

/-- The items of an array in canonical form. -/
def canonicalItems : List Value → List Value
  | [] => []
  | v :: rest => canonical v :: canonicalItems rest

/-- The entries of an object with canonical values, in their order. -/
def canonicalEntries : List (String × Value) → List (String × Value)
  | [] => []
  | (k, v) :: rest => (k, canonical v) :: canonicalEntries rest

end

mutual

/-- Whether two values are alike: of one shape, with the same texts and with numbers that count as
the same. -/
def alike (sameNumber : Number → Number → Bool) : Value → Value → Bool
  | .null, .null => true
  | .bool a, .bool b => a == b
  | .number a, .number b => sameNumber a b
  | .string a, .string b => a == b
  | .array a, .array b => alikeItems sameNumber a b
  | .object a, .object b => alikeEntries sameNumber a b
  | _, _ => false

/-- Whether two lists of values are alike, item by item. -/
def alikeItems (sameNumber : Number → Number → Bool) : List Value → List Value → Bool
  | [], [] => true
  | a :: as, b :: bs => alike sameNumber a b && alikeItems sameNumber as bs
  | _, _ => false

/-- Whether two lists of entries are alike, entry by entry. -/
def alikeEntries (sameNumber : Number → Number → Bool) :
    List (String × Value) → List (String × Value) → Bool
  | [], [] => true
  | (k, a) :: as, (l, b) :: bs =>
    k == l && alike sameNumber a b && alikeEntries sameNumber as bs
  | _, _ => false

end

/-- Whether two canonical values are the same. -/
def same (v w : Value) : Bool := alike Number.same v w

mutual

/-- Where only equal numbers count as the same, only equal values are alike. -/
theorem alike_iff {sameNumber : Number → Number → Bool}
    (h : ∀ m n, sameNumber m n = true ↔ m = n) :
    ∀ v w : Value, alike sameNumber v w = true ↔ v = w
  | .null, w => by cases w <;> simp [alike]
  | .bool b, w => by cases w <;> simp [alike]
  | .number n, w => by cases w <;> simp [alike, h]
  | .string s, w => by cases w <;> simp [alike]
  | .array items, w => by cases w <;> simp [alike, alikeItems_iff h items]
  | .object entries, w => by cases w <;> simp [alike, alikeEntries_iff h entries]

theorem alikeItems_iff {sameNumber : Number → Number → Bool}
    (h : ∀ m n, sameNumber m n = true ↔ m = n) :
    ∀ items others : List Value, alikeItems sameNumber items others = true ↔ items = others
  | [], others => by cases others <;> simp [alikeItems]
  | v :: rest, others => by
      cases others <;> simp [alikeItems, alike_iff h v, alikeItems_iff h rest]

theorem alikeEntries_iff {sameNumber : Number → Number → Bool}
    (h : ∀ m n, sameNumber m n = true ↔ m = n) :
    ∀ entries others : List (String × Value),
      alikeEntries sameNumber entries others = true ↔ entries = others
  | [], others => by cases others <;> simp [alikeEntries]
  | (k, v) :: rest, others => by
      cases others <;> simp [alikeEntries, alike_iff h v, alikeEntries_iff h rest, Prod.ext_iff]

end

instance : DecidableEq Value := fun v w =>
  decidable_of_iff (alike (fun m n => decide (m = n)) v w = true)
    (alike_iff (fun _ _ => decide_eq_true_iff) v w)

/-- The entry of an object, if the value is an object that has it. -/
def get? (key : String) : Value → Option Value
  | .object entries => Entries.find? key entries
  | _ => none

mutual

/-- The texts in a value, in the order in which it is written. -/
def texts : Value → List String
  | .string s => [s]
  | .array items => itemTexts items
  | .object entries => entryTexts entries
  | .null | .bool _ | .number _ => []

/-- The texts in the items of an array. -/
def itemTexts : List Value → List String
  | [] => []
  | v :: rest => texts v ++ itemTexts rest

/-- The texts in the values of an object; its keys do not count. -/
def entryTexts : List (String × Value) → List String
  | [] => []
  | (_, v) :: rest => texts v ++ entryTexts rest

end

end Value
end PlanFlow
