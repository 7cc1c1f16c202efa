import PlanFlow.Rule.BuiltIn

/-!
# Rule books

A rule book is a list of rules under composition.  It starts with the built-in rules; adding a rule
replaces the one of the same name.  Rules are chosen from the book in their order.
-/

namespace PlanFlow

/-- Rules with distinct names, in the order in which they were added. -/
structure RuleBook where
  rules : List Rule

namespace RuleBook

/-- The book of the built-in rules. -/
def standard : RuleBook := ⟨Rule.builtIn⟩

/-- The book without the rule of a name. -/
def without (b : RuleBook) (name : String) : RuleBook :=
  ⟨b.rules.filter fun r => r.name != name⟩

/-- The book with a rule, which replaces the one of its name. -/
def add (b : RuleBook) (rule : Rule) : RuleBook := ⟨(b.without rule.name).rules ++ [rule]⟩

/-- The rules in the order in which they are tried. -/
def ordered (b : RuleBook) : List Rule := b.rules.mergeSort Rule.before

/-- The first rule that accepts a plan. -/
def select (b : RuleBook) (p : Plan) : Except PlanError Rule :=
  match b.ordered.find? fun r => r.accepts p with
  | some r => .ok r
  | none => .error (.noMatchingRule p.shape)

end RuleBook
end PlanFlow
