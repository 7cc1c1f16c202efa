/-!
# Lists of ids

What is repeated in a list of ids.  The distinct ids of a list, each at its first occurrence, are
`List.eraseDups`.
-/

namespace PlanFlow
namespace Ids

/-- The ids at whose position the id occurs for the second time, where `seen` came before. -/
def repeatedAfter (seen : List String) : List String → List String
  | [] => []
  | id :: rest =>
    if seen.count id = 1 then id :: repeatedAfter (id :: seen) rest
    else repeatedAfter (id :: seen) rest

/-- The ids that occur more than once, each once and in the order of their second occurrences. -/
def repeated (ids : List String) : List String := repeatedAfter [] ids

end Ids
end PlanFlow
