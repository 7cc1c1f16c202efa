import PlanFlow.Compiler

/-!
# The compilation cache

Workflows are kept by the fingerprints of their plans: 64-bit hashes of the written plans.  Which
hash that is, is left open.  The cache holds so many workflows at most and drops the one that was
used least recently; a workflow may also expire a fixed time after it was stored.  Failures are not
kept.  Times are milliseconds since an arbitrary origin.
-/

namespace PlanFlow

/-- The limits of a cache. -/
structure CacheLimits where
  maxEntries : Nat
  /-- The milliseconds after which an entry expires. -/
  lifetime : Option Nat
  deriving DecidableEq

instance : Inhabited CacheLimits := ⟨⟨256, some 300000⟩⟩

/-- A workflow in the cache, and when it was stored. -/
structure CacheEntry where
  workflow : Workflow
  storedAt : Nat

/-- A cache: its entries by key, the keys from the least to the most recently used one, and how
often a workflow was found and missed. -/
structure Cache where
  limits : CacheLimits
  entries : List (UInt64 × CacheEntry)
  order : List UInt64
  hits : UInt64
  misses : UInt64

namespace Cache

variable (hash : String → UInt64)

/-- The empty cache. -/
def empty (limits : CacheLimits) : Cache := ⟨limits, [], [], 0, 0⟩

/-- The fingerprint of a plan. -/
def keyOf (p : Plan) : UInt64 := hash p.encode.compact

/-- The entries without that of a key. -/
def dropEntry (key : UInt64) (entries : List (UInt64 × CacheEntry)) : List (UInt64 × CacheEntry) :=
  entries.filter fun entry => entry.1 != key

/-- The cache with a key as the most recently used one. -/
def touch (c : Cache) (key : UInt64) : Cache :=
  { c with order := (c.order.filter (· != key)) ++ [key] }

/-- The cache without a key. -/
def remove (c : Cache) (key : UInt64) : Cache :=
  { c with entries := dropEntry key c.entries, order := c.order.filter (· != key) }

/-- Whether an entry has expired. -/
def isExpired (c : Cache) (e : CacheEntry) (now : Nat) : Bool :=
  c.limits.lifetime.any fun lifetime => decide (lifetime ≤ now - e.storedAt)

/-- Looks a plan up. -/
def get (c : Cache) (p : Plan) (now : Nat) : Option Workflow × Cache :=
  let key := keyOf hash p
  match c.entries.lookup key with
  | none => (none, { c with misses := c.misses + 1 })
  | some e =>
    if c.isExpired e now then
      (none, { c.remove key with misses := c.misses + 1 })
    else (some e.workflow, { c.touch key with hits := c.hits + 1 })

/-- Drops the least recently used keys while there are more entries than the limit. -/
def evict (maxEntries : Nat) (entries : List (UInt64 × CacheEntry)) :
    List UInt64 → List (UInt64 × CacheEntry) × List UInt64
  | [] => (entries, [])
  | oldest :: rest =>
    if maxEntries < entries.length then evict maxEntries (dropEntry oldest entries) rest
    else (entries, oldest :: rest)

/-- Stores a workflow for a plan. -/
def insert (c : Cache) (p : Plan) (w : Workflow) (now : Nat) : Cache :=
  let key := keyOf hash p
  let c := { c with entries := (key, ⟨w, now⟩) :: dropEntry key c.entries }.touch key
  let (entries, order) := evict c.limits.maxEntries c.entries c.order
  { c with entries := entries, order := order }

/-- Looks a plan up, and compiles and stores it if it is missing. -/
def getOrCompile (c : Cache) (compiler : Compiler) (p : Plan) (now : Nat) : Outcome × Cache :=
  match c.get hash p now with
  | (some w, c) => (.success w, c)
  | (none, c) =>
    match compiler.compile p with
    | .success w => (.success w, c.insert hash p w now)
    | .failure errors warnings => (.failure errors warnings, c)

/-- Forgets a plan. -/
def invalidate (c : Cache) (p : Plan) : Cache := c.remove (keyOf hash p)

/-- Forgets all plans. -/
def clear (c : Cache) : Cache := { c with entries := [], order := [] }

/-- The number of workflows in the cache. -/
def size (c : Cache) : Nat := c.entries.length

end Cache

/-- A clock that moves only when it is told to, of 64 bits. -/
structure ManualClock where
  now : Nat

namespace ManualClock

/-- The clock moved on. -/
def advance (c : ManualClock) (time : Nat) : ManualClock := ⟨(c.now + time) % Nat.pow 2 64⟩

end ManualClock
end PlanFlow
