import KotlinNullability.Association
import KotlinNullability.Binary64

/-!
# The cache

A cache keeps one value for a key, computed on first use. Callers that find no value register on the
lock of the key, which exists as long as somebody is registered, and compute one after the other;
whoever gets the lock looks again before computing. The first value published for a key stays.

This module holds the state and the atomic steps, each of which the cache performs under its global
lock, and `getOrCompute`, the sequence of those steps for a caller that is alone.
-/

namespace KotlinNullability

/-- The lock of a key: its identity, and how many callers hold it or wait for it. -/
structure KeyLock where
  token : Nat
  users : Nat
  deriving DecidableEq, Repr

/-- The state of a cache with keys in `κ` and values in `α`. -/
structure Cache (κ α : Type) where
  /-- The published values. -/
  entries : List (κ × α) := []
  /-- Lookups that found a value. -/
  hits : Nat := 0
  /-- Lookups that found none. -/
  misses : Nat := 0
  /-- Computations that returned. -/
  computations : Nat := 0
  /-- The locks of the keys that callers are registered on. -/
  locks : List (κ × KeyLock) := []
  /-- The identity of the next lock. -/
  nextToken : Nat := 0
  deriving DecidableEq, Repr

/-- What a cache counts. -/
structure CacheStats where
  size : Nat
  hits : Nat
  misses : Nat
  computations : Nat
  deriving DecidableEq, Repr

/-- The share of lookups that found a value. -/
def CacheStats.hitRate (s : CacheStats) : Text := Binary64.percentage s.hits (s.hits + s.misses)

namespace Cache

variable {κ α ε : Type} [DecidableEq κ]

/-- The published value of a key, without counting. -/
def find? (c : Cache κ α) (key : κ) : Option α := Association.find? key c.entries

/-- Whether a key has a value, without counting. -/
def contains (c : Cache κ α) (key : κ) : Bool := (c.find? key).isSome

/-- The number of keys that have a value. -/
def size (c : Cache κ α) : Nat := c.entries.length

/-- What the cache counts. -/
def stats (c : Cache κ α) : CacheStats := ⟨c.entries.length, c.hits, c.misses, c.computations⟩

/-- Look a key up and count the lookup. -/
def get (c : Cache κ α) (key : κ) : Option α × Cache κ α :=
  match c.find? key with
  | some value => (some value, { c with hits := c.hits + 1 })
  | none => (none, { c with misses := c.misses + 1 })

/-- Publish a value unless the key has one, and return the value that the key has then. -/
def put (c : Cache κ α) (key : κ) (value : α) : α × Cache κ α :=
  match c.find? key with
  | some earlier => (earlier, c)
  | none => (value, { c with entries := Association.set key value c.entries })

/-- Forget all values and counts. -/
def clear (c : Cache κ α) : Cache κ α :=
  { c with entries := [], hits := 0, misses := 0, computations := 0 }

/-- What a caller finds that wants a value for a key. -/
inductive Entry (α : Type) where
  /-- A published value. -/
  | found (value : α)
  /-- No value; the caller is registered on the lock with this identity. -/
  | registered (token : Nat)
  deriving DecidableEq, Repr

/-- Look a key up and, if it has no value, register on its lock, which is made if there is none. -/
def enter (c : Cache κ α) (key : κ) : Entry α × Cache κ α :=
  match c.find? key with
  | some value => (.found value, { c with hits := c.hits + 1 })
  | none =>
    match Association.find? key c.locks with
    | some lock =>
      (.registered lock.token,
        { c with
          misses := c.misses + 1
          locks := Association.set key { lock with users := lock.users + 1 } c.locks })
    | none =>
      (.registered c.nextToken,
        { c with
          misses := c.misses + 1
          locks := Association.set key ⟨c.nextToken, 1⟩ c.locks
          nextToken := c.nextToken + 1 })

/-- Count a computation and publish its value. -/
def publish (c : Cache κ α) (key : κ) (value : α) : α × Cache κ α :=
  let counted := { c with computations := c.computations + 1 }
  counted.put key value

/-- Take the registration on a lock back; the last one takes the lock away. -/
def leave (c : Cache κ α) (key : κ) (token : Nat) : Cache κ α :=
  match Association.find? key c.locks with
  | some lock =>
    if lock.token = token then
      if lock.users ≤ 1 then { c with locks := Association.erase key c.locks }
      else { c with locks := Association.set key { lock with users := lock.users - 1 } c.locks }
    else c
  | none => c

/-- How a caller that wanted a value was served. -/
inductive Served (ε α : Type) where
  /-- By a value that was published before. -/
  | found (value : α)
  /-- By the value published after its own computation. -/
  | computed (value : α)
  /-- Its own computation failed. -/
  | failed (error : ε)
  deriving DecidableEq, Repr

namespace Served

/-- What the caller gets. -/
def outcome : Served ε α → Except ε α
  | found value | computed value => .ok value
  | failed error => .error error

/-- Whether the caller computed. -/
def ran : Served ε α → Bool
  | found _ => false
  | computed _ | failed _ => true

end Served

/-- Return the value of a key, computing it if there is none. The computation may itself use the
cache, but not the key. -/
def getOrCompute (c : Cache κ α) (key : κ) (compute : Cache κ α → Except ε α × Cache κ α) :
    Served ε α × Cache κ α :=
  match c.enter key with
  | (.found value, c) => (.found value, c)
  | (.registered token, c) =>
    match compute c with
    | (.error e, c) => (.failed e, c.leave key token)
    | (.ok value, c) =>
      let (stored, c) := c.publish key value
      (.computed stored, c.leave key token)

end Cache

end KotlinNullability
