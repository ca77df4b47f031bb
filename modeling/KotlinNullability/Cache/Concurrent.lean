import KotlinNullability.Cache

/-!
# Concurrent callers

Any number of callers share a cache. Each works through calls of its own, one atomic step at a time,
and an event says which caller makes the next step. The steps under the global lock are those of the
cache; taking and releasing the lock of a key are steps of their own, and so is the end of a
computation, whose result the event carries. A caller holds the lock of a key in the phases between
taking and releasing it, and a lock that is held cannot be taken.
-/

namespace KotlinNullability.Cache

/-- A call that a caller makes. -/
inductive Call (κ α : Type) where
  | get (key : κ)
  | put (key : κ) (value : α)
  | getOrCompute (key : κ)
  | contains (key : κ)
  | clear
  | stats
  | size
  deriving DecidableEq, Repr

/-- What a call returns. -/
inductive Reply (ε α : Type) where
  | looked (value : Option α)
  | stored (value : α)
  | outcome (result : Except ε α)
  | present (answer : Bool)
  | cleared
  | counted (stats : CacheStats)
  | sized (size : Nat)

/-- Where a caller is in its call. -/
inductive Phase (κ ε α : Type) where
  /-- Between calls. -/
  | idle
  /-- Registered on the lock of a key, which it does not hold. -/
  | waiting (key : κ) (token : Nat)
  /-- Holding the lock, before the second look. -/
  | holding (key : κ) (token : Nat)
  /-- Holding the lock, computing. -/
  | computing (key : κ) (token : Nat)
  /-- Holding the lock, with a computed value to publish. -/
  | publishing (key : κ) (token : Nat) (value : α)
  /-- Holding the lock, about to release it. -/
  | releasing (key : κ) (token : Nat) (result : Except ε α)
  /-- Still registered, about to leave with a result. -/
  | leaving (key : κ) (token : Nat) (result : Except ε α)

namespace Phase

variable {κ ε α : Type}

/-- The identity of the lock that a caller holds. -/
def held? : Phase κ ε α → Option Nat
  | holding _ token | computing _ token | publishing _ token _ | releasing _ token _ => some token
  | idle | waiting .. | leaving .. => none

/-- The lock that a caller is registered on. -/
def registered? : Phase κ ε α → Option (κ × Nat)
  | idle => none
  | waiting key token | holding key token | computing key token | publishing key token _
  | releasing key token _ | leaving key token _ => some (key, token)

/-- The key that a caller is computing. -/
def computing? : Phase κ ε α → Option κ
  | computing key _ => some key
  | _ => none

end Phase

/-- A caller: the calls before it, its phase in the first of them, and what earlier calls
returned. -/
structure Caller (κ ε α : Type) where
  pending : List (Call κ α)
  phase : Phase κ ε α := .idle
  returned : List (Call κ α × Reply ε α) := []

/-- A cache, its callers, and how often a computation was started. -/
structure System (κ ε α : Type) where
  cache : Cache κ α := {}
  callers : List (Caller κ ε α)
  runs : Nat := 0

/-- What happens next. -/
inductive Event (ε α : Type) where
  /-- A caller that is not computing makes its next step. -/
  | step (caller : Nat)
  /-- The computation of a caller ends. -/
  | finish (caller : Nat) (result : Except ε α)

namespace System

variable {κ ε α : Type} [DecidableEq κ]

/-- Whether nobody holds a lock. -/
def isFree (s : System κ ε α) (token : Nat) : Bool :=
  s.callers.all fun caller => caller.phase.held? != some token

/-- Put a caller into a phase. -/
def goTo (s : System κ ε α) (i : Nat) (caller : Caller κ ε α) (phase : Phase κ ε α) :
    System κ ε α :=
  { s with callers := s.callers.set i { caller with phase } }

/-- End the first call of a caller with a reply. -/
def reply (s : System κ ε α) (i : Nat) (caller : Caller κ ε α) (reply : Reply ε α) :
    System κ ε α :=
  match caller.pending with
  | [] => s
  | call :: pending =>
    { s with
      callers := s.callers.set i
        { pending, phase := .idle, returned := caller.returned ++ [(call, reply)] } }

/-- Begin the first call of a caller. All calls but `getOrCompute` end with the same step. -/
def start (s : System κ ε α) (i : Nat) (caller : Caller κ ε α) : Call κ α → System κ ε α
  | .get key =>
    let (value, cache) := s.cache.get key
    { s with cache }.reply i caller (.looked value)
  | .put key value =>
    let (stored, cache) := s.cache.put key value
    { s with cache }.reply i caller (.stored stored)
  | .contains key => s.reply i caller (.present (s.cache.contains key))
  | .clear => { s with cache := s.cache.clear }.reply i caller .cleared
  | .stats => s.reply i caller (.counted s.cache.stats)
  | .size => s.reply i caller (.sized s.cache.size)
  | .getOrCompute key =>
    match s.cache.enter key with
    | (.found value, cache) => { s with cache }.reply i caller (.outcome (.ok value))
    | (.registered token, cache) => { s with cache }.goTo i caller (.waiting key token)

/-- The next step of a caller, if it can make one. -/
def stepOf? (s : System κ ε α) (i : Nat) (caller : Caller κ ε α) : Option (System κ ε α) :=
  match caller.phase with
  | .idle => caller.pending.head?.map (s.start i caller)
  | .waiting key token =>
    if s.isFree token then some (s.goTo i caller (.holding key token)) else none
  | .holding key token =>
    match s.cache.find? key with
    | some value => some (s.goTo i caller (.releasing key token (.ok value)))
    | none => some ({ s with runs := s.runs + 1 }.goTo i caller (.computing key token))
  | .computing .. => none
  | .publishing key token value =>
    let (stored, cache) := s.cache.publish key value
    some ({ s with cache }.goTo i caller (.releasing key token (.ok stored)))
  | .releasing key token result => some (s.goTo i caller (.leaving key token result))
  | .leaving key token result =>
    some ({ s with cache := s.cache.leave key token }.reply i caller (.outcome result))

/-- The system after an event, if the event is possible. -/
def step? (s : System κ ε α) : Event ε α → Option (System κ ε α)
  | .step i => s.callers[i]?.bind (s.stepOf? i)
  | .finish i result =>
    s.callers[i]?.bind fun caller =>
      match caller.phase, result with
      | .computing key token, .ok value => some (s.goTo i caller (.publishing key token value))
      | .computing key token, .error e => some (s.goTo i caller (.releasing key token (.error e)))
      | _, _ => none

/-- A fresh cache and callers with calls before them. -/
def ofCalls (calls : List (List (Call κ α))) : System κ ε α where
  callers := calls.map fun pending => { pending }

/-- A state that some events lead to. -/
inductive Reaches : System κ ε α → System κ ε α → Prop where
  | refl (s : System κ ε α) : Reaches s s
  | step {s mid after : System κ ε α} (event : Event ε α) (before : Reaches s mid)
      (h : mid.step? event = some after) : Reaches s after

end System

end KotlinNullability.Cache
