import KotlinNullability.Cache

/-!
# Sessions

A session is a sequence of operations by one caller. The computation of `getOrCompute` is given by
the operations that it performs itself, which may nest to any depth, and by its result. Every
operation reports its answer and the counts after it.
-/

namespace KotlinNullability.Cache

/-- What a computation does when an operation of its own fails. -/
inductive OnFailure where
  /-- It goes on. -/
  | goOn
  /-- It fails with the same error. -/
  | passOn
  deriving DecidableEq, Repr

/-- An operation on a cache. -/
inductive Operation (κ ε α : Type) where
  | get (key : κ)
  | put (key : κ) (value : α)
  | contains (key : κ)
  | clear
  | getOrCompute (key : κ) (body : List (Operation κ ε α)) (result : Except ε α)
      (onFailure : OnFailure)

/-- What an operation answers. -/
inductive Answer (ε α : Type) where
  | looked (value : Option α)
  | stored (value : α)
  | present (answer : Bool)
  | cleared
  | served (how : Served ε α)

/-- An answer, the counts after the operation, and the reports of the operations inside it. -/
inductive Report (ε α : Type) where
  | mk (answer : Answer ε α) (stats : CacheStats) (inner : List (Report ε α))

namespace Operation

variable {κ ε α : Type} [DecidableEq κ]

mutual

/-- Perform an operation. The error is one that a surrounding computation must fail with. -/
def run (c : Cache κ α) : Operation κ ε α → Report ε α × Option ε × Cache κ α
  | get key =>
    let (value, c) := c.get key
    (⟨.looked value, c.stats, []⟩, none, c)
  | put key value =>
    let (stored, c) := c.put key value
    (⟨.stored stored, c.stats, []⟩, none, c)
  | contains key => (⟨.present (c.contains key), c.stats, []⟩, none, c)
  | clear =>
    let c := c.clear
    (⟨.cleared, c.stats, []⟩, none, c)
  | getOrCompute key body result onFailure =>
    match c.enter key with
    | (.found value, c) => (⟨.served (.found value), c.stats, []⟩, none, c)
    | (.registered token, c) =>
      let (inner, passed, c) := runAll c body
      match passed, result with
      | some e, _ | none, .error e =>
        let c := c.leave key token
        (⟨.served (.failed e), c.stats, inner⟩, if onFailure = .passOn then some e else none, c)
      | none, .ok value =>
        let (stored, c) := c.publish key value
        let c := c.leave key token
        (⟨.served (.computed stored), c.stats, inner⟩, none, c)

/-- Perform operations in order, up to the first that fails and passes its error on. -/
def runAll (c : Cache κ α) : List (Operation κ ε α) → List (Report ε α) × Option ε × Cache κ α
  | [] => ([], none, c)
  | operation :: operations =>
    let (report, passed, c) := run c operation
    match passed with
    | some e => ([report], some e, c)
    | none =>
      let (reports, passed, c) := runAll c operations
      (report :: reports, passed, c)

end

end Operation

end KotlinNullability.Cache
