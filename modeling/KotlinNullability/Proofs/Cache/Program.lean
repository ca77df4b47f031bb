import KotlinNullability.Cache.Session

/-!
# Computations that use the cache

A computation may use the cache that it computes for: it looks values up, puts values, clears the
cache, and wants values of other keys, whose computations do the same, to any depth. What it does
next may depend on every answer, and when a computation inside it fails it may go on or fail too.

The operations of a session are such computations, which do not look at the answers.
-/

namespace KotlinNullability.Cache

/-- A computation that uses the cache: it is done, or it performs an operation and goes on with the
answer. -/
inductive Program (κ ε α : Type) where
  | done (result : Except ε α)
  | get (key : κ) (next : Option α → Program κ ε α)
  | put (key : κ) (value : α) (next : α → Program κ ε α)
  | contains (key : κ) (next : Bool → Program κ ε α)
  | clear (next : Program κ ε α)
  | getOrCompute (key : κ) (body : Program κ ε α) (next : Except ε α → Program κ ε α)

variable {κ ε α : Type} [DecidableEq κ]

namespace Program

/-- What a program returns or fails with, and the cache that it leaves. -/
def run : Program κ ε α → Cache κ α → Except ε α × Cache κ α
  | done result, c => (result, c)
  | get key next, c => (next (c.get key).1).run (c.get key).2
  | put key value next, c => (next (c.put key value).1).run (c.put key value).2
  | contains key next, c => (next (c.contains key)).run c
  | clear next, c => next.run c.clear
  | getOrCompute key body next, c =>
    let (served, d) := c.getOrCompute key body.run
    (next served.outcome).run d

/-- On its way from a cache, a program wants no value of a key that is being computed around it. -/
def Avoids (busy : List κ) : Program κ ε α → Cache κ α → Prop
  | done _, _ => True
  | get key next, c => (next (c.get key).1).Avoids busy (c.get key).2
  | put key value next, c => (next (c.put key value).1).Avoids busy (c.put key value).2
  | contains key next, c => (next (c.contains key)).Avoids busy c
  | clear next, c => next.Avoids busy c.clear
  | getOrCompute key body next, c =>
    key ∉ busy ∧ (c.find? key = none → body.Avoids (key :: busy) (c.enter key).2) ∧
      (next (c.getOrCompute key body.run).1.outcome).Avoids busy (c.getOrCompute key body.run).2

end Program

namespace Operation

mutual

/-- The program that performs an operation, and goes on unless it must fail. -/
def followedBy (next : Program κ ε α) : Operation κ ε α → Program κ ε α
  | get key => .get key fun _ => next
  | put key value => .put key value fun _ => next
  | contains key => .contains key fun _ => next
  | clear => .clear next
  | getOrCompute key body result onFailure =>
    .getOrCompute key (program body result) fun outcome =>
      match outcome, onFailure with
      | .error e, .passOn => .done (.error e)
      | _, _ => next

/-- The program that performs operations in order, and ends with the result unless it must fail. -/
def program : List (Operation κ ε α) → Except ε α → Program κ ε α
  | [], result => .done result
  | operation :: operations, result => operation.followedBy (program operations result)

end

/-- How the computation of some operations ends that ends with the result unless an error is
passed. -/
def ended (result : Except ε α) : Option ε → Except ε α
  | some e => .error e
  | none => result

/-- The error that an operation passes on whose caller is served so. -/
def passed (onFailure : OnFailure) : Served ε α → Option ε
  | .failed e => if onFailure = .passOn then some e else none
  | .found _ | .computed _ => none

/-- A session wants the value of a key as any caller does, with the program of the operations inside
for its computation, if this program does what they do. -/
theorem run_getOrCompute_of {body : List (Operation κ ε α)} {result : Except ε α}
    (hbody : ∀ c, (program body result).run c =
      (ended result (runAll c body).2.1, (runAll c body).2.2))
    (c : Cache κ α) (key : κ) (onFailure : OnFailure) :
    ∃ inner, run c (.getOrCompute key body result onFailure) =
      (⟨.served (c.getOrCompute key (program body result).run).1,
          (c.getOrCompute key (program body result).run).2.stats, inner⟩,
        passed onFailure (c.getOrCompute key (program body result).run).1,
        (c.getOrCompute key (program body result).run).2) := by
  rw [run]
  cases henter : c.enter key with
  | mk entry d =>
    rw [Cache.getOrCompute, henter]
    cases entry with
    | found value => exact ⟨[], rfl⟩
    | registered token =>
      dsimp only
      rw [hbody d]
      obtain ⟨inner, error?, left⟩ := runAll d body
      refine ⟨inner, ?_⟩
      cases error? with
      | some e => rfl
      | none => cases result <;> rfl

mutual

/-- The program of an operation does what the operation does. -/
theorem run_followedBy (next : Program κ ε α) (c : Cache κ α) :
    (operation : Operation κ ε α) → (operation.followedBy next).run c =
      match (operation.run c).2 with
      | (some e, d) => (.error e, d)
      | (none, d) => next.run d
  | get _ => rfl
  | put _ _ => rfl
  | contains _ => rfl
  | clear => rfl
  | getOrCompute key body result onFailure => by
    obtain ⟨inner, hrun⟩ :=
      run_getOrCompute_of (fun c => run_program c result body) c key onFailure
    rw [hrun, followedBy, Program.run]
    obtain ⟨served, d⟩ := c.getOrCompute key (program body result).run
    cases served with
    | failed e => cases onFailure <;> rfl
    | found value => rfl
    | computed value => rfl

/-- The program of some operations does what they do. -/
theorem run_program (c : Cache κ α) (result : Except ε α) :
    (operations : List (Operation κ ε α)) → (program operations result).run c =
      (ended result (runAll c operations).2.1, (runAll c operations).2.2)
  | [] => rfl
  | operation :: operations => by
    rw [program, run_followedBy (program operations result) c operation, runAll]
    obtain ⟨report, error?, d⟩ := run c operation
    cases error? with
    | some e => rfl
    | none => exact run_program d result operations

end

/-- A session wants the value of a key as any caller does, with the program of the operations inside
for its computation. -/
theorem run_getOrCompute (c : Cache κ α) (key : κ) (body : List (Operation κ ε α))
    (result : Except ε α) (onFailure : OnFailure) :
    ∃ inner, run c (.getOrCompute key body result onFailure) =
      (⟨.served (c.getOrCompute key (program body result).run).1,
          (c.getOrCompute key (program body result).run).2.stats, inner⟩,
        passed onFailure (c.getOrCompute key (program body result).run).1,
        (c.getOrCompute key (program body result).run).2) :=
  run_getOrCompute_of (fun c => run_program c result body) c key onFailure

end Operation

end KotlinNullability.Cache
