import KotlinNullability.Cache.Concurrent

/-!
# A race for one key

Several callers want the same key of a fresh cache. The first is computing before the others come,
and all of them wait before its computation ends; meanwhile a value may be published from outside.
Then the callers run to their ends one after the other.
-/

namespace KotlinNullability.Cache

variable {κ ε α : Type} [DecidableEq κ]

namespace System

/-- Let an event happen if it is possible. -/
def apply (s : System κ ε α) (event : Event ε α) : System κ ε α := (s.step? event).getD s

/-- Let a caller make steps, at most as many as the fuel says, until it has returned or must wait.
The computation that was started last ends with the result of its number. -/
def settle (resultOf : Nat → Except ε α) (i : Nat) : (fuel : Nat) → System κ ε α → System κ ε α
  | 0, s => s
  | fuel + 1, s =>
    match s.step? (.step i) with
    | some s => settle resultOf i fuel s
    | none =>
      match s.step? (.finish i (resultOf s.runs)) with
      | some s => settle resultOf i fuel s
      | none => s

/-- The most steps that a call takes. -/
def longestCall : Nat := 7

/-- What the call of a caller returned. -/
def resultOf? (s : System κ ε α) (i : Nat) : Option (Except ε α) := do
  match (← (← s.callers[i]?).returned.head?).2 with
  | .outcome result => some result
  | _ => none

end System

/-- The end of the race of so many callers. -/
def race (key : κ) (callers : Nat) (resultOf : Nat → Except ε α) (published : Option α) :
    System κ ε α :=
  let outsider := published.toList.map fun value => [Call.put key value]
  let fresh : System κ ε α :=
    .ofCalls (List.replicate callers [Call.getOrCompute key] ++ outsider)
  let computing := ((fresh.apply (.step 0)).apply (.step 0)).apply (.step 0)
  let waiting := (List.range callers).tail.foldl (fun s i => s.apply (.step i)) computing
  let crowded := if published.isSome then waiting.apply (.step callers) else waiting
  (List.range callers).foldl (fun s i => s.settle resultOf i System.longestCall) crowded

end KotlinNullability.Cache
