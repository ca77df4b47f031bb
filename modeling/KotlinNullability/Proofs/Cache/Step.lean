import KotlinNullability.Cache.Concurrent
import KotlinNullability.Proofs.Cache.Operations

/-!
# The steps of concurrent callers

An event changes the cache and the caller that it names, and no other caller. What the caller does
is one of four things: it makes a call that ends at once, it registers on the lock of a key, it
moves on inside its call, or it leaves with a result. `Caller.Steps` lists these steps, and whatever
holds of all of them holds of every event.
-/

namespace KotlinNullability.Cache

variable {κ ε α : Type} [DecidableEq κ]

/-- The call ends with its first step: what it returns, and the cache after it. -/
inductive Answers (c : Cache κ α) : Call κ α → Reply ε α → Cache κ α → Prop where
  | get (key : κ) : Answers c (.get key) (.looked (c.get key).1) (c.get key).2
  | put (key : κ) (value : α) :
    Answers c (.put key value) (.stored (c.put key value).1) (c.put key value).2
  | contains (key : κ) : Answers c (.contains key) (.present (c.contains key)) c
  | clear : Answers c .clear .cleared c.clear
  | stats : Answers c .stats (.counted c.stats) c
  | size : Answers c .size (.sized c.size) c
  | found {key : κ} {value : α} {d : Cache κ α} (h : c.enter key = (.found value, d)) :
    Answers c (.getOrCompute key) (.outcome (.ok value)) d

/-- Inside a call, a caller moves on from a phase to a phase; a lock is taken only if it is free. -/
inductive Phase.Moves (free : Nat → Prop) (c : Cache κ α) :
    Phase κ ε α → Cache κ α → Phase κ ε α → Prop where
  | acquire {key : κ} {token : Nat} (h : free token) :
    Moves free c (.waiting key token) c (.holding key token)
  | look {key : κ} {token : Nat} {value : α} (h : c.find? key = some value) :
    Moves free c (.holding key token) c (.releasing key token (.ok value))
  | compute {key : κ} {token : Nat} (h : c.find? key = none) :
    Moves free c (.holding key token) c (.computing key token)
  | succeed {key : κ} {token : Nat} (value : α) :
    Moves free c (.computing key token) c (.publishing key token value)
  | fail {key : κ} {token : Nat} (e : ε) :
    Moves free c (.computing key token) c (.releasing key token (.error e))
  | publish {key : κ} {token : Nat} {value : α} :
    Moves free c (.publishing key token value) (c.publish key value).2
      (.releasing key token (.ok (c.publish key value).1))
  | release {key : κ} {token : Nat} {result : Except ε α} :
    Moves free c (.releasing key token result) c (.leaving key token result)

/-- A caller makes a step, which may change the cache. -/
inductive Caller.Steps (free : Nat → Prop) (c : Cache κ α) :
    Caller κ ε α → Cache κ α → Caller κ ε α → Prop where
  | answer {call : Call κ α} {pending : List (Call κ α)} {reply : Reply ε α} {d : Cache κ α}
    {returned : List (Call κ α × Reply ε α)} (h : Answers c call reply d) :
    Steps free c ⟨call :: pending, .idle, returned⟩ d
      ⟨pending, .idle, returned ++ [(call, reply)]⟩
  | register {key : κ} {token : Nat} {pending : List (Call κ α)} {d : Cache κ α}
    {returned : List (Call κ α × Reply ε α)} (h : c.enter key = (.registered token, d)) :
    Steps free c ⟨.getOrCompute key :: pending, .idle, returned⟩ d
      ⟨.getOrCompute key :: pending, .waiting key token, returned⟩
  | move {phase next : Phase κ ε α} {pending : List (Call κ α)} {d : Cache κ α}
    {returned : List (Call κ α × Reply ε α)} (h : phase.Moves free c d next) :
    Steps free c ⟨pending, phase, returned⟩ d ⟨pending, next, returned⟩
  | leave {call : Call κ α} {key : κ} {token : Nat} {result : Except ε α}
    {pending : List (Call κ α)} {returned : List (Call κ α × Reply ε α)} :
    Steps free c ⟨call :: pending, .leaving key token result, returned⟩ (c.leave key token)
      ⟨pending, .idle, returned ++ [(call, .outcome result)]⟩

/-- A caller that is registered on a lock is in a call that wants a value for the lock's key. -/
def Caller.WellFormed (caller : Caller κ ε α) : Prop :=
  ∀ key token, caller.phase.registered? = some (key, token) →
    caller.pending.head? = some (.getOrCompute key)

/-- The next step of the caller is to clear the cache. -/
def Caller.isClearing (caller : Caller κ ε α) : Bool :=
  match caller.pending, caller.phase with
  | .clear :: _, .idle => true
  | _, _ => false

namespace Phase.Moves

variable {free : Nat → Prop} {c d : Cache κ α} {phase next : Phase κ ε α}

/-- Inside a call, a caller stays registered on the same lock. -/
theorem registered?_eq (h : phase.Moves free c d next) : next.registered? = phase.registered? := by
  cases h <;> rfl

/-- Inside a call, the locks stay as they are. -/
theorem locks_eq (h : phase.Moves free c d next) : d.locks = c.locks := by
  cases h with
  | publish => exact publish_locks c _ _
  | _ => rfl

/-- Inside a call, values stay. -/
theorem find?_of_some (h : phase.Moves free c d next) {key : κ} {value : α}
    (hvalue : c.find? key = some value) : d.find? key = some value := by
  cases h with
  | publish => exact find?_publish_of_some _ _ hvalue
  | _ => exact hvalue

/-- A lock that is held after a move was held before it or is free. -/
theorem held?_or_free (h : phase.Moves free c d next) {token : Nat}
    (hnext : next.held? = some token) : phase.held? = some token ∨ free token := by
  cases h with
  | acquire hfree =>
    cases hnext
    exact .inr hfree
  | release => simp [held?] at hnext
  | _ => exact .inl hnext

end Phase.Moves

namespace Caller.Steps

variable {free : Nat → Prop} {c d : Cache κ α} {caller next : Caller κ ε α}

/-- A step leaves the caller in a call that wants a value for the key of its lock. -/
theorem wellFormed (h : caller.Steps free c d next) (hwf : caller.WellFormed) :
    next.WellFormed := by
  intro key token hnext
  cases h with
  | register =>
    cases hnext
    rfl
  | move hmove =>
    rw [hmove.registered?_eq] at hnext
    exact hwf key token hnext
  | _ => simp [Phase.registered?] at hnext

/-- A value stays unless the cache is cleared. -/
theorem find?_of_some (h : caller.Steps free c d next) (hclear : caller.isClearing = false)
    {key : κ} {value : α} (hvalue : c.find? key = some value) : d.find? key = some value := by
  cases h with
  | answer hanswer =>
    cases hanswer with
    | get k => rw [find?_get, hvalue]
    | put k v => exact find?_put_of_some k v hvalue
    | clear => simp [isClearing] at hclear
    | contains => exact hvalue
    | stats => exact hvalue
    | size => exact hvalue
    | found henter => rw [find?_of_enter henter, hvalue]
  | register henter => rw [find?_of_enter henter, hvalue]
  | move hmove => exact hmove.find?_of_some hvalue
  | leave => rw [find?_leave, hvalue]

/-- A step takes nothing back that the caller has returned. -/
theorem returned_length_le (h : caller.Steps free c d next) :
    caller.returned.length ≤ next.returned.length := by
  cases h with
  | answer => simp
  | register => exact Nat.le_refl _
  | move => exact Nat.le_refl _
  | leave => simp

/-- A caller with a call before it returns from it, or registers with it, or moves on inside it. -/
theorem of_call {call : Call κ α} {pending : List (Call κ α)} {phase : Phase κ ε α}
    {returned : List (Call κ α × Reply ε α)}
    (h : Caller.Steps free c ⟨call :: pending, phase, returned⟩ d next) :
    (∃ reply, next = ⟨pending, .idle, returned ++ [(call, reply)]⟩ ∧
        (phase = .idle ∧ Answers c call reply d ∨
          ∃ key token result, phase = .leaving key token result ∧ reply = .outcome result)) ∨
      (∃ key token, next = ⟨call :: pending, .waiting key token, returned⟩ ∧ phase = .idle ∧
        call = .getOrCompute key ∧ c.enter key = (.registered token, d)) ∨
      ∃ moved, next = ⟨call :: pending, moved, returned⟩ ∧ phase.Moves free c d moved := by
  cases h with
  | answer hanswer => exact .inl ⟨_, rfl, .inl ⟨rfl, hanswer⟩⟩
  | register henter => exact .inr (.inl ⟨_, _, rfl, rfl, rfl, henter⟩)
  | move hmove => exact .inr (.inr ⟨_, rfl, hmove⟩)
  | leave => exact .inl ⟨_, rfl, .inr ⟨_, _, _, rfl, rfl⟩⟩

/-- A caller that is registered on a lock after a step was in the same call before it. -/
theorem of_inside {pending : List (Call κ α)} {phase : Phase κ ε α}
    {returned : List (Call κ α × Reply ε α)}
    (h : caller.Steps free c d ⟨pending, phase, returned⟩) (hphase : phase ≠ .idle) :
    ∃ before, caller = ⟨pending, before, returned⟩ := by
  cases h with
  | answer => exact absurd rfl hphase
  | register => exact ⟨_, rfl⟩
  | move => exact ⟨_, rfl⟩
  | leave => exact absurd rfl hphase

/-- What a step does to registrations: nothing, or the caller registers on the lock of a key on
entering, or it takes its registration back on leaving. -/
theorem registration (h : caller.Steps free c d next) :
    (next.phase.registered? = caller.phase.registered? ∧ d.locks = c.locks) ∨
      (∃ key token, caller.phase.registered? = none ∧
        next.phase.registered? = some (key, token) ∧ c.enter key = (.registered token, d)) ∨
      ∃ key token, caller.phase.registered? = some (key, token) ∧
        next.phase.registered? = none ∧ d = c.leave key token := by
  cases h with
  | answer hanswer =>
    refine .inl ⟨rfl, ?_⟩
    cases hanswer with
    | get k => exact get_locks c k
    | put k v => exact put_locks c k v
    | found henter => exact locks_of_enter_found henter
    | _ => rfl
  | register henter => exact .inr (.inl ⟨_, _, rfl, rfl, henter⟩)
  | move hmove => exact .inl ⟨hmove.registered?_eq, hmove.locks_eq⟩
  | leave => exact .inr (.inr ⟨_, _, rfl, rfl, rfl⟩)

/-- A lock that is held after a step was held before it or is free. -/
theorem held?_or_free (h : caller.Steps free c d next) {token : Nat}
    (hnext : next.phase.held? = some token) : caller.phase.held? = some token ∨ free token := by
  cases h with
  | move hmove => exact hmove.held?_or_free hnext
  | _ => simp [Phase.held?] at hnext

end Caller.Steps

/-- The caller whose step an event is. -/
def Event.caller : Event ε α → Nat
  | step i => i
  | finish i _ => i

namespace System

/-- Every caller that is registered on a lock is in a call for its key. -/
def WellFormed (s : System κ ε α) : Prop := ∀ caller ∈ s.callers, caller.WellFormed

/-- A caller makes a step; the other callers stay as they are. -/
def StepsTo (s : System κ ε α) (i : Nat) (after : System κ ε α) : Prop :=
  ∃ caller next, s.callers[i]? = some caller ∧ after.callers = s.callers.set i next ∧
    caller.Steps (s.isFree · = true) s.cache after.cache next

/-- The first step of a call is a step of its caller. -/
theorem start_steps (s : System κ ε α) (i : Nat) (call : Call κ α) (pending : List (Call κ α))
    (returned : List (Call κ α × Reply ε α)) :
    ∃ next, (s.start i ⟨call :: pending, .idle, returned⟩ call).callers = s.callers.set i next ∧
      Caller.Steps (s.isFree · = true) s.cache ⟨call :: pending, .idle, returned⟩
        (s.start i ⟨call :: pending, .idle, returned⟩ call).cache next := by
  cases call with
  | get key => exact ⟨_, rfl, .answer (.get key)⟩
  | put key value => exact ⟨_, rfl, .answer (.put key value)⟩
  | contains key => exact ⟨_, rfl, .answer (.contains key)⟩
  | clear => exact ⟨_, rfl, .answer .clear⟩
  | stats => exact ⟨_, rfl, .answer .stats⟩
  | size => exact ⟨_, rfl, .answer .size⟩
  | getOrCompute key =>
    cases henter : s.cache.enter key with
    | mk entry d =>
      rw [start, henter]
      cases entry with
      | found value => exact ⟨_, rfl, .answer (.found henter)⟩
      | registered token => exact ⟨_, rfl, .register henter⟩

/-- Every event is a step of the caller that it names. -/
theorem stepsTo_of_step? {s after : System κ ε α} {event : Event ε α}
    (hwf : s.WellFormed) (h : s.step? event = some after) :
    s.StepsTo event.caller after := by
  cases event with
  | step i =>
    obtain ⟨⟨pending, phase, returned⟩, hcaller, hstep⟩ := Option.bind_eq_some_iff.mp h
    cases phase with
    | idle =>
      obtain ⟨call, hcall, rfl⟩ := Option.map_eq_some_iff.mp hstep
      obtain ⟨rest, rfl⟩ := List.head?_eq_some_iff.mp hcall
      obtain ⟨next, hcallers, hsteps⟩ := s.start_steps i call rest returned
      exact ⟨_, next, hcaller, hcallers, hsteps⟩
    | waiting key token =>
      obtain ⟨hfree, hafter⟩ := Option.ite_none_right_eq_some.mp hstep
      cases hafter
      exact ⟨_, _, hcaller, rfl, .move (.acquire hfree)⟩
    | holding key token =>
      rw [stepOf?] at hstep
      dsimp only at hstep
      split at hstep
      · next value hfind =>
        cases hstep
        exact ⟨_, _, hcaller, rfl, .move (.look hfind)⟩
      · next hfind =>
        cases hstep
        exact ⟨_, _, hcaller, rfl, .move (.compute hfind)⟩
    | computing key token => cases hstep
    | publishing key token value =>
      cases hstep
      exact ⟨_, _, hcaller, rfl, .move .publish⟩
    | releasing key token result =>
      cases hstep
      exact ⟨_, _, hcaller, rfl, .move .release⟩
    | leaving key token result =>
      have hcall := hwf _ (List.mem_of_getElem? hcaller) key token rfl
      obtain ⟨rest, rfl⟩ := List.head?_eq_some_iff.mp hcall
      cases hstep
      exact ⟨_, _, hcaller, rfl, .leave⟩
  | finish i result =>
    obtain ⟨⟨pending, phase, returned⟩, hcaller, hstep⟩ := Option.bind_eq_some_iff.mp h
    dsimp only at hstep
    split at hstep
    · cases hstep
      exact ⟨_, _, hcaller, rfl, .move (.succeed _)⟩
    · cases hstep
      exact ⟨_, _, hcaller, rfl, .move (.fail _)⟩
    · cases hstep

namespace StepsTo

variable {s after : System κ ε α} {i : Nat}

/-- Callers that make no step stay as they are. -/
theorem getElem?_of_ne (h : s.StepsTo i after) {j : Nat} (hj : j ≠ i) :
    after.callers[j]? = s.callers[j]? := by
  obtain ⟨caller, next, -, hcallers, -⟩ := h
  rw [hcallers, List.getElem?_set_ne hj.symm]

/-- The caller that makes the step is there before it and after it. -/
theorem caller (h : s.StepsTo i after) : ∃ caller next, s.callers[i]? = some caller ∧
    after.callers[i]? = some next ∧
      caller.Steps (s.isFree · = true) s.cache after.cache next := by
  obtain ⟨caller, next, hcaller, hcallers, hsteps⟩ := h
  have hi := (List.getElem?_eq_some_iff.mp hcaller).1
  exact ⟨caller, next, hcaller, by rw [hcallers, List.getElem?_set_self hi], hsteps⟩

theorem wellFormed (h : s.StepsTo i after) (hwf : s.WellFormed) : after.WellFormed := by
  obtain ⟨caller, next, hcaller, hcallers, hsteps⟩ := h
  intro other hother
  rw [hcallers] at hother
  rcases List.mem_or_eq_of_mem_set hother with hold | rfl
  · exact hwf other hold
  · exact hsteps.wellFormed (hwf caller (List.mem_of_getElem? hcaller))

end StepsTo

omit [DecidableEq κ] in
/-- Callers with calls before them are in none. -/
theorem wellFormed_ofCalls (calls : List (List (Call κ α))) :
    (ofCalls calls : System κ ε α).WellFormed := by
  intro caller hcaller key token hregistered
  obtain ⟨pending, _, rfl⟩ := List.mem_map.mp hcaller
  cases hregistered

/-- What holds of a state and is kept by every step holds of all states that can be reached. -/
theorem Reaches.induct {s t : System κ ε α} {P : System κ ε α → Prop} (h : Reaches s t)
    (hwf : s.WellFormed) (hstart : P s)
    (hstep : ∀ mid i after, mid.StepsTo i after → P mid → P after) : t.WellFormed ∧ P t := by
  induction h with
  | refl => exact ⟨hwf, hstart⟩
  | step event _ hnext ih =>
    have hsteps := stepsTo_of_step? ih.1 hnext
    exact ⟨hsteps.wellFormed ih.1, hstep _ _ _ hsteps ih.2⟩

/-- In every state that is reached, callers that are registered on a lock are in a call for its
key. -/
theorem Reaches.wellFormed {calls : List (List (Call κ α))} {s : System κ ε α}
    (h : Reaches (ofCalls calls) s) : s.WellFormed :=
  (h.induct (P := fun _ => True) (wellFormed_ofCalls calls) trivial fun _ _ _ _ _ => trivial).1

end System

end KotlinNullability.Cache
