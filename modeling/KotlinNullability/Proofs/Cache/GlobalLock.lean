import KotlinNullability.Proofs.Cache.Progress
import Mathlib.Logic.Function.Basic

/-!
# The global lock

What is one atomic step of a caller is a section under the global lock, unless it takes or releases
the lock of a key or ends a computation. Here the global lock is spelled out: a caller takes it,
does the work of the section and releases it, and between any two of these steps other callers may
go on. Spelled out or not, the callers reach the same states.

A caller may wait for the global lock while it holds the lock of a key, but nobody waits for the
lock of a key while holding the global lock. So whoever holds the global lock can go on, and while
nobody holds it, the callers can go on as they do with atomic steps: they never get stuck.
-/

namespace KotlinNullability.Cache

variable {κ ε α : Type} [DecidableEq κ]

/-- Whether the next step of a caller is a section under the global lock. -/
def Phase.inSection : Phase κ ε α → Bool
  | idle | holding .. | publishing .. | leaving .. => true
  | waiting .. | computing .. | releasing .. => false

/-- Where a caller is with a section. -/
inductive Place where
  /-- Not in a section: it does not hold the global lock. -/
  | outside
  /-- In a section, with its work to do. -/
  | entered
  /-- In a section, about to release the global lock. -/
  | done
  deriving DecidableEq

/-- A system with its global lock. -/
structure Locked (κ ε α : Type) where
  system : System κ ε α
  /-- The caller that has taken the global lock and not released it. -/
  owner : Option Nat := none
  place : Nat → Place := fun _ => .outside

/-- What happens next. -/
inductive Act (ε α : Type) where
  /-- A caller takes the global lock. -/
  | acquire (caller : Nat)
  /-- An event of the system happens. -/
  | perform (event : Event ε α)
  /-- A caller releases the global lock. -/
  | release (caller : Nat)

/-- The caller that acts. -/
def Act.caller : Act ε α → Nat
  | acquire i | release i => i
  | perform event => event.caller

/-- An act that ends a computation ends it with the result that is given for its caller. -/
def Act.Follows (result : Nat → Except ε α) : Act ε α → Prop
  | acquire _ | release _ => True
  | perform event => event.Follows result

/-- The work of a section can be done. -/
theorem System.exists_step_of_inSection {s : System κ ε α} {i : Nat} {caller : Caller κ ε α}
    (hcaller : s.callers[i]? = some caller) (hsection : caller.phase.inSection = true)
    (hpending : caller.pending ≠ []) : ∃ after, s.step? (.step i) = some after := by
  rw [step?_step hcaller]
  obtain ⟨pending, phase, returned⟩ := caller
  cases phase with
  | idle =>
    obtain ⟨call, rest, rfl⟩ := List.exists_cons_of_ne_nil hpending
    exact ⟨_, rfl⟩
  | holding key token =>
    rw [stepOf?]
    dsimp only
    split <;> exact ⟨_, rfl⟩
  | publishing key token value => exact ⟨_, rfl⟩
  | leaving key token result => exact ⟨_, rfl⟩
  | waiting key token => cases hsection
  | computing key token => cases hsection
  | releasing key token result => cases hsection

namespace Locked

/-- The system after an act, if the act is possible. The global lock is taken before a section if it
is free; what is no section happens outside. -/
def step? (s : Locked κ ε α) : Act ε α → Option (Locked κ ε α)
  | .acquire i =>
    s.system.callers[i]?.bind fun caller =>
      if s.owner = none ∧ s.place i = .outside ∧ caller.phase.inSection ∧
          !caller.pending.isEmpty then
        some { s with owner := some i, place := Function.update s.place i .entered }
      else none
  | .perform event =>
    s.system.callers[event.caller]?.bind fun caller =>
      if caller.phase.inSection then
        if s.place event.caller = .entered then
          (s.system.step? event).map fun system =>
            { s with system, place := Function.update s.place event.caller .done }
        else none
      else if s.place event.caller = .outside then
        (s.system.step? event).map fun system => { s with system }
      else none
  | .release i =>
    if s.place i = .done then
      some { s with owner := none, place := Function.update s.place i .outside }
    else none

/-- A fresh cache and callers with calls before them, none of them in a section. -/
def ofCalls (calls : List (List (Call κ α))) : Locked κ ε α where
  system := .ofCalls calls

/-- A state that some acts lead to. -/
inductive Reaches : Locked κ ε α → Locked κ ε α → Prop where
  | refl (s : Locked κ ε α) : Reaches s s
  | step {s mid after : Locked κ ε α} (act : Act ε α) (before : Reaches s mid)
      (h : mid.step? act = some after) : Reaches s after

/-- A caller makes a step, which may change the system, the owner of the global lock and the place of
the caller. -/
inductive Steps (s : Locked κ ε α) : Act ε α → Locked κ ε α → Prop where
  | acquire {i : Nat} {caller : Caller κ ε α} (hcaller : s.system.callers[i]? = some caller)
    (hfree : s.owner = none) (hplace : s.place i = .outside)
    (hsection : caller.phase.inSection = true) (hpending : caller.pending ≠ []) :
    Steps s (.acquire i)
      { s with owner := some i, place := Function.update s.place i .entered }
  | work {event : Event ε α} {caller : Caller κ ε α} {system : System κ ε α}
    (hcaller : s.system.callers[event.caller]? = some caller)
    (hsection : caller.phase.inSection = true) (hplace : s.place event.caller = .entered)
    (h : s.system.step? event = some system) :
    Steps s (.perform event)
      { s with system, place := Function.update s.place event.caller .done }
  | pass {event : Event ε α} {caller : Caller κ ε α} {system : System κ ε α}
    (hcaller : s.system.callers[event.caller]? = some caller)
    (hsection : caller.phase.inSection = false) (hplace : s.place event.caller = .outside)
    (h : s.system.step? event = some system) : Steps s (.perform event) { s with system }
  | release {i : Nat} (hplace : s.place i = .done) :
    Steps s (.release i) { s with owner := none, place := Function.update s.place i .outside }

/-- The acts that are possible are these steps. -/
theorem step?_eq_some_iff {s after : Locked κ ε α} {act : Act ε α} :
    s.step? act = some after ↔ s.Steps act after := by
  constructor
  · intro h
    cases act with
    | acquire i =>
      obtain ⟨caller, hcaller, hstep⟩ := Option.bind_eq_some_iff.mp h
      obtain ⟨⟨hfree, hplace, hsection, hpending⟩, hafter⟩ := Option.ite_none_right_eq_some.mp hstep
      cases hafter
      exact .acquire hcaller hfree hplace hsection (by simpa using hpending)
    | perform event =>
      obtain ⟨caller, hcaller, hstep⟩ := Option.bind_eq_some_iff.mp h
      split at hstep
      · next hsection =>
        obtain ⟨hplace, hmap⟩ := Option.ite_none_right_eq_some.mp hstep
        obtain ⟨system, hsystem, rfl⟩ := Option.map_eq_some_iff.mp hmap
        exact .work hcaller hsection hplace hsystem
      · next hsection =>
        obtain ⟨hplace, hmap⟩ := Option.ite_none_right_eq_some.mp hstep
        obtain ⟨system, hsystem, rfl⟩ := Option.map_eq_some_iff.mp hmap
        exact .pass hcaller (Bool.eq_false_iff.mpr hsection) hplace hsystem
    | release i =>
      obtain ⟨hplace, hafter⟩ := Option.ite_none_right_eq_some.mp h
      cases hafter
      exact .release hplace
  · intro h
    cases h with
    | acquire hcaller hfree hplace hsection hpending =>
      rw [step?, hcaller, Option.bind_some,
        if_pos ⟨hfree, hplace, hsection, by simpa using hpending⟩]
    | work hcaller hsection hplace h =>
      rw [step?, hcaller, Option.bind_some, if_pos hsection, if_pos hplace, h, Option.map_some]
    | pass hcaller hsection hplace h =>
      rw [step?, hcaller, Option.bind_some, if_neg (Bool.eq_false_iff.mp hsection), if_pos hplace,
        h, Option.map_some]
    | release hplace => rw [step?, if_pos hplace]

variable {s after : Locked κ ε α} {calls : List (List (Call κ α))} {act : Act ε α}

/-- An act is an event of the system or leaves the system as it is. -/
theorem Steps.system (h : s.Steps act after) :
    after.system = s.system ∨ ∃ event, s.system.step? event = some after.system := by
  cases h with
  | acquire => exact .inl rfl
  | work _ _ _ h => exact .inr ⟨_, h⟩
  | pass _ _ _ h => exact .inr ⟨_, h⟩
  | release => exact .inl rfl

/-- Whatever is reached with the global lock spelled out is reached by atomic steps. -/
theorem Reaches.system {start : Locked κ ε α} (h : Reaches start s) :
    System.Reaches start.system s.system := by
  induction h with
  | refl => exact .refl _
  | step act _ hstep ih =>
    rcases (step?_eq_some_iff.mp hstep).system with hsame | ⟨event, hevent⟩
    · rwa [hsame]
    · exact .step event ih hevent

/-- While nobody is in a section, an atomic step can be made with the global lock spelled out. -/
theorem reaches_of_step? {s : System κ ε α} (hwf : s.WellFormed) {event : Event ε α}
    {after : System κ ε α} (h : s.step? event = some after) :
    Reaches { system := s } { system := after } := by
  obtain ⟨caller, next, hcaller, -, hsteps⟩ := (System.stepsTo_of_step? hwf h).caller
  cases hsection : caller.phase.inSection with
  | true =>
    have hpending : caller.pending ≠ [] :=
      hsteps.pending_ne_nil (hwf caller (List.mem_of_getElem? hcaller))
    have hentered := Reaches.step _ (.refl { system := s })
      (step?_eq_some_iff.mpr (.acquire hcaller rfl rfl hsection hpending))
    have hdone := hentered.step _
      (step?_eq_some_iff.mpr (.work hcaller hsection (Function.update_self ..) h))
    have hreleased := hdone.step _
      (step?_eq_some_iff.mpr (.release (i := event.caller) (Function.update_self ..)))
    have hplace (place : Place) : Function.update (Function.update (Function.update
        (fun _ => Place.outside) event.caller .entered) event.caller place) event.caller .outside =
          fun _ => .outside := by
      rw [Function.update_idem, Function.update_idem, Function.update_eq_self_iff]
    rwa [hplace] at hreleased
  | false =>
    exact .step _ (.refl _) (step?_eq_some_iff.mpr (.pass hcaller hsection rfl h))

/-- The global lock is held exactly by the caller that is in a section, and whoever has entered one
has its work before it. -/
structure Orderly (s : Locked κ ε α) : Prop where
  owner : ∀ i, s.owner = some i ↔ s.place i ≠ .outside
  entered : ∀ i, s.place i = .entered → ∃ caller, s.system.callers[i]? = some caller ∧
    caller.phase.inSection = true ∧ caller.pending ≠ []

omit [DecidableEq κ] in
/-- Two callers in sections are the same. -/
theorem Orderly.place_unique (h : s.Orderly) {i j : Nat} (hi : s.place i ≠ .outside)
    (hj : s.place j ≠ .outside) : i = j := by
  have howner := (h.owner i).mpr hi
  rw [(h.owner j).mpr hj] at howner
  exact (Option.some.inj howner).symm

omit [DecidableEq κ] in
/-- While nobody holds the global lock, everybody is outside. -/
theorem Orderly.outside (h : s.Orderly) (hfree : s.owner = none) (i : Nat) :
    s.place i = .outside := by
  refine Classical.byContradiction fun hplace => ?_
  rw [(h.owner i).mpr hplace] at hfree
  cases hfree

/-- A step that leaves all callers but one as they are keeps what is said of callers that have
entered a section, if it is kept for this one. -/
theorem Orderly.entered_of_ne (h : s.Orderly) {event : Event ε α} {system : System κ ε α}
    (hwf : s.system.WellFormed) (hstep : s.system.step? event = some system) {j : Nat}
    (hj : j ≠ event.caller) (hentered : s.place j = .entered) :
    ∃ caller, system.callers[j]? = some caller ∧ caller.phase.inSection = true ∧
      caller.pending ≠ [] := by
  rw [(System.stepsTo_of_step? hwf hstep).getElem?_of_ne hj]
  exact h.entered j hentered

/-- Every step keeps the global lock with the caller in a section. -/
theorem Steps.orderly (h : s.Steps act after) (hwf : s.system.WellFormed) (horderly : s.Orderly) :
    after.Orderly := by
  cases h with
  | @acquire i caller hcaller hfree hplace hsection hpending =>
    have houtside := horderly.outside hfree
    refine ⟨fun j => ?_, fun j hentered => ?_⟩
    · by_cases hj : j = i
      · subst hj
        simp
      · simp [Ne.symm hj, Function.update_of_ne hj, houtside j]
    · by_cases hj : j = i
      · subst hj
        exact ⟨caller, hcaller, hsection, hpending⟩
      · dsimp only at hentered
        rw [Function.update_of_ne hj, houtside j] at hentered
        cases hentered
  | @work event caller system hcaller hsection hplace hstep =>
    have hinside : s.place event.caller ≠ .outside := by
      rw [hplace]
      exact Place.noConfusion
    refine ⟨fun j => ?_, fun j hentered => ?_⟩
    · by_cases hj : j = event.caller
      · subst hj
        simpa using (horderly.owner event.caller).mpr hinside
      · simpa only [Function.update_of_ne hj] using horderly.owner j
    · by_cases hj : j = event.caller
      · subst hj
        simp at hentered
      · dsimp only at hentered
        rw [Function.update_of_ne hj] at hentered
        exact horderly.entered_of_ne hwf hstep hj hentered
  | @pass event caller system hcaller hsection hplace hstep =>
    refine ⟨horderly.owner, fun j hentered => ?_⟩
    refine horderly.entered_of_ne hwf hstep (fun hj => ?_) hentered
    rw [← hj] at hplace
    exact absurd (hplace.symm.trans hentered) Place.noConfusion
  | @release i hplace =>
    have hinside : s.place i ≠ .outside := by
      rw [hplace]
      exact Place.noConfusion
    have hothers {j : Nat} (hj : j ≠ i) : s.place j = .outside :=
      Classical.byContradiction fun hplace => hj (horderly.place_unique hplace hinside)
    refine ⟨fun j => ?_, fun j hentered => ?_⟩
    · by_cases hj : j = i
      · subst hj
        simp
      · simp [Function.update_of_ne hj, hothers hj]
    · by_cases hj : j = i
      · subst hj
        simp at hentered
      · dsimp only at hentered
        rw [Function.update_of_ne hj, hothers hj] at hentered
        cases hentered

/-- In every state that is reached, the global lock is held exactly by the caller in a section. -/
theorem Reaches.orderly (h : Reaches (ofCalls calls) s) : s.Orderly := by
  induction h with
  | refl => exact ⟨fun i => by simp [ofCalls], fun i hentered => by cases hentered⟩
  | step act hbefore hstep ih =>
    exact (step?_eq_some_iff.mp hstep).orderly hbefore.system.wellFormed ih

/-- A caller waits for the lock of a key. -/
def AwaitsKeyLock (s : Locked κ ε α) (i : Nat) : Prop :=
  s.place i = .outside ∧ ∃ caller key token, s.system.callers[i]? = some caller ∧
    caller.phase = .waiting key token

/-- A caller has not returned from all of its calls. -/
def Unfinished (s : Locked κ ε α) (i : Nat) : Prop :=
  s.place i ≠ .outside ∨ ∃ caller, s.system.callers[i]? = some caller ∧ caller.pending ≠ []

/-- Whoever holds the global lock can go on: it does the work of its section or releases the lock. -/
theorem Orderly.exists_step_of_inside (h : s.Orderly) {i : Nat} (hplace : s.place i ≠ .outside) :
    (∃ after, s.step? (.perform (.step i)) = some after) ∨
      ∃ after, s.step? (.release i) = some after := by
  cases hi : s.place i with
  | outside => exact absurd hi hplace
  | entered =>
    obtain ⟨caller, hcaller, hsection, hpending⟩ := h.entered i hi
    obtain ⟨system, hsystem⟩ := System.exists_step_of_inSection hcaller hsection hpending
    exact .inl ⟨_, step?_eq_some_iff.mpr (.work hcaller hsection hi hsystem)⟩
  | done => exact .inr ⟨_, if_pos hi⟩

/-- While nobody holds the global lock, whoever could make an atomic step can make one, or take the
global lock for it. -/
theorem exists_step_of_free (hfree : s.owner = none) (hwf : s.system.WellFormed)
    {event : Event ε α} {system : System κ ε α} (hplace : s.place event.caller = .outside)
    (h : s.system.step? event = some system) :
    (∃ after, s.step? (.perform event) = some after) ∨
      ∃ after, s.step? (.acquire event.caller) = some after := by
  obtain ⟨caller, next, hcaller, -, hsteps⟩ := (System.stepsTo_of_step? hwf h).caller
  have hpending : caller.pending ≠ [] :=
    hsteps.pending_ne_nil (hwf caller (List.mem_of_getElem? hcaller))
  cases hsection : caller.phase.inSection with
  | true =>
    exact .inr ⟨_, step?_eq_some_iff.mpr (.acquire hcaller hfree hplace hsection hpending)⟩
  | false => exact .inl ⟨_, step?_eq_some_iff.mpr (.pass hcaller hsection hplace h)⟩

/-- In no state that is reached does a caller wait for the lock of a key while it holds the global
lock: whoever holds this one can go on with its section. In every such state with a caller that has
not returned from all of its calls, such a caller can act, whatever results the computations end
with. -/
theorem Reaches.never_stuck (h : Reaches (ofCalls calls) s) :
    (∀ i, s.owner = some i → ¬ s.AwaitsKeyLock i ∧
      ((∃ after, s.step? (.perform (.step i)) = some after) ∨
        ∃ after, s.step? (.release i) = some after)) ∧
      ∀ result : Nat → Except ε α, (∃ i, s.Unfinished i) →
        ∃ act after, s.Unfinished act.caller ∧ act.Follows result ∧ s.step? act = some after := by
  have horderly := h.orderly
  have hwf : s.system.WellFormed := h.system.wellFormed
  refine ⟨fun i howner => ?_, ?_⟩
  · have hplace : s.place i ≠ .outside := (horderly.owner i).mp howner
    exact ⟨fun hawaits => hplace hawaits.1, horderly.exists_step_of_inside hplace⟩
  rintro result ⟨i, hunfinished⟩
  cases howner : s.owner with
  | some j =>
    have hplace : s.place j ≠ .outside := (horderly.owner j).mp howner
    rcases horderly.exists_step_of_inside hplace with ⟨after, hwork⟩ | ⟨after, hrelease⟩
    · exact ⟨.perform (.step j), after, .inl hplace, trivial, hwork⟩
    · exact ⟨.release j, after, .inl hplace, trivial, hrelease⟩
  | none =>
    have houtside := horderly.outside howner
    obtain ⟨caller, hcaller, hpending⟩ := hunfinished.resolve_left fun hi => hi (houtside i)
    obtain ⟨event, system, hfollows, hevent⟩ :=
      System.exists_step hcaller (.inl hpending) result
    obtain ⟨actor, next, hactor, -, hsteps⟩ := (System.stepsTo_of_step? hwf hevent).caller
    have hactive : s.Unfinished event.caller :=
      .inr ⟨actor, hactor, hsteps.pending_ne_nil (hwf actor (List.mem_of_getElem? hactor))⟩
    rcases exists_step_of_free howner hwf (houtside event.caller) hevent with
      ⟨after, hperform⟩ | ⟨after, hacquire⟩
    · exact ⟨.perform event, after, hactive, hfollows, hperform⟩
    · exact ⟨.acquire event.caller, after, hactive, trivial, hacquire⟩

/-- While one caller holds the lock of a key and wants the global lock, a second one waits for the
lock of the key, and a third one is in a section, the callers are not stuck. -/
theorem Reaches.never_stuck_contended :
    ∃ s : Locked Nat Unit Nat,
      Reaches (ofCalls [[.getOrCompute 7], [.getOrCompute 7], [.clear]]) s ∧
        s.owner = some 2 ∧ ¬ s.AwaitsKeyLock 2 ∧ s.AwaitsKeyLock 1 ∧ s.Unfinished 0 ∧
          ∃ act after, s.Unfinished act.caller ∧ act.Follows (fun _ => .error ()) ∧
            s.step? act = some after := by
  obtain ⟨s, hreaches, howner, hawaits, hunfinished⟩ : ∃ s : Locked Nat Unit Nat,
      Reaches (ofCalls [[.getOrCompute 7], [.getOrCompute 7], [.clear]]) s ∧
        s.owner = some 2 ∧ s.AwaitsKeyLock 1 ∧ s.Unfinished 0 := by
    have hfirst : Reaches (ofCalls [[.getOrCompute 7], [.getOrCompute 7], [.clear]] :
        Locked Nat Unit Nat) _ :=
      .step (.release 0) (.step (.perform (.step 0)) (.step (.acquire 0) (.refl _) rfl) rfl) rfl
    have hsecond : Reaches _ _ :=
      .step (.release 1) (.step (.perform (.step 1)) (.step (.acquire 1) hfirst rfl) rfl) rfl
    have hthird : Reaches _ _ := .step (.acquire 2) (.step (.perform (.step 0)) hsecond rfl) rfl
    exact ⟨_, hthird, rfl, ⟨rfl, _, 7, 0, rfl, rfl⟩,
      .inr ⟨⟨[.getOrCompute 7], .holding 7 0, []⟩, rfl, List.cons_ne_nil _ _⟩⟩
  obtain ⟨hordered, hprogress⟩ := Reaches.never_stuck hreaches
  exact ⟨s, hreaches, howner, (hordered 2 howner).1, hawaits, hunfinished,
    hprogress (fun _ => .error ()) ⟨0, hunfinished⟩⟩

end Locked

end KotlinNullability.Cache
