import KotlinNullability.Proofs.Cache.Exclusion

/-!
# Turns of callers that want one value

A caller that wants the value of one key seeks it until it finds it or computes; it has its result
when it has found a value, has published the one that it computed, or has failed. This module says
what a step of such a caller does, to the caller and to the cache, and that a lookup is counted with
the first step and with no other.
-/

namespace KotlinNullability.Cache

variable {κ ε α : Type} [DecidableEq κ]

/-- How far a caller has come that wants a value. -/
inductive Stage (ε α : Type) where
  /-- It has no result and does not compute. -/
  | seeking
  | computing
  /-- It has computed a value and not published it. -/
  | publishing (value : α)
  /-- It has its result, returned or not. -/
  | served (result : Except ε α)

/-- How far a caller has come. -/
def Caller.stage (caller : Caller κ ε α) : Stage ε α :=
  match caller.phase with
  | .computing .. => .computing
  | .publishing _ _ value => .publishing value
  | .releasing _ _ result | .leaving _ _ result => .served result
  | .waiting .. | .holding .. => .seeking
  | .idle =>
    match caller.returned.head? with
    | some (_, .outcome result) => .served result
    | _ => .seeking

/-- The only call of the caller wants the value of the key. -/
def Caller.Seeks (key : κ) (caller : Caller κ ε α) : Prop :=
  caller.pending = [.getOrCompute key] ∧ caller.returned = [] ∨
    caller.phase = .idle ∧ caller.pending = [] ∧
      ∃ result, caller.returned = [(.getOrCompute key, .outcome result)]

/-- Whether the next step of a caller is a lookup that is counted. -/
def Caller.looks (caller : Caller κ ε α) : Bool :=
  match caller.phase, caller.pending with
  | .idle, .get _ :: _ | .idle, .getOrCompute _ :: _ => true
  | _, _ => false

/-- Whether the next step of a caller begins a computation. -/
def Caller.begins (c : Cache κ α) (caller : Caller κ ε α) : Bool :=
  match caller.phase with
  | .holding key _ => (c.find? key).isNone
  | _ => false

omit [DecidableEq κ] in
/-- Inside a call, a caller makes no lookup that is counted. -/
theorem Caller.looks_of_registered? {caller : Caller κ ε α} {lock : κ × Nat}
    (h : caller.phase.registered? = some lock) : caller.looks = false := by
  obtain ⟨pending, phase, returned⟩ := caller
  cases phase with
  | idle => cases h
  | _ => rfl

omit [DecidableEq κ] in
theorem Caller.stage_of_computing? {caller : Caller κ ε α} {key : κ}
    (h : caller.phase.computing? = some key) : caller.stage = .computing := by
  obtain ⟨pending, phase, returned⟩ := caller
  cases phase <;> cases h
  rfl

omit [DecidableEq κ] in
/-- A caller that wants the value of the key registers on the lock of this key only. -/
theorem Caller.Seeks.key_eq {key k : κ} {token : Nat} {caller : Caller κ ε α}
    (h : caller.Seeks key) (hwf : caller.WellFormed)
    (hlock : caller.phase.registered? = some (k, token)) : k = key := by
  obtain ⟨hpending, -⟩ | ⟨hidle, -, -⟩ := h
  · have hcall := hwf k token hlock
    rw [hpending] at hcall
    cases hcall
    rfl
  · rw [hidle] at hlock
    cases hlock

omit [DecidableEq κ] in
/-- A caller that wants the value of the key does not clear the cache. -/
theorem Caller.Seeks.isClearing_eq {key : κ} {caller : Caller κ ε α} (h : caller.Seeks key) :
    caller.isClearing = false := by
  obtain ⟨pending, phase, returned⟩ := caller
  obtain ⟨rfl, -⟩ | ⟨-, rfl, -⟩ := h <;> rfl

omit [DecidableEq κ] in
/-- A caller that wants the value of the key and computes or publishes holds the lock of the key. -/
theorem Caller.Seeks.holder?_eq {key : κ} {caller : Caller κ ε α} (h : caller.Seeks key)
    (hwf : caller.WellFormed)
    (hstage : caller.stage = .computing ∨ ∃ value, caller.stage = .publishing value) :
    caller.phase.holder? = some key := by
  obtain ⟨pending, phase, returned⟩ := caller
  cases phase with
  | computing k token =>
    obtain rfl := h.key_eq hwf rfl
    rfl
  | publishing k token value =>
    obtain rfl := h.key_eq hwf rfl
    rfl
  | idle =>
    obtain ⟨-, hreturned⟩ | ⟨-, -, result, hreturned⟩ := h
    · cases hreturned
      simp [stage] at hstage
    · cases hreturned
      simp [stage] at hstage
  | _ => simp [stage] at hstage

/-- A step counts a lookup if it is one, and no other step but clearing changes the count. -/
theorem Caller.Steps.lookups {free : Nat → Prop} {c d : Cache κ α} {caller next : Caller κ ε α}
    (h : caller.Steps free c d next) (hclear : caller.isClearing = false) :
    d.lookups = c.lookups + if caller.looks then 1 else 0 := by
  cases h with
  | answer hanswer =>
    cases hanswer with
    | get key => exact get_lookups c key
    | put key value => exact put_lookups c key value
    | contains => rfl
    | clear => simp [isClearing] at hclear
    | stats => rfl
    | size => rfl
    | @found key value d henter =>
      have hlookups := enter_lookups c key
      rwa [henter] at hlookups
  | @register key token pending d returned henter =>
    have hlookups := enter_lookups c key
    rwa [henter] at hlookups
  | move hmove =>
    obtain ⟨key, token, hregistered⟩ := hmove.registered
    rw [Caller.looks_of_registered? hregistered]
    cases hmove with
    | publish => exact publish_lookups c _ _
    | _ => rfl
  | leave =>
    rw [Caller.looks_of_registered? rfl]
    exact leave_lookups c _ _

namespace System

variable {s after : System κ ε α} {key : κ}

/-- Nothing is published, and no computation begins or is counted. -/
structure Still (s after : System κ ε α) : Prop where
  entries : after.cache.entries = s.cache.entries
  computations : after.cache.computations = s.cache.computations
  runs : after.runs = s.runs

/-- What a step does that takes a caller from stage to stage on its way to the value of the key. -/
inductive Turn (key : κ) (s after : System κ ε α) (event : Event ε α) :
    Stage ε α → Stage ε α → Prop where
  /-- The caller comes no further. -/
  | rest (stage : Stage ε α) (h : s.Still after) : Turn key s after event stage stage
  /-- It has the lock of the key, finds no value, and computes. -/
  | compute {caller : Caller κ ε α} {token : Nat}
    (hcaller : s.callers[event.caller]? = some caller)
    (hphase : caller.phase = .holding key token) (hnone : s.cache.find? key = none)
    (hcache : after.cache = s.cache) (hruns : after.runs = s.runs + 1) :
    Turn key s after event .seeking .computing
  | fail {e : ε} (hevent : event = .finish event.caller (.error e)) (h : s.Still after) :
    Turn key s after event .computing (.served (.error e))
  | succeed {value : α} (hevent : event = .finish event.caller (.ok value)) (h : s.Still after) :
    Turn key s after event .computing (.publishing value)
  | publish {value : α} (hcache : after.cache = (s.cache.publish key value).2)
    (hruns : after.runs = s.runs) :
    Turn key s after event (.publishing value) (.served (.ok (s.cache.publish key value).1))
  | find {value : α} (hfind : s.cache.find? key = some value) (h : s.Still after) :
    Turn key s after event .seeking (.served (.ok value))

omit [DecidableEq κ] in
@[simp] theorem goTo_runs (s : System κ ε α) (i : Nat) (caller : Caller κ ε α)
    (phase : Phase κ ε α) : (s.goTo i caller phase).runs = s.runs := rfl

omit [DecidableEq κ] in
@[simp] theorem reply_runs (s : System κ ε α) (i : Nat) (caller : Caller κ ε α)
    (reply : Reply ε α) : (s.reply i caller reply).runs = s.runs := by
  unfold System.reply
  cases caller.pending <;> rfl

@[simp] theorem start_runs (s : System κ ε α) (i : Nat) (caller : Caller κ ε α) (call : Call κ α) :
    (s.start i caller call).runs = s.runs := by
  cases call with
  | getOrCompute key =>
    rw [start]
    cases s.cache.enter key with
    | mk entry d => cases entry <;> simp
  | _ => simp [start]

/-- A step counts a computation as started if it begins one. -/
theorem runs_of_step? {event : Event ε α} (h : s.step? event = some after) {caller : Caller κ ε α}
    (hcaller : s.callers[event.caller]? = some caller) :
    after.runs = s.runs + if caller.begins s.cache then 1 else 0 := by
  obtain ⟨pending, phase, returned⟩ := caller
  cases event with
  | finish i result =>
    have hcaller : s.callers[i]? = _ := hcaller
    rw [step?, hcaller, Option.bind_some] at h
    dsimp only at h
    split at h <;> cases h <;> rfl
  | step i =>
    have hcaller : s.callers[i]? = _ := hcaller
    rw [step?_step hcaller] at h
    cases phase with
    | idle =>
      obtain ⟨call, -, rfl⟩ := Option.map_eq_some_iff.mp h
      simp [Caller.begins]
    | waiting key token =>
      obtain ⟨-, hafter⟩ := Option.ite_none_right_eq_some.mp h
      cases hafter
      rfl
    | holding key token =>
      rw [stepOf?] at h
      dsimp only at h
      split at h
      · next value hfind =>
        cases h
        simp [Caller.begins, hfind]
      · next hfind =>
        cases h
        simp [Caller.begins, hfind]
    | computing key token => cases h
    | publishing key token value =>
      cases h
      rfl
    | releasing key token result =>
      cases h
      rfl
    | leaving key token result =>
      cases h
      simp [Caller.begins]

/-- The only step of a caller that computes ends its computation. -/
theorem finish_of_computing {event : Event ε α} (h : s.step? event = some after)
    {caller : Caller κ ε α} {key : κ} {token : Nat}
    (hcaller : s.callers[event.caller]? = some caller)
    (hphase : caller.phase = .computing key token) :
    ∃ result, event = .finish event.caller result ∧
      after = s.goTo event.caller caller (match result with
        | .ok value => .publishing key token value
        | .error e => .releasing key token (.error e)) := by
  cases event with
  | step i =>
    have hcaller : s.callers[i]? = _ := hcaller
    rw [step?_step hcaller, stepOf?, hphase] at h
    cases h
  | finish i result =>
    have hcaller : s.callers[i]? = _ := hcaller
    refine ⟨result, rfl, ?_⟩
    rw [step?, hcaller, Option.bind_some, hphase] at h
    cases result <;> cases h <;> rfl

/-- A step inside its call takes a caller that wants the value of the key a turn further. -/
theorem turn_of_moves {event : Event ε α} {free : Nat → Prop} (h : s.step? event = some after)
    {pending : List (Call κ α)} {phase next : Phase κ ε α}
    {returned : List (Call κ α × Reply ε α)}
    (hcaller : s.callers[event.caller]? = some ⟨pending, phase, returned⟩)
    (hcallers : after.callers = s.callers.set event.caller ⟨pending, next, returned⟩)
    (hmove : phase.Moves free s.cache after.cache next) {token : Nat}
    (hlock : phase.registered? = some (key, token)) :
    Turn key s after event (Caller.stage ⟨pending, phase, returned⟩)
      (Caller.stage ⟨pending, next, returned⟩) := by
  have hruns := runs_of_step? h hcaller
  have hlength : event.caller < s.callers.length := (List.getElem?_eq_some_iff.mp hcaller).1
  -- What a computation ends with is what the event says.
  have hfinish {token : Nat} (hphase : phase = .computing key token) :
      ∃ result, event = .finish event.caller result ∧ next = (match result with
        | .ok value => .publishing key token value
        | .error e => .releasing key token (.error e)) := by
    obtain ⟨result, hevent, hafter⟩ := finish_of_computing h hcaller hphase
    refine ⟨result, hevent, ?_⟩
    have hset := congrArg (fun system => system.callers[event.caller]?) hafter
    rw [hcallers, List.getElem?_set_self hlength] at hset
    have hnext := hset.trans (List.getElem?_set_self hlength)
    exact congrArg Caller.phase (Option.some.inj hnext)
  generalize hd : after.cache = d at hmove
  have hstill (hcache : d = s.cache) (hruns : after.runs = s.runs) : s.Still after :=
    ⟨by rw [hd, hcache], by rw [hd, hcache], hruns⟩
  cases hmove with
  | acquire => exact .rest _ (hstill rfl hruns)
  | release => exact .rest _ (hstill rfl hruns)
  | look hfind =>
    cases hlock
    refine .find hfind (hstill rfl ?_)
    simpa [Caller.begins, hfind] using hruns
  | compute hnone =>
    cases hlock
    refine .compute hcaller rfl hnone hd ?_
    simpa [Caller.begins, hnone] using hruns
  | succeed value =>
    cases hlock
    obtain ⟨result, hevent, hnext⟩ := hfinish rfl
    cases result <;> cases hnext
    exact .succeed hevent (hstill rfl hruns)
  | fail e =>
    cases hlock
    obtain ⟨result, hevent, hnext⟩ := hfinish rfl
    cases result <;> cases hnext
    exact .fail hevent (hstill rfl hruns)
  | publish =>
    cases hlock
    exact .publish hd hruns

/-- A step of a caller that wants the value of the key takes it a turn further. -/
theorem turn_of_step? {event : Event ε α} (hwf : s.WellFormed) (h : s.step? event = some after)
    {caller : Caller κ ε α} (hcaller : s.callers[event.caller]? = some caller)
    (hseeks : caller.Seeks key) :
    ∃ next, after.callers = s.callers.set event.caller next ∧ next.Seeks key ∧
      next.looks = false ∧ Turn key s after event caller.stage next.stage := by
  obtain ⟨stepping, next, hstepping, hcallers, hsteps⟩ := stepsTo_of_step? hwf h
  rw [hcaller] at hstepping
  cases hstepping
  have hruns := runs_of_step? h hcaller
  have hlock := hwf caller (List.mem_of_getElem? hcaller)
  refine ⟨next, hcallers, ?_⟩
  generalize hd : after.cache = d at hsteps
  cases hsteps with
  | answer hanswer =>
    obtain ⟨hpending, rfl⟩ | ⟨-, hpending, -⟩ := hseeks <;> cases hpending
    cases hanswer with
    | found henter =>
      have hentries := enter_entries s.cache key
      have hcomputations := enter_computations s.cache key
      rw [henter] at hentries hcomputations
      exact ⟨.inr ⟨rfl, rfl, _, rfl⟩, rfl, .find (find?_of_enter_found henter)
        ⟨by rw [hd, hentries], by rw [hd, hcomputations], hruns⟩⟩
  | @register k token pending d returned henter =>
    obtain ⟨hpending, rfl⟩ | ⟨-, hpending, -⟩ := hseeks <;> cases hpending
    have hentries := enter_entries s.cache key
    have hcomputations := enter_computations s.cache key
    rw [henter] at hentries hcomputations
    exact ⟨.inl ⟨rfl, rfl⟩, rfl, .rest _
      ⟨by rw [hd, hentries], by rw [hd, hcomputations], hruns⟩⟩
  | @move phase next pending d returned hmove =>
    obtain ⟨k, token, hregistered⟩ := hmove.registered
    obtain rfl := hseeks.key_eq hlock hregistered
    have hnext : next.registered? = some (k, token) := hmove.registered?_eq.trans hregistered
    refine ⟨?_, Caller.looks_of_registered? hnext,
      turn_of_moves h hcaller hcallers (hd ▸ hmove) hregistered⟩
    obtain hbegun | ⟨hidle, -, -⟩ := hseeks
    · exact .inl hbegun
    · have hidle : phase = .idle := hidle
      rw [hidle] at hregistered
      cases hregistered
  | leave =>
    obtain ⟨hpending, rfl⟩ | ⟨hidle, -, -⟩ := hseeks
    · cases hpending
      exact ⟨.inr ⟨rfl, rfl, _, rfl⟩, rfl, .rest _
        ⟨by rw [hd, leave_entries], by rw [hd, leave_computations], hruns⟩⟩
    · cases hidle

end System

end KotlinNullability.Cache
