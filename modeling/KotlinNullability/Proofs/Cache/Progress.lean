import KotlinNullability.Proofs.Cache.Run

/-!
# Progress of concurrent callers

As long as a call has not returned, some event is possible: whoever holds a lock can go on, and
where nobody holds one, whoever waits can take it. Every event brings its caller nearer to the end
of its calls, so a run comes to an end however its events are chosen, and then every call has
returned.
-/

namespace KotlinNullability.Cache

variable {κ ε α : Type} [DecidableEq κ]

/-- How far a caller is inside its call. -/
def Phase.rank : Phase κ ε α → Nat
  | idle => 0
  | waiting .. => 1
  | holding .. => 2
  | computing .. => 3
  | publishing .. => 4
  | releasing .. => 5
  | leaving .. => 6

/-- A bound for the steps that a caller has yet to make. -/
def Caller.work (caller : Caller κ ε α) : Nat := 7 * caller.pending.length - caller.phase.rank

omit [DecidableEq κ] in
theorem Phase.rank_le (phase : Phase κ ε α) : phase.rank ≤ 6 := by
  cases phase <;> simp [rank]

/-- Inside a call, a caller only gets further. -/
theorem Phase.Moves.rank_lt {free : Nat → Prop} {c d : Cache κ α} {phase next : Phase κ ε α}
    (h : phase.Moves free c d next) : phase.rank < next.rank := by
  cases h <;> simp [rank]

/-- A move is made inside a call only. -/
theorem Phase.Moves.registered {free : Nat → Prop} {c d : Cache κ α} {phase next : Phase κ ε α}
    (h : phase.Moves free c d next) : ∃ key token, phase.registered? = some (key, token) := by
  cases h <;> exact ⟨_, _, rfl⟩

/-- A caller that makes a step is in a call or has one before it. -/
theorem Caller.Steps.pending_ne_nil {free : Nat → Prop} {c d : Cache κ α}
    {caller next : Caller κ ε α} (h : caller.Steps free c d next) (hwf : caller.WellFormed) :
    caller.pending ≠ [] := by
  cases h with
  | move hmove =>
    obtain ⟨key, token, hregistered⟩ := hmove.registered
    obtain ⟨rest, hpending⟩ := List.head?_eq_some_iff.mp (hwf key token hregistered)
    exact List.ne_nil_of_mem (hpending ▸ List.mem_cons_self)
  | _ => exact List.cons_ne_nil _ _

/-- Every step leaves less to do. -/
theorem Caller.Steps.work_lt {free : Nat → Prop} {c d : Cache κ α} {caller next : Caller κ ε α}
    (h : caller.Steps free c d next) (hwf : caller.WellFormed) : next.work < caller.work := by
  cases h with
  | answer =>
    simp only [work, Phase.rank, List.length_cons]
    omega
  | register =>
    simp only [work, Phase.rank, List.length_cons]
    omega
  | @move phase next pending d returned hmove =>
    obtain ⟨key, token, hregistered⟩ := hmove.registered
    obtain ⟨rest, hpending⟩ := List.head?_eq_some_iff.mp (hwf key token hregistered)
    have hpending : pending = .getOrCompute key :: rest := hpending
    have hrank := hmove.rank_lt
    have hbound := next.rank_le
    simp only [work, hpending, List.length_cons]
    omega
  | leave =>
    simp only [work, Phase.rank, List.length_cons]
    omega

/-- A bound for the steps that some callers have yet to make. -/
def workOf : List (Caller κ ε α) → Nat
  | [] => 0
  | caller :: callers => caller.work + workOf callers

omit [DecidableEq κ] in
/-- Some callers have less to do when one of them is replaced by one that has less to do. -/
theorem workOf_set_lt {callers : List (Caller κ ε α)} {i : Nat} {caller next : Caller κ ε α}
    (h : callers[i]? = some caller) (hlt : next.work < caller.work) :
    workOf (callers.set i next) < workOf callers := by
  induction callers generalizing i with
  | nil => simp at h
  | cons head tail ih =>
    cases i with
    | zero =>
      cases h
      exact Nat.add_lt_add_right hlt _
    | succ i => exact Nat.add_lt_add_left (ih h) _

omit [DecidableEq κ] in
/-- Before it begins, a call has at most seven steps. -/
theorem workOf_ofCalls (calls : List (List (Call κ α))) :
    workOf (System.ofCalls calls : System κ ε α).callers = 7 * calls.flatten.length := by
  induction calls with
  | nil => rfl
  | cons pending calls ih =>
    have hfirst : workOf (System.ofCalls (pending :: calls) : System κ ε α).callers =
        7 * pending.length + workOf (System.ofCalls calls : System κ ε α).callers := rfl
    rw [hfirst, ih, List.flatten_cons, List.length_append, Nat.mul_add]

/-- An event that ends a computation ends it with the result that is given for its caller. -/
def Event.Follows (result : Nat → Except ε α) : Event ε α → Prop
  | step _ => True
  | finish i ended => ended = result i

namespace System

/-- No event is possible. -/
def Over (s : System κ ε α) : Prop := ∀ event, s.step? event = none

variable {s after : System κ ε α} {i : Nat} {caller : Caller κ ε α}

/-- Every step leaves less to do for all callers. -/
theorem StepsTo.workOf_lt (h : s.StepsTo i after) (hwf : s.WellFormed) :
    workOf after.callers < workOf s.callers := by
  obtain ⟨caller, next, hcaller, hcallers, hsteps⟩ := h
  rw [hcallers]
  exact workOf_set_lt hcaller (hsteps.work_lt (hwf caller (List.mem_of_getElem? hcaller)))

theorem step?_step (hcaller : s.callers[i]? = some caller) :
    s.step? (.step i) = s.stepOf? i caller := by
  rw [step?, hcaller, Option.bind_some]

/-- A caller that holds a lock can go on, at least by ending its computation with whatever result. -/
theorem exists_step_of_held (hcaller : s.callers[i]? = some caller) {token : Nat}
    (hheld : caller.phase.held? = some token) (result : Nat → Except ε α) :
    ∃ event after, event.Follows result ∧ s.step? event = some after := by
  obtain ⟨pending, phase, returned⟩ := caller
  cases phase with
  | idle => cases hheld
  | waiting => cases hheld
  | leaving => cases hheld
  | holding key t =>
    refine ⟨.step i, ?_⟩
    rw [step?_step hcaller, stepOf?]
    dsimp only
    split <;> exact ⟨_, trivial, rfl⟩
  | computing key t =>
    refine ⟨.finish i (result i), ?_⟩
    rw [step?, hcaller, Option.bind_some]
    cases hresult : result i <;> exact ⟨_, hresult.symm, rfl⟩
  | publishing key t value => exact ⟨.step i, _, trivial, step?_step hcaller⟩
  | releasing key t ended => exact ⟨.step i, _, trivial, step?_step hcaller⟩

/-- As long as a caller is in a call or has one before it, some event is possible, whatever results
the computations end with. -/
theorem exists_step (hcaller : s.callers[i]? = some caller)
    (hunfinished : caller.pending ≠ [] ∨ caller.phase ≠ .idle) (result : Nat → Except ε α) :
    ∃ event after, event.Follows result ∧ s.step? event = some after := by
  by_cases hholder : ∃ (j : Nat) (holder : Caller κ ε α) (token : Nat),
      s.callers[j]? = some holder ∧ holder.phase.held? = some token
  · obtain ⟨j, holder, token, hholder, hheld⟩ := hholder
    exact exists_step_of_held hholder hheld result
  · have hfree (token : Nat) : s.isFree token = true := by
      refine List.all_eq_true.mpr fun other hother => bne_iff_ne.mpr fun hheld => ?_
      obtain ⟨j, hj⟩ := List.getElem?_of_mem hother
      exact hholder ⟨j, other, token, hj, hheld⟩
    have hnot (token : Nat) : caller.phase.held? ≠ some token :=
      fun hheld => hholder ⟨i, caller, token, hcaller, hheld⟩
    obtain ⟨pending, phase, returned⟩ := caller
    refine ⟨.step i, ?_⟩
    rw [step?_step hcaller]
    cases phase with
    | idle =>
      cases pending with
      | nil => rcases hunfinished with h | h <;> exact absurd rfl h
      | cons call pending => exact ⟨_, trivial, rfl⟩
    | waiting key token => exact ⟨_, trivial, if_pos (hfree token)⟩
    | leaving key token ended => exact ⟨_, trivial, rfl⟩
    | holding key token => exact absurd rfl (hnot token)
    | computing key token => exact absurd rfl (hnot token)
    | publishing key token value => exact absurd rfl (hnot token)
    | releasing key token ended => exact absurd rfl (hnot token)

/-- When no event is possible, every call has returned. -/
theorem Over.finished (h : s.Over) (hcaller : s.callers[i]? = some caller) (result : Except ε α) :
    caller.pending = [] ∧ caller.phase = .idle := by
  have hfinished : ¬ (caller.pending ≠ [] ∨ caller.phase ≠ .idle) := by
    intro hunfinished
    obtain ⟨event, after, -, hstep⟩ := exists_step hcaller hunfinished fun _ => result
    rw [h event] at hstep
    cases hstep
  simpa only [not_or, Classical.not_not] using hfinished

end System

namespace Run

variable {r : Run κ ε α} {m n : Nat}

/-- The work that remains goes down with the run. -/
theorem add_workOf_le (hm : m ≤ r.length) :
    m + workOf (r.state m).callers ≤ workOf (r.state 0).callers := by
  induction m with
  | zero => exact Nat.le_of_eq (Nat.zero_add _)
  | succ m ih =>
    have hless := (stepsTo hm).workOf_lt (wellFormed (Nat.le_of_lt hm))
    have hbefore := ih (Nat.le_of_lt hm)
    omega

/-- A run has at most seven events for every call. -/
theorem length_le (r : Run κ ε α) : r.length ≤ 7 * r.calls.flatten.length := by
  have hwork := add_workOf_le (Nat.le_refl r.length)
  rw [r.start, workOf_ofCalls] at hwork
  omega

/-- What a caller between calls does is no end of a computation. -/
theorem event_eq_step {i : Nat} {caller : Caller κ ε α} (hn : n < r.length)
    (hi : (r.event n).caller = i) (hcaller : (r.state n).callers[i]? = some caller)
    (hidle : caller.phase = .idle) : r.event n = .step i := by
  have hstep := r.follows n hn
  cases hevent : r.event n with
  | step j =>
    rw [hevent] at hi
    rw [← hi, Event.caller]
  | finish j result =>
    rw [hevent] at hi hstep
    have hi : j = i := hi
    rw [hi, System.step?, hcaller, Option.bind_some, hidle] at hstep
    cases hstep

section Call

variable {i : Nat} {call : Call κ α} {pending : List (Call κ α)} {phase : Phase κ ε α}
  {returned : List (Call κ α × Reply ε α)}

/-- A caller that is registered on a lock has begun its call with a step of its own. -/
theorem begins (hn : n ≤ r.length)
    (hinside : (r.state n).callers[i]? = some ⟨call :: pending, phase, returned⟩)
    (hphase : phase ≠ .idle) :
    ∃ first, first ≤ n ∧ r.event first = .step i ∧
      (r.state first).callers[i]? = some ⟨call :: pending, .idle, returned⟩ := by
  induction n generalizing phase with
  | zero =>
    rw [r.start] at hinside
    obtain ⟨_, -, hfresh⟩ := List.mem_map.mp (List.mem_of_getElem? hinside)
    cases hfresh
    exact absurd rfl hphase
  | succ n ih =>
    have hbefore : n ≤ r.length := Nat.le_of_lt hn
    have hstep := stepsTo (r := r) hn
    by_cases hi : i = (r.event n).caller
    · obtain ⟨caller, next, hcaller, hnext, hsteps⟩ := hstep.caller
      rw [← hi] at hcaller hnext
      rw [hinside] at hnext
      cases hnext
      obtain ⟨before, rfl⟩ := hsteps.of_inside hphase
      by_cases hidle : before = .idle
      · subst hidle
        exact ⟨n, Nat.le_succ n, event_eq_step hn hi.symm hcaller rfl, hcaller⟩
      · obtain ⟨first, hfirst, hevent, hbegun⟩ := ih hbefore hcaller hidle
        exact ⟨first, Nat.le_succ_of_le hfirst, hevent, hbegun⟩
    · rw [hstep.getElem?_of_ne hi] at hinside
      obtain ⟨first, hfirst, hevent, hidle⟩ := ih hbefore hinside hphase
      exact ⟨first, Nat.le_succ_of_le hfirst, hevent, hidle⟩

/-- When a run is over, every call that was in progress in it has been served. -/
theorem exists_serves (hn : n ≤ r.length) (hover : (r.state r.length).Over) (result : Except ε α)
    (hinside : (r.state n).callers[i]? = some ⟨call :: pending, phase, returned⟩)
    (hphase : phase ≠ .idle) :
    ∃ reply first last, r.Serves i call reply first last ∧ first ≤ n ∧ n ≤ last := by
  obtain ⟨first, hfirst, hevent, hidle⟩ := begins hn hinside hphase
  rcases inside_or_over hn (Nat.le_refl _) hinside with
    ⟨phase, hlast⟩ | ⟨last, reply, hle, hlt, hlast, hreturned⟩
  · cases (hover.finished hlast result).1
  · have hserves : r.Serves i call reply first last :=
      ⟨Nat.le_trans hfirst hle, hlt, hevent, pending, returned, hidle, hlast, hreturned⟩
    exact ⟨reply, first, last, hserves, hfirst, hle⟩

end Call

end Run

end KotlinNullability.Cache
