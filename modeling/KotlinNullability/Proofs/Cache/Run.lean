import KotlinNullability.Cache.Race
import KotlinNullability.Proofs.Cache.Step

/-!
# Runs of concurrent callers

A run starts with a fresh cache and callers with calls before them, and goes on by events, in any
order. A call is served from the event with which it begins to the event with which it returns; in
between the caller is inside the call, whatever the others do. A stretch of a run without clearing
is one in which no event clears the cache.
-/

namespace KotlinNullability.Cache

variable {κ ε α : Type} [DecidableEq κ]

/-- The key that a call is about. -/
def Call.key? : Call κ α → Option κ
  | get key | put key _ | getOrCompute key | contains key => some key
  | clear | stats | size => none

/-- The value that a call returns. -/
def Reply.value? : Reply ε α → Option α
  | looked value => value
  | stored value | outcome (.ok value) => some value
  | outcome (.error _) | present _ | cleared | counted _ | sized _ => none

/-- Whether an event clears the cache. -/
def System.clears (s : System κ ε α) (event : Event ε α) : Bool :=
  s.callers[event.caller]?.any Caller.isClearing

/-- A run: its states, and the events that lead from each to the next. -/
structure Run (κ ε α : Type) [DecidableEq κ] where
  calls : List (List (Call κ α))
  length : Nat
  state : Nat → System κ ε α
  event : Nat → Event ε α
  start : state 0 = .ofCalls calls
  follows : ∀ m < length, (state m).step? (event m) = some (state (m + 1))

/-- Whether some events are possible one after the other. -/
def System.allows (s : System κ ε α) : List (Event ε α) → Bool
  | [] => true
  | event :: events =>
    match s.step? event with
    | some after => after.allows events
    | none => false

/-- Events that are possible lead from each state to the next. -/
theorem System.step?_of_allows {s : System κ ε α} {events : List (Event ε α)}
    (h : s.allows events = true) {m : Nat} (hm : m < events.length) :
    ((events.take m).foldl System.apply s).step? (events.getD m (.step 0)) =
      some ((events.take (m + 1)).foldl System.apply s) := by
  induction events generalizing s m with
  | nil => cases hm
  | cons event events ih =>
    rw [allows] at h
    cases hstep : s.step? event with
    | none =>
      rw [hstep] at h
      cases h
    | some after =>
      rw [hstep] at h
      have happly : s.apply event = after := by rw [System.apply, hstep, Option.getD_some]
      cases m with
      | zero => simp [hstep, happly]
      | succ m =>
        have hrest := ih h (Nat.lt_of_succ_lt_succ hm)
        rwa [List.take_succ_cons, List.take_succ_cons, List.foldl_cons, List.foldl_cons, happly,
          List.getD_cons_succ]

/-- The run of some events that are possible one after the other. -/
def Run.ofEvents (calls : List (List (Call κ α))) (events : List (Event ε α))
    (h : (System.ofCalls calls : System κ ε α).allows events = true) : Run κ ε α where
  calls
  length := events.length
  state m := (events.take m).foldl System.apply (.ofCalls calls)
  event m := events.getD m (.step 0)
  start := rfl
  follows _ hm := System.step?_of_allows h hm

namespace Run

variable {r : Run κ ε α} {m n : Nat}

/-- Every state of a run can be reached. -/
theorem reaches (hm : m ≤ r.length) : System.Reaches (.ofCalls r.calls) (r.state m) := by
  induction m with
  | zero =>
    rw [r.start]
    exact .refl _
  | succ m ih => exact .step (r.event m) (ih (Nat.le_of_succ_le hm)) (r.follows m hm)

theorem wellFormed (hm : m ≤ r.length) : (r.state m).WellFormed :=
  (reaches hm).wellFormed

/-- Every event of a run is a step of the caller that it names. -/
theorem stepsTo (hm : m < r.length) : (r.state m).StepsTo (r.event m).caller (r.state (m + 1)) :=
  System.stepsTo_of_step? (wellFormed (Nat.le_of_lt hm)) (r.follows m hm)

/-- From one moment of the run to another, nothing clears the cache. -/
def ClearFree (r : Run κ ε α) (lo hi : Nat) : Prop :=
  ∀ m, lo ≤ m → m < hi → (r.state m).clears (r.event m) = false

/-- In a stretch without clearing, values stay. -/
theorem find?_stays {lo hi : Nat} (hclear : r.ClearFree lo hi) (hhi : hi ≤ r.length) {key : κ}
    {value : α} (hlo : lo ≤ m) (hmn : m ≤ n) (hn : n ≤ hi)
    (h : (r.state m).cache.find? key = some value) : (r.state n).cache.find? key = some value := by
  induction hmn with
  | refl => exact h
  | @step n hmn ih =>
    have hnow := hclear n (Nat.le_trans hlo hmn) hn
    obtain ⟨caller, next, hcaller, -, hsteps⟩ := (stepsTo (Nat.lt_of_lt_of_le hn hhi)).caller
    rw [System.clears, hcaller, Option.any_some] at hnow
    exact hsteps.find?_of_some hnow (ih (Nat.le_of_succ_le hn))

/-- In a stretch without clearing, a key has one value. -/
theorem find?_unique {lo hi : Nat} (hclear : r.ClearFree lo hi) (hhi : hi ≤ r.length) {key : κ}
    {v w : α} (hlom : lo ≤ m) (hmhi : m ≤ hi) (hlon : lo ≤ n) (hnhi : n ≤ hi)
    (hm : (r.state m).cache.find? key = some v) (hn : (r.state n).cache.find? key = some w) :
    v = w := by
  rcases Nat.le_total m n with hmn | hnm
  · have hlater := find?_stays hclear hhi hlom hmn hnhi hm
    exact Option.some.inj (hlater.symm.trans hn)
  · have hlater := find?_stays hclear hhi hlon hnm hmhi hn
    exact Option.some.inj (hm.symm.trans hlater)

/-- The call of a caller begins with one event of the run and returns with another. -/
structure Serves (r : Run κ ε α) (i : Nat) (call : Call κ α) (reply : Reply ε α)
    (first last : Nat) : Prop where
  le : first ≤ last
  lt : last < r.length
  begins : r.event first = .step i
  call : ∃ pending returned,
    (r.state first).callers[i]? = some ⟨call :: pending, .idle, returned⟩ ∧
      (∃ phase, (r.state last).callers[i]? = some ⟨call :: pending, phase, returned⟩) ∧
      (r.state (last + 1)).callers[i]? = some ⟨pending, .idle, returned ++ [(call, reply)]⟩

/-- What a caller has returned stays returned. -/
theorem returned_length_le {i : Nat} {before after : Caller κ ε α} (hmn : m ≤ n) (hn : n ≤ r.length)
    (hbefore : (r.state m).callers[i]? = some before)
    (hafter : (r.state n).callers[i]? = some after) :
    before.returned.length ≤ after.returned.length := by
  induction hmn generalizing after with
  | refl =>
    rw [hbefore] at hafter
    cases hafter
    exact Nat.le_refl _
  | @step n hmn ih =>
    have hstep := stepsTo (r := r) hn
    by_cases hi : i = (r.event n).caller
    · subst hi
      obtain ⟨caller, next, hcaller, hnext, hsteps⟩ := hstep.caller
      rw [hafter] at hnext
      cases hnext
      exact Nat.le_trans (ih (Nat.le_of_succ_le hn) hcaller) hsteps.returned_length_le
    · rw [hstep.getElem?_of_ne hi] at hafter
      exact ih (Nat.le_of_succ_le hn) hafter

section Inside

variable {i : Nat} {call : Call κ α} {pending : List (Call κ α)}
  {returned : List (Call κ α × Reply ε α)}

/-- From a moment inside a call on, the caller is inside it until the call returns. -/
theorem inside_or_over {phase : Phase κ ε α} (hmn : m ≤ n) (hn : n ≤ r.length)
    (hm : (r.state m).callers[i]? = some ⟨call :: pending, phase, returned⟩) :
    (∃ phase, (r.state n).callers[i]? = some ⟨call :: pending, phase, returned⟩) ∨
      ∃ last reply, m ≤ last ∧ last < n ∧
        (∃ phase, (r.state last).callers[i]? = some ⟨call :: pending, phase, returned⟩) ∧
        (r.state (last + 1)).callers[i]? = some ⟨pending, .idle, returned ++ [(call, reply)]⟩ := by
  induction hmn with
  | refl => exact .inl ⟨phase, hm⟩
  | @step n hmn ih =>
    have hstep := stepsTo (r := r) hn
    rcases ih (Nat.le_of_succ_le hn) with ⟨phase, hinside⟩ | ⟨last, reply, hle, hlt, hover⟩
    · by_cases hi : i = (r.event n).caller
      · subst hi
        obtain ⟨caller, next, hcaller, hnext, hsteps⟩ := hstep.caller
        rw [hinside] at hcaller
        cases hcaller
        rcases hsteps.of_call with ⟨reply, rfl, -⟩ | ⟨key, token, rfl, -⟩ | ⟨moved, rfl, -⟩
        · exact .inr ⟨n, reply, hmn, Nat.lt_succ_self n, ⟨phase, hinside⟩, hnext⟩
        · exact .inl ⟨_, hnext⟩
        · exact .inl ⟨_, hnext⟩
      · exact .inl ⟨phase, by rw [hstep.getElem?_of_ne hi, hinside]⟩
    · exact .inr ⟨last, reply, hle, Nat.lt_succ_of_lt hlt, hover⟩

/-- The event with which a call returns is a step of its caller, out of the call. -/
theorem of_over {last : Nat} {phase : Phase κ ε α} {reply : Reply ε α} (hlast : last < r.length)
    (hinside : (r.state last).callers[i]? = some ⟨call :: pending, phase, returned⟩)
    (hover : (r.state (last + 1)).callers[i]? =
      some ⟨pending, .idle, returned ++ [(call, reply)]⟩) :
    phase = .idle ∧ Answers (r.state last).cache call reply (r.state (last + 1)).cache ∨
      ∃ key token result, phase = .leaving key token result ∧ reply = .outcome result := by
  have hstep := stepsTo (r := r) hlast
  have hgrown : returned ≠ returned ++ [(call, reply)] := by simp
  by_cases hi : i = (r.event last).caller
  · obtain ⟨caller, next, hcaller, hnext, hsteps⟩ := hstep.caller
    rw [← hi] at hcaller hnext
    rw [hinside] at hcaller
    rw [hover] at hnext
    cases hcaller
    rcases hsteps.of_call with ⟨answered, rfl, hreturns⟩ | ⟨key, token, rfl, -⟩ | ⟨moved, rfl, -⟩
    · have hreply : reply = answered := by simpa using hnext
      rw [hreply]
      exact hreturns
    · exact absurd (Caller.mk.inj (Option.some.inj hnext)).2.2.symm hgrown
    · exact absurd (Caller.mk.inj (Option.some.inj hnext)).2.2.symm hgrown
  · rw [hstep.getElem?_of_ne hi, hinside] at hover
    exact absurd (Caller.mk.inj (Option.some.inj hover)).2.2 hgrown

/-- At every moment between two moments inside a call the caller is inside it. -/
theorem inside {phase last : Phase κ ε α} {x : Nat} (hmx : m ≤ x) (hxn : x ≤ n) (hn : n ≤ r.length)
    (hm : (r.state m).callers[i]? = some ⟨call :: pending, phase, returned⟩)
    (hlast : (r.state n).callers[i]? = some ⟨call :: pending, last, returned⟩) :
    ∃ phase, (r.state x).callers[i]? = some ⟨call :: pending, phase, returned⟩ := by
  rcases inside_or_over hmx (Nat.le_trans hxn hn) hm with hinside | ⟨ended, reply, -, hlt, -, hover⟩
  · exact hinside
  · have hgrown := returned_length_le (Nat.le_trans hlt hxn) hn hover hlast
    rw [List.length_append, List.length_singleton] at hgrown
    exact absurd hgrown (Nat.not_succ_le_self _)

/-- What holds at a moment inside a call, is kept by what others do, and by the steps of the caller
inside the call, holds as long as the caller is inside the call. -/
theorem inside_induct {P : Nat → Phase κ ε α → Prop} {phase last : Phase κ ε α} (hmn : m ≤ n)
    (hn : n ≤ r.length)
    (hm : (r.state m).callers[i]? = some ⟨call :: pending, phase, returned⟩)
    (hlast : (r.state n).callers[i]? = some ⟨call :: pending, last, returned⟩)
    (hstart : P m phase)
    (hother : ∀ x, m ≤ x → x < n → (r.event x).caller ≠ i → ∀ phase, P x phase → P (x + 1) phase)
    (hregister : ∀ x, m ≤ x → x < n → P x .idle → ∀ key token, call = .getOrCompute key →
      (r.state x).cache.enter key = (.registered token, (r.state (x + 1)).cache) →
        P (x + 1) (.waiting key token))
    (hmove : ∀ x, m ≤ x → x < n → ∀ phase next,
      (r.state x).callers[i]? = some ⟨call :: pending, phase, returned⟩ →
      phase.Moves ((r.state x).isFree · = true) (r.state x).cache (r.state (x + 1)).cache next →
        P x phase → P (x + 1) next) :
    P n last := by
  induction hmn generalizing last with
  | refl =>
    rw [hm] at hlast
    cases hlast
    exact hstart
  | @step n hmn ih =>
    have hbefore : n ≤ r.length := Nat.le_of_succ_le hn
    obtain ⟨phase, hinside⟩ := inside hmn (Nat.le_succ n) hn hm hlast
    have hphase : P n phase :=
      ih hbefore hinside (fun x hx hlt => hother x hx (Nat.lt_succ_of_lt hlt))
        (fun x hx hlt => hregister x hx (Nat.lt_succ_of_lt hlt))
        (fun x hx hlt => hmove x hx (Nat.lt_succ_of_lt hlt))
    have hstep := stepsTo (r := r) hn
    by_cases hi : i = (r.event n).caller
    · obtain ⟨caller, next, hcaller, hnext, hsteps⟩ := hstep.caller
      rw [← hi] at hcaller hnext
      rw [hinside] at hcaller
      rw [hlast] at hnext
      cases hcaller
      rcases hsteps.of_call with ⟨reply, rfl, -⟩ | ⟨key, token, rfl, rfl, hcall, henter⟩ |
        ⟨moved, rfl, hmoves⟩
      · have hreturned := congrArg List.length (Caller.mk.inj (Option.some.inj hnext)).2.2
        rw [List.length_append, List.length_singleton] at hreturned
        exact absurd hreturned (Nat.ne_of_lt (Nat.lt_succ_self _))
      · cases hnext
        exact hregister n hmn (Nat.lt_succ_self n) hphase key token hcall henter
      · cases hnext
        exact hmove n hmn (Nat.lt_succ_self n) phase last hinside hmoves hphase
    · rw [hstep.getElem?_of_ne hi, hinside] at hlast
      cases hlast
      exact hother n hmn (Nat.lt_succ_self n) (Ne.symm hi) _ hphase

end Inside

/-- A call that is served returns with its first step or with a result that its caller leaves
with. -/
theorem Serves.returns {i first last : Nat} {call : Call κ α} {reply : Reply ε α}
    (h : r.Serves i call reply first last) :
    ∃ pending returned phase,
      (r.state first).callers[i]? = some ⟨call :: pending, .idle, returned⟩ ∧
        (r.state last).callers[i]? = some ⟨call :: pending, phase, returned⟩ ∧
          (phase = .idle ∧ Answers (r.state last).cache call reply (r.state (last + 1)).cache ∨
            ∃ key token result, phase = .leaving key token result ∧ reply = .outcome result) := by
  obtain ⟨pending, returned, hfirst, ⟨phase, hlast⟩, hover⟩ := h.call
  exact ⟨pending, returned, phase, hfirst, hlast, of_over h.lt hlast hover⟩

end Run

end KotlinNullability.Cache
