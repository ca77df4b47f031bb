import KotlinNullability.Proofs.Cache.OneComputation
import KotlinNullability.Proofs.Cache.Racing
import Mathlib.Tactic.IntervalCases

/-!
# The outcome of a race for one key

A race for a key that nobody else touches ends as the number of failing computations says, in
whatever order the callers go on. A value that another caller puts for the key while the first
computation is in progress overtakes the race: nobody else computes, and whoever does not fail gets
the value that was put.
-/

namespace KotlinNullability.Cache

variable {κ ε α : Type} [DecidableEq κ]

namespace Stage

/-- Where the caller may be that was computing when the value was put: its computation ends with
the result, and it is served with the error or with the value that was put. -/
def Leads (result : Except ε α) (w : α) : Stage ε α → Prop
  | seeking => False
  | computing => True
  | publishing value => result = .ok value
  | served got => got = result.map fun _ => w

/-- Where the other callers may be. -/
def Follows (w : α) : Stage ε α → Prop
  | seeking => True
  | computing | publishing _ => False
  | served got => got = .ok w

end Stage

namespace System

variable {s after : System κ ε α} {key : κ}

/-- The value was put for the key while one caller, the leader, computed. -/
structure Overtaken (key : κ) (result : Except ε α) (w : α) (racers leader : Nat)
    (s : System κ ε α) : Prop where
  seeks : ∀ j < racers, ∀ caller, s.callers[j]? = some caller → caller.Seeks key
  value : s.cache.find? key = some w
  runs : s.runs = 1
  leads : ∀ caller, s.callers[leader]? = some caller → caller.stage.Leads result w
  follows : ∀ j < racers, j ≠ leader → ∀ caller, s.callers[j]? = some caller →
    caller.stage.Follows w

/-- When the key has a value, a turn keeps it and begins no computation, and it takes a caller only
to where it may be. -/
theorem Turn.overtaken {event : Event ε α} {stage next : Stage ε α} {result : Except ε α} {w : α}
    (h : Turn key s after event stage next) (hvalue : s.cache.find? key = some w)
    (hends : ∀ ended, event = .finish event.caller ended → ended = result) :
    after.cache.find? key = some w ∧ after.runs = s.runs ∧
      (stage.Leads result w → next.Leads result w) ∧ (stage.Follows w → next.Follows w) := by
  have hstays (hstill : s.Still after) : after.cache.find? key = some w := by
    rw [find?, hstill.entries]
    exact hvalue
  cases h with
  | rest stage hstill => exact ⟨hstays hstill, hstill.runs, id, id⟩
  | compute _ _ hnone =>
    rw [hvalue] at hnone
    cases hnone
  | fail hevent hstill =>
    refine ⟨hstays hstill, hstill.runs, fun _ => ?_, False.elim⟩
    rw [← hends _ hevent]
    rfl
  | succeed hevent hstill =>
    exact ⟨hstays hstill, hstill.runs, fun _ => (hends _ hevent).symm, False.elim⟩
  | @publish value hcache hruns =>
    have hafter := find?_publish_of_some key value hvalue
    have hself := find?_publish_self s.cache key value
    rw [hafter] at hself
    refine ⟨hcache ▸ hafter, hruns, fun hleads => ?_, False.elim⟩
    have hresult : result = .ok value := hleads
    rw [hresult, ← Option.some.inj hself]
    rfl
  | find hfind hstill =>
    rw [hvalue] at hfind
    cases hfind
    exact ⟨hstays hstill, hstill.runs, False.elim, fun _ => rfl⟩

namespace Overtaken

variable {result : Except ε α} {w : α} {racers leader : Nat}

/-- A step of a racer keeps the race overtaken, if the computation ends with the result. -/
theorem of_step? (h : s.Overtaken key result w racers leader) (hwf : s.WellFormed)
    {event : Event ε α} (hstep : s.step? event = some after) (hracer : event.caller < racers)
    (hends : ∀ ended, event = .finish event.caller ended → ended = result) :
    after.Overtaken key result w racers leader := by
  have hsteps := stepsTo_of_step? hwf hstep
  obtain ⟨caller, _, hcaller, -, -⟩ := hsteps.caller
  obtain ⟨next, hcallers, hnext, -, hturn⟩ :=
    turn_of_step? hwf hstep hcaller (h.seeks _ hracer caller hcaller)
  obtain ⟨hvalue, hruns, hleads, hfollows⟩ := hturn.overtaken h.value hends
  have hset : after.callers[event.caller]? = some next := by
    rw [hcallers, List.getElem?_set_self (List.getElem?_eq_some_iff.mp hcaller).1]
  -- The caller that makes the step is where it may be, and the others stay where they were.
  have hall {j : Nat} {p : Caller κ ε α → Prop}
      (hbefore : ∀ other, s.callers[j]? = some other → p other)
      (hmoved : j = event.caller → p caller → p next) :
      ∀ other, after.callers[j]? = some other → p other := by
    intro other hother
    by_cases hj : j = event.caller
    · subst hj
      rw [hset] at hother
      cases hother
      exact hmoved rfl (hbefore caller hcaller)
    · rw [hsteps.getElem?_of_ne hj] at hother
      exact hbefore other hother
  exact ⟨fun j hj => hall (h.seeks j hj) fun _ _ => hnext, hvalue, hruns.trans h.runs,
    hall h.leads fun _ => hleads,
    fun j hj hne => hall (h.follows j hj hne) fun _ => hfollows⟩

/-- When all callers have returned, the leader has got what its computation ended with, with the
value that was put for its own, and the others have got the value that was put. -/
theorem resultOf?_eq (h : s.Overtaken key result w racers leader) (hreturned : s.Returned)
    {j : Nat} (hj : j < racers) (hlength : j < s.callers.length) :
    s.resultOf? j = some (if j = leader then result.map fun _ => w else .ok w) := by
  have hcaller := List.getElem?_eq_getElem hlength
  obtain ⟨got, hstage, hgot⟩ := exists_resultOf? hcaller (h.seeks j hj _ hcaller) hreturned
  rw [hgot]
  split
  · next hleader =>
    subst hleader
    have hleads := h.leads _ hcaller
    rw [hstage] at hleads
    exact congrArg some hleads
  · next hleader =>
    have hfollows := h.follows j hj hleader _ hcaller
    rw [hstage] at hfollows
    exact congrArg some hfollows

end Overtaken

/-- While a caller makes the first computation of a race, nothing is published, and the other
racers seek. -/
theorem Racing.of_first {failing racers i : Nat} {e : Nat → ε} {v : α}
    {calls : List (List (Call κ α))} (h : s.Racing key failing e v racers)
    (hreach : Reaches (ofCalls calls) s) (hcomputing : s.Computing i key) (hruns : s.runs = 1) :
    s.cache.entries = [] ∧
      ∀ j < racers, j ≠ i → ∀ caller, s.callers[j]? = some caller → caller.stage = .seeking := by
  obtain ⟨first, hfirst, hcomputes⟩ := hcomputing
  have hmem {j : Nat} {caller : Caller κ ε α} (hcaller : s.callers[j]? = some caller) :
      caller.stage ∈ s.stages :=
    Multiset.mem_coe.mpr (List.mem_map_of_mem (List.mem_of_getElem? hcaller))
  have hthere := hmem hfirst
  rw [Caller.stage_of_computing? hcomputes] at hthere
  obtain ⟨failed, seekers, -, hstages, hentries, -, hstarted⟩ :=
    h.standing.exists_of_computing hthere
  obtain rfl : failed = 0 := by omega
  refine ⟨hentries, fun j hj hne caller hcaller => ?_⟩
  have hother := hmem hcaller
  simp only [hstages, Stage.failures, Multiset.range_zero, Multiset.map_zero, Multiset.add_zero,
    Multiset.mem_cons, Multiset.mem_replicate] at hother
  rcases hother with hcomputing | ⟨-, hseeking⟩
  · have hholder := h.holder?_eq hreach.wellFormed hcaller (.inl hcomputing)
    exact absurd
      (hreach.holder_unique hcaller hfirst hholder (Phase.holder?_of_computing? hcomputes)) hne
  · exact hseeking

/-- A caller whose only call is to put a value does so with its only step. -/
theorem put_of_step? {event : Event ε α} {w : α} {returned : List (Call κ α × Reply ε α)}
    (h : s.step? event = some after)
    (hcaller : s.callers[event.caller]? = some ⟨[.put key w], .idle, returned⟩) :
    after.cache = (s.cache.put key w).2 ∧ after.runs = s.runs ∧
      ∃ returned, after.callers = s.callers.set event.caller ⟨[], .idle, returned⟩ := by
  cases event with
  | finish i result =>
    have hcaller : s.callers[i]? = _ := hcaller
    rw [step?, hcaller] at h
    cases h
  | step i =>
    have hcaller : s.callers[i]? = _ := hcaller
    rw [step?_step hcaller] at h
    cases h
    exact ⟨rfl, rfl, _, rfl⟩

/-- A caller without calls before it makes no step. -/
theorem caller_ne_of_step? {event : Event ε α} (hwf : s.WellFormed) (h : s.step? event = some after)
    {i : Nat} {returned : List (Call κ α × Reply ε α)}
    (hcaller : s.callers[i]? = some ⟨[], .idle, returned⟩) : event.caller ≠ i := by
  rintro rfl
  obtain ⟨caller, next, hstepping, -, hsteps⟩ := (stepsTo_of_step? hwf h).caller
  rw [hcaller] at hstepping
  cases hstepping
  exact hsteps.pending_ne_nil (hwf _ (List.mem_of_getElem? hcaller)) rfl

/-- When the value is put while a caller makes the first computation of a race, the race is
overtaken. -/
theorem Racing.overtaken {failing racers i : Nat} {e : Nat → ε} {v w : α}
    {calls : List (List (Call κ α))} {event : Event ε α} {returned : List (Call κ α × Reply ε α)}
    (h : s.Racing key failing e v racers) (hreach : Reaches (ofCalls calls) s)
    (hcomputing : s.Computing i key) (hruns : s.runs = 1) (hstep : s.step? event = some after)
    (hcaller : s.callers[event.caller]? = some ⟨[.put key w], .idle, returned⟩)
    (houtside : racers ≤ event.caller) :
    after.Overtaken key (raceResult failing e v 1) w racers i := by
  obtain ⟨hentries, hseeking⟩ := h.of_first hreach hcomputing hruns
  obtain ⟨hcache, hsame, -, -⟩ := put_of_step? hstep hcaller
  have hsteps := stepsTo_of_step? hreach.wellFormed hstep
  have hothers {j : Nat} (hj : j < racers) : after.callers[j]? = s.callers[j]? :=
    hsteps.getElem?_of_ne (Nat.ne_of_lt (Nat.lt_of_lt_of_le hj houtside))
  have hnone : s.cache.find? key = none := by
    rw [find?, hentries, Association.find?_nil]
  obtain ⟨first, hfirst, hcomputes⟩ := hcomputing
  refine ⟨fun j hj caller hj' => ?_, ?_, hsame.trans hruns, fun caller hi => ?_,
    fun j hj hne caller hj' => ?_⟩
  · rw [hothers hj] at hj'
    exact h.seeks j hj caller hj'
  · rw [hcache, find?_put_self, put_fst_of_find?_none w hnone]
  · have hne : i ≠ event.caller := by
      rintro rfl
      rw [hcaller] at hfirst
      cases hfirst
      cases hcomputes
    rw [hsteps.getElem?_of_ne hne, hfirst] at hi
    cases hi
    rw [Caller.stage_of_computing? hcomputes]
    trivial
  · rw [hothers hj] at hj'
    rw [hseeking j hj hne caller hj']
    trivial

end System

namespace Run

variable {r : Run κ ε α} {m n racers failing : Nat} {key : κ} {e : Nat → ε} {v w : α}

/-- Every computation ends with the result of its number. A computation that ends is the one that
was started last, as long as all callers want the same key. -/
def EndsBy (r : Run κ ε α) (resultOf : Nat → Except ε α) : Prop :=
  ∀ m < r.length, ∀ i result, r.event m = .finish i result → result = resultOf (r.state m).runs

/-- In a run there are always as many callers as there are lists of calls. -/
theorem length_callers (hm : m ≤ r.length) : (r.state m).callers.length = r.calls.length := by
  rw [(reaches hm).length_callers (System.wellFormed_ofCalls r.calls), System.ofCalls,
    List.length_map]

/-- Every event of a run names one of the callers. -/
theorem caller_lt (hm : m < r.length) : (r.event m).caller < r.calls.length := by
  obtain ⟨caller, -, hcaller, -⟩ := (stepsTo hm).caller
  rw [← length_callers (Nat.le_of_lt hm)]
  exact (List.getElem?_eq_some_iff.mp hcaller).1

/-- In a run of racers only, the race goes on. -/
theorem racing (hends : r.EndsBy (raceResult failing e v))
    (hcalls : r.calls = List.replicate racers [.getOrCompute key]) (hm : m ≤ r.length) :
    (r.state m).Racing key failing e v racers := by
  induction m with
  | zero =>
    have hstart := System.racing_ofCalls (ε := ε) key failing e v racers [] (by simp)
    rwa [r.start, hcalls, ← List.append_nil (List.replicate racers _)]
  | succ m ih =>
    have hlt := caller_lt hm
    rw [hcalls, List.length_replicate] at hlt
    exact (ih (Nat.le_of_lt hm)).of_step? (reaches (Nat.le_of_lt hm)) (r.follows m hm) hlt
      (hends m hm _)

/-- In a run of racers and a caller that puts a value, every event is one of the racers' but those
of the other caller. -/
theorem caller_lt_of_ne
    (hcalls : r.calls = List.replicate racers [.getOrCompute key] ++ [[.put key w]])
    (hm : m < r.length) (hne : (r.event m).caller ≠ racers) : (r.event m).caller < racers := by
  have hlt := caller_lt hm
  rw [hcalls, List.length_append, List.length_replicate, List.length_singleton] at hlt
  exact Nat.lt_of_le_of_ne (Nat.le_of_lt_succ hlt) hne

/-- In a run of racers and a caller that puts a value, the race goes on until the value is put. -/
theorem racing_or_put (hends : r.EndsBy (raceResult failing e v))
    (hcalls : r.calls = List.replicate racers [.getOrCompute key] ++ [[.put key w]])
    (hm : m ≤ r.length) :
    (r.state m).Racing key failing e v racers ∧
        (r.state m).callers[racers]? = some ⟨[.put key w], .idle, []⟩ ∨
      ∃ returned, (r.state m).callers[racers]? = some ⟨[], .idle, returned⟩ := by
  induction m with
  | zero =>
    refine .inl ⟨?_, ?_⟩
    · rw [r.start, hcalls]
      exact System.racing_ofCalls key failing e v racers [[.put key w]] (by simp [Caller.looks])
    · simp [r.start, hcalls, System.ofCalls]
  | succ m ih =>
    have hbefore : m ≤ r.length := Nat.le_of_lt hm
    have hstep := r.follows m hm
    by_cases houtside : (r.event m).caller = racers
    · rcases ih hbefore with ⟨-, hfresh⟩ | ⟨returned, hdone⟩
      · rw [← houtside] at hfresh
        obtain ⟨-, -, returned, hcallers⟩ := System.put_of_step? hstep hfresh
        refine .inr ⟨returned, ?_⟩
        rw [hcallers, houtside, List.getElem?_set_self]
        rw [length_callers hbefore, hcalls]
        simp
      · exact absurd houtside (System.caller_ne_of_step? (wellFormed hbefore) hstep hdone)
    · rw [(stepsTo hm).getElem?_of_ne (Ne.symm houtside)]
      rcases ih hbefore with ⟨hracing, hfresh⟩ | hdone
      · refine .inl ⟨?_, hfresh⟩
        exact hracing.of_step? (reaches hbefore) hstep (caller_lt_of_ne hcalls hm houtside)
          (hends m hm _)
      · exact .inr hdone

/-- A race that is overtaken stays so to the end. -/
theorem overtaken_stays {i : Nat} {returned : List (Call κ α × Reply ε α)}
    (hends : r.EndsBy (raceResult failing e v))
    (hcalls : r.calls = List.replicate racers [.getOrCompute key] ++ [[.put key w]])
    (hmn : m ≤ n) (hn : n ≤ r.length)
    (hdone : (r.state m).callers[racers]? = some ⟨[], .idle, returned⟩)
    (h : (r.state m).Overtaken key (raceResult failing e v 1) w racers i) :
    (r.state n).callers[racers]? = some ⟨[], .idle, returned⟩ ∧
      (r.state n).Overtaken key (raceResult failing e v 1) w racers i := by
  induction hmn with
  | refl => exact ⟨hdone, h⟩
  | @step n hmn ih =>
    have hbefore : n ≤ r.length := Nat.le_of_lt hn
    obtain ⟨hdone, hovertaken⟩ := ih hbefore
    have hstep := r.follows n hn
    have hne := System.caller_ne_of_step? (wellFormed hbefore) hstep hdone
    refine ⟨by rw [(stepsTo hn).getElem?_of_ne hne.symm, hdone], ?_⟩
    refine hovertaken.of_step? (wellFormed hbefore) hstep (caller_lt_of_ne hcalls hn hne)
      fun ended hevent => ?_
    rw [hends n hn _ ended hevent, hovertaken.runs]

/-- A value that is put while the first computation of a race is in progress overtakes the race. -/
theorem overtaken {i : Nat} (hends : r.EndsBy (raceResult failing e v))
    (hcalls : r.calls = List.replicate racers [.getOrCompute key] ++ [[.put key w]])
    (hm : m < r.length) (hput : r.event m = .step racers) (hcomputing : (r.state m).Computing i key)
    (hruns : (r.state m).runs = 1) :
    (r.state r.length).Overtaken key (raceResult failing e v 1) w racers i := by
  have hbefore : m ≤ r.length := Nat.le_of_lt hm
  have hstep := r.follows m hm
  have houtside : (r.event m).caller = racers := by
    rw [hput]
    rfl
  rcases racing_or_put hends hcalls hbefore with ⟨hracing, hfresh⟩ | ⟨returned, hdone⟩
  · have hcaller := houtside ▸ hfresh
    have hovertaken := hracing.overtaken (reaches hbefore) hcomputing hruns hstep hcaller
      (Nat.le_of_eq houtside.symm)
    obtain ⟨-, -, returned, hcallers⟩ := System.put_of_step? hstep hcaller
    have hdone : (r.state (m + 1)).callers[racers]? = some ⟨[], .idle, returned⟩ := by
      rw [hcallers, houtside, List.getElem?_set_self]
      exact (List.getElem?_eq_some_iff.mp hfresh).1
    exact (overtaken_stays hends hcalls hm (Nat.le_refl _) hdone hovertaken).2
  · exact absurd houtside (System.caller_ne_of_step? (wellFormed hbefore) hstep hdone)

/-- A race for one key of a fresh cache, of which the first computations fail and the others return
the value, ends with one error for each computation that fails and the value for all others, in
whatever order the callers go on. If another caller puts a value for the key while the first
computation is in progress, there is no other computation: its caller gets its error if it fails,
and otherwise, like all other callers, the value that was put. -/
theorem race_outcome (r : Run κ ε α) (key : κ) (racers failing : Nat) (e : Nat → ε) (v w : α)
    (hends : r.EndsBy (raceResult failing e v)) (hreturned : (r.state r.length).Returned) :
    (r.calls = List.replicate racers [.getOrCompute key] →
      (r.state r.length).RaceOutcome key failing e v racers) ∧
    (r.calls = List.replicate racers [.getOrCompute key] ++ [[.put key w]] →
      ∀ m i, m < r.length → r.event m = .step racers → (r.state m).Computing i key →
        (r.state m).runs = 1 →
          (r.state r.length).runs = 1 ∧ ∀ j < racers, (r.state r.length).resultOf? j =
            some (if j = i ∧ 0 < failing then .error (e 1) else .ok w)) := by
  have hend : r.length ≤ r.length := Nat.le_refl _
  constructor
  · intro hcalls
    have hlength := length_callers hend
    rw [hcalls, List.length_replicate] at hlength
    exact (racing hends hcalls hend).outcome (reaches hend) hlength hreturned
  · intro hcalls m i hm hput hcomputing hruns
    have hovertaken := overtaken hends hcalls hm hput hcomputing hruns
    refine ⟨hovertaken.runs, fun j hj => ?_⟩
    have hlength : j < (r.state r.length).callers.length := by
      rw [length_callers hend, hcalls, List.length_append, List.length_replicate]
      exact Nat.lt_add_right _ hj
    rw [hovertaken.resultOf?_eq hreturned hj hlength, raceResult]
    by_cases hfirst : j = i
    · by_cases hfails : 1 ≤ failing
      · rw [if_pos hfirst, if_pos hfails, if_pos ⟨hfirst, hfails⟩]
        rfl
      · rw [if_pos hfirst, if_neg hfails, if_neg fun h => hfails h.2]
        rfl
    · rw [if_neg hfirst, if_neg fun h => hfirst h.1]

/-- A run in which the first of three callers fails after the others have come to wait. -/
def retried : Run Nat Nat Nat :=
  .ofEvents (List.replicate 3 [.getOrCompute 7])
    [.step 0, .step 1, .step 2, .step 0, .step 0, .finish 0 (.error 1), .step 0, .step 1, .step 0,
      .step 1, .finish 1 (.ok 5), .step 1, .step 1, .step 1, .step 2, .step 2, .step 2, .step 2] rfl

/-- A run in which a value is put while the first of two callers computes, and then fails. -/
def outrun : Run Nat Nat Nat :=
  .ofEvents (List.replicate 2 [.getOrCompute 7] ++ [[.put 7 9]])
    [.step 0, .step 0, .step 0, .step 1, .step 2, .finish 0 (.error 1), .step 0, .step 1, .step 0,
      .step 1, .step 1, .step 1] rfl

/-- A caller that waits while another one fails computes itself, unless a value was put
meanwhile. -/
theorem race_outcome_retried :
    (retried.state retried.length).RaceOutcome 7 1 id 5 3 ∧
      (outrun.state outrun.length).runs = 1 ∧
        ∀ j < 2, (outrun.state outrun.length).resultOf? j =
          some (if j = 0 ∧ 0 < 1 then .error (id 1) else .ok 9) := by
  have hretried : retried.EndsBy (raceResult 1 id 5) := by
    intro m hm i result h
    change m < 18 at hm
    interval_cases m <;> cases h <;> rfl
  have houtrun : outrun.EndsBy (raceResult 1 id 5) := by
    intro m hm i result h
    change m < 12 at hm
    interval_cases m <;> cases h
    rfl
  have hover : ∀ caller ∈ (retried.state retried.length).callers, caller.pending = [] := by decide
  have hdone : ∀ caller ∈ (outrun.state outrun.length).callers, caller.pending = [] := by decide
  exact ⟨(race_outcome retried 7 3 1 id 5 9 hretried hover).1 rfl,
    (race_outcome outrun 7 2 1 id 5 9 houtrun hdone).2 rfl 4 0 (by decide) rfl ⟨_, rfl, rfl⟩ rfl⟩

end Run

end KotlinNullability.Cache
