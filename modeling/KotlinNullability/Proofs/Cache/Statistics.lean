import KotlinNullability.Proofs.Cache.Deed
import Mathlib.Data.List.DropRight

/-!
# The statistics of a cache

At every moment of a run the counters are counts of what the callers have done since the cache was
cleared last: every lookup counts once, as a hit or as a miss, a computation counts with the step
that publishes its value, and the size is the number of keys for which something was published.
Each registration with the lock of a key is settled by a computation that is counted, by one that
fails, or by a value that another caller has published, and until then it is open; so in a run
without clearing the registrations are accounted for, and no key has two computations counted.
-/

namespace KotlinNullability.Cache

variable {κ ε α : Type} [DecidableEq κ]

/-- Whether a call neither looks up in a way that is counted nor clears. -/
def Call.isUncounted : Call κ α → Bool
  | put .. | contains _ | stats | size => true
  | get _ | getOrCompute _ | clear => false

/-- Whether a caller has registered and has no result yet. -/
def Phase.isOpen : Phase κ ε α → Bool
  | waiting .. | holding .. | computing .. | publishing .. => true
  | idle | releasing .. | leaving .. => false

/-- Whether a caller has a computed value to publish. -/
def Phase.isPublishing : Phase κ ε α → Bool
  | publishing .. => true
  | _ => false

/-- The key for which a caller computes or has computed a value that is not published. -/
def Phase.intends? : Phase κ ε α → Option κ
  | computing key _ | publishing key _ _ => some key
  | _ => none

/-- The counters. -/
def counters (c : Cache κ α) : Nat × Nat × Nat := (c.hits, c.misses, c.computations)

namespace Deed

omit [DecidableEq κ]

/-- Whether a registration comes to a result: a counted computation, a failed one, or the value of
another caller. -/
def settles (deed : Deed κ) : Bool := deed.computed?.isSome || deed.isFailed || deed.isServed

/-- A registration is settled in one of three ways. -/
theorem countP_settles (deeds : List (Deed κ)) :
    deeds.countP settles = deeds.countP (fun deed => deed.computed?.isSome) +
      deeds.countP isFailed + deeds.countP isServed := by
  induction deeds with
  | nil => rfl
  | cons deed deeds ih =>
    cases deed <;> simp [List.countP_cons, settles, ih] <;> omega

/-- Every counted lookup is a hit or a miss. -/
theorem countP_isLookup (deeds : List (Deed κ)) :
    deeds.countP isLookup = deeds.countP isHit + deeds.countP isMiss := by
  induction deeds with
  | nil => rfl
  | cons deed deeds ih =>
    rcases deed with ⟨_, _ | _⟩ | ⟨_, _ | _⟩ | _ <;> simp [List.countP_cons, ih] <;> omega

/-- A miss is one of `get`, or a registration. -/
theorem countP_isMiss (deeds : List (Deed κ)) :
    deeds.countP isMiss = deeds.countP isGetMiss + deeds.countP isRegistration := by
  induction deeds with
  | nil => rfl
  | cons deed deeds ih =>
    rcases deed with ⟨_, _ | _⟩ | ⟨_, _ | _⟩ | _ <;> simp [ih] <;> omega

end Deed

section Steps

variable {free : Nat → Prop} {c d : Cache κ α} {caller next : Caller κ ε α} {event : Event ε α}

/-- The event ends a computation as the caller goes on. -/
def Event.Ends (event : Event ε α) (caller next : Caller κ ε α) : Prop :=
  ∀ key token, caller.phase = .computing key token →
    (∃ i value, event = .finish i (.ok value) ∧ next.phase = .publishing key token value) ∨
      ∃ i e, event = .finish i (.error e) ∧ next.phase = .releasing key token (.error e)

/-- A step opens a call as it registers, and closes it as the registration is settled. -/
theorem Caller.Steps.isOpen_eq (h : caller.Steps free c d next) (hends : event.Ends caller next) :
    (if next.phase.isOpen then 1 else 0) + (caller.deed? c event).toList.countP Deed.settles =
      (if caller.phase.isOpen then 1 else 0) +
        (caller.deed? c event).toList.countP Deed.isRegistration := by
  cases h with
  | answer hanswer =>
    cases hanswer with
    | found henter =>
      simp [deed?, contains, find?_of_enter_found henter, Deed.settles]
    | _ => simp [deed?, Deed.settles]
  | register henter =>
    simp [deed?, contains, find?_of_enter_registered henter, Deed.settles, Phase.isOpen]
  | move hmove =>
    cases hmove with
    | look hfind => simp [deed?, contains, hfind, Deed.settles, Phase.isOpen]
    | compute hnone => simp [deed?, contains, hnone, Phase.isOpen]
    | succeed value =>
      obtain ⟨i, value, rfl, -⟩ | ⟨i, e, -, hnext⟩ := hends _ _ rfl
      · simp [deed?, Deed.settles, Phase.isOpen]
      · cases hnext
    | fail e =>
      obtain ⟨i, value, -, hnext⟩ | ⟨i, e, rfl, -⟩ := hends _ _ rfl
      · cases hnext
      · simp [deed?, Deed.settles, Phase.isOpen]
    | publish => simp [deed?, Deed.settles, Phase.isOpen]
    | _ => rfl
  | leave => rfl

/-- A step that ends a computation leaves a value to publish, and publishing counts it. -/
theorem Caller.Steps.isPublishing_eq (h : caller.Steps free c d next)
    (hends : event.Ends caller next) :
    (if next.phase.isPublishing then 1 else 0) +
        (caller.deed? c event).toList.countP (fun deed => deed.computed?.isSome) =
      (if caller.phase.isPublishing then 1 else 0) +
        (caller.deed? c event).toList.countP Deed.isReturned := by
  cases h with
  | answer hanswer => cases hanswer <;> simp [deed?]
  | register henter => simp [deed?, Phase.isPublishing]
  | move hmove =>
    cases hmove with
    | look hfind => simp [deed?, contains, hfind, Phase.isPublishing]
    | compute hnone => simp [deed?, contains, hnone, Phase.isPublishing]
    | succeed value =>
      obtain ⟨i, value, rfl, -⟩ | ⟨i, e, -, hnext⟩ := hends _ _ rfl
      · simp [deed?, Phase.isPublishing]
      · cases hnext
    | fail e =>
      obtain ⟨i, value, -, hnext⟩ | ⟨i, e, rfl, -⟩ := hends _ _ rfl
      · cases hnext
      · simp [deed?, Phase.isPublishing]
    | publish => simp [deed?, Phase.isPublishing]
    | _ => rfl
  | leave => rfl

/-- A call that is not counted leaves the counters as they are. -/
theorem Caller.Steps.counters_eq (h : caller.Steps free c d next) {call : Call κ α}
    (hidle : caller.phase = .idle) (hcall : caller.pending.head? = some call)
    (huncounted : call.isUncounted = true) : d.counters = c.counters := by
  have htally := h.tally_eq (.step 0)
  obtain ⟨pending, phase, returned⟩ := caller
  obtain ⟨rest, rfl⟩ := List.head?_eq_some_iff.mp hcall
  obtain rfl := hidle
  have hcounters {c d : Cache κ α} {keys : Finset κ} (h : d.tally = { c.tally with keys }) :
      d.counters = c.counters := by
    have hhits : d.hits = c.hits := congrArg Tally.hits h
    have hmisses : d.misses = c.misses := congrArg Tally.misses h
    have hcomputations : d.computations = c.computations := congrArg Tally.computations h
    rw [counters, hhits, hmisses, hcomputations, ← counters]
  cases call with
  | put key value => exact hcounters htally
  | contains key => exact hcounters htally
  | stats => exact hcounters htally
  | size => exact hcounters htally
  | get key => cases huncounted
  | getOrCompute key => cases huncounted
  | clear => cases huncounted

/-- The next step of a caller is a clearing exactly if this is its deed. -/
theorem Caller.isClearing_iff : caller.isClearing = true ↔ caller.deed? c event = some .clear := by
  obtain ⟨pending, phase, returned⟩ := caller
  cases phase with
  | idle =>
    cases pending with
    | nil => simp [isClearing, deed?]
    | cons call pending => cases call <;> simp [isClearing, deed?]
  | holding key token =>
    by_cases h : c.contains key <;> simp [isClearing, deed?, h]
  | computing key token =>
    rcases event with _ | ⟨_, _ | _⟩ <;> simp [isClearing, deed?]
  | _ => simp [isClearing, deed?]

/-- A deed that counts a computation is that of a caller with a value to publish. -/
theorem Caller.publishing_of_deed? {deed : Deed κ} {key : κ}
    (hdeed : caller.deed? c event = some deed) (hkey : deed.computed? = some key) :
    ∃ token value, caller.phase = .publishing key token value := by
  obtain ⟨pending, phase, returned⟩ := caller
  cases phase with
  | publishing k token value =>
    cases hdeed
    cases hkey
    exact ⟨token, value, rfl⟩
  | idle =>
    rcases pending with _ | ⟨call, pending⟩
    · cases hdeed
    · cases call <;> cases hdeed <;> cases hkey
  | holding k token =>
    rw [deed?] at hdeed
    dsimp only at hdeed
    split at hdeed <;> cases hdeed
    cases hkey
  | computing k token =>
    rcases event with _ | ⟨_, _ | _⟩ <;> cases hdeed <;> cases hkey
  | _ => cases hdeed

/-- A caller that intends to publish a value did so before, or has found that there is none. -/
theorem Caller.Steps.intends?_or_none (h : caller.Steps free c d next) {key : κ}
    (hnext : next.phase.intends? = some key) :
    caller.phase.intends? = some key ∨ c.find? key = none := by
  cases h with
  | move hmove =>
    cases hmove with
    | compute hnone =>
      cases hnext
      exact .inr hnone
    | succeed value => exact .inl hnext
    | _ => simp [Phase.intends?] at hnext
  | _ => simp [Phase.intends?] at hnext

/-- A caller that has published intends nothing more. -/
theorem Caller.Steps.intends?_of_publishing (h : caller.Steps free c d next) {key : κ}
    {token : Nat} {value : α} (hphase : caller.phase = .publishing key token value) :
    next.phase.intends? ≠ some key := by
  cases h with
  | move hmove =>
    cases hmove with
    | publish => exact nofun
    | _ => cases hphase
  | _ => cases hphase

end Steps

namespace System

variable {calls : List (List (Call κ α))} {s after : System κ ε α} {i : Nat} {key : κ}

/-- The key has a value, and nobody intends to publish another. -/
structure Closed (s : System κ ε α) (key : κ) : Prop where
  value : (s.cache.find? key).isSome
  quiet : ∀ caller ∈ s.callers, caller.phase.intends? ≠ some key

omit [DecidableEq κ] in
/-- Whoever intends to publish a value for a key holds its lock. -/
theorem holder?_of_intends? {phase : Phase κ ε α} (h : phase.intends? = some key) :
    phase.holder? = some key := by
  cases phase <;> cases h <;> rfl

/-- A step that does not clear the cache leaves a closed key closed. -/
theorem StepsTo.closed (h : s.StepsTo i after)
    (hclear : ∀ caller, s.callers[i]? = some caller → caller.isClearing = false)
    (hclosed : s.Closed key) : after.Closed key := by
  obtain ⟨caller, next, hcaller, hcallers, hsteps⟩ := h
  obtain ⟨value, hvalue⟩ := Option.isSome_iff_exists.mp hclosed.value
  refine ⟨Option.isSome_of_mem (hsteps.find?_of_some (hclear caller hcaller) hvalue),
    fun other hother hintends => ?_⟩
  rw [hcallers] at hother
  rcases List.mem_or_eq_of_mem_set hother with hold | rfl
  · exact hclosed.quiet other hold hintends
  · rcases hsteps.intends?_or_none hintends with hbefore | hnone
    · exact hclosed.quiet caller (List.mem_of_getElem? hcaller) hbefore
    · rw [hnone] at hvalue
      cases hvalue

/-- Publishing a computed value closes its key. -/
theorem StepsTo.closed_of_publishing (h : s.StepsTo i after) (hreach : Reaches (ofCalls calls) s)
    {caller : Caller κ ε α} {token : Nat} {value : α} (hcaller : s.callers[i]? = some caller)
    (hphase : caller.phase = .publishing key token value) : after.Closed key := by
  obtain ⟨stepping, next, hstepping, hnext, hsteps⟩ := h.caller
  rw [hcaller] at hstepping
  cases hstepping
  have hhold : caller.phase.holder? = some key := by
    rw [hphase]
    rfl
  refine ⟨hsteps.find?_of_publishing hphase, fun other hother hintends => ?_⟩
  obtain ⟨j, hj⟩ := List.getElem?_of_mem hother
  by_cases hji : j = i
  · -- The caller itself is about to release the lock.
    rw [hji, hnext] at hj
    cases hj
    exact hsteps.intends?_of_publishing hphase hintends
  · rw [h.getElem?_of_ne hji] at hj
    exact hji (hreach.holder_unique hj hcaller (holder?_of_intends? hintends) hhold)

end System

namespace Run

variable {r : Run κ ε α} {m : Nat}

/-- What is done with an event of a run. -/
def deed? (r : Run κ ε α) (n : Nat) : Option (Deed κ) :=
  (r.state n).callers[(r.event n).caller]?.bind (Caller.deed? (r.state n).cache (r.event n))

/-- What is done before a moment of a run, in order. -/
def deeds (r : Run κ ε α) (m : Nat) : List (Deed κ) := (List.range m).filterMap r.deed?

/-- What is done before a moment and after the last clearing before it. -/
def recent (r : Run κ ε α) (m : Nat) : List (Deed κ) :=
  (r.deeds m).rtakeWhile fun deed => deed ≠ .clear

theorem deeds_succ : r.deeds (m + 1) = r.deeds m ++ (r.deed? m).toList := by
  rw [deeds, List.range_succ, List.filterMap_append, ← deeds]
  cases h : r.deed? m <;> simp [h]

/-- Every event of a run is a step of a caller, with its deed. -/
theorem exists_steps (hm : m < r.length) :
    ∃ caller next, (r.state m).callers[(r.event m).caller]? = some caller ∧
      (r.state (m + 1)).callers = (r.state m).callers.set (r.event m).caller next ∧
      caller.Steps ((r.state m).isFree · = true) (r.state m).cache (r.state (m + 1)).cache next ∧
      (r.event m).Ends caller next ∧
      r.deed? m = caller.deed? (r.state m).cache (r.event m) := by
  obtain ⟨caller, next, hcaller, hcallers, hsteps⟩ := stepsTo hm
  refine ⟨caller, next, hcaller, hcallers, hsteps, fun key token hphase => ?_, ?_⟩
  · obtain ⟨result, hevent, hafter⟩ := System.finish_of_computing (r.follows m hm) hcaller hphase
    have hlength := (List.getElem?_eq_some_iff.mp hcaller).1
    have hset := congrArg (fun system => system.callers[(r.event m).caller]?) hafter
    rw [hcallers, List.getElem?_set_self hlength] at hset
    have hnext := Option.some.inj (hset.trans (List.getElem?_set_self hlength))
    cases result with
    | ok value => exact .inl ⟨_, value, hevent, congrArg Caller.phase hnext⟩
    | error e => exact .inr ⟨_, e, hevent, congrArg Caller.phase hnext⟩
  · rw [deed?, hcaller, Option.bind_some]

/-- The counters, and the keys with values, are what was done since the last clearing. -/
theorem tally_eq (hm : m ≤ r.length) : (r.state m).cache.tally = Tally.ofDeeds (r.recent m) := by
  induction m with
  | zero =>
    rw [r.start]
    rfl
  | succ m ih =>
    obtain ⟨caller, next, -, -, hsteps, -, hdeed⟩ := exists_steps hm
    rw [hsteps.tally_eq (r.event m), ← hdeed, ih (Nat.le_of_succ_le hm), recent, recent, deeds_succ]
    cases r.deed? m with
    | none => simp
    | some deed =>
      rw [Option.toList_some, List.rtakeWhile_concat, Option.elim_some]
      by_cases hclear : deed = .clear
      · subst hclear
        rfl
      · rw [if_pos (decide_eq_true hclear), Tally.ofDeeds_append _ hclear]

/-- No key stands twice among the values. -/
theorem distinct (hm : m ≤ r.length) : (r.state m).cache.Distinct := by
  induction m with
  | zero =>
    rw [r.start]
    exact List.nodup_nil
  | succ m ih =>
    obtain ⟨caller, next, -, -, hsteps, -, -⟩ := exists_steps hm
    exact hsteps.distinct (ih (Nat.le_of_succ_le hm))

/-- If every step adds to the callers with a property what the deeds of one kind gain and those of
another kind lose, then so does the run. -/
theorem countP_add_countP {p : Caller κ ε α → Bool} {gain loss : Deed κ → Bool}
    (hfresh : ∀ pending, p { pending } = false)
    (hstep : ∀ {free : Nat → Prop} {c d : Cache κ α} {caller next : Caller κ ε α}
      {event : Event ε α}, caller.Steps free c d next → event.Ends caller next →
        (if p next then 1 else 0) + (caller.deed? c event).toList.countP loss =
          (if p caller then 1 else 0) + (caller.deed? c event).toList.countP gain)
    (hm : m ≤ r.length) :
    (r.state m).callers.countP p + (r.deeds m).countP loss = (r.deeds m).countP gain := by
  induction m with
  | zero =>
    rw [r.start]
    refine List.countP_eq_zero.mpr fun caller hcaller => ?_
    obtain ⟨pending, _, rfl⟩ := List.mem_map.mp hcaller
    rw [hfresh]
    exact Bool.false_ne_true
  | succ m ih =>
    obtain ⟨caller, next, hcaller, hcallers, hsteps, hends, hdeed⟩ := exists_steps hm
    have hbefore := ih (Nat.le_of_succ_le hm)
    have hnow := hstep hsteps hends
    have hset := countP_set_add hcaller next p
    rw [deeds_succ, List.countP_append, List.countP_append, hcallers, hdeed]
    omega

/-- While nothing clears the cache, what was done since the last clearing is all that was done. -/
theorem recent_eq_deeds (hm : m ≤ r.length) (hclear : r.ClearFree 0 m) :
    r.recent m = r.deeds m := by
  refine List.rtakeWhile_eq_self_iff.mpr fun deed hdeed => decide_eq_true ?_
  obtain ⟨n, hn, hdo⟩ := List.mem_filterMap.mp hdeed
  have hnm : n < m := List.mem_range.mp hn
  obtain ⟨caller, next, hcaller, -, -, -, hsame⟩ := exists_steps (Nat.lt_of_lt_of_le hnm hm)
  have hnow := hclear n (Nat.zero_le n) hnm
  rw [System.clears, hcaller, Option.any_some] at hnow
  rintro rfl
  rw [hsame] at hdo
  rw [Caller.isClearing_iff.mpr hdo] at hnow
  cases hnow

/-- While nothing clears the cache, no key has two computations counted, and a key that has one is
closed. -/
theorem computed_nodup (hm : m ≤ r.length) (hclear : r.ClearFree 0 m) :
    ((r.deeds m).filterMap Deed.computed?).Nodup ∧
      ∀ key ∈ (r.deeds m).filterMap Deed.computed?, (r.state m).Closed key := by
  induction m with
  | zero => exact ⟨List.nodup_nil, fun key hkey => by cases hkey⟩
  | succ m ih =>
    have hlength : m ≤ r.length := Nat.le_of_succ_le hm
    obtain ⟨hnodup, hclosed⟩ :=
      ih hlength fun n hn hnm => hclear n hn (Nat.lt_succ_of_lt hnm)
    obtain ⟨caller, next, hcaller, -, -, -, hdeed⟩ := exists_steps hm
    have hstep := stepsTo (r := r) hm
    have hcalm : ∀ caller, (r.state m).callers[(r.event m).caller]? = some caller →
        caller.isClearing = false := by
      have hnow := hclear m (Nat.zero_le m) (Nat.lt_succ_self m)
      intro caller hcaller
      rwa [System.clears, hcaller, Option.any_some] at hnow
    rw [deeds_succ, List.filterMap_append]
    cases hdo : (r.deed? m).toList.filterMap Deed.computed? with
    | nil =>
      rw [List.append_nil]
      exact ⟨hnodup, fun key hkey => hstep.closed hcalm (hclosed key hkey)⟩
    | cons key rest =>
      -- A step has one deed at most.
      obtain ⟨deed, hsome, hkey⟩ : ∃ deed, r.deed? m = some deed ∧ deed.computed? = some key := by
        have hmem : key ∈ (r.deed? m).toList.filterMap Deed.computed? := hdo ▸ List.mem_cons_self
        obtain ⟨deed, hdeed, hkey⟩ := List.mem_filterMap.mp hmem
        exact ⟨deed, Option.mem_toList.mp hdeed, hkey⟩
      obtain rfl : rest = [] := by
        rw [hsome, Option.toList_some, List.filterMap_cons_some hkey] at hdo
        exact (List.cons.inj hdo).2.symm
      obtain ⟨token, value, hphase⟩ := Caller.publishing_of_deed? (hdeed ▸ hsome) hkey
      have hnew : key ∉ (r.deeds m).filterMap Deed.computed? := by
        intro hmem
        refine (hclosed key hmem).quiet caller (List.mem_of_getElem? hcaller) ?_
        rw [hphase]
        rfl
      refine ⟨List.nodup_append'.mpr
        ⟨hnodup, List.nodup_singleton key, List.disjoint_singleton.mpr hnew⟩,
        fun other hother => ?_⟩
      rcases List.mem_append.mp hother with hold | hlast
      · exact hstep.closed hcalm (hclosed other hold)
      · rw [List.mem_singleton.mp hlast]
        exact hstep.closed_of_publishing (reaches hlength) hcaller hphase

/-- The statistics at a moment, as counts of what was done since the last clearing. -/
structure Tallied (r : Run κ ε α) (m : Nat) : Prop where
  hits : (r.state m).cache.stats.hits = (r.recent m).countP Deed.isHit
  misses : (r.state m).cache.stats.misses = (r.recent m).countP Deed.isMiss
  /-- Each lookup counts once. -/
  lookups : (r.state m).cache.stats.hits + (r.state m).cache.stats.misses =
    (r.recent m).countP Deed.isLookup
  computations : (r.state m).cache.stats.computations =
    (r.recent m).countP fun deed => deed.computed?.isSome
  size : (r.state m).cache.stats.size = ((r.recent m).filterMap Deed.published?).toFinset.card

/-- The balance of registrations and computations at a moment. -/
structure Balanced (r : Run κ ε α) (m : Nat) : Prop where
  /-- The misses that are not those of `get` are registrations. -/
  misses : (r.state m).cache.stats.misses =
    (r.deeds m).countP Deed.isGetMiss + (r.deeds m).countP Deed.isRegistration
  registrations : (r.deeds m).countP Deed.isRegistration =
    (r.deeds m).countP (fun deed => deed.computed?.isSome) + (r.deeds m).countP Deed.isFailed +
      (r.deeds m).countP Deed.isServed +
        (r.state m).callers.countP fun caller => caller.phase.isOpen
  computations : (r.state m).cache.stats.computations =
    (r.deeds m).countP fun deed => deed.computed?.isSome
  /-- A computation that has returned is counted as soon as its value is published. -/
  returned : (r.deeds m).countP Deed.isReturned = (r.state m).cache.stats.computations +
    (r.state m).callers.countP fun caller => caller.phase.isPublishing
  distinct : ((r.deeds m).filterMap Deed.computed?).Nodup
  computations_le_size : (r.state m).cache.stats.computations ≤ (r.state m).cache.stats.size
  computations_le_misses : (r.state m).cache.stats.computations ≤ (r.state m).cache.stats.misses

/-- At every moment of a run the statistics are counts of what was done since the last clearing. -/
theorem tallied (hm : m ≤ r.length) : r.Tallied m := by
  have htally := tally_eq hm
  have hhits : (r.state m).cache.stats.hits = (r.recent m).countP Deed.isHit :=
    congrArg Tally.hits htally
  have hmisses : (r.state m).cache.stats.misses = (r.recent m).countP Deed.isMiss :=
    congrArg Tally.misses htally
  have hsize : (r.state m).cache.size = (r.state m).cache.tally.keys.card := (distinct hm).size_eq
  exact {
    hits := hhits
    misses := hmisses
    lookups := by rw [hhits, hmisses, Deed.countP_isLookup]
    computations := congrArg Tally.computations htally
    size := by rw [htally] at hsize; exact hsize }

/-- At every moment before which nothing clears the cache, registrations and computations are in
balance. -/
theorem balanced (hm : m ≤ r.length) (hclear : r.ClearFree 0 m) : r.Balanced m := by
  have htallied := tallied hm
  have hopen := countP_add_countP (p := fun caller : Caller κ ε α => caller.phase.isOpen)
    (fun _ => rfl) Caller.Steps.isOpen_eq hm
  have hpublishing := countP_add_countP
    (p := fun caller : Caller κ ε α => caller.phase.isPublishing) (fun _ => rfl)
    Caller.Steps.isPublishing_eq hm
  have hmisses := htallied.misses
  have hcomputations := htallied.computations
  have hsize := htallied.size
  rw [recent_eq_deeds hm hclear] at hmisses hcomputations hsize
  rw [Deed.countP_isMiss] at hmisses
  rw [Deed.countP_settles] at hopen
  have hdistinct := (computed_nodup hm hclear).1
  have hle : (r.state m).cache.stats.computations ≤ (r.state m).cache.stats.size := by
    have hcount : ((r.deeds m).filterMap Deed.computed?).toFinset.card =
        (r.state m).cache.stats.computations := by
      rw [List.toFinset_card_of_nodup hdistinct, List.length_filterMap_eq_countP, hcomputations]
    have hsub : ((r.deeds m).filterMap Deed.computed?).toFinset ⊆
        ((r.deeds m).filterMap Deed.published?).toFinset := by
      intro key hkey
      obtain ⟨deed, hdeed, hcomputed⟩ := List.mem_filterMap.mp (List.mem_toFinset.mp hkey)
      cases deed <;> cases hcomputed
      exact List.mem_toFinset.mpr (List.mem_filterMap.mpr ⟨_, hdeed, rfl⟩)
    rw [← hcount, hsize]
    exact Finset.card_le_card hsub
  exact {
    misses := hmisses
    registrations := by omega
    computations := hcomputations
    returned := by omega
    distinct := hdistinct
    computations_le_size := hle
    computations_le_misses := by omega }

/-- At every moment of a run the statistics are counts of what was done since the last clearing, and
as long as nothing has cleared the cache, registrations and computations are in balance. A call that
puts, or asks for a key, the statistics or the size, leaves the counters as they are. -/
theorem statistics (r : Run κ ε α) :
    (∀ m, m ≤ r.length → r.Tallied m ∧ (r.ClearFree 0 m → r.Balanced m)) ∧
      ∀ m, m < r.length → ∀ caller call,
        (r.state m).callers[(r.event m).caller]? = some caller → caller.phase = .idle →
          caller.pending.head? = some call → call.isUncounted = true →
            (r.state (m + 1)).cache.counters = (r.state m).cache.counters := by
  refine ⟨fun m hm => ⟨tallied hm, balanced hm⟩,
    fun m hm caller call hcaller hidle hcall huncounted => ?_⟩
  obtain ⟨stepping, next, hstepping, -, hsteps, -, -⟩ := exists_steps hm
  rw [hcaller] at hstepping
  cases hstepping
  exact hsteps.counters_eq hidle hcall huncounted

/-- A run in which a computation fails, another one succeeds, and its value serves a caller that has
waited for both. -/
def audited : Run Nat Unit Nat :=
  .ofEvents [[.getOrCompute 7, .getOrCompute 7], [.getOrCompute 7], [.get 7, .size]]
    [.step 0, .step 0, .step 0, .step 1, .finish 0 (.error ()), .step 0, .step 0, .step 0, .step 0,
      .step 0, .finish 0 (.ok 5), .step 0, .step 0, .step 1, .step 1, .step 2, .step 2] rfl

/-- Three registrations, one of them with a failed computation, one with a counted computation and
one served, and a hit: the counters say so, and asking for the size does not change them. -/
theorem statistics_audited :
    audited.Tallied 17 ∧ audited.Balanced 17 ∧
      (audited.state 17).cache.counters = (1, 3, 1) ∧
        (audited.state 17).cache.counters = (audited.state 16).cache.counters := by
  have hclear : ∀ m < 17, (audited.state m).clears (audited.event m) = false := by decide
  obtain ⟨htallied, hbalanced⟩ := (statistics audited).1 17 (Nat.le_refl _)
  exact ⟨htallied, hbalanced fun m _ hm => hclear m hm, rfl,
    (statistics audited).2 16 (by decide) ⟨[.size], .idle, [(.get 7, .looked (some 5))]⟩ .size rfl
      rfl rfl rfl⟩

end Run

end KotlinNullability.Cache
