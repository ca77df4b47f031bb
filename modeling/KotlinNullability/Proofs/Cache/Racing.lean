import KotlinNullability.Proofs.Cache.Run
import KotlinNullability.Proofs.Cache.Turn
import Mathlib.Data.List.Perm.Basic
import Mathlib.Data.Multiset.Range
import Mathlib.Data.Multiset.Replicate

/-!
# Racing for one key

Callers that want the value of one key of a fresh cache compute one after the other, until a
computation succeeds. Each computation that fails serves the caller that made it with its own error;
the first that succeeds publishes its value, and all callers that are not served by then get this
value. So the order in which the callers come and go decides who gets which result, and not how
often which result is got.

The invariant counts the callers by the stage that they have come to: how many seek, who computes or
publishes, and who is served with what.
-/

namespace KotlinNullability.Cache

variable {κ ε α : Type} [DecidableEq κ]

/-- How the computation with a number ends: the first ones fail, each with its error, and the later
ones return the value. -/
def raceResult (failing : Nat) (e : Nat → ε) (v : α) (number : Nat) : Except ε α :=
  if number ≤ failing then .error (e number) else .ok v

theorem raceResult_eq_error_iff {failing number : Nat} {e : Nat → ε} {v : α} {error : ε} :
    raceResult failing e v number = .error error ↔ number ≤ failing ∧ e number = error := by
  unfold raceResult
  split <;> simp [*]

theorem raceResult_eq_ok_iff {failing number : Nat} {e : Nat → ε} {v w : α} :
    raceResult failing e v number = .ok w ↔ failing < number ∧ v = w := by
  unfold raceResult
  split <;> simp_all

namespace Stage

/-- The result of a caller that has one. -/
def result? : Stage ε α → Option (Except ε α)
  | served result => some result
  | seeking | computing | publishing _ => none

/-- The stages of callers that are served with the errors of the first computations. -/
def failures (e : Nat → ε) (count : Nat) : Multiset (Stage ε α) :=
  (Multiset.range count).map fun j => served (.error (e (j + 1)))

@[simp] theorem failures_succ (e : Nat → ε) (count : Nat) :
    (failures e (count + 1) : Multiset (Stage ε α)) =
      served (.error (e (count + 1))) ::ₘ failures e count := by
  rw [failures, Multiset.range_succ, Multiset.map_cons, failures]

@[simp] theorem card_failures (e : Nat → ε) (count : Nat) :
    (failures e count : Multiset (Stage ε α)).card = count := by
  rw [failures, Multiset.card_map, Multiset.card_range]

@[simp] theorem mem_failures {e : Nat → ε} {count : Nat} {stage : Stage ε α} :
    stage ∈ failures e count ↔ ∃ j < count, served (.error (e (j + 1))) = stage := by
  simp [failures]

theorem map_result?_failures (e : Nat → ε) (count : Nat) :
    (failures e count : Multiset (Stage ε α)).map result? =
      ↑((List.range count).map fun j => some (Except.error (e (j + 1)) : Except ε α)) := by
  rw [failures, Multiset.map_map]
  rfl

/-- When a caller that seeks is set aside, there is one less that seeks. -/
theorem exists_of_seeking_cons {rest others : Multiset (Stage ε α)} {seekers : Nat}
    (h : seeking ::ₘ rest = Multiset.replicate seekers seeking + others)
    (hothers : seeking ∉ others) :
    ∃ fewer, rest = Multiset.replicate fewer seeking + others := by
  cases seekers with
  | zero =>
    rw [Multiset.replicate_zero, Multiset.zero_add] at h
    exact absurd (h ▸ Multiset.mem_cons_self seeking rest) hothers
  | succ fewer =>
    rw [Multiset.replicate_succ, Multiset.cons_add] at h
    exact ⟨fewer, (Multiset.cons_inj_right seeking).mp h⟩

end Stage

namespace System

variable {s after : System κ ε α} {key : κ}

/-- The stages of all callers. -/
def stages (s : System κ ε α) : Multiset (Stage ε α) := ↑(s.callers.map Caller.stage)

omit [DecidableEq κ] in
/-- When one caller is replaced, the stages of the others stay. -/
theorem exists_stages_eq {i : Nat} {caller next : Caller κ ε α}
    (hcaller : s.callers[i]? = some caller) (hcallers : after.callers = s.callers.set i next) :
    ∃ others, s.stages = caller.stage ::ₘ others ∧ after.stages = next.stage ::ₘ others := by
  obtain ⟨hi, rfl⟩ := List.getElem?_eq_some_iff.mp hcaller
  refine ⟨↑((s.callers.eraseIdx i).map Caller.stage), ?_, ?_⟩
  · rw [stages, Multiset.cons_coe, ← List.map_cons, Multiset.coe_eq_coe]
    exact ((List.getElem_cons_eraseIdx_perm hi).map Caller.stage).symm
  · rw [stages, hcallers, Multiset.cons_coe, ← List.map_cons, Multiset.coe_eq_coe]
    exact (List.set_perm_cons_eraseIdx hi next).map Caller.stage

/-- How the race for a key stands when the first computations fail and the others return the
value. -/
inductive Standing (key : κ) (failing : Nat) (e : Nat → ε) (v : α) (s : System κ ε α) : Prop where
  /-- Some computations have failed, and nobody computes. -/
  | trying (failed seekers : Nat) (hfailed : failed ≤ failing)
    (hstages : s.stages = Multiset.replicate seekers .seeking + Stage.failures e failed)
    (hentries : s.cache.entries = []) (hcomputations : s.cache.computations = 0)
    (hruns : s.runs = failed)
  /-- Some computations have failed, and the next is in progress. -/
  | computing (failed seekers : Nat) (hfailed : failed ≤ failing)
    (hstages : s.stages =
      .computing ::ₘ (Multiset.replicate seekers .seeking + Stage.failures e failed))
    (hentries : s.cache.entries = []) (hcomputations : s.cache.computations = 0)
    (hruns : s.runs = failed + 1)
  /-- A computation has succeeded, and its value is not published. -/
  | publishing (seekers : Nat)
    (hstages : s.stages =
      .publishing v ::ₘ (Multiset.replicate seekers .seeking + Stage.failures e failing))
    (hentries : s.cache.entries = []) (hcomputations : s.cache.computations = 0)
    (hruns : s.runs = failing + 1)
  /-- The value is published, and its publisher and maybe others are served with it. -/
  | published (seekers served : Nat)
    (hstages : s.stages = Multiset.replicate seekers .seeking +
      (Stage.failures e failing + Multiset.replicate (served + 1) (.served (.ok v))))
    (hentries : s.cache.entries = [(key, v)]) (hcomputations : s.cache.computations = 1)
    (hruns : s.runs = failing + 1)

namespace Standing

variable {failing : Nat} {e : Nat → ε} {v : α}

omit [DecidableEq κ] in
/-- The race stands as before when no caller comes to another stage. -/
theorem of_still (h : s.Standing key failing e v) (hstill : s.Still after)
    (hsame : after.stages = s.stages) : after.Standing key failing e v := by
  obtain ⟨hentries, hcomputations, hruns⟩ := hstill
  cases h with
  | trying failed seekers hfailed hstages he hc hr =>
    exact .trying failed seekers hfailed (hsame.trans hstages) (hentries.trans he)
      (hcomputations.trans hc) (hruns.trans hr)
  | computing failed seekers hfailed hstages he hc hr =>
    exact .computing failed seekers hfailed (hsame.trans hstages) (hentries.trans he)
      (hcomputations.trans hc) (hruns.trans hr)
  | publishing seekers hstages he hc hr =>
    exact .publishing seekers (hsame.trans hstages) (hentries.trans he)
      (hcomputations.trans hc) (hruns.trans hr)
  | published seekers served hstages he hc hr =>
    exact .published seekers served (hsame.trans hstages) (hentries.trans he)
      (hcomputations.trans hc) (hruns.trans hr)

omit [DecidableEq κ] in
/-- While somebody computes, the computation is the next after those that have failed. -/
theorem exists_of_computing (h : s.Standing key failing e v) (hmem : .computing ∈ s.stages) :
    ∃ failed seekers, failed ≤ failing ∧
      s.stages = .computing ::ₘ (Multiset.replicate seekers .seeking + Stage.failures e failed) ∧
        s.cache.entries = [] ∧ s.cache.computations = 0 ∧ s.runs = failed + 1 := by
  cases h with
  | computing failed seekers hfailed hstages hentries hcomputations hruns =>
    exact ⟨failed, seekers, hfailed, hstages, hentries, hcomputations, hruns⟩
  | trying _ _ _ hstages => simp [hstages, Multiset.mem_replicate] at hmem
  | publishing _ hstages => simp [hstages, Multiset.mem_replicate] at hmem
  | published _ _ hstages => simp [hstages, Multiset.mem_replicate] at hmem

omit [DecidableEq κ] in
/-- While somebody publishes, it publishes the value, after all computations that fail. -/
theorem exists_of_publishing {value : α} (h : s.Standing key failing e v)
    (hmem : .publishing value ∈ s.stages) :
    value = v ∧ ∃ seekers, s.stages =
        .publishing v ::ₘ (Multiset.replicate seekers .seeking + Stage.failures e failing) ∧
      s.cache.entries = [] ∧ s.cache.computations = 0 ∧ s.runs = failing + 1 := by
  cases h with
  | publishing seekers hstages hentries hcomputations hruns =>
    refine ⟨?_, seekers, hstages, hentries, hcomputations, hruns⟩
    simpa [hstages, Multiset.mem_replicate] using hmem
  | trying _ _ _ hstages => simp [hstages, Multiset.mem_replicate] at hmem
  | computing _ _ _ hstages => simp [hstages, Multiset.mem_replicate] at hmem
  | published _ _ hstages => simp [hstages, Multiset.mem_replicate] at hmem

/-- When the key has a value, it is the value, and its publisher is served with it. -/
theorem exists_of_find? {value : α} (h : s.Standing key failing e v)
    (hfind : s.cache.find? key = some value) :
    value = v ∧ ∃ seekers served, s.stages = Multiset.replicate seekers .seeking +
        (Stage.failures e failing + Multiset.replicate (served + 1) (.served (.ok v))) ∧
      s.cache.entries = [(key, v)] ∧ s.cache.computations = 1 ∧ s.runs = failing + 1 := by
  cases h with
  | published seekers served hstages hentries hcomputations hruns =>
    refine ⟨?_, seekers, served, hstages, hentries, hcomputations, hruns⟩
    simpa [find?, hentries, Association.find?, eq_comm] using hfind
  | trying _ _ _ _ hentries => simp [find?, hentries] at hfind
  | computing _ _ _ _ hentries => simp [find?, hentries] at hfind
  | publishing _ _ hentries => simp [find?, hentries] at hfind

section Turns

variable {others : Multiset (Stage ε α)}

/-- When a caller that finds no value begins to compute, and nobody else computes or publishes, it
makes the next computation. -/
theorem of_compute (h : s.Standing key failing e v) (hbefore : s.stages = .seeking ::ₘ others)
    (hafter : after.stages = .computing ::ₘ others) (hnone : s.cache.find? key = none)
    (hcache : after.cache = s.cache) (hruns : after.runs = s.runs + 1)
    (hcomputing : .computing ∉ s.stages) (hpublishing : ∀ w, .publishing w ∉ s.stages) :
    after.Standing key failing e v := by
  cases h with
  | trying failed seekers hfailed hstages hentries hcomputations hr =>
    obtain ⟨fewer, rfl⟩ := Stage.exists_of_seeking_cons (hbefore.symm.trans hstages) (by simp)
    exact .computing failed fewer hfailed hafter (hcache ▸ hentries) (hcache ▸ hcomputations)
      (by rw [hruns, hr])
  | computing failed seekers hfailed hstages => simp [hstages] at hcomputing
  | publishing seekers hstages =>
    exact absurd (hstages ▸ Multiset.mem_cons_self _ _) (hpublishing v)
  | published seekers served hstages hentries =>
    simp [find?, hentries, Association.find?] at hnone

omit [DecidableEq κ] in
/-- A computation that fails serves its caller with the error of its number. -/
theorem of_fail {error : ε} (h : s.Standing key failing e v)
    (hbefore : s.stages = .computing ::ₘ others)
    (hafter : after.stages = .served (.error error) ::ₘ others) (hstill : s.Still after)
    (hresult : .error error = raceResult failing e v s.runs) : after.Standing key failing e v := by
  obtain ⟨failed, seekers, -, hstages, hentries, hcomputations, hruns⟩ :=
    h.exists_of_computing (hbefore ▸ Multiset.mem_cons_self _ _)
  rw [hbefore, Multiset.cons_inj_right] at hstages
  rw [hruns] at hresult
  obtain ⟨hfailed, rfl⟩ := raceResult_eq_error_iff.mp hresult.symm
  refine .trying (failed + 1) seekers hfailed ?_ (hstill.entries.trans hentries)
    (hstill.computations.trans hcomputations) (hstill.runs.trans hruns)
  rw [hafter, hstages, Stage.failures_succ, Multiset.add_cons]

omit [DecidableEq κ] in
/-- A computation that succeeds is the first after all that fail. -/
theorem of_succeed {value : α} (h : s.Standing key failing e v)
    (hbefore : s.stages = .computing ::ₘ others)
    (hafter : after.stages = .publishing value ::ₘ others) (hstill : s.Still after)
    (hresult : .ok value = raceResult failing e v s.runs) : after.Standing key failing e v := by
  obtain ⟨failed, seekers, hfailed, hstages, hentries, hcomputations, hruns⟩ :=
    h.exists_of_computing (hbefore ▸ Multiset.mem_cons_self _ _)
  rw [hbefore, Multiset.cons_inj_right] at hstages
  rw [hruns] at hresult
  obtain ⟨hlast, rfl⟩ := raceResult_eq_ok_iff.mp hresult.symm
  obtain rfl : failed = failing := Nat.le_antisymm hfailed (Nat.le_of_lt_succ hlast)
  refine .publishing seekers ?_ (hstill.entries.trans hentries)
    (hstill.computations.trans hcomputations) (hstill.runs.trans hruns)
  rw [hafter, hstages]

/-- A value that is published is the only one, and serves its publisher. -/
theorem of_publish {value : α} (h : s.Standing key failing e v)
    (hbefore : s.stages = .publishing value ::ₘ others)
    (hafter : after.stages = .served (.ok (s.cache.publish key value).1) ::ₘ others)
    (hcache : after.cache = (s.cache.publish key value).2) (hruns : after.runs = s.runs) :
    after.Standing key failing e v := by
  obtain ⟨rfl, seekers, hstages, hentries, hcomputations, hr⟩ :=
    h.exists_of_publishing (hbefore ▸ Multiset.mem_cons_self _ _)
  rw [hbefore, Multiset.cons_inj_right] at hstages
  have hnone : s.cache.find? key = none := by
    rw [find?, hentries, Association.find?_nil]
  rw [publish_fst_of_find?_none value hnone] at hafter
  refine .published seekers 0 ?_ ?_ ?_ (hruns.trans hr)
  · rw [hafter, hstages, Multiset.replicate_one, ← Multiset.singleton_add, Multiset.add_comm,
      Multiset.add_assoc]
  · rw [hcache, publish_entries_of_find?_none value hnone, hentries, Association.set]
  · rw [hcache, publish_computations, hcomputations]

/-- A caller that finds a value is served with the value that was published. -/
theorem of_find {value : α} (h : s.Standing key failing e v)
    (hbefore : s.stages = .seeking ::ₘ others)
    (hafter : after.stages = .served (.ok value) ::ₘ others)
    (hfind : s.cache.find? key = some value) (hstill : s.Still after) :
    after.Standing key failing e v := by
  obtain ⟨rfl, seekers, served, hstages, hentries, hcomputations, hruns⟩ := h.exists_of_find? hfind
  obtain ⟨fewer, rfl⟩ :=
    Stage.exists_of_seeking_cons (hbefore.symm.trans hstages) (by simp [Multiset.mem_replicate])
  refine .published fewer (served + 1) ?_ (hstill.entries.trans hentries)
    (hstill.computations.trans hcomputations) (hstill.runs.trans hruns)
  rw [hafter, Multiset.replicate_succ _ (served + 1), Multiset.add_cons, Multiset.add_cons]

/-- A turn of a caller keeps the race standing, if computations end as their numbers say and nobody
begins to compute while another caller computes or publishes. -/
theorem of_turn {event : Event ε α} {stage next : Stage ε α} (h : s.Standing key failing e v)
    (hturn : Turn key s after event stage next) (hbefore : s.stages = stage ::ₘ others)
    (hafter : after.stages = next ::ₘ others)
    (hends : ∀ result, event = .finish event.caller result →
      result = raceResult failing e v s.runs)
    (hquiet : ∀ caller token, s.callers[event.caller]? = some caller →
      caller.phase = .holding key token → .computing ∉ s.stages ∧ ∀ w, .publishing w ∉ s.stages) :
    after.Standing key failing e v := by
  cases hturn with
  | rest stage hstill => exact h.of_still hstill (hafter.trans hbefore.symm)
  | compute hcaller hphase hnone hcache hruns =>
    obtain ⟨hcomputing, hpublishing⟩ := hquiet _ _ hcaller hphase
    exact h.of_compute hbefore hafter hnone hcache hruns hcomputing hpublishing
  | fail hevent hstill => exact h.of_fail hbefore hafter hstill (hends _ hevent)
  | succeed hevent hstill => exact h.of_succeed hbefore hafter hstill (hends _ hevent)
  | publish hcache hruns => exact h.of_publish hbefore hafter hcache hruns
  | find hfind hstill => exact h.of_find hbefore hafter hfind hstill

end Turns

end Standing

/-- The first callers race for the key, and the others have not done anything. Of every racer, one
lookup is counted when it has begun. -/
structure Racing (key : κ) (failing : Nat) (e : Nat → ε) (v : α) (racers : Nat)
    (s : System κ ε α) : Prop where
  seeks : ∀ j < racers, ∀ caller, s.callers[j]? = some caller → caller.Seeks key
  stands : ∀ j, racers ≤ j → ∀ caller, s.callers[j]? = some caller →
    caller.phase = .idle ∧ caller.returned = []
  standing : s.Standing key failing e v
  lookups : s.cache.lookups + s.callers.countP Caller.looks = racers

namespace Racing

variable {failing racers : Nat} {e : Nat → ε} {v : α} {calls : List (List (Call κ α))}

omit [DecidableEq κ] in
/-- Whoever computes or publishes in a race holds the lock of the key. -/
theorem holder?_eq (h : s.Racing key failing e v racers) (hwf : s.WellFormed) {j : Nat}
    {caller : Caller κ ε α} (hcaller : s.callers[j]? = some caller)
    (hstage : caller.stage = .computing ∨ ∃ value, caller.stage = .publishing value) :
    caller.phase.holder? = some key := by
  rcases Nat.lt_or_ge j racers with hlt | hge
  · have hlock := hwf caller (List.mem_of_getElem? hcaller)
    exact (h.seeks j hlt caller hcaller).holder?_eq hlock hstage
  · obtain ⟨hidle, hnone⟩ := h.stands j hge caller hcaller
    simp [Caller.stage, hidle, hnone] at hstage

/-- While a caller holds the lock of the key and looks for a value, nobody computes or publishes. -/
theorem quiet_of_holding (h : s.Racing key failing e v racers) (hreach : Reaches (ofCalls calls) s)
    {i : Nat} {caller : Caller κ ε α} {token : Nat} (hcaller : s.callers[i]? = some caller)
    (hphase : caller.phase = .holding key token) :
    .computing ∉ s.stages ∧ ∀ value, .publishing value ∉ s.stages := by
  have hnobody {stage : Stage ε α}
      (hstage : stage = .computing ∨ ∃ value, stage = .publishing value) : stage ∉ s.stages := by
    intro hmem
    obtain ⟨other, hother, rfl⟩ := List.mem_map.mp (Multiset.mem_coe.mp hmem)
    obtain ⟨j, hj⟩ := List.getElem?_of_mem hother
    have hholder := h.holder?_eq hreach.wellFormed hj hstage
    obtain rfl : i = j := hreach.holder_unique hcaller hj (by rw [hphase]; rfl) hholder
    rw [hcaller] at hj
    cases hj
    simp [Caller.stage, hphase] at hstage
  exact ⟨hnobody (.inl rfl), fun value => hnobody (.inr ⟨value, rfl⟩)⟩

/-- A step of a racer keeps the race, if computations end as their numbers say. -/
theorem of_step? (h : s.Racing key failing e v racers) (hreach : Reaches (ofCalls calls) s)
    {event : Event ε α} (hstep : s.step? event = some after) (hracer : event.caller < racers)
    (hends : ∀ result, event = .finish event.caller result →
      result = raceResult failing e v s.runs) :
    after.Racing key failing e v racers := by
  have hsteps := stepsTo_of_step? hreach.wellFormed hstep
  obtain ⟨caller, _, hcaller, -, hmakes⟩ := hsteps.caller
  have hseeks := h.seeks event.caller hracer caller hcaller
  obtain ⟨next, hcallers, hnext, hlooks, hturn⟩ :=
    turn_of_step? hreach.wellFormed hstep hcaller hseeks
  obtain ⟨others, hbefore, hafter⟩ := exists_stages_eq hcaller hcallers
  refine ⟨fun j hj other hother => ?_, fun j hj other hother => ?_, ?_, ?_⟩
  · by_cases hmover : j = event.caller
    · rw [hmover, hcallers,
        List.getElem?_set_self (List.getElem?_eq_some_iff.mp hcaller).1] at hother
      cases hother
      exact hnext
    · rw [hsteps.getElem?_of_ne hmover] at hother
      exact h.seeks j hj other hother
  · rw [hsteps.getElem?_of_ne (Nat.ne_of_gt (Nat.lt_of_lt_of_le hracer hj))] at hother
    exact h.stands j hj other hother
  · exact h.standing.of_turn hturn hbefore hafter hends fun holder token hholder hphase =>
      h.quiet_of_holding hreach hholder hphase
  · have hlookups := hmakes.lookups hseeks.isClearing_eq
    have hcount := countP_set_add hcaller next Caller.looks
    have hsum := h.lookups
    rw [hlooks, if_neg Bool.false_ne_true] at hcount
    rw [hcallers, hlookups]
    omega

end Racing

/-- All calls have returned. -/
def Returned (s : System κ ε α) : Prop := ∀ caller ∈ s.callers, caller.pending = []

omit [DecidableEq κ] in
/-- A caller that wanted the value of a key and has returned has got its result. -/
theorem exists_resultOf? {j : Nat} {caller : Caller κ ε α} (hcaller : s.callers[j]? = some caller)
    (hseeks : caller.Seeks key) (hreturned : s.Returned) :
    ∃ result, caller.stage = .served result ∧ s.resultOf? j = some result := by
  have hpending := hreturned caller (List.mem_of_getElem? hcaller)
  obtain ⟨pending, phase, returned⟩ := caller
  obtain ⟨hbegun, -⟩ | ⟨hidle, -, result, hresult⟩ := hseeks
  · rw [hpending] at hbegun
    cases hbegun
  · cases hidle
    cases hresult
    refine ⟨result, rfl, ?_⟩
    rw [resultOf?, hcaller]
    rfl

omit [DecidableEq κ] in
/-- When all callers have returned, the results are those of the stages. -/
theorem coe_map_resultOf? {racers : Nat} (hlength : s.callers.length = racers)
    (hseeks : ∀ j < racers, ∀ caller, s.callers[j]? = some caller → caller.Seeks key)
    (hreturned : s.Returned) :
    (↑((List.range racers).map s.resultOf?) : Multiset (Option (Except ε α))) =
      s.stages.map Stage.result? := by
  rw [stages, Multiset.map_coe, List.map_map]
  congr 1
  refine List.ext_getElem (by simp [hlength]) fun j hj hj' => ?_
  rw [List.length_map, List.length_range] at hj
  have hcaller := List.getElem?_eq_getElem (hlength.symm ▸ hj)
  obtain ⟨result, hstage, hresult⟩ := exists_resultOf? hcaller (hseeks j hj _ hcaller) hreturned
  simp [hresult, hstage, Stage.result?]

/-- How a race for a key among so many callers has ended. -/
structure RaceOutcome (key : κ) (failing : Nat) (e : Nat → ε) (v : α) (racers : Nat)
    (s : System κ ε α) : Prop where
  /-- The errors of the first computations come to one caller each, the value to all others. -/
  results : ((List.range racers).map s.resultOf?).Perm
    ((List.range (min racers failing)).map (fun j => some (.error (e (j + 1)))) ++
      List.replicate (racers - min racers failing) (some (.ok v)))
  runs : s.runs = min racers (failing + 1)
  computations : s.cache.computations = if failing < racers then 1 else 0
  lookups : s.cache.hits + s.cache.misses = racers
  published : failing < racers → s.cache.entries = [(key, v)]
  unpublished : racers ≤ failing → s.cache.entries = []
  locks : s.cache.locks = []

namespace Racing

variable {failing racers : Nat} {e : Nat → ε} {v : α}

omit [DecidableEq κ] in
/-- When all callers have returned, each of them is served. -/
theorem served_of_returned (h : s.Racing key failing e v racers)
    (hlength : s.callers.length = racers) (hreturned : s.Returned) (stage : Stage ε α)
    (hmem : stage ∈ s.stages) : ∃ result, stage = .served result := by
  obtain ⟨caller, hcaller, rfl⟩ := List.mem_map.mp (Multiset.mem_coe.mp hmem)
  obtain ⟨j, hj⟩ := List.getElem?_of_mem hcaller
  have hlt : j < racers := hlength ▸ (List.getElem?_eq_some_iff.mp hj).1
  obtain ⟨result, hstage, -⟩ := exists_resultOf? hj (h.seeks j hlt caller hj) hreturned
  exact ⟨result, hstage⟩

omit [DecidableEq κ] in
/-- When all callers have returned, nobody seeks. -/
theorem stages_of_returned (h : s.Racing key failing e v racers)
    (hlength : s.callers.length = racers) (hreturned : s.Returned) {seekers : Nat}
    {others : Multiset (Stage ε α)}
    (hstages : s.stages = Multiset.replicate seekers .seeking + others) : s.stages = others := by
  cases seekers with
  | zero => rw [hstages, Multiset.replicate_zero, Multiset.zero_add]
  | succ seekers =>
    obtain ⟨result, hresult⟩ :=
      h.served_of_returned hlength hreturned .seeking (by simp [hstages])
    cases hresult

omit [DecidableEq κ] in
/-- When all callers have returned, they are between calls. -/
theorem idle_of_returned (h : s.Racing key failing e v racers)
    (hlength : s.callers.length = racers) (hreturned : s.Returned) :
    ∀ caller ∈ s.callers, caller.phase = .idle := by
  intro caller hcaller
  obtain ⟨j, hj⟩ := List.getElem?_of_mem hcaller
  have hlt : j < racers := hlength ▸ (List.getElem?_eq_some_iff.mp hj).1
  obtain ⟨hbegun, -⟩ | ⟨hidle, -⟩ := h.seeks j hlt caller hj
  · rw [hreturned caller hcaller] at hbegun
    cases hbegun
  · exact hidle

/-- A race in which all callers have returned has ended as the number of failing computations
says. -/
theorem outcome {calls : List (List (Call κ α))} (h : s.Racing key failing e v racers)
    (hreach : Reaches (ofCalls calls) s) (hlength : s.callers.length = racers)
    (hreturned : s.Returned) : s.RaceOutcome key failing e v racers := by
  have hlooks : s.callers.countP Caller.looks = 0 := by
    refine List.countP_eq_zero.mpr fun caller hcaller => ?_
    simp [Caller.looks, hreturned caller hcaller]
  have hlookups : s.cache.hits + s.cache.misses = racers := by
    rw [← h.lookups, hlooks]
    rfl
  have hcard : s.stages.card = racers := by
    rw [stages, Multiset.coe_card, List.length_map, hlength]
  have hlocks := hreach.locks_eq_nil (h.idle_of_returned hlength hreturned)
  have hresults := coe_map_resultOf? hlength h.seeks hreturned
  cases h.standing with
  | trying failed seekers hfailed hstages hentries hcomputations hruns =>
    have hall := h.stages_of_returned hlength hreturned hstages
    obtain rfl : failed = racers := by rw [← hcard, hall, Stage.card_failures]
    refine ⟨?_, ?_, ?_, hlookups, fun hlt => ?_, fun _ => hentries, hlocks⟩
    · rw [← Multiset.coe_eq_coe, hresults, hall, Stage.map_result?_failures,
        Nat.min_eq_left hfailed, Nat.sub_self, List.replicate_zero, List.append_nil]
    · rw [hruns, Nat.min_eq_left (Nat.le_succ_of_le hfailed)]
    · rw [hcomputations, if_neg (Nat.not_lt.mpr hfailed)]
    · exact absurd hlt (Nat.not_lt.mpr hfailed)
  | computing failed seekers hfailed hstages =>
    obtain ⟨result, hresult⟩ :=
      h.served_of_returned hlength hreturned .computing (by simp [hstages])
    cases hresult
  | publishing seekers hstages =>
    obtain ⟨result, hresult⟩ :=
      h.served_of_returned hlength hreturned (.publishing v) (by simp [hstages])
    cases hresult
  | published seekers served hstages hentries hcomputations hruns =>
    have hall := h.stages_of_returned hlength hreturned hstages
    have hcount : racers = failing + (served + 1) := by
      rw [← hcard, hall, Multiset.card_add, Stage.card_failures, Multiset.card_replicate]
    have hlt : failing < racers := by omega
    refine ⟨?_, ?_, ?_, hlookups, fun _ => hentries, fun hle => ?_, hlocks⟩
    · rw [← Multiset.coe_eq_coe, hresults, hall, Multiset.map_add, Stage.map_result?_failures,
        Multiset.map_replicate, Nat.min_eq_right (Nat.le_of_lt hlt), ← Multiset.coe_add]
      congr 1
      rw [Multiset.coe_replicate, hcount, Nat.add_sub_cancel_left]
      rfl
    · rw [hruns, Nat.min_eq_right hlt]
    · rw [hcomputations, if_pos hlt]
    · exact absurd hlt (Nat.not_lt.mpr hle)

end Racing

/-- The callers stay as many as they are. -/
theorem Reaches.length_callers {start t : System κ ε α} (h : Reaches start t)
    (hwf : start.WellFormed) : t.callers.length = start.callers.length := by
  refine (h.induct (P := fun t => t.callers.length = start.callers.length) hwf rfl
    fun mid i after hstep hlength => ?_).2
  obtain ⟨caller, next, -, hcallers, -⟩ := hstep
  rw [hcallers, List.length_set, hlength]

omit [DecidableEq κ] in
/-- Before the race begins, all racers seek. -/
theorem racing_ofCalls (key : κ) (failing : Nat) (e : Nat → ε) (v : α) (racers : Nat)
    (outsiders : List (List (Call κ α)))
    (hquiet : ∀ calls ∈ outsiders, Caller.looks ({ pending := calls } : Caller κ ε α) = false) :
    (ofCalls (List.replicate racers [.getOrCompute key] ++ outsiders) : System κ ε α).Racing
      key failing e v racers := by
  have hcallers : (ofCalls (List.replicate racers [.getOrCompute key] ++ outsiders) :
      System κ ε α).callers = List.replicate racers { pending := [.getOrCompute key] } ++
        outsiders.map fun calls => { pending := calls } := by
    simp [ofCalls]
  have hfresh {j : Nat} {caller : Caller κ ε α}
      (hcaller : (ofCalls (List.replicate racers [.getOrCompute key] ++ outsiders) :
        System κ ε α).callers[j]? = some caller) :
      caller.phase = .idle ∧ caller.returned = [] := by
    obtain ⟨calls, -, rfl⟩ := List.mem_map.mp (List.mem_of_getElem? hcaller)
    exact ⟨rfl, rfl⟩
  refine ⟨fun j hj caller hcaller => ?_, fun j _ caller hcaller => hfresh hcaller, ?_, ?_⟩
  · rw [hcallers, List.getElem?_append_left (by simpa using hj),
      List.getElem?_replicate_of_lt hj] at hcaller
    cases hcaller
    exact .inl ⟨rfl, rfl⟩
  · refine .trying 0 (racers + outsiders.length) (Nat.zero_le _) ?_ rfl rfl rfl
    rw [Stage.failures, Multiset.range_zero, Multiset.map_zero, Multiset.add_zero,
      Multiset.eq_replicate]
    refine ⟨by simp [stages, hcallers], fun stage hstage => ?_⟩
    obtain ⟨caller, hcaller, rfl⟩ := List.mem_map.mp (Multiset.mem_coe.mp hstage)
    obtain ⟨j, hj⟩ := List.getElem?_of_mem hcaller
    obtain ⟨hidle, hnone⟩ := hfresh hj
    simp [Caller.stage, hidle, hnone]
  · have houtside : (outsiders.map fun calls => ({ pending := calls } : Caller κ ε α)).countP
        Caller.looks = 0 := by
      refine List.countP_eq_zero.mpr fun caller hcaller => ?_
      obtain ⟨calls, hcalls, rfl⟩ := List.mem_map.mp hcaller
      rw [hquiet calls hcalls]
      exact Bool.false_ne_true
    rw [hcallers, List.countP_append, houtside, List.countP_replicate]
    simp [ofCalls, lookups, Caller.looks]

end System

end KotlinNullability.Cache
