import KotlinNullability.Proofs.Cache.Progress
import KotlinNullability.Proofs.Cache.Registry

/-!
# One computation for a key

A lock that is held cannot be taken, and all callers on a key are on the same lock, so at most one
of them is between taking the lock of the key and releasing it. When a computation has succeeded,
its value comes to the key before the lock is free again, and whoever takes the lock later finds it:
unless the cache is cleared, nobody computes for the key any more.
-/

namespace KotlinNullability.Cache

variable {κ ε α : Type} [DecidableEq κ]

/-- The key whose lock a caller holds. -/
def Phase.holder? : Phase κ ε α → Option κ
  | holding key _ | computing key _ | publishing key _ _ | releasing key _ _ => some key
  | idle | waiting .. | leaving .. => none

omit [DecidableEq κ] in
/-- Whoever holds the lock of a key is registered on it. -/
theorem Phase.lock_of_holder? {phase : Phase κ ε α} {key : κ} (h : phase.holder? = some key) :
    ∃ token, phase.held? = some token ∧ phase.registered? = some (key, token) := by
  cases phase <;> cases h <;> exact ⟨_, rfl, rfl⟩

omit [DecidableEq κ] in
/-- Whoever computes for a key holds its lock. -/
theorem Phase.holder?_of_computing? {phase : Phase κ ε α} {key : κ}
    (h : phase.computing? = some key) : phase.holder? = some key := by
  cases phase <;> cases h
  rfl

/-- A caller that has a value to publish gives the key a value with its next step. -/
theorem Caller.Steps.find?_of_publishing {free : Nat → Prop} {c d : Cache κ α}
    {caller next : Caller κ ε α} (h : caller.Steps free c d next) {key : κ} {token : Nat}
    {value : α} (hphase : caller.phase = .publishing key token value) : (d.find? key).isSome := by
  cases h with
  | move hmove =>
    cases hphase
    cases hmove
    exact Option.isSome_of_mem (find?_publish_self c key value)
  | _ => simp at hphase

/-- A caller that waits for a lock can only take it, when it is free. -/
theorem Caller.Steps.free_of_waiting {free : Nat → Prop} {c d : Cache κ α}
    {caller next : Caller κ ε α} (h : caller.Steps free c d next) {key : κ} {token : Nat}
    (hphase : caller.phase = .waiting key token) : free token := by
  cases h with
  | move hmove =>
    cases hphase
    cases hmove with
    | acquire hfree => exact hfree
  | _ => simp at hphase

/-- A caller begins to compute only after it has looked for a value again, while it holds the lock
of the key. -/
theorem Caller.Steps.holding_of_computing {free : Nat → Prop} {c d : Cache κ α}
    {caller next : Caller κ ε α} (h : caller.Steps free c d next) {key : κ}
    (hnext : next.phase.computing? = some key) :
    ∃ token, caller.phase = .holding key token ∧ c.find? key = none := by
  cases h with
  | move hmove =>
    cases hmove with
    | compute hfind =>
      cases hnext
      exact ⟨_, rfl, hfind⟩
    | _ => simp [Phase.computing?] at hnext
  | _ => simp [Phase.computing?] at hnext

namespace System

variable {calls : List (List (Call κ α))} {s after : System κ ε α} {i j : Nat}
  {a b : Caller κ ε α} {key : κ}

/-- No lock is held by two callers. -/
def Exclusive (s : System κ ε α) : Prop :=
  ∀ (i j : Nat) (a b : Caller κ ε α) (token : Nat), s.callers[i]? = some a →
    s.callers[j]? = some b → a.phase.held? = some token → b.phase.held? = some token → i = j

omit [DecidableEq κ] in
/-- A lock that is free is held by nobody. -/
theorem not_held_of_isFree {token : Nat} (h : s.isFree token = true)
    (hcaller : s.callers[i]? = some a) : a.phase.held? ≠ some token :=
  bne_iff_ne.mp (List.all_eq_true.mp h a (List.mem_of_getElem? hcaller))

/-- A step gives nobody a lock that is held by another caller. -/
theorem StepsTo.exclusive (h : s.StepsTo i after) (hexclusive : s.Exclusive) : after.Exclusive := by
  obtain ⟨caller, next, hcaller, hnext, hsteps⟩ := h.caller
  -- Only the caller that makes the step may hold what it did not hold before, and that was free.
  have hother {j : Nat} {b : Caller κ ε α} {token : Nat} (hj : j ≠ i)
      (hb : after.callers[j]? = some b) (hheld : b.phase.held? = some token)
      (hmine : next.phase.held? = some token) : False := by
    rw [h.getElem?_of_ne hj] at hb
    rcases hsteps.held?_or_free hmine with hbefore | hfree
    · exact hj (hexclusive j i b caller token hb hcaller hheld hbefore)
    · exact not_held_of_isFree hfree hb hheld
  intro j k b d token hb hd hheldb hheldd
  by_cases hj : j = i
  · by_cases hk : k = i
    · rw [hj, hk]
    · rw [hj, hnext] at hb
      cases hb
      exact (hother hk hd hheldd hheldb).elim
  · by_cases hk : k = i
    · rw [hk, hnext] at hd
      cases hd
      exact (hother hj hb hheldb hheldd).elim
    · rw [h.getElem?_of_ne hj] at hb
      rw [h.getElem?_of_ne hk] at hd
      exact hexclusive j k b d token hb hd hheldb hheldd

/-- In no state that is reached a lock is held by two callers. -/
theorem Reaches.exclusive (h : Reaches (ofCalls calls) s) : s.Exclusive := by
  refine (h.induct (wellFormed_ofCalls calls) ?_ fun _ _ _ hstep hexclusive =>
    hstep.exclusive hexclusive).2
  intro i j a b token ha _ hheld _
  obtain ⟨_, -, rfl⟩ := List.mem_map.mp (List.mem_of_getElem? ha)
  cases hheld

/-- Callers that are registered on a key are registered on the same lock. -/
theorem Reaches.token_unique (h : Reaches (ofCalls calls) s) (ha : s.callers[i]? = some a)
    (hb : s.callers[j]? = some b) {t u : Nat} (hta : a.phase.registered? = some (key, t))
    (htb : b.phase.registered? = some (key, u)) : t = u := by
  have hfirst := (h.accounted key).token a (List.mem_of_getElem? ha) t hta
  have hsecond := (h.accounted key).token b (List.mem_of_getElem? hb) u htb
  rw [hfirst] at hsecond
  exact Option.some.inj hsecond

/-- The lock of a key is held by one caller at most. -/
theorem Reaches.holder_unique (h : Reaches (ofCalls calls) s) (ha : s.callers[i]? = some a)
    (hb : s.callers[j]? = some b) (hholda : a.phase.holder? = some key)
    (hholdb : b.phase.holder? = some key) : i = j := by
  obtain ⟨t, hheldt, hta⟩ := Phase.lock_of_holder? hholda
  obtain ⟨u, hheldu, htb⟩ := Phase.lock_of_holder? hholdb
  rw [← h.token_unique ha hb hta htb] at hheldu
  exact h.exclusive i j a b t ha hb hheldt hheldu

/-- The lock of a key that somebody holds is not free for others on the key. -/
theorem Reaches.not_isFree (h : Reaches (ofCalls calls) s) (ha : s.callers[i]? = some a)
    (hb : s.callers[j]? = some b) (hholda : a.phase.holder? = some key) {token : Nat}
    (htoken : b.phase.registered? = some (key, token)) : s.isFree token ≠ true := by
  obtain ⟨t, hheldt, hta⟩ := Phase.lock_of_holder? hholda
  intro hfree
  rw [h.token_unique ha hb hta htoken] at hheldt
  exact not_held_of_isFree hfree ha hheldt

/-- The key has a value or is about to get one, and nobody computes another. -/
structure Settled (s : System κ ε α) (key : κ) : Prop where
  value : (s.cache.find? key).isSome ∨ ∃ (j : Nat) (p : Caller κ ε α) (token : Nat) (value : α),
    s.callers[j]? = some p ∧ p.phase = .publishing key token value
  quiet : ∀ (j : Nat) (p : Caller κ ε α), s.callers[j]? = some p → p.phase.computing? ≠ some key

/-- Whoever holds the lock of a settled key, and has nothing to publish, finds a value. -/
theorem Settled.find?_isSome (h : s.Settled key) (hreach : Reaches (ofCalls calls) s)
    (ha : s.callers[i]? = some a) (hhold : a.phase.holder? = some key)
    (hphase : ∀ token value, a.phase ≠ .publishing key token value) :
    (s.cache.find? key).isSome := by
  rcases h.value with hvalue | ⟨j, p, token, value, hp, hpublishing⟩
  · exact hvalue
  · have hsame : i = j := hreach.holder_unique ha hp hhold (by rw [hpublishing]; rfl)
    rw [hsame, hp] at ha
    cases ha
    exact absurd hpublishing (hphase token value)

/-- Whoever finds the lock of a settled key free finds a value. -/
theorem Settled.find?_isSome_of_isFree (h : s.Settled key) (hreach : Reaches (ofCalls calls) s)
    (hb : s.callers[j]? = some b) {token : Nat} (htoken : b.phase.registered? = some (key, token))
    (hfree : s.isFree token = true) : (s.cache.find? key).isSome := by
  rcases h.value with hvalue | ⟨k, p, t, value, hp, hpublishing⟩
  · exact hvalue
  · have hhold : p.phase.holder? = some key := by
      rw [hpublishing]
      rfl
    exact absurd hfree (hreach.not_isFree hp hb hhold htoken)

/-- A step that does not clear the cache leaves a settled key settled. -/
theorem StepsTo.settled (h : s.StepsTo i after) (hreach : Reaches (ofCalls calls) s)
    (hclear : ∀ caller, s.callers[i]? = some caller → caller.isClearing = false)
    (hsettled : s.Settled key) : after.Settled key := by
  obtain ⟨caller, next, hcaller, hnext, hsteps⟩ := h.caller
  refine ⟨?_, fun j p hp hcomputing => ?_⟩
  · rcases hsettled.value with hvalue | ⟨j, p, token, value, hp, hphase⟩
    · obtain ⟨value, hvalue⟩ := Option.isSome_iff_exists.mp hvalue
      exact .inl (Option.isSome_of_mem (hsteps.find?_of_some (hclear caller hcaller) hvalue))
    · by_cases hj : j = i
      · rw [hj, hcaller] at hp
        cases hp
        exact .inl (hsteps.find?_of_publishing hphase)
      · exact .inr ⟨j, p, token, value, by rw [h.getElem?_of_ne hj, hp], hphase⟩
  · by_cases hj : j = i
    · rw [hj, hnext] at hp
      cases hp
      obtain ⟨token, hholding, hnone⟩ := hsteps.holding_of_computing hcomputing
      have hvalue := hsettled.find?_isSome hreach hcaller (by rw [hholding]; rfl)
        fun t v => by simp [hholding]
      rw [hnone] at hvalue
      cases hvalue
    · rw [h.getElem?_of_ne hj] at hp
      exact hsettled.quiet j p hp hcomputing

/-- A computation for a key that succeeds settles the key. -/
theorem settled_of_finish (hreach : Reaches (ofCalls calls) s) (ha : s.callers[i]? = some a)
    (hcomputing : a.phase.computing? = some key) {value : α}
    (hstep : s.step? (.finish i (.ok value)) = some after) : after.Settled key := by
  have h : s.StepsTo i after := stepsTo_of_step? hreach.wellFormed hstep
  have hhold : a.phase.holder? = some key := Phase.holder?_of_computing? hcomputing
  obtain ⟨next, token, hnext, hphase⟩ : ∃ (next : Caller κ ε α) (token : Nat),
      after.callers[i]? = some next ∧ next.phase = .publishing key token value := by
    obtain ⟨pending, phase, returned⟩ := a
    cases phase <;> cases hcomputing
    rw [step?, ha, Option.bind_some] at hstep
    cases hstep
    exact ⟨_, _, List.getElem?_set_self (List.getElem?_eq_some_iff.mp ha).1, rfl⟩
  refine ⟨.inr ⟨i, next, token, value, hnext, hphase⟩, fun j p hp hother => ?_⟩
  by_cases hj : j = i
  · rw [hj, hnext] at hp
    cases hp
    rw [hphase] at hother
    cases hother
  · rw [h.getElem?_of_ne hj] at hp
    exact hj (hreach.holder_unique hp ha (Phase.holder?_of_computing? hother) hhold)

end System

end KotlinNullability.Cache
