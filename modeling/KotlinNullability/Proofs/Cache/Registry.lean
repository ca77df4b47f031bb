import KotlinNullability.Proofs.Cache.Step

/-!
# The registry of locks

The registry has a lock for a key exactly while some caller is registered on the key, from the step
with which it enters to the step with which it leaves. The lock counts these callers, and it is the
one that all of them hold or wait for. Whatever the callers do, every event keeps the account.
-/

namespace KotlinNullability.Cache

variable {κ ε α : Type} [DecidableEq κ]

/-- Whether a caller is registered on a key. -/
def Caller.isOn (key : κ) (caller : Caller κ ε α) : Bool :=
  caller.phase.registered?.any fun lock => lock.1 = key

/-- A caller on a key is registered on a lock of the key. -/
theorem Caller.isOn_iff {key : κ} {caller : Caller κ ε α} :
    caller.isOn key = true ↔ ∃ token, caller.phase.registered? = some (key, token) := by
  unfold isOn
  cases caller.phase.registered? with
  | none => simp
  | some lock =>
    obtain ⟨k, token⟩ := lock
    simp [eq_comm]

omit [DecidableEq κ] in
/-- When one caller is replaced, the number of callers with a property changes by what this caller
does. -/
theorem countP_set_add {callers : List (Caller κ ε α)} {i : Nat} {caller : Caller κ ε α}
    (hcaller : callers[i]? = some caller) (next : Caller κ ε α) (p : Caller κ ε α → Bool) :
    (callers.set i next).countP p + (if p caller then 1 else 0) =
      callers.countP p + (if p next then 1 else 0) := by
  obtain ⟨hi, hget⟩ := List.getElem?_eq_some_iff.mp hcaller
  have hset := List.countP_set (p := p) (a := next) hi
  have hpositive : p caller = true → 0 < callers.countP p :=
    fun hp => List.countP_pos_iff.mpr ⟨caller, List.mem_of_getElem? hcaller, hp⟩
  rw [hset, hget]
  by_cases hp : p caller
  · have hpos := hpositive hp
    rw [if_pos hp]
    omega
  · rw [if_neg hp]
    omega

namespace System

/-- The number of callers that are registered on a key. -/
def registered (s : System κ ε α) (key : κ) : Nat := s.callers.countP (Caller.isOn key)

/-- The lock of the key counts the callers that are registered on the key, and is the lock that they
are registered on. -/
structure Accounted (s : System κ ε α) (key : κ) : Prop where
  count : s.cache.users key = s.registered key
  positive : ∀ lock, s.cache.lock? key = some lock → 0 < lock.users
  token : ∀ caller ∈ s.callers, ∀ token, caller.phase.registered? = some (key, token) →
    (s.cache.lock? key).map KeyLock.token = some token

namespace Accounted

variable {s after : System κ ε α} {key : κ} {i : Nat} {caller next : Caller κ ε α}

/-- When one caller is replaced, the number of callers on a key changes by what this caller does. -/
theorem registered_set (key : κ) (hcaller : s.callers[i]? = some caller)
    (hcallers : after.callers = s.callers.set i next) :
    after.registered key + (if caller.isOn key then 1 else 0) =
      s.registered key + (if next.isOn key then 1 else 0) := by
  rw [registered, registered, hcallers]
  exact countP_set_add hcaller next (Caller.isOn key)

/-- The account of a key is kept where neither its lock nor the caller's registration on it
change. -/
theorem frame (h : s.Accounted key) (hcaller : s.callers[i]? = some caller)
    (hcallers : after.callers = s.callers.set i next)
    (hlock : after.cache.lock? key = s.cache.lock? key)
    (hon : ∀ token, next.phase.registered? = some (key, token) ↔
      caller.phase.registered? = some (key, token)) :
    after.Accounted key := by
  have hsame : next.isOn key = caller.isOn key := by
    rw [Bool.eq_iff_iff, Caller.isOn_iff, Caller.isOn_iff]
    exact exists_congr hon
  have hcount := registered_set key hcaller hcallers
  rw [hsame] at hcount
  refine ⟨?_, ?_, ?_⟩
  · rw [Cache.users, hlock, ← Cache.users, h.count]
    omega
  · rw [hlock]
    exact h.positive
  · intro other hother token htoken
    rw [hlock]
    rw [hcallers] at hother
    rcases List.mem_or_eq_of_mem_set hother with hold | rfl
    · exact h.token other hold token htoken
    · exact h.token caller (List.mem_of_getElem? hcaller) token ((hon token).mp htoken)

/-- A caller that registers on the key is counted. -/
theorem register (h : s.Accounted key) (hcaller : s.callers[i]? = some caller)
    (hcallers : after.callers = s.callers.set i next) {token : Nat}
    (henter : s.cache.enter key = (.registered token, after.cache))
    (hbefore : caller.phase.registered? = none)
    (hnext : next.phase.registered? = some (key, token)) :
    after.Accounted key := by
  obtain ⟨hlock, hsame⟩ := lock?_of_enter_registered henter
  have hcount := registered_set key hcaller hcallers
  have hoff : caller.isOn key = false := by rw [Caller.isOn, hbefore, Option.any_none]
  have hon : next.isOn key = true := Caller.isOn_iff.mpr ⟨token, hnext⟩
  rw [hoff, hon, if_neg Bool.false_ne_true, if_pos rfl] at hcount
  refine ⟨?_, ?_, ?_⟩
  · rw [Cache.users, hlock, Option.elim_some, h.count]
    dsimp only
    omega
  · intro lock hnew
    rw [hlock] at hnew
    cases hnew
    exact Nat.succ_pos _
  · intro other hother t ht
    rw [hlock, Option.map_some]
    rw [hcallers] at hother
    rcases List.mem_or_eq_of_mem_set hother with hold | rfl
    · obtain ⟨lock, hfound, rfl⟩ := Option.map_eq_some_iff.mp (h.token other hold t ht)
      rw [hsame lock hfound]
    · rw [hnext] at ht
      cases ht
      rfl

/-- A caller that leaves the key is counted no longer. -/
theorem leave (h : s.Accounted key) (hcaller : s.callers[i]? = some caller)
    (hcallers : after.callers = s.callers.set i next) {token : Nat}
    (hcache : after.cache = s.cache.leave key token)
    (hbefore : caller.phase.registered? = some (key, token))
    (hnext : next.phase.registered? = none) :
    after.Accounted key := by
  have hcount := registered_set key hcaller hcallers
  have hoff : next.isOn key = false := by rw [Caller.isOn, hnext, Option.any_none]
  have hon : caller.isOn key = true := Caller.isOn_iff.mpr ⟨token, hbefore⟩
  rw [hoff, hon, if_neg Bool.false_ne_true, if_pos rfl] at hcount
  obtain ⟨lock, hlock, rfl⟩ := Option.map_eq_some_iff.mp
    (h.token caller (List.mem_of_getElem? hcaller) token hbefore)
  have husers : lock.users = s.registered key := by
    rw [← h.count, Cache.users, hlock, Option.elim_some]
  have hafter := lock?_leave_self hlock
  rw [← hcache] at hafter
  by_cases hlast : lock.users ≤ 1
  · -- Nobody else is on the key, so there is nothing left to account for.
    rw [if_pos hlast] at hafter
    have hnobody : after.registered key = 0 := by omega
    refine ⟨?_, ?_, ?_⟩
    · rw [Cache.users, hafter, hnobody, Option.elim_none]
    · rw [hafter]
      exact fun _ hnone => by cases hnone
    · intro other hother t ht
      exact absurd (Caller.isOn_iff.mpr ⟨t, ht⟩) (List.countP_eq_zero.mp hnobody other hother)
  · rw [if_neg hlast] at hafter
    refine ⟨?_, ?_, ?_⟩
    · rw [Cache.users, hafter, Option.elim_some]
      dsimp only
      omega
    · intro fewer hfewer
      rw [hafter] at hfewer
      cases hfewer
      dsimp only
      omega
    · intro other hother t ht
      rw [hafter, Option.map_some]
      rw [hcallers] at hother
      rcases List.mem_or_eq_of_mem_set hother with hold | rfl
      · have htoken := h.token other hold t ht
        rw [hlock, Option.map_some] at htoken
        exact htoken
      · rw [hnext] at ht
        cases ht

end Accounted

/-- A step keeps the account of every key. -/
theorem StepsTo.accounted {s after : System κ ε α} {i : Nat} (h : s.StepsTo i after) {key : κ}
    (haccount : s.Accounted key) : after.Accounted key := by
  obtain ⟨caller, next, hcaller, hcallers, hsteps⟩ := h
  rcases hsteps.registration with ⟨hsame, hlocks⟩ | ⟨k, token, hbefore, hnext, henter⟩ |
    ⟨k, token, hbefore, hnext, hleave⟩
  · refine haccount.frame hcaller hcallers ?_ fun token => by rw [hsame]
    rw [lock?, lock?, hlocks]
  · by_cases hk : key = k
    · subst hk
      exact haccount.register hcaller hcallers henter hbefore hnext
    · refine haccount.frame hcaller hcallers ?_ fun t => ?_
      · have hother := lock?_enter_of_ne s.cache hk
        rwa [henter] at hother
      · rw [hbefore, hnext]
        simp [Ne.symm hk]
  · by_cases hk : key = k
    · subst hk
      exact haccount.leave hcaller hcallers hleave hbefore hnext
    · refine haccount.frame hcaller hcallers ?_ fun t => ?_
      · rw [hleave, lock?_leave_of_ne s.cache hk]
      · rw [hbefore, hnext]
        simp [Ne.symm hk]

/-- Whatever state is reached, the account of every key is kept. -/
theorem Reaches.accounted {calls : List (List (Call κ α))} {s : System κ ε α}
    (h : Reaches (ofCalls calls) s) (key : κ) : s.Accounted key := by
  refine (h.induct (wellFormed_ofCalls calls) ?_ fun _ _ _ hstep haccount =>
    hstep.accounted haccount).2
  refine ⟨?_, ?_, fun caller hcaller token htoken => ?_⟩
  · refine (List.countP_eq_zero.mpr fun caller hcaller => ?_).symm
    obtain ⟨pending, _, rfl⟩ := List.mem_map.mp hcaller
    exact Bool.false_ne_true
  · intro lock hlock
    cases hlock
  · obtain ⟨pending, _, rfl⟩ := List.mem_map.mp hcaller
    cases htoken

/-- A key that nobody is registered on has no lock. -/
theorem Reaches.lock?_eq_none {calls : List (List (Call κ α))} {s : System κ ε α}
    (h : Reaches (ofCalls calls) s) {key : κ}
    (hoff : ∀ caller ∈ s.callers, caller.isOn key = false) : s.cache.lock? key = none := by
  have haccount := h.accounted key
  cases hlock : s.cache.lock? key with
  | none => rfl
  | some lock =>
    have hcount : lock.users = s.callers.countP (Caller.isOn key) := by
      rw [← registered, ← haccount.count, Cache.users, hlock, Option.elim_some]
    obtain ⟨caller, hcaller, hon⟩ :=
      List.countP_pos_iff.mp (hcount ▸ haccount.positive lock hlock)
    rw [hoff caller hcaller] at hon
    cases hon

/-- While all callers are between calls, there is no lock. -/
theorem Reaches.locks_eq_nil {calls : List (List (Call κ α))} {s : System κ ε α}
    (h : Reaches (ofCalls calls) s) (hidle : ∀ caller ∈ s.callers, caller.phase = .idle) :
    s.cache.locks = [] := by
  cases hlocks : s.cache.locks with
  | nil => rfl
  | cons entry locks =>
    obtain ⟨key, lock⟩ := entry
    have hlock : s.cache.lock? key = some lock := by
      rw [lock?, hlocks, Association.find?, if_pos rfl]
    have hnone : s.cache.lock? key = none := h.lock?_eq_none fun caller hcaller => by
      rw [Caller.isOn, hidle caller hcaller]
      rfl
    rw [hlock] at hnone
    cases hnone

/-- In every state that is reached, a key has a lock exactly if some caller is registered on the
key; the lock counts these callers, and it is the one that all of them are registered on. So there
is no lock when no call for a value is in progress. -/
theorem Reaches.registry {calls : List (List (Call κ α))} {s : System κ ε α}
    (h : Reaches (ofCalls calls) s) :
    (∀ key, ((s.cache.lock? key).isSome ↔ ∃ caller ∈ s.callers, caller.isOn key = true) ∧
      ∀ lock, s.cache.lock? key = some lock →
        lock.users = s.callers.countP (Caller.isOn key) ∧
          ∀ caller ∈ s.callers, ∀ token, caller.phase.registered? = some (key, token) →
            token = lock.token) ∧
      ((∀ caller ∈ s.callers, caller.phase = .idle) → s.cache.locks = []) := by
  have hlocked (key : κ) :
      (s.cache.lock? key).isSome ↔ ∃ caller ∈ s.callers, caller.isOn key = true := by
    have haccount := h.accounted key
    constructor
    · intro hlock
      obtain ⟨lock, hlock⟩ := Option.isSome_iff_exists.mp hlock
      have hcount := haccount.count
      rw [Cache.users, hlock, Option.elim_some] at hcount
      have hpositive := haccount.positive lock hlock
      rw [hcount] at hpositive
      exact List.countP_pos_iff.mp hpositive
    · rintro ⟨caller, hcaller, hon⟩
      obtain ⟨token, htoken⟩ := Caller.isOn_iff.mp hon
      obtain ⟨lock, hlock, -⟩ :=
        Option.map_eq_some_iff.mp (haccount.token caller hcaller token htoken)
      exact Option.isSome_of_mem hlock
  refine ⟨fun key => ⟨hlocked key, fun lock hlock =>
    ⟨?_, fun caller hcaller token htoken => ?_⟩⟩, ?_⟩
  · have hcount := (h.accounted key).count
    rwa [Cache.users, hlock, Option.elim_some] at hcount
  · have hsame := (h.accounted key).token caller hcaller token htoken
    rw [hlock, Option.map_some] at hsame
    exact (Option.some.inj hsame).symm
  · intro hidle
    cases hlocks : s.cache.locks with
    | nil => rfl
    | cons entry locks =>
      have hfirst : (s.cache.lock? entry.1).isSome := by
        rw [lock?, hlocks, Association.find?, if_pos rfl, Option.isSome_some]
      obtain ⟨caller, hcaller, hon⟩ := (hlocked entry.1).mp hfirst
      rw [Caller.isOn, hidle caller hcaller] at hon
      cases hon

/-- Two callers that want the same value share one lock, which counts both. -/
theorem Reaches.registry_shared :
    ∃ s : System Nat Unit Nat, Reaches (ofCalls [[.getOrCompute 7], [.getOrCompute 7]]) s ∧
      ∃ lock, s.cache.lock? 7 = some lock ∧ lock.users = 2 ∧
        lock.users = s.callers.countP (Caller.isOn 7) := by
  have h : Reaches (ofCalls [[.getOrCompute 7], [.getOrCompute 7]] : System Nat Unit Nat) _ :=
    .step (.step 1) (.step (.step 0) (.refl _) rfl) rfl
  exact ⟨_, h, _, rfl, rfl, ((Reaches.registry h).1 7).2 _ rfl |>.1⟩

end System

end KotlinNullability.Cache
