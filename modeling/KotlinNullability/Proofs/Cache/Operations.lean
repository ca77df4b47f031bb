import KotlinNullability.Cache

/-!
# What the operations of a cache do to its values and locks

Publishing gives a key a value if it has none, clearing takes all values away, and no other
operation touches them. Entering registers the caller on the lock of the key and leaving takes the
registration back; no other operation touches the locks.
-/

namespace KotlinNullability.Cache

variable {κ α ε : Type} [DecidableEq κ] (c : Cache κ α) (key other : κ) (value : α)

/-- The lock of a key, if it has one. -/
def lock? : Option KeyLock := Association.find? key c.locks

/-- The number of callers that the lock of a key counts. -/
def users : Nat := (c.lock? key).elim 0 KeyLock.users

/-- The number of lookups that were counted. -/
def lookups : Nat := c.hits + c.misses

@[simp] theorem get_fst : (c.get key).1 = c.find? key := by
  unfold get
  cases c.find? key <;> rfl

@[simp] theorem find?_get : (c.get key).2.find? other = c.find? other := by
  unfold get
  cases c.find? key <;> rfl

@[simp] theorem get_locks : (c.get key).2.locks = c.locks := by
  unfold get
  cases c.find? key <;> rfl

/-- Getting counts one lookup. -/
theorem get_lookups : (c.get key).2.lookups = c.lookups + 1 := by
  unfold get lookups
  cases c.find? key with
  | some value => exact Nat.add_right_comm c.hits 1 c.misses
  | none => rfl

/-- After a value was put for a key, the key has the value that was returned. -/
theorem find?_put_self : (c.put key value).2.find? key = some (c.put key value).1 := by
  unfold put
  cases h : c.find? key with
  | none => exact Association.find?_set_self key value c.entries
  | some earlier => exact h

/-- A value that is put for a key changes no other key. -/
theorem find?_put_of_ne {key other : κ} (h : other ≠ key) :
    (c.put key value).2.find? other = c.find? other := by
  unfold put
  cases c.find? key with
  | none => exact Association.find?_set_of_ne h value c.entries
  | some earlier => rfl

/-- Where there is a value already, nothing is put. -/
theorem put_of_find?_some {c : Cache κ α} {key : κ} {earlier : α} (h : c.find? key = some earlier) :
    c.put key value = (earlier, c) := by
  rw [put, h]

/-- Where there is none, the value is returned that was put. -/
theorem put_fst_of_find?_none {c : Cache κ α} {key : κ} (h : c.find? key = none) :
    (c.put key value).1 = value := by
  rw [put, h]

/-- A value stays when something is put, for its key or for another one. -/
theorem find?_put_of_some {c : Cache κ α} {other : κ} {w : α} (h : c.find? other = some w) :
    (c.put key value).2.find? other = some w := by
  by_cases hkey : other = key
  · subst hkey
    rw [put_of_find?_some value h]
    exact h
  · rw [find?_put_of_ne c value hkey, h]

@[simp] theorem put_locks : (c.put key value).2.locks = c.locks := by
  unfold put
  cases c.find? key <;> rfl

@[simp] theorem put_lookups : (c.put key value).2.lookups = c.lookups := by
  unfold put
  cases c.find? key <;> rfl

@[simp] theorem put_computations : (c.put key value).2.computations = c.computations := by
  unfold put
  cases c.find? key <;> rfl

/-- The value that is returned is the earlier one if there is one. -/
theorem publish_fst : (c.publish key value).1 = (c.find? key).getD value := by
  have hsame : { c with computations := c.computations + 1 }.find? key = c.find? key := rfl
  rw [publish, put, hsame]
  cases c.find? key <;> rfl

/-- A value that is published for a key changes no other key. -/
theorem find?_publish_of_ne {key other : κ} (h : other ≠ key) :
    (c.publish key value).2.find? other = c.find? other :=
  find?_put_of_ne _ value h

/-- After a value was published for a key, the key has the value that was returned. -/
theorem find?_publish_self : (c.publish key value).2.find? key = some (c.publish key value).1 :=
  find?_put_self _ key value

/-- Where there is no value yet, the one is returned that was published. -/
theorem publish_fst_of_find?_none {c : Cache κ α} {key : κ} (h : c.find? key = none) :
    (c.publish key value).1 = value :=
  put_fst_of_find?_none value h

/-- Where there is no value yet, publishing adds one. -/
theorem publish_entries_of_find?_none {c : Cache κ α} {key : κ} (h : c.find? key = none) :
    (c.publish key value).2.entries = Association.set key value c.entries := by
  have hnone : { c with computations := c.computations + 1 }.find? key = none := h
  rw [publish, put, hnone]

/-- A value stays when something is published, for its key or for another one. -/
theorem find?_publish_of_some {c : Cache κ α} {other : κ} {w : α} (h : c.find? other = some w) :
    (c.publish key value).2.find? other = some w :=
  find?_put_of_some key value h

@[simp] theorem publish_locks : (c.publish key value).2.locks = c.locks :=
  put_locks _ key value

@[simp] theorem publish_lookups : (c.publish key value).2.lookups = c.lookups :=
  put_lookups _ key value

/-- Publishing counts one computation. -/
@[simp] theorem publish_computations :
    (c.publish key value).2.computations = c.computations + 1 :=
  put_computations _ key value

/-- Entering changes counts of lookups and locks only. -/
theorem enter_eq : (c.enter key).2 =
    { (c.enter key).2 with entries := c.entries, computations := c.computations } := by
  unfold enter
  cases c.find? key with
  | some value => rfl
  | none => cases Association.find? key c.locks <;> rfl

@[simp] theorem enter_entries : (c.enter key).2.entries = c.entries := by
  rw [enter_eq]

@[simp] theorem enter_computations : (c.enter key).2.computations = c.computations := by
  rw [enter_eq]

/-- Entering counts one lookup. -/
theorem enter_lookups : (c.enter key).2.lookups = c.lookups + 1 := by
  unfold enter lookups
  cases c.find? key with
  | some value => exact Nat.add_right_comm c.hits 1 c.misses
  | none => cases Association.find? key c.locks <;> rfl

/-- Entering changes no value. -/
theorem find?_of_enter {c d : Cache κ α} {key : κ} {entry : Entry α} (h : c.enter key = (entry, d))
    (other : κ) : d.find? other = c.find? other := by
  have hentries := enter_entries c key
  rw [h] at hentries
  rw [find?, find?, hentries]

/-- Whoever finds a value on entering finds the one that the key has. -/
theorem find?_of_enter_found {c d : Cache κ α} {key : κ} {value : α}
    (h : c.enter key = (.found value, d)) : c.find? key = some value := by
  unfold enter at h
  cases hfind : c.find? key with
  | some earlier =>
    rw [hfind] at h
    cases h
    rfl
  | none =>
    rw [hfind] at h
    cases hlock : Association.find? key c.locks <;> rw [hlock] at h <;> cases h

/-- Whoever registers on entering has found no value. -/
theorem find?_of_enter_registered {c d : Cache κ α} {key : κ} {token : Nat}
    (h : c.enter key = (.registered token, d)) : c.find? key = none := by
  unfold enter at h
  cases hfind : c.find? key with
  | some earlier =>
    rw [hfind] at h
    cases h
  | none => rfl

/-- Whoever finds a value on entering registers on no lock. -/
theorem locks_of_enter_found {c d : Cache κ α} {key : κ} {value : α}
    (h : c.enter key = (.found value, d)) : d.locks = c.locks := by
  rw [enter, find?_of_enter_found h] at h
  cases h
  rfl

/-- Leaving changes the locks only. -/
theorem leave_eq (token : Nat) :
    c.leave key token = { c with locks := (c.leave key token).locks } := by
  unfold leave
  split
  · split
    · split <;> rfl
    · rfl
  · rfl

@[simp] theorem leave_entries (token : Nat) : (c.leave key token).entries = c.entries := by
  rw [leave_eq]

@[simp] theorem leave_computations (token : Nat) :
    (c.leave key token).computations = c.computations := by
  rw [leave_eq]

@[simp] theorem leave_lookups (token : Nat) : (c.leave key token).lookups = c.lookups := by
  rw [leave_eq]
  rfl

@[simp] theorem find?_leave (token : Nat) : (c.leave key token).find? other = c.find? other := by
  rw [find?, find?, leave_entries]

/-- Registering on a key raises the count of its lock, which is the lock there was if there was
one. -/
theorem lock?_of_enter_registered {c d : Cache κ α} {key : κ} {token : Nat}
    (h : c.enter key = (.registered token, d)) :
    d.lock? key = some ⟨token, c.users key + 1⟩ ∧
      ∀ lock, c.lock? key = some lock → lock.token = token := by
  rw [enter, find?_of_enter_registered h] at h
  rw [users, lock?, lock?]
  cases hlock : Association.find? key c.locks with
  | none =>
    rw [hlock] at h
    cases h
    exact ⟨Association.find?_set_self key _ c.locks, fun _ hnone => by cases hnone⟩
  | some lock =>
    rw [hlock] at h
    cases h
    exact ⟨Association.find?_set_self key _ c.locks, fun _ hsome => by cases hsome; rfl⟩

/-- Entering for a key changes the lock of no other key. -/
theorem lock?_enter_of_ne {key other : κ} (h : other ≠ key) :
    (c.enter key).2.lock? other = c.lock? other := by
  unfold enter
  cases c.find? key with
  | some value => rfl
  | none =>
    cases Association.find? key c.locks with
    | none => exact Association.find?_set_of_ne h _ c.locks
    | some lock => exact Association.find?_set_of_ne h _ c.locks

/-- Leaving lowers the count of the lock, and the last one to leave takes the lock away. -/
theorem lock?_leave_self {c : Cache κ α} {key : κ} {lock : KeyLock} (h : c.lock? key = some lock) :
    (c.leave key lock.token).lock? key =
      if lock.users ≤ 1 then none else some { lock with users := lock.users - 1 } := by
  have hlock : Association.find? key c.locks = some lock := h
  rw [leave, hlock]
  dsimp only
  rw [if_pos rfl]
  split
  · exact Association.find?_erase_self key c.locks
  · exact Association.find?_set_self key _ c.locks

/-- Leaving the lock of a key changes the lock of no other key. -/
theorem lock?_leave_of_ne {key other : κ} (h : other ≠ key) (token : Nat) :
    (c.leave key token).lock? other = c.lock? other := by
  unfold leave
  split
  · split
    · split
      · exact Association.find?_erase_of_ne h c.locks
      · exact Association.find?_set_of_ne h _ c.locks
    · rfl
  · rfl

/-- Where there was no lock, a caller that registers and leaves takes its lock away again. -/
theorem leave_locks_of_enter {c d left : Cache κ α} {key : κ} {token : Nat}
    (henter : c.enter key = (.registered token, d)) (hfree : c.lock? key = none)
    (hlocks : left.locks = d.locks) : (left.leave key token).locks = c.locks := by
  have hnone : Association.find? key c.locks = none := hfree
  rw [enter, find?_of_enter_registered henter, hnone] at henter
  cases henter
  have hset : left.locks = Association.set key ⟨c.nextToken, 1⟩ c.locks := hlocks
  have hlock : Association.find? key left.locks = some ⟨c.nextToken, 1⟩ := by
    rw [hset, Association.find?_set_self]
  rw [leave, hlock]
  dsimp only
  rw [if_pos rfl, if_pos (Nat.le_refl 1), hset]
  exact Association.erase_set_of_find?_none hnone _

section Alone

variable {c : Cache κ α} {key : κ} {compute : Cache κ α → Except ε α × Cache κ α}

/-- A caller that finds a value does not compute. -/
theorem getOrCompute_of_find?_some {value : α} (h : c.find? key = some value) :
    c.getOrCompute key compute = (.found value, { c with hits := c.hits + 1 }) := by
  rw [getOrCompute, enter, h]

/-- A caller whose computation returns publishes what it has computed. -/
theorem getOrCompute_of_ok {d left : Cache κ α} {token : Nat} {value : α}
    (henter : c.enter key = (.registered token, d)) (hcompute : compute d = (.ok value, left)) :
    c.getOrCompute key compute =
      (.computed (left.publish key value).1, (left.publish key value).2.leave key token) := by
  rw [getOrCompute, henter]
  dsimp only
  rw [hcompute]

/-- A caller whose computation fails publishes nothing. -/
theorem getOrCompute_of_error {d left : Cache κ α} {token : Nat} {e : ε}
    (henter : c.enter key = (.registered token, d)) (hcompute : compute d = (.error e, left)) :
    c.getOrCompute key compute = (.failed e, left.leave key token) := by
  rw [getOrCompute, henter]
  dsimp only
  rw [hcompute]

/-- The locks are the same after a call as before it, if the key had none and the computation keeps
those that it finds. -/
theorem getOrCompute_locks (hfree : c.lock? key = none)
    (hcompute : c.find? key = none →
      (compute (c.enter key).2).2.locks = (c.enter key).2.locks) :
    (c.getOrCompute key compute).2.locks = c.locks := by
  cases henter : c.enter key with
  | mk entry d =>
    cases entry with
    | found value => rw [getOrCompute_of_find?_some (find?_of_enter_found henter)]
    | registered token =>
      have hlocks := hcompute (find?_of_enter_registered henter)
      rw [henter] at hlocks
      cases hrun : compute d with
      | mk result left =>
        rw [hrun] at hlocks
        cases result with
        | error e =>
          rw [getOrCompute_of_error henter hrun]
          exact leave_locks_of_enter henter hfree hlocks
        | ok value =>
          rw [getOrCompute_of_ok henter hrun]
          exact leave_locks_of_enter henter hfree ((publish_locks left key value).trans hlocks)

/-- A caller that finds no value registers. -/
theorem exists_enter_of_find?_none (h : c.find? key = none) :
    ∃ token, c.enter key = (.registered token, (c.enter key).2) := by
  rw [enter, h]
  cases Association.find? key c.locks <;> exact ⟨_, rfl⟩

/-- A caller that is alone and finds no value publishes the one that it computes. -/
theorem getOrCompute_ok (h : c.find? key = none) (value : α) :
    ∃ after, c.getOrCompute key (fun c => ((.ok value : Except ε α), c)) =
        (.computed value, after) ∧ after.entries = Association.set key value c.entries := by
  obtain ⟨token, henter⟩ := exists_enter_of_find?_none h
  have hnone : (c.enter key).2.find? key = none := by rw [find?_of_enter henter, h]
  rw [getOrCompute_of_ok henter rfl, publish_fst_of_find?_none value hnone]
  refine ⟨_, rfl, ?_⟩
  rw [leave_entries, publish_entries_of_find?_none value hnone, enter_entries]

/-- A caller that is alone and fails to compute a value publishes nothing. -/
theorem getOrCompute_error (h : c.find? key = none) (e : ε) :
    ∃ after, c.getOrCompute key (fun c => ((.error e : Except ε α), c)) = (.failed e, after) ∧
      after.entries = c.entries := by
  obtain ⟨token, henter⟩ := exists_enter_of_find?_none h
  rw [getOrCompute_of_error henter rfl]
  refine ⟨_, rfl, ?_⟩
  rw [leave_entries, enter_entries]

/-- A caller that is alone and finds no value gets what it computes. -/
theorem outcome_getOrCompute (h : c.find? key = none) (result : Except ε α) :
    (c.getOrCompute key fun c => (result, c)).1.outcome = result := by
  cases result with
  | error e =>
    obtain ⟨after, hserved, -⟩ := getOrCompute_error h e
    rw [hserved]
    rfl
  | ok value =>
    obtain ⟨after, hserved, -⟩ := getOrCompute_ok (ε := ε) h value
    rw [hserved]
    rfl

end Alone

end KotlinNullability.Cache
