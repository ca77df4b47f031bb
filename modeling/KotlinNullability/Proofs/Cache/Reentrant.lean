import KotlinNullability.Proofs.Cache.Program
import KotlinNullability.Proofs.Cache.Registry

/-!
# Values computed by programs that use the cache

While the value of a key is computed, the key has a lock. A program that avoids the keys that are
being computed around it takes away every lock that it makes, so it leaves the locks as it finds
them, and the caller that runs it finds its own lock again, whatever the program has done to the
values. A value that the program leaves for the key comes before the one that it returns.
-/

namespace KotlinNullability.Cache

variable {κ ε α : Type} [DecidableEq κ]

/-- No key has a lock but those that are being computed. -/
def Unlocked (busy : List κ) (c : Cache κ α) : Prop := ∀ key ∉ busy, c.lock? key = none

namespace Unlocked

variable {busy : List κ} {c d : Cache κ α}

/-- Whether keys have locks is a matter of the locks only. -/
theorem of_locks (h : c.Unlocked busy) (hlocks : d.locks = c.locks) : d.Unlocked busy := by
  intro key hkey
  rw [lock?, hlocks]
  exact h key hkey

/-- Entering for a key makes a lock for no other key. -/
theorem enter (h : c.Unlocked busy) (key : κ) : (c.enter key).2.Unlocked (key :: busy) := by
  intro other hother
  rw [lock?_enter_of_ne c (List.ne_of_not_mem_cons hother)]
  exact h other (List.not_mem_of_not_mem_cons hother)

end Unlocked

/-- A program that avoids the keys that are being computed leaves the locks as it finds them. -/
theorem Program.run_locks (program : Program κ ε α) {busy : List κ} {c : Cache κ α}
    (havoids : program.Avoids busy c) (hfree : c.Unlocked busy) :
    (program.run c).2.locks = c.locks := by
  induction program generalizing busy c with
  | done result => rfl
  | get key next ih =>
    have hlocks := get_locks c key
    exact (ih _ havoids (hfree.of_locks hlocks)).trans hlocks
  | put key value next ih =>
    have hlocks := put_locks c key value
    exact (ih _ havoids (hfree.of_locks hlocks)).trans hlocks
  | contains key next ih => exact ih _ havoids hfree
  | clear next ih => exact ih havoids (hfree.of_locks rfl)
  | getOrCompute key body next ihbody ihnext =>
    obtain ⟨hkey, hbody, hnext⟩ := havoids
    have hlocks : (c.getOrCompute key body.run).2.locks = c.locks :=
      getOrCompute_locks (hfree key hkey) fun hnone => ihbody (hbody hnone) (hfree.enter key)
    exact (ihnext _ hnext (hfree.of_locks hlocks)).trans hlocks

/-- A state in which the keys are being computed, or some of them: one that concurrent callers have
come to, or a program that avoids these keys, or a caller that enters for one more key and finds no
value. -/
inductive Within (ε : Type) {κ α : Type} [DecidableEq κ] : List κ → Cache κ α → Prop where
  | callers {calls : List (List (Call κ α))} {s : System κ ε α} {busy : List κ}
    (h : System.Reaches (.ofCalls calls) s)
    (hbusy : ∀ caller ∈ s.callers, ∀ key, caller.isOn key = true → key ∈ busy) :
    Within ε busy s.cache
  | program {busy : List κ} {c : Cache κ α} (h : Within ε busy c) (program : Program κ ε α)
    (havoids : program.Avoids busy c) : Within ε busy (program.run c).2
  | enter {busy : List κ} {c d : Cache κ α} {key : κ} {token : Nat} (h : Within ε busy c)
    (hkey : key ∉ busy) (henter : c.enter key = (.registered token, d)) : Within ε (key :: busy) d

/-- In every such state no other keys have locks. -/
theorem Within.unlocked {busy : List κ} {c : Cache κ α} (h : Within ε busy c) :
    c.Unlocked busy := by
  induction h with
  | @callers calls s busy h hbusy =>
    intro key hkey
    refine h.lock?_eq_none fun caller hcaller => ?_
    exact Bool.eq_false_iff.mpr fun hon => hkey (hbusy caller hcaller key hon)
  | program h program havoids ih => exact ih.of_locks (program.run_locks havoids ih)
  | @enter busy c d key token h hkey henter ih =>
    have hentered := ih.enter key
    rwa [henter] at hentered

/-- A caller wants the value of a key that is not being computed around it, and its computation is a
program that may do anything to the cache but want the values of such keys, or of the key itself. If
the key has a value, the caller gets it, and the program is not run. If the program returns, the
caller gets the value that the program has left for the key, or else the one that it returns, and
this value is published; the other values are as the program has left them. If the program fails,
the caller gets its error, and all values and the number of computations are as it has left them.
And the locks are the same after the call as before it. -/
theorem getOrCompute_reentrant {busy : List κ} {c : Cache κ α} (h : Within ε busy c) {key : κ}
    (hkey : key ∉ busy) {program : Program κ ε α}
    (havoids : c.find? key = none → program.Avoids (key :: busy) (c.enter key).2) :
    (∀ value, c.find? key = some value →
      c.getOrCompute key program.run = (.found value, { c with hits := c.hits + 1 })) ∧
    (c.find? key = none →
      (∀ value left, program.run (c.enter key).2 = (.ok value, left) →
        ∃ after, c.getOrCompute key program.run =
            (.computed ((left.find? key).getD value), after) ∧
          after.find? key = some ((left.find? key).getD value) ∧
            ∀ other, other ≠ key → after.find? other = left.find? other) ∧
      ∀ e left, program.run (c.enter key).2 = (.error e, left) →
        ∃ after, c.getOrCompute key program.run = (.failed e, after) ∧
          after.entries = left.entries ∧ after.computations = left.computations) ∧
    (c.getOrCompute key program.run).2.locks = c.locks := by
  have hfree := h.unlocked
  refine ⟨fun value => getOrCompute_of_find?_some, fun hnone => ?_,
    getOrCompute_locks (hfree key hkey) fun hnone =>
      program.run_locks (havoids hnone) (hfree.enter key)⟩
  cases henter : c.enter key with
  | mk entry d =>
    cases entry with
    | found value =>
      rw [find?_of_enter_found henter] at hnone
      cases hnone
    | registered token =>
      refine ⟨fun value left hrun => ?_, fun e left hrun => ?_⟩
      · rw [getOrCompute_of_ok henter hrun, publish_fst]
        refine ⟨_, rfl, ?_, fun other hother => ?_⟩
        · rw [find?_leave, find?_publish_self, publish_fst]
        · rw [find?_leave, find?_publish_of_ne left value hother]
      · rw [getOrCompute_of_error henter hrun]
        exact ⟨_, rfl, leave_entries left key token, leave_computations left key token⟩

/-- A program that wants the value of another key, which clears the cache and fails, and goes on to
put a value for a key and to return another one. -/
def meddling : Program Nat Unit Nat :=
  .getOrCompute 8 (.put 9 90 fun _ => .clear (.done (.error ()))) fun _ =>
    .put 7 70 fun _ => .done (.ok 71)

/-- What a program leaves for the key comes before what it returns. -/
theorem getOrCompute_reentrant_meddling :
    ∃ after, ({} : Cache Nat Nat).getOrCompute 7 meddling.run = (.computed 70, after) ∧
      after.find? 7 = some 70 ∧ ∀ other, other ≠ 7 → after.find? other = none := by
  have hwithin : Within Unit [] ({} : Cache Nat Nat) :=
    .callers (.refl (.ofCalls [])) fun caller hcaller => by cases hcaller
  have havoids : meddling.Avoids [7] (({} : Cache Nat Nat).enter 7).2 :=
    ⟨by decide, fun _ => trivial, trivial⟩
  obtain ⟨after, hafter, hvalue, hothers⟩ :=
    ((getOrCompute_reentrant hwithin (by decide) fun _ => havoids).2.1 rfl).1 71 _ rfl
  refine ⟨after, hafter, hvalue, fun other hother => ?_⟩
  rw [hothers other hother]
  exact Association.find?_set_of_ne hother 70 []

end KotlinNullability.Cache
