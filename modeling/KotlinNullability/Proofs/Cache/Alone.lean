import KotlinNullability.Proofs.Cache.Progress

/-!
# A caller that is alone

While all other callers are between calls, nobody comes between the atomic steps of a caller that
wants the value of a key. So it gets what `getOrCompute` gives for the cache that it finds, and
leaves the cache that `getOrCompute` leaves: its second look at the values finds nothing new.
-/

namespace KotlinNullability.Cache.System

variable {κ ε α : Type} [DecidableEq κ] {s t after : System κ ε α}

/-- What can be reached from what can be reached can be reached. -/
theorem Reaches.trans (hst : Reaches s t) (htafter : Reaches t after) : Reaches s after := by
  induction htafter with
  | refl => exact hst
  | step event _ hstep ih => exact .step event ih hstep

section Alone

variable {i : Nat} {key : κ} {pending : List (Call κ α)} {returned : List (Call κ α × Reply ε α)}

/-- The system with a caller in some phase of its call, after some runs, and with some cache. -/
def inside (s : System κ ε α) (i : Nat) (key : κ) (pending : List (Call κ α))
    (returned : List (Call κ α × Reply ε α)) (c : Cache κ α) (phase : Phase κ ε α) (runs : Nat) :
    System κ ε α where
  cache := c
  callers := s.callers.set i ⟨.getOrCompute key :: pending, phase, returned⟩
  runs

omit [DecidableEq κ] in
theorem inside_caller (hi : i < s.callers.length) (c : Cache κ α) (phase : Phase κ ε α)
    (runs : Nat) : (s.inside i key pending returned c phase runs).callers[i]? =
      some ⟨.getOrCompute key :: pending, phase, returned⟩ :=
  List.getElem?_set_self hi

omit [DecidableEq κ] in
theorem goTo_inside {mid : System κ ε α} {phase : Phase κ ε α}
    (h : mid.callers = s.callers.set i ⟨.getOrCompute key :: pending, phase, returned⟩)
    (next : Phase κ ε α) :
    mid.goTo i ⟨.getOrCompute key :: pending, phase, returned⟩ next =
      s.inside i key pending returned mid.cache next mid.runs := by
  rw [goTo, h, List.set_set]
  rfl

omit [DecidableEq κ] in
/-- While all callers are between calls, but one that waits for a lock, this is free. -/
theorem isFree_inside (hidle : ∀ caller ∈ s.callers, caller.phase = .idle) (c : Cache κ α)
    (token : Nat) (runs : Nat) :
    (s.inside i key pending returned c (.waiting key token) runs).isFree token = true := by
  refine List.all_eq_true.mpr fun caller hcaller => ?_
  rcases List.mem_or_eq_of_mem_set hcaller with hother | rfl
  · rw [hidle caller hother]
    rfl
  · rfl

/-- A caller that is alone and has registered takes the lock and, finding no value, computes. -/
theorem reaches_computing (hi : i < s.callers.length)
    (hidle : ∀ caller ∈ s.callers, caller.phase = .idle) {c : Cache κ α}
    (hnone : c.find? key = none) (token runs : Nat) :
    Reaches (s.inside i key pending returned c (.waiting key token) runs)
      (s.inside i key pending returned c (.computing key token) (runs + 1)) := by
  have hholding : (s.inside i key pending returned c (.waiting key token) runs).step? (.step i) =
      some (s.inside i key pending returned c (.holding key token) runs) := by
    rw [step?_step (inside_caller hi ..), stepOf?]
    dsimp only
    rw [if_pos (isFree_inside hidle ..)]
    exact congrArg some (goTo_inside rfl _)
  have hcomputing : (s.inside i key pending returned c (.holding key token) runs).step? (.step i) =
      some (s.inside i key pending returned c (.computing key token) (runs + 1)) := by
    rw [step?_step (inside_caller hi ..), stepOf?]
    have hfind : (s.inside i key pending returned c (.holding key token) runs).cache.find? key =
      none := hnone
    dsimp only
    rw [hfind]
    exact congrArg some (goTo_inside rfl _)
  exact .step _ (.step _ (.refl _) hholding) hcomputing

/-- A caller that has a result releases the lock and returns. -/
theorem reaches_returned (hi : i < s.callers.length) (c : Cache κ α) (token runs : Nat)
    (result : Except ε α) :
    Reaches (s.inside i key pending returned c (.releasing key token result) runs)
      { cache := c.leave key token
        callers := s.callers.set i
          ⟨pending, .idle, returned ++ [(.getOrCompute key, .outcome result)]⟩
        runs } := by
  have hleaving : (s.inside i key pending returned c (.releasing key token result) runs).step?
      (.step i) = some (s.inside i key pending returned c (.leaving key token result) runs) := by
    rw [step?_step (inside_caller hi ..), stepOf?]
    exact congrArg some (goTo_inside rfl _)
  refine .step (.step i) (.step (.step i) (.refl _) hleaving) ?_
  rw [step?_step (inside_caller hi ..), stepOf?]
  simp [inside, reply, List.set_set]

/-- While all callers are between calls, a caller that wants the value of a key, and whose
computation would end with the result, can get what `getOrCompute` gives for it, and leave the cache
that `getOrCompute` leaves. -/
theorem reaches_getOrCompute (hidle : ∀ caller ∈ s.callers, caller.phase = .idle)
    (hcaller : s.callers[i]? = some ⟨.getOrCompute key :: pending, .idle, returned⟩)
    (result : Except ε α) :
    let done := s.cache.getOrCompute key fun c => (result, c)
    Reaches s
      { cache := done.2
        callers := s.callers.set i
          ⟨pending, .idle, returned ++ [(.getOrCompute key, .outcome done.1.outcome)]⟩
        runs := s.runs + if done.1.ran then 1 else 0 } := by
  intro done
  have hi : i < s.callers.length := (List.getElem?_eq_some_iff.mp hcaller).1
  have hstart := step?_step hcaller
  cases henter : s.cache.enter key with
  | mk entry d =>
    cases entry with
    | found value =>
      have hdone : done = (.found value, d) := by
        change s.cache.getOrCompute key _ = _
        rw [Cache.getOrCompute, henter]
      rw [hdone]
      refine .step (.step i) (.refl _) (hstart.trans ?_)
      simp [stepOf?, start, henter, reply, Served.outcome, Served.ran]
    | registered token =>
      have hnone : d.find? key = none := by
        rw [find?_of_enter henter, find?_of_enter_registered henter]
      have hregistered : s.step? (.step i) =
          some (s.inside i key pending returned d (.waiting key token) s.runs) := by
        rw [hstart]
        simp [stepOf?, start, henter, goTo, inside]
      have hcomputing : Reaches s
          (s.inside i key pending returned d (.computing key token) (s.runs + 1)) :=
        (Reaches.step _ (.refl s) hregistered).trans (reaches_computing hi hidle hnone token _)
      cases result with
      | error e =>
        have hdone : done = (.failed e, d.leave key token) := getOrCompute_of_error henter rfl
        rw [hdone]
        refine (hcomputing.step (.finish i (.error e)) ?_).trans
          (reaches_returned hi d token (s.runs + 1) (.error e))
        rw [step?, inside_caller hi, Option.bind_some]
        exact congrArg some (goTo_inside rfl _)
      | ok value =>
        have hdone : done = (.computed (d.publish key value).1,
          (d.publish key value).2.leave key token) := getOrCompute_of_ok henter rfl
        rw [hdone]
        have hpublishing : Reaches s
            (s.inside i key pending returned d (.publishing key token value) (s.runs + 1)) := by
          refine hcomputing.step (.finish i (.ok value)) ?_
          rw [step?, inside_caller hi, Option.bind_some]
          exact congrArg some (goTo_inside rfl _)
        refine (hpublishing.step (.step i) ?_).trans
          (reaches_returned hi _ token (s.runs + 1) (.ok (d.publish key value).1))
        rw [step?_step (inside_caller hi ..), stepOf?]
        exact congrArg some (goTo_inside rfl _)

end Alone

end KotlinNullability.Cache.System
