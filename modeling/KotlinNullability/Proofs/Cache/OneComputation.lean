import KotlinNullability.Proofs.Cache.Exclusion

/-!
# One successful computation for a key

In a run without clearing at most one computation for a key succeeds. A caller that waits for the
lock of the key while this computation goes on does not compute in its call: when it takes the lock,
the value is there, and this value is what it returns.
-/

namespace KotlinNullability.Cache

variable {κ ε α : Type} [DecidableEq κ]

namespace System

/-- A caller computes for a key. -/
def Computing (s : System κ ε α) (i : Nat) (key : κ) : Prop :=
  ∃ caller, s.callers[i]? = some caller ∧ caller.phase.computing? = some key

/-- A caller waits for the lock of a key. -/
def Waiting (s : System κ ε α) (i : Nat) (key : κ) : Prop :=
  ∃ caller token, s.callers[i]? = some caller ∧ caller.phase = .waiting key token

end System

/-- The caller is on its way to return the value of the key, and will not compute. -/
def Phase.Awaits (c : Cache κ α) (key : κ) : Phase κ ε α → Prop
  | waiting k _ => k = key
  | holding k _ => k = key ∧ (c.find? key).isSome
  | releasing k _ result | leaving k _ result =>
    k = key ∧ ∃ value, result = .ok value ∧ c.find? key = some value
  | idle | computing .. | publishing .. => False

/-- A caller that awaits the value of a key awaits it as long as the value stays. -/
theorem Phase.Awaits.of_stays {c d : Cache κ α} {key : κ} {phase : Phase κ ε α}
    (h : phase.Awaits c key)
    (hstays : ∀ value, c.find? key = some value → d.find? key = some value) :
    phase.Awaits d key := by
  cases phase with
  | waiting => exact h
  | holding =>
    obtain ⟨hkey, hsome⟩ := h
    obtain ⟨value, hvalue⟩ := Option.isSome_iff_exists.mp hsome
    exact ⟨hkey, Option.isSome_of_mem (hstays value hvalue)⟩
  | releasing =>
    obtain ⟨hkey, value, hresult, hvalue⟩ := h
    exact ⟨hkey, value, hresult, hstays value hvalue⟩
  | leaving =>
    obtain ⟨hkey, value, hresult, hvalue⟩ := h
    exact ⟨hkey, value, hresult, hstays value hvalue⟩
  | idle => exact h
  | computing => exact h
  | publishing => exact h

/-- Inside its call, a caller that awaits a value goes on to await it, if the value is there
whenever the lock is free. -/
theorem Phase.Moves.awaits {free : Nat → Prop} {c d : Cache κ α} {phase next : Phase κ ε α}
    (h : phase.Moves free c d next) {key : κ} (hawaits : phase.Awaits c key)
    (hfree : ∀ token, phase = .waiting key token → free token → (c.find? key).isSome) :
    next.Awaits d key := by
  cases h with
  | acquire hlock =>
    have hkey : _ = key := hawaits
    subst hkey
    exact ⟨rfl, hfree _ rfl hlock⟩
  | look hfind =>
    obtain ⟨rfl, -⟩ := hawaits
    exact ⟨rfl, _, rfl, hfind⟩
  | compute hnone =>
    obtain ⟨rfl, hsome⟩ := hawaits
    rw [hnone] at hsome
    cases hsome
  | succeed => exact hawaits.elim
  | fail => exact hawaits.elim
  | publish => exact hawaits.elim
  | release => exact hawaits

namespace Run

variable {r : Run κ ε α} {m n : Nat} {key : κ}

/-- The event is the successful end of a caller's computation for the key. -/
def Succeeds (r : Run κ ε α) (m i : Nat) (key : κ) : Prop :=
  m < r.length ∧ (r.state m).Computing i key ∧ ∃ value, r.event m = .finish i (.ok value)

/-- After a computation for a key has succeeded, the key is settled. -/
theorem Succeeds.settled {i : Nat} (h : r.Succeeds m i key) : (r.state (m + 1)).Settled key := by
  obtain ⟨hm, ⟨caller, hcaller, hcomputing⟩, value, hevent⟩ := h
  have hstep := r.follows m hm
  rw [hevent] at hstep
  exact System.settled_of_finish (reaches (Nat.le_of_lt hm)) hcaller hcomputing hstep

/-- In a stretch without clearing, a settled key stays settled. -/
theorem settled_stays {lo hi : Nat} (hclear : r.ClearFree lo hi) (hhi : hi ≤ r.length)
    (hlo : lo ≤ m) (hmn : m ≤ n) (hn : n ≤ hi) (h : (r.state m).Settled key) :
    (r.state n).Settled key := by
  induction hmn with
  | refl => exact h
  | @step n hmn ih =>
    have hlength : n < r.length := Nat.lt_of_lt_of_le hn hhi
    have hnow := hclear n (Nat.le_trans hlo hmn) hn
    refine (stepsTo hlength).settled (reaches (Nat.le_of_lt hlength)) (fun caller hcaller => ?_)
      (ih (Nat.le_of_succ_le hn))
    rwa [System.clears, hcaller, Option.any_some] at hnow

/-- In a stretch without clearing, at most one computation for a key succeeds. -/
theorem succeeds_unique {lo hi : Nat} (hclear : r.ClearFree lo hi) (hhi : hi ≤ r.length) {i j : Nat}
    (hm : r.Succeeds m i key) (hn : r.Succeeds n j key) (hlom : lo ≤ m) (hmhi : m < hi)
    (hlon : lo ≤ n) (hnhi : n < hi) : m = n := by
  have hlater {m n i j : Nat} (hm : r.Succeeds m i key) (hn : r.Succeeds n j key) (hlo : lo ≤ m)
      (hnhi : n < hi) : ¬ m < n := by
    intro hlt
    have hsettled := settled_stays hclear hhi (Nat.le_succ_of_le hlo) hlt (Nat.le_of_lt hnhi)
      hm.settled
    obtain ⟨-, ⟨caller, hcaller, hcomputing⟩, -⟩ := hn
    exact hsettled.quiet j caller hcaller hcomputing
  rcases Nat.lt_trichotomy m n with hlt | heq | hgt
  · exact absurd hlt (hlater hm hn hlom hnhi)
  · exact heq
  · exact absurd hgt (hlater hn hm hlon hmhi)

/-- While a caller computes for a key, those that wait for the lock of the key go on to wait. -/
theorem waits_while_computing {i w token : Nat} {caller : Caller κ ε α} (hnm : n ≤ m)
    (hm : m ≤ r.length) (hcomputing : ∀ x, n ≤ x → x < m → (r.state x).Computing i key)
    (hcaller : (r.state n).callers[w]? = some caller) (hphase : caller.phase = .waiting key token) :
    (r.state m).callers[w]? = some caller := by
  induction hnm with
  | refl => exact hcaller
  | @step m hnm ih =>
    have hbefore := ih (Nat.le_of_lt hm) fun x hx hlt => hcomputing x hx (Nat.lt_succ_of_lt hlt)
    have hstep := stepsTo (r := r) hm
    by_cases hw : w = (r.event m).caller
    · obtain ⟨mover, next, hmover, -, hsteps⟩ := hstep.caller
      rw [← hw, hbefore] at hmover
      cases hmover
      have hfree := hsteps.free_of_waiting hphase
      obtain ⟨computing, hcomputer, hkey⟩ := hcomputing m hnm (Nat.lt_succ_self m)
      have hregistered : caller.phase.registered? = some (key, token) := by
        rw [hphase]
        rfl
      exact absurd hfree ((reaches (Nat.le_of_lt hm)).not_isFree hcomputer hbefore
        (Phase.holder?_of_computing? hkey) hregistered)
    · rw [hstep.getElem?_of_ne hw, hbefore]

section Call

variable {w : Nat} {call : Call κ α} {pending : List (Call κ α)}
  {returned : List (Call κ α × Reply ε α)}

/-- Once the key is settled, a caller that waits for its lock is on its way to return its value. -/
theorem awaits_of_settled (hclear : r.ClearFree m r.length) (hsettled : (r.state m).Settled key)
    (hmn : m ≤ n) (hn : n ≤ r.length) {token : Nat} {phase : Phase κ ε α}
    (hm : (r.state m).callers[w]? = some ⟨call :: pending, .waiting key token, returned⟩)
    (hlast : (r.state n).callers[w]? = some ⟨call :: pending, phase, returned⟩) :
    phase.Awaits (r.state n).cache key := by
  have hstays {x : Nat} (hx : m ≤ x) (hlt : x < n) (value : α)
      (hvalue : (r.state x).cache.find? key = some value) :
      (r.state (x + 1)).cache.find? key = some value :=
    find?_stays hclear (Nat.le_refl _) hx (Nat.le_succ x) (Nat.le_trans hlt hn) hvalue
  refine inside_induct (P := fun x phase => phase.Awaits (r.state x).cache key) hmn hn hm hlast rfl
    ?_ ?_ ?_
  · intro x hx hlt _ phase hawaits
    exact hawaits.of_stays (hstays hx hlt)
  · intro x _ _ hidle
    exact hidle.elim
  · intro x hx hlt phase next hinside hmove hawaits
    have hlength : x ≤ r.length := Nat.le_trans (Nat.le_of_lt hlt) hn
    refine hmove.awaits hawaits fun t hwaiting hfree => ?_
    have hregistered : phase.registered? = some (key, t) := by
      rw [hwaiting]
      rfl
    exact (settled_stays hclear (Nat.le_refl _) (Nat.le_refl m) hx hlength
      hsettled).find?_isSome_of_isFree (reaches hlength) hinside hregistered hfree

/-- A caller that waits for a lock has not held one in its call. -/
theorem rank_le_of_waiting (hmn : m ≤ n) (hn : n ≤ r.length) {token : Nat} {phase : Phase κ ε α}
    (hm : (r.state m).callers[w]? = some ⟨call :: pending, phase, returned⟩)
    (hlast : (r.state n).callers[w]? = some ⟨call :: pending, .waiting key token, returned⟩) :
    phase.rank ≤ 1 := by
  rcases Nat.lt_or_ge 1 phase.rank with hheld | hrank
  · have hlater : 1 < (Phase.waiting key token : Phase κ ε α).rank := by
      refine inside_induct (P := fun _ phase => 1 < phase.rank) hmn hn hm hlast hheld
        (fun _ _ _ _ _ h => h) (fun _ _ _ h => ?_) fun _ _ _ _ _ _ hmove h => ?_
      · exact absurd h (Nat.not_succ_le_zero 1)
      · exact Nat.lt_trans h hmove.rank_lt
    exact absurd hlater (Nat.lt_irrefl 1)
  · exact hrank

end Call

/-- The value is the only one that the key has in the run. -/
def Publishes (r : Run κ ε α) (key : κ) (value : α) : Prop :=
  (∃ m, m ≤ r.length ∧ (r.state m).cache.find? key = some value) ∧
    ∀ m other, m ≤ r.length → (r.state m).cache.find? key = some other → other = value

/-- A caller that waits for the lock of a key during a computation that succeeds waits until the key
is settled. -/
theorem Succeeds.waits {i w : Nat} (hm : r.Succeeds m i key) (hn : n ≤ m)
    (hcomputing : ∀ x, n ≤ x → x ≤ m → (r.state x).Computing i key) {caller : Caller κ ε α}
    {token : Nat} (hcaller : (r.state n).callers[w]? = some caller)
    (hphase : caller.phase = .waiting key token) {x : Nat} (hx : n ≤ x) (hxm : x ≤ m + 1) :
    (r.state x).callers[w]? = some caller := by
  obtain ⟨hlt, ⟨computing, hcomputer, hkey⟩, value, hevent⟩ := hm
  have hwait {y : Nat} (hy : n ≤ y) (hym : y ≤ m) : (r.state y).callers[w]? = some caller :=
    waits_while_computing hy (Nat.le_trans hym (Nat.le_of_lt hlt))
      (fun z hz hzy => hcomputing z hz (Nat.le_trans (Nat.le_of_lt hzy) hym)) hcaller hphase
  rcases Nat.lt_or_ge m x with hmx | hle
  · have hlast : x = m + 1 := Nat.le_antisymm hxm hmx
    have hother : w ≠ (r.event m).caller := by
      intro hw
      have hsame : w = i := by rw [hw, hevent, Event.caller]
      rw [← hsame, hwait hn (Nat.le_refl m)] at hcomputer
      cases hcomputer
      rw [hphase] at hkey
      cases hkey
    rw [hlast, (stepsTo hlt).getElem?_of_ne hother, hwait hn (Nat.le_refl m)]
  · exact hwait hx hle

/-- A caller that waits for the lock of a key during a computation that succeeds, or later, waits
until a moment at which the key is settled. -/
theorem Succeeds.waits_until_settled (hclear : r.ClearFree 0 r.length) {i w : Nat}
    (hm : r.Succeeds m i key) (hn : n ≤ r.length)
    (hcomputing : ∀ x, n ≤ x → x ≤ m → (r.state x).Computing i key) {caller : Caller κ ε α}
    {token : Nat} (hcaller : (r.state n).callers[w]? = some caller)
    (hphase : caller.phase = .waiting key token) :
    ∃ p, (r.state p).Settled key ∧ n ≤ p ∧
      ∀ x, n ≤ x → x ≤ p → (r.state x).callers[w]? = some caller := by
  rcases Nat.lt_or_ge m n with hmn | hnm
  · have hsettled : (r.state n).Settled key :=
      settled_stays hclear (Nat.le_refl _) (Nat.zero_le _) hmn hn hm.settled
    refine ⟨n, hsettled, Nat.le_refl n, fun x hx hxn => ?_⟩
    rw [Nat.le_antisymm hxn hx, hcaller]
  · exact ⟨m + 1, hm.settled, Nat.le_succ_of_le hnm, fun x hx hxm =>
      hm.waits hnm hcomputing hcaller hphase hx hxm⟩

/-- A caller that waits for the lock of a key during a computation that succeeds, or later, does not
compute in its call, and returns the value of the key. -/
theorem served_of_waiting (hclear : r.ClearFree 0 r.length) {i w : Nat} (hm : r.Succeeds m i key)
    (hcomputing : ∀ x, n ≤ x → x ≤ m → (r.state x).Computing i key)
    (hwaiting : (r.state n).Waiting w key) {call : Call κ α} {reply : Reply ε α} {first last : Nat}
    (h : r.Serves w call reply first last) (hfirst : first ≤ n) (hlast : n ≤ last) :
    (∀ x k, first ≤ x → x ≤ last → ¬ (r.state x).Computing w k) ∧
      ∃ value, reply = .outcome (.ok value) ∧ r.Publishes key value := by
  obtain ⟨pending, returned, phase, hbegin, hend, hreturns⟩ := h.returns
  obtain ⟨caller, token, hcaller, hphase⟩ := hwaiting
  have hlength : last ≤ r.length := Nat.le_of_lt h.lt
  obtain ⟨before, hinside⟩ := inside hfirst hlast hlength hbegin hend
  rw [hinside] at hcaller
  cases hcaller
  have hphase : before = .waiting key token := hphase
  subst hphase
  obtain ⟨settled, hsettled, hnsettled, hwait⟩ :=
    hm.waits_until_settled hclear (Nat.le_trans hlast hlength) hcomputing hinside rfl
  have hlater : settled < last := by
    refine Nat.lt_of_not_le fun hle => ?_
    rw [hwait last hlast hle] at hend
    cases hend
    rcases hreturns with ⟨hidle, -⟩ | ⟨_, _, _, hleaving, -⟩
    · cases hidle
    · cases hleaving
  have hawaits {x : Nat} {phase : Phase κ ε α} (hx : settled ≤ x) (hxlast : x ≤ last)
      (hnow : (r.state x).callers[w]? = some ⟨call :: pending, phase, returned⟩) :
      phase.Awaits (r.state x).cache key :=
    awaits_of_settled (fun y _ hy => hclear y (Nat.zero_le y) hy) hsettled hx
      (Nat.le_trans hxlast hlength) (hwait settled hnsettled (Nat.le_refl _)) hnow
  refine ⟨fun x k hfirstx hxlast ⟨caller, hcaller, hkey⟩ => ?_, ?_⟩
  · obtain ⟨now, hnow⟩ := inside hfirstx hxlast hlength hbegin hend
    rw [hnow] at hcaller
    cases hcaller
    obtain ⟨t, rfl⟩ : ∃ t, now = .computing k t := by
      cases now <;> cases hkey
      exact ⟨_, rfl⟩
    rcases Nat.le_total x n with hxn | hnx
    · have hrank := rank_le_of_waiting hxn (Nat.le_trans hlast hlength) hnow hinside
      exact absurd hrank (by simp [Phase.rank])
    · rcases Nat.le_total settled x with hsx | hxs
      · exact hawaits hsx hxlast hnow
      · rw [hwait x hnx hxs] at hnow
        cases hnow
  · have hserved := hawaits (Nat.le_of_lt hlater) (Nat.le_refl last) hend
    rcases hreturns with ⟨rfl, -⟩ | ⟨k, t, result, rfl, rfl⟩
    · exact hserved.elim
    · obtain ⟨-, value, rfl, hvalue⟩ := hserved
      exact ⟨value, rfl, ⟨last, hlength, hvalue⟩, fun x other hx hother =>
        find?_unique hclear (Nat.le_refl _) (Nat.zero_le x) hx (Nat.zero_le last) hlength hother
          hvalue⟩

/-- In no state that is reached do two callers compute for one key. In a run without clearing, at
most one computation for a key succeeds; a caller that waits for the lock of the key during this
computation or later does not compute in its call, the call returns the value that the key has in
the run, and it has returned when the run is over. -/
theorem one_computation :
    (∀ (calls : List (List (Call κ α))) (s : System κ ε α), System.Reaches (.ofCalls calls) s →
      ∀ i j key, s.Computing i key → s.Computing j key → i = j) ∧
    ∀ r : Run κ ε α, r.ClearFree 0 r.length → ∀ key,
      (∀ m n i j, r.Succeeds m i key → r.Succeeds n j key → m = n) ∧
      ∀ m n i w, r.Succeeds m i key → n ≤ r.length →
        (∀ x, n ≤ x → x ≤ m → (r.state x).Computing i key) → (r.state n).Waiting w key →
          (∀ call reply first last, r.Serves w call reply first last → first ≤ n → n ≤ last →
            (∀ x k, first ≤ x → x ≤ last → ¬ (r.state x).Computing w k) ∧
              ∃ value, reply = .outcome (.ok value) ∧ r.Publishes key value) ∧
          ((r.state r.length).Over →
            ∃ call reply first last, r.Serves w call reply first last ∧ first ≤ n ∧ n ≤ last) := by
  refine ⟨fun calls s h i j key hi hj => ?_, fun r hclear key => ⟨fun m n i j hm hn => ?_,
    fun m n i w hm hn hcomputing hwaiting => ⟨fun call reply first last h hfirst hlast => ?_,
      fun hover => ?_⟩⟩⟩
  · obtain ⟨a, ha, hcomputinga⟩ := hi
    obtain ⟨b, hb, hcomputingb⟩ := hj
    exact h.holder_unique ha hb (Phase.holder?_of_computing? hcomputinga)
      (Phase.holder?_of_computing? hcomputingb)
  · exact succeeds_unique hclear (Nat.le_refl _) hm hn (Nat.zero_le m) hm.1 (Nat.zero_le n) hn.1
  · exact served_of_waiting hclear hm hcomputing hwaiting h hfirst hlast
  · obtain ⟨⟨pending, phase, returned⟩, token, hcaller, hphase⟩ := hwaiting
    have hphase : phase = .waiting key token := hphase
    subst hphase
    obtain ⟨-, -, value, -⟩ := hm
    obtain ⟨rest, hpending⟩ := List.head?_eq_some_iff.mp
      (wellFormed hn _ (List.mem_of_getElem? hcaller) key token rfl)
    have hpending : pending = .getOrCompute key :: rest := hpending
    subst hpending
    obtain ⟨reply, first, last, hserves, hfirst, hlast⟩ :=
      exists_serves hn hover (.ok value) hcaller (by simp)
    exact ⟨_, reply, first, last, hserves, hfirst, hlast⟩

/-- A run in which a caller waits while another one computes. -/
def shared : Run Nat Unit Nat :=
  .ofEvents [[.getOrCompute 7], [.getOrCompute 7]]
    [.step 0, .step 1, .step 0, .step 0, .finish 0 (.ok 5), .step 0, .step 0, .step 1, .step 1,
      .step 1, .step 1, .step 0] rfl

/-- A caller that waits while another one computes returns what the other one has computed. -/
theorem one_computation_shared :
    shared.Succeeds 4 0 7 ∧ shared.Serves 1 (.getOrCompute 7) (.outcome (.ok 5)) 1 10 ∧
      (∀ x k, 1 ≤ x → x ≤ 10 → ¬ (shared.state x).Computing 1 k) ∧
        ∃ value, Reply.outcome (.ok 5 : Except Unit Nat) = .outcome (.ok value) ∧
          shared.Publishes 7 value := by
  have hstretch : ∀ m < 12, (shared.state m).clears (shared.event m) = false := by decide
  have hclear : shared.ClearFree 0 shared.length := fun m _ hm => hstretch m hm
  have hsucceeds : shared.Succeeds 4 0 7 :=
    ⟨by decide, ⟨⟨[.getOrCompute 7], .computing 7 0, []⟩, rfl, rfl⟩, 5, rfl⟩
  have hcomputing : ∀ x, 4 ≤ x → x ≤ 4 → (shared.state x).Computing 0 7 := by
    intro x hlow hhigh
    obtain rfl : x = 4 := Nat.le_antisymm hhigh hlow
    exact hsucceeds.2.1
  have hwaiting : (shared.state 4).Waiting 1 7 :=
    ⟨⟨[.getOrCompute 7], .waiting 7 0, []⟩, 0, rfl, rfl⟩
  have hserves : shared.Serves 1 (.getOrCompute 7) (.outcome (.ok 5)) 1 10 :=
    ⟨by decide, by decide, rfl, [], [], rfl, ⟨.leaving 7 0 (.ok 5), rfl⟩, rfl⟩
  have hserved := ((one_computation.2 shared hclear 7).2 4 4 0 1 hsucceeds (by decide) hcomputing
    hwaiting).1 _ _ 1 10 hserves (by decide) (by decide)
  exact ⟨hsucceeds, hserves, hserved⟩

end Run

end KotlinNullability.Cache
