import KotlinNullability.Proofs.Association
import KotlinNullability.Proofs.Cache.Turn
import Mathlib.Data.Finset.Card

/-!
# What the statistics of a cache count

The counters of a cache are changed by some of the steps that its callers make, and a step that
matters to them is a deed: a lookup, a value that is put, a computation that returns, fails or is
counted, a caller that is served by the value of another, a clearing. What a step does to the
counters and to the keys that have values is told by its deed alone.
-/

namespace KotlinNullability.Cache

variable {κ ε α : Type} [DecidableEq κ]

/-- What a caller does with a step, as far as statistics depend on it. -/
inductive Deed (κ : Type) where
  /-- `get` looks its key up. -/
  | get (key : κ) (found : Bool)
  /-- `getOrCompute` looks its key up for the first time. -/
  | enter (key : κ) (found : Bool)
  | put (key : κ)
  | clear
  /-- A caller that has registered finds a value that another one has published. -/
  | served (key : κ)
  /-- A computation returns a value. -/
  | returned (key : κ)
  /-- A computation fails. -/
  | failed (key : κ)
  /-- A computation that has returned is counted, and its value published. -/
  | computed (key : κ)
  deriving DecidableEq, Repr

namespace Deed

/-- Whether a key is looked up in a way that is counted. -/
@[simp] def isLookup : Deed κ → Bool
  | get .. | enter .. => true
  | _ => false

/-- Whether a counted lookup finds a value. -/
@[simp] def isHit : Deed κ → Bool
  | get _ found | enter _ found => found
  | _ => false

/-- Whether a counted lookup finds none. -/
@[simp] def isMiss : Deed κ → Bool
  | get _ found | enter _ found => !found
  | _ => false

/-- Whether `get` finds no value. -/
@[simp] def isGetMiss : Deed κ → Bool
  | get _ found => !found
  | _ => false

/-- Whether `getOrCompute` finds no value and the caller registers. -/
@[simp] def isRegistration : Deed κ → Bool
  | enter _ found => !found
  | _ => false

@[simp] def isServed : Deed κ → Bool
  | served _ => true
  | _ => false

@[simp] def isReturned : Deed κ → Bool
  | returned _ => true
  | _ => false

@[simp] def isFailed : Deed κ → Bool
  | failed _ => true
  | _ => false

/-- The key whose computation is counted. -/
@[simp] def computed? : Deed κ → Option κ
  | computed key => some key
  | _ => none

/-- The key that has a value published after the deed, whether or not it had one before. -/
@[simp] def published? : Deed κ → Option κ
  | put key | computed key => some key
  | _ => none

end Deed

/-- What a caller does with its next step, which the event is. -/
def Caller.deed? (c : Cache κ α) (event : Event ε α) (caller : Caller κ ε α) : Option (Deed κ) :=
  match caller.phase with
  | .idle =>
    match caller.pending with
    | .get key :: _ => some (.get key (c.contains key))
    | .getOrCompute key :: _ => some (.enter key (c.contains key))
    | .put key _ :: _ => some (.put key)
    | .clear :: _ => some .clear
    | .contains _ :: _ | .stats :: _ | .size :: _ | [] => none
  | .holding key _ => if c.contains key then some (.served key) else none
  | .computing key _ =>
    match event with
    | .finish _ (.ok _) => some (.returned key)
    | .finish _ (.error _) => some (.failed key)
    | .step _ => none
  | .publishing key _ _ => some (.computed key)
  | .waiting .. | .releasing .. | .leaving .. => none

/-- What is counted, and the keys that have values. -/
@[ext]
structure Tally (κ : Type) where
  hits : Nat := 0
  misses : Nat := 0
  computations : Nat := 0
  keys : Finset κ := ∅

namespace Tally

/-- A deed on top of what was counted before. -/
def add (t : Tally κ) : Deed κ → Tally κ
  | .get _ found | .enter _ found =>
    if found then { t with hits := t.hits + 1 } else { t with misses := t.misses + 1 }
  | .put key => { t with keys := insert key t.keys }
  | .computed key =>
    { t with computations := t.computations + 1, keys := insert key t.keys }
  | .clear => {}
  | .served _ | .returned _ | .failed _ => t

/-- What deeds without a clearing amount to. -/
def ofDeeds (deeds : List (Deed κ)) : Tally κ where
  hits := deeds.countP Deed.isHit
  misses := deeds.countP Deed.isMiss
  computations := deeds.countP fun deed => deed.computed?.isSome
  keys := (deeds.filterMap Deed.published?).toFinset

/-- One more deed counts on top of the others. -/
theorem ofDeeds_append (deeds : List (Deed κ)) {deed : Deed κ} (h : deed ≠ .clear) :
    ofDeeds (deeds ++ [deed]) = (ofDeeds deeds).add deed := by
  have hkeys : ((deeds ++ [deed]).filterMap Deed.published?).toFinset =
      (deed.published?.toList ++ deeds.filterMap Deed.published?).toFinset := by
    ext key
    cases deed <;> simp [List.filterMap_cons]
  rw [ofDeeds, hkeys]
  cases deed with
  | clear => exact absurd rfl h
  | get key found => cases found <;> simp [ofDeeds, add]
  | enter key found => cases found <;> simp [ofDeeds, add]
  | _ => simp [ofDeeds, add]

end Tally

/-- What a cache counts, and the keys that have values in it. -/
def tally (c : Cache κ α) : Tally κ where
  hits := c.hits
  misses := c.misses
  computations := c.computations
  keys := (c.entries.map Prod.fst).toFinset

section Operations

variable (c : Cache κ α) (key : κ) (value : α)

theorem tally_get : (c.get key).2.tally = c.tally.add (.get key (c.contains key)) := by
  unfold get contains
  cases c.find? key <;> rfl

theorem tally_enter : (c.enter key).2.tally = c.tally.add (.enter key (c.contains key)) := by
  unfold enter contains
  cases c.find? key with
  | some value => rfl
  | none => cases Association.find? key c.locks <;> rfl

/-- Putting a value adds its key to those that have one. -/
theorem tally_put : (c.put key value).2.tally = c.tally.add (.put key) := by
  unfold put
  cases hfind : c.find? key with
  | some earlier =>
    have hmem : key ∈ c.tally.keys :=
      List.mem_toFinset.mpr (Association.mem_map_fst_iff.mpr (Option.isSome_of_mem hfind))
    rw [Tally.add, Finset.insert_eq_of_mem hmem]
  | none =>
    have hkeys := Association.map_fst_set_of_find?_none hfind value
    ext
    · rfl
    · rfl
    · rfl
    · simp [tally, Tally.add, hkeys]

theorem tally_publish : (c.publish key value).2.tally = c.tally.add (.computed key) :=
  tally_put { c with computations := c.computations + 1 } key value

theorem tally_leave (token : Nat) : (c.leave key token).tally = c.tally := by
  rw [leave_eq]
  rfl

end Operations

/-- What a step does to the counters and to the keys with values is told by its deed. -/
theorem Caller.Steps.tally_eq {free : Nat → Prop} {c d : Cache κ α} {caller next : Caller κ ε α}
    (h : caller.Steps free c d next) (event : Event ε α) :
    d.tally = (caller.deed? c event).elim c.tally c.tally.add := by
  cases h with
  | answer hanswer =>
    cases hanswer with
    | get key => exact tally_get c key
    | put key value => exact tally_put c key value
    | @found key value d henter =>
      have htally := tally_enter c key
      rwa [henter] at htally
    | _ => rfl
  | @register key token pending d returned henter =>
    have htally := tally_enter c key
    rwa [henter] at htally
  | move hmove =>
    cases hmove with
    | look hfind => simp [deed?, contains, hfind, Tally.add]
    | compute hnone => simp [deed?, contains, hnone]
    | publish => exact tally_publish c _ _
    | succeed => rcases event with _ | ⟨_, _ | _⟩ <;> rfl
    | fail => rcases event with _ | ⟨_, _ | _⟩ <;> rfl
    | _ => rfl
  | leave => exact tally_leave c _ _

/-- No key stands twice among the values. -/
def Distinct (c : Cache κ α) : Prop := (c.entries.map Prod.fst).Nodup

omit [DecidableEq κ] in
theorem Distinct.of_entries {c d : Cache κ α} (h : c.Distinct) (hentries : d.entries = c.entries) :
    d.Distinct := by
  rw [Distinct, hentries]
  exact h

/-- Where no key stands twice, the size is the number of the keys with values. -/
theorem Distinct.size_eq {c : Cache κ α} (h : c.Distinct) : c.size = c.tally.keys.card := by
  rw [tally, List.toFinset_card_of_nodup h, List.length_map, size]

/-- A key is put among the values only where it has none. -/
theorem Distinct.put {c : Cache κ α} (h : c.Distinct) (key : κ) (value : α) :
    (c.put key value).2.Distinct := by
  unfold Cache.put
  cases hfind : c.find? key with
  | some earlier => exact h
  | none =>
    have hkeys := Association.map_fst_set_of_find?_none hfind value
    have hnew : key ∉ c.entries.map Prod.fst := by
      intro hmem
      have hsome : (c.find? key).isSome := Association.mem_map_fst_iff.mp hmem
      rw [hfind] at hsome
      cases hsome
    rw [Distinct]
    dsimp only
    rw [hkeys]
    exact List.nodup_append'.mpr ⟨h, List.nodup_singleton key, List.disjoint_singleton.mpr hnew⟩

/-- A step leaves no key twice among the values. -/
theorem Caller.Steps.distinct {free : Nat → Prop} {c d : Cache κ α} {caller next : Caller κ ε α}
    (h : caller.Steps free c d next) (hdistinct : c.Distinct) : d.Distinct := by
  cases h with
  | answer hanswer =>
    cases hanswer with
    | put key value => exact hdistinct.put key value
    | clear => exact List.nodup_nil
    | get key =>
      refine hdistinct.of_entries ?_
      unfold get
      cases c.find? key <;> rfl
    | @found key value d henter =>
      have hentries := enter_entries c key
      rw [henter] at hentries
      exact hdistinct.of_entries hentries
    | contains => exact hdistinct
    | stats => exact hdistinct
    | size => exact hdistinct
  | @register key token pending d returned henter =>
    have hentries := enter_entries c key
    rw [henter] at hentries
    exact hdistinct.of_entries hentries
  | move hmove =>
    cases hmove with
    | @publish key token value =>
      exact Distinct.put (c := { c with computations := c.computations + 1 }) hdistinct key value
    | _ => exact hdistinct
  | leave => exact hdistinct.of_entries (leave_entries c _ _)

end KotlinNullability.Cache
