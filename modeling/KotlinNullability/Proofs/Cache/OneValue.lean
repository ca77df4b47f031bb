import KotlinNullability.Proofs.Cache.Run

/-!
# One value for a key

A call that returns a value for a key returns one that the key had at some moment of the call. A
value stays until the cache is cleared, so in a stretch of a run without clearing a key has one
value, and whatever is returned for the key inside the stretch is this value, whoever has computed
or put it.
-/

namespace KotlinNullability.Cache

variable {κ ε α : Type} [DecidableEq κ]

/-- The value that a caller is about to return from a call, with the key of the lock that it is
registered on. -/
def Phase.result? : Phase κ ε α → Option (κ × α)
  | releasing key _ (.ok value) | leaving key _ (.ok value) => some (key, value)
  | _ => none

/-- A value that is about to be returned after a move was so before it, or is the value that the key
has before or after the move. -/
theorem Phase.Moves.result? {free : Nat → Prop} {c d : Cache κ α} {phase next : Phase κ ε α}
    (h : phase.Moves free c d next) {key : κ} {value : α}
    (hnext : next.result? = some (key, value)) :
    phase.result? = some (key, value) ∨ c.find? key = some value ∨ d.find? key = some value := by
  cases h with
  | look hfind =>
    cases hnext
    exact .inr (.inl hfind)
  | publish =>
    cases hnext
    exact .inr (.inr (find?_publish_self c _ _))
  | @release k token result => cases result <;> exact .inl hnext
  | _ => simp [Phase.result?] at hnext

/-- A value that is returned at once is the value that the key has before or after. -/
theorem Answers.find?_of_value? {c d : Cache κ α} {call : Call κ α} {reply : Reply ε α}
    (h : Answers c call reply d) {key : κ} {value : α} (hkey : call.key? = some key)
    (hvalue : reply.value? = some value) : c.find? key = some value ∨ d.find? key = some value := by
  cases h with
  | get k =>
    cases hkey
    rw [get_fst] at hvalue
    exact .inl hvalue
  | put k v =>
    cases hkey
    cases hvalue
    exact .inr (find?_put_self c key v)
  | found henter =>
    cases hkey
    cases hvalue
    exact .inl (find?_of_enter_found henter)
  | _ => simp [Reply.value?] at hvalue

namespace Run

variable {r : Run κ ε α}

/-- Between two events of the run, a call about the key returns the value. -/
def Returns (r : Run κ ε α) (key : κ) (value : α) (first last : Nat) : Prop :=
  ∃ i call reply, r.Serves i call reply first last ∧ call.key? = some key ∧
    reply.value? = some value

/-- While a caller is inside a call, what it is about to return is a value that the key had at a
moment of the call. -/
theorem find?_of_result? {i first m : Nat} {call : Call κ α} {pending : List (Call κ α)}
    {returned : List (Call κ α × Reply ε α)} {phase : Phase κ ε α}
    (hfirst : (r.state first).callers[i]? = some ⟨call :: pending, .idle, returned⟩)
    (hle : first ≤ m) (hm : m ≤ r.length)
    (hinside : (r.state m).callers[i]? = some ⟨call :: pending, phase, returned⟩) {key : κ}
    {value : α} (hresult : phase.result? = some (key, value)) :
    ∃ n, first ≤ n ∧ n ≤ m ∧ (r.state n).cache.find? key = some value := by
  refine inside_induct (P := fun m phase => phase.result? = some (key, value) →
    ∃ n, first ≤ n ∧ n ≤ m ∧ (r.state n).cache.find? key = some value)
    hle hm hfirst hinside (fun h => by cases h) ?_ ?_ ?_ hresult
  · intro x _ _ _ phase ih h
    obtain ⟨n, hn, hx, hfind⟩ := ih h
    exact ⟨n, hn, Nat.le_succ_of_le hx, hfind⟩
  · intro x _ _ _ key token _ _ h
    cases h
  · intro x hx _ phase next _ hmove ih h
    rcases hmove.result? h with hbefore | hfind | hfind
    · obtain ⟨n, hn, hx, hfind⟩ := ih hbefore
      exact ⟨n, hn, Nat.le_succ_of_le hx, hfind⟩
    · exact ⟨x, hx, Nat.le_succ x, hfind⟩
    · exact ⟨x + 1, Nat.le_succ_of_le hx, Nat.le_refl _, hfind⟩

/-- A value that a call returns is one that the key had at a moment of the call. -/
theorem Returns.find? {key : κ} {value : α} {first last : Nat}
    (h : r.Returns key value first last) :
    ∃ m, first ≤ m ∧ m ≤ last + 1 ∧ (r.state m).cache.find? key = some value := by
  obtain ⟨i, call, reply, hserves, hkey, hvalue⟩ := h
  obtain ⟨pending, returned, phase, hfirst, hlast, hreturns⟩ := hserves.returns
  have hle : first ≤ last := hserves.le
  have hlength : last ≤ r.length := Nat.le_of_lt hserves.lt
  rcases hreturns with ⟨-, hanswer⟩ | ⟨k, token, result, rfl, rfl⟩
  · rcases hanswer.find?_of_value? hkey hvalue with hfind | hfind
    · exact ⟨last, hle, Nat.le_succ last, hfind⟩
    · exact ⟨last + 1, Nat.le_succ_of_le hle, Nat.le_refl _, hfind⟩
  · have hcall := wellFormed hlength _ (List.mem_of_getElem? hlast) k token rfl
    cases hcall
    cases hkey
    cases result with
    | error e => cases hvalue
    | ok v =>
      cases hvalue
      obtain ⟨n, hn, hnlast, hfind⟩ := find?_of_result? hfirst hle hlength hlast rfl
      exact ⟨n, hn, Nat.le_succ_of_le hnlast, hfind⟩

/-- Every value that is returned for a key is the value that the key had at some moment of the call.
In a stretch without clearing, a value stays once it is there, and every call inside the stretch
that returns a value for the key returns this one. -/
theorem one_value (r : Run κ ε α) (key : κ) :
    (∀ value first last, r.Returns key value first last →
      ∃ m, first ≤ m ∧ m ≤ last + 1 ∧ (r.state m).cache.find? key = some value) ∧
    ∀ lo hi, hi ≤ r.length → r.ClearFree lo hi →
      (∀ m n value, lo ≤ m → m ≤ n → n ≤ hi → (r.state m).cache.find? key = some value →
        (r.state n).cache.find? key = some value) ∧
      (∀ value first last, r.Returns key value first last → lo ≤ first → last < hi →
        (∀ m published, lo ≤ m → m ≤ hi → (r.state m).cache.find? key = some published →
          value = published) ∧
        ∀ other begun ended, r.Returns key other begun ended → lo ≤ begun → ended < hi →
          value = other) := by
  refine ⟨fun value first last h => h.find?, fun lo hi hhi hclear => ⟨?_, ?_⟩⟩
  · exact fun m n value hlo hmn hn => find?_stays hclear hhi hlo hmn hn
  · intro value first last h hfirst hlast
    obtain ⟨m, hm, hmlast, hfind⟩ := h.find?
    have hlom : lo ≤ m := Nat.le_trans hfirst hm
    have hmhi : m ≤ hi := Nat.le_trans hmlast hlast
    refine ⟨fun n published hlon hnhi hpublished => ?_,
      fun other begun ended hother hbegun hended => ?_⟩
    · exact find?_unique hclear hhi hlom hmhi hlon hnhi hfind hpublished
    · obtain ⟨n, hn, hnlast, hfound⟩ := hother.find?
      exact find?_unique hclear hhi hlom hmhi (Nat.le_trans hbegun hn) (Nat.le_trans hnlast hended)
        hfind hfound

/-- A run in which a caller puts a value while another one is computing. -/
def raced : Run Nat Unit Nat :=
  .ofEvents [[.getOrCompute 7], [.put 7 2]]
    [.step 0, .step 0, .step 0, .step 1, .finish 0 (.ok 1), .step 0, .step 0, .step 0] rfl

/-- A value that is put while another one is being computed is what the computing caller returns. -/
theorem one_value_raced :
    raced.Returns 7 2 0 7 ∧ raced.ClearFree 0 8 ∧
      ∀ m published, 0 ≤ m → m ≤ 8 → (raced.state m).cache.find? 7 = some published →
        2 = published := by
  have hclear : ∀ m < 8, (raced.state m).clears (raced.event m) = false := by decide
  have hstretch : raced.ClearFree 0 8 := fun m _ hm => hclear m hm
  have hserves : raced.Serves 0 (.getOrCompute 7) (.outcome (.ok 2)) 0 7 :=
    ⟨by decide, by decide, rfl, [], [], rfl, ⟨.leaving 7 0 (.ok 2), rfl⟩, rfl⟩
  have hreturns : raced.Returns 7 2 0 7 := ⟨0, _, _, hserves, rfl, rfl⟩
  have hvalue := ((one_value raced 7).2 0 8 (Nat.le_refl 8) hstretch).2 2 0 7 hreturns
    (Nat.le_refl 0) (by decide)
  exact ⟨hreturns, hstretch, hvalue.1⟩

end Run

end KotlinNullability.Cache
