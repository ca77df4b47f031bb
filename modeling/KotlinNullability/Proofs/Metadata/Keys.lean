import KotlinNullability.Proofs.Metadata.RoundTrip
import KotlinNullability.Proofs.Results

/-!
# The keys of functions

A function that was decoded has a key exactly if it has a signature. The key joins the name of the
compiled method with its descriptor, so a key that is a text goes back to two texts; and over
interned strings that are texts every key is one.
-/

namespace KotlinNullability

open Wire (FieldRule Reader Schema walk)

namespace Wire

/-- A nested message changes the state by what is read in it. -/
theorem FieldRule.read_message_eq_ok {σ : Type} {inner : Reader → Except DecodeError (σ → σ)}
    {state next : σ} {r after : Reader}
    (h : FieldRule.read (some (.message inner)) state r = .ok next after) :
    ∃ nested update, inner nested = .ok update ∧ next = update state := by
  rw [FieldRule.read] at h
  obtain ⟨nested, mid, -, hinner⟩ := FieldRule.bind_eq_ok h
  cases hupdate : inner nested with
  | error e =>
    rw [hupdate] at hinner
    cases hinner
  | ok update =>
    rw [hupdate] at hinner
    cases hinner
    exact ⟨nested, update, hupdate, rfl⟩

/-- What is kept by every field that is read is kept by a walk. -/
theorem walk_induct {σ : Type} {schema : Schema σ} {P : σ → Prop}
    (hread : ∀ number state r next after,
      FieldRule.read (schema number) state r = .ok next after → P state → P next)
    {state : σ} {r : Reader} (h : P state) : P (walk schema state r).state := by
  fun_induction walk schema state r with
  | case1 => exact h
  | case2 => exact h
  | case3 => exact h
  | case4 state r tag atValue htag next after hstep ih => exact ih (hread _ _ _ _ _ hstep h)

end Wire

/-- Only two texts make a text when they are joined. -/
theorem Json.join_eq_text {a b : Json} {t : Text} (h : a.join b = .ok (.text t)) :
    ∃ s u, a = .text s ∧ b = .text u ∧ t = s ++ u := by
  unfold join at h
  split at h
  · cases h
    exact ⟨_, _, rfl, rfl, rfl⟩
  · cases h
  · split at h
    · cases h
    · split at h <;> cases h
    · cases h

namespace Function

/-- The key of a function belongs to its signature and its name. -/
structure Keyed (f : Function) : Prop where
  none_iff : f.key = none ↔ f.signature = none
  text : ∀ {t : Text}, f.key = some (.text t) →
    ∃ name descriptor, f.name = .text name ∧ t = name ++ descriptor

variable {table : StringTable} {draft : Draft} {f : Function}

/-- A function that is resolved without a signature has no key, and with one the key joins two
strings of the table, the first of which is the name. -/
theorem Draft.eq_of_resolve (h : draft.resolve table = .ok f) :
    table.resolve draft.methodName = .ok f.name ∧ f.signature = draft.signature ∧
      ((f.signature = none ∧ f.key = none) ∨ ∃ s descriptor key, f.signature = some s ∧
        table.resolve s.descriptor = .ok descriptor ∧ f.name.join descriptor = .ok key ∧
          f.key = some key) := by
  obtain ⟨name, hname, h⟩ := exists_of_bind_eq_ok h
  cases hsignature : draft.signature with
  | none =>
    rw [hsignature] at h
    cases h
    exact ⟨hname, rfl, .inl ⟨rfl, rfl⟩⟩
  | some s =>
    rw [hsignature] at h
    obtain ⟨descriptor, hdescriptor, h⟩ := exists_of_bind_eq_ok h
    obtain ⟨key, hkey, h⟩ := exists_of_bind_eq_ok h
    cases h
    have hjoin := eq_ok_of_mapError_eq_ok hkey
    exact ⟨hname, rfl, .inr ⟨s, descriptor, key, rfl, hdescriptor, hjoin, rfl⟩⟩

theorem Draft.keyed_of_resolve (h : draft.resolve table = .ok f) : f.Keyed := by
  obtain ⟨-, -, ⟨hsignature, hnone⟩ | ⟨s, descriptor, key, hsignature, -, hjoin, hkey⟩⟩ :=
    Draft.eq_of_resolve h
  · exact ⟨by simp [hsignature, hnone], fun ht => by rw [hnone] at ht; cases ht⟩
  · refine ⟨by simp [hsignature, hkey], fun ht => ?_⟩
    rw [hkey] at ht
    cases ht
    obtain ⟨name, rest, hname, -, ht⟩ := Json.join_eq_text hjoin
    exact ⟨name, rest, hname, ht⟩

/-- Over interned strings that are texts, the key is a text. -/
theorem Draft.text_of_resolve {records : List Record} {pool : List Text}
    (h : draft.resolve ⟨records, pool.map .text⟩ = .ok f) {key : Json} (hkey : f.key = some key) :
    ∃ t, key = .text t := by
  obtain ⟨hname, -, ⟨-, hnone⟩ | ⟨s, descriptor, joined, -, hdescriptor, hjoin, hjoined⟩⟩ :=
    Draft.eq_of_resolve h
  · rw [hnone] at hkey
    cases hkey
  · obtain rfl : joined = key := Option.some.inj (hjoined.symm.trans hkey)
    have hfirst := Except.ok.inj ((StringTable.names_name hname).symm.trans hname)
    have hsecond := Except.ok.inj ((StringTable.names_name hdescriptor).symm.trans hdescriptor)
    rw [← hfirst, ← hsecond] at hjoin
    cases hjoin
    exact ⟨_, rfl⟩

/-- Every one of the functions is resolved over the table. -/
def AllResolved (table : StringTable) (functions : List Function) : Prop :=
  ∀ f ∈ functions, ∃ draft : Draft, draft.resolve table = .ok f

/-- A function that is read is resolved over the table. -/
theorem exists_draft_of_read {r : Reader} (h : Function.read table r = .ok f) :
    ∃ draft : Draft, draft.resolve table = .ok f := by
  obtain ⟨draft, -, hdraft⟩ := exists_of_bind_eq_ok h
  exact ⟨draft, hdraft⟩

end Function

namespace Metadata

variable {payload : List UInt8} {pool : List Json} {functions : List Function}

/-- The functions of a class are resolved over its string table. -/
theorem allResolved_of_readClass {table : StringTable} {r : Reader}
    (h : readClass table r = .ok functions) : Function.AllResolved table functions := by
  have hstate : (walk (classSchema table) [] r).state = functions := by
    rw [Wire.Walk.result_eq_ok_iff.mp h]
  rw [← hstate]
  -- The only field of a class with a rule adds a function that was read.
  refine Wire.walk_induct (P := Function.AllResolved table)
    (fun number state r next after hread hstate => ?_) fun f hf => absurd hf List.not_mem_nil
  unfold classSchema at hread
  split at hread
  · obtain ⟨nested, update, hinner, rfl⟩ := Wire.FieldRule.read_message_eq_ok hread
    obtain ⟨g, hfunction, rfl⟩ := exists_of_map_eq_ok hinner
    intro f hf
    rcases List.mem_append.mp hf with hold | hnew
    · exact hstate f hold
    · rw [List.mem_singleton.mp hnew]
      exact Function.exists_draft_of_read hfunction
  · obtain ⟨_, mid, -, hskip⟩ := Wire.FieldRule.bind_eq_ok hread
    cases hskip
    exact hstate

/-- The functions of a payload are resolved over one string table. -/
theorem allResolved_of_decode (h : decode payload pool = .ok functions) :
    ∃ records, Function.AllResolved ⟨records, pool⟩ functions := by
  obtain ⟨_, _, records, -, -, hclass⟩ := decode_eq_ok_iff.mp h
  exact ⟨records, allResolved_of_readClass hclass⟩

/-- The key of a function that was decoded belongs to its signature and its name. -/
theorem keyed_of_decode (h : decode payload pool = .ok functions) : ∀ f ∈ functions, f.Keyed := by
  obtain ⟨records, hresolved⟩ := allResolved_of_decode h
  intro f hf
  obtain ⟨draft, hdraft⟩ := hresolved f hf
  exact Function.Draft.keyed_of_resolve hdraft

/-- Over interned strings that are texts, the keys are texts. -/
theorem text_of_decode {texts : List Text} (h : decode payload (texts.map .text) = .ok functions) :
    ∀ f ∈ functions, ∀ key, f.key = some key → ∃ t, key = .text t := by
  obtain ⟨records, hresolved⟩ := allResolved_of_decode h
  intro f hf key hkey
  obtain ⟨draft, hdraft⟩ := hresolved f hf
  exact Function.Draft.text_of_resolve hdraft hkey

end Metadata

end KotlinNullability
