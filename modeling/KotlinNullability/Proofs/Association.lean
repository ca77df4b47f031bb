import KotlinNullability.Association
import Mathlib.Data.List.Basic

/-!
# Keys of associations

A key has a value exactly if it stands in the list, setting a key for the first time puts it at the
end, and of two lists in a row the first one counts.
-/

namespace KotlinNullability.Association

variable {κ β : Type} [DecidableEq κ] {key : κ} {entries : List (κ × β)}

/-- A key has a value exactly if it stands in the list. -/
theorem mem_map_fst_iff : key ∈ entries.map Prod.fst ↔ (find? key entries).isSome := by
  induction entries with
  | nil => simp
  | cons entry entries ih =>
    obtain ⟨k, value⟩ := entry
    by_cases h : k = key
    · simp [find?, h]
    · simp [find?, h, Ne.symm h, ← ih]

/-- A key that is set for the first time comes behind all others. -/
theorem map_fst_set_of_find?_none (h : find? key entries = none) (value : β) :
    (set key value entries).map Prod.fst = entries.map Prod.fst ++ [key] := by
  induction entries with
  | nil => rfl
  | cons entry entries ih =>
    obtain ⟨k, old⟩ := entry
    rw [find?] at h
    split at h
    · cases h
    · next hk => simp [set, hk, ih h]

/-- The value of a key is among the values. -/
theorem mem_of_find? {value : β} (h : find? key entries = some value) : (key, value) ∈ entries := by
  induction entries with
  | nil => cases h
  | cons entry entries ih =>
    obtain ⟨k, old⟩ := entry
    rw [find?] at h
    split at h
    · next hk =>
      cases h
      rw [hk]
      exact List.mem_cons_self
    · exact List.mem_cons_of_mem _ (ih h)

/-- What stands among the values after setting a key stood there before, or was set. -/
theorem eq_or_mem_of_mem_set {value : β} {entry : κ × β} (h : entry ∈ set key value entries) :
    entry = (key, value) ∨ entry ∈ entries := by
  induction entries with
  | nil => exact .inl (List.mem_singleton.mp h)
  | cons first entries ih =>
    obtain ⟨k, old⟩ := first
    rw [set] at h
    split at h
    · next hk =>
      rcases List.mem_cons.mp h with rfl | hold
      · exact .inl (by rw [hk])
      · exact .inr (List.mem_cons_of_mem _ hold)
    · rcases List.mem_cons.mp h with rfl | hrest
      · exact .inr List.mem_cons_self
      · exact (ih hrest).imp_right (List.mem_cons_of_mem _)

/-- Setting a key and changing all values alike can be done in either order. -/
theorem set_map {γ : Type} (f : β → γ) (value : β) :
    set key (f value) (entries.map fun entry => (entry.1, f entry.2)) =
      (set key value entries).map fun entry => (entry.1, f entry.2) := by
  induction entries with
  | nil => rfl
  | cons first entries ih =>
    obtain ⟨k, old⟩ := first
    by_cases h : k = key
    · simp [set, h]
    · simp [set, h, ih]

/-- What is added behind counts for the keys that have no value before it. -/
theorem find?_append (added : List (κ × β)) :
    find? key (entries ++ added) = (find? key entries).or (find? key added) := by
  induction entries with
  | nil => rfl
  | cons first entries ih =>
    obtain ⟨k, old⟩ := first
    by_cases h : k = key
    · simp [find?, h]
    · simp [find?, h, ih]

/-- A condition on keys keeps the values of those that meet it. -/
theorem find?_filter (keep : κ → Bool) (h : keep key = true) :
    find? key (entries.filter fun entry => keep entry.1) = find? key entries := by
  induction entries with
  | nil => rfl
  | cons first entries ih =>
    obtain ⟨k, old⟩ := first
    by_cases hk : k = key
    · simp [find?, hk, h]
    · by_cases hkeep : keep k = true
      · simp [find?, hk, hkeep, ih]
      · simp [find?, hk, hkeep, ih]

end KotlinNullability.Association
