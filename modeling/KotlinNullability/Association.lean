/-!
# Associations

Lists of keys and values, at most one value for a key counting: the first. A key that is set for the
first time goes to the end, so the order of the list is the order in which keys appeared.
-/

namespace KotlinNullability.Association

variable {κ β : Type} [DecidableEq κ]

/-- The value of a key. -/
def find? (key : κ) : List (κ × β) → Option β
  | [] => none
  | (k, value) :: entries => if k = key then some value else find? key entries

/-- Give a key a value. -/
def set (key : κ) (value : β) : List (κ × β) → List (κ × β)
  | [] => [(key, value)]
  | (k, old) :: entries =>
    if k = key then (k, value) :: entries else (k, old) :: set key value entries

/-- Remove a key. -/
def erase (key : κ) (entries : List (κ × β)) : List (κ × β) :=
  entries.filter fun entry => entry.1 ≠ key

@[simp] theorem find?_nil (key : κ) : find? key ([] : List (κ × β)) = none := rfl

@[simp] theorem find?_set_self (key : κ) (value : β) (entries : List (κ × β)) :
    find? key (set key value entries) = some value := by
  induction entries with
  | nil => simp [set, find?]
  | cons entry entries ih =>
    obtain ⟨k, old⟩ := entry
    by_cases h : k = key <;> simp [set, find?, h, ih]

theorem find?_set_of_ne {key other : κ} (h : other ≠ key) (value : β) (entries : List (κ × β)) :
    find? other (set key value entries) = find? other entries := by
  induction entries with
  | nil => simp [set, find?, Ne.symm h]
  | cons entry entries ih =>
    obtain ⟨k, old⟩ := entry
    by_cases hk : k = key
    · simp [set, find?, hk, Ne.symm h]
    · simp [set, find?, hk, ih]

@[simp] theorem find?_erase_self (key : κ) (entries : List (κ × β)) :
    find? key (erase key entries) = none := by
  induction entries with
  | nil => rfl
  | cons entry entries ih =>
    obtain ⟨k, old⟩ := entry
    by_cases h : k = key
    · simpa [erase, h] using ih
    · simpa [erase, find?, h] using ih

theorem find?_erase_of_ne {key other : κ} (h : other ≠ key) (entries : List (κ × β)) :
    find? other (erase key entries) = find? other entries := by
  induction entries with
  | nil => rfl
  | cons entry entries ih =>
    obtain ⟨k, old⟩ := entry
    by_cases hk : k = key
    · simpa [erase, find?, hk, Ne.symm h] using ih
    · by_cases ho : k = other
      · subst ho
        simp [erase, find?, hk]
      · simpa [erase, find?, hk, ho] using ih

/-- A key that is set for the first time and then removed leaves no trace. -/
theorem erase_set_of_find?_none {key : κ} {entries : List (κ × β)} (h : find? key entries = none)
    (value : β) : erase key (set key value entries) = entries := by
  induction entries with
  | nil => simp [set, erase]
  | cons entry entries ih =>
    obtain ⟨k, old⟩ := entry
    rw [find?] at h
    split at h
    · cases h
    · next hk => simpa [set, erase, hk] using ih h

end KotlinNullability.Association
