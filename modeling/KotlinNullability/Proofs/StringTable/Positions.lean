import KotlinNullability.StringTable.Record

/-!
# Changed strings by position

A record changes a string in three stages, each of which works on what the one before it has left. The
outcome can be told at once: it is the part of the string between two positions, with every code point
changed by itself, first by the replacement and then by the operation. What is cut off depends on
positions only, so it does not matter that the last two positions are dropped after the replacement.
The order of the two changes of a code point does matter: what the replacement puts in is subject to
the operation.
-/

namespace KotlinNullability.Record

/-! ## Positions -/

/-- The positions from `first` to before `last` that bounds select in a text of some length: those
between the first two bounds, if these are in order and inside of the text, and all of them
otherwise. -/
inductive Selects (bounds : List Int) (length : Nat) : (first last : Nat) → Prop
  | given {first last : Nat} {more : List Int} (hbounds : bounds = (first : Int) :: (last : Int) :: more)
      (horder : first ≤ last) (hinside : last ≤ length) : Selects bounds length first last
  | whole (hbounds : ∀ (first last : Nat) (more : List Int),
      bounds = (first : Int) :: (last : Int) :: more → first ≤ last → length < last) : Selects bounds length 0 length

/-- The positions that a record leaves of a text of some length. Operation 2 drops the first and the
last one of those that are selected, if there are two. -/
inductive Leaves (r : Record) (length : Nat) : (first last : Nat) → Prop
  | inner {first last : Nat} (hselects : Selects r.substring length first last)
      (hoperation : r.operation = 2) (htwo : first + 2 ≤ last) : Leaves r length (first + 1) (last - 1)
  | all {first last : Nat} (hselects : Selects r.substring length first last)
      (hkeeps : r.operation = 2 → last < first + 2) : Leaves r length first last

variable {r : Record} {bounds : List Int} {length first last : Nat} {t : Text}

theorem exists_selects (bounds : List Int) (length : Nat) :
    ∃ first last, Selects bounds length first last := by
  by_cases h : ∃ (first last : Nat) (more : List Int),
      bounds = (first : Int) :: (last : Int) :: more ∧ first ≤ last ∧ last ≤ length
  · obtain ⟨first, last, more, hbounds, horder, hinside⟩ := h
    exact ⟨first, last, .given hbounds horder hinside⟩
  · exact ⟨0, length, .whole fun first last more hbounds horder =>
      Nat.lt_of_not_le fun hinside => h ⟨first, last, more, hbounds, horder, hinside⟩⟩

theorem exists_leaves (r : Record) (length : Nat) : ∃ first last, r.Leaves length first last := by
  obtain ⟨first, last, hselects⟩ := exists_selects r.substring length
  by_cases hinner : r.operation = 2 ∧ first + 2 ≤ last
  · exact ⟨_, _, .inner hselects hinner.1 hinner.2⟩
  · exact ⟨_, _, .all hselects fun hoperation =>
      Nat.lt_of_not_le fun htwo => hinner ⟨hoperation, htwo⟩⟩

/-- What is selected is a part of the text. -/
theorem Selects.inside (h : Selects bounds length first last) : first ≤ last ∧ last ≤ length := by
  cases h with
  | given hbounds horder hinside => exact ⟨horder, hinside⟩
  | whole hbounds => exact ⟨Nat.zero_le length, Nat.le_refl length⟩

/-- What is left is a part of the text. -/
theorem Leaves.inside (h : r.Leaves length first last) : first ≤ last ∧ last ≤ length := by
  cases h with
  | inner hselects hoperation htwo =>
    have hinside := hselects.inside
    omega
  | all hselects hkeeps => exact hselects.inside

/-- A part of a text has a code point for each of its positions. -/
theorem length_extract (hinside : last ≤ t.length) : (t.extract first last).length = last - first := by
  rw [List.extract_eq_take_drop, List.length_take, List.length_drop]
  omega

/-- Dropping the first and the last code point moves both ends of a part. -/
theorem tail_dropLast_extract (hinside : last ≤ t.length) :
    (t.extract first last).tail.dropLast = t.extract (first + 1) (last - 1) := by
  have htail : (t.extract first last).tail = t.extract (first + 1) last := by
    rw [← List.drop_one, List.extract_eq_take_drop, List.drop_take, List.drop_drop, Nat.sub_sub]
  rw [htail, List.dropLast_eq_take, length_extract hinside, List.extract_eq_take_drop, List.take_take,
    Nat.min_eq_left (Nat.sub_le ..), Nat.sub_right_comm]

/-- Cutting takes the selected positions. -/
theorem cut_of_selects (h : Selects bounds t.length first last) :
    cut bounds t = t.extract first last := by
  rw [List.extract_eq_take_drop]
  cases h with
  | given hbounds horder hinside =>
    have hcount : ((last : Int) - first).toNat = last - first := by omega
    subst hbounds
    rw [cut, if_pos (by omega), hcount, Int.toNat_natCast]
  | whole hbounds =>
    rw [List.drop_zero, Nat.sub_zero, List.take_length]
    match bounds with
    | [] => rfl
    | [_] => rfl
    | first :: last :: more =>
      refine if_neg ?_
      rintro ⟨hfirst, horder, hinside⟩
      have hlonger := hbounds first.toNat last.toNat more
        (by rw [Int.toNat_of_nonneg hfirst, Int.toNat_of_nonneg (by omega)]) (by omega)
      omega

/-! ## Code points -/

/-- What a replacement puts in the place of a code point. Of the two numbers it goes by, the low 16
bits count. -/
def exchange (units : List Int) (c : CodePoint) : CodePoint :=
  match units with
  | old :: new :: _ => if (c.val : Int) = old % 0x10000 then .ofUnit new else c
  | _ => c

/-- What an operation puts in the place of a code point. -/
def punctuate (operation : Int) (c : CodePoint) : CodePoint :=
  if (operation = 1 ∨ operation = 2) ∧ c = '$' then '.' else c

/-- What a record puts in the place of a code point. -/
def letter (r : Record) (c : CodePoint) : CodePoint :=
  punctuate r.operation (exchange r.replacement c)

theorem substitute_eq_map (units : List Int) (t : Text) :
    substitute units t = t.map (exchange units) := by
  match units with
  | [] => exact t.map_id.symm
  | [_] => exact t.map_id.symm
  | old :: new :: more =>
    have hunit (c : CodePoint) : c = CodePoint.ofUnit old ↔ (c.val : Int) = old % 0x10000 := by
      rw [CodePoint.ofUnit, Fin.ext_iff]
      dsimp only
      omega
    refine List.map_congr_left fun c _ => ?_
    simp only [exchange, hunit]

theorem operate_eq_map (operation : Int) (t : Text) :
    operate operation t =
      (if operation = 2 ∧ 2 ≤ t.length then t.tail.dropLast else t).map (punctuate operation) := by
  unfold operate punctuate
  by_cases hone : operation = 1
  · simp [hone, Text.replace]
  · by_cases htwo : operation = 2
    · simp [htwo, Text.replace]
    · simp [hone, htwo]

/-- An operation that puts points in the place of dollar signs leaves none of these. -/
theorem punctuate_ne_dollar {operation : Int} (h : operation = 1 ∨ operation = 2) (c : CodePoint) :
    punctuate operation c ≠ '$' := by
  by_cases hc : c = '$'
  · rw [punctuate, if_pos ⟨h, hc⟩]
    decide
  · rwa [punctuate, if_neg fun hdollar => hc hdollar.2]

/-- A change takes the positions that are left and changes each code point by itself. -/
theorem change_of_leaves (h : r.Leaves t.length first last) :
    r.change t = (t.extract first last).map r.letter := by
  have hletter : r.letter = punctuate r.operation ∘ exchange r.replacement := rfl
  rw [hletter, ← List.map_map, change, operate_eq_map, substitute_eq_map, List.length_map]
  cases h with
  | @inner first last hselects hoperation htwo =>
    have hinside := hselects.inside.2
    have hlength : 2 ≤ (t.extract first last).length := by
      rw [length_extract hinside]
      omega
    rw [cut_of_selects hselects, if_pos ⟨hoperation, hlength⟩, ← List.map_tail, ← List.map_dropLast,
      tail_dropLast_extract hinside]
  | all hselects hkeeps =>
    have hshort : ¬ (r.operation = 2 ∧ 2 ≤ (t.extract first last).length) := by
      rintro ⟨hoperation, hlength⟩
      have hlast := hkeeps hoperation
      rw [length_extract hselects.inside.2] at hlength
      omega
    rw [cut_of_selects hselects, if_neg hshort]

/-- A record changes a text position by position. Of every text it leaves some positions, and what it
makes of the text has as many code points as there are such positions, each of them the changed code
point of its position. No dollar sign is left by an operation that replaces it, be it from the text or
from the replacement. -/
theorem apply_by_position (r : Record) (t : Text) :
    (∃ first last, r.Leaves t.length first last) ∧
    ∀ first last, r.Leaves t.length first last →
      first ≤ last ∧ last ≤ t.length ∧
      ∃ changed : Text, r.apply (.text t) = .ok (.text changed) ∧ changed.length = last - first ∧
        (∀ i, first + i < last → changed[i]? = t[first + i]?.map r.letter) ∧
        (r.operation = 1 ∨ r.operation = 2 → CodePoint.ofChar '$' ∉ changed) := by
  refine ⟨exists_leaves r t.length, fun first last h => ⟨h.inside.1, h.inside.2, r.change t,
    apply_text r t, ?_, fun i hi => ?_, fun hoperation hdollar => ?_⟩⟩
  · rw [change_of_leaves h, List.length_map, length_extract h.inside.2]
  · rw [change_of_leaves h, List.getElem?_map, List.extract_eq_take_drop,
      List.getElem?_take_of_lt (by omega), List.getElem?_drop]
  · rw [change_of_leaves h] at hdollar
    obtain ⟨c, -, hc⟩ := List.mem_map.mp hdollar
    exact punctuate_ne_dollar hoperation _ hc

/-- The bounds 1 and 9 cut a descriptor out, operation 2 takes off what encloses it, and the slashes
become dollar signs, given as a number above 16 bits, and with them points. -/
theorem apply_by_position_descriptor :
    let r : Record := { operation := 2, substring := [1, 9, -4], replacement := [0x2F, 0x10024] }
    let t : Text := "[La/b$cd;]"
    r.Leaves t.length 2 8 ∧ r.apply (.text t) = .ok (.text "a.b.cd") ∧
      ∃ changed : Text, r.apply (.text t) = .ok (.text changed) ∧ changed.length = 8 - 2 ∧
        CodePoint.ofChar '$' ∉ changed := by
  intro r t
  have hselects : Selects r.substring t.length 1 9 := .given rfl (by decide) (by decide)
  have hleaves : r.Leaves t.length 2 8 := .inner hselects rfl (by decide)
  obtain ⟨-, -, changed, hchanged, hlength, -, hdollar⟩ := (apply_by_position r t).2 2 8 hleaves
  exact ⟨hleaves, rfl, changed, hchanged, hlength, hdollar (.inr rfl)⟩

end KotlinNullability.Record
