import KotlinNullability.Config.Environment
import KotlinNullability.Proofs.Text.Numeral
import Mathlib.Data.List.Basic

/-!
# The text of a baseline

A baseline is set as a text of three numerals with points between them. A numeral may be written in
many ways, and none of them holds a point, so the parts of the text are those between its points. What
a version is shown as is one of these texts; the baseline that is read from any of them is shown in
such a way that it is read again.
-/

namespace KotlinNullability

namespace Baseline

/-- The text is made of three numerals with points between them, which are read as the numbers of the
baseline. -/
inductive Spells : Text → Baseline → Prop
  | intro {major minor patch : Text} {b : Baseline} (hmajor : Numeral.Accepts major b.major)
      (hminor : Numeral.Accepts minor b.minor) (hpatch : Numeral.Accepts patch b.patch) :
      Spells (major ++ CodePoint.ofChar '.' :: (minor ++ CodePoint.ofChar '.' :: patch)) b

variable {t : Text} {b : Baseline}

theorem point_not_mem {n : Int} (h : Numeral.Accepts t n) : CodePoint.ofChar '.' ∉ t := by
  obtain ⟨count, -, hspells⟩ := h
  exact hspells.not_mem (by decide) (by decide) (by decide) (by decide)

/-- The parts of the text are the three numerals. -/
theorem splitOn_of_accepts {major minor patch : Text} {a b c : Int}
    (hmajor : Numeral.Accepts major a) (hminor : Numeral.Accepts minor b)
    (hpatch : Numeral.Accepts patch c) :
    Text.splitOn '.' (major ++ CodePoint.ofChar '.' :: (minor ++ CodePoint.ofChar '.' :: patch)) =
      [major, minor, patch] := by
  rw [Text.splitOn_append_cons (point_not_mem hmajor), Text.splitOn_append_cons (point_not_mem hminor),
    Text.splitOn_eq_singleton (point_not_mem hpatch)]

/-- Three parts are what a text with two points has. -/
theorem exists_three_parts (h : t.count (CodePoint.ofChar '.') = 2) :
    ∃ major minor patch, Text.splitOn '.' t = [major, minor, patch] ∧
      t = major ++ CodePoint.ofChar '.' :: (minor ++ CodePoint.ofChar '.' :: patch) := by
  have hlength : (Text.splitOn '.' t).length = 3 := by rw [Text.length_splitOn, h]
  obtain ⟨major, minor, patch, hparts⟩ := List.length_eq_three.mp hlength
  refine ⟨major, minor, patch, hparts, ?_⟩
  have hjoin := Text.intercalate_splitOn '.' t
  rw [hparts] at hjoin
  simpa [List.intercalate, List.intersperse] using hjoin.symm

theorem Spells.count_point (h : Spells t b) : t.count (CodePoint.ofChar '.') = 2 := by
  have hlength := Text.length_splitOn '.' t
  obtain ⟨hmajor, hminor, hpatch⟩ := h
  rw [splitOn_of_accepts hmajor hminor hpatch] at hlength
  exact (Nat.succ.inj hlength).symm

/-- A text without exactly two points is refused for its shape. -/
theorem read_of_count_ne (h : t.count (CodePoint.ofChar '.') ≠ 2) : read t = .error (.shape t) := by
  have hlength : (Text.splitOn '.' t).length ≠ 3 := by
    rw [Text.length_splitOn]
    exact fun hthree => h (Nat.succ.inj hthree)
  unfold read
  split
  · next hparts =>
    rw [hparts] at hlength
    exact absurd rfl hlength
  · rfl

/-- Exactly the texts that spell a baseline are read, as this baseline. -/
theorem read_eq_ok_iff : read t = .ok b ↔ Spells t b := by
  constructor
  · intro h
    have hcount : t.count (CodePoint.ofChar '.') = 2 := by
      by_contra hcount
      rw [read_of_count_ne hcount] at h
      cases h
    obtain ⟨major, minor, patch, hparts, rfl⟩ := exists_three_parts hcount
    rw [read, hparts] at h
    dsimp only at h
    split at h
    · next hmajor hminor hpatch =>
      obtain rfl := Except.ok.inj h
      exact .intro (Numeral.read_eq_ok_iff.mp hmajor) (Numeral.read_eq_ok_iff.mp hminor)
        (Numeral.read_eq_ok_iff.mp hpatch)
    · cases h
  · rintro ⟨hmajor, hminor, hpatch⟩
    rw [read, splitOn_of_accepts hmajor hminor hpatch]
    simp only [Numeral.read_eq_ok_iff.mpr hmajor, Numeral.read_eq_ok_iff.mpr hminor,
      Numeral.read_eq_ok_iff.mpr hpatch]

/-- A text with two points that spells no baseline is refused for its numerals. -/
theorem read_of_not_spells (hcount : t.count (CodePoint.ofChar '.') = 2)
    (h : ∀ b, ¬ Spells t b) : read t = .error (.numeral t) := by
  obtain ⟨major, minor, patch, hparts, -⟩ := exists_three_parts hcount
  have hnot (b : Baseline) : read t ≠ .ok b := fun hread => h b (read_eq_ok_iff.mp hread)
  rw [read, hparts] at hnot ⊢
  dsimp only at hnot ⊢
  split at hnot
  · exact absurd rfl (hnot _)
  · rfl

/-- What a version of numbers that are not too long is shown as spells its numbers. -/
theorem spells_dotted {v : Version} (h : ∀ n ∈ [v.major, v.minor, v.patch],
    n.natAbs < 10 ^ Numeral.digitLimit) : Spells v.dotted ⟨v.major, v.minor, v.patch⟩ := by
  have hdotted : v.dotted = Numeral.ofInt v.major ++ CodePoint.ofChar '.' ::
      (Numeral.ofInt v.minor ++ CodePoint.ofChar '.' :: Numeral.ofInt v.patch) := by
    simp [Version.dotted, dotted, parts, Text.join, List.intercalate, List.intersperse, Text.ofString]
  simp only [List.forall_mem_cons] at h
  rw [hdotted]
  exact .intro (Numeral.accepts_ofInt h.1) (Numeral.accepts_ofInt h.2.1)
    (Numeral.accepts_ofInt h.2.2.1)

/-- The numbers of a baseline that is spelled are not too long. -/
theorem Spells.natAbs_lt (h : Spells t b) : ∀ n ∈ [b.major, b.minor, b.patch],
    n.natAbs < 10 ^ Numeral.digitLimit := by
  obtain ⟨hmajor, hminor, hpatch⟩ := h
  simp only [List.forall_mem_cons]
  exact ⟨hmajor.natAbs_lt, hminor.natAbs_lt, hpatch.natAbs_lt, List.forall_mem_nil _⟩

end Baseline

namespace Environment

/-- The variable that sets the baseline. -/
def baselineVariable : Text := "KMETA_BASELINE_VERSION"

/-- The baseline is read from the value of its variable, if this is set. -/
theorem baseline_of_get? {env : Environment} {value : Text}
    (h : env.get? baselineVariable = some value) : env.baseline = Baseline.read value := by
  have hname : settingLead ++ Text.ofString "BASELINE_VERSION" = baselineVariable := by decide
  have hsetting : env.textSetting "BASELINE_VERSION" = value := by
    rw [textSetting]
    simp only [settings, defaultSettings, List.map_cons, List.map_nil, Association.find?, if_pos,
      hname, h]
    rfl
  rw [baseline, hsetting]

/-- The baseline that a variable sets. If the variable holds what a version of numbers that are not too
long is shown as, the baseline has these numbers. For any other value, too, the baseline is exactly
what the value spells: three numerals with exactly two points between them. Shown as a version, it is
read again as the same baseline. A value without exactly two points is refused for its shape, and one
with two points that spells no baseline for its numerals. -/
theorem baseline_of_variable :
    (∀ (env : Environment) (v : Version), env.get? baselineVariable = some v.dotted →
      (∀ n ∈ [v.major, v.minor, v.patch], n.natAbs < 10 ^ Numeral.digitLimit) →
      env.baseline = .ok ⟨v.major, v.minor, v.patch⟩) ∧
    ∀ (env : Environment) (value : Text), env.get? baselineVariable = some value →
      (∀ b, env.baseline = .ok b ↔ Baseline.Spells value b) ∧
      (∀ b, env.baseline = .ok b → value.count (CodePoint.ofChar '.') = 2 ∧
        ∀ (env' : Environment) (strict : Bool),
          env'.get? baselineVariable = some (Version.dotted ⟨b.major, b.minor, b.patch, strict⟩) →
          env'.baseline = .ok b) ∧
      (value.count (CodePoint.ofChar '.') ≠ 2 → env.baseline = .error (.shape value)) ∧
      (value.count (CodePoint.ofChar '.') = 2 → (∀ b, ¬ Baseline.Spells value b) →
        env.baseline = .error (.numeral value)) := by
  refine ⟨fun env v hget hlimit => ?_, fun env value hget => ?_⟩
  · rw [baseline_of_get? hget]
    exact Baseline.read_eq_ok_iff.mpr (Baseline.spells_dotted hlimit)
  · rw [baseline_of_get? hget]
    refine ⟨fun b => Baseline.read_eq_ok_iff, fun b hread => ?_, Baseline.read_of_count_ne,
      Baseline.read_of_not_spells⟩
    have hspells := Baseline.read_eq_ok_iff.mp hread
    refine ⟨hspells.count_point, fun env' strict hget' => ?_⟩
    rw [baseline_of_get? hget']
    exact Baseline.read_eq_ok_iff.mpr
      (Baseline.spells_dotted (v := ⟨b.major, b.minor, b.patch, strict⟩) hspells.natAbs_lt)

/-- The version -2.0.13 is read back from its text. Blanks, a sign, an underscore, zeros in front and a
digit of another script are accepted, and are gone once the baseline is shown. -/
theorem baseline_of_variable_ornate :
    let env : Environment := [(baselineVariable, Version.dotted ⟨-2, 0, 13, false⟩)]
    let value : Text := " +1_0.-007.\u0663"
    let ornate : Environment := [(baselineVariable, value)]
    let plain : Environment := [(baselineVariable, Version.dotted ⟨10, -7, 3, true⟩)]
    env.baseline = .ok ⟨-2, 0, 13⟩ ∧ Baseline.Spells value ⟨10, -7, 3⟩ ∧
      ornate.baseline = .ok ⟨10, -7, 3⟩ ∧ plain.baseline = .ok ⟨10, -7, 3⟩ := by
  intro env value ornate plain
  have hlimit (n : Nat) (hn : n < 10 ^ 2) : n < 10 ^ Numeral.digitLimit :=
    Nat.lt_of_lt_of_le hn (Nat.pow_le_pow_right (by decide) (by decide))
  have hread : ornate.baseline = .ok ⟨10, -7, 3⟩ := by decide
  obtain ⟨hshown, hset⟩ := baseline_of_variable
  obtain ⟨hspelled, hagain, -, -⟩ := hset ornate value rfl
  refine ⟨hshown env ⟨-2, 0, 13, false⟩ rfl ?_, (hspelled _).mp hread, hread,
    (hagain _ hread).2 plain true rfl⟩
  simp only [List.forall_mem_cons]
  exact ⟨hlimit _ (by decide), hlimit _ (by decide), hlimit _ (by decide), List.forall_mem_nil _⟩

end Environment

end KotlinNullability
