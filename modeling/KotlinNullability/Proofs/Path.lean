import KotlinNullability.FileTree
import KotlinNullability.Log.Journal

/-!
# The length of a path

The operating system counts the bytes of a path. Code points of one byte count alike, so the path of
a log file is as long at one moment as at another, if the moments are spelled by equally many of
them.
-/

namespace KotlinNullability

namespace Path

/-- A text of code points of one byte, none of which ends a name. -/
def IsPlain (t : Text) : Prop := ∀ c ∈ t, 0 < c.val ∧ c.val < 0x80

instance (t : Text) : Decidable (IsPlain t) :=
  decidable_of_iff (t.all fun c => decide (0 < c.val ∧ c.val < 0x80)) (by simp [IsPlain])

theorem bytesOf_of_plain {c : CodePoint} (h : 0 < c.val ∧ c.val < 0x80) :
    bytesOf c = .ok [c.toByte] := by
  have hstray : strayByte? c = none := if_neg (by omega)
  have hsurrogate : c.isSurrogate = false := decide_eq_false (by omega)
  rw [bytesOf, hstray]
  dsimp only
  rw [hsurrogate, Utf8.encodeOne, if_pos h.2]
  rfl

theorem mapM_bytesOf_of_plain {t : Text} (h : IsPlain t) :
    t.mapM bytesOf = .ok (t.map fun c => [c.toByte]) := by
  induction t with
  | nil => rfl
  | cons c t ih =>
    rw [List.mapM_cons, bytesOf_of_plain (h c List.mem_cons_self),
      ih fun d hd => h d (List.mem_cons_of_mem _ hd)]
    rfl

/-- Plain code points add their number to the bytes of what stands around them. -/
theorem systemLength_plain (before after : Text) {t : Text} (h : IsPlain t) :
    systemLength (before ++ (t ++ after)) =
      match before.mapM bytesOf, after.mapM bytesOf with
      | .ok front, .ok back =>
        if (0 : UInt8) ∈ front.flatten ++ back.flatten then 0
        else front.flatten.length + t.length + back.flatten.length
      | _, _ => 0 := by
  have hzero : ∀ c ∈ t, c.toByte ≠ 0 := by
    intro c hc hbyte
    have hvalue : c.val % 256 = 0 := by
      have hnat := congrArg UInt8.toNat hbyte
      rwa [CodePoint.toByte, UInt8.toNat_ofNat'] at hnat
    have hplain := h c hc
    omega
  rw [systemLength, systemBytes, List.mapM_append, List.mapM_append, mapM_bytesOf_of_plain h]
  cases hfront : before.mapM bytesOf with
  | error e => rfl
  | ok front =>
    cases hback : after.mapM bytesOf with
    | error e => rfl
    | ok back =>
      have hflatten : (front ++ ((t.map fun c => [c.toByte]) ++ back)).flatten =
          front.flatten ++ (t.map CodePoint.toByte ++ back.flatten) := by
        rw [List.flatten_append, List.flatten_append, ← List.flatMap_def, ← List.map_eq_flatMap]
      have hmem : (0 : UInt8) ∈ front.flatten ++ (t.map CodePoint.toByte ++ back.flatten) ↔
          (0 : UInt8) ∈ front.flatten ++ back.flatten := by
        have hnone : (0 : UInt8) ∉ t.map CodePoint.toByte := by
          simpa using hzero
        rw [List.mem_append, List.mem_append, List.mem_append]
        exact or_congr_right (or_iff_right hnone)
      dsimp only [bind, Except.bind, pure, Except.pure]
      rw [hflatten]
      simp only [List.contains_iff_mem, hmem]
      by_cases hmark : (0 : UInt8) ∈ front.flatten ++ back.flatten
      · rw [if_pos hmark, if_pos hmark]
      · rw [if_neg hmark, if_neg hmark]
        dsimp only
        rw [List.length_append, List.length_append, List.length_map, Nat.add_assoc]

/-- Plain code points in the place of equally many others leave the number of bytes as it is. -/
theorem systemLength_congr (before after : Text) {t u : Text} (ht : IsPlain t) (hu : IsPlain u)
    (h : t.length = u.length) :
    systemLength (before ++ (t ++ after)) = systemLength (before ++ (u ++ after)) := by
  rw [systemLength_plain before after ht, systemLength_plain before after hu, h]

/-- The spelling of a path from the root ends in its last name. -/
theorem exists_toText_append (names : List Text) :
    ∃ before, ∀ name, (Path.mk .root (names ++ [name])).toText = before ++ name := by
  have hjoin : ∃ before, ∀ name, Text.join "/" (names ++ [name]) = before ++ name := by
    induction names with
    | nil => exact ⟨[], fun name => by simp [Text.join]⟩
    | cons first names ih =>
      obtain ⟨before, hbefore⟩ := ih
      refine ⟨first ++ (Text.ofString "/" ++ before), fun name => ?_⟩
      obtain ⟨next, rest, hnext⟩ := List.exists_cons_of_ne_nil
        (List.append_ne_nil_of_right_ne_nil names (List.cons_ne_nil name []))
      have hrest := hbefore name
      rw [List.cons_append, hnext]
      rw [hnext] at hrest
      rw [Text.join, List.intercalate_cons_cons, ← Text.join, hrest]
      simp only [List.append_assoc]
  obtain ⟨before, hbefore⟩ := hjoin
  refine ⟨CodePoint.ofChar '/' :: before, fun name => ?_⟩
  rw [toText, hbefore]
  rfl

end Path

namespace Log.Stamps

/-- The names of the log files of two moments are spelled alike: by equally many code points of one
byte. -/
structure Alike (a b : Stamps) : Prop where
  length_eq : a.file.length = b.file.length
  left : Path.IsPlain a.file
  right : Path.IsPlain b.file

instance (a b : Stamps) : Decidable (a.Alike b) :=
  decidable_of_iff (a.file.length = b.file.length ∧ Path.IsPlain a.file ∧ Path.IsPlain b.file)
    ⟨fun ⟨hlength, hleft, hright⟩ => ⟨hlength, hleft, hright⟩,
      fun h => ⟨h.length_eq, h.left, h.right⟩⟩

/-- Where the log file of one moment has a path that is not too long, that of another one does. -/
theorem Alike.isLongPath_eq {a b : Stamps} (h : a.Alike b) (place : Location) :
    FileTree.isLongPath ⟨.root, place ++ [fileName a.file]⟩ =
      FileTree.isLongPath ⟨.root, place ++ [fileName b.file]⟩ := by
  obtain ⟨before, hbefore⟩ := Path.exists_toText_append place
  have hlength := Path.systemLength_congr (before ++ (rootLogger ++ "_")) ".log" h.left h.right
    h.length_eq
  rw [FileTree.isLongPath, FileTree.isLongPath, hbefore, hbefore, fileName, fileName]
  simp only [List.append_assoc] at hlength ⊢
  rw [hlength]

end Log.Stamps

end KotlinNullability
