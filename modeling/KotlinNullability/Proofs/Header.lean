import KotlinNullability.Header

/-!
# Headers that are well typed

The items of a header's arrays are kept as they come and judged when they are used. When all of them
are texts, every item spells itself, and the payload is what the texts hold; when the version has a
number, there is a version.
-/

namespace KotlinNullability

/-- Values that are made so that reading gives them back are all read back. -/
theorem mapM_map_of_eq_some {α β : Type} {f : β → Option α} {g : α → β} (h : ∀ a, f (g a) = some a)
    (as : List α) : (as.map g).mapM f = some as := by
  induction as with
  | nil => rfl
  | cons a as ih =>
    rw [List.map_cons, List.mapM_cons, h, ih]
    rfl

namespace Header

/-- A text spells itself. -/
@[simp] theorem spelled?_text (t : Text) : spelled? (.text t) = some t := by
  have hcodePoint : ∀ c : CodePoint, Json.codePoint? (.text [c]) = some c := fun _ => rfl
  exact mapM_map_of_eq_some hcodePoint t

/-- A header whose packed strings are texts has the payload that the texts hold. -/
theorem payload_of_texts {header : Header} {texts : List Text}
    (hdata : header.data1 = texts.map .text) : header.payload = .ok (Packing.unpack texts) := by
  have hkeyed : header.data1.head?.any isKeyed = false := by
    rw [hdata]
    cases texts <;> rfl
  have hspelled : header.data1.mapM spelled? = some texts := by
    rw [hdata]
    exact mapM_map_of_eq_some spelled?_text texts
  rw [payload, hkeyed, hspelled]
  rfl

/-- The fields of a header that is well typed: its strings are texts, and its version has a first
number. -/
structure Typed where
  kind : Int
  major : Int
  /-- The numbers of the version after the first. -/
  minors : List Int := []
  data1 : List Text
  data2 : List Text := []
  extraInt : Int := 0
  deriving DecidableEq, Repr

namespace Typed

/-- The header with these fields. -/
def header (h : Typed) : Header where
  kind := h.kind
  versionParts := h.major :: h.minors
  data1 := h.data1.map .text
  data2 := h.data2.map .text
  extraInt := h.extraInt

/-- The version: numbers that are missing are zero. -/
def version (h : Typed) : Version :=
  ⟨h.major, h.minors.getD 0 0, h.minors.getD 1 0, h.header.isStrict⟩

/-- The version of the header is there, and it is this one. -/
theorem version?_header (h : Typed) : h.header.version? = some h.version := by
  obtain ⟨kind, major, minors, data1, data2, extraInt⟩ := h
  match minors with
  | [] => rfl
  | [_] => rfl
  | _ :: _ :: _ => rfl

end Typed

end Header

end KotlinNullability
