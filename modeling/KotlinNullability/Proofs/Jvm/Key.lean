import KotlinNullability.Jvm.Method
import KotlinNullability.Metadata.Match
import Mathlib.Data.List.Basic

/-!
# Keys tell methods apart

The key of a method writes the types of its parameters one after another with nothing between them.
Still no two methods share a key, because every descriptor shows where it ends: a letter is a
descriptor by itself, a class goes on to its semicolon, and an array goes on as its components do. So
the parameters can be cut apart again, whatever else the names of classes contain, and a descriptor
gives the name of its type back as long as this name has no slash of its own.

`TypeName.IsBinary` says which names types have.
-/

namespace KotlinNullability

/-- Texts without the replacement are told apart by their replaced forms. -/
theorem Text.replace_injective {old new : CodePoint} {s t : Text} (hs : new ∉ s) (ht : new ∉ t)
    (h : s.replace old new = t.replace old new) : s = t := by
  induction s generalizing t with
  | nil =>
    cases t with
    | nil => rfl
    | cons c t => cases h
  | cons b s ih =>
    cases t with
    | nil => cases h
    | cons c t =>
      simp only [replace, List.map_cons, List.cons.injEq] at h
      simp only [List.mem_cons, not_or] at hs ht
      obtain ⟨hhead, htail⟩ := h
      have hsame : b = c := by grind
      rw [hsame, ih hs.2 ht.2 htail]

/-- Texts in front of a code point that they do not contain end at its first occurrence. -/
theorem Text.append_cons_injective {c : CodePoint} {s t x y : Text} (hs : c ∉ s) (ht : c ∉ t)
    (h : s ++ c :: x = t ++ c :: y) : s = t ∧ x = y := by
  induction s generalizing t with
  | nil =>
    cases t with
    | nil => exact ⟨rfl, (List.cons.inj h).2⟩
    | cons b t => exact absurd ((List.cons.inj h).1 ▸ List.mem_cons_self) ht
  | cons b s ih =>
    cases t with
    | nil => exact absurd ((List.cons.inj h).1 ▸ List.mem_cons_self) hs
    | cons b' t =>
      obtain ⟨hhead, htail⟩ := List.cons.inj h
      simp only [List.mem_cons, not_or] at hs ht
      obtain ⟨hsame, hrest⟩ := ih hs.2 ht.2 htail
      exact ⟨congrArg₂ List.cons hhead hsame, hrest⟩

namespace Jvm

/-! ## Descriptors show where they end -/

/-- The name of a class as a descriptor encloses it. -/
def enclose (name : Text) : Text := 'L' :: (name ++ [(';' : CodePoint)])

/-- The array of some components. -/
def arrayOf (component : Text) : Text := '[' :: component

/-- The text is the descriptor of one type. -/
inductive IsDescriptor : Text → Prop
  | letter {c : CodePoint} (h : [c] ∈ primitives.map Prod.snd) : IsDescriptor [c]
  | reference {name : Text} (h : (';' : CodePoint) ∉ name) : IsDescriptor (enclose name)
  | array {component : Text} (h : IsDescriptor component) : IsDescriptor (arrayOf component)

/-- No letter of a primitive type begins the descriptor of a class or of an array, or ends the
parameters. -/
theorem letter_ne {c : CodePoint} (h : [c] ∈ primitives.map Prod.snd) :
    c ≠ 'L' ∧ c ≠ '[' ∧ c ≠ ')' := by
  have hall : ∀ letter ∈ primitives.map Prod.snd,
      letter ≠ [CodePoint.ofChar 'L'] ∧ letter ≠ [CodePoint.ofChar '['] ∧
        letter ≠ [CodePoint.ofChar ')'] := by decide
  simpa only [ne_eq, List.cons.injEq, and_true] using hall [c] h

/-- The first semicolon behind the name of a class ends its descriptor. -/
theorem enclose_append_injective {name name' s s' : Text} (hname : (';' : CodePoint) ∉ name)
    (hname' : (';' : CodePoint) ∉ name') (h : enclose name ++ s = enclose name' ++ s') :
    name = name' ∧ s = s' := by
  simp only [enclose, List.cons_append, List.append_assoc, List.cons.injEq, true_and,
    List.nil_append] at h
  exact Text.append_cons_injective hname hname' h

namespace IsDescriptor

variable {d d' s s' : Text}

/-- Of two descriptors in front of a text, none goes on where the other one ends. -/
theorem append_injective (hd : IsDescriptor d) (hd' : IsDescriptor d') (h : d ++ s = d' ++ s') :
    d = d' ∧ s = s' := by
  induction hd generalizing d' with
  | letter hc =>
    obtain ⟨hreference, harray, -⟩ := letter_ne hc
    cases hd' with
    | letter hc' =>
      obtain ⟨rfl, rfl⟩ := List.cons.inj h
      exact ⟨rfl, rfl⟩
    | reference => exact absurd (List.cons.inj h).1 hreference
    | array => exact absurd (List.cons.inj h).1 harray
  | reference hname =>
    cases hd' with
    | letter hc' => exact absurd (List.cons.inj h).1.symm (letter_ne hc').1
    | reference hname' =>
      obtain ⟨rfl, rfl⟩ := enclose_append_injective hname hname' h
      exact ⟨rfl, rfl⟩
    | array => exact absurd (List.cons.inj h).1 (by decide)
  | array hcomponent ih =>
    cases hd' with
    | letter hc' => exact absurd (List.cons.inj h).1.symm (letter_ne hc').2.1
    | reference => exact absurd (List.cons.inj h).1 (by decide)
    | array hcomponent' =>
      obtain ⟨rfl, rfl⟩ := ih hcomponent' (List.cons.inj h).2
      exact ⟨rfl, rfl⟩

/-- No descriptor begins with the parenthesis that ends the parameters. -/
theorem ne_close (hd : IsDescriptor d) : d ++ s ≠ (')' : CodePoint) :: s' := by
  intro h
  cases hd with
  | letter hc => exact (letter_ne hc).2.2 (List.cons.inj h).1
  | reference => exact absurd (List.cons.inj h).1 (by decide)
  | array => exact absurd (List.cons.inj h).1 (by decide)

end IsDescriptor

/-! ## Binary names -/

/-- The text is the binary name of a class. -/
structure IsClassName (name : Text) : Prop where
  slash : ('/' : CodePoint) ∉ name
  semicolon : (';' : CodePoint) ∉ name
  bracket : name.head? ≠ some '['

/-- The text stands for the components of an array in the binary name of the array. -/
inductive IsComponent : Text → Prop
  | letter {c : CodePoint} (h : [c] ∈ primitives.map Prod.snd) (hvoid : c ≠ 'V') : IsComponent [c]
  | reference {name : Text} (h : IsClassName name) : IsComponent (enclose name)
  | array {component : Text} (h : IsComponent component) : IsComponent (arrayOf component)

/-- The name of a type is a binary name. -/
inductive TypeName.IsBinary : TypeName → Prop
  | primitive {t : TypeName} (h : t.name ∈ primitives.map Prod.fst) : IsBinary t
  | reference {t : TypeName} (h : IsClassName t.name) : IsBinary t
  | array {component : Text} (h : IsComponent component) : IsBinary ⟨arrayOf component⟩

theorem replace_enclose (name : Text) :
    (enclose name).replace '.' '/' = enclose (name.replace '.' '/') := by
  simp only [enclose, Text.replace, List.map_cons, List.map_append]
  rfl

/-- A class is described by its name with slashes in the place of dots. -/
theorem IsClassName.isDescriptor {name : Text} (h : IsClassName name) :
    IsDescriptor (enclose (name.replace '.' '/')) := by
  refine .reference fun hmem => ?_
  obtain ⟨c, hc, hreplaced⟩ := List.mem_map.mp hmem
  split at hreplaced
  · exact absurd hreplaced (by decide)
  · exact h.semicolon (hreplaced ▸ hc)

namespace IsComponent

variable {component : Text}

theorem slash (h : IsComponent component) : ('/' : CodePoint) ∉ component := by
  induction h with
  | letter h =>
    have hall : ∀ letter ∈ primitives.map Prod.snd, CodePoint.ofChar '/' ∉ letter := by decide
    exact hall _ h
  | reference h =>
    have hends : CodePoint.ofChar '/' ≠ 'L' ∧ CodePoint.ofChar '/' ≠ ';' := by decide
    simp [enclose, h.slash, hends]
  | array _ ih =>
    have hbracket : CodePoint.ofChar '/' ≠ '[' := by decide
    simp [arrayOf, ih, hbracket]

/-- A component is described as it stands in the name of its array, with slashes in the place of
dots. -/
theorem isDescriptor (h : IsComponent component) : IsDescriptor (component.replace '.' '/') := by
  induction h with
  | letter h =>
    have hall : ∀ letter ∈ primitives.map Prod.snd, letter.replace '.' '/' = letter := by decide
    rw [hall _ h]
    exact .letter h
  | reference h =>
    rw [replace_enclose]
    exact h.isDescriptor
  | array _ ih => exact .array ih

end IsComponent

namespace TypeName

/-- The letter of a type is that of its name in the list of primitive types. -/
theorem letter?_eq_some {t : TypeName} {letter : Text} (h : t.letter? = some letter) :
    (t.name, letter) ∈ primitives := by
  obtain ⟨entry, hentry, rfl⟩ := Option.map_eq_some_iff.mp h
  have hname : entry.1 = t.name := by simpa using List.find?_some hentry
  rw [← hname]
  exact List.mem_of_find?_eq_some hentry

theorem letter?_ne_none {t : TypeName} (h : t.name ∈ primitives.map Prod.fst) :
    t.letter? ≠ none := by
  obtain ⟨entry, hentry, hname⟩ := List.mem_map.mp h
  intro hnone
  have hfind := List.find?_eq_none.mp (Option.map_eq_none_iff.mp hnone) entry hentry
  exact hfind (by simpa using hname)

/-- A type is described as its binary name is made: by the letter of a primitive type, as a class, or
as an array. -/
theorem IsBinary.described {t : TypeName} (h : t.IsBinary) :
    (∃ c, (t.name, [c]) ∈ primitives ∧ t.descriptor = [c]) ∨
      (IsClassName t.name ∧ t.descriptor = enclose (t.name.replace '.' '/')) ∨
      ∃ component, IsComponent component ∧ t.name = arrayOf component ∧
        t.descriptor = arrayOf (component.replace '.' '/') := by
  cases hletter : t.letter? with
  | some letter =>
    -- Whatever else the name is, the list of primitive types is asked first.
    have hmem := letter?_eq_some hletter
    have hall : ∀ entry ∈ primitives, entry.2 = [entry.2.headD 0] := by decide
    refine .inl ⟨letter.headD 0, ?_, ?_⟩
    · rwa [← hall _ hmem]
    · rw [descriptor, hletter, ← hall _ hmem]
  | none =>
    refine .inr ?_
    cases h with
    | primitive h => exact absurd hletter (letter?_ne_none h)
    | reference h =>
      have harray : t.isArray = false := by simpa [isArray] using h.bracket
      refine .inl ⟨h, ?_⟩
      rw [descriptor, hletter, harray]
      rfl
    | @array component h =>
      refine .inr ⟨component, h, rfl, ?_⟩
      rw [descriptor, hletter]
      rfl

variable {t t' : TypeName}

theorem IsBinary.isDescriptor (h : t.IsBinary) : IsDescriptor t.descriptor := by
  obtain ⟨c, hc, hd⟩ | ⟨hname, hd⟩ | ⟨component, hcomponent, -, hd⟩ := h.described <;> rw [hd]
  · exact .letter (List.mem_map_of_mem hc)
  · exact hname.isDescriptor
  · exact .array hcomponent.isDescriptor

/-- Primitive types have different letters. -/
theorem eq_of_letter_eq {name name' letter : Text} (h : (name, letter) ∈ primitives)
    (h' : (name', letter) ∈ primitives) : name = name' := by
  have hall : ∀ entry ∈ primitives, ∀ entry' ∈ primitives, entry.2 = entry'.2 →
      entry.1 = entry'.1 := by decide
  exact hall _ h _ h' rfl

/-- Types are told apart by their descriptors. -/
theorem IsBinary.descriptor_injective (h : t.IsBinary) (h' : t'.IsBinary)
    (hsame : t.descriptor = t'.descriptor) : t = t' := by
  obtain ⟨c, hc, hd⟩ | ⟨hname, hd⟩ | ⟨component, hcomponent, ht, hd⟩ := h.described
  · obtain ⟨hreference, harray, -⟩ := letter_ne (List.mem_map_of_mem hc)
    obtain ⟨c', hc', hd'⟩ | ⟨-, hd'⟩ | ⟨_, -, -, hd'⟩ := h'.described <;> rw [hd, hd'] at hsame
    · exact congrArg TypeName.mk (eq_of_letter_eq hc (hsame ▸ hc'))
    · exact absurd (List.cons.inj hsame).1 hreference
    · exact absurd (List.cons.inj hsame).1 harray
  · obtain ⟨c', hc', hd'⟩ | ⟨hname', hd'⟩ | ⟨_, -, -, hd'⟩ := h'.described <;>
      rw [hd, hd'] at hsame
    · exact absurd (List.cons.inj hsame).1.symm (letter_ne (List.mem_map_of_mem hc')).1
    · have hreplaced := List.append_cancel_right (List.cons.inj hsame).2
      exact congrArg TypeName.mk (Text.replace_injective hname.slash hname'.slash hreplaced)
    · exact absurd (List.cons.inj hsame).1 (by decide)
  · obtain ⟨c', hc', hd'⟩ | ⟨-, hd'⟩ | ⟨component', hcomponent', ht', hd'⟩ := h'.described <;>
      rw [hd, hd'] at hsame
    · exact absurd (List.cons.inj hsame).1.symm (letter_ne (List.mem_map_of_mem hc')).2.1
    · exact absurd (List.cons.inj hsame).1 (by decide)
    · have hreplaced := Text.replace_injective hcomponent.slash hcomponent'.slash
        (List.cons.inj hsame).2
      exact congrArg TypeName.mk (by rw [ht, ht', hreplaced])

/-- The first descriptor shows the type that stands in front. -/
theorem IsBinary.descriptor_append_injective {s s' : Text} (h : t.IsBinary) (h' : t'.IsBinary)
    (hsame : t.descriptor ++ s = t'.descriptor ++ s') : t = t' ∧ s = s' := by
  obtain ⟨hd, hs⟩ := h.isDescriptor.append_injective h'.isDescriptor hsame
  exact ⟨h.descriptor_injective h' hd, hs⟩

/-- Descriptors that stand one after another show all their types, if a parenthesis ends them. -/
theorem flatMap_descriptor_injective {ts ts' : List TypeName} {s s' : Text}
    (hts : ∀ t ∈ ts, t.IsBinary) (hts' : ∀ t ∈ ts', t.IsBinary)
    (h : ts.flatMap descriptor ++ (')' : CodePoint) :: s =
      ts'.flatMap descriptor ++ (')' : CodePoint) :: s') : ts = ts' ∧ s = s' := by
  induction ts generalizing ts' with
  | nil =>
    cases ts' with
    | nil => exact ⟨rfl, (List.cons.inj h).2⟩
    | cons t' ts' =>
      rw [List.flatMap_cons, List.append_assoc] at h
      exact absurd h.symm (hts' t' List.mem_cons_self).isDescriptor.ne_close
  | cons t ts ih =>
    obtain ⟨ht, htail⟩ := List.forall_mem_cons.mp hts
    rw [List.flatMap_cons, List.append_assoc] at h
    cases ts' with
    | nil => exact absurd h ht.isDescriptor.ne_close
    | cons t' ts' =>
      obtain ⟨ht', htail'⟩ := List.forall_mem_cons.mp hts'
      rw [List.flatMap_cons, List.append_assoc] at h
      obtain ⟨hhead, hrest⟩ := ht.descriptor_append_injective ht' h
      obtain ⟨hsame, hs⟩ := ih htail htail' hrest
      exact ⟨congrArg₂ List.cons hhead hsame, hs⟩

end TypeName

/-! ## Keys -/

namespace Method

/-- The name of the method has no parenthesis, and its types have binary names. -/
structure IsBinary (m : Method) : Prop where
  name : ('(' : CodePoint) ∉ m.name
  parameters : ∀ t ∈ m.parameters, t.IsBinary
  returns : m.returns.IsBinary

variable {m m' : Method}

/-- A key is the name, the parameters and the return type with parentheses between them. -/
theorem key_eq (m : Method) : m.key =
    m.name ++ ('(' : CodePoint) :: (m.parameters.flatMap TypeName.descriptor ++
      (')' : CodePoint) :: m.returns.descriptor) := by
  simp only [key, List.append_assoc]
  rfl

/-- Methods are told apart by their keys. -/
theorem IsBinary.key_injective (h : m.IsBinary) (h' : m'.IsBinary) (hkey : m.key = m'.key) :
    m = m' := by
  rw [key_eq, key_eq] at hkey
  obtain ⟨hname, htypes⟩ := Text.append_cons_injective h.name h'.name hkey
  obtain ⟨hparameters, hdescriptor⟩ :=
    TypeName.flatMap_descriptor_injective h.parameters h'.parameters htypes
  have hreturns : m.returns = m'.returns := h.returns.descriptor_injective h'.returns hdescriptor
  cases m
  cases m'
  cases hname
  cases hparameters
  cases hreturns
  rfl

/-- Methods with binary names share a key only if they have the same name, the same types of
parameters and the same return type; so no function is found for two of them. -/
theorem key_unambiguous (h : m.IsBinary) (h' : m'.IsBinary) :
    (m.key = m'.key ↔ m.name = m'.name ∧
        m.parameters.map TypeName.name = m'.parameters.map TypeName.name ∧
        m.returns.name = m'.returns.name) ∧
      ∀ functions functions' f, Function.find functions m.key = .ok f →
        Function.find functions' m'.key = .ok f → m = m' := by
  refine ⟨⟨fun hkey => ?_, ?_⟩, fun functions functions' f hfind hfind' => ?_⟩
  · obtain rfl := h.key_injective h' hkey
    exact ⟨rfl, rfl, rfl⟩
  · rintro ⟨hname, hparameters, hreturns⟩
    have hparameters : m.parameters = m'.parameters :=
      List.map_injective_iff.mpr (fun _ _ => congrArg TypeName.mk) hparameters
    have hreturns : m.returns = m'.returns := congrArg TypeName.mk hreturns
    rw [key, key, hname, hparameters, hreturns]
  · -- The function has one key, and it is the key of both methods.
    obtain ⟨-, hkey⟩ := Function.mem_of_find hfind
    rw [(Function.mem_of_find hfind').2] at hkey
    have hsame : m'.key = m.key := by simpa using hkey
    exact h.key_injective h' hsame.symm

/-- Two overloads, the one with an array of classes that a parenthesis and letters stand in and a
number, and the other with the class alone, have different keys. -/
theorem key_unambiguous_overloads :
    let m : Method := ⟨"f", [⟨"[La.I)V;"⟩, ⟨"int"⟩], ⟨"void"⟩⟩
    let m' : Method := ⟨"f", [⟨"a.I)V"⟩], ⟨"[[J"⟩⟩
    m.IsBinary ∧ m'.IsBinary ∧ m.key ≠ m'.key := by
  intro m m'
  have hclass : IsClassName "a.I)V" := ⟨by decide, by decide, by decide⟩
  have hletter : IsComponent "J" := .letter (by decide) (by decide)
  have h : m.IsBinary := by
    refine ⟨by decide, ?_, .primitive (by decide)⟩
    exact List.forall_mem_cons.mpr ⟨.array (.reference hclass),
      List.forall_mem_singleton.mpr (.primitive (by decide))⟩
  have h' : m'.IsBinary :=
    ⟨by decide, List.forall_mem_singleton.mpr (.reference hclass), .array (.array hletter)⟩
  refine ⟨h, h', fun hkey => ?_⟩
  have hreturns := ((key_unambiguous h h').1.mp hkey).2.2
  exact absurd hreturns (by decide)

end Method

end Jvm

end KotlinNullability
