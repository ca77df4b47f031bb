import KotlinNullability.Metadata.Class

/-!
# Names of a class

The strings that the indices of a class stand for. When the indices have names, return types are
resolved by the names of their classes, and functions by the names and descriptors of their compiled
methods.
-/

namespace KotlinNullability

/-- The name is the string of the index in the table. -/
def StringTable.Names (table : StringTable) (index : Int) (name : Text) : Prop :=
  table.resolve index = .ok (.text name)

/-- The name is the string of the index in the table; no name has no index. -/
def StringTable.NamesAny (table : StringTable) (index : Int) : Option Text → Prop
  | none => index = -1
  | some name => table.Names index name

/-- A string index that has a name is not negative. -/
theorem StringTable.Names.index_ne {table : StringTable} {index : Int} {name : Text}
    (h : table.Names index name) : index ≠ -1 := by
  rintro rfl
  cases h

/-- A return type whose class has the name, or no name, is resolved by comparing the name. -/
theorem ReturnType.resolve_of_namesAny {table : StringTable} {type : ReturnType}
    {name : Option Text} (h : table.NamesAny type.className name) :
    type.resolve table = .ok { type with isUnit := name = some StringTable.unitName } := by
  rw [ReturnType.resolve]
  cases name with
  | none =>
    have hindex : type.className = -1 := h
    rw [if_pos hindex]
    rfl
  | some name =>
    have hname : table.resolve type.className = .ok (.text name) := h
    rw [if_neg (StringTable.Names.index_ne h), hname]
    simp [bind, Except.bind, pure, Except.pure]

namespace Function

variable {table : StringTable}

/-- A function without a signature is resolved by its name and has no key. -/
theorem Draft.resolve_of_signature_none {f : Draft} {name : Text} (hsignature : f.signature = none)
    (hname : table.Names f.nameIndex name) :
    f.resolve table = .ok ⟨f.nameIndex, f.returnType, none, .text name, none⟩ := by
  have hmethod : table.resolve f.methodName = .ok (.text name) := by
    rw [methodName, hsignature]
    exact hname
  rw [Draft.resolve, hmethod, hsignature]
  rfl

/-- A function with a signature is resolved by the names of its compiled method, which make its
key. -/
theorem Draft.resolve_of_signature_some {f : Draft} {s : Signature} {name descriptor : Text}
    (hsignature : f.signature = some s) (hname : table.Names f.methodName name)
    (hdescriptor : table.Names s.descriptor descriptor) :
    f.resolve table =
      .ok ⟨f.nameIndex, f.returnType, some s, .text name, some (.text (name ++ descriptor))⟩ := by
  have hmethod : table.resolve f.methodName = .ok (.text name) := hname
  have htext : table.resolve s.descriptor = .ok (.text descriptor) := hdescriptor
  rw [Draft.resolve, hmethod, hsignature]
  simp only [bind, Except.bind, htext]
  rfl

end Function

end KotlinNullability
