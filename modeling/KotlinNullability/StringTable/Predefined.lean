import KotlinNullability.Text

/-!
# Predefined names

Well-known names of the Kotlin standard library, which a string table refers to by position. The
order is part of the format.
-/

namespace KotlinNullability.StringTable

/-- The class whose values carry no information. -/
def unitName : Text := "kotlin/Unit"

/-- The predefined names by position. -/
def predefined : List Text := List.map Text.ofString [
  "kotlin/Any", "kotlin/Nothing", "kotlin/Unit", "kotlin/Throwable", "kotlin/Number",
  "kotlin/Byte", "kotlin/Double", "kotlin/Float", "kotlin/Int",
  "kotlin/Long", "kotlin/Short", "kotlin/Boolean", "kotlin/Char",
  "kotlin/CharSequence", "kotlin/String", "kotlin/Comparable", "kotlin/Enum",
  "kotlin/Array",
  "kotlin/ByteArray", "kotlin/DoubleArray", "kotlin/FloatArray", "kotlin/IntArray",
  "kotlin/LongArray", "kotlin/ShortArray", "kotlin/BooleanArray", "kotlin/CharArray",
  "kotlin/Cloneable", "kotlin/Annotation",
  "kotlin/collections/Iterable", "kotlin/collections/MutableIterable",
  "kotlin/collections/Collection", "kotlin/collections/MutableCollection",
  "kotlin/collections/List", "kotlin/collections/MutableList",
  "kotlin/collections/Set", "kotlin/collections/MutableSet",
  "kotlin/collections/Map", "kotlin/collections/MutableMap",
  "kotlin/collections/Map.Entry", "kotlin/collections/MutableMap.MutableEntry",
  "kotlin/collections/Iterator", "kotlin/collections/MutableIterator",
  "kotlin/collections/ListIterator", "kotlin/collections/MutableListIterator"]

example : predefined[2]? = some unitName := rfl

end KotlinNullability.StringTable
