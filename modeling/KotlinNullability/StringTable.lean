import KotlinNullability.StringTable.Predefined
import KotlinNullability.StringTable.Record
import KotlinNullability.Wire.Message

/-!
# String tables

Class metadata names things by the slots of a string table. The table is stored as records, each of
which covers a run of slots, next to the pool of interned strings. A slot takes its string from the
literal of its record, from the predefined names, or from the pool at the slot's own index. The pool
comes from outside and may hold values of any type in the place of strings.
-/

namespace KotlinNullability

/-- The records of a string table and the interned strings. -/
structure StringTable where
  records : List Record
  pool : List Json
  deriving DecidableEq, Repr

namespace StringTable

/-- The number of slots that some records cover. -/
def slotCount : List Record → Nat
  | [] => 0
  | r :: records => r.span + slotCount records

/-- The number of slots. -/
def size (table : StringTable) : Nat := slotCount table.records

/-- The record that covers a slot. -/
def recordAt? : List Record → Nat → Option Record
  | [], _ => none
  | r :: records, slot => if slot < r.span then some r else recordAt? records (slot - r.span)

/-- The record of every slot in order. -/
def slots (table : StringTable) : List Record :=
  table.records.flatMap fun r => List.replicate r.span r

theorem length_slots (table : StringTable) : table.slots.length = table.size := by
  unfold slots size
  induction table.records with
  | nil => rfl
  | cons r records ih => rw [List.flatMap_cons, List.length_append, List.length_replicate, ih, slotCount]

/-- Looking a record up by ranges is indexing into the slots. -/
theorem recordAt?_eq_getElem? (records : List Record) (slot : Nat) :
    recordAt? records slot = (records.flatMap fun r => List.replicate r.span r)[slot]? := by
  induction records generalizing slot with
  | nil => simp [recordAt?]
  | cons r records ih =>
    rw [recordAt?, List.flatMap_cons]
    split
    · next h => simp [List.getElem?_append_left, h]
    · next h =>
      have hlen : (List.replicate r.span r).length ≤ slot := by simpa using h
      rw [List.getElem?_append_right hlen, List.length_replicate, ih]

/-- The string that a slot starts from. -/
def base? (table : StringTable) (r : Record) (slot : Nat) : Option Json :=
  match r.literal with
  | some literal => some (.text literal)
  | none =>
    if 0 ≤ r.predefinedIndex ∧ r.predefinedIndex < predefined.length then
      predefined[r.predefinedIndex.toNat]?.map .text
    else table.pool[slot]?

/-- The string of an index. -/
def resolve (table : StringTable) (index : Int) : Except DecodeError Json :=
  if index < 0 then .error (.ofIndex index (.outsideTable index table.size))
  else
    match recordAt? table.records index.toNat with
    | none => .error (.ofIndex index (.outsideTable index table.size))
    | some r =>
      match table.base? r index.toNat with
      | none => .error (.ofIndex index (.outsidePool index.toNat table.pool.length))
      | some base => (r.apply base).mapError .misuse

/-- The fields of a record. -/
def recordSchema : Wire.Schema Record
  | 1 => some (.int fun range r => { r with range })
  | 2 => some (.int fun predefinedIndex r => { r with predefinedIndex })
  | 3 => some (.int fun operation r => { r with operation })
  | 4 => some (.ints fun bounds r => { r with substring := r.substring ++ bounds })
  | 5 => some (.ints fun units r => { r with replacement := r.replacement ++ units })
  | 6 => some (.text fun literal r => { r with literal := some literal })
  | _ => none

/-- Read a record. -/
def readRecord (r : Wire.Reader) : Except DecodeError Record :=
  (Wire.walk recordSchema {} r).result

/-- The fields of a string table. -/
def schema : Wire.Schema (List Record)
  | 1 => some (.message fun r => (readRecord r).map fun record records => records ++ [record])
  | _ => none

/-- Read the records of a string table. -/
def readRecords (r : Wire.Reader) : Except DecodeError (List Record) :=
  (Wire.walk schema [] r).result

/-- Read a string table over a pool. -/
def read (r : Wire.Reader) (pool : List Json) : Except DecodeError StringTable :=
  (readRecords r).map fun records => ⟨records, pool⟩

end StringTable

end KotlinNullability
