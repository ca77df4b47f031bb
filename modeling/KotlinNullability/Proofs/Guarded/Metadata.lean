import KotlinNullability.Proofs.Guarded.Message
import KotlinNullability.Proofs.Metadata.Wording

/-!
# Guarded decoding

Class metadata decoded with every index guarded: those of bytes by the window of their message, those
of records, predefined names, interned strings and code points by the list or text that they are
taken from. For any bytes and any interned strings the guarded decoder never traps. So decoding ends,
every turn of its loops takes a byte, nothing is taken from outside of where it belongs, every number
in the wording of an error can be written, and the result is the functions of the class, a fault of a
message or a string index that does not resolve.
-/

namespace KotlinNullability.Guarded

open Wire (FieldRule Schema)

/-- The element at an index of a list. -/
def elementAt {ε α : Type} (as : List α) (index : Int) : Except (Halt ε) α :=
  if 0 ≤ index then
    match as[index.toNat]? with
    | some a => .ok a
    | none => .error (.trapped .outsideList)
  else .error (.trapped .outsideList)

/-- The part of a text between two positions. -/
def between {ε : Type} (t : Text) (first last : Int) : Except (Halt ε) Text :=
  if 0 ≤ first ∧ first ≤ last ∧ last ≤ t.length then
    .ok ((t.drop first.toNat).take (last - first).toNat)
  else .error (.trapped .outsideList)

/-- Cut out the substring, if there are two bounds that are in order and inside the text. -/
def cut {ε : Type} (bounds : List Int) (t : Text) : Except (Halt ε) Text :=
  if 2 ≤ bounds.length then do
    let first ← elementAt bounds 0
    let last ← elementAt bounds 1
    if 0 ≤ first ∧ first ≤ last ∧ last ≤ t.length then between t first last else pure t
  else pure t

/-- Replace one code point by another, if both are given; each is a UTF-16 unit. -/
def substitute {ε : Type} (units : List Int) (t : Text) : Except (Halt ε) Text :=
  if 2 ≤ units.length then do
    let old ← elementAt units 0
    let new ← elementAt units 1
    return t.replace (.ofUnit old) (.ofUnit new)
  else pure t

/-- Do the operation of a record. -/
def operate {ε : Type} (operation : Int) (t : Text) : Except (Halt ε) Text :=
  if operation = 1 then pure (t.replace '$' '.')
  else if operation = 2 then do
    let inner ← if 2 ≤ t.length then between t 1 (t.length - 1) else pure t
    return inner.replace '$' '.'
  else pure t

/-- The string of a slot, from the string that its record starts from. -/
def change {ε : Type} (r : Record) (base : Text) : Except (Halt ε) Text := do
  let part ← cut r.substring base
  let changed ← substitute r.replacement part
  operate r.operation changed

/-- The end of a run for a string index that does not resolve, which has to be worded. -/
def unresolved (index : Int) (error : IndexError) : Halt Refusal :=
  Numeral.worded [index] (.trapped .unwritable) (.raised (.index error))

/-- The string that a slot starts from. -/
def base (r : Record) (pool : List Text) (index : Int) : Except (Halt Refusal) Text :=
  match r.literal with
  | some literal => .ok literal
  | none =>
    if r.predefinedIndex ≠ -1 ∧ 0 ≤ r.predefinedIndex ∧
        r.predefinedIndex < StringTable.predefined.length then
      elementAt StringTable.predefined r.predefinedIndex
    else if index < pool.length then elementAt pool index
    else .error (unresolved index (.outsidePool index.toNat pool.length))

/-- The string of an index, over the record of every slot. -/
def resolve (slots : List Record) (pool : List Text) (index : Int) : Except (Halt Refusal) Text :=
  if 0 ≤ index ∧ index < slots.length then do
    let r ← elementAt slots index
    change r (← base r pool index)
  else .error (unresolved index (.outsideTable index slots.length))

section Texts

variable {ε α : Type}

theorem elementAt_eq {as : List α} {index : Int} {a : α} (hindex : 0 ≤ index)
    (h : as[index.toNat]? = some a) : elementAt as index = (.ok a : Except (Halt ε) α) := by
  rw [elementAt, if_pos hindex, h]

theorem cut_eq (bounds : List Int) (t : Text) :
    cut bounds t = (.ok (Record.cut bounds t) : Except (Halt ε) Text) := by
  match bounds with
  | [] => rfl
  | [_] => rfl
  | first :: last :: rest =>
    have hlength : 2 ≤ (first :: last :: rest).length := Nat.le_add_left ..
    have hfirst : elementAt (first :: last :: rest) 0 = (.ok first : Except (Halt ε) Int) :=
      elementAt_eq (by decide) rfl
    have hlast : elementAt (first :: last :: rest) 1 = (.ok last : Except (Halt ε) Int) :=
      elementAt_eq (by decide) rfl
    rw [cut, if_pos hlength, hfirst, hlast]
    simp only [bind, Except.bind, Record.cut, between]
    split <;> rfl

theorem substitute_eq (units : List Int) (t : Text) :
    substitute units t = (.ok (Record.substitute units t) : Except (Halt ε) Text) := by
  match units with
  | [] => rfl
  | [_] => rfl
  | old :: new :: rest =>
    have hlength : 2 ≤ (old :: new :: rest).length := Nat.le_add_left ..
    have hold : elementAt (old :: new :: rest) 0 = (.ok old : Except (Halt ε) Int) :=
      elementAt_eq (by decide) rfl
    have hnew : elementAt (old :: new :: rest) 1 = (.ok new : Except (Halt ε) Int) :=
      elementAt_eq (by decide) rfl
    rw [substitute, if_pos hlength, hold, hnew]
    rfl

theorem operate_eq (operation : Int) (t : Text) :
    operate operation t = (.ok (Record.operate operation t) : Except (Halt ε) Text) := by
  unfold operate Record.operate
  split
  · rfl
  · split
    · by_cases hlength : 2 ≤ t.length
      · have hbetween : between t 1 (t.length - 1) =
            (.ok t.tail.dropLast : Except (Halt ε) Text) := by
          have hcount : ((t.length : Int) - 1 - 1).toNat = t.tail.length - 1 := by
            rw [List.length_tail]
            omega
          have htail : t.drop (1 : Int).toNat = t.tail := List.drop_one
          rw [between, if_pos (by omega), hcount, htail, ← List.dropLast_eq_take]
        rw [if_pos hlength, if_pos hlength, hbetween]
        rfl
      · rw [if_neg hlength, if_neg hlength]
        rfl
    · rfl

theorem change_eq (r : Record) (base : Text) :
    change r base = (.ok (r.change base) : Except (Halt ε) Text) := by
  rw [change, cut_eq]
  change (substitute _ _ >>= _) = _
  rw [substitute_eq]
  exact operate_eq ..

/-- Over interned strings, a slot starts from the same string, or from none. -/
theorem base_eq (records : List Record) (pool : List Text) (r : Record) {index : Int}
    (hindex : 0 ≤ index) :
    (∃ t, base r pool index = .ok t ∧
      StringTable.base? ⟨records, pool.map .text⟩ r index.toNat = some (.text t)) ∨
    base r pool index = .error (unresolved index (.outsidePool index.toNat pool.length)) ∧
      StringTable.base? ⟨records, pool.map .text⟩ r index.toNat = none := by
  unfold base StringTable.base?
  cases r.literal with
  | some literal => exact .inl ⟨literal, rfl, rfl⟩
  | none =>
    dsimp only
    by_cases hpredefined : 0 ≤ r.predefinedIndex ∧
        r.predefinedIndex < StringTable.predefined.length
    · obtain ⟨name, hname⟩ : ∃ name, StringTable.predefined[r.predefinedIndex.toNat]? = some name :=
        ⟨_, List.getElem?_eq_getElem (by omega)⟩
      rw [if_pos ⟨by omega, hpredefined⟩, if_pos hpredefined, hname]
      exact .inl ⟨name, elementAt_eq hpredefined.1 hname, rfl⟩
    · rw [if_neg fun h => hpredefined h.2, if_neg hpredefined, List.getElem?_map]
      by_cases hpool : index < pool.length
      · obtain ⟨t, ht⟩ : ∃ t, pool[index.toNat]? = some t :=
          ⟨_, List.getElem?_eq_getElem (by omega)⟩
        rw [if_pos hpool, ht]
        exact .inl ⟨t, elementAt_eq hindex ht, rfl⟩
      · rw [if_neg hpool, List.getElem?_eq_none (by omega)]
        exact .inr ⟨rfl, rfl⟩

/-- An index that can be written and does not resolve is reported alike. -/
theorem unresolved_eq {index : Int} (h : IsInt32 index) (error : IndexError) :
    unresolved index error = .raised (.index error) ∧
      DecodeError.ofIndex index error = Refusal.error (.index error) :=
  ⟨Numeral.worded_singleton h.isWritable .., Numeral.worded_singleton h.isWritable ..⟩

/-- Over interned strings, an index of 32 bits is resolved alike. -/
theorem resolve_eq (records : List Record) (pool : List Text) {index : Int} (hshort : IsInt32 index) :
    ∃ outcome : Except Refusal Text,
      resolve (StringTable.slots ⟨records, pool.map .text⟩) pool index = outcome.mapError .raised ∧
      StringTable.resolve ⟨records, pool.map .text⟩ index =
        (outcome.map Json.text).mapError Refusal.error := by
  have hsize : (StringTable.slots ⟨records, pool.map .text⟩).length =
      StringTable.size ⟨records, pool.map .text⟩ := StringTable.length_slots _
  have hrecord : StringTable.recordAt? records index.toNat =
      (StringTable.slots ⟨records, pool.map .text⟩)[index.toNat]? :=
    StringTable.recordAt?_eq_getElem? records index.toNat
  unfold resolve StringTable.resolve
  by_cases hindex : 0 ≤ index ∧ index < (StringTable.slots ⟨records, pool.map .text⟩).length
  · obtain ⟨r, hr⟩ : ∃ r, (StringTable.slots ⟨records, pool.map .text⟩)[index.toNat]? = some r :=
      ⟨_, List.getElem?_eq_getElem (by omega)⟩
    rw [if_pos hindex, elementAt_eq hindex.1 hr, if_neg (by omega), hrecord, hr]
    obtain ⟨t, hguarded, hbase⟩ | ⟨hguarded, hbase⟩ := base_eq records pool r hindex.1
    · refine ⟨.ok (r.change t), ?_, ?_⟩
      · change base r pool index >>= change r = _
        rw [hguarded]
        exact change_eq r t
      · dsimp only
        rw [hbase]
        rfl
    · refine ⟨.error (.index (.outsidePool index.toNat pool.length)), ?_, ?_⟩
      · change base r pool index >>= change r = _
        rw [hguarded, (unresolved_eq hshort _).1]
        rfl
      · dsimp only
        rw [hbase, List.length_map]
        exact congrArg Except.error (unresolved_eq hshort _).2
  · refine ⟨.error (.index (.outsideTable index (StringTable.size ⟨records, pool.map .text⟩))),
      ?_, ?_⟩
    · rw [if_neg hindex, hsize, (unresolved_eq hshort _).1]
      rfl
    · split
      · exact congrArg Except.error (unresolved_eq hshort _).2
      · rw [hrecord, List.getElem?_eq_none (by omega)]
        exact congrArg Except.error (unresolved_eq hshort _).2

end Texts

/-- No messages are nested in a message. -/
def noNested {σ : Type} : Nat → Reader → Except (Halt Refusal) (σ → σ) := fun _ _ => .ok id

section Decoding

variable (data : List UInt8) (records : List Record) (pool : List Text)

/-- Read a record. -/
def readRecord (r : Reader) : Except (Halt Refusal) Record :=
  walk data StringTable.recordSchema noNested {} r

/-- Read the records of a string table. -/
def readRecords (r : Reader) : Except (Halt Refusal) (List Record) :=
  walk data StringTable.schema
    (fun _ inner => (readRecord data inner).map fun record records => records ++ [record]) [] r

/-- The string of an index over the records of a string table. -/
def nameOf (index : Int) : Except (Halt Refusal) Text :=
  resolve (StringTable.slots ⟨records, pool.map .text⟩) pool index

/-- Read the return type of a function, and settle whether its class is `kotlin/Unit`. -/
def readReturnType (r : Reader) : Except (Halt Refusal) ReturnType := do
  let type ← walk data ReturnType.schema noNested {} r
  if type.className = -1 then return { type with isUnit := false }
  else return { type with isUnit := (← nameOf records pool type.className) = StringTable.unitName }

/-- Read a signature. -/
def readSignature (r : Reader) : Except (Halt Refusal) Signature :=
  walk data Signature.schema noNested {} r

/-- Resolve the names of a function. -/
def resolveDraft (f : Function.Draft) : Except (Halt Refusal) Function := do
  let name ← nameOf records pool f.methodName
  let key ← match f.signature with
    | some s => do
      let descriptor ← nameOf records pool s.descriptor
      pure (some (.text (name ++ descriptor)))
    | none => pure none
  return ⟨f.nameIndex, f.returnType, f.signature, .text name, key⟩

/-- Read a return type or a signature in a function. -/
def readInFunction (number : Nat) (r : Reader) :
    Except (Halt Refusal) (Function.Draft → Function.Draft) :=
  if number = 3 then
    (readReturnType data records pool r).map fun returnType f => { f with returnType }
  else (readSignature data r).map fun signature f => { f with signature := some signature }

/-- Read a function. -/
def readFunction (r : Reader) : Except (Halt Refusal) Function := do
  let draft ← walk data (Function.schema ⟨records, pool.map .text⟩)
    (readInFunction data records pool) {} r
  resolveDraft records pool draft

/-- Read the functions of a class. -/
def readClass (r : Reader) : Except (Halt Refusal) (List Function) :=
  walk data (Metadata.classSchema ⟨records, pool.map .text⟩)
    (fun _ inner => (readFunction data records pool inner).map fun f functions => functions ++ [f])
    [] r

/-- The functions of a class in order of declaration. -/
def decode : Except (Halt Refusal) (List Function) :=
  match lift (Reader.enterTagless data) ⟨⟨0, data.length⟩, none⟩ with
  | .error e _ => .error e
  | .ok tableReader classReader => do
    let records ← readRecords data tableReader
    readClass data records pool classReader

variable {data records pool} {r : Reader} {s : Wire.Reader}

theorem readRecord_tells (h : Stands data r s) :
    Tells (readRecord data r) (StringTable.readRecord s) := by
  refine walk_tells (fun number read hrule => ?_) h _
  unfold StringTable.recordSchema at hrule
  split at hrule <;> cases hrule

theorem readRecords_tells (h : Stands data r s) :
    Tells (readRecords data r) (StringTable.readRecords s) := by
  refine walk_tells (fun number read hrule => ?_) h _
  unfold StringTable.schema at hrule
  split at hrule
  · cases hrule
    exact fun _ _ hinner => (readRecord_tells hinner).map _
  · cases hrule

theorem readReturnType_tells (h : Stands data r s) :
    Tells (readReturnType data records pool r)
      (ReturnType.read ⟨records, pool.map .text⟩ s) := by
  have hwalk : Tells (walk data ReturnType.schema noNested {} r)
      (Wire.walk ReturnType.schema {} s).result := by
    refine walk_tells (fun number read hrule => ?_) h _
    unfold ReturnType.schema at hrule
    split at hrule <;> cases hrule
  refine hwalk.bind fun type htype => ?_
  unfold ReturnType.resolve
  split
  · exact .ok _
  · obtain ⟨_ | name, hguarded, hname⟩ :=
      resolve_eq records pool ((ReturnType.walk_yields s).of_ok htype)
    · rw [nameOf, hguarded, hname]
      exact .refused _
    · rw [nameOf, hguarded, hname]
      simp only [bind, Except.bind, pure, Except.pure, Except.map, Except.mapError, Json.text.injEq]
      exact .ok _

theorem readSignature_tells (h : Stands data r s) :
    Tells (readSignature data r) (Signature.read s) := by
  refine walk_tells (fun number read hrule => ?_) h _
  unfold Signature.schema at hrule
  split at hrule <;> cases hrule

theorem resolveDraft_tells {f : Function.Draft} (h : f.IsShort) :
    Tells (resolveDraft records pool f) (f.resolve ⟨records, pool.map .text⟩) := by
  unfold resolveDraft Function.Draft.resolve nameOf
  obtain ⟨_ | name, hguarded, hname⟩ := resolve_eq records pool h.methodName
  · rw [hguarded, hname]
    exact .refused _
  · rw [hguarded, hname]
    cases hsignature : f.signature with
    | none => exact .ok _
    | some s =>
      obtain ⟨_ | descriptor, hguardedKey, hkey⟩ :=
        resolve_eq records pool (h.2 s hsignature).2
      · simp only [bind, Except.bind, Except.map, Except.mapError, hguardedKey, hkey]
        exact .refused _
      · simp only [bind, Except.bind, Except.map, Except.mapError, hguardedKey, hkey]
        exact .ok _

theorem readFunction_tells (h : Stands data r s) :
    Tells (readFunction data records pool r) (Function.read ⟨records, pool.map .text⟩ s) := by
  refine Tells.bind (walk_tells (fun number read hrule => ?_) h _) fun f hf =>
    resolveDraft_tells ((Function.walk_yields _ s).of_ok hf)
  unfold Function.schema at hrule
  split at hrule
  · cases hrule
  · cases hrule
    exact fun _ _ hinner => (readReturnType_tells hinner).map _
  · cases hrule
    exact fun _ _ hinner => (readSignature_tells hinner).map _
  · cases hrule

theorem readClass_tells (h : Stands data r s) : Tells (readClass data records pool r)
    (Wire.walk (Metadata.classSchema ⟨records, pool.map .text⟩) [] s).result := by
  refine walk_tells (fun number read hrule => ?_) h _
  unfold Metadata.classSchema at hrule
  split at hrule
  · cases hrule
    exact fun _ _ hinner => (readFunction_tells hinner).map _
  · cases hrule

end Decoding

/-- The guarded decoder comes to the end that decoding comes to. -/
theorem decode_tells (payload : List UInt8) (pool : List Text) :
    Tells (decode payload pool) (Metadata.decode payload (pool.map .text)) := by
  have hstart : Stands payload ⟨⟨0, payload.length⟩, none⟩ (.ofBytes payload) :=
    ⟨shows_ofBytes payload, rfl⟩
  have hrun := Matches.enterTagless.lift Wire.Assures.enterTagless _ _ hstart
  unfold decode Metadata.decode Metadata.decoding
  cases henter : Wire.Reader.enterTagless (.ofBytes payload) with
  | error fault after =>
    simp only [Wire.liftFault, henter] at hrun
    obtain ⟨refusal, t, hguarded, herror, -⟩ := hrun.of_error
    rw [hguarded]
    change Tells (.error (.raised refusal)) (.error (.wire fault))
    rw [herror]
    exact .refused refusal
  | ok tableReader classReader =>
    simp only [Wire.liftFault, henter] at hrun
    obtain ⟨inner, t, hguarded, htable, hclass⟩ := hrun.of_ok
    rw [hguarded]
    dsimp only
    obtain ⟨_ | records, hrecords, hread⟩ := readRecords_tells htable
    · rw [hrecords, StringTable.read, hread]
      exact .refused _
    · rw [hrecords, StringTable.read, hread]
      exact readClass_tells hclass

/-- For any bytes and any interned strings, decoding ends with the functions of the class, with a
fault of a message, or with a string index that does not resolve. The guarded decoder, which takes
bytes by their index in the payload and elements by their index in a list, ends alike and never
traps: no index is outside of the message, list or text that it is for, no turn of a loop leaves its
window where it was, and no number in the wording of an error is too long to be written. -/
theorem decode_never_trapped (payload : List UInt8) (pool : List Text) :
    ∃ outcome : Except Refusal (List Function), decode payload pool = outcome.mapError .raised ∧
      Metadata.decode payload (pool.map .text) = outcome.mapError Refusal.error :=
  decode_tells payload pool

end KotlinNullability.Guarded
