import KotlinNullability.Proofs.Wire.ReadBack
import Mathlib.Data.List.Forall2

/-!
# Walking over messages that were written

A walk over the fields of a message makes one step for each field. When every field that the schema
knows is read by its rule, the walk comes to the end and has made the updates of these fields in
order. Fields that the schema does not know may stand anywhere between them: they are skipped by
their wire type and change nothing.

`Holds` says which messages hold some fields in this sense.
-/

namespace KotlinNullability.Wire

/-- The format has room for the value: a length has 31 bits, a value of fixed width has its
width. -/
def Value.Fits : Value → Prop
  | varint _ => True
  | fixed64 bytes => bytes.length = 8
  | delimited bytes => bytes.length < 0x80000000
  | fixed32 bytes => bytes.length = 4

instance : DecidablePred Value.Fits
  | .varint _ => inferInstanceAs (Decidable True)
  | .fixed64 bytes => inferInstanceAs (Decidable (bytes.length = 8))
  | .delimited bytes => inferInstanceAs (Decidable (bytes.length < 0x80000000))
  | .fixed32 bytes => inferInstanceAs (Decidable (bytes.length = 4))

/-- The format has room for the field: its number is not zero and has 29 bits. -/
def Field.Fits (f : Field) : Prop := f.number ≠ 0 ∧ f.number < 0x20000000 ∧ f.value.Fits

instance : DecidablePred Field.Fits :=
  fun f => inferInstanceAs (Decidable (f.number ≠ 0 ∧ f.number < 0x20000000 ∧ f.value.Fits))

/-- A wire type has three bits. -/
theorem WireType.code_lt (wire : WireType) : wire.code < 8 := by
  cases wire <;> decide

/-- The number of a tag that the format has room for has 32 bits. -/
theorem Field.header_lt {f : Field} (h : f.Fits) : f.tag.header < 0x100000000 := by
  have hcode : f.value.wire.code < 8 := f.value.wire.code_lt
  have hnumber : f.number < 0x20000000 := h.2.1
  change f.number * 8 + f.value.wire.code < _
  omega

/-- The tag of a field is read back and becomes current. -/
theorem Reader.readTag_written {f : Field} (h : f.Fits) (position : Nat) (rest : List UInt8)
    (current : Option Tag) :
    Reader.readTag ⟨⟨position, Varint.encode f.tag.header ++ rest⟩, current⟩ =
      .ok (some f.tag) ⟨⟨position + (Varint.encode f.tag.header).length, rest⟩, some f.tag⟩ := by
  have hlt := Field.header_lt h
  have hsigned : signed 64 f.tag.header = f.tag.header :=
    Int.bmod_eq_of_le (by change -(18446744073709551616 / 2 : Int) ≤ _; omega)
      (by change _ < ((18446744073709551616 : Int) + 1) / 2; omega)
  obtain ⟨header, hheader, hrun⟩ :=
    Takes.varint (n := f.tag.header) (by omega) true position rest
  rw [hheader, hsigned] at hrun
  simp only [id] at hrun
  have hnot : ¬ (f.tag.header : Int) = -1 := by omega
  have hword : ((f.tag.header : Int) % 0x100000000).toNat = f.tag.header := by omega
  have hnumber : f.tag.field ≠ 0 := h.1
  simp only [Reader.readTag, hrun, if_neg hnot, hword, Tag.ofHeader_header hnumber]

section Walk

variable {σ : Type} {schema : Schema σ} {state next : σ} {r atValue after : Reader} {tag : Tag}

/-- A walk reads a tag, then the field by its rule, and goes on behind it. -/
theorem walk_eq (schema : Schema σ) (state : σ) (r : Reader) :
    walk schema state r = match Reader.readTag r with
      | .error fault _ => ⟨state, some (.wire fault)⟩
      | .ok none _ => ⟨state, none⟩
      | .ok (some tag) atValue =>
        match FieldRule.read (schema tag.field) state atValue with
        | .error e _ => ⟨state, some e⟩
        | .ok next after => walk schema next after := by
  rw [walk]
  split
  · next htag => rw [htag]
  · next htag => rw [htag]
  · next htag =>
    rw [htag]
    split <;> next hread => simp only [hread]

/-- A walk ends where its message ends. -/
theorem walk_of_readTag_none (h : Reader.readTag r = .ok none after) :
    walk schema state r = ⟨state, none⟩ := by
  rw [walk_eq, h]

/-- A walk in front of a tag that is wrong stops with its fault. -/
theorem walk_of_readTag_error {fault : Fault} (h : Reader.readTag r = .error fault after) :
    walk schema state r = ⟨state, some (.wire fault)⟩ := by
  rw [walk_eq, h]

/-- A field that is read takes a walk one step further. -/
theorem walk_of_read (htag : Reader.readTag r = .ok (some tag) atValue)
    (hread : FieldRule.read (schema tag.field) state atValue = .ok next after) :
    walk schema state r = walk schema next after := by
  rw [walk_eq, htag]
  simp only [hread]

/-- A walk in front of a field that is wrong stops with its error. -/
theorem walk_of_read_error {e : DecodeError} (htag : Reader.readTag r = .ok (some tag) atValue)
    (hread : FieldRule.read (schema tag.field) state atValue = .error e after) :
    walk schema state r = ⟨state, some e⟩ := by
  rw [walk_eq, htag]
  simp only [hread]

end Walk

/-- A packed run is read as the integers that it was written for. -/
theorem packedInts_flatMap_ofInt (position : Nat) (ns : List Int32) :
    packedInts ⟨position, (ns.map Int32.toInt).flatMap Varint.ofInt⟩ =
      .ok (ns.map Int32.toInt) := by
  induction ns generalizing position with
  | nil => simp [packedInts]
  | cons n ns ih =>
    obtain ⟨a, ha, hrun⟩ := Takes.varint_ofInt n.toInt false position
      ((ns.map Int32.toInt).flatMap Varint.ofInt)
    have hne : Varint.ofInt n.toInt ++ (ns.map Int32.toInt).flatMap Varint.ofInt ≠ [] := by
      simp [Varint.ofInt, Varint.encode_ne_nil]
    simp only [id] at hrun
    rw [List.map_cons, List.flatMap_cons, packedInts, dif_neg hne]
    split
    · next heq => rw [hrun] at heq; cases heq
    · next heq =>
      rw [hrun] at heq
      cases heq
      rw [ih, ha, signed_of_int32]
      rfl

/-- By the rule, the value of the field is taken whole and changes every state by the update. -/
def FieldRule.Reads {σ : Type} (rule : Option (FieldRule σ)) (f : Field) (update : σ → σ) : Prop :=
  ∀ state, Takes (Reader.mk · (some f.tag)) (FieldRule.read rule state) f.value.bytes
    (· = update state)

namespace FieldRule.Reads

variable {σ : Type}

/-- An integer is read where it was written. -/
theorem readInt (number : Nat) (n : Int32) :
    Takes (Reader.mk · (some (Field.ofInt number n.toInt).tag)) (Reader.readInt .plain)
      (Varint.ofInt n.toInt) (· = n.toInt) :=
  (Takes.expect rfl).after (Takes.onCursor (Takes.int32 n))

/-- An integer field is read as its integer. -/
theorem int (set : Int → σ → σ) (number : Nat) (n : Int32) :
    Reads (some (.int set)) (.ofInt number n.toInt) (set n.toInt) := by
  intro state
  exact (readInt number n).liftFault.map fun a ha => by rw [ha]

/-- A field that is unknown is skipped by its wire type. -/
theorem unknown {f : Field} (h : f.Fits) : Reads (none : Option (FieldRule σ)) f id := by
  have hskip : Takes id (Cursor.skip f.value.wire) f.value.bytes fun _ => True := by
    have hfits : f.value.Fits := h.2.2
    cases hvalue : f.value with
    | varint n => exact (Takes.varint_ofInt n false).map fun _ _ => trivial
    | fixed64 bytes =>
      rw [hvalue] at hfits
      have hexact := Takes.exact bytes
      rw [show bytes.length = 8 from hfits] at hexact
      exact hexact.map fun _ _ => trivial
    | delimited bytes =>
      rw [hvalue] at hfits
      exact (Takes.delimited hfits).map fun _ _ => trivial
    | fixed32 bytes =>
      rw [hvalue] at hfits
      have hexact := Takes.exact bytes
      rw [show bytes.length = 4 from hfits] at hexact
      exact hexact.map fun _ _ => trivial
  intro state
  have hread :
      Takes (Reader.mk · (some f.tag)) (Reader.skipField none) f.value.bytes fun _ => True :=
    Takes.onCursor hskip
  exact hread.liftFault.map fun _ _ => rfl

/-- A text field is read as its text. -/
theorem text (set : Text → σ → σ) (number : Nat) {t : Text}
    (hsurrogate : ∀ c ∈ t, c.isSurrogate = false) (h : (Field.ofText number t).Fits) :
    Reads (some (.text set)) (.ofText number t) (set t) := by
  intro state
  have hbytes : Takes (Reader.mk · (some (Field.ofText number t).tag)) Reader.readBytes _
      (· = Utf8.encode t) :=
    (Takes.expect rfl).after (Takes.onCursor (Takes.delimited h.2.2))
  have htext : Takes (Reader.mk · (some (Field.ofText number t).tag)) Reader.readText _ (· = t) :=
    hbytes.map fun a ha => by rw [ha, Utf8.decodeLossy_encode hsurrogate]
  exact htext.liftFault.map fun a ha => by rw [ha]

/-- One integer of a repeated field is added by itself. -/
theorem single (add : List Int → σ → σ) (number : Nat) (n : Int32) :
    Reads (some (.ints add)) (.ofInt number n.toInt) (add [n.toInt]) := by
  intro state
  have hints : Takes (Reader.mk · (some (Field.ofInt number n.toInt).tag)) Reader.readInts
      (Varint.ofInt n.toInt) (· = [n.toInt]) := by
    intro position rest
    obtain ⟨a, rfl, hrun⟩ := readInt number n position rest
    refine ⟨_, rfl, ?_⟩
    have hone : Reader.readInts ⟨⟨position, Varint.ofInt n.toInt ++ rest⟩,
        some (Field.ofInt number n.toInt).tag⟩ = EStateM.bind (Reader.readInt .plain)
          (fun a => Pure.pure [a]) ⟨⟨position, Varint.ofInt n.toInt ++ rest⟩,
            some (Field.ofInt number n.toInt).tag⟩ := if_pos rfl
    rw [hone, EStateM.bind, hrun]
    rfl
  exact hints.liftFault.map fun a ha => by rw [ha]

/-- A run of packed integers is added as a whole. -/
theorem packed (add : List Int → σ → σ) (number : Nat) (ns : List Int32)
    (h : (Field.ofInts number (ns.map Int32.toInt)).Fits) :
    Reads (some (.ints add)) (.ofInts number (ns.map Int32.toInt)) (add (ns.map Int32.toInt)) := by
  intro state
  have henter : Takes (Reader.mk · (some (Field.ofInts number (ns.map Int32.toInt)).tag))
      Reader.enter (Field.ofInts number (ns.map Int32.toInt)).value.bytes
      fun r => ∃ position, r = .ofCursor ⟨position, (ns.map Int32.toInt).flatMap Varint.ofInt⟩ :=
    .enter h.2.2 rfl
  have hints : Takes (Reader.mk · (some (Field.ofInts number (ns.map Int32.toInt)).tag))
      Reader.readInts (Field.ofInts number (ns.map Int32.toInt)).value.bytes
      (· = ns.map Int32.toInt) := by
    intro position rest
    obtain ⟨_, ⟨start, rfl⟩, hrun⟩ := henter position rest
    refine ⟨_, rfl, ?_⟩
    unfold Reader.readInts
    rw [if_neg (by simp [Field.ofInts, Field.tag, Value.wire]), hrun]
    dsimp only [Reader.ofCursor]
    rw [packedInts_flatMap_ofInt]
  exact hints.liftFault.map fun a ha => by rw [ha]

/-- A nested message is read by its own reader, which starts at the message and ends with it. -/
theorem message {read : Reader → Except DecodeError (σ → σ)} {number : Nat} {nested : List Field}
    {update : σ → σ} (h : (Field.ofMessage number nested).Fits)
    (hread : ∀ position, read (.ofCursor ⟨position, messageBytes nested⟩) = .ok update) :
    Reads (some (.message read)) (.ofMessage number nested) update := by
  intro state
  have henter : Takes (Reader.mk · (some (Field.ofMessage number nested).tag)) Reader.enter
      (Field.ofMessage number nested).value.bytes
      fun r => ∃ position, r = .ofCursor ⟨position, messageBytes nested⟩ := .enter h.2.2 rfl
  refine henter.liftFault.bind_nil ?_
  rintro _ ⟨position, rfl⟩
  rw [hread position]
  exact Takes.pure rfl

end FieldRule.Reads

/-- By the schema, the fields are read one after the other and lead from a state to a state. -/
inductive Schema.Leads {σ : Type} (schema : Schema σ) : List Field → σ → σ → Prop
  | nil (state : σ) : Schema.Leads schema [] state state
  | cons {f : Field} {fields : List Field} {update : σ → σ} {state last : σ}
      (head : FieldRule.Reads (schema f.number) f update)
      (tail : Schema.Leads schema fields (update state) last) :
      Schema.Leads schema (f :: fields) state last

/-- Of the fields with known numbers, the message holds these in this order. -/
def Holds (known : List Nat) (message fields : List Field) : Prop :=
  message.filter (fun f => f.number ∈ known) = fields ∧ ∀ f ∈ message, f.Fits

/-- The fields that a message holds fit as the message does. -/
theorem Holds.fits {known : List Nat} {message fields : List Field} (h : Holds known message fields)
    {f : Field} (hf : f ∈ fields) : f.Fits := by
  obtain ⟨rfl, hfits⟩ := h
  exact hfits f (List.mem_filter.mp hf).1

/-- The schema has rules for the known numbers and for no others. -/
def Schema.Knows {σ : Type} (schema : Schema σ) (known : List Nat) : Prop :=
  ∀ number, (schema number).isSome = decide (number ∈ known)

namespace Schema.Leads

variable {σ β : Type} {schema : Schema σ} {known : List Nat} {fields others message : List Field}
  {state mid last : σ}

/-- A single field makes its update. -/
theorem single {f : Field} {update : σ → σ} (h : FieldRule.Reads (schema f.number) f update)
    (state : σ) : schema.Leads [f] state (update state) :=
  .cons h (.nil _)

/-- Fields in sequence make their updates in sequence. -/
theorem append (h : schema.Leads fields state mid) (hnext : schema.Leads others mid last) :
    schema.Leads (fields ++ others) state last := by
  induction h with
  | nil => exact hnext
  | cons head _ ih => exact .cons head (ih hnext)

/-- A field that may be missing makes its update or none. -/
theorem option {field : β → Field} {update : β → σ → σ} {o : Option β}
    (h : ∀ b ∈ o, FieldRule.Reads (schema (field b).number) (field b) (update b))
    (hlast : last = o.elim state (update · state)) :
    schema.Leads (o.map field).toList state last := by
  subst hlast
  cases o with
  | none => exact .nil state
  | some b => exact single (h b rfl) state

/-- A repeated field makes its updates in order. -/
theorem map {field : β → Field} {update : β → σ → σ} {bs : List β}
    (h : ∀ b ∈ bs, FieldRule.Reads (schema (field b).number) (field b) (update b))
    (hlast : last = bs.foldl (fun s b => update b s) state) :
    schema.Leads (bs.map field) state last := by
  subst hlast
  induction bs generalizing state with
  | nil => exact .nil state
  | cons b bs ih =>
    exact .cons (h b List.mem_cons_self) (ih fun c hc => h c (List.mem_cons_of_mem _ hc))

/-- Nested messages of one number are added to a list in order, each as it is read. -/
theorem messages {α : Type} {schema : Schema (List α)} {number : Nat}
    {read : Reader → Except DecodeError α}
    (hrule : schema number = some (.message fun r => (read r).map fun a as => as ++ [a]))
    {as : List α} {nested : List (List Field)}
    (hread : List.Forall₂
      (fun a m => ∀ position, read (.ofCursor ⟨position, messageBytes m⟩) = .ok a) as nested)
    (hfits : ∀ m ∈ nested, (Field.ofMessage number m).Fits) (start : List α) :
    schema.Leads (nested.map (.ofMessage number)) start (start ++ as) := by
  induction hread generalizing start with
  | nil => simpa using nil start
  | @cons a m as nested ha _ ih =>
    have hhead : FieldRule.Reads (schema (Field.ofMessage number m).number) (.ofMessage number m)
        fun as => as ++ [a] := by
      rw [show (Field.ofMessage number m).number = number from rfl, hrule]
      exact .message (hfits m List.mem_cons_self) fun position => by rw [ha]; rfl
    have htail := ih (fun m hm => hfits m (List.mem_cons_of_mem _ hm)) (start ++ [a])
    rw [List.append_assoc] at htail
    exact .cons hhead htail

/-- Fields that the schema does not know change nothing. -/
theorem of_holds (hknown : schema.Knows known) (hmessage : Holds known message fields)
    (h : schema.Leads fields state last) : schema.Leads message state last := by
  obtain ⟨hfilter, hfits⟩ := hmessage
  induction message generalizing fields state with
  | nil =>
    cases hfilter
    exact h
  | cons f message ih =>
    have hrest : ∀ g ∈ message, g.Fits := fun g hg => hfits g (List.mem_cons_of_mem _ hg)
    have hnumber := hknown f.number
    cases hrule : schema f.number with
    | none =>
      have hunknown : FieldRule.Reads (schema f.number) f id := by
        rw [hrule]
        exact .unknown (hfits f List.mem_cons_self)
      rw [List.filter_cons_of_neg (by simpa [hrule] using hnumber.symm)] at hfilter
      exact .cons hunknown (ih h hfilter hrest)
    | some rule =>
      rw [List.filter_cons_of_pos (by simpa [hrule] using hnumber.symm)] at hfilter
      subst hfilter
      cases h with
      | cons head tail => exact .cons head (ih tail rfl hrest)

/-- A walk over fields that are read comes to the end, in the state that they lead to. -/
theorem walk_eq (h : schema.Leads message state last) (hfits : ∀ f ∈ message, f.Fits)
    (position : Nat) (current : Option Tag) :
    walk schema state ⟨⟨position, messageBytes message⟩, current⟩ = ⟨last, none⟩ := by
  induction h generalizing position current with
  | nil state => exact walk_of_readTag_none rfl
  | @cons f fields update state last head tail ih =>
    have hrest : ∀ g ∈ fields, g.Fits := fun g hg => hfits g (List.mem_cons_of_mem _ hg)
    have hbytes : messageBytes (f :: fields) =
        Varint.encode f.tag.header ++ (f.value.bytes ++ messageBytes fields) := by
      rw [messageBytes, List.flatMap_cons, Field.bytes, List.append_assoc, ← messageBytes]
    have htag := Reader.readTag_written (hfits f List.mem_cons_self) position
      (f.value.bytes ++ messageBytes fields) current
    obtain ⟨next, rfl, hread⟩ := head state (position + (Varint.encode f.tag.header).length)
      (messageBytes fields)
    rw [hbytes, walk_of_read htag hread, ih hrest]

end Schema.Leads

/-- A message that holds fields which lead to a state is read to its end, with that state. -/
theorem Holds.walk_eq {σ : Type} {schema : Schema σ} {known : List Nat}
    {message fields : List Field} {state last : σ} (h : Holds known message fields)
    (hknown : schema.Knows known) (hleads : schema.Leads fields state last) (position : Nat) :
    walk schema state (.ofCursor ⟨position, messageBytes message⟩) = ⟨last, none⟩ :=
  (hleads.of_holds hknown h).walk_eq h.2 position none

end KotlinNullability.Wire
