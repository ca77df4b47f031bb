import KotlinNullability.Proofs.Metadata.Keys
import KotlinNullability.Proofs.StringTable.Lists

/-!
# The order of fields

Fields of different numbers change different parts of what is read, so their changes can be made in
either order; only among the fields of one number the order counts. So a message may list its fields
in any order that keeps the fields of each number in theirs: it is read from the one as from the other,
although the states in between are not the same.
-/

namespace KotlinNullability

open Wire (EncodedField Field FieldRule Reader Schema Value encodedBytes encodedFields walk)

namespace Wire

section Folds

variable {σ β : Type} {step : σ → β → σ} {key : β → Nat}

/-- An element can be brought to the front past elements of other keys, if the steps of different keys
can be swapped. -/
theorem foldl_append_cons_of_key
    (hswap : ∀ b c, key b ≠ key c → ∀ s, step (step s b) c = step (step s c) b) {b : β}
    {before : List β} (hbefore : ∀ c ∈ before, key c ≠ key b) (after : List β) (s : σ) :
    (before ++ b :: after).foldl step s = (before ++ after).foldl step (step s b) := by
  induction before generalizing s with
  | nil => rfl
  | cons c before ih =>
    obtain ⟨hc, hrest⟩ := List.forall_mem_cons.mp hbefore
    rw [List.cons_append, List.foldl_cons, ih hrest, List.cons_append, List.foldl_cons,
      hswap c b hc]

/-- If the steps of different keys can be swapped, a fold is told from the elements of each key, in
order. -/
theorem foldl_eq_of_filter_eq
    (hswap : ∀ b c, key b ≠ key c → ∀ s, step (step s b) c = step (step s c) b) {bs cs : List β}
    (h : ∀ k, bs.filter (key · = k) = cs.filter (key · = k)) (s : σ) :
    bs.foldl step s = cs.foldl step s := by
  induction bs generalizing cs s with
  | nil =>
    have hnil : cs = [] := List.eq_nil_iff_forall_not_mem.mpr fun c hc => by
      have hmem : c ∈ cs.filter (key · = key c) := List.mem_filter.mpr ⟨hc, decide_eq_true rfl⟩
      rw [← h] at hmem
      cases hmem
    rw [hnil]
  | cons b bs ih =>
    -- The first element of the key of `b` in the other list is `b` itself.
    have hb : cs.filter (key · = key b) = b :: bs.filter (key · = key b) := by
      rw [← h, List.filter_cons_of_pos (by simp)]
    obtain ⟨before, after, rfl, hbefore, -, hafter⟩ := List.filter_eq_cons_iff.mp hb
    have hother : ∀ c ∈ before, key c ≠ key b := fun c hc => by simpa using hbefore c hc
    rw [foldl_append_cons_of_key hswap hother, List.foldl_cons]
    refine ih (fun k => ?_) (step s b)
    have hk := h k
    rw [List.filter_append] at hk ⊢
    by_cases hkey : key b = k
    · subst hkey
      rw [List.filter_eq_nil_iff.mpr hbefore, List.nil_append, hafter]
    · rwa [List.filter_cons_of_neg (by simpa using hkey),
        List.filter_cons_of_neg (by simpa using hkey)] at hk

end Folds

/-- The fields in another order, in which those of each number keep theirs. -/
structure Reordered (message message' : List EncodedField) : Prop where
  perm : message.Perm message'
  order : ∀ number, message.filter (·.field.number = number) =
    message'.filter (·.field.number = number)

/-- The messages are read alike: from the one what is read from the other, and from neither if nothing
is read from one of them. -/
def ReadsAlike {α : Type} (read : Reader → Except DecodeError α) (bytes bytes' : List UInt8) : Prop :=
  ∀ position position' a,
    read (.ofCursor ⟨position, bytes⟩) = .ok a ↔ read (.ofCursor ⟨position', bytes'⟩) = .ok a

section Swaps

variable {σ : Type} {schema : Schema σ}

/-- The update is one that a field with the rule may mean. -/
inductive FieldRule.Makes : FieldRule σ → (σ → σ) → Prop
  | int (set : Int → σ → σ) (n : Int) : FieldRule.Makes (.int set) (set n)
  | ints (add : List Int → σ → σ) (ns : List Int) : FieldRule.Makes (.ints add) (add ns)
  | text (set : Text → σ → σ) (t : Text) : FieldRule.Makes (.text set) (set t)
  | message {read : Reader → Except DecodeError (σ → σ)} {r : Reader} {update : σ → σ}
      (h : read r = .ok update) : FieldRule.Makes (.message read) update

/-- The updates for different numbers can be swapped. -/
def Schema.Separate (schema : Schema σ) : Prop :=
  ∀ number number' rule rule' update update', number ≠ number' →
    schema number = some rule → schema number' = some rule' → rule.Makes update →
    rule'.Makes update' → ∀ state, update' (update state) = update (update' state)

theorem FieldRule.Makes.of_meaning {rule : FieldRule σ} {value : Value} {update : σ → σ}
    (h : FieldRule.meaning (some rule) value = some update) : rule.Makes update := by
  cases rule with
  | int set =>
    obtain ⟨n, -, rfl⟩ := Option.map_eq_some_iff.mp h
    exact .int set n
  | ints add =>
    obtain ⟨ns, -, rfl⟩ := Option.map_eq_some_iff.mp h
    exact .ints add ns
  | text set =>
    obtain ⟨t, -, rfl⟩ := Option.map_eq_some_iff.mp h
    exact .text set t
  | message read =>
    obtain ⟨bytes, -, hread⟩ := Option.bind_eq_some_iff.mp h
    exact .message (toOption_eq_some_iff.mp hread)

/-- A field changes nothing or makes an update that its rule may mean. -/
theorem Schema.change_cases (schema : Schema σ) (f : Field) :
    (∀ state, schema.change state f = state) ∨
      ∃ rule update, schema f.number = some rule ∧ rule.Makes update ∧
        ∀ state, schema.change state f = update state := by
  cases hrule : schema f.number with
  | none => exact .inl (change_none hrule)
  | some rule =>
    cases hmeaning : schema.meaning f with
    | none => exact .inl fun state => by rw [change, hmeaning, Option.getD_none, id]
    | some update =>
      have hvalue : FieldRule.meaning (some rule) f.value = some update := by rwa [← hrule]
      exact .inr ⟨rule, update, rfl, .of_meaning hvalue, change_of_meaning hmeaning⟩

/-- The changes of fields of different numbers can be swapped, if the updates can. -/
theorem Schema.Separate.change_swap (h : schema.Separate) (f g : Field) (hne : f.number ≠ g.number)
    (state : σ) :
    schema.change (schema.change state f) g = schema.change (schema.change state g) f := by
  rcases schema.change_cases f with hf | ⟨rule, update, hrule, hmakes, hf⟩
  · rw [hf, hf]
  rcases schema.change_cases g with hg | ⟨rule', update', hrule', hmakes', hg⟩
  · rw [hg, hg]
  rw [hf, hg, hg, hf]
  exact h _ _ _ _ _ _ hne hrule hrule' hmakes hmakes' state

/-- Messages with their fields in another order are read alike, if the updates for different numbers
can be swapped. -/
theorem Schema.Separate.readsAlike {α : Type} {read : Reader → Except DecodeError α} {start : σ}
    {finish : σ → Except DecodeError α} (hseparate : schema.Separate) (hplaceless : schema.Placeless)
    (eq : ∀ r, read r = (walk schema start r).result >>= finish) {message message' : List EncodedField}
    (h : Reordered message message') :
    ReadsAlike read (encodedBytes message) (encodedBytes message') := by
  have hmeaning : (∀ e ∈ message, (schema.meaning e.field).isSome) ↔
      ∀ e ∈ message', (schema.meaning e.field).isSome :=
    forall_congr' fun e => imp_congr_left h.perm.mem_iff
  have hfields (message : List EncodedField) (number : Nat) :
      (encodedFields message).filter (·.number = number) =
        encodedFields (message.filter (·.field.number = number)) := List.filter_map
  have hfold : (encodedFields message).foldl schema.change start =
      (encodedFields message').foldl schema.change start := by
    refine foldl_eq_of_filter_eq hseparate.change_swap (fun number => ?_) start
    rw [hfields, hfields, h.order]
  intro position position' a
  simp only [eq, walk_result_bind_eq_ok_iff hplaceless, runs_encoded_iff, hmeaning, hfold]

end Swaps

end Wire

open Wire (ReadsAlike Reordered)

/-! ## The messages of class metadata -/

theorem StringTable.recordSchema_separate : recordSchema.Separate := by
  intro number number' rule rule' update update' hne hrule hrule' hmakes hmakes' state
  unfold recordSchema at hrule hrule'
  split at hrule <;> cases hrule <;> cases hmakes <;> split at hrule' <;> cases hrule' <;>
    cases hmakes' <;> first | rfl | exact absurd rfl hne

theorem ReturnType.schema_separate : schema.Separate := by
  intro number number' rule rule' update update' hne hrule hrule' hmakes hmakes' state
  unfold schema at hrule hrule'
  split at hrule <;> cases hrule <;> cases hmakes <;> split at hrule' <;> cases hrule' <;>
    cases hmakes' <;> first | rfl | exact absurd rfl hne

theorem Signature.schema_separate : schema.Separate := by
  intro number number' rule rule' update update' hne hrule hrule' hmakes hmakes' state
  unfold schema at hrule hrule'
  split at hrule <;> cases hrule <;> cases hmakes <;> split at hrule' <;> cases hrule' <;>
    cases hmakes' <;> first | rfl | exact absurd rfl hne

/-- A field of a function sets one part of it. -/
theorem Function.part_of_makes {table : StringTable} {number : Nat} {rule : FieldRule Draft}
    {update : Draft → Draft} (hrule : schema table number = some rule) (hmakes : rule.Makes update) :
    (number = 2 ∧ ∃ nameIndex, update = fun f => { f with nameIndex }) ∨
      (number = 3 ∧ ∃ returnType, update = fun f => { f with returnType }) ∨
      number = 100 ∧ ∃ signature, update = fun f => { f with signature } := by
  unfold schema at hrule
  split at hrule
  · cases hrule
    cases hmakes
    exact .inl ⟨rfl, _, rfl⟩
  · cases hrule
    cases hmakes with
    | message h =>
      obtain ⟨returnType, -, rfl⟩ := exists_of_map_eq_ok h
      exact .inr (.inl ⟨rfl, returnType, rfl⟩)
  · cases hrule
    cases hmakes with
    | message h =>
      obtain ⟨signature, -, rfl⟩ := exists_of_map_eq_ok h
      exact .inr (.inr ⟨rfl, some signature, rfl⟩)
  · cases hrule

theorem Function.schema_separate (table : StringTable) : (schema table).Separate := by
  intro number number' rule rule' update update' hne hrule hrule' hmakes hmakes' state
  rcases part_of_makes hrule hmakes with ⟨rfl, _, rfl⟩ | ⟨rfl, _, rfl⟩ | ⟨rfl, _, rfl⟩ <;>
    rcases part_of_makes hrule' hmakes' with ⟨rfl, _, rfl⟩ | ⟨rfl, _, rfl⟩ | ⟨rfl, _, rfl⟩ <;>
    first | rfl | exact absurd rfl hne

namespace Metadata

/-- Records, return types, signatures and functions are read alike from their fields in another order,
if the fields of each number keep theirs. -/
theorem read_reordered (table : StringTable) {message message' : List EncodedField}
    (h : Reordered message message') :
    ReadsAlike StringTable.readRecord (encodedBytes message) (encodedBytes message') ∧
    ReadsAlike (ReturnType.read table) (encodedBytes message) (encodedBytes message') ∧
    ReadsAlike Signature.read (encodedBytes message) (encodedBytes message') ∧
    ReadsAlike (Function.read table) (encodedBytes message) (encodedBytes message') := by
  refine ⟨?_, ?_, ?_, ?_⟩
  · exact StringTable.recordSchema_separate.readsAlike
      (StringTable.recordSchema_shape.placeless fun _ => rfl) (fun r => (bind_pure _).symm) h
  · exact ReturnType.schema_separate.readsAlike
      (ReturnType.schema_shape.placeless fun _ => rfl) (fun r => rfl) h
  · exact Signature.schema_separate.readsAlike
      (Signature.schema_shape.placeless fun _ => rfl) (fun r => (bind_pure _).symm) h
  · exact (Function.schema_separate table).readsAlike
      (Function.schema_placeless table) (fun r => rfl) h

/-- A function that is named twice, the second name counting, with its return type and its signature
behind the names and then in front of them. -/
theorem read_reordered_twice_named :
    let table : StringTable := ⟨[{ range := 2 }], [.text "f", .text "()V"]⟩
    let f : Function := ⟨1, { nullable := true }, some ⟨0, 1⟩, .text "f", some (.text "f()V")⟩
    ∃ message message', Reordered message message' ∧
      encodedBytes message =
        [0x10, 0, 0x10, 1, 0x1A, 2, 0x18, 1, 0xA2, 6, 4, 8, 0, 0x10, 1] ∧
      encodedBytes message' =
        [0xA2, 6, 4, 8, 0, 0x10, 1, 0x10, 0, 0x1A, 2, 0x18, 1, 0x10, 1] ∧
      Function.read table (.ofCursor ⟨0, encodedBytes message⟩) = .ok f ∧
      Function.read table (.ofCursor ⟨0, encodedBytes message'⟩) = .ok f := by
  intro table f
  let first : EncodedField := ⟨⟨2, .varint 0⟩, [0x10] ++ [0],
    .intro (by decide) (.varint (by decide) (by decide))⟩
  let second : EncodedField := ⟨⟨2, .varint 1⟩, [0x10] ++ [1],
    .intro (by decide) (.varint (by decide) (by decide))⟩
  let type : EncodedField := ⟨⟨3, .delimited [0x18, 1]⟩, [0x1A] ++ ([2] ++ [0x18, 1]),
    .intro (by decide) (.delimited (by decide))⟩
  let signature : EncodedField := ⟨⟨100, .delimited [8, 0, 0x10, 1]⟩,
    [0xA2, 6] ++ ([4] ++ [8, 0, 0x10, 1]), .intro (by decide) (.delimited (by decide))⟩
  have hreordered :
      Reordered [first, second, type, signature] [signature, first, type, second] := by
    constructor
    · exact (List.perm_append_singleton signature [first, second, type]).trans
        (.cons _ (.cons _ (.swap _ _ _)))
    · intro number
      by_cases hname : 2 = number
      · rw [← hname]
        rfl
      by_cases htype : 3 = number
      · rw [← htype]
        rfl
      by_cases hsignature : 100 = number
      · rw [← hsignature]
        rfl
      · simp [first, second, type, signature, hname, htype, hsignature]
  have hread : Function.read table (.ofCursor ⟨0, encodedBytes [first, second, type, signature]⟩) =
      .ok f := Wire.toOption_eq_some_iff.mp (by decide +kernel)
  exact ⟨_, _, hreordered, rfl, rfl, hread, ((read_reordered table hreordered).2.2.2 0 0 f).mp hread⟩

end Metadata

end KotlinNullability
