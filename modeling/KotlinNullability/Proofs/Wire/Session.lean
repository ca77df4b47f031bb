import KotlinNullability.Proofs.Wire.IntegerKinds

/-!
# Sessions

A session uses a family of cursors, or of readers, one operation after another. An operation is done
on one member of the family; what it hands out, a slice or a reader of a nested message, joins the
family at its end. `session` lists what is told of every operation and the family after it.

An operation on one member leaves the others as they are. And no read asks where it stands in the
buffer, so a session that starts at another position goes the same way, with all positions moved.
-/

namespace KotlinNullability.Wire

/-! ## Families and their use -/

/-- What is told of an operation. -/
inductive Reply (ε α : Type) where
  /-- It gives a value. -/
  | value (a : α)
  /-- It hands out a new member of this number. -/
  | member (number : Nat)
  /-- It fails. -/
  | fault (e : ε)
  /-- There is no member to do it on. -/
  | absent
  deriving DecidableEq, Repr

/-- A reply that reports its faults in another way. -/
def Reply.mapFault {ε ε' α : Type} (report : ε → ε') : Reply ε α → Reply ε' α
  | value a => .value a
  | member number => .member number
  | fault e => .fault (report e)
  | absent => .absent

/-- What is told of an operation, and the family after it. -/
structure Moment (ε σ α : Type) where
  reply : Reply ε α
  family : List σ
  deriving DecidableEq, Repr

/-- A moment of a family whose members stand for those of another. -/
def Moment.map {ε ε' σ τ α : Type} (report : ε → ε') (state : σ → τ) (m : Moment ε σ α) :
    Moment ε' τ α :=
  ⟨m.reply.mapFault report, m.family.map state⟩

section Sessions

variable {ε σ ο α : Type} (act : ο → EStateM ε σ (α ⊕ σ))

/-- Do an operation on the member of a number. -/
def turn (family : List σ) (use : Nat × ο) : Moment ε σ α :=
  match family[use.1]? with
  | none => ⟨.absent, family⟩
  | some s =>
    match act use.2 s with
    | .ok (.inl a) after => ⟨.value a, family.set use.1 after⟩
    | .ok (.inr part) after => ⟨.member family.length, family.set use.1 after ++ [part]⟩
    | .error e after => ⟨.fault e, family.set use.1 after⟩

/-- Do operations one after another. -/
def session : List (Nat × ο) → List σ → List (Moment ε σ α)
  | [], _ => []
  | use :: uses, family => turn act family use :: session uses (turn act family use).family

variable {act}

/-- Only the member that an operation is done on can change. -/
theorem turn_other {family : List σ} {use : Nat × ο} {i : Nat} {s : σ} (hi : family[i]? = some s)
    (hne : use.1 ≠ i) : (turn act family use).family[i]? = some s := by
  have hset (after : σ) : (family.set use.1 after)[i]? = some s := by
    rw [List.getElem?_set_ne hne, hi]
  have hlt (after : σ) : i < (family.set use.1 after).length := by
    rw [List.length_set]
    exact (List.getElem?_eq_some_iff.mp hi).1
  unfold turn
  cases family[use.1]? with
  | none => exact hi
  | some t =>
    dsimp only
    split
    · exact hset _
    · rw [List.getElem?_append_left (hlt _), hset]
    · exact hset _

/-- A member that no operation of a session is done on stays as it is. -/
theorem session_other {i : Nat} {s : σ} {uses : List (Nat × ο)} (hne : ∀ use ∈ uses, use.1 ≠ i)
    {family : List σ} (hi : family[i]? = some s) :
    ∀ m ∈ session act uses family, m.family[i]? = some s := by
  induction uses generalizing family with
  | nil => simp [session]
  | cons use uses ih =>
    obtain ⟨huse, hrest⟩ := List.forall_mem_cons.mp hne
    have hturn : (turn act family use).family[i]? = some s := turn_other hi huse
    exact List.forall_mem_cons.mpr ⟨hturn, ih hrest hturn⟩

/-- A new member is handed out by an operation that succeeds, and joins the family at its end. -/
theorem exists_of_turn_member {family : List σ} {i number : Nat} {o : ο}
    (h : (turn act family (i, o)).reply = .member number) :
    ∃ s part after, act o s = .ok (.inr part) after ∧
      (turn act family (i, o)).family[i]? = some after ∧
      (turn act family (i, o)).family[number]? = some part := by
  cases hs : family[i]? with
  | none =>
    rw [turn, hs] at h
    cases h
  | some s =>
    obtain ⟨hi, -⟩ := List.getElem?_eq_some_iff.mp hs
    cases hrun : act o s with
    | ok handed after =>
      cases handed with
      | inl a =>
        simp only [turn, hs, hrun] at h
        cases h
      | inr part =>
        simp only [turn, hs, hrun, Reply.member.injEq] at h
        refine ⟨s, part, after, hrun, ?_, ?_⟩
        · simp only [turn, hs, hrun]
          rw [List.getElem?_append_left (by rwa [List.length_set]), List.getElem?_set_self hi]
        · simp only [turn, hs, hrun, ← h]
          rw [List.getElem?_append_right (Nat.le_of_eq (List.length_set ..)), List.length_set,
            Nat.sub_self, List.getElem?_cons_zero]
    | error e after =>
      simp only [turn, hs, hrun] at h
      cases h

/-- What the operation hands out ends where the member that it is done on goes on, and nothing that is
done on other members, what was handed out included, moves this member. -/
def Detaches (act : ο → EStateM ε σ (α ⊕ σ)) (cursor : σ → Cursor) (o : ο) : Prop :=
  ∀ family i number, (turn act family (i, o)).reply = .member number →
    ∃ part outer, (turn act family (i, o)).family[number]? = some part ∧
      (turn act family (i, o)).family[i]? = some outer ∧
      (cursor outer).position = (cursor part).stop ∧
      ∀ uses, (∀ use ∈ uses, use.1 ≠ i) →
        ∀ m ∈ session act uses (turn act family (i, o)).family, m.family[i]? = some outer

/-- What an operation hands out is detached, if it is a read that goes on at the end of its result. -/
theorem detaches {cursor : σ → Cursor} {o : ο} {m : EStateM ε σ σ}
    (hact : act o = do return .inr (← m))
    (h : ∀ s part after, m s = .ok part after → (cursor after).position = (cursor part).stop) :
    Detaches act cursor o := by
  intro family i number hreply
  obtain ⟨s, part, outer, hrun, houter, hpart⟩ := exists_of_turn_member hreply
  rw [hact] at hrun
  obtain ⟨_, hread, hsame⟩ := map_eq_ok_iff.mp hrun
  cases hsame
  exact ⟨part, outer, hpart, houter, h s part outer hread, fun uses hne => session_other hne houter⟩

end Sessions

/-! ## Sessions that stand for each other -/

section Carried

variable {ε ε' σ τ ο α β : Type}

/-- A result whose faults, value and state stand for those of another. -/
def carry (report : ε → ε') (value : α → β) (state : σ → τ) :
    EStateM.Result ε σ α → EStateM.Result ε' τ β
  | .ok a s => .ok (value a) (state s)
  | .error e s => .error (report e) (state s)

/-- All that a result leaves and hands out has the property. -/
def Keeps (P : σ → Prop) (r : EStateM.Result ε σ (α ⊕ σ)) : Prop :=
  P (leaves r) ∧ ∀ part after, r = .ok (.inr part) after → P part

variable {act : ο → EStateM ε σ (α ⊕ σ)} {act' : ο → EStateM ε' τ (α ⊕ τ)} {report : ε → ε'}
  {state : σ → τ} {P : σ → Prop}

/-- If single operations stand for each other, so does what is told of them in a family. -/
theorem turn_map
    (hact : ∀ o s, P s → act' o (state s) = carry report (Sum.map id state) state (act o s) ∧
      Keeps P (act o s))
    {family : List σ} (hfamily : ∀ s ∈ family, P s) (use : Nat × ο) :
    turn act' (family.map state) use = (turn act family use).map report state ∧
      ∀ s ∈ (turn act family use).family, P s := by
  unfold turn
  rw [List.getElem?_map]
  cases hs : family[use.1]? with
  | none => exact ⟨rfl, hfamily⟩
  | some s =>
    obtain ⟨hcarry, hleaves, hpart⟩ := hact use.2 s (hfamily s (List.mem_of_getElem? hs))
    have hset {after : σ} (hafter : P after) : ∀ t ∈ family.set use.1 after, P t := by
      intro t ht
      rcases List.mem_or_eq_of_mem_set ht with hmem | rfl
      · exact hfamily t hmem
      · exact hafter
    simp only [Option.map_some, hcarry]
    cases hrun : act use.2 s with
    | ok handed after =>
      rw [hrun] at hleaves
      cases handed with
      | inl a => exact ⟨by simp [carry, Moment.map, Reply.mapFault, List.map_set], hset hleaves⟩
      | inr part =>
        refine ⟨by simp [carry, Moment.map, Reply.mapFault, List.map_set], fun t ht => ?_⟩
        rcases List.mem_append.mp ht with hmem | hmem
        · exact hset hleaves t hmem
        · rw [List.mem_singleton.mp hmem]
          exact hpart part after hrun
    | error e after =>
      rw [hrun] at hleaves
      exact ⟨by simp [carry, Moment.map, Reply.mapFault, List.map_set], hset hleaves⟩

/-- If single operations stand for each other, so do whole sessions. -/
theorem session_map
    (hact : ∀ o s, P s → act' o (state s) = carry report (Sum.map id state) state (act o s) ∧
      Keeps P (act o s))
    (uses : List (Nat × ο)) {family : List σ} (hfamily : ∀ s ∈ family, P s) :
    session act' uses (family.map state) = (session act uses family).map (.map report state) := by
  induction uses generalizing family with
  | nil => rfl
  | cons use uses ih =>
    obtain ⟨hturn, hnext⟩ := turn_map hact hfamily use
    rw [session, session, List.map_cons, hturn, ← ih hnext]
    rfl

end Carried

/-! ## Operations on cursors and readers -/

/-- The values that operations give. -/
inductive Datum where
  | nothing
  | byte (b : UInt8)
  | int (n : Int)
  | ints (ns : List Int)
  | bytes (bytes : List UInt8)
  | text (t : Text)
  | tag (tag : Option Tag)
  deriving DecidableEq, Repr

/-- The operations on a cursor. -/
inductive CursorOp where
  | byte
  | varint (width : Width) (endAllowed : Bool)
  | fixed (width : Width)
  | exact (count : Nat)
  | slice (count : Nat)
  deriving DecidableEq, Repr

/-- Do an operation on a cursor. -/
def CursorOp.act : CursorOp → Read Cursor (Datum ⊕ Cursor)
  | byte => return .inl (.byte (← Cursor.readByte))
  | varint width endAllowed => return .inl (.int (← Cursor.readVarint width.bits endAllowed))
  | fixed width => return .inl (.int (← Cursor.readFixed width.size))
  | exact count => return .inl (.bytes (← Cursor.readExact count))
  | slice count => return .inr (← Cursor.slice count)

/-- The operations on a reader. -/
inductive ReaderOp where
  | tag
  | skip (code : Option Int)
  | integer (width : Width) (kind : IntegerKind)
  | ints
  | bytes
  | text
  | enter
  | enterTagless
  deriving DecidableEq, Repr

/-- Do an operation on a reader. -/
def ReaderOp.act : ReaderOp → Read Reader (Datum ⊕ Reader)
  | tag => return .inl (.tag (← Reader.readTag))
  | skip code => do
    Reader.skipField code
    return .inl .nothing
  | integer width kind => return .inl (.int (← Reader.readInteger width kind))
  | ints => return .inl (.ints (← Reader.readInts))
  | bytes => return .inl (.bytes (← Reader.readBytes))
  | text => return .inl (.text (← Reader.readText))
  | enter => return .inr (← Reader.enter)
  | enterTagless => return .inr (← Reader.enterTagless)

/-- The cursor goes on at the end of a slice. -/
theorem Cursor.position_of_slice {count : Nat} {c part after : Cursor}
    (h : Cursor.slice count c = .ok part after) : after.position = part.stop := by
  unfold Cursor.slice Cursor.readExact Cursor.available at h
  by_cases hshort : c.unread.length < count
  · rw [if_pos hshort] at h
    cases h
  · rw [if_neg hshort] at h
    cases h
    rw [Cursor.stop, List.length_take_of_le (Nat.le_of_not_lt hshort)]

/-- A reader goes on at the end of the nested message that it enters. -/
theorem Reader.position_of_enterTagless {r part after : Reader}
    (h : Reader.enterTagless r = .ok part after) : after.cursor.position = part.cursor.stop := by
  obtain ⟨c, hcursor, rfl⟩ := map_eq_ok_iff.mp h
  unfold Reader.onCursor at hcursor
  cases hslice : Cursor.sliceDelimited r.cursor with
  | ok part rest =>
    rw [hslice] at hcursor
    cases hcursor
    obtain ⟨count, mid, -, hpart⟩ := bind_eq_ok_iff.mp hslice
    exact Cursor.position_of_slice hpart
  | error fault rest =>
    rw [hslice] at hcursor
    cases hcursor

theorem Reader.position_of_enter {r part after : Reader} (h : Reader.enter r = .ok part after) :
    after.cursor.position = part.cursor.stop := by
  obtain ⟨_, mid, -, hpart⟩ := bind_eq_ok_iff.mp h
  exact Reader.position_of_enterTagless hpart

/-- A slice is detached from its cursor. -/
theorem CursorOp.detaches_slice (count : Nat) : Detaches CursorOp.act id (.slice count) :=
  detaches rfl fun _ _ _ => Cursor.position_of_slice

/-- The reader of a nested message is detached from the reader that enters it. -/
theorem ReaderOp.detaches_enter : Detaches ReaderOp.act Reader.cursor .enter :=
  detaches rfl fun _ _ _ => Reader.position_of_enter

theorem ReaderOp.detaches_enterTagless : Detaches ReaderOp.act Reader.cursor .enterTagless :=
  detaches rfl fun _ _ _ => Reader.position_of_enterTagless

/-! ## Reads do not ask where they stand -/

/-- The cursor over the same bytes at a later position. -/
def Cursor.shift (distance : Nat) (c : Cursor) : Cursor := ⟨c.position + distance, c.unread⟩

/-- The reader over the same bytes at a later position. -/
def Reader.shift (distance : Nat) (r : Reader) : Reader := ⟨r.cursor.shift distance, r.current⟩

/-- From a state that is moved, the run does the same, and moves what it gives and what it leaves. -/
def Unplaced {ε σ α : Type} (value : α → α) (move : σ → σ) (m : EStateM ε σ α) : Prop :=
  ∀ s, m (move s) = carry id value move (m s)

namespace Unplaced

section Programs

variable {ε σ α β : Type} {move : σ → σ} {value : α → α} {m : EStateM ε σ α}

theorem pure {a : α} (h : value a = a) : Unplaced value move (Pure.pure a : EStateM ε σ α) :=
  fun s => show EStateM.Result.ok a (move s) = .ok (value a) (move s) by rw [h]

theorem throw (e : ε) : Unplaced value move (MonadExcept.throw e : EStateM ε σ α) := fun _ => rfl

theorem bind {value' : β → β} {f : α → EStateM ε σ β} (hm : Unplaced value move m)
    (hf : ∀ a s, f (value a) (move s) = carry id value' move (f a s)) :
    Unplaced value' move (m >>= f) := by
  intro s
  change EStateM.bind m f (move s) = carry id value' move (EStateM.bind m f s)
  rw [EStateM.bind, EStateM.bind, hm s]
  cases m s with
  | ok a after => exact hf a after
  | error e after => rfl

/-- A value that does not depend on the position can be used by any run of this kind. -/
theorem next {value' : β → β} {f : α → EStateM ε σ β} (hm : Unplaced id move m)
    (hf : ∀ a, Unplaced value' move (f a)) : Unplaced value' move (m >>= f) :=
  hm.bind hf

theorem map {value' : β → β} {g : α → β} (hm : Unplaced value move m)
    (hg : ∀ a, g (value a) = value' (g a)) :
    Unplaced value' move (m >>= fun a => Pure.pure (g a)) :=
  hm.bind fun a s => show EStateM.Result.ok (g (value a)) (move s) = _ by rw [hg]; rfl

end Programs

section Cursors

variable {distance : Nat}

theorem readByte : Unplaced id (Cursor.shift distance) Cursor.readByte := by
  rintro ⟨position, unread⟩
  cases unread with
  | nil => rfl
  | cons b unread =>
    simp only [Cursor.readByte, Cursor.shift, carry, id, Nat.add_right_comm]

theorem readExact (count : Nat) :
    Unplaced id (Cursor.shift distance) (Cursor.readExact count) := by
  rintro ⟨position, unread⟩
  unfold Cursor.readExact Cursor.available Cursor.shift
  dsimp only
  by_cases hshort : unread.length < count
  · rw [if_pos hshort, if_pos hshort]
    rfl
  · rw [if_neg hshort, if_neg hshort]
    simp only [carry, id, Nat.add_right_comm]

theorem slice (count : Nat) :
    Unplaced (Cursor.shift distance) (Cursor.shift distance) (Cursor.slice count) := by
  intro c
  have hexact : Cursor.readExact count (c.shift distance) = _ := readExact count c
  unfold Cursor.slice
  rw [hexact]
  cases Cursor.readExact count c <;> rfl

theorem readVarint (bits : Nat) (endAllowed : Bool) :
    Unplaced id (Cursor.shift distance) (Cursor.readVarint bits endAllowed) := by
  rintro ⟨position, unread⟩
  unfold Cursor.readVarint Cursor.shift
  dsimp only
  by_cases hend : (unread.isEmpty && endAllowed) = true
  · rw [if_pos hend, if_pos hend]
    rfl
  · rw [if_neg hend, if_neg hend]
    cases Varint.scan (Varint.capOf bits) unread <;>
      simp only [carry, id, Cursor.stop, Nat.add_right_comm]

theorem readFixed (count : Nat) : Unplaced id (Cursor.shift distance) (Cursor.readFixed count) :=
  (readExact count).map fun _ => rfl

theorem readInt32 (kind : IntegerKind) :
    Unplaced id (Cursor.shift distance) (Cursor.readInt32 kind) := by
  cases kind with
  | plain => exact (readVarint 64 false).map fun _ => rfl
  | zigzag => exact (readVarint 32 false).map fun _ => rfl
  | fixed => exact readFixed 4

theorem readInt64 (kind : IntegerKind) :
    Unplaced id (Cursor.shift distance) (Cursor.readInt64 kind) := by
  cases kind with
  | plain => exact readVarint 64 false
  | zigzag => exact (readVarint 64 false).map fun _ => rfl
  | fixed => exact readFixed 8

theorem readLength : Unplaced id (Cursor.shift distance) Cursor.readLength := by
  refine (readInt32 .plain).next fun length => ?_
  split
  · exact throw _
  · exact pure rfl

theorem readDelimited : Unplaced id (Cursor.shift distance) Cursor.readDelimited :=
  readLength.next readExact

theorem sliceDelimited :
    Unplaced (Cursor.shift distance) (Cursor.shift distance) Cursor.sliceDelimited :=
  readLength.next slice

theorem skip (wire : WireType) : Unplaced id (Cursor.shift distance) (Cursor.skip wire) := by
  cases wire with
  | varint => exact (readVarint 64 false).next fun _ => pure rfl
  | fixed64 => exact (readExact 8).next fun _ => pure rfl
  | delimited => exact readDelimited.next fun _ => pure rfl
  | fixed32 => exact (readExact 4).next fun _ => pure rfl

/-- Every operation on a cursor does the same elsewhere in the buffer. -/
theorem cursorOp (o : CursorOp) :
    Unplaced (Sum.map id (Cursor.shift distance)) (Cursor.shift distance) o.act := by
  cases o with
  | byte => exact readByte.map fun _ => rfl
  | varint width endAllowed => exact (readVarint width.bits endAllowed).map fun _ => rfl
  | fixed width => exact (readFixed width.size).map fun _ => rfl
  | exact count => exact (readExact count).map fun _ => rfl
  | slice count => exact (slice count).map fun _ => rfl

end Cursors

section Readers

variable {distance : Nat}

theorem onCursor {α : Type} {value : α → α} {m : Read Cursor α}
    (h : Unplaced value (Cursor.shift distance) m) :
    Unplaced value (Reader.shift distance) (Reader.onCursor m) := by
  intro r
  have hrun := h r.cursor
  unfold Reader.onCursor
  simp only [Reader.shift, hrun]
  cases m r.cursor <;> rfl

theorem expect (wire : WireType) : Unplaced id (Reader.shift distance) (Reader.expect wire) := by
  intro r
  have hcurrent : (r.shift distance).current = r.current := rfl
  unfold Reader.expect
  rw [hcurrent]
  by_cases hwire : r.current.map (·.wire) = some wire
  · rw [if_pos hwire, if_pos hwire]
    rfl
  · rw [if_neg hwire, if_neg hwire]
    rfl

theorem readTag : Unplaced id (Reader.shift distance) Reader.readTag := by
  intro r
  have hrun : Cursor.readVarint 64 true (r.cursor.shift distance) = _ := readVarint 64 true r.cursor
  unfold Reader.readTag
  simp only [Reader.shift, hrun]
  cases Cursor.readVarint 64 true r.cursor with
  | error fault c => rfl
  | ok header c =>
    simp only [carry, id]
    split
    · rfl
    · cases Tag.ofHeader _ <;> rfl

theorem skipField (code : Option Int) :
    Unplaced id (Reader.shift distance) (Reader.skipField code) := by
  intro r
  unfold Reader.skipField
  simp only [Reader.shift]
  split
  · exact onCursor (skip _) r
  · rfl

theorem readInteger (width : Width) (kind : IntegerKind) :
    Unplaced id (Reader.shift distance) (Reader.readInteger width kind) := by
  cases width with
  | short => exact (expect _).next fun _ => onCursor (readInt32 kind)
  | long => exact (expect _).next fun _ => onCursor (readInt64 kind)

theorem enterTagless :
    Unplaced (Reader.shift distance) (Reader.shift distance) Reader.enterTagless :=
  (onCursor sliceDelimited).map fun _ => rfl

theorem enter : Unplaced (Reader.shift distance) (Reader.shift distance) Reader.enter :=
  (expect _).next fun _ => enterTagless

theorem readBytes : Unplaced id (Reader.shift distance) Reader.readBytes :=
  (expect _).next fun _ => onCursor readDelimited

theorem readText : Unplaced id (Reader.shift distance) Reader.readText :=
  readBytes.map fun _ => rfl

/-- The integers of a packed run are the same elsewhere in the buffer. -/
theorem packedInts_shift (c : Cursor) : packedInts (c.shift distance) = packedInts c := by
  fun_induction Wire.packedInts c with
  | case1 c hnil => rw [Wire.packedInts, dif_pos (show (c.shift distance).unread = [] from hnil)]
  | case2 c hne fault rest hread =>
    have hrun : Cursor.readVarint 64 false (c.shift distance) = _ := readVarint 64 false c
    rw [hread] at hrun
    rw [Wire.packedInts, dif_neg (show ¬ (c.shift distance).unread = [] from hne)]
    split
    · next hshifted => cases hrun.symm.trans hshifted; rfl
    · next hshifted => cases hrun.symm.trans hshifted
  | case3 c hne n rest hread ih =>
    have hrun : Cursor.readVarint 64 false (c.shift distance) = _ := readVarint 64 false c
    rw [hread] at hrun
    rw [Wire.packedInts, dif_neg (show ¬ (c.shift distance).unread = [] from hne)]
    split
    · next hshifted => cases hrun.symm.trans hshifted
    · next hshifted =>
      cases hrun.symm.trans hshifted
      rw [← ih]
      rfl

theorem readInts : Unplaced id (Reader.shift distance) Reader.readInts := by
  intro r
  have hcurrent : (r.shift distance).current = r.current := rfl
  unfold Reader.readInts
  rw [hcurrent]
  split
  · have hsingle : Unplaced id (Reader.shift distance)
        (Reader.readInt .plain >>= fun n => Pure.pure [n]) :=
      (readInteger .short .plain).map fun _ => rfl
    exact hsingle r
  · rw [enter r]
    cases Reader.enter r with
    | error fault after => rfl
    | ok run after =>
      have hrun : packedInts (run.shift distance).cursor = packedInts run.cursor :=
        packedInts_shift run.cursor
      simp only [carry, hrun]
      cases packedInts run.cursor <;> rfl

/-- Every operation on a reader does the same elsewhere in the buffer. -/
theorem readerOp (o : ReaderOp) :
    Unplaced (Sum.map id (Reader.shift distance)) (Reader.shift distance) o.act := by
  cases o with
  | tag => exact readTag.map fun _ => rfl
  | skip code => exact (skipField code).next fun _ => pure rfl
  | integer width kind => exact (readInteger width kind).map fun _ => rfl
  | ints => exact readInts.map fun _ => rfl
  | bytes => exact readBytes.map fun _ => rfl
  | text => exact readText.map fun _ => rfl
  | enter => exact enter.map fun _ => rfl
  | enterTagless => exact enterTagless.map fun _ => rfl

end Readers

end Unplaced

/-- A session that starts at a later position is told alike, with all positions moved. -/
theorem session_move {ε σ ο α : Type} {act : ο → EStateM ε σ (α ⊕ σ)} {move : σ → σ}
    (hact : ∀ o, Unplaced (Sum.map id move) move (act o)) (uses : List (Nat × ο))
    (family : List σ) :
    session act uses (family.map move) = (session act uses family).map (.map id move) :=
  session_map (P := fun _ => True) (fun o s _ => ⟨hact o s, trivial, fun _ _ _ => trivial⟩) uses
    fun _ _ => trivial

end KotlinNullability.Wire
