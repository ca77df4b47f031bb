import KotlinNullability.Proofs.Guarded.Session

/-!
# The family of a session in time

A session over one buffer starts from one cursor, and each slice adds a cursor to the family. All of
them stay inside the buffer, keep their ends and only go forward. A cursor goes on behind what it has
handed out, so its slices lie one behind the other inside of its own window. Operations that fail
leave their cursor where it is; only a varint that fails may have taken bytes, and no more than a
varint may have.
-/

namespace KotlinNullability.Wire

/-! ## Families at a time -/

section Sessions

variable {ε σ ο α : Type} (act : ο → EStateM ε σ (α ⊕ σ)) (family : List σ) (uses : List (Nat × ο))

/-- The family after the first `n` operations of a session. -/
def familyAt (n : Nat) : List σ :=
  (uses.take n).foldl (fun family use => (turn act family use).family) family

/-- The operation of number `n` of a session is `o`. It is done on the member of number `i`, which is
`before` then and `after` next, and it is told of by the reply. -/
structure Happens (n i : Nat) (o : ο) (before after : σ) (reply : Reply ε α) : Prop where
  use : uses[n]? = some (i, o)
  before : (familyAt act family uses n)[i]? = some before
  after : (familyAt act family uses (n + 1))[i]? = some after
  told : (session act uses family)[n]? = some ⟨reply, familyAt act family uses (n + 1)⟩

/-- The operation of number `n` of a session makes the member of number `i` hand out a new one. -/
def HandsOut (n i : Nat) (part : σ) : Prop :=
  ∃ o before after number, Happens act family uses n i o before after (.member number) ∧
    (familyAt act family uses (n + 1))[number]? = some part

variable {act family uses} {n i : Nat} {o : ο} {s : σ} {use : Nat × ο}

theorem familyAt_succ (huse : uses[n]? = some use) :
    familyAt act family uses (n + 1) = (turn act (familyAt act family uses n) use).family := by
  rw [familyAt, List.take_add_one, huse, Option.toList_some, List.foldl_append]
  rfl

theorem familyAt_succ_of_none (huse : uses[n]? = none) :
    familyAt act family uses (n + 1) = familyAt act family uses n := by
  rw [familyAt, List.take_add_one, huse, Option.toList_none, List.append_nil]
  rfl

/-- What a session tells at a time is told of the family at this time. -/
theorem getElem?_session (huse : uses[n]? = some use) :
    (session act uses family)[n]? = some (turn act (familyAt act family uses n) use) := by
  induction uses generalizing family n with
  | nil => cases huse
  | cons first uses ih =>
    cases n with
    | zero =>
      obtain rfl := Option.some.inj huse
      rfl
    | succ n => exact ih huse

/-- What holds of a family and is kept by every operation holds at all times. -/
theorem familyAt_induct {P : List σ → Prop} (hstart : P family)
    (hturn : ∀ family use, P family → P (turn act family use).family) (n : Nat) :
    P (familyAt act family uses n) := by
  induction n with
  | zero => exact hstart
  | succ n ih =>
    cases huse : uses[n]? with
    | none => rwa [familyAt_succ_of_none huse]
    | some use =>
      rw [familyAt_succ huse]
      exact hturn _ use ih

section Results

variable {after part : σ} {a : α} {e : ε}

theorem turn_of_value (hi : family[i]? = some s) (hact : act o s = .ok (.inl a) after) :
    turn act family (i, o) = ⟨.value a, family.set i after⟩ := by
  simp only [turn, hi, hact]

theorem turn_of_member (hi : family[i]? = some s) (hact : act o s = .ok (.inr part) after) :
    turn act family (i, o) = ⟨.member family.length, family.set i after ++ [part]⟩ := by
  simp only [turn, hi, hact]

theorem turn_of_error (hi : family[i]? = some s) (hact : act o s = .error e after) :
    turn act family (i, o) = ⟨.fault e, family.set i after⟩ := by
  simp only [turn, hi, hact]

end Results

/-- An operation leaves its member as the operation says. -/
theorem getElem?_turn_self (hi : family[i]? = some s) :
    (turn act family (i, o)).family[i]? = some (leaves (act o s)) := by
  obtain ⟨hlt, -⟩ := List.getElem?_eq_some_iff.mp hi
  rcases hact : act o s with ⟨a | part, after⟩ | ⟨e, after⟩
  · rw [turn_of_value hi hact]
    exact List.getElem?_set_self hlt
  · rw [turn_of_member hi hact, List.getElem?_append_left (by rwa [List.length_set])]
    exact List.getElem?_set_self hlt
  · rw [turn_of_error hi hact]
    exact List.getElem?_set_self hlt

/-- What holds of all members and of all that operations leave and hand out is kept. -/
theorem forall_mem_turn {P : σ → Prop} (hact : ∀ o s, P s → Keeps P (act o s))
    (hfamily : ∀ s ∈ family, P s) : ∀ s ∈ (turn act family use).family, P s := by
  -- A session is its own image under the identity, which leaves of `turn_map` what is kept.
  have hcarry (o : ο) (s : σ) (hs : P s) :
      act o (id s) = carry id (Sum.map id id) id (act o s) ∧ Keeps P (act o s) := by
    refine ⟨?_, hact o s hs⟩
    change act o s = _
    rcases act o s with ⟨a | part, after⟩ | ⟨e, after⟩ <;> rfl
  exact (turn_map hcarry hfamily use).2

/-- A relation between the states of a member that every operation keeps to holds between any two times,
if it is transitive. -/
theorem exists_getElem?_familyAt {R : σ → σ → Prop} (hrefl : ∀ s, R s s)
    (htrans : ∀ s t u, R s t → R t u → R s u) (hact : ∀ o s, R s (leaves (act o s))) {m : Nat}
    (hle : n ≤ m) (hn : (familyAt act family uses n)[i]? = some s) :
    ∃ t, (familyAt act family uses m)[i]? = some t ∧ R s t := by
  induction m, hle using Nat.le_induction with
  | base => exact ⟨s, hn, hrefl s⟩
  | succ m hle ih =>
    obtain ⟨t, ht, hst⟩ := ih
    cases huse : uses[m]? with
    | none => exact ⟨t, by rwa [familyAt_succ_of_none huse], hst⟩
    | some use =>
      obtain ⟨j, o⟩ := use
      rw [familyAt_succ huse]
      by_cases hj : j = i
      · subst hj
        exact ⟨_, getElem?_turn_self ht, htrans _ _ _ hst (hact o t)⟩
      · exact ⟨t, turn_other ht hj, hst⟩

/-- An operation on a member that is there happens, and is told of by what it gives. -/
theorem happens_of_getElem? (huse : uses[n]? = some (i, o))
    (hi : (familyAt act family uses n)[i]? = some s) :
    Happens act family uses n i o s (leaves (act o s))
      (turn act (familyAt act family uses n) (i, o)).reply := by
  refine ⟨huse, hi, ?_, ?_⟩
  · rw [familyAt_succ huse]
    exact getElem?_turn_self hi
  · rw [getElem?_session huse, familyAt_succ huse]

namespace Happens

variable {before after : σ} {reply : Reply ε α} {number : Nat} {e : ε}

theorem reply_eq (h : Happens act family uses n i o before after reply) :
    (turn act (familyAt act family uses n) (i, o)).reply = reply :=
  congrArg Moment.reply (Option.some.inj ((getElem?_session h.use).symm.trans h.told))

theorem after_eq (h : Happens act family uses n i o before after reply) :
    after = leaves (act o before) :=
  Option.some.inj (h.after.symm.trans (happens_of_getElem? h.use h.before).after)

/-- A new member is what the operation hands out, and joins the family at its end. -/
theorem of_member (h : Happens act family uses n i o before after (.member number)) :
    ∃ part, act o before = .ok (.inr part) after ∧ number = (familyAt act family uses n).length ∧
      (familyAt act family uses (n + 1))[number]? = some part := by
  have hreply := h.reply_eq
  have hafter := h.after_eq
  rcases hact : act o before with ⟨a | part, rest⟩ | ⟨e, rest⟩
  · rw [turn_of_value h.before hact] at hreply
    cases hreply
  · rw [turn_of_member h.before hact] at hreply
    obtain rfl := Reply.member.inj hreply
    obtain rfl : after = rest := by rw [hafter, hact, leaves_ok]
    refine ⟨part, rfl, rfl, ?_⟩
    rw [familyAt_succ h.use, turn_of_member h.before hact,
      List.getElem?_append_right (Nat.le_of_eq (List.length_set ..)), List.length_set, Nat.sub_self,
      List.getElem?_cons_zero]
  · rw [turn_of_error h.before hact] at hreply
    cases hreply

/-- A reported fault is the one that the operation fails with. -/
theorem of_fault (h : Happens act family uses n i o before after (.fault e)) :
    act o before = .error e after := by
  have hreply := h.reply_eq
  have hafter := h.after_eq
  rcases hact : act o before with ⟨a | part, rest⟩ | ⟨e', rest⟩
  · rw [turn_of_value h.before hact] at hreply
    cases hreply
  · rw [turn_of_member h.before hact] at hreply
    cases hreply
  · rw [turn_of_error h.before hact] at hreply
    obtain rfl := Reply.fault.inj hreply
    rw [hafter, hact, leaves_error]

end Happens

end Sessions

/-! ## Operations on a cursor -/

/-- A read that takes no more than so many bytes when it fails. -/
def LosesAtMost {α : Type} (count : Nat) (m : Read Cursor α) : Prop :=
  ∀ c fault after, m c = .error fault after → after.position ≤ c.position + count

namespace LosesAtMost

variable {α β : Type}

theorem map {count : Nat} {m : Read Cursor α} (h : LosesAtMost count m) (g : α → β) :
    LosesAtMost count (m >>= fun a => Pure.pure (g a)) := by
  intro c fault after hrun
  change EStateM.bind m (fun a => EStateM.pure (g a)) c = _ at hrun
  unfold EStateM.bind at hrun
  cases hm : m c with
  | ok a mid =>
    rw [hm] at hrun
    cases hrun
  | error fault' mid =>
    rw [hm] at hrun
    cases hrun
    exact h c fault after hm

theorem readByte : LosesAtMost 0 Cursor.readByte := by
  intro c fault after hrun
  unfold Cursor.readByte at hrun
  split at hrun
  · cases hrun
    exact Nat.le_refl _
  · cases hrun

theorem readExact (count : Nat) : LosesAtMost 0 (Cursor.readExact count) := by
  intro c fault after hrun
  unfold Cursor.readExact at hrun
  split at hrun
  · cases hrun
    exact Nat.le_refl _
  · cases hrun

theorem slice (count : Nat) : LosesAtMost 0 (Cursor.slice count) := by
  intro c fault after hrun
  unfold Cursor.slice at hrun
  cases hexact : Cursor.readExact count c with
  | ok bytes rest =>
    rw [hexact] at hrun
    cases hrun
  | error fault' rest =>
    rw [hexact] at hrun
    cases hrun
    exact readExact count c fault after hexact

/-- A varint that is too long has taken as many bytes as a varint may have; one that is not finished
has taken fewer. -/
theorem readVarint (width : Width) (endAllowed : Bool) :
    LosesAtMost width.cap (Cursor.readVarint width.bits endAllowed) := by
  intro c fault after hrun
  unfold Cursor.readVarint at hrun
  rw [Width.capOf_bits, Varint.scan_eq] at hrun
  split at hrun
  · cases hrun
  · split at hrun
    · cases hrun
    · next hscan =>
      cases hrun
      have hshort : c.unread.length < width.cap := by
        split at hscan
        · cases hscan
        · split at hscan
          · assumption
          · cases hscan
      exact Nat.add_le_add_left (Nat.le_of_lt hshort) _
    · cases hrun
      exact Nat.le_refl _

end LosesAtMost

namespace CursorOp

/-- The most bytes that an operation takes when it fails. -/
def loss : CursorOp → Nat
  | varint width _ => width.cap
  | _ => 0

theorem forward (o : CursorOp) : Forward o.act := by
  cases o with
  | byte => exact .bind .readByte fun _ => .pure _
  | varint width endAllowed => exact .bind (.readVarint width.bits endAllowed) fun _ => .pure _
  | fixed width => exact .bind (.readFixed width.size) fun _ => .pure _
  | exact count => exact .bind (.readExact count) fun _ => .pure _
  | slice count => exact .bind (.slice count) fun _ => .pure _

theorem losesAtMost (o : CursorOp) : LosesAtMost o.loss o.act := by
  cases o with
  | byte => exact LosesAtMost.readByte.map _
  | varint width endAllowed => exact (LosesAtMost.readVarint width endAllowed).map _
  | fixed width => exact ((LosesAtMost.readExact width.size).map _).map _
  | exact count => exact (LosesAtMost.readExact count).map _
  | slice count => exact (LosesAtMost.slice count).map _

variable {o : CursorOp} {c part after : Cursor}

/-- Only a slice hands out a cursor, over the next so many bytes. -/
theorem slice_of_act (h : o.act c = .ok (.inr part) after) :
    ∃ count, o = .slice count ∧ count ≤ c.unread.length ∧
      part = ⟨c.position, c.unread.take count⟩ ∧ after.position = c.position + count := by
  cases o with
  | byte | varint | fixed | exact =>
    obtain ⟨_, -, hvalue⟩ := map_eq_ok_iff.mp h
    cases hvalue
  | slice count =>
    obtain ⟨_, hslice, hvalue⟩ := map_eq_ok_iff.mp h
    cases hvalue
    unfold Cursor.slice Cursor.readExact Cursor.available at hslice
    by_cases hshort : c.unread.length < count
    · rw [if_pos hshort] at hslice
      cases hslice
    · rw [if_neg hshort] at hslice
      cases hslice
      exact ⟨count, rfl, Nat.le_of_not_lt hshort, rfl, rfl⟩

end CursorOp

/-- A cursor that was moved forward by no byte is where it was. -/
theorem Cursor.Follows.eq_of_position_le {after before : Cursor} (h : after.Follows before)
    (hle : after.position ≤ before.position) : after = before := by
  obtain ⟨used, hunread, hposition⟩ := h
  obtain rfl : used = [] := List.length_eq_zero_iff.mp (by omega)
  obtain ⟨position, unread⟩ := before
  obtain ⟨position', unread'⟩ := after
  obtain rfl : unread = unread' := hunread
  obtain rfl : position' = position := hposition
  rfl

theorem Cursor.Follows.position_le {after before : Cursor} (h : after.Follows before) :
    before.position ≤ after.position := by
  obtain ⟨used, -, hposition⟩ := h
  omega

end KotlinNullability.Wire

namespace KotlinNullability.Guarded

open Wire (Cursor CursorOp Datum Fault HandsOut Happens Reply familyAt session)

/-- What holds at all times of the cursors of a session that starts from one cursor over a buffer. -/
structure InOrder (data : List UInt8) (c : Cursor) (uses : List (Nat × CursorOp)) : Prop where
  /-- A cursor lies inside of the buffer and holds its bytes from the position to the end. -/
  inside (n : Nat) : ∀ d ∈ familyAt CursorOp.act [c] uses n, d.position ≤ d.stop ∧
    d.stop ≤ data.length ∧ d.unread = (data.drop d.position).take (d.stop - d.position)
  /-- The end of a cursor never changes, and its position never decreases. -/
  forward {n m i : Nat} {d : Cursor} (hle : n ≤ m)
    (hd : (familyAt CursorOp.act [c] uses n)[i]? = some d) :
    ∃ d', (familyAt CursorOp.act [c] uses m)[i]? = some d' ∧ d'.stop = d.stop ∧
      d.position ≤ d'.position
  /-- An operation on a cursor that is there happens. -/
  happens {n i : Nat} {o : CursorOp} {d : Cursor} (huse : uses[n]? = some (i, o))
    (hd : (familyAt CursorOp.act [c] uses n)[i]? = some d) :
    ∃ after reply, Happens CursorOp.act [c] uses n i o d after reply
  /-- What a cursor hands out is a slice of the bytes that it moves past. -/
  slice {n i number : Nat} {o : CursorOp} {before after : Cursor}
    (h : Happens CursorOp.act [c] uses n i o before after (.member number)) :
    ∃ count part, o = .slice count ∧ number = (familyAt CursorOp.act [c] uses n).length ∧
      (familyAt CursorOp.act [c] uses (n + 1))[number]? = some part ∧
      part.position = before.position ∧ part.stop = after.position ∧
      after.position = before.position + count
  /-- A slice lies inside of the window that its cursor had at any time before. -/
  within {n m i : Nat} {part parent : Cursor} (h : HandsOut CursorOp.act [c] uses n i part)
    (hle : m ≤ n) (hparent : (familyAt CursorOp.act [c] uses m)[i]? = some parent) :
    parent.position ≤ part.position ∧ part.stop ≤ parent.stop
  /-- Of two slices of one cursor the later one lies behind the earlier one. -/
  apart {n m i : Nat} {first second : Cursor} (hlt : n < m)
    (hfirst : HandsOut CursorOp.act [c] uses n i first)
    (hsecond : HandsOut CursorOp.act [c] uses m i second) : first.stop ≤ second.position
  /-- An operation that fails leaves its cursor where it is, except that a varint may have taken as many
  bytes as a varint may have, if there were so many. -/
  fault {n i : Nat} {o : CursorOp} {before after : Cursor} {e : Fault}
    (h : Happens CursorOp.act [c] uses n i o before after (.fault e)) :
    match o with
    | .varint width _ =>
      after.position ≤ before.position + width.cap ∧ after.position ≤ before.stop
    | _ => after = before

variable {data : List UInt8}

/-- An operation keeps a cursor over a window of the buffer at such a window, and hands out cursors over
such windows only. -/
theorem keeps_shows (o : CursorOp) {c : Cursor} (h : Shows data (windowOf c) c) :
    Wire.Keeps (fun d => Shows data (windowOf d) d) (o.act c) := by
  refine ⟨h.of_follows (o.forward c), fun part after hact => ?_⟩
  obtain ⟨count, -, -, rfl, -⟩ := CursorOp.slice_of_act hact
  exact h.part (List.take_append_drop count c.unread).symm

section InOrder

variable {c : Cursor} {uses : List (Nat × CursorOp)} {n m i : Nat} {o : CursorOp}

/-- Every cursor of the family is shown by its window of the buffer. -/
theorem shows_familyAt (h : Shows data (windowOf c) c) (n : Nat) :
    ∀ d ∈ familyAt CursorOp.act [c] uses n, Shows data (windowOf d) d :=
  Wire.familyAt_induct (P := fun family => ∀ d ∈ family, Shows data (windowOf d) d)
    (by simpa using h) (fun _ _ hfamily => Wire.forall_mem_turn (fun o _ => keeps_shows o) hfamily) n

/-- Later on, a cursor is one that follows it. -/
theorem exists_follows (hle : n ≤ m) {d : Cursor}
    (hd : (familyAt CursorOp.act [c] uses n)[i]? = some d) :
    ∃ d', (familyAt CursorOp.act [c] uses m)[i]? = some d' ∧ d'.Follows d :=
  Wire.exists_getElem?_familyAt (R := fun d d' => d'.Follows d) Cursor.Follows.refl
    (fun _ _ _ h h' => h'.trans h) (fun o d => o.forward d) hle hd

/-- A slice begins where its cursor is and ends where the cursor goes on. -/
theorem exists_of_handsOut {part : Cursor} (h : HandsOut CursorOp.act [c] uses n i part) :
    ∃ before after, (familyAt CursorOp.act [c] uses n)[i]? = some before ∧
      (familyAt CursorOp.act [c] uses (n + 1))[i]? = some after ∧ after.Follows before ∧
      part.position = before.position ∧ part.stop = after.position := by
  obtain ⟨o, before, after, number, hhappens, hpart⟩ := h
  obtain ⟨part', hact, -, hmember⟩ := hhappens.of_member
  obtain rfl : part = part' := Option.some.inj (hpart.symm.trans hmember)
  have hfollows := o.forward before
  rw [hact] at hfollows
  obtain ⟨count, -, hcount, rfl, hafter⟩ := CursorOp.slice_of_act hact
  refine ⟨before, after, hhappens.before, hhappens.after, hfollows, rfl, ?_⟩
  rw [hafter, Cursor.stop, List.length_take_of_le hcount]

/-- The cursors of a session over a buffer are in order. -/
theorem inOrder_of_shows (hshows : Shows data (windowOf c) c) (uses : List (Nat × CursorOp)) :
    InOrder data c uses where
  inside n d hd := by
    have hd' := shows_familyAt hshows n d hd
    exact ⟨Nat.le_add_right .., hd'.stop_le, hd'.bytes.symm⟩
  forward hle hd := by
    obtain ⟨d', hd', hfollows⟩ := exists_follows hle hd
    exact ⟨d', hd', hfollows.stop_eq, hfollows.position_le⟩
  happens huse hd := ⟨_, _, Wire.happens_of_getElem? huse hd⟩
  slice h := by
    obtain ⟨part, hact, hnumber, hmember⟩ := h.of_member
    obtain ⟨count, ho, hcount, rfl, hafter⟩ := CursorOp.slice_of_act hact
    refine ⟨count, _, ho, hnumber, hmember, rfl, ?_, hafter⟩
    rw [hafter, Cursor.stop, List.length_take_of_le hcount]
  within h hle hparent := by
    obtain ⟨before, after, hbefore, -, hfollows, hposition, hstop⟩ := exists_of_handsOut h
    obtain ⟨before', hbefore', hsince⟩ := exists_follows hle hparent
    obtain rfl := Option.some.inj (hbefore'.symm.trans hbefore)
    have hwhole := hfollows.trans hsince
    rw [hposition, hstop, ← hwhole.stop_eq]
    exact ⟨hsince.position_le, Nat.le_add_right ..⟩
  apart hlt hfirst hsecond := by
    obtain ⟨_, after, -, hafter, -, -, hstop⟩ := exists_of_handsOut hfirst
    obtain ⟨before, _, hbefore, -, -, hposition, -⟩ := exists_of_handsOut hsecond
    obtain ⟨before', hbefore', hsince⟩ := exists_follows hlt hafter
    obtain rfl := Option.some.inj (hbefore'.symm.trans hbefore)
    rw [hstop, hposition]
    exact hsince.position_le
  fault {n i o before after e} h := by
    have herror := h.of_fault
    have hfollows := o.forward before
    have hloss := o.losesAtMost before e after herror
    rw [herror] at hfollows
    cases o with
    | varint width endAllowed =>
      refine ⟨hloss, ?_⟩
      rw [← hfollows.stop_eq]
      exact Nat.le_add_right ..
    | byte | fixed | exact | slice => exact hfollows.eq_of_position_le hloss

end InOrder

/-- The cursors of a session over any window of any buffer are in order, whatever is done on them and
whether it succeeds or fails. A session by index in the buffer is told alike, with the position and
the end of each cursor for its window, so it takes no byte from outside of a window. -/
theorem session_in_order {start stop : Int} {c : Cursor}
    (hwindow : Cursor.window data start stop = .ok c) (uses : List (Nat × CursorOp)) :
    InOrder data c uses ∧
      session (cursorOp data) uses [⟨start.toNat, stop.toNat⟩] =
        (session CursorOp.act uses [c]).map (.map .raised windowOf) := by
  have hbounds : 0 ≤ start ∧ start ≤ stop ∧ stop ≤ data.length := by
    unfold Cursor.window at hwindow
    split at hwindow
    · assumption
    · cases hwindow
  obtain ⟨first, rfl⟩ := Int.eq_ofNat_of_zero_le hbounds.1
  obtain ⟨last, rfl⟩ := Int.eq_ofNat_of_zero_le (Int.le_trans hbounds.1 hbounds.2.1)
  have horder : first ≤ last := by omega
  have hinside : last ≤ data.length := by omega
  obtain ⟨hcursor, hshows⟩ := shows_window horder hinside
  obtain rfl : c = _ := Except.ok.inj (hwindow.symm.trans hcursor)
  have hindex := hshows.eq
  rw [hindex] at hshows
  refine ⟨inOrder_of_shows hshows uses, ?_⟩
  rw [Int.toNat_natCast, Int.toNat_natCast, hindex]
  exact session_eq Matches.cursorOp (fun _ _ => Shows.eq) uses
    (List.forall_mem_singleton.mpr hshows)

/-- A window of five bytes is cut into two slices. The first one refuses six bytes and keeps its place; a
slice of it ends in the middle of a varint, which takes its one byte and fails. -/
theorem session_in_order_nested :
    let data : List UInt8 := [9, 2, 0x80, 0x01, 7, 8]
    let c : Cursor := ⟨1, [2, 0x80, 0x01, 7, 8]⟩
    let uses : List (Nat × CursorOp) := [(0, .slice 3), (1, .exact 6), (1, .slice 2), (0, .slice 2),
      (2, .byte), (2, .varint .short false)]
    Cursor.window data 1 6 = .ok c ∧ InOrder data c uses ∧
      HandsOut CursorOp.act [c] uses 0 0 ⟨1, [2, 0x80, 0x01]⟩ ∧
      HandsOut CursorOp.act [c] uses 2 1 ⟨1, [2, 0x80]⟩ ∧
      HandsOut CursorOp.act [c] uses 3 0 ⟨4, [7, 8]⟩ ∧
      Happens CursorOp.act [c] uses 1 1 (.exact 6) ⟨1, [2, 0x80, 0x01]⟩ ⟨1, [2, 0x80, 0x01]⟩
        (.fault (.endOfInput (.span 3 6))) ∧
      Happens CursorOp.act [c] uses 5 2 (.varint .short false) ⟨2, [0x80]⟩ ⟨3, []⟩
        (.fault (.endOfInput .oneByte)) := by
  intro data c uses
  have hwindow : Cursor.window data 1 6 = .ok c := rfl
  have houter : Happens CursorOp.act [c] uses 0 0 (.slice 3) c ⟨4, [7, 8]⟩ (.member 1) :=
    ⟨rfl, rfl, rfl, rfl⟩
  have hinner : Happens CursorOp.act [c] uses 2 1 (.slice 2) ⟨1, [2, 0x80, 0x01]⟩ ⟨3, [0x01]⟩
      (.member 2) := ⟨rfl, rfl, rfl, rfl⟩
  have hnext : Happens CursorOp.act [c] uses 3 0 (.slice 2) ⟨4, [7, 8]⟩ ⟨6, []⟩ (.member 3) :=
    ⟨rfl, rfl, rfl, rfl⟩
  exact ⟨hwindow, (session_in_order hwindow uses).1, ⟨_, _, _, _, houter, by decide⟩,
    ⟨_, _, _, _, hinner, by decide⟩, ⟨_, _, _, _, hnext, by decide⟩, ⟨rfl, rfl, by decide, by decide⟩,
    ⟨rfl, rfl, by decide, by decide⟩⟩

end KotlinNullability.Guarded
