import KotlinNullability.Proofs.Guarded.Message
import KotlinNullability.Proofs.Wire.Session

/-!
# Sessions over a window

A session on guarded reads keeps all its windows in one buffer and takes the bytes from it by index.
It never traps, and tells what a session on cursors tells. Together with the fact that no read asks
where it stands, a session over a window of a buffer is the session over a copy of the bytes of the
window, with all positions moved by its start. So what lies outside the window does not matter.
-/

namespace KotlinNullability.Guarded

open Wire (Cursor CursorOp Datum Detaches Fault IntegerKind Moment ReaderOp Tag Width WireType
  session)

variable (data : List UInt8)

/-! ## The other guarded reads -/

/-- Read so many little-endian bytes as a two's complement number. -/
def readFixed (count : Nat) : Run Int := do
  let bytes ← readExact data count
  pure (Wire.signed (8 * count) (Wire.littleEndian bytes))

/-- Read an integer of a width. -/
def readInteger : Width → IntegerKind → Run Int
  | .short, .plain => readInt32 data
  | .long, .plain => readVarint data 64 false
  | .short, .zigzag => return Wire.unzigzag ((← readVarint data 32 false) % 0x100000000).toNat
  | .long, .zigzag =>
    return Wire.unzigzag ((← readVarint data 64 false) % 0x10000000000000000).toNat
  | .short, .fixed => readFixed data 4
  | .long, .fixed => readFixed data 8

/-- Read the current field as an integer of a width. -/
def Reader.readInteger (width : Width) (kind : IntegerKind) : EStateM (Halt Fault) Reader Int := do
  expect (kind.wire width)
  onWindow (Guarded.readInteger data width kind)

/-- The wire type of a value to skip: that of the current field, or a given one. -/
def wireOf (current : Option Tag) : (code : Option Int) → Option WireType
  | none => current.map (·.wire)
  | some n => if 0 ≤ n then WireType.ofCode? n.toNat else none

/-- Move past the value of the current field, or past a value of a given wire type. -/
def Reader.skipValue (code : Option Int) : EStateM (Halt Fault) Reader Unit := fun r =>
  match wireOf r.current code with
  | some wire => onWindow (skip data wire) r
  | none =>
    .error (.raised (Numeral.worded code.toList .unwritable (.unsupportedWireType (.skip code)))) r

/-- Do an operation on a window. -/
def cursorOp : CursorOp → Run (Datum ⊕ Window)
  | .byte => return .inl (.byte (← readByte data))
  | .varint width endAllowed => return .inl (.int (← readVarint data width.bits endAllowed))
  | .fixed width => return .inl (.int (← readFixed data width.size))
  | .exact count => return .inl (.bytes (← readExact data count))
  | .slice count => return .inr (← slice data count)

/-- Do an operation on a guarded reader. -/
def readerOp : ReaderOp → EStateM (Halt Fault) Reader (Datum ⊕ Reader)
  | .tag => return .inl (.tag (← Reader.readTag data))
  | .skip code => do
    Reader.skipValue data code
    return .inl .nothing
  | .integer width kind => return .inl (.int (← Reader.readInteger data width kind))
  | .ints => return .inl (.ints (← Reader.readInts data))
  | .bytes => return .inl (.bytes (← Reader.readBytes data))
  | .text => return .inl (.text (← Reader.readText data))
  | .enter => return .inr (← Reader.enter data)
  | .enterTagless => return .inr (← Reader.enterTagless data)

/-! ## Agreement with cursors and readers -/

namespace Matches

variable {data}

theorem readFixed (count : Nat) :
    Matches id (Shows data) Eq (Guarded.readFixed data count) (Cursor.readFixed count) :=
  (readExact count).map fun bytes _ hbytes => by rw [hbytes]

theorem readVarintOf (width : Width) (endAllowed : Bool) :
    Matches id (Shows data) Eq (Guarded.readVarint data width.bits endAllowed)
      (Cursor.readVarint width.bits endAllowed) :=
  readVarint width.lt_bits endAllowed

theorem readInteger (width : Width) (kind : IntegerKind) :
    Matches id (Stands data) Eq (Reader.readInteger data width kind)
      (Wire.Reader.readInteger width kind) := by
  match width, kind with
  | .short, .plain => exact (expect _).bind fun _ _ _ => onWindow readInt32
  | .short, .zigzag =>
    exact (expect _).bind fun _ _ _ =>
      onWindow ((readVarintOf .short false).map fun n _ hn => by rw [hn])
  | .short, .fixed => exact (expect _).bind fun _ _ _ => onWindow (readFixed 4)
  | .long, .plain => exact (expect _).bind fun _ _ _ => onWindow (readVarintOf .long false)
  | .long, .zigzag =>
    exact (expect _).bind fun _ _ _ =>
      onWindow ((readVarintOf .long false).map fun n _ hn => by rw [hn])
  | .long, .fixed => exact (expect _).bind fun _ _ _ => onWindow (readFixed 8)

theorem skipValue (code : Option Int) :
    Matches id (Stands data) Eq (Reader.skipValue data code) (Wire.Reader.skipField code) := by
  intro r s hstands
  have hskip : Wire.Reader.skipField code s =
      match wireOf s.current code with
      | some wire => Wire.Reader.onCursor (Cursor.skip wire) s
      | none =>
        .error (Numeral.worded code.toList .unwritable (.unsupportedWireType (.skip code))) s := rfl
  rw [hskip, Reader.skipValue, hstands.current]
  cases wireOf s.current code with
  | some wire => exact (skip wire).onWindow r s hstands
  | none => exact .raised (Numeral.worded ..) hstands

theorem cursorOp (o : CursorOp) :
    Matches id (Shows data) (Sum.LiftRel Eq (Shows data)) (Guarded.cursorOp data o) o.act := by
  cases o with
  | byte => exact readByte.map fun _ _ h => .inl (congrArg Datum.byte h)
  | varint width endAllowed =>
    exact (readVarintOf width endAllowed).map fun _ _ h => .inl (congrArg Datum.int h)
  | fixed width => exact (readFixed width.size).map fun _ _ h => .inl (congrArg Datum.int h)
  | exact count => exact (readExact count).map fun _ _ h => .inl (congrArg Datum.bytes h)
  | slice count => exact (slice count).map fun _ _ h => .inr h

theorem readerOp (o : ReaderOp) :
    Matches id (Stands data) (Sum.LiftRel Eq (Stands data)) (Guarded.readerOp data o) o.act := by
  cases o with
  | tag => exact readTag.map fun _ _ h => .inl (congrArg Datum.tag h)
  | skip code => exact (skipValue code).bind fun _ _ _ => .pure (.inl rfl)
  | integer width kind => exact (readInteger width kind).map fun _ _ h => .inl (congrArg Datum.int h)
  | ints => exact readInts.map fun _ _ h => .inl (congrArg Datum.ints h)
  | bytes => exact readBytes.map fun _ _ h => .inl (congrArg Datum.bytes h)
  | text => exact readText.map fun _ _ h => .inl (congrArg Datum.text h)
  | enter => exact enter.map fun _ _ h => .inr h
  | enterTagless => exact enterTagless.map fun _ _ h => .inr h

end Matches

/-! ## Guarded sessions -/

/-- Sessions of operations that agree are told alike, if the states of the one side are determined by
those of the other. -/
theorem session_eq {ε σ τ ο α : Type} {stands : τ → σ → Prop} {state : σ → τ}
    {g : ο → EStateM (Halt ε) τ (α ⊕ τ)} {act : ο → EStateM ε σ (α ⊕ σ)}
    (hmatches : ∀ o, Matches id stands (Sum.LiftRel Eq stands) (g o) (act o))
    (hstate : ∀ t s, stands t s → t = state s) (uses : List (Nat × ο)) {family : List σ}
    (hfamily : ∀ s ∈ family, stands (state s) s) :
    session g uses (family.map state) = (session act uses family).map (.map .raised state) := by
  refine Wire.session_map (P := fun s => stands (state s) s) (fun o s hs => ?_) uses hfamily
  have hrun := hmatches o (state s) s hs
  cases hact : act o s with
  | ok handed after =>
    rw [hact] at hrun
    obtain ⟨handed', t, hg, hvalue, ht⟩ := hrun.of_ok
    obtain rfl := hstate t after ht
    cases hvalue with
    | inl h =>
      obtain rfl := h
      exact ⟨hg, ht, fun part rest hpart => by cases hpart⟩
    | inr hpart =>
      obtain rfl := hstate _ _ hpart
      exact ⟨hg, ht, fun part rest heq => by cases heq; exact hpart⟩
  | error fault after =>
    rw [hact] at hrun
    obtain ⟨_, t, hg, rfl, ht⟩ := hrun.of_error
    obtain rfl := hstate t after ht
    exact ⟨hg, ht, fun part rest hpart => by cases hpart⟩

/-- A session that starts from a moved copy is told as from the copy itself, with all positions moved,
and so is a guarded one. -/
theorem session_copy {ε σ τ ο α : Type} {stands : τ → σ → Prop} {state : σ → τ} {move : σ → σ}
    {g : ο → EStateM (Halt ε) τ (α ⊕ τ)} {act : ο → EStateM ε σ (α ⊕ σ)}
    (hmatches : ∀ o, Matches id stands (Sum.LiftRel Eq stands) (g o) (act o))
    (hstate : ∀ t s, stands t s → t = state s)
    (hmove : ∀ o, Wire.Unplaced (Sum.map id move) move (act o)) {copy : σ}
    (hcopy : stands (state (move copy)) (move copy)) (uses : List (Nat × ο)) :
    session act uses [move copy] = (session act uses [copy]).map (.map id move) ∧
      session g uses [state (move copy)] =
        (session act uses [copy]).map (.map .raised (state ∘ move)) := by
  have hmoved := Wire.session_move hmove uses [copy]
  have hstands : ∀ s ∈ [move copy], stands (state s) s := by simpa using hcopy
  have hguarded := session_eq hmatches hstate uses hstands
  rw [List.map_singleton] at hmoved hguarded
  refine ⟨hmoved, ?_⟩
  rw [hguarded, hmoved, List.map_map]
  refine List.map_congr_left fun m _ => ?_
  obtain ⟨reply, family⟩ := m
  cases reply <;> simp [Moment.map, Wire.Reply.mapFault]

/-- The window of a cursor. -/
def windowOf (c : Cursor) : Window := ⟨c.position, c.stop⟩

/-- The guarded reader over the window of a reader. -/
def readerOf (r : Wire.Reader) : Reader := ⟨windowOf r.cursor, r.current⟩

section Windows

variable {data}

theorem Stands.eq {r : Reader} {s : Wire.Reader} (h : Stands data r s) : r = readerOf s := by
  obtain ⟨window, current⟩ := r
  obtain ⟨hshows, rfl⟩ := h
  exact congrArg (Reader.mk · _) hshows.eq

/-- A cursor over a window inside the buffer holds the bytes of the window, and the window shows it. -/
theorem shows_window {start stop : Nat} (hle : start ≤ stop) (hstop : stop ≤ data.length) :
    Cursor.window data start stop = .ok ⟨start, (data.drop start).take (stop - start)⟩ ∧
      Shows data ⟨start, stop⟩ ⟨start, (data.drop start).take (stop - start)⟩ := by
  have hlength : ((data.drop start).take (stop - start)).length = stop - start := by
    rw [List.length_take, List.length_drop]
    omega
  have hcount : ((stop : Int) - start).toNat = stop - start := by omega
  refine ⟨?_, data.take start, (data.drop start).drop (stop - start), ?_, ?_, ?_⟩
  · rw [Cursor.window, if_pos (by omega), hcount, Int.toNat_natCast]
  · rw [List.take_append_drop, List.take_append_drop]
  · rw [List.length_take_of_le (by omega)]
  · rw [List.length_take_of_le (by omega), hlength, Nat.add_sub_cancel' hle]

/-- A cursor over a window of the buffer is shown by this window. -/
theorem shows_of_window {c : Cursor} (h : Cursor.window data c.position c.stop = .ok c) :
    Shows data (windowOf c) c := by
  have hbounds : c.position ≤ c.stop ∧ c.stop ≤ data.length := by
    unfold Cursor.window at h
    split at h
    · omega
    · cases h
  obtain ⟨hwindow, hshows⟩ := shows_window hbounds.1 hbounds.2
  rw [hwindow] at h
  rwa [Except.ok.inj h] at hshows

/-- What a cursor shows behind some of its bytes is a part of the buffer. -/
theorem Shows.of_follows {c after : Cursor} (h : Shows data (windowOf c) c) (hafter : after.Follows c) :
    Shows data (windowOf after) after := by
  obtain ⟨used, hunread, hposition⟩ := hafter
  have hshows := h.advance hunread
  rw [← hposition] at hshows
  rwa [hshows.eq] at hshows

/-- A nested message holds the bytes of the buffer from its length on, as many as the length says. -/
theorem entered {r sub after : Wire.Reader} (h : Shows data (windowOf r.cursor) r.cursor)
    (henter : Wire.Reader.enterTagless r = .ok sub after) :
    ∃ length body, Cursor.readLength r.cursor = .ok length body ∧
      after.cursor.position = body.position + length ∧
      sub = (Wire.Reader.ofBytes ((data.drop body.position).take length)).shift body.position ∧
      Stands data (readerOf sub) sub := by
  obtain ⟨part, hcursor, rfl⟩ := Wire.map_eq_ok_iff.mp henter
  unfold Wire.Reader.onCursor at hcursor
  cases hslice : Cursor.sliceDelimited r.cursor with
  | error fault rest =>
    rw [hslice] at hcursor
    cases hcursor
  | ok part' rest =>
    rw [hslice] at hcursor
    cases hcursor
    obtain ⟨length, body, hlength, hpart⟩ := Wire.bind_eq_ok_iff.mp hslice
    have hfollows := Wire.Forward.readLength r.cursor
    rw [hlength] at hfollows
    have hbody := h.of_follows hfollows
    unfold Cursor.slice Cursor.readExact Cursor.available at hpart
    by_cases hshort : body.unread.length < length
    · rw [if_pos hshort] at hpart
      cases hpart
    · rw [if_neg hshort] at hpart
      cases hpart
      have hlengthTake : (body.unread.take length).length = length :=
        List.length_take_of_le (Nat.le_of_not_lt hshort)
      have hshown : Shows data (windowOf ⟨body.position, body.unread.take length⟩)
          ⟨body.position, body.unread.take length⟩ :=
        hbody.part (List.take_append_drop length body.unread).symm
      have hbytes : (data.drop body.position).take length = body.unread.take length := by
        have hbytes := hshown.bytes
        rwa [hshown.available_eq, hlengthTake] at hbytes
      refine ⟨length, body, hlength, rfl, ?_, hshown, rfl⟩
      rw [hbytes]
      simp [Wire.Reader.shift, Wire.Reader.ofBytes, Wire.Reader.ofCursor, Cursor.shift,
        Cursor.ofBytes]

/-- A reader is entered only as a message with its length in front. -/
theorem enterTagless_of_enter {r sub after : Wire.Reader}
    (henter : Wire.Reader.enter r = .ok sub after) : Wire.Reader.enterTagless r = .ok sub after := by
  obtain ⟨_, mid, hexpect, hnext⟩ := Wire.bind_eq_ok_iff.mp henter
  unfold Wire.Reader.expect at hexpect
  split at hexpect
  · cases hexpect
    exact hnext
  · cases hexpect

end Windows

/-- Sessions are local to their window. A session over a window of a buffer, be it on a cursor or by
index in the buffer, is told as the session over a copy of the bytes of the window, with all positions
moved by its start; so is a session over a nested message. A slice and the reader of a nested message
are detached from where they come from, which goes on at their end. -/
theorem session_local (data : List UInt8) :
    (∀ start stop : Nat, start ≤ stop → stop ≤ data.length →
      ∃ c, Cursor.window data start stop = .ok c ∧ ∀ uses : List (Nat × CursorOp),
        session CursorOp.act uses [c] =
            (session CursorOp.act uses [.ofBytes ((data.drop start).take (stop - start))]).map
              (.map id (Cursor.shift start)) ∧
          session (cursorOp data) uses [⟨start, stop⟩] =
            (session CursorOp.act uses [.ofBytes ((data.drop start).take (stop - start))]).map
              (.map .raised (windowOf ∘ Cursor.shift start))) ∧
    (∀ r sub after : Wire.Reader,
      Cursor.window data r.cursor.position r.cursor.stop = .ok r.cursor →
      Wire.Reader.enter r = .ok sub after ∨ Wire.Reader.enterTagless r = .ok sub after →
      ∃ length body, Cursor.readLength r.cursor = .ok length body ∧
        after.cursor.position = body.position + length ∧ ∀ uses : List (Nat × ReaderOp),
          session ReaderOp.act uses [sub] =
              (session ReaderOp.act uses [.ofBytes ((data.drop body.position).take length)]).map
                (.map id (Wire.Reader.shift body.position)) ∧
            session (readerOp data) uses [readerOf sub] =
              (session ReaderOp.act uses [.ofBytes ((data.drop body.position).take length)]).map
                (.map .raised (readerOf ∘ Wire.Reader.shift body.position))) ∧
    (∀ count, Detaches CursorOp.act id (.slice count)) ∧
    Detaches ReaderOp.act Wire.Reader.cursor .enter ∧
    Detaches ReaderOp.act Wire.Reader.cursor .enterTagless := by
  refine ⟨fun start stop hle hstop => ?_, fun r sub after hwindow henter => ?_,
    CursorOp.detaches_slice, ReaderOp.detaches_enter, ReaderOp.detaches_enterTagless⟩
  · obtain ⟨hwindow, hshows⟩ := shows_window hle hstop
    let copy := Cursor.ofBytes ((data.drop start).take (stop - start))
    have hcopy : copy.shift start = ⟨start, (data.drop start).take (stop - start)⟩ := by
      simp [copy, Cursor.shift, Cursor.ofBytes]
    have hstart : windowOf (copy.shift start) = ⟨start, stop⟩ := by
      rw [hcopy]
      exact hshows.eq.symm
    rw [← hcopy] at hwindow hshows
    rw [← hstart] at hshows ⊢
    exact ⟨_, hwindow, session_copy Matches.cursorOp (fun _ _ => Shows.eq)
      (fun o => Wire.Unplaced.cursorOp o) hshows⟩
  · have htagless : Wire.Reader.enterTagless r = .ok sub after :=
      henter.elim enterTagless_of_enter id
    obtain ⟨length, body, hlength, hposition, rfl, hstands⟩ :=
      entered (shows_of_window hwindow) htagless
    exact ⟨length, body, hlength, hposition, session_copy Matches.readerOp (fun _ _ => Stands.eq)
      (fun o => Wire.Unplaced.readerOp o) hstands⟩

/-- The bytes 80 01 in the midst of a buffer are read as on their own, be it as a window or as the
message behind the length 2. -/
theorem session_local_nested :
    let data : List UInt8 := [9, 2, 0x80, 0x01, 7]
    let r := Wire.Reader.ofCursor ⟨1, [2, 0x80, 0x01, 7]⟩
    2 ≤ 4 ∧ 4 ≤ data.length ∧
      Cursor.window data r.cursor.position r.cursor.stop = .ok r.cursor ∧
      (∀ uses, session (cursorOp data) uses [⟨2, 4⟩] =
        (session CursorOp.act uses [.ofBytes [0x80, 0x01]]).map
          (.map .raised (windowOf ∘ Cursor.shift 2))) ∧
      ∃ sub after, Wire.Reader.enterTagless r = .ok sub after ∧
        ∀ uses, session (readerOp data) uses [readerOf sub] =
          (session ReaderOp.act uses [.ofBytes [0x80, 0x01]]).map
            (.map .raised (readerOf ∘ Wire.Reader.shift 2)) := by
  intro data r
  have hwindow : Cursor.window data r.cursor.position r.cursor.stop = .ok r.cursor := by decide
  have htwo : Wire.Varint.encode 2 = [2] := by
    rw [Wire.Varint.encode, if_pos (by decide)]
    rfl
  have hbody : ([0x80, 0x01] : List UInt8).length < 0x80000000 := by decide
  obtain ⟨sub, -, henter⟩ := Wire.Takes.enterTagless hbody 1 [7]
  obtain ⟨_, rfl, hlength⟩ :=
    Wire.Takes.length (show 2 < 0x80000000 by decide) 1 [0x80, 0x01, 7]
  simp only [List.length_cons, List.length_nil, Nat.zero_add, Nat.reduceAdd, htwo,
    List.cons_append, List.nil_append, id] at henter hlength
  have hlocal := session_local data
  obtain ⟨c, -, hslice⟩ := hlocal.1 2 4 (by decide) (by decide)
  obtain ⟨length, body, hread, -, hnested⟩ := hlocal.2.1 r sub _ hwindow (.inr henter)
  obtain ⟨rfl, rfl⟩ := EStateM.Result.ok.inj (hlength.symm.trans hread)
  exact ⟨by decide, by decide, hwindow, fun uses => (hslice uses).2, sub, _, henter,
    fun uses => (hnested uses).2⟩

end KotlinNullability.Guarded
