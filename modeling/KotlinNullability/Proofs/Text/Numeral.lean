import KotlinNullability.Text.Numeral
import Mathlib.Data.List.TakeWhile
import Mathlib.Data.Nat.Digits.Defs

/-!
# Numerals as they are written

`Spells` is the notation of whole numbers: white space at both ends, one sign or none, and decimal
digits of any script with single underscores between digits. Reading accepts exactly what is spelled
so with at most as many digits as are read, and gives the number that is spelled. The notation that
is written spells its number in as few digits as the number needs, so it is read back. A number can be
written if it needs at most so many digits.
-/

namespace KotlinNullability

/-! ## Pieces and ends of texts -/

namespace Text

variable {separator c : CodePoint} {t piece : Text} {pieces : List Text}

theorem splitOn_cons_self (separator : CodePoint) (t : Text) :
    splitOn separator (separator :: t) = [] :: splitOn separator t := by
  rw [splitOn, if_pos rfl]

theorem splitOn_cons_of_ne (h : c ≠ separator) (hsplit : splitOn separator t = piece :: pieces) :
    splitOn separator (c :: t) = (c :: piece) :: pieces := by
  rw [splitOn, if_neg h, hsplit]

theorem exists_splitOn (separator : CodePoint) (t : Text) :
    ∃ piece pieces, splitOn separator t = piece :: pieces :=
  List.exists_cons_of_ne_nil (splitOn_ne_nil separator t)

/-- There is one more piece than there are separators. -/
theorem length_splitOn (separator : CodePoint) (t : Text) :
    (splitOn separator t).length = t.count separator + 1 := by
  induction t with
  | nil => rfl
  | cons c t ih =>
    by_cases hc : c = separator
    · rw [hc, splitOn_cons_self, List.length_cons, ih, List.count_cons_self]
    · obtain ⟨piece, pieces, hsplit⟩ := exists_splitOn separator t
      rw [splitOn_cons_of_ne hc hsplit, List.count_cons_of_ne hc, ← ih, hsplit, List.length_cons,
        List.length_cons]

/-- A text without the separator is a piece of its own. -/
theorem splitOn_append_cons (h : separator ∉ piece) (rest : Text) :
    splitOn separator (piece ++ separator :: rest) = piece :: splitOn separator rest := by
  induction piece with
  | nil => exact splitOn_cons_self separator rest
  | cons c piece ih =>
    have hc : c ≠ separator := fun hc => h (hc ▸ List.mem_cons_self)
    exact splitOn_cons_of_ne hc (ih fun hpiece => h (List.mem_cons_of_mem c hpiece))

theorem splitOn_eq_singleton (h : separator ∉ t) : splitOn separator t = [t] := by
  induction t with
  | nil => rfl
  | cons c t ih =>
    have hc : c ≠ separator := fun hc => h (hc ▸ List.mem_cons_self)
    exact splitOn_cons_of_ne hc (ih fun ht => h (List.mem_cons_of_mem c ht))

/-- White space only. -/
def Blank (t : Text) : Prop := ∀ c ∈ t, c.isWhiteSpace = true

/-- Trimming takes white space from both ends. -/
theorem exists_eq_append_trim (t : Text) :
    ∃ before after, Blank before ∧ Blank after ∧ t = before ++ (t.trim ++ after) := by
  let rest := t.dropWhile CodePoint.isWhiteSpace
  refine ⟨t.takeWhile CodePoint.isWhiteSpace, (rest.reverse.takeWhile CodePoint.isWhiteSpace).reverse,
    fun c hc => List.mem_takeWhile_imp hc,
    fun c hc => List.mem_takeWhile_imp (List.mem_reverse.mp hc), ?_⟩
  have hrest : rest = t.trim ++ (rest.reverse.takeWhile CodePoint.isWhiteSpace).reverse := by
    rw [trim, ← List.reverse_append, List.takeWhile_append_dropWhile, List.reverse_reverse]
  rw [← hrest, List.takeWhile_append_dropWhile]

/-- Trimming takes the white space around a text that neither starts nor ends with it. -/
theorem trim_eq {before after core : Text} (hbefore : Blank before) (hafter : Blank after)
    {first last : CodePoint} {tail init : Text} (hfirst : core = first :: tail)
    (hlast : core = init ++ [last]) (hfirstBlank : first.isWhiteSpace = false)
    (hlastBlank : last.isWhiteSpace = false) : trim (before ++ (core ++ after)) = core := by
  have hafter' : ∀ c ∈ after.reverse, c.isWhiteSpace = true :=
    fun c hc => hafter c (List.mem_reverse.mp hc)
  have hfront : (core ++ after).dropWhile CodePoint.isWhiteSpace = core ++ after := by
    rw [hfirst, List.cons_append]
    exact List.dropWhile_cons_of_neg (by simp [hfirstBlank])
  have hback : core.reverse.dropWhile CodePoint.isWhiteSpace = core.reverse := by
    rw [hlast, List.reverse_append, List.reverse_singleton, List.singleton_append]
    exact List.dropWhile_cons_of_neg (by simp [hlastBlank])
  rw [trim, List.dropWhile_append_of_pos hbefore, hfront, List.reverse_append,
    List.dropWhile_append_of_pos hafter', hback, List.reverse_reverse]

end Text

/-! ## Digits -/

/-- No digit is white space. -/
theorem CodePoint.isWhiteSpace_of_digit? {c : CodePoint} {d : Nat} (h : c.digit? = some d) :
    c.isWhiteSpace = false := by
  have hapart : ∀ start ∈ zeros, ∀ range ∈ whiteSpaceRanges,
      start + 9 < range.1 ∨ range.2 < start := by decide
  obtain ⟨start, hfind, -⟩ := Option.map_eq_some_iff.mp h
  have hstart := List.find?_some hfind
  simp only [decide_eq_true_eq] at hstart
  rw [isWhiteSpace, List.any_eq_false]
  intro range hrange
  have := hapart start (List.mem_of_find?_eq_some hfind) range hrange
  simp only [decide_eq_true_eq]
  omega

namespace Numeral

/-- Digits with single underscores between digits, and what the digits count. -/
inductive Unsigned : Text → List Nat → Prop
  | last {c : CodePoint} {d : Nat} (hdigit : c.digit? = some d) : Unsigned [c] [d]
  | next {c : CodePoint} {d : Nat} {t : Text} {digits : List Nat} (hdigit : c.digit? = some d)
      (hrest : Unsigned t digits) : Unsigned (c :: t) (d :: digits)
  | underscore {c : CodePoint} {d : Nat} {t : Text} {digits : List Nat}
      (hdigit : c.digit? = some d) (hrest : Unsigned t digits) :
      Unsigned (c :: CodePoint.ofChar '_' :: t) (d :: digits)

/-- The signs of numerals. -/
inductive Sign where
  | absent
  | plus
  | minus
  deriving DecidableEq, Repr

/-- How a sign is written. -/
def Sign.text : Sign → Text
  | absent => []
  | plus => ['+']
  | minus => ['-']

/-- What a sign makes of a number. -/
def Sign.apply : Sign → Nat → Int
  | minus, n => -n
  | _, n => n

/-- The text is a numeral of so many digits for a whole number: a sign and digits, with white space
around. The first digit counts most. -/
inductive Spells : Text → Nat → Int → Prop
  | intro {before after t : Text} {digits : List Nat} (sign : Sign) (hbefore : before.Blank)
      (hafter : after.Blank) (hdigits : Unsigned t digits) :
      Spells (before ++ (sign.text ++ t ++ after)) digits.length
        (sign.apply (Nat.ofDigits 10 digits.reverse))

/-- The text is a numeral of no more digits than are read. -/
def Accepts (t : Text) (n : Int) : Prop := ∃ count, count ≤ digitLimit ∧ Spells t count n

variable {c : CodePoint} {d n : Nat} {t : Text} {digits : List Nat}

theorem ne_of_digit? {c' : CodePoint} (h : c.digit? = some d) (hnone : c'.digit? = none) : c ≠ c' := by
  rintro rfl
  rw [hnone] at h
  cases h

namespace Unsigned

theorem exists_cons (h : Unsigned t digits) :
    ∃ c d tail, t = c :: tail ∧ c.digit? = some d := by
  cases h with
  | last hdigit | next hdigit | underscore hdigit => exact ⟨_, _, _, rfl, hdigit⟩

theorem exists_append (h : Unsigned t digits) :
    ∃ init c d, t = init ++ [c] ∧ c.digit? = some d := by
  induction h with
  | @last c d hdigit => exact ⟨[], c, d, rfl, hdigit⟩
  | @next c _ _ _ _ _ ih =>
    obtain ⟨init, c', d', rfl, hlast⟩ := ih
    exact ⟨c :: init, c', d', rfl, hlast⟩
  | @underscore c _ _ _ _ _ ih =>
    obtain ⟨init, c', d', rfl, hlast⟩ := ih
    exact ⟨c :: '_' :: init, c', d', rfl, hlast⟩

/-- There is nothing but digits and underscores. -/
theorem isPart_of_mem (h : Unsigned t digits) : ∀ c ∈ t, isPart c = true := by
  have hpart {c : CodePoint} {d : Nat} (hdigit : c.digit? = some d) : isPart c = true := by
    simp [isPart, hdigit]
  induction h with
  | last hdigit => exact List.forall_mem_singleton.mpr (hpart hdigit)
  | next hdigit _ ih => exact List.forall_mem_cons.mpr ⟨hpart hdigit, ih⟩
  | underscore hdigit _ ih =>
    exact List.forall_mem_cons.mpr ⟨hpart hdigit, List.forall_mem_cons.mpr ⟨by decide, ih⟩⟩

/-- A digit can be put behind. -/
theorem append (h : Unsigned t digits) (hdigit : c.digit? = some d) :
    Unsigned (t ++ [c]) (digits ++ [d]) := by
  induction h with
  | last hfirst => exact .next hfirst (.last hdigit)
  | next hfirst _ ih => exact .next hfirst ih
  | underscore hfirst _ ih => exact .underscore hfirst ih

theorem lt_of_mem (h : Unsigned t digits) : ∀ d ∈ digits, d < 10 := by
  induction h with
  | last hdigit => exact List.forall_mem_singleton.mpr (CodePoint.digit?_lt hdigit)
  | next hdigit _ ih | underscore hdigit _ ih =>
    exact List.forall_mem_cons.mpr ⟨CodePoint.digit?_lt hdigit, ih⟩

end Unsigned

/-! ## Reading digits -/

/-- Taking the digits from the first one on gives the number in which the last one counts least. -/
theorem valueOf_eq_ofDigits (digits : List Nat) :
    valueOf digits = Nat.ofDigits 10 digits.reverse := by
  rw [valueOf, Nat.ofDigits_eq_foldr, List.foldr_reverse]
  simp only [Nat.cast_id, Nat.add_comm]

theorem groupDigits?_cons (hdigit : c.digit? = some d) (piece : Text) :
    groupDigits? (c :: piece) = (piece.mapM CodePoint.digit?).map (d :: ·) := by
  rw [groupDigits?, List.isEmpty_cons, if_neg Bool.false_ne_true, List.mapM_cons, hdigit]
  cases piece.mapM CodePoint.digit? <;> rfl

theorem digits?_singleton (hdigit : c.digit? = some d) : digits? [c] = some [d] := by
  have hc : c ≠ '_' := ne_of_digit? hdigit (by decide)
  rw [digits?, Text.splitOn_cons_of_ne hc rfl, List.mapM_cons, groupDigits?_cons hdigit]
  rfl

theorem digits?_underscore (hdigit : c.digit? = some d) (t : Text) :
    digits? (c :: '_' :: t) = (digits? t).map (d :: ·) := by
  have hc : c ≠ '_' := ne_of_digit? hdigit (by decide)
  rw [digits?, Text.splitOn_cons_of_ne hc (Text.splitOn_cons_self '_' t), List.mapM_cons,
    groupDigits?_cons hdigit, digits?]
  cases (Text.splitOn '_' t).mapM groupDigits? <;> rfl

theorem digits?_cons (hdigit : c.digit? = some d) {c' : CodePoint} (hc' : c' ≠ '_') (t : Text) :
    digits? (c :: c' :: t) = (digits? (c' :: t)).map (d :: ·) := by
  have hc : c ≠ '_' := ne_of_digit? hdigit (by decide)
  obtain ⟨piece, pieces, hsplit⟩ := Text.exists_splitOn '_' t
  have hnext := Text.splitOn_cons_of_ne hc' hsplit
  have hgroup : groupDigits? (c' :: piece) = (c' :: piece).mapM CodePoint.digit? := rfl
  rw [digits?, Text.splitOn_cons_of_ne hc hnext, digits?, hnext, List.mapM_cons, List.mapM_cons,
    groupDigits?_cons hdigit, hgroup]
  cases (c' :: piece).mapM CodePoint.digit? with
  | none => rfl
  | some group => cases pieces.mapM groupDigits? <;> rfl

/-- What does not start with a digit is no numeral. -/
theorem digits?_of_digit?_none (hnone : c.digit? = none) (t : Text) : digits? (c :: t) = none := by
  by_cases hc : c = '_'
  · rw [hc, digits?, Text.splitOn_cons_self, List.mapM_cons]
    rfl
  · obtain ⟨piece, pieces, hsplit⟩ := Text.exists_splitOn '_' t
    have hgroup : groupDigits? (c :: piece) = none := by
      rw [groupDigits?, List.isEmpty_cons, if_neg Bool.false_ne_true, List.mapM_cons, hnone]
      rfl
    rw [digits?, Text.splitOn_cons_of_ne hc hsplit, List.mapM_cons, hgroup]
    rfl

theorem unsigned_of_digits? : ∀ {t : Text} {digits : List Nat}, digits? t = some digits →
    Unsigned t digits
  | [], digits, h => by cases h
  | c :: t, digits, h => by
    cases hdigit : c.digit? with
    | none =>
      rw [digits?_of_digit?_none hdigit] at h
      cases h
    | some d =>
      match t with
      | [] =>
        rw [digits?_singleton hdigit] at h
        obtain rfl := Option.some.inj h
        exact .last hdigit
      | c' :: t =>
        by_cases hc' : c' = '_'
        · rw [hc', digits?_underscore hdigit] at h
          obtain ⟨rest, hrest, rfl⟩ := Option.map_eq_some_iff.mp h
          exact hc' ▸ .underscore hdigit (unsigned_of_digits? hrest)
        · rw [digits?_cons hdigit hc'] at h
          obtain ⟨rest, hrest, rfl⟩ := Option.map_eq_some_iff.mp h
          exact .next hdigit (unsigned_of_digits? hrest)

theorem digits?_eq_some_iff : digits? t = some digits ↔ Unsigned t digits := by
  refine ⟨unsigned_of_digits?, fun h => ?_⟩
  induction h with
  | last hdigit => exact digits?_singleton hdigit
  | next hdigit hrest ih =>
    obtain ⟨c', d', tail, rfl, hdigit'⟩ := hrest.exists_cons
    rw [digits?_cons hdigit (ne_of_digit? hdigit' (by decide)), ih]
    rfl
  | underscore hdigit hrest ih =>
    rw [digits?_underscore hdigit, ih]
    rfl

theorem readNat_eq_ok_iff : readNat t = .ok n ↔
    ∃ digits, Unsigned t digits ∧ digits.length ≤ digitLimit ∧
      Nat.ofDigits 10 digits.reverse = n := by
  simp only [← valueOf_eq_ofDigits]
  constructor
  · intro h
    unfold readNat at h
    dsimp only at h
    cases hdigits : digits? (t.takeWhile isPart) with
    | none =>
      rw [hdigits] at h
      cases h
    | some digits =>
      rw [hdigits] at h
      dsimp only at h
      split at h
      · cases h
      · next hlimit =>
        split at h
        · next hlength =>
          have hwhole : t.takeWhile isPart = t :=
            (List.takeWhile_prefix isPart).eq_of_length hlength
          rw [hwhole] at hdigits
          exact ⟨digits, digits?_eq_some_iff.mp hdigits, Nat.le_of_not_lt hlimit, Except.ok.inj h⟩
        · cases h
  · rintro ⟨digits, hdigits, hlimit, rfl⟩
    have hwhole : t.takeWhile isPart = t := List.takeWhile_eq_self_iff.mpr hdigits.isPart_of_mem
    unfold readNat
    dsimp only
    rw [hwhole, digits?_eq_some_iff.mpr hdigits]
    dsimp only
    rw [if_neg (Nat.not_lt.mpr hlimit), if_pos rfl]

/-! ## Reading numerals -/

/-- A signed numeral neither starts nor ends with white space, so trimming finds it. -/
theorem trim_spelled {before after : Text} (sign : Sign) (hbefore : before.Blank)
    (hafter : after.Blank) (h : Unsigned t digits) :
    Text.trim (before ++ (sign.text ++ t ++ after)) = sign.text ++ t := by
  obtain ⟨first, d, tail, hfirst, hdigit⟩ := h.exists_cons
  obtain ⟨init, last, d', hlast, hdigit'⟩ := h.exists_append
  have hend : sign.text ++ t = (sign.text ++ init) ++ [last] := by rw [hlast, List.append_assoc]
  have hlastBlank := CodePoint.isWhiteSpace_of_digit? hdigit'
  cases sign with
  | absent =>
    exact Text.trim_eq hbefore hafter hfirst hend (CodePoint.isWhiteSpace_of_digit? hdigit) hlastBlank
  | plus => exact Text.trim_eq hbefore hafter rfl hend (by decide) hlastBlank
  | minus => exact Text.trim_eq hbefore hafter rfl hend (by decide) hlastBlank

/-- The text starts with a code point that is no sign. -/
def StartsBare (t : Text) : Prop :=
  ∃ first tail, t = first :: tail ∧ first ≠ CodePoint.ofChar '-' ∧ first ≠ CodePoint.ofChar '+'

theorem Unsigned.startsBare (h : Unsigned t digits) : StartsBare t := by
  obtain ⟨first, d, tail, hfirst, hdigit⟩ := h.exists_cons
  exact ⟨first, tail, hfirst, ne_of_digit? hdigit (by decide), ne_of_digit? hdigit (by decide)⟩

/-- Reading takes the sign off a trimmed text, and makes of the number what the sign says. Without a sign
the text must not start with one. -/
theorem read_eq_map {text : Text} (sign : Sign) (htrim : text.trim = sign.text ++ t)
    (hbare : sign = .absent → StartsBare t) : read text = (readNat t).map sign.apply := by
  rw [read, htrim]
  cases sign with
  | absent =>
    obtain ⟨first, tail, rfl, hminus, hplus⟩ := hbare rfl
    change (if first = '-' then _ else if first = '+' then _ else _) = _
    rw [if_neg hminus, if_neg hplus]
    rfl
  | plus =>
    change (if CodePoint.ofChar '+' = '-' then _ else if _ then (readNat t).map Int.ofNat else _) = _
    rw [if_neg (by decide), if_pos rfl]
    rfl
  | minus =>
    change (if _ then (do return (← readNat t : Int)).map fun n => -n else _) = _
    rw [if_pos rfl]
    cases readNat t <;> rfl

/-- A text that starts with a sign has this one, and any other has none. -/
theorem exists_sign {text : Text} (hne : text ≠ []) :
    ∃ sign t, text = Sign.text sign ++ t ∧ (sign = .absent → StartsBare t) := by
  obtain ⟨first, tail, rfl⟩ := List.exists_cons_of_ne_nil hne
  by_cases hminus : first = '-'
  · exact ⟨.minus, tail, by rw [hminus]; rfl, nofun⟩
  · by_cases hplus : first = '+'
    · exact ⟨.plus, tail, by rw [hplus]; rfl, nofun⟩
    · exact ⟨.absent, first :: tail, rfl, fun _ => ⟨first, tail, rfl, hminus, hplus⟩⟩

/-- Exactly the numerals that are not too long are read, each as the number that it is for. -/
theorem read_eq_ok_iff {text : Text} {n : Int} : read text = .ok n ↔ Accepts text n := by
  constructor
  · intro h
    have hne : text.trim ≠ [] := by
      intro hnil
      rw [read, hnil] at h
      cases h
    obtain ⟨sign, t, htrim, hbare⟩ := exists_sign hne
    rw [read_eq_map sign htrim hbare] at h
    cases hnat : readNat t with
    | error e =>
      rw [hnat] at h
      cases h
    | ok m =>
      rw [hnat] at h
      obtain rfl : sign.apply m = n := Except.ok.inj h
      obtain ⟨digits, hdigits, hlimit, rfl⟩ := readNat_eq_ok_iff.mp hnat
      obtain ⟨before, after, hbefore, hafter, htext⟩ := text.exists_eq_append_trim
      rw [htrim] at htext
      exact ⟨digits.length, hlimit, htext ▸ .intro sign hbefore hafter hdigits⟩
  · rintro ⟨count, hlimit, ⟨sign, hbefore, hafter, hdigits⟩⟩
    have htrim := trim_spelled sign hbefore hafter hdigits
    rw [read_eq_map sign htrim fun _ => hdigits.startsBare,
      readNat_eq_ok_iff.mpr ⟨_, hdigits, hlimit, rfl⟩]
    rfl

/-- A code point that is no white space, sign, digit or underscore is in no numeral. -/
theorem Spells.not_mem {count : Nat} {text : Text} {n : Int} (h : Spells text count n)
    (hblank : c.isWhiteSpace = false) (hpart : isPart c = false) (hplus : c ≠ '+')
    (hminus : c ≠ '-') : c ∉ text := by
  obtain ⟨sign, hbefore, hafter, hdigits⟩ := h
  have hsign : c ∉ sign.text := by cases sign <;> simp [Sign.text, hplus, hminus]
  simp only [List.mem_append, not_or]
  refine ⟨fun hmem => ?_, ⟨hsign, fun hmem => ?_⟩, fun hmem => ?_⟩
  · exact Bool.eq_false_iff.mp hblank (hbefore c hmem)
  · exact Bool.eq_false_iff.mp hpart (hdigits.isPart_of_mem c hmem)
  · exact Bool.eq_false_iff.mp hblank (hafter c hmem)

/-- Digits stand for a number below ten to their number. -/
theorem valueOf_lt {digits : List Nat} (h : ∀ d ∈ digits, d < 10) :
    valueOf digits < 10 ^ digits.length := by
  rw [valueOf_eq_ofDigits, ← List.length_reverse]
  exact Nat.ofDigits_lt_base_pow_length (by decide) fun d hd => h d (List.mem_reverse.mp hd)

/-- A numeral for a number of so many digits, at most, is below ten to their number. -/
theorem Spells.natAbs_lt {count : Nat} {text : Text} {n : Int} (h : Spells text count n) :
    n.natAbs < 10 ^ count := by
  obtain ⟨sign, -, -, hdigits⟩ := h
  have hvalue := valueOf_lt hdigits.lt_of_mem
  rw [valueOf_eq_ofDigits] at hvalue
  cases sign with
  | absent | plus => exact hvalue
  | minus => rwa [Sign.apply, Int.natAbs_neg]

/-- A number that is read is short enough to be written. -/
theorem Accepts.natAbs_lt {text : Text} {n : Int} (h : Accepts text n) :
    n.natAbs < 10 ^ digitLimit := by
  obtain ⟨count, hcount, hspells⟩ := h
  exact Nat.lt_of_lt_of_le hspells.natAbs_lt (Nat.pow_le_pow_right (by decide) hcount)

/-! ## The notation that is written -/

theorem digit?_digit (hd : d < 10) : (digit d).digit? = some d := by
  have hall : ∀ d : Fin 10, (digit d.val).digit? = some d.val := by decide
  exact hall ⟨d, hd⟩

/-- The decimal digits of a number spell it, in as few digits as it needs. -/
theorem exists_unsigned_ofNat (n : Nat) : ∃ digits, Unsigned (ofNat n) digits ∧
    Nat.ofDigits 10 digits.reverse = n ∧
      ∀ count, 0 < count → n < 10 ^ count → digits.length ≤ count := by
  induction n using Nat.strong_induction_on with
  | _ n ih =>
    rw [ofNat]
    split
    · next hsmall =>
      exact ⟨[n], .last (digit?_digit hsmall), Nat.ofDigits_singleton .., fun count hcount _ => hcount⟩
    · next hlarge =>
      obtain ⟨digits, hdigits, hvalue, hlength⟩ := ih (n / 10) (by omega)
      refine ⟨digits ++ [n % 10], hdigits.append (digit?_digit (by omega)), ?_, ?_⟩
      · rw [List.reverse_append, List.reverse_singleton, List.singleton_append, Nat.ofDigits_cons,
          hvalue, Nat.mod_add_div]
      · intro count hcount hn
        obtain ⟨count, rfl⟩ : ∃ more, count = more + 1 := ⟨count - 1, by omega⟩
        rw [Nat.pow_succ] at hn
        rw [List.length_append, List.length_singleton]
        refine Nat.add_le_add_right (hlength count ?_ (by omega)) 1
        -- Ten to none is one, and the number has a digit more than the last one.
        rcases Nat.eq_zero_or_pos count with rfl | hpos
        · omega
        · exact hpos

/-- The notation of a number of no more digits than are read is accepted. -/
theorem accepts_ofInt {n : Int} (h : n.natAbs < 10 ^ digitLimit) : Accepts (ofInt n) n := by
  have hnil : Text.Blank [] := List.forall_mem_nil _
  have hlimit : 0 < digitLimit := by decide
  cases n with
  | ofNat n =>
    obtain ⟨digits, hdigits, rfl, hlength⟩ := exists_unsigned_ofNat n
    have hspells := Spells.intro .absent hnil hnil hdigits
    rw [List.append_nil] at hspells
    exact ⟨_, hlength _ hlimit h, hspells⟩
  | negSucc n =>
    obtain ⟨digits, hdigits, hvalue, hlength⟩ := exists_unsigned_ofNat (n + 1)
    have hspells := Spells.intro .minus hnil hnil hdigits
    rw [List.append_nil, hvalue] at hspells
    exact ⟨_, hlength _ hlimit h, hspells⟩

/-! ## The numbers that can be written -/

/-- A number has more than so many digits if it is not below that power of ten. -/
theorem isLonger_iff {digits n : Nat} : isLonger digits n = true ↔ 10 ^ digits ≤ n := by
  induction digits generalizing n with
  | zero => simp [isLonger, Nat.one_le_iff_ne_zero]
  | succ digits ih =>
    have hstep : 10 ^ (digits + 1) ≤ n ↔ 10 ^ digits ≤ n / 10 := by
      rw [Nat.pow_succ, Nat.le_div_iff_mul_le (by decide)]
    have hzero : 10 ^ (digits + 1) ≤ n → n ≠ 0 := fun h =>
      Nat.ne_of_gt (Nat.lt_of_lt_of_le (Nat.pow_pos (by decide)) h)
    simp only [isLonger, Bool.and_eq_true, bne_iff_ne, ih, ← hstep]
    exact and_iff_right_of_imp hzero

/-- Numbers of no more digits than the limit can be written. -/
theorem isWritable_iff {n : Int} : isWritable n = true ↔ n.natAbs < 10 ^ digitLimit := by
  rw [isWritable, Bool.not_eq_true', ← Bool.not_eq_true, isLonger_iff, Nat.not_le]

/-- The least number with more digits than that cannot be written. -/
theorem isWritable_pow : isWritable (10 ^ digitLimit) = false := by
  have hnatAbs (digits : Nat) : ((10 : Int) ^ digits).natAbs = 10 ^ digits := Int.natAbs_pow 10 digits
  rw [← Bool.not_eq_true, isWritable_iff, hnatAbs]
  exact Nat.lt_irrefl _

/-- Numbers of twenty digits, such as those of 64 bits, can be written. -/
theorem isWritable_of_lt {n : Int} (h : n.natAbs < 10 ^ 20) : isWritable n = true :=
  isWritable_iff.mpr (Nat.lt_of_lt_of_le h (Nat.pow_le_pow_right (by decide) (by decide)))

end Numeral

end KotlinNullability
