import KotlinNullability.Oracle
import KotlinNullability.Proofs.Cache.Operations
import KotlinNullability.Proofs.Header
import KotlinNullability.Proofs.Text.Numeral

/-!
# The verdict about the metadata of a class

Metadata that is well typed is judged by its version, by its kind, by whether there is a payload,
and at last by decoding this. Every attempt of an oracle results in the verdict, whether the payload
comes as it is or packed into the strings of a header, and what stands behind a gate that is shut is
not looked at. There is one thing in the way of the verdict: a rejection names the numbers that it is
for, and these may be too long to be written.
-/

namespace KotlinNullability

/-- The metadata of a class as it comes to an oracle, well typed. -/
inductive Source where
  /-- A payload with its interned strings. -/
  | payload (bytes : List UInt8) (pool : List Text) (version : Version) (kind : Int)
  /-- A header. -/
  | header (header : Header.Typed)

namespace Source

/-- What comes to the oracle. -/
def data : Source → ClassData
  | payload bytes pool version kind => .payload bytes (pool.map .text) version kind
  | header h => .header h.header

/-- The version that the metadata claims. -/
def version : Source → Version
  | payload _ _ version _ => version
  | header h => h.version

/-- The kind that the metadata claims. -/
def kind : Source → Int
  | payload _ _ _ kind => kind
  | header h => h.kind

/-- The payload, which a header holds packed. -/
def bytes : Source → List UInt8
  | payload bytes _ _ _ => bytes
  | header h => Packing.unpack h.data1

/-- The interned strings. -/
def pool : Source → List Text
  | payload _ pool _ _ => pool
  | header h => h.data2

/-- What there is to say when there is no payload. -/
def emptiness (key : Text) : Source → EmptyPayload
  | payload .. => .noBytes
  | header h => if h.data1 = [] then .noStrings else .unpacksEmpty key

/-- How the metadata of a declaring type is judged: by its version, by its kind, by whether there is
a payload, and at last by decoding it. -/
def verdict (source : Source) (key : Text) (baseline : Baseline) :
    Except Failure (List Function) :=
  if source.version.isCompatible baseline = false then
    .error (.metadata (.incompatibleVersion source.version))
  else if source.kind ≠ Header.classKind then .error (.metadata (.wrongKind source.kind))
  else if source.bytes = [] then .error (.metadata (.emptyPayload (source.emptiness key)))
  else (Metadata.decode source.bytes (source.pool.map .text)).mapError Failure.ofDecodeError

/-- The numbers that a rejection of the metadata may name are short enough to be written. -/
def IsShort (source : Source) (baseline : Baseline) : Prop :=
  ∀ n ∈ source.kind :: (source.version.parts ++ baseline.parts), n.natAbs < 10 ^ Numeral.digitLimit

/-- Numbers of twenty digits are short. -/
theorem isShort_of_lt {source : Source} {baseline : Baseline}
    (h : ∀ n ∈ source.kind :: (source.version.parts ++ baseline.parts), n.natAbs < 10 ^ 20) :
    source.IsShort baseline :=
  fun n hn => Numeral.isWritable_iff.mp (Numeral.isWritable_of_lt (h n hn))

/-- The oracle rejects the metadata for what it claims to be. -/
def Rejected (source : Source) (baseline : Baseline) : Prop :=
  source.version.isCompatible baseline = false ∨ source.kind ≠ Header.classKind

end Source

namespace Attempt

/-- An attempt at a payload results in what decoding it results in. -/
theorem ofPayload_result (bytes : List UInt8) (pool : List Json) :
    (ofPayload bytes pool).result =
      (Metadata.decode bytes pool).mapError Failure.ofDecodeError := by
  rw [ofPayload, Metadata.decode, Metadata.Decoding.result]
  cases (Metadata.decoding bytes pool).error <;> rfl

/-- An attempt at a header that is well typed depends on its packed strings by the payload that they
hold. -/
theorem ofHeader_result (key : Text) (h : Header.Typed) :
    (ofHeader key h.header).result =
      if Packing.unpack h.data1 = [] then
        .error (.metadata (.emptyPayload ((Source.header h).emptiness key)))
      else
        (Metadata.decode (Packing.unpack h.data1) (h.data2.map .text)).mapError
          Failure.ofDecodeError := by
  have hpayload : h.header.payload = .ok (Packing.unpack h.data1) := Header.payload_of_texts rfl
  rw [ofHeader, hpayload]
  by_cases hdata : h.data1 = []
  · have hempty : h.header.data1.isEmpty = true := by simp [Header.Typed.header, hdata]
    rw [if_pos hempty, Source.emptiness, if_pos hdata, hdata]
    rfl
  · have hempty : ¬ h.header.data1.isEmpty = true := by simpa [Header.Typed.header] using hdata
    rw [if_neg hempty, Source.emptiness, if_neg hdata]
    cases hbytes : Packing.unpack h.data1 with
    | nil => rfl
    | cons b bytes => exact ofPayload_result (b :: bytes) h.header.data2

/-- The numbers that a rejection at the gate names. -/
def gateNumbers (baseline : Baseline) (version : Version) (kind : Int) : List Int :=
  if version.isCompatible baseline = false then version.parts ++ baseline.parts
  else if kind ≠ Header.classKind then [kind]
  else []

theorem rejected_result (numbers : List Int) (error : MetadataError) (note : Note) :
    (rejected numbers error note).result =
      Numeral.worded numbers (.error .unwritable) (.error (.metadata error)) :=
  apply_ite result ..

/-- An attempt goes through the gate or is rejected, if the rejection can be worded. -/
theorem gate_result (key : Text) (baseline : Baseline) (version : Version) (kind : Int)
    (next : Attempt) :
    (gate key baseline version kind next).result =
      Numeral.worded (gateNumbers baseline version kind) (.error .unwritable)
        (if version.isCompatible baseline = false then
          .error (.metadata (.incompatibleVersion version))
        else if kind ≠ Header.classKind then .error (.metadata (.wrongKind kind))
        else next.result) := by
  unfold gate gateNumbers
  cases version.isCompatible baseline with
  | false => exact rejected_result ..
  | true =>
    by_cases hkind : kind ≠ Header.classKind
    · simp only [Bool.not_true, Bool.true_eq_false, Bool.false_eq_true, if_false, if_pos hkind]
      exact rejected_result ..
    · simp only [Bool.not_true, Bool.true_eq_false, Bool.false_eq_true, if_false, if_neg hkind]
      rfl

/-- An attempt at metadata that is well typed results in the verdict about it, if a rejection can be
worded. -/
theorem ofData_result (key : Text) (baseline : Baseline) (source : Source) :
    (ofData key baseline source.data).result =
      Numeral.worded (gateNumbers baseline source.version source.kind) (.error .unwritable)
        (source.verdict key baseline) := by
  cases source with
  | payload bytes pool version kind =>
    rw [Source.data, ofData, gate_result]
    cases bytes with
    | nil => rfl
    | cons b bytes =>
      have hbytes : ¬ (b :: bytes).isEmpty = true := Bool.false_ne_true
      rw [if_neg hbytes, ofPayload_result]
      rfl
  | header h =>
    rw [Source.data, ofData, h.version?_header]
    dsimp only
    rw [gate_result, ofHeader_result]
    rfl

/-- With short numbers, an attempt results in the verdict. -/
theorem ofData_result_of_isShort {baseline : Baseline} {source : Source}
    (h : source.IsShort baseline) (key : Text) :
    (ofData key baseline source.data).result = source.verdict key baseline := by
  have hwritable : ∀ n ∈ gateNumbers baseline source.version source.kind,
      Numeral.isWritable n = true := by
    intro n hn
    refine Numeral.isWritable_iff.mpr (h n ?_)
    unfold gateNumbers at hn
    split at hn
    · exact List.mem_cons_of_mem _ hn
    · split at hn
      · exact List.mem_cons.mpr (.inl (List.mem_singleton.mp hn))
      · cases hn
  rw [ofData_result, Numeral.worded_eq hwritable]

/-- Metadata that is rejected for what it claims to be is not looked into. -/
theorem ofData_of_rejected {key : Text} {baseline : Baseline} {source : Source}
    (h : source.Rejected baseline) (next : Attempt) :
    ofData key baseline source.data = gate key baseline source.version source.kind next := by
  have hgate (other : Attempt) : gate key baseline source.version source.kind other =
      gate key baseline source.version source.kind next := by
    rw [gate, gate]
    rcases h with hversion | hkind
    · rw [hversion]
      rfl
    · rw [if_pos hkind, if_pos hkind]
  cases source with
  | payload bytes pool version kind => exact hgate _
  | header fields =>
    rw [Source.data, ofData, fields.version?_header]
    exact hgate _

/-- A decoding is noted as completed only if the attempt succeeds. -/
def Honest (a : Attempt) : Prop :=
  .decodingCompleted ∈ a.notes → ∃ functions, a.result = .ok functions

theorem ofPayload_honest (bytes : List UInt8) (pool : List Json) :
    (ofPayload bytes pool).Honest := by
  intro h
  rw [ofPayload] at h ⊢
  cases herror : (Metadata.decoding bytes pool).error with
  | none => exact ⟨_, rfl⟩
  | some e => simp [herror] at h

theorem gate_honest {next : Attempt} (hnext : next.Honest) (key : Text) (baseline : Baseline)
    (version : Version) (kind : Int) : (gate key baseline version kind next).Honest := by
  have hrejected (numbers : List Int) (error : MetadataError) {note : Note}
      (hnote : note ≠ .decodingCompleted) : (rejected numbers error note).Honest := by
    intro h
    unfold rejected Numeral.worded failed at h
    split at h
    · exact absurd (List.mem_singleton.mp h).symm hnote
    · cases h
  unfold gate
  split
  · exact hrejected _ _ nofun
  · split
    · exact hrejected _ _ nofun
    · exact hnext

theorem ofHeader_honest (key : Text) (header : Header) : (ofHeader key header).Honest := by
  have hmode : Note.decodingCompleted ∉ header.mode?.toList.map Note.unpacking := by simp
  unfold ofHeader
  split
  · intro h
    cases h
  · dsimp only
    split
    · exact fun h => absurd h hmode
    · exact fun h => absurd h hmode
    · intro h
      rcases List.mem_append.mp h with h | h
      · exact absurd h hmode
      · exact ofPayload_honest _ _ h

/-- Whatever comes to the oracle, a decoding is noted as completed only if it has functions for the
declaring type. -/
theorem ofData_honest (key : Text) (baseline : Baseline) (data : ClassData) :
    (ofData key baseline data).Honest := by
  cases data with
  | payload bytes pool version kind =>
    refine gate_honest ?_ key baseline version kind
    split
    · intro h
      cases h
    · exact ofPayload_honest bytes pool
  | header header =>
    rw [ofData]
    cases header.version? with
    | none =>
      intro h
      cases h
    | some version =>
      exact gate_honest (ofHeader_honest key header) key baseline version header.kind

end Attempt

namespace Oracle

variable (o : Oracle) {cache : MetadataCache} {key : Text}

/-- A declaring type that is not in the cache is served by decoding its metadata. -/
theorem load_of_find?_none (h : cache.find? key = none) (data : ClassData) :
    (o.load cache key data).result = (Attempt.ofData key o.baseline data).result :=
  Cache.outcome_getOrCompute h _

/-- A kind that is too long to be written is not refused for what it is. -/
theorem load_of_kind_unwritable (h : cache.find? key = none) {source : Source}
    (hversion : source.version.isCompatible o.baseline = true)
    (hkind : Numeral.isWritable source.kind = false) :
    (o.load cache key source.data).result = .error .unwritable := by
  have hclass : source.kind ≠ Header.classKind := fun hclass => by
    rw [hclass] at hkind
    cases hkind
  have hnumbers : Attempt.gateNumbers o.baseline source.version source.kind = [source.kind] := by
    rw [Attempt.gateNumbers, if_neg (by simp [hversion]), if_pos hclass]
  rw [o.load_of_find?_none h, Attempt.ofData_result, hnumbers]
  simp [Numeral.worded, hkind]

end Oracle

end KotlinNullability
