import KotlinNullability.Proofs.Guarded.Metadata
import KotlinNullability.Proofs.Oracle.Refinement

/-!
# The errors that leave an oracle

A header whose strings are texts is judged by what it holds: whatever its strings are, a question
about it is answered or fails by an error of the metadata. There are two exceptions, the version
without a number and a rejection that names a number too long to be written. They are only met when
the declaring type is not in the cache, since a type in the cache is answered for without a look at
the header.
-/

namespace KotlinNullability

/-- The header with any numbers and any texts. -/
def Header.ofTexts (kind : Int) (versionParts : List Int) (data1 data2 : List Text)
    (extraInt : Int) : Header where
  kind := kind
  versionParts := versionParts
  data1 := data1.map .text
  data2 := data2.map .text
  extraInt := extraInt

/-- A result is there, or the metadata is at fault that it is not. -/
def OnlyMetadataErrors {α : Type} (result : Except Failure α) : Prop :=
  ∀ failure, result = .error failure → ∃ error, failure = .metadata error

namespace OnlyMetadataErrors

theorem ok {α : Type} (a : α) : OnlyMetadataErrors (.ok a) := fun _ h => by cases h

theorem error {α : Type} (error : MetadataError) :
    OnlyMetadataErrors (.error (.metadata error) : Except Failure α) := fun _ h => by
  cases h
  exact ⟨error, rfl⟩

/-- A failure may leave exactly if the metadata is at fault. -/
theorem error_iff {α : Type} {failure : Failure} :
    OnlyMetadataErrors (.error failure : Except Failure α) ↔ ∃ error, failure = .metadata error :=
  ⟨fun h => h failure rfl, fun ⟨e, h⟩ => h ▸ error e⟩

/-- Decoding over interned strings fails by the metadata. -/
theorem of_decode (bytes : List UInt8) (pool : List Text) :
    OnlyMetadataErrors
      ((Metadata.decode bytes (pool.map .text)).mapError Failure.ofDecodeError) := by
  obtain ⟨refusal | functions, -, hdecode⟩ := Guarded.decode_tells bytes pool
  · rw [hdecode]
    cases refusal with
    | wire fault worded =>
      cases fault with
      | unwritable => exact absurd rfl worded
      | _ => exact error _
    | index e => exact error _
  · rw [hdecode]
    exact ok functions

/-- The verdict about metadata that is well typed is an error of the metadata or none. -/
theorem of_verdict (source : Source) (key : Text) (baseline : Baseline) :
    OnlyMetadataErrors (source.verdict key baseline) := by
  unfold Source.verdict
  split
  · exact error _
  split
  · exact error _
  split
  · exact error _
  · exact of_decode source.bytes source.pool

/-- A question about a method fails by the metadata when loading the functions does, or when these
are there. -/
theorem judge_iff (method : Jvm.Method) {loaded : Except Failure (List Function)} :
    OnlyMetadataErrors (Memory.judge method loaded) ↔ OnlyMetadataErrors loaded := by
  cases loaded with
  | error failure =>
    constructor <;> rintro h _ ⟨⟩ <;> exact h failure rfl
  | ok functions =>
    refine iff_of_true ?_ (ok functions)
    dsimp only [Memory.judge]
    cases Function.find functions method.key with
    | ok f => exact ok _
    | error e => exact error _

end OnlyMetadataErrors

/-- An error of decoding that is worded is an error of the metadata or a misuse of its strings. -/
theorem Failure.ofDecodeError_of_isWorded {e : DecodeError} (h : e.IsWorded) :
    (∃ error, ofDecodeError e = .metadata error) ∨ ∃ error, ofDecodeError e = .misuse error := by
  cases e with
  | wire fault =>
    cases fault with
    | unwritable => exact absurd rfl h
    | _ => exact .inl ⟨_, rfl⟩
  | index error => exact .inl ⟨_, rfl⟩
  | misuse error => exact .inr ⟨_, rfl⟩
  | unwritable => exact h.elim

/-- What an attempt at a header fails by, once it is through the gate. -/
theorem Attempt.ofHeader_failure {key : Text} {header : Header} {failure : Failure}
    (h : (ofHeader key header).result = .error failure) :
    (∃ e, failure = .metadata e) ∨ (∃ e, failure = .payload e) ∨ ∃ e, failure = .misuse e := by
  unfold ofHeader at h
  split at h
  · cases h
    exact .inl ⟨_, rfl⟩
  · dsimp only at h
    split at h
    · cases h
      exact .inr (.inl ⟨_, rfl⟩)
    · cases h
      exact .inl ⟨_, rfl⟩
    · next bytes _ _ =>
      rw [ofPayload_result] at h
      cases hdecode : Metadata.decode bytes header.data2 with
      | ok functions =>
        rw [hdecode] at h
        cases h
      | error e =>
        rw [hdecode] at h
        cases h
        have hworded := (Metadata.decode_yields bytes header.data2).of_error hdecode
        exact (Failure.ofDecodeError_of_isWorded hworded).imp_right .inr

namespace Oracle

variable (o : Oracle) (cache : MetadataCache) (key : Text)

/-- What the gate makes of a header can be worded: there is a version, and the numbers that a
rejection for this version and kind names are short enough to be written. -/
def Worded (header : Header) : Prop :=
  ∃ version, header.version? = some version ∧
    ∀ n ∈ Attempt.gateNumbers o.baseline version header.kind, n.natAbs < 10 ^ Numeral.digitLimit

/-- The functions of a header with texts are there, or the metadata is at fault, unless the declaring
type is not in the cache and what the gate makes of the header cannot be worded. -/
theorem onlyMetadataErrors_load_iff (kind : Int) (versionParts : List Int)
    (data1 data2 : List Text) (extraInt : Int) :
    OnlyMetadataErrors (o.load cache key
        (.header (Header.ofTexts kind versionParts data1 data2 extraInt))).result ↔
      cache.contains key ∨ o.Worded (Header.ofTexts kind versionParts data1 data2 extraInt) := by
  -- A type in the cache is served without a look at the header.
  cases hfind : cache.find? key with
  | some functions =>
    rw [load, Cache.getOrCompute_of_find?_some hfind]
    exact iff_of_true (.ok functions) (.inl (by rw [Cache.contains, hfind]; rfl))
  | none =>
    have habsent : ¬ cache.contains key = true := by simp [Cache.contains, hfind]
    rw [o.load_of_find?_none hfind, or_iff_right habsent]
    cases versionParts with
    | nil =>
      refine iff_of_false (fun h => ?_) ?_
      · obtain ⟨error, herror⟩ := OnlyMetadataErrors.error_iff.mp h
        cases herror
      · rintro ⟨version, hversion, -⟩
        cases hversion
    | cons major minors =>
      let fields : Header.Typed := ⟨kind, major, minors, data1, data2, extraInt⟩
      have hresult : (Attempt.ofData key o.baseline (.header
            (Header.ofTexts kind (major :: minors) data1 data2 extraInt))).result =
          Numeral.worded (Attempt.gateNumbers o.baseline fields.version kind)
            (.error .unwritable) ((Source.header fields).verdict key o.baseline) :=
        Attempt.ofData_result key o.baseline (.header fields)
      have hworded : o.Worded (Header.ofTexts kind (major :: minors) data1 data2 extraInt) ↔
          ∀ n ∈ Attempt.gateNumbers o.baseline fields.version kind, Numeral.isWritable n = true := by
        simp only [Numeral.isWritable_iff]
        constructor
        · rintro ⟨version, hversion, hnumbers⟩
          rwa [Option.some.inj (hversion.symm.trans fields.version?_header)] at hnumbers
        · exact fun h => ⟨_, fields.version?_header, h⟩
      rw [hresult, hworded]
      by_cases hnumbers : ∀ n ∈ Attempt.gateNumbers o.baseline fields.version kind,
          Numeral.isWritable n = true
      · rw [Numeral.worded_eq hnumbers]
        exact iff_of_true (OnlyMetadataErrors.of_verdict (.header fields) key o.baseline) hnumbers
      · have hlong : Numeral.worded (Attempt.gateNumbers o.baseline fields.version kind)
            (.error .unwritable) ((Source.header fields).verdict key o.baseline) =
              .error .unwritable :=
          if_neg fun h => hnumbers (List.all_eq_true.mp h)
        rw [hlong]
        refine iff_of_false (fun h => ?_) hnumbers
        obtain ⟨error, herror⟩ := OnlyMetadataErrors.error_iff.mp h
        cases herror

/-- The functions of a header are there, or the metadata is at fault, unless the declaring type is not
in the cache and the header has a version without a number or is rejected for numbers of which one is
too long to be written; and so is the answer to a question about a method. A type without metadata is
always answered for. -/
theorem only_metadata_errors_iff (kind : Int) (versionParts : List Int) (data1 data2 : List Text)
    (extraInt : Int) (method : Jvm.Method) :
    let header := Header.ofTexts kind versionParts data1 data2 extraInt
    (OnlyMetadataErrors (o.load cache key (.header header)).result ↔
      cache.contains key ∨ o.Worded header) ∧
    (OnlyMetadataErrors (o.isReturnTypeNullable cache key (some header) method).result ↔
      cache.contains key ∨ o.Worded header) ∧
    OnlyMetadataErrors (o.isReturnTypeNullable cache key none method).result := by
  intro header
  have hload := o.onlyMetadataErrors_load_iff cache key kind versionParts data1 data2 extraInt
  have hquestion : (o.isReturnTypeNullable cache key (some header) method).result =
      Memory.judge method (o.load cache key (.header header)).result := answer_result ..
  rw [hquestion, OnlyMetadataErrors.judge_iff]
  exact ⟨hload, hload, .ok false⟩

/-- When loading fails on a header of which everything can be worded, the metadata is at fault, or the
strings in its arrays hold no payload or are no strings. -/
theorem load_failure_of_worded {header : Header} {failure : Failure} (h : o.Worded header)
    (hload : (o.load cache key (.header header)).result = .error failure) :
    (∃ e, failure = .metadata e) ∨ (∃ e, failure = .payload e) ∨ ∃ e, failure = .misuse e := by
  cases hfind : cache.find? key with
  | some functions =>
    rw [load, Cache.getOrCompute_of_find?_some hfind] at hload
    cases hload
  | none =>
    obtain ⟨version, hversion, hnumbers⟩ := h
    have hwritable : ∀ n ∈ Attempt.gateNumbers o.baseline version header.kind,
        Numeral.isWritable n = true := fun n hn => Numeral.isWritable_iff.mpr (hnumbers n hn)
    rw [o.load_of_find?_none hfind, Attempt.ofData, hversion] at hload
    dsimp only at hload
    rw [Attempt.gate_result, Numeral.worded_eq hwritable] at hload
    split at hload
    · cases hload
      exact .inl ⟨_, rfl⟩
    · split at hload
      · cases hload
        exact .inl ⟨_, rfl⟩
      · exact Attempt.ofHeader_failure hload

/-- A header whose version has no number, for a declaring type that is not in the cache: what leaves
the oracle is no error of the metadata. -/
theorem emptyVersion_not_metadata_error :
    let o : Oracle := ⟨⟨1, 9, 0⟩⟩
    let header := Header.ofTexts 1 [] ["\x00"] [] 0
    (o.load {} "K" (.header header)).result = .error .emptyVersion ∧
      ¬ OnlyMetadataErrors (o.load {} "K" (.header header)).result := by
  refine ⟨rfl, fun h => ?_⟩
  obtain ⟨error, herror⟩ := h _ rfl
  cases herror

end Oracle

end KotlinNullability
