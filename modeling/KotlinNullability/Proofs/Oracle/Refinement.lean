import KotlinNullability.Proofs.Cache.Operations
import KotlinNullability.Proofs.Oracle.Verdict
import Mathlib.Logic.Function.Basic

/-!
# Oracles that share a cache

Whatever any number of oracles are asked, one question after the other, they answer as somebody
would who remembers the functions of declaring types in a plain map: a type that is remembered is
not judged again, and a type that is not remembered is judged by its metadata and remembered only if
this is decoded. A question about a method that no function matches may have been the first about its
type, so the functions are remembered though the question fails.
-/

namespace KotlinNullability

/-- What an oracle or the cache is asked to do. -/
inductive Command where
  /-- Return the functions of a declaring type. -/
  | load (oracle : Oracle) (key : Text) (source : Source)
  /-- Answer a question about a method of a declaring type. -/
  | isNullable (oracle : Oracle) (key : Text) (source : Source) (method : Jvm.Method)
  /-- The same for a declaring type that may carry no metadata. -/
  | isReturnTypeNullable (oracle : Oracle) (declaringType : Text) (header : Option Header.Typed)
    (method : Jvm.Method)
  | contains (key : Text)
  | clear

/-- What a command returns. -/
inductive Command.Answer where
  | functions (result : Except Failure (List Function))
  | nullable (result : Except Failure Bool)
  | present (answer : Bool)
  | cleared

/-- What a command returns, the cache after it, and what was noted on the way. -/
structure Performed where
  answer : Command.Answer
  cache : MetadataCache
  notes : List Note

namespace Command

/-- Perform a command. -/
def perform (c : MetadataCache) : Command → Performed
  | load oracle key source =>
    let reply := oracle.load c key source.data
    ⟨.functions reply.result, reply.cache, reply.notes⟩
  | isNullable oracle key source method =>
    let reply := oracle.isNullable c key source.data method
    ⟨.nullable reply.result, reply.cache, reply.notes⟩
  | isReturnTypeNullable oracle declaringType header method =>
    let reply := oracle.isReturnTypeNullable c declaringType (header.map Header.Typed.header) method
    ⟨.nullable reply.result, reply.cache, reply.notes⟩
  | contains key => ⟨.present (c.contains key), c, []⟩
  | clear => ⟨.cleared, c.clear, []⟩

/-- The numbers that come with a command are short enough to be written. -/
def IsShort : Command → Prop
  | load oracle _ source | isNullable oracle _ source _ => source.IsShort oracle.baseline
  | isReturnTypeNullable oracle _ (some header) _ => (Source.header header).IsShort oracle.baseline
  | isReturnTypeNullable _ _ none _ | contains _ | clear => True

/-- Perform commands one after the other. -/
def performAll (c : MetadataCache) : List Command → List Answer × MetadataCache
  | [] => ([], c)
  | command :: commands =>
    let performed := command.perform c
    let (answers, final) := performAll performed.cache commands
    (performed.answer :: answers, final)

end Command

/-- A plain map of declaring types to their functions. -/
abbrev Memory := Text → Option (List Function)

namespace Memory

/-- The functions of a declaring type: those that are remembered, or those that its metadata is
decoded to, which are remembered from then on. -/
def load (m : Memory) (baseline : Baseline) (key : Text) (source : Source) :
    Except Failure (List Function) × Memory :=
  match m key with
  | some functions => (.ok functions, m)
  | none =>
    match source.verdict key baseline with
    | .ok functions => (.ok functions, Function.update m key (some functions))
    | .error e => (.error e, m)

/-- The answer about a method, when the functions of its declaring type are there. -/
def judge (method : Jvm.Method) : Except Failure (List Function) → Except Failure Bool
  | .error e => .error e
  | .ok functions =>
    match Function.find functions method.key with
    | .ok f => .ok f.returnsNullableOrUnit
    | .error e => .error (.metadata (.unmatched e))

/-- What a command returns, and what is remembered after it. -/
def perform (m : Memory) : Command → Command.Answer × Memory
  | .load oracle key source =>
    let (result, m) := m.load oracle.baseline key source
    (.functions result, m)
  | .isNullable oracle key source method =>
    let (result, m) := m.load oracle.baseline key source
    (.nullable (judge method result), m)
  | .isReturnTypeNullable _ _ none _ => (.nullable (.ok false), m)
  | .isReturnTypeNullable oracle declaringType (some header) method =>
    let (result, m) := m.load oracle.baseline declaringType (.header header)
    (.nullable (judge method result), m)
  | .contains key => (.present (m key).isSome, m)
  | .clear => (.cleared, fun _ => none)

/-- What commands return one after the other, and what is remembered after them. -/
def performAll (m : Memory) : List Command → List Command.Answer × Memory
  | [] => ([], m)
  | command :: commands =>
    let (answer, m) := m.perform command
    let (answers, final) := m.performAll commands
    (answer :: answers, final)

end Memory

/-- When the entries of a cache are those of another one with one more, so are the values that it
gives. -/
theorem Cache.find?_of_entries_set {κ α : Type} [DecidableEq κ] {c after : Cache κ α} {key : κ}
    {value : α} (h : after.entries = Association.set key value c.entries) :
    after.find? = Function.update c.find? key (some value) := by
  funext other
  rw [find?, h]
  by_cases hother : other = key
  · rw [hother, Association.find?_set_self, Function.update_self]
  · rw [Association.find?_set_of_ne hother, Function.update_of_ne hother, find?]

namespace Oracle

variable (o : Oracle) (c : MetadataCache) (key : Text)

/-- Loading does with the cache what it does with the map. -/
theorem load_refines {source : Source} (h : source.IsShort o.baseline) :
    (o.load c key source.data).result = (Memory.load c.find? o.baseline key source).1 ∧
      (o.load c key source.data).cache.find? = (Memory.load c.find? o.baseline key source).2 := by
  rw [load, Memory.load]
  cases hfind : c.find? key with
  | some functions =>
    rw [Cache.getOrCompute_of_find?_some hfind]
    exact ⟨rfl, rfl⟩
  | none =>
    rw [Attempt.ofData_result_of_isShort h]
    dsimp only
    cases source.verdict key o.baseline with
    | error e =>
      obtain ⟨after, hserved, hentries⟩ := Cache.getOrCompute_error hfind e
      rw [hserved]
      exact ⟨rfl, funext fun other => congrArg (Association.find? other) hentries⟩
    | ok functions =>
      obtain ⟨after, hserved, hentries⟩ := Cache.getOrCompute_ok (ε := Failure) hfind functions
      rw [hserved]
      exact ⟨rfl, Cache.find?_of_entries_set hentries⟩

/-- A load takes nothing away from the cache. -/
theorem find?_load_of_some {data : ClassData} {other : Text} {functions : List Function}
    (h : c.find? other = some functions) :
    (o.load c key data).cache.find? other = some functions := by
  rw [load]
  cases hfind : c.find? key with
  | some earlier =>
    rw [Cache.getOrCompute_of_find?_some hfind]
    exact h
  | none =>
    cases (Attempt.ofData key o.baseline data).result with
    | error e =>
      obtain ⟨after, hserved, hentries⟩ := Cache.getOrCompute_error hfind e
      rw [hserved]
      exact (congrArg (Association.find? other) hentries).trans h
    | ok loaded =>
      obtain ⟨after, hserved, hentries⟩ := Cache.getOrCompute_ok (ε := Failure) hfind loaded
      have hne : other ≠ key := by
        rintro rfl
        rw [hfind] at h
        cases h
      rw [hserved]
      change after.find? other = _
      rw [Cache.find?_of_entries_set hentries, Function.update_of_ne hne, h]

/-- A load that fails leaves all entries as they are. -/
theorem load_entries_of_error {data : ClassData} {e : Failure}
    (h : (o.load c key data).result = .error e) :
    (o.load c key data).cache.entries = c.entries := by
  cases hfind : c.find? key with
  | some functions =>
    rw [load, Cache.getOrCompute_of_find?_some hfind]
  | none =>
    have hresult : (Attempt.ofData key o.baseline data).result = .error e :=
      (o.load_of_find?_none hfind data).symm.trans h
    rw [load, hresult]
    obtain ⟨after, hserved, hentries⟩ := Cache.getOrCompute_error hfind e
    rw [hserved]
    exact hentries

/-- The answer about a method is the one that the functions of its declaring type give. -/
theorem answer_result (loaded : Reply (List Function)) (method : Jvm.Method) :
    (answer loaded method).result = Memory.judge method loaded.result := by
  rw [answer]
  cases loaded.result with
  | error e => rfl
  | ok functions =>
    dsimp only [Memory.judge]
    cases Function.find functions method.key <;> rfl

/-- Answering about a method leaves the cache as loading has left it. -/
theorem answer_cache (loaded : Reply (List Function)) (method : Jvm.Method) :
    (answer loaded method).cache = loaded.cache := by
  rw [answer]
  cases loaded.result with
  | error e => rfl
  | ok functions =>
    dsimp only
    cases Function.find functions method.key <;> rfl

/-- A question that fails, and not because no function or several match, leaves all entries as they
are. -/
theorem isNullable_entries_of_error {data : ClassData} {method : Jvm.Method} {e : Failure}
    (h : (o.isNullable c key data method).result = .error e)
    (hmatch : ∀ error, e ≠ .metadata (.unmatched error)) :
    (o.isNullable c key data method).cache.entries = c.entries := by
  rw [isNullable, answer_result] at h
  rw [isNullable, answer_cache]
  cases hloaded : (o.load c key data).result with
  | error e => exact o.load_entries_of_error c key hloaded
  | ok functions =>
    rw [hloaded, Memory.judge] at h
    cases hfind : Function.find functions method.key with
    | ok f =>
      rw [hfind] at h
      cases h
    | error error =>
      rw [hfind] at h
      cases h
      exact absurd rfl (hmatch error)

/-- A question does with the cache what it does with the map. -/
theorem isNullable_refines {source : Source} (h : source.IsShort o.baseline)
    (method : Jvm.Method) :
    (o.isNullable c key source.data method).result =
        Memory.judge method (Memory.load c.find? o.baseline key source).1 ∧
      (o.isNullable c key source.data method).cache.find? =
        (Memory.load c.find? o.baseline key source).2 := by
  obtain ⟨hresult, hmemory⟩ := o.load_refines c key h
  rw [isNullable, answer_result, answer_cache, hresult, hmemory]
  exact ⟨rfl, rfl⟩

/-- Rejected metadata is answered for alike, whatever comes with it. -/
theorem load_of_rejected {source other : Source} (h : source.Rejected o.baseline)
    (hversion : source.version = other.version) (hkind : source.kind = other.kind) :
    o.load c key source.data = o.load c key other.data := by
  have hother : other.Rejected o.baseline := by
    rw [Source.Rejected, ← hversion, ← hkind]
    exact h
  have hattempt : Attempt.ofData key o.baseline source.data =
      Attempt.ofData key o.baseline other.data := by
    rw [Attempt.ofData_of_rejected h ⟨.ok [], []⟩, Attempt.ofData_of_rejected hother ⟨.ok [], []⟩,
      hversion, hkind]
  rw [load, load, hattempt]

end Oracle

namespace Command

/-- A command with short numbers does with the cache what it does with the map. -/
theorem perform_refines (c : MetadataCache) {command : Command} (h : command.IsShort) :
    (command.perform c).answer = (Memory.perform c.find? command).1 ∧
      (command.perform c).cache.find? = (Memory.perform c.find? command).2 := by
  cases command with
  | load oracle key source =>
    obtain ⟨hresult, hmemory⟩ := oracle.load_refines c key h
    exact ⟨congrArg Answer.functions hresult, hmemory⟩
  | isNullable oracle key source method =>
    obtain ⟨hresult, hmemory⟩ := oracle.isNullable_refines c key h method
    exact ⟨congrArg Answer.nullable hresult, hmemory⟩
  | isReturnTypeNullable oracle declaringType header method =>
    cases header with
    | none => exact ⟨rfl, rfl⟩
    | some header =>
      obtain ⟨hresult, hmemory⟩ := oracle.isNullable_refines c declaringType h method
      exact ⟨congrArg Answer.nullable hresult, hmemory⟩
  | contains key => exact ⟨rfl, rfl⟩
  | clear => exact ⟨rfl, rfl⟩

/-- Commands with short numbers do with the cache, one after the other, what they do with the map. -/
theorem performAll_refines (c : MetadataCache) {commands : List Command}
    (h : ∀ command ∈ commands, command.IsShort) :
    (performAll c commands).1 = (Memory.performAll c.find? commands).1 ∧
      (performAll c commands).2.find? = (Memory.performAll c.find? commands).2 := by
  induction commands generalizing c with
  | nil => exact ⟨rfl, rfl⟩
  | cons command commands ih =>
    obtain ⟨hfirst, hrest⟩ := List.forall_mem_cons.mp h
    obtain ⟨hanswer, hmemory⟩ := perform_refines c hfirst
    obtain ⟨hanswers, hfinal⟩ := ih (command.perform c).cache hrest
    rw [hmemory] at hanswers hfinal
    exact ⟨List.cons_eq_cons.mpr ⟨hanswer, hanswers⟩, hfinal⟩

/-- The failure that an answer reports. -/
def Answer.failure? : Answer → Option Failure
  | functions (.error e) | nullable (.error e) => some e
  | functions (.ok _) | nullable (.ok _) | present _ | cleared => none

theorem Answer.failure?_functions {result : Except Failure (List Function)} {e : Failure} :
    (functions result).failure? = some e ↔ result = .error e := by
  cases result <;> simp [failure?]

theorem Answer.failure?_nullable {result : Except Failure Bool} {e : Failure} :
    (nullable result).failure? = some e ↔ result = .error e := by
  cases result <;> simp [failure?]

/-- The declaring type whose metadata a command may decode. -/
def key? : Command → Option Text
  | load _ key _ | isNullable _ key _ _ | isReturnTypeNullable _ key (some _) _ => some key
  | isReturnTypeNullable _ _ none _ | contains _ | clear => none

/-- The command decodes the metadata of the declaring type to the end. -/
def Decodes (c : MetadataCache) (key : Text) (command : Command) : Prop :=
  command.key? = some key ∧ .decodingCompleted ∈ (command.perform c).notes

instance (c : MetadataCache) (key : Text) (command : Command) :
    Decidable (command.Decodes c key) :=
  inferInstanceAs (Decidable (_ ∧ _))

/-- How often commands decode the metadata of the declaring type to the end. -/
def decodings (key : Text) (c : MetadataCache) : List Command → Nat
  | [] => 0
  | command :: commands =>
    (if command.Decodes c key then 1 else 0) + decodings key (command.perform c).cache commands

end Command

/-- When a load decodes metadata to the end, the declaring type was not in the cache before, and is
in it afterwards. -/
theorem Oracle.find?_of_load_completed {o : Oracle} {c : MetadataCache} {key : Text}
    {data : ClassData} (h : .decodingCompleted ∈ (o.load c key data).notes) :
    c.find? key = none ∧ ((o.load c key data).cache.find? key).isSome := by
  rw [load] at h ⊢
  cases hfind : c.find? key with
  | some functions =>
    rw [Cache.getOrCompute_of_find?_some hfind] at h
    cases h
  | none =>
    have hhonest := Attempt.ofData_honest key o.baseline data
    cases hresult : (Attempt.ofData key o.baseline data).result with
    | error e =>
      obtain ⟨after, hserved, -⟩ := Cache.getOrCompute_error hfind e
      rw [hresult, hserved] at h
      have hnote : .decodingCompleted ∈ (Attempt.ofData key o.baseline data).notes := by
        simpa using h
      obtain ⟨functions, hok⟩ := hhonest hnote
      rw [hresult] at hok
      cases hok
    | ok functions =>
      obtain ⟨after, hserved, hentries⟩ := Cache.getOrCompute_ok (ε := Failure) hfind functions
      rw [hserved]
      refine ⟨rfl, ?_⟩
      change (after.find? key).isSome
      rw [Cache.find?_of_entries_set hentries, Function.update_self]
      rfl

/-- Answering about a method completes no decoding. -/
theorem Oracle.completed_of_answer {loaded : Reply (List Function)} {method : Jvm.Method}
    (h : .decodingCompleted ∈ (answer loaded method).notes) :
    .decodingCompleted ∈ loaded.notes := by
  unfold answer at h
  split at h
  · exact h
  · split at h
    · exact h
    · simpa using h

namespace Command

/-- A command that decodes the metadata of a declaring type finds it missing and leaves it in the
cache. -/
theorem Decodes.find? {c : MetadataCache} {key : Text} {command : Command}
    (h : command.Decodes c key) :
    c.find? key = none ∧ ((command.perform c).cache.find? key).isSome := by
  obtain ⟨hkey, hnote⟩ := h
  cases command with
  | load oracle key source =>
    cases hkey
    exact Oracle.find?_of_load_completed hnote
  | isNullable oracle key source method =>
    cases hkey
    have hload := Oracle.find?_of_load_completed (Oracle.completed_of_answer hnote)
    rwa [← Oracle.answer_cache _ method] at hload
  | isReturnTypeNullable oracle declaringType header method =>
    cases header with
    | none => cases hkey
    | some header =>
      cases hkey
      have hload := Oracle.find?_of_load_completed (Oracle.completed_of_answer hnote)
      rwa [← Oracle.answer_cache _ method] at hload
  | contains key => cases hkey
  | clear => cases hkey

/-- No command but clearing takes away what is in the cache. -/
theorem find?_perform_of_some {c : MetadataCache} {command : Command} (hclear : command ≠ clear)
    {key : Text} {functions : List Function} (h : c.find? key = some functions) :
    (command.perform c).cache.find? key = some functions := by
  cases command with
  | load oracle loaded source => exact oracle.find?_load_of_some c loaded h
  | isNullable oracle loaded source method =>
    exact (congrArg (·.find? key) (Oracle.answer_cache _ method)).trans
      (oracle.find?_load_of_some c loaded h)
  | isReturnTypeNullable oracle declaringType header method =>
    cases header with
    | none => exact h
    | some header =>
      exact (congrArg (·.find? key) (Oracle.answer_cache _ method)).trans
        (oracle.find?_load_of_some c declaringType h)
  | contains asked => exact h
  | clear => exact absurd rfl hclear

/-- While a declaring type is in the cache, its metadata is not decoded. -/
theorem decodings_of_some {c : MetadataCache} {commands : List Command} (hclear : clear ∉ commands)
    {key : Text} {functions : List Function} (h : c.find? key = some functions) :
    decodings key c commands = 0 := by
  induction commands generalizing c with
  | nil => rfl
  | cons command commands ih =>
    have hfirst : ¬ command.Decodes c key := fun hdecodes => by
      rw [hdecodes.find?.1] at h
      cases h
    have hkept := find?_perform_of_some (List.ne_of_not_mem_cons hclear).symm h
    rw [decodings, if_neg hfirst, ih (List.not_mem_of_not_mem_cons hclear) hkept]

/-- Between two commands that clear the cache, the metadata of a declaring type is decoded to the
end at most once. -/
theorem decodings_le_one {c : MetadataCache} {commands : List Command} (hclear : clear ∉ commands)
    (key : Text) : decodings key c commands ≤ 1 := by
  induction commands generalizing c with
  | nil => exact Nat.zero_le 1
  | cons command commands ih =>
    have hrest := List.not_mem_of_not_mem_cons hclear
    rw [decodings]
    by_cases hdecodes : command.Decodes c key
    · obtain ⟨functions, hfind⟩ := Option.isSome_iff_exists.mp hdecodes.find?.2
      have hnever := decodings_of_some hrest hfind
      rw [if_pos hdecodes]
      exact Nat.le_of_eq (congrArg (1 + ·) hnever)
    · rw [if_neg hdecodes, Nat.zero_add]
      exact ih hrest

/-- A command that fails, and not because no function or several match, leaves all entries as they
are. -/
theorem entries_of_failure {c : MetadataCache} {command : Command} {e : Failure}
    (h : (command.perform c).answer.failure? = some e)
    (hmatch : ∀ error, e ≠ .metadata (.unmatched error)) :
    (command.perform c).cache.entries = c.entries := by
  cases command with
  | load oracle key source =>
    exact oracle.load_entries_of_error c key (Answer.failure?_functions.mp h)
  | isNullable oracle key source method =>
    exact oracle.isNullable_entries_of_error c key (Answer.failure?_nullable.mp h) hmatch
  | isReturnTypeNullable oracle declaringType header method =>
    cases header with
    | none => cases h
    | some header =>
      have hfailed := Answer.failure?_nullable.mp h
      exact oracle.isNullable_entries_of_error c declaringType hfailed hmatch
  | contains key => cases h
  | clear => cases h

/-- Commands of any oracles that share a cache return what they would return with a plain map in its
place, and leave in the cache what they would leave in the map, as long as the numbers that come with
them are short enough to be written. A failed gate or decoding leaves all entries as they are, a
failed match leaves the cache as loading has left it, and nothing but clearing takes an entry away.
What comes with rejected metadata does not matter. And unless the cache is cleared, the metadata of a
declaring type is decoded to the end at most once. -/
theorem performAll_refines_map (c : MetadataCache) (commands : List Command) :
    ((∀ command ∈ commands, command.IsShort) →
      (performAll c commands).1 = (Memory.performAll c.find? commands).1 ∧
        (performAll c commands).2.find? = (Memory.performAll c.find? commands).2) ∧
    (∀ (command : Command) (e : Failure), (command.perform c).answer.failure? = some e →
      (∀ error, e ≠ .metadata (.unmatched error)) →
        (command.perform c).cache.entries = c.entries) ∧
    (∀ oracle key source method,
      (perform c (.isNullable oracle key source method)).cache =
        (perform c (.load oracle key source)).cache) ∧
    (∀ oracle key header method,
      (perform c (.isReturnTypeNullable oracle key (some header) method)).cache =
        (perform c (.load oracle key (.header header))).cache) ∧
    (∀ command : Command, command ≠ clear → ∀ key functions, c.find? key = some functions →
      (command.perform c).cache.find? key = some functions) ∧
    (∀ (oracle : Oracle) key (source other : Source), source.Rejected oracle.baseline →
      source.version = other.version → source.kind = other.kind →
        oracle.load c key source.data = oracle.load c key other.data) ∧
    (clear ∉ commands → ∀ key, decodings key c commands ≤ 1) := by
  refine ⟨performAll_refines c, fun command e => entries_of_failure, ?_, ?_, ?_, ?_, ?_⟩
  · exact fun oracle key source method => Oracle.answer_cache _ method
  · exact fun oracle key header method => Oracle.answer_cache _ method
  · exact fun command hclear key functions => find?_perform_of_some hclear
  · exact fun oracle key source other => oracle.load_of_rejected c key
  · exact fun hclear key => decodings_le_one hclear key

/-- A class without functions that one oracle rejects is there for it when another oracle has
decoded it. -/
theorem performAll_refines_map_shared :
    let source : Source := .payload [0] [] ⟨2, 1, 0, true⟩ 1
    let ahead : Command := .load ⟨⟨2, 1, 0⟩⟩ "com.example.Empty" source
    let behind : Command := .load ⟨⟨2, 0, 0⟩⟩ "com.example.Empty" source
    (∀ command ∈ [behind, ahead, behind], command.IsShort) ∧
      (performAll {} [behind, ahead, behind]).1 =
        [.functions (.error (.metadata (.incompatibleVersion ⟨2, 1, 0, true⟩))),
          .functions (.ok []), .functions (.ok [])] ∧
      decodings "com.example.Empty" {} [behind, ahead, behind] ≤ 1 := by
  intro source ahead behind
  have hrefines := performAll_refines_map {} [behind, ahead, behind]
  have hdecoding : Metadata.decoding [0] [] = ⟨some 0, [], none⟩ := by decide +kernel
  have hdecoded : source.verdict "com.example.Empty" ⟨2, 1, 0⟩ = .ok [] := by
    change (Metadata.decode [0] []).mapError Failure.ofDecodeError = .ok []
    rw [Metadata.decode, hdecoding]
    rfl
  have hrejected : source.verdict "com.example.Empty" ⟨2, 0, 0⟩ =
      .error (.metadata (.incompatibleVersion ⟨2, 1, 0, true⟩)) := rfl
  have hahead : ahead.IsShort := Source.isShort_of_lt (by decide)
  have hbehind : behind.IsShort := Source.isShort_of_lt (by decide)
  have hshort : ∀ command ∈ [behind, ahead, behind], command.IsShort := by
    simp [hahead, hbehind]
  refine ⟨hshort, (hrefines.1 hshort).1.trans ?_,
    hrefines.2.2.2.2.2.2 (by simp [ahead, behind]) _⟩
  simp [Memory.performAll, Memory.perform, Memory.load, ahead, behind, hdecoded, hrejected,
    Cache.find?]

/-- A question that fails because no function matches does not leave the entries as they were, when
its declaring type was not in the cache. And a kind that is too long to be written is not refused for
what it is. -/
theorem isNullable_unmatched_remembers :
    let o : Oracle := ⟨⟨1, 9, 0⟩⟩
    let source : Source := .payload [0] [] ⟨1, 9, 0, false⟩ 1
    let ask : Command := .isNullable o "com.example.Empty" source ⟨"f", [], ⟨"void"⟩⟩
    let kind : Int := 10 ^ Numeral.digitLimit
    let load : Command := .load o "com.example.Odd" (.payload [0] [] ⟨1, 9, 0, false⟩ kind)
    (ask.perform {}).answer = .nullable (.error (.metadata (.unmatched (.absent "f()V")))) ∧
      (ask.perform {}).cache.entries ≠ ({} : MetadataCache).entries ∧
      (load.perform {}).answer = .functions (.error .unwritable) ∧
      (load.perform {}).answer ≠ .functions (.error (.metadata (.wrongKind kind))) := by
  intro o source ask kind load
  have hasked := perform_refines {} (show ask.IsShort from Source.isShort_of_lt (by decide))
  have hdecoding : Metadata.decoding [0] [] = ⟨some 0, [], none⟩ := by decide +kernel
  have hverdict : source.verdict "com.example.Empty" o.baseline = .ok [] := by
    change (Metadata.decode [0] []).mapError Failure.ofDecodeError = .ok []
    rw [Metadata.decode, hdecoding]
    rfl
  have hremembered : Memory.perform (Cache.find? {}) ask =
      (Answer.nullable (.error (.metadata (.unmatched (.absent "f()V")))),
        Function.update (Cache.find? {}) (Text.ofString "com.example.Empty") (some [])) := by
    simp only [ask, Memory.perform, Memory.load, hverdict]
    rfl
  rw [hremembered] at hasked
  have hload : (load.perform {}).answer = .functions (.error .unwritable) :=
    congrArg Answer.functions (o.load_of_kind_unwritable rfl rfl Numeral.isWritable_pow)
  refine ⟨hasked.1, fun hentries => ?_, hload, fun h => ?_⟩
  · have hfound := congrFun hasked.2 (Text.ofString "com.example.Empty")
    dsimp only at hfound
    rw [Function.update_self, Cache.find?, hentries] at hfound
    cases hfound
  · rw [hload] at h
    cases h

end Command

end KotlinNullability
