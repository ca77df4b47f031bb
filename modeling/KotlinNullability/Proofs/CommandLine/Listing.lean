import KotlinNullability.Proofs.CommandLine.Arguments
import KotlinNullability.Proofs.CommandLine.Exit
import KotlinNullability.Proofs.Metadata.Keys
import KotlinNullability.Proofs.Path

/-!
# The listing and the question

A run lists the functions of a header file, one line each, or answers a question about one of them.
Where it lists them, it answers every question with a descriptor by what the listing says: with
`true` or `false` if exactly one function has the key, as its line shows something or nothing of
note, and not at all otherwise.

A line begins with the key of its function, or with its name if there is no key. Where interned
strings are no texts a key may also be an empty value or zero, and then the line begins with the
name too.
-/

namespace KotlinNullability

namespace Attempt

variable {key : Text} {baseline : Baseline} {header : Header} {functions : List Function}

/-- The functions of a header are decoded from its payload. -/
theorem decode_of_ofHeader (h : (ofHeader key header).result = .ok functions) :
    ∃ payload, header.payload = .ok payload ∧
      Metadata.decode payload header.data2 = .ok functions := by
  unfold ofHeader at h
  split at h
  · cases h
  · dsimp only at h
    split at h
    · cases h
    · cases h
    · next bytes _ hpayload =>
      dsimp only at h
      rw [ofPayload_result] at h
      refine ⟨bytes, hpayload, ?_⟩
      cases hdecode : Metadata.decode bytes header.data2 with
      | error e =>
        rw [hdecode] at h
        cases h
      | ok decoded =>
        rw [hdecode] at h
        cases h
        rfl

/-- The functions that a header gives past the gate are decoded from its payload. -/
theorem decode_of_ofData (h : (ofData key baseline (.header header)).result = .ok functions) :
    ∃ payload, header.payload = .ok payload ∧
      Metadata.decode payload header.data2 = .ok functions := by
  unfold ofData at h
  dsimp only at h
  split at h
  · cases h
  · rw [gate_result, Numeral.worded] at h
    split at h
    · split at h
      · cases h
      · split at h
        · cases h
        · exact decode_of_ofHeader h
    · cases h

end Attempt

namespace CommandLine

namespace Report

/-- The report of the functions that were loaded. -/
def ofFunctions (s : Surroundings) (config : Config) (functions : List Function) : Report :=
  match config.method with
  | some method => ofQuestion s functions method
  | none => ofListing s config.headerFile functions

/-- The line of a function shows a mark behind its title. -/
def Shows (f : Function) (mark : Text) : Prop := line f = title f ++ "\t" ++ mark ++ "\n"

/-- The marks of return types that are nullable or `kotlin/Unit`. -/
def marks : List Text := ["nullable", "unit", "nullable,unit"]

theorem shows_iff {f : Function} {mark : Text} : Shows f mark ↔ flags f.returnType = mark := by
  rw [Shows, line, List.append_left_inj, List.append_right_inj]

/-- The line of a function shows one of the marks exactly if it returns such a type. -/
theorem exists_mark_iff {f : Function} :
    (∃ mark ∈ marks, Shows f mark) ↔ f.returnsNullableOrUnit = true := by
  obtain ⟨_, ⟨nullable, _, isUnit⟩, _, _, _⟩ := f
  simp only [shows_iff, marks, Function.returnsNullableOrUnit, flags]
  cases nullable <;> cases isUnit <;> decide

/-- The line of a function shows a dash exactly if it returns no such type. -/
theorem shows_dash_iff {f : Function} : Shows f "-" ↔ f.returnsNullableOrUnit = false := by
  obtain ⟨_, ⟨nullable, _, isUnit⟩, _, _, _⟩ := f
  simp only [shows_iff, Function.returnsNullableOrUnit, flags]
  cases nullable <;> cases isUnit <;> decide

/-- What the line of a function begins with: its key, or its name if there is no signature. A key
that is no text and is empty or zero gives way to the name. -/
structure Titled (f : Function) : Prop where
  unsigned : f.signature = none → title f = f.name.display
  signed : f.signature ≠ none → ∃ key, f.key = some key ∧
    ((∃ t, key = .text t) ∨ key.isVoid = false → title f = key.display) ∧
    ((∀ t, key ≠ .text t) → key.isVoid = true → title f = f.name.display)

/-- The line of a function whose key belongs to it begins with the key. -/
theorem titled_of_keyed {f : Function} (h : f.Keyed) : Titled f where
  unsigned hsignature := by
    rw [title, label, h.none_iff.mpr hsignature]
  signed hsignature := by
    obtain ⟨key, hkey⟩ := Option.ne_none_iff_exists'.mp (mt h.none_iff.mp hsignature)
    refine ⟨key, hkey, fun hkind => ?_, fun _ hvoid => ?_⟩
    · rw [title, label, hkey]
      dsimp only
      cases hvoid : key.isVoid with
      | false => rfl
      | true =>
        obtain ⟨t, rfl⟩ : ∃ t, key = .text t := hkind.resolve_right (by rw [hvoid]; simp)
        -- A key that is an empty text joins two empty texts, one of which is the name.
        obtain ⟨name, descriptor, hname, ht⟩ := h.text hkey
        obtain rfl : t = [] := List.isEmpty_iff.mp hvoid
        obtain ⟨rfl, -⟩ := List.append_eq_nil_iff.mp ht.symm
        rw [hname]
        rfl
    · rw [title, label, hkey]
      dsimp only
      rw [if_pos hvoid]

/-- A header file whose functions are loaded is reported on by its functions. -/
theorem ofFile_of_load {s : Surroundings} {plan : Plan} {header : Header} {baseline : Baseline}
    {functions : List Function} (hreads : plan.Reads s header baseline)
    (hload : plan.load header baseline = .ok functions) :
    (ofFile s plan.environment plan.config plan.content).exit =
        (ofFunctions s plan.config functions).exit ∧
      (ofFile s plan.environment plan.config plan.content).output =
        (ofFunctions s plan.config functions).output := by
  have hresult :
      ((Oracle.mk baseline).load {} plan.config.headerFile.stem (.header header)).result =
        .ok functions := hload
  simp only [ofFile, exit_after, output_after, hreads.header, hreads.baseline, ofHeader,
    hreads.create_eq, hresult]
  exact ⟨rfl, rfl⟩

end Report

/-- The only function with a key. -/
def Only (functions : List Function) (key : Text) (f : Function) : Prop :=
  functions.filter (fun f => f.key = some (.text key)) = [f]

/-- An outcome answers a question about a key by what the lines of the functions show. -/
structure Answers (functions : List Function) (key : Text) (outcome : Outcome) : Prop where
  yes : (outcome.exit = .status 0 ∧ outcome.output = Text.ofString "true\n") ↔
    ∃ f, Only functions key f ∧ ∃ mark ∈ Report.marks, Report.Shows f mark
  no : (outcome.exit = .status 0 ∧ outcome.output = Text.ofString "false\n") ↔
    ∃ f, Only functions key f ∧ Report.Shows f "-"
  otherwise : (¬ ∃ f, Only functions key f ∧ ∃ mark ∈ Report.marks, Report.Shows f mark) →
    (¬ ∃ f, Only functions key f ∧ Report.Shows f "-") →
      outcome.exit = .status 1 ∧ outcome.output = []

theorem find_eq_ok_iff {functions : List Function} {key : Text} {f : Function} :
    Function.find functions key = .ok f ↔ Only functions key f := by
  rw [Function.find, Only]
  generalize functions.filter (fun f => f.key = some (.text key)) = candidates
  match candidates with
  | [] => simp
  | [g] => simp
  | _ :: _ :: _ => simp

/-- The word for a truth value tells which one it is. -/
theorem answerWord_eq_iff {a b : Bool} :
    Report.answerWord a ++ Text.ofString "\n" = Report.answerWord b ++ Text.ofString "\n" ↔
      a = b := by
  cases a <;> cases b <;> decide

/-- The report on a question answers it. -/
theorem answers_of_ofQuestion {s : Surroundings} {functions : List Function} {key : Text}
    {outcome : Outcome} (hexit : outcome.exit = (Report.ofQuestion s functions key).exit)
    (houtput : outcome.output = (Report.ofQuestion s functions key).output) :
    Answers functions key outcome := by
  cases hfind : Function.find functions key with
  | ok f =>
    rw [Report.ofQuestion_of_find hfind] at hexit houtput
    have honly : ∀ g, Only functions key g ↔ g = f := by
      intro g
      rw [← find_eq_ok_iff, hfind, Except.ok.injEq, eq_comm]
    have hanswer (b : Bool) : (outcome.exit = .status 0 ∧
        outcome.output = Report.answerWord b ++ Text.ofString "\n") ↔
          f.returnsNullableOrUnit = b := by
      rw [hexit, houtput, answerWord_eq_iff]
      exact and_iff_right rfl
    have hyes : (∃ g, Only functions key g ∧ ∃ mark ∈ Report.marks, Report.Shows g mark) ↔
        f.returnsNullableOrUnit = true := by
      simp only [honly, Report.exists_mark_iff, exists_eq_left]
    have hno : (∃ g, Only functions key g ∧ Report.Shows g "-") ↔
        f.returnsNullableOrUnit = false := by
      simp only [honly, Report.shows_dash_iff, exists_eq_left]
    refine ⟨(hanswer true).trans hyes.symm, (hanswer false).trans hno.symm, fun hmark hdash => ?_⟩
    rw [hyes] at hmark
    rw [hno] at hdash
    exact absurd (Bool.eq_false_iff.mpr hmark) hdash
  | error e =>
    rw [(Report.ofQuestion_of_find_error hfind).1] at hexit
    rw [(Report.ofQuestion_of_find_error hfind).2] at houtput
    have hnone : ∀ g, ¬ Only functions key g := by
      intro g hg
      rw [find_eq_ok_iff.mpr hg] at hfind
      cases hfind
    have hstatus : outcome.exit ≠ .status 0 := by simp [hexit]
    have hyes : ¬ ∃ g, Only functions key g ∧ ∃ mark ∈ Report.marks, Report.Shows g mark :=
      not_exists.mpr fun g h => hnone g h.1
    have hno : ¬ ∃ g, Only functions key g ∧ Report.Shows g "-" :=
      not_exists.mpr fun g h => hnone g h.1
    exact ⟨iff_of_false (fun h => hstatus h.1) hyes, iff_of_false (fun h => hstatus h.1) hno,
      fun _ _ => ⟨hexit, houtput⟩⟩

/-- A plan that is carried out with its functions loaded ends as they are reported on. -/
theorem carryOut_of_load {s : Surroundings} {tree : FileTree} {plan : Plan} {header : Header}
    {baseline : Baseline} {functions : List Function}
    (hlogDirectory : ∃ made, tree.makeDirectory s.depth plan.config.logDirectory = .ok made)
    (hlog : plan.LogFits s tree) (hreads : plan.Reads s header baseline)
    (hload : plan.load header baseline = .ok functions) :
    (carryOut s tree plan).exit = (Report.ofFunctions s plan.config functions).exit ∧
      (carryOut s tree plan).output = (Report.ofFunctions s plan.config functions).output := by
  obtain ⟨made, hmake⟩ := hlogDirectory
  obtain ⟨⟨journal, after, greeting⟩, hstart⟩ :=
    Log.Journal.exists_start hmake (hlog made hmake) plan.config.verbose
  rw [carryOut, hstart]
  exact Report.ofFile_of_load hreads hload

/-- A run with status 0 has a configured plan that was carried out. -/
theorem exists_plan_of_status {s : Surroundings} {words : List Text} {arguments : Arguments}
    {env : Environment} {tree : FileTree} (hwords : Arguments.read s.dialect words = .ok arguments)
    (hexit : (run s words env tree).exit = .status 0) :
    ∃ plan, configure s arguments env tree = .ok plan ∧
      run s words env tree = carryOut s tree plan := by
  rw [run, hwords] at hexit ⊢
  dsimp only at hexit ⊢
  cases hplan : configure s arguments env tree with
  | ok plan => exact ⟨plan, rfl, rfl⟩
  | error e =>
    rw [hplan] at hexit
    dsimp only at hexit
    split at hexit <;> cases hexit

/-- A plan that is carried out with status 0 has a log directory that can be made. -/
theorem exists_makeDirectory_of_status {s : Surroundings} {tree : FileTree} {plan : Plan}
    (hexit : (carryOut s tree plan).exit = .status 0) :
    ∃ made, tree.makeDirectory s.depth plan.config.logDirectory = .ok made := by
  cases hmake : tree.makeDirectory s.depth plan.config.logDirectory with
  | ok made => exact ⟨made, rfl⟩
  | error e =>
    have hstart : Log.Journal.start s.depth s.stamps tree plan.config.logDirectory plan.config.verbose {} =
        .error e := by
      simp only [Log.Journal.start, hmake, bind, Except.bind]
    rw [carryOut, hstart] at hexit
    cases hexit

/-- The plan of a run has the configuration of arguments and environment, and it was checked. -/
theorem check_of_configure {s : Surroundings} {arguments : Arguments} {env environment : Environment}
    {tree : FileTree} {plan : Plan} (h : configure s arguments env tree = .ok plan)
    (hload : env.load s.variableReader tree Environment.variableFile = .ok environment) :
    plan.environment = environment ∧ plan.config = configOf arguments environment ∧
      plan.config.check tree = .ok plan.content := by
  rw [configure, hload] at h
  dsimp only at h
  cases hcheck : (configOf arguments environment).check tree with
  | error fault =>
    rw [hcheck] at h
    cases h
  | ok content =>
    rw [hcheck] at h
    cases h
    exact ⟨rfl, rfl, hcheck⟩

end CommandLine

namespace Config

variable {config : Config} {tree : FileTree} {content : List UInt8}

/-- A configuration that passes has its header file. -/
theorem look_of_check (h : config.check tree = .ok content) :
    tree.look config.headerFile = .ok (some (.file content)) := by
  unfold check at h
  split at h
  · cases h
  · cases h
  · cases h
  · cases h
  · next found hlook =>
    rw [hlook]
    split at h
    · cases h
      rfl
    · split at h
      · cases h
        rfl
      · cases h

/-- A configuration that passes may as well ask for any method with a descriptor. -/
theorem check_method (h : config.check tree = .ok content) {method : Text}
    (hmethod : CodePoint.ofChar '(' ∈ method) :
    { config with method := some method : Config }.check tree = .ok content := by
  rw [check, look_of_check h]
  exact if_pos hmethod

end Config

namespace CommandLine

section

variable {s : Surroundings} {plan : Plan} {tree : FileTree} {header : Header}
  {baseline : Baseline} {functions : List Function}

/-- The same surroundings at another moment. -/
def Surroundings.atMoment (s : Surroundings) (stamps : Log.Stamps) : Surroundings :=
  { s with stamps }

/-- The moment does not matter to the configuration. -/
theorem configure_atMoment (s : Surroundings) (stamps : Log.Stamps) (arguments : Arguments)
    (env : Environment) (tree : FileTree) :
    configure (s.atMoment stamps) arguments env tree = configure s arguments env tree := rfl

/-- The plan that asks for a method instead. -/
def Plan.asking (plan : Plan) (key : Text) : Plan :=
  { plan with config := { plan.config with method := some key } }

/-- The functions that a plan loads are decoded from the payload of its header. -/
theorem Plan.decode_of_load (h : plan.load header baseline = .ok functions) :
    ∃ payload, header.payload = .ok payload ∧
      Metadata.decode payload header.data2 = .ok functions := by
  rw [Plan.load, Oracle.load_of_find?_none _ rfl] at h
  exact Attempt.decode_of_ofData h

/-- A question about the header file of a plan is carried out like the plan, at any moment whose log
file is spelled alike. -/
theorem carryOut_asking_answers {later : Log.Stamps} (key : Text)
    (hlogDirectory : ∃ made, tree.makeDirectory s.depth plan.config.logDirectory = .ok made)
    (hlog : plan.LogFits s tree) (hlater : s.stamps.Alike later)
    (hreads : plan.Reads s header baseline) (hload : plan.load header baseline = .ok functions) :
    Answers functions key (carryOut (s.atMoment later) tree (plan.asking key)) := by
  have hmadeAsking : ∃ made, tree.makeDirectory (s.atMoment later).depth
      (plan.asking key).config.logDirectory = .ok made := hlogDirectory
  have hlogAsking : (plan.asking key).LogFits (s.atMoment later) tree := fun made hmake =>
    (hlater.isLongPath_eq made.2).symm.trans (hlog made hmake)
  have hreadsAsking : (plan.asking key).Reads (s.atMoment later) header baseline :=
    ⟨hreads.header, hreads.baseline⟩
  have hloadAsking : (plan.asking key).load header baseline = .ok functions := hload
  obtain ⟨hexit, houtput⟩ := carryOut_of_load hmadeAsking hlogAsking hreadsAsking hloadAsking
  exact answers_of_ofQuestion hexit houtput

/-- A question with a descriptor is configured like the run whose arguments do not ask it. -/
theorem configure_asking {arguments : Arguments} {env environment : Environment}
    {key : Text} (h : configure s arguments env tree = .ok plan)
    (hload : env.load s.variableReader tree Environment.variableFile = .ok environment)
    (hkey : CodePoint.ofChar '(' ∈ key) :
    configure s { arguments with method := some key } env tree = .ok (plan.asking key) := by
  obtain ⟨henvironment, hconfig, hcheck⟩ := check_of_configure h hload
  have hasking : configOf { arguments with method := some key } environment =
      (plan.asking key).config := by
    rw [Plan.asking, hconfig]
    rfl
  have hcheckAsking : (plan.asking key).config.check tree = .ok plan.content :=
    Config.check_method hcheck hkey
  rw [configure, hload]
  dsimp only
  rw [hasking, hcheckAsking, ← henvironment]
  rfl

end

/-- A run about a header file alone that ends with status 0 lists the functions that were decoded,
each on one line, in order of declaration. Every run about the same file and a key with a descriptor
answers by what the lines show. -/
theorem listing_answers (s : Surroundings) (later : Log.Stamps) {file : Text}
    {env environment : Environment} {tree : FileTree}
    (hfile : Arguments.read s.dialect [file] = .ok { headerFile := some file })
    (hload : env.load s.variableReader tree Environment.variableFile = .ok environment)
    (hmethod : environment.get? Environment.methodVariable = none)
    (hexit : (run s [file] env tree).exit = .status 0) (hlater : s.stamps.Alike later) :
    ∃ header payload functions,
      (∃ content, tree.look (Path.read file) = .ok (some (.file content)) ∧
        Header.ofFile s.nesting content = .ok header) ∧
      header.payload = .ok payload ∧ Metadata.decode payload header.data2 = .ok functions ∧
      (run s [file] env tree).output = functions.flatMap Report.line ∧
      (∀ f ∈ functions, Report.Titled f ∧
        ((∃ mark ∈ Report.marks, Report.Shows f mark) ∨ Report.Shows f "-")) ∧
      ((∀ item ∈ header.data2, ∃ t, item = .text t) →
        ∀ f ∈ functions, ∀ key, f.key = some key → ∃ t, key = .text t) ∧
      ∀ key, CodePoint.ofChar '(' ∈ key →
        Answers functions key
          (run (s.atMoment later) [file, "--method=" ++ key] env tree) := by
  obtain ⟨plan, hplan, hrun⟩ := exists_plan_of_status hfile hexit
  obtain ⟨-, hconfig, hcheck⟩ := check_of_configure hplan hload
  rw [hrun] at hexit ⊢
  -- The listing run had an answer, so its functions were loaded.
  have hlook := Config.look_of_check hcheck
  have hlogDirectory := exists_makeDirectory_of_status hexit
  obtain ⟨hlog, header, baseline, functions, hreads, hfunctions, hsatisfied⟩ :=
    (carryOut_ends s ⟨⟨_, hlook⟩, hlogDirectory⟩).zero_iff.mp hexit
  obtain ⟨payload, hpayload, hdecode⟩ := Plan.decode_of_load hfunctions
  have hpath : plan.config.headerFile = Path.read file := by rw [hconfig]; rfl
  have hnone : plan.config.method = none := by
    rw [hconfig, configOf, Config.override, Config.ofEnvironment, hmethod]
    rfl
  refine ⟨header, payload, functions, ⟨plan.content, hpath ▸ hlook, hreads.header⟩, hpayload,
    hdecode, ?_, fun f hf => ⟨?_, ?_⟩, fun htexts => ?_, fun key hkey => ?_⟩
  · have houtput := (carryOut_of_load hlogDirectory hlog hreads hfunctions).2
    rw [Plan.Satisfied, hnone] at hsatisfied
    rw [Report.ofFunctions, hnone] at houtput
    dsimp only [Report.ofListing] at houtput
    rw [Report.printedLines_of_prints hsatisfied] at houtput
    exact houtput
  · exact Report.titled_of_keyed (Metadata.keyed_of_decode hdecode f hf)
  · rw [Report.exists_mark_iff, Report.shows_dash_iff]
    cases f.returnsNullableOrUnit <;> simp
  · obtain ⟨texts, htexts⟩ := Header.exists_map_text htexts
    rw [htexts] at hdecode
    exact Metadata.text_of_decode hdecode
  · have hseparator : key ≠ Text.ofString "--" := by
      rintro rfl
      exact absurd hkey (by decide)
    have hwords : Arguments.read (s.atMoment later).dialect [file, "--method=" ++ key] =
        .ok { headerFile := some file, method := some key } := read_methodWord hfile hseparator
    have hasking : configure (s.atMoment later) { headerFile := some file, method := some key } env
        tree = .ok (plan.asking key) := by
      rw [configure_atMoment, configure_asking hplan hload hkey]
    have hquestion : run (s.atMoment later) [file, "--method=" ++ key] env tree =
        carryOut (s.atMoment later) tree (plan.asking key) := by
      rw [run, hwords]
      dsimp only
      rw [hasking]
    rw [hquestion]
    exact carryOut_asking_answers key hlogDirectory hlog hlater hreads hfunctions

/-- A class with a function that returns a nullable type, and one without a signature. -/
def twoFunctions : Text :=
  "\x7b\"kind\": 1, \"metadata_version\": [1, 9, 0], \"data2\": [\"f\", \"()V\", \"g\"], " ++
  "\"data1\": [\"" ++
  "\\u0000\\u0006\\n\\u0000\\n\\u0000\\n\\u0000J\\r\\u0010\\u0000\\u001a\\u0002\\u0018\\u0001" ++
  "\\u00a2\\u0006\\u0004\\b\\u0000\\u0010\\u0001J\\u0002\\u0010\\u0002\"]\x7d"

/-- Another moment. -/
def nextDay : Log.Stamps := ⟨"19700102_000000", "1970-01-02 00:00:00", "0.000"⟩

/-- The listing of the two functions, and the answer to a question about the first one. -/
theorem listing_answers_two :
    let tree := treeOf twoFunctions
    Arguments.read quiet.dialect ["header.json"] = .ok { headerFile := some "header.json" } ∧
      (run quiet ["header.json"] [] tree).exit = .status 0 ∧
      (run quiet ["header.json"] [] tree).output = Text.ofString "f()V\tnullable\ng\t-\n" ∧
      quiet.stamps.Alike nextDay ∧
      ∃ functions, (run quiet ["header.json"] [] tree).output = functions.flatMap Report.line ∧
        Answers functions "f()V"
          (run (quiet.atMoment nextDay) ["header.json", "--method=" ++ "f()V"] [] tree) := by
  intro tree
  have hfile : Arguments.read quiet.dialect ["header.json"] = .ok { headerFile := some "header.json" } := by
    decide +kernel
  obtain ⟨hexit, houtput⟩ : (run quiet ["header.json"] [] tree).exit = .status 0 ∧
      (run quiet ["header.json"] [] tree).output = Text.ofString "f()V\tnullable\ng\t-\n" := by
    decide +kernel
  have hlater : quiet.stamps.Alike nextDay := by decide +kernel
  obtain ⟨_, _, functions, -, -, -, hlines, -, -, hanswers⟩ :=
    listing_answers quiet nextDay hfile rfl rfl hexit hlater
  exact ⟨hfile, hexit, houtput, hlater, functions, hlines, hanswers "f()V" (by decide)⟩

/-- A class with interned numbers in the place of strings, which add up to zero. -/
def zeroKey : Text :=
  "\x7b\"kind\": 1, \"metadata_version\": [1, 9, 0], \"data2\": [1, -1], \"data1\": [\"" ++
  "\\u0000\\u0004\\n\\u0000\\n\\u0000J\\t\\u0010\\u0000" ++
  "\\u00a2\\u0006\\u0004\\b\\u0000\\u0010\\u0001\"]\x7d"

/-- The header of that class. -/
def zeroHeader : Header where
  kind := 1
  versionParts := [1, 9, 0]
  data1 := [.text "\u0000\u0004\n\u0000\n\u0000J\t\u0010\u0000¢\u0006\u0004\u0008\u0000\u0010\u0001"]
  data2 := [.whole 1, .whole (-1)]

/-- The function has a signature and the key zero, but its line begins with the name. -/
theorem listing_begins_with_name :
    let tree := treeOf zeroKey
    let f : Function := ⟨0, {}, some ⟨0, 1⟩, .whole 1, some (.whole 0)⟩
    Header.ofFile quiet.nesting (Utf8.encode zeroKey) = .ok zeroHeader ∧
      (∃ payload, zeroHeader.payload = .ok payload ∧
        Metadata.decode payload zeroHeader.data2 = .ok [f]) ∧
      (run quiet ["header.json"] [] tree).exit = .status 0 ∧
      (run quiet ["header.json"] [] tree).output = Text.ofString "1\t-\n" ∧
      (run quiet ["header.json"] [] tree).output ≠ (Json.whole 0).display ++ "\t-\n" := by
  intro tree f
  obtain ⟨hexit, houtput⟩ : (run quiet ["header.json"] [] tree).exit = .status 0 ∧
      (run quiet ["header.json"] [] tree).output = Text.ofString "1\t-\n" := by
    decide +kernel
  refine ⟨by decide +kernel, ⟨_, rfl, by decide +kernel⟩, hexit, houtput, ?_⟩
  rw [houtput]
  decide +kernel

end CommandLine

end KotlinNullability
