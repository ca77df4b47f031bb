import KotlinNullability.CommandLine
import KotlinNullability.Config.Dotenv
import KotlinNullability.Proofs.Config.Baseline
import KotlinNullability.Proofs.Header.Numbers
import KotlinNullability.Proofs.Metadata.Wording
import KotlinNullability.Proofs.Oracle.Errors

/-!
# How a run ends

A run whose header file is there and whose log directory can be made ends with status 0, with status
1, or with an escape. With status 1 it shows its user nothing, and neither does it with an escape, but
for the one from a listing that breaks off at a line that is not printed. The main statement says for
each of these ends when it comes: status 0 when there is an answer and it is printed, an escape when
one of a few failures comes first, and status 1 otherwise. The failures that escape are a variable
file that is given up, a name of the log file that is too long, a header file with values of unsuitable
types, with infinite numbers or nested too deep, a configured baseline that is none, a version without
a number, strings that are no texts, and a line that is not printed.
-/

namespace KotlinNullability

namespace Header

/-- The errors of a header file that have no wording: excessive nesting, and values that cannot pass
for the numbers and arrays that they should be. -/
theorem FileError.message?_eq_none_iff (wording : Wording) (error : FileError) :
    error.message? wording = none ↔
      error = .json .tooDeep ∨ error = .header (.conversion .unsuitable) ∨
        error = .header (.conversion .infinite) := by
  rcases error with _ | (_ | _ | _) | _ | (_ | (_ | _ | _ | _ | _)) <;>
    simp [message?, HeaderError.message?, Json.ConversionError.message?]

/-- Items that all are texts are a list of texts. -/
theorem exists_map_text {items : List Json} (h : ∀ item ∈ items, ∃ t, item = .text t) :
    ∃ texts : List Text, items = texts.map .text := by
  induction items with
  | nil => exact ⟨[], rfl⟩
  | cons item items ih =>
    obtain ⟨t, rfl⟩ := h item List.mem_cons_self
    obtain ⟨texts, rfl⟩ := ih fun item hitem => h item (List.mem_cons_of_mem _ hitem)
    exact ⟨t :: texts, rfl⟩

/-- A header with nothing but texts in its arrays is one of texts. -/
theorem exists_eq_ofTexts {header : Header}
    (h : ∀ item ∈ header.data1 ++ header.data2, ∃ t, item = .text t) :
    ∃ data1 data2, header =
      ofTexts header.kind header.versionParts data1 data2 header.extraInt := by
  obtain ⟨data1, hdata1⟩ := exists_map_text fun item hitem => h item (List.mem_append_left _ hitem)
  obtain ⟨data2, hdata2⟩ := exists_map_text fun item hitem => h item (List.mem_append_right _ hitem)
  exact ⟨data1, data2, by rw [ofTexts, ← hdata1, ← hdata2]⟩

end Header

namespace Log.Journal

variable {depth : Nat} {stamps : Stamps} {tree : FileTree} {directory : Path}
  {made : FileTree × Location}

/-- A closed journal starts in a directory that can be made, if the name of its file is short. -/
theorem exists_start (hmake : tree.makeDirectory depth directory = .ok made)
    (hfits : FileTree.isLongPath ⟨.root, made.2 ++ [fileName stamps.file]⟩ = false)
    (verbose : Bool) : ∃ started, start depth stamps tree directory verbose {} = .ok started := by
  simp only [start, hmake, bind, Except.bind, hfits]
  exact ⟨_, rfl⟩

/-- A closed journal does not start if the name of its file is too long. -/
theorem start_tooLong (hmake : tree.makeDirectory depth directory = .ok made)
    (hlong : FileTree.isLongPath ⟨.root, made.2 ++ [fileName stamps.file]⟩ = true)
    {verbose : Bool} : start depth stamps tree directory verbose {} = .error .tooLong := by
  simp only [start, hmake, bind, Except.bind, hlong]
  rfl

end Log.Journal

namespace Oracle

/-- What is made of a header with short numbers can be worded, if there is a version. -/
theorem worded_of_isShort {baseline : Baseline} {header : Header} (hheader : header.IsShort)
    (hbaseline : ∀ n ∈ baseline.parts, n.natAbs < 10 ^ Numeral.digitLimit)
    (hversion : header.versionParts ≠ []) : (Oracle.mk baseline).Worded header := by
  obtain ⟨hkind, hparts⟩ := List.forall_mem_cons.mp hheader
  have hzero : (0 : Int).natAbs < 10 ^ Numeral.digitLimit := Nat.pow_pos (by decide)
  obtain ⟨version, hsome, hshort⟩ : ∃ version, header.version? = some version ∧
      ∀ n ∈ version.parts, n.natAbs < 10 ^ Numeral.digitLimit := by
    unfold Header.version?
    generalize header.versionParts = parts at hversion hparts
    match parts with
    | [] => exact absurd rfl hversion
    | [major] =>
      refine ⟨_, rfl, ?_⟩
      simp_all [Version.parts]
    | [major, minor] =>
      refine ⟨_, rfl, ?_⟩
      simp_all [Version.parts]
    | major :: minor :: patch :: rest =>
      refine ⟨_, rfl, ?_⟩
      simp_all [Version.parts]
  refine ⟨version, hsome, fun n hn => ?_⟩
  unfold Attempt.gateNumbers at hn
  split at hn
  · exact (List.mem_append.mp hn).elim (hshort n) (hbaseline n)
  · split at hn
    · rwa [List.mem_singleton.mp hn]
    · cases hn

end Oracle

namespace CommandLine

/-- The header file of a configuration is there, and its log directory can be made. -/
structure Ready (s : Surroundings) (tree : FileTree) (config : Config) : Prop where
  headerFile : ∃ content, tree.look config.headerFile = .ok (some (.file content))
  logDirectory : ∃ made, tree.makeDirectory s.depth config.logDirectory = .ok made

namespace Report

/-- The line of the function is printed. -/
def Prints (s : Surroundings) (f : Function) : Prop :=
  ∃ line, printedLine s.encoding f = .ok line

section Lines

variable {s : Surroundings} {functions before after : List Function} {f : Function}
  {error : PrintError}

/-- A line that is printed is the line of the function. -/
theorem printedLine_of_prints (h : Prints s f) : printedLine s.encoding f = .ok (line f) := by
  obtain ⟨text, htext⟩ := h
  rw [htext]
  unfold printedLine printed at htext
  split at htext
  · split at htext <;> cases htext
    rfl
  · cases htext

/-- The lines in front of the first that is not printed are printed. -/
theorem printedLines_of_cut (hbefore : ∀ g ∈ before, Prints s g)
    (hline : printedLine s.encoding f = .error error) :
    printedLines s.encoding (before ++ f :: after) = (before.flatMap line, some error) := by
  induction before with
  | nil => simp [printedLines, hline]
  | cons g before ih =>
    obtain ⟨hg, hbefore⟩ := List.forall_mem_cons.mp hbefore
    simp only [List.cons_append, printedLines, printedLine_of_prints hg, ih hbefore,
      List.flatMap_cons]

/-- If every line is printed, nothing stops the listing. -/
theorem printedLines_of_prints (h : ∀ g ∈ functions, Prints s g) :
    printedLines s.encoding functions = (functions.flatMap line, none) := by
  induction functions with
  | nil => rfl
  | cons g functions ih =>
    obtain ⟨hg, hrest⟩ := List.forall_mem_cons.mp h
    simp only [printedLines, printedLine_of_prints hg, ih hrest, List.flatMap_cons]

/-- Either every line is printed, or there is a first that is not. -/
theorem prints_or_cut (s : Surroundings) (functions : List Function) :
    (∀ g ∈ functions, Prints s g) ∨ ∃ before f after error, functions = before ++ f :: after ∧
      (∀ g ∈ before, Prints s g) ∧ printedLine s.encoding f = .error error := by
  induction functions with
  | nil => exact .inl (List.forall_mem_nil _)
  | cons g functions ih =>
    cases hline : printedLine s.encoding g with
    | error error => exact .inr ⟨[], g, functions, error, rfl, List.forall_mem_nil _, hline⟩
    | ok text =>
      have hg : Prints s g := ⟨text, hline⟩
      obtain hall | ⟨before, f, after, error, rfl, hbefore, hf⟩ := ih
      · exact .inl (List.forall_mem_cons.mpr ⟨hg, hall⟩)
      · exact .inr ⟨g :: before, f, after, error, rfl,
          List.forall_mem_cons.mpr ⟨hg, hbefore⟩, hf⟩

/-- What stops a listing is what keeps the first line that is not printed from being so. -/
theorem printedLines_snd_eq_some_iff : (printedLines s.encoding functions).2 = some error ↔
    ∃ before f after, functions = before ++ f :: after ∧ (∀ g ∈ before, Prints s g) ∧
      printedLine s.encoding f = .error error := by
  constructor
  · intro h
    obtain hall | ⟨before, f, after, error', rfl, hbefore, hf⟩ := prints_or_cut s functions
    · rw [printedLines_of_prints hall] at h
      cases h
    · rw [printedLines_of_cut hbefore hf] at h
      cases h
      exact ⟨before, f, after, rfl, hbefore, hf⟩
  · rintro ⟨before, f, after, rfl, hbefore, hf⟩
    rw [printedLines_of_cut hbefore hf]

/-- Nothing stops a listing exactly if every line is printed. -/
theorem printedLines_snd_eq_none_iff :
    (printedLines s.encoding functions).2 = none ↔ ∀ f ∈ functions, Prints s f := by
  constructor
  · intro h
    obtain hall | ⟨before, f, after, error, rfl, hbefore, hf⟩ := prints_or_cut s functions
    · exact hall
    · rw [printedLines_of_cut hbefore hf] at h
      cases h
  · intro h
    rw [printedLines_of_prints h]

/-- An answer is printed. -/
theorem printed_answerWord (encoding : Encoding) (b : Bool) :
    printed encoding (answerWord b ++ "\n") = .ok (answerWord b ++ "\n") := by
  have hascii : ∀ c ∈ answerWord b ++ "\n", c.val < 0x80 := by
    cases b <;> simp [answerWord, Text.ofString]
  exact if_pos (List.all_eq_true.mpr fun c hc => encoding.ascii c (hascii c hc))

/-- A question about a method that is found is answered. -/
theorem ofQuestion_of_find {method : Text} (h : Function.find functions method = .ok f) :
    ofQuestion s functions method = ⟨[], answerWord f.returnsNullableOrUnit ++ "\n", .status 0⟩ := by
  rw [ofQuestion, h]
  dsimp only
  rw [printed_answerWord]

/-- A question about a method that is not found, or not alone, ends with status 1 and shows nothing. -/
theorem ofQuestion_of_find_error {method : Text} {e : MatchError}
    (h : Function.find functions method = .error e) :
    (ofQuestion s functions method).exit = .status 1 ∧
      (ofQuestion s functions method).output = [] := by
  rw [ofQuestion, h]
  exact ⟨rfl, rfl⟩

end Lines

end Report

namespace Plan

variable (s : Surroundings) (tree : FileTree) (plan : Plan)

/-- The name of the log file in the log directory is short enough to open it. -/
def LogFits : Prop :=
  ∀ made, tree.makeDirectory s.depth plan.config.logDirectory = .ok made →
    FileTree.isLongPath ⟨.root, made.2 ++ [Log.fileName s.stamps.file]⟩ = false

/-- The header that a plan reads, and its baseline. -/
@[mk_iff]
structure Reads (header : Header) (baseline : Baseline) : Prop where
  header : Header.ofFile s.nesting plan.content = .ok header
  baseline : plan.environment.baseline = .ok baseline

/-- The functions that an oracle loads for a plan. -/
def load (header : Header) (baseline : Baseline) : Except Failure (List Function) :=
  ((Oracle.mk baseline).load {} plan.config.headerFile.stem (.header header)).result

/-- The functions are what the plan asks for: if it asks for a method, it is one of them, and
otherwise the lines of all of them are printed. -/
def Satisfied (functions : List Function) : Prop :=
  match plan.config.method with
  | some method => ∃ f, Function.find functions method = .ok f
  | none => ∀ f ∈ functions, Report.Prints s f

/-- A plan has an answer: the functions are there, and they are what it asks for. -/
def Answers : Prop :=
  plan.LogFits s tree ∧ ∃ header baseline functions, plan.Reads s header baseline ∧
    plan.load header baseline = .ok functions ∧ plan.Satisfied s functions

/-- The failures of a plan that no status stands for. -/
inductive Escapes : Escape → Prop where
  | logFile (hlog : ¬ plan.LogFits s tree) : Escapes (.directory .tooLong)
  /-- The header file is nested too deep, or a field has an unsuitable type or is infinite. -/
  | headerFile {error : Header.FileError} (hlog : plan.LogFits s tree)
      (hread : Header.ofFile s.nesting plan.content = .error error)
      (herror : error = .json .tooDeep ∨ error = .header (.conversion .unsuitable) ∨
        error = .header (.conversion .infinite)) : Escapes (.headerFile error)
  | baseline {header : Header} {error : Baseline.ReadError} (hlog : plan.LogFits s tree)
      (hread : Header.ofFile s.nesting plan.content = .ok header)
      (hbaseline : plan.environment.baseline = .error error) : Escapes (.baseline error)
  | emptyVersion {header : Header} {baseline : Baseline} (hlog : plan.LogFits s tree)
      (hreads : plan.Reads s header baseline) (hversion : header.versionParts = []) :
      Escapes (.header .emptyVersion)
  /-- A value that is no text stands among the strings, and loading fails for its sake. -/
  | strings {header : Header} {baseline : Baseline} {failure : Failure} {item : Json}
      (hlog : plan.LogFits s tree) (hreads : plan.Reads s header baseline)
      (hitem : item ∈ header.data1 ++ header.data2) (htext : ∀ t, item ≠ .text t)
      (hload : plan.load header baseline = .error failure)
      (hfailure : (∃ e, failure = .payload e) ∨ ∃ e, failure = .misuse e) :
      Escapes (.header failure)
  /-- In a listing, the line of a function is not printed, and those before it are. -/
  | output {header : Header} {baseline : Baseline} {before after : List Function} {f : Function}
      {error : PrintError} (hlog : plan.LogFits s tree) (hreads : plan.Reads s header baseline)
      (hload : plan.load header baseline = .ok (before ++ f :: after))
      (hmethod : plan.config.method = none) (hbefore : ∀ g ∈ before, Report.Prints s g)
      (hline : Report.printedLine s.encoding f = .error error) : Escapes (.output error)

section Stages

variable {s : Surroundings} {tree : FileTree} {plan : Plan} {header : Header}
  {baseline : Baseline} {failure : Escape}

/-- The numbers of a configured baseline are short. -/
theorem Reads.baseline_isShort (hreads : plan.Reads s header baseline) :
    ∀ n ∈ baseline.parts, n.natAbs < 10 ^ Numeral.digitLimit :=
  (Baseline.read_eq_ok_iff.mp hreads.baseline).natAbs_lt

/-- The oracle of a plan can be made. -/
theorem Reads.create_eq (hreads : plan.Reads s header baseline) :
    Oracle.create baseline = .ok ⟨baseline⟩ :=
  Numeral.worded_eq (fun n hn => Numeral.isWritable_iff.mpr (hreads.baseline_isShort n hn)) ..

/-- What is made of the header of a plan can be worded. -/
theorem Reads.worded (hreads : plan.Reads s header baseline) (hversion : header.versionParts ≠ []) :
    (Oracle.mk baseline).Worded header :=
  Oracle.worded_of_isShort (Header.isShort_of_ofFile hreads.header) hreads.baseline_isShort hversion

/-- A version without a number keeps a plan from loading functions. -/
theorem load_of_versionParts_eq_nil (plan : Plan) (baseline : Baseline)
    (hversion : header.versionParts = []) : plan.load header baseline = .error .emptyVersion := by
  rw [load, (Oracle.mk baseline).load_of_find?_none rfl, Attempt.ofData, Header.version?, hversion]
  rfl

/-- Loading fails for the metadata's sake unless the version has no number or some string is no
text. -/
theorem exists_metadata_of_load {cause : Failure} (hreads : plan.Reads s header baseline)
    (hload : plan.load header baseline = .error cause) (hversion : header.versionParts ≠ [])
    (htexts : ∀ item ∈ header.data1 ++ header.data2, ∃ t, item = .text t) :
    ∃ error, cause = .metadata error := by
  obtain ⟨data1, data2, hheader⟩ := Header.exists_eq_ofTexts htexts
  have honly := (Oracle.mk baseline).onlyMetadataErrors_load_iff {} plan.config.headerFile.stem
    header.kind header.versionParts data1 data2 header.extraInt
  rw [← hheader] at honly
  exact honly.mpr (.inr (hreads.worded hversion)) cause hload

/-- Loading fails for the metadata's sake, for want of a version, or for the sake of the strings. -/
theorem cause_of_load {cause : Failure} (hreads : plan.Reads s header baseline)
    (hload : plan.load header baseline = .error cause) (hversion : header.versionParts ≠ [])
    (hcause : ∀ error, cause ≠ .metadata error) :
    (∃ e, cause = .payload e) ∨ ∃ e, cause = .misuse e := by
  obtain ⟨error, herror⟩ | hstrings :=
    Oracle.load_failure_of_worded _ _ _ (hreads.worded hversion) hload
  · exact absurd herror (hcause error)
  · exact hstrings

/-- When loading fails and the metadata is not at fault, the failure escapes. -/
theorem escapes_of_load {cause : Failure} (hlog : plan.LogFits s tree)
    (hreads : plan.Reads s header baseline) (hload : plan.load header baseline = .error cause)
    (hcause : ∀ error, cause ≠ .metadata error) : plan.Escapes s tree (.header cause) := by
  -- The version is met before any string is looked at.
  by_cases hversion : header.versionParts = []
  · have hempty := plan.load_of_versionParts_eq_nil baseline hversion
    obtain rfl : cause = .emptyVersion := Except.error.inj (hload.symm.trans hempty)
    exact .emptyVersion hlog hreads hversion
  · have hitem : ∃ item ∈ header.data1 ++ header.data2, ∀ t, item ≠ .text t := by
      by_contra! htexts
      obtain ⟨error, herror⟩ := exists_metadata_of_load hreads hload hversion htexts
      exact hcause error herror
    obtain ⟨item, hitem, htext⟩ := hitem
    exact .strings hlog hreads hitem htext hload (cause_of_load hreads hload hversion hcause)

/-- What escapes is told by the first stage that fails: starting the log, reading the header file,
reading the baseline, loading the functions, and printing them. -/
theorem escapes_iff : plan.Escapes s tree failure ↔
    (¬ plan.LogFits s tree ∧ failure = .directory .tooLong) ∨
    (plan.LogFits s tree ∧
      ((∃ error, Header.ofFile s.nesting plan.content = .error error ∧ failure = .headerFile error ∧
          (error = .json .tooDeep ∨ error = .header (.conversion .unsuitable) ∨
            error = .header (.conversion .infinite))) ∨
        (∃ header error, Header.ofFile s.nesting plan.content = .ok header ∧
          plan.environment.baseline = .error error ∧ failure = .baseline error) ∨
        (∃ header baseline cause, plan.Reads s header baseline ∧
          plan.load header baseline = .error cause ∧ (∀ error, cause ≠ .metadata error) ∧
          failure = .header cause) ∨
        ∃ header baseline functions error, plan.Reads s header baseline ∧
          plan.load header baseline = .ok functions ∧ plan.config.method = none ∧
          (Report.printedLines s.encoding functions).2 = some error ∧ failure = .output error)) := by
  constructor
  · intro hescapes
    cases hescapes with
    | logFile hlog => exact .inl ⟨hlog, rfl⟩
    | headerFile hlog hread herror => exact .inr ⟨hlog, .inl ⟨_, hread, rfl, herror⟩⟩
    | baseline hlog hread hbaseline =>
      exact .inr ⟨hlog, .inr (.inl ⟨_, _, hread, hbaseline, rfl⟩)⟩
    | @emptyVersion _ baseline hlog hreads hversion =>
      have hload := plan.load_of_versionParts_eq_nil baseline hversion
      exact .inr ⟨hlog, .inr (.inr (.inl ⟨_, _, _, hreads, hload, by simp, rfl⟩))⟩
    | strings hlog hreads _ _ hload hcause =>
      refine .inr ⟨hlog, .inr (.inr (.inl ⟨_, _, _, hreads, hload, fun error => ?_, rfl⟩))⟩
      rcases hcause with ⟨e, rfl⟩ | ⟨e, rfl⟩ <;> simp
    | @output _ _ before after f _ hlog hreads hload hmethod hbefore hline =>
      have hcut := Report.printedLines_snd_eq_some_iff.mpr
        ⟨before, f, after, rfl, hbefore, hline⟩
      exact .inr ⟨hlog, .inr (.inr (.inr ⟨_, _, _, _, hreads, hload, hmethod, hcut, rfl⟩))⟩
  · rintro (⟨hlog, rfl⟩ | ⟨hlog, ⟨error, hread, rfl, herror⟩ |
      ⟨header, error, hread, hbaseline, rfl⟩ | ⟨header, baseline, cause, hreads, hload, hcause, rfl⟩ |
      ⟨header, baseline, functions, error, hreads, hload, hmethod, hcut, rfl⟩⟩)
    · exact .logFile hlog
    · exact .headerFile hlog hread herror
    · exact .baseline hlog hread hbaseline
    · exact escapes_of_load hlog hreads hload hcause
    · obtain ⟨before, f, after, rfl, hbefore, hline⟩ :=
        Report.printedLines_snd_eq_some_iff.mp hcut
      exact .output hlog hreads hload hmethod hbefore hline

/-- When the name of the log file is too long, this is what escapes. -/
theorem escapes_iff_of_not_logFits (hlog : ¬ plan.LogFits s tree) (failure : Escape) :
    plan.Escapes s tree failure ↔ failure = .directory .tooLong := by
  simp [escapes_iff, hlog]

/-- When no header is read, the error escapes if it has no wording. -/
theorem escapes_headerFile_iff {error : Header.FileError} (hlog : plan.LogFits s tree)
    (hread : Header.ofFile s.nesting plan.content = .error error) (failure : Escape) :
    plan.Escapes s tree failure ↔
      failure = .headerFile error ∧ error.message? s.wording = none := by
  simp [escapes_iff, hlog, hread, reads_iff, Header.FileError.message?_eq_none_iff]

/-- When the header is read and the baseline is none, this is what escapes. -/
theorem escapes_baseline_iff {error : Baseline.ReadError} (hlog : plan.LogFits s tree)
    (hread : Header.ofFile s.nesting plan.content = .ok header)
    (hbaseline : plan.environment.baseline = .error error) (failure : Escape) :
    plan.Escapes s tree failure ↔ failure = .baseline error := by
  simp [escapes_iff, hlog, hread, hbaseline, reads_iff]

/-- When loading fails, the cause escapes if it is not the metadata that is at fault. -/
theorem escapes_load_iff {cause : Failure} (hlog : plan.LogFits s tree)
    (hreads : plan.Reads s header baseline) (hload : plan.load header baseline = .error cause)
    (failure : Escape) :
    plan.Escapes s tree failure ↔
      (∀ error, cause ≠ .metadata error) ∧ failure = .header cause := by
  simp [escapes_iff, hlog, hreads.header, hreads.baseline, reads_iff, hload]

/-- When the functions are loaded, what escapes is what stops a listing. -/
theorem escapes_output_iff {functions : List Function} (hlog : plan.LogFits s tree)
    (hreads : plan.Reads s header baseline) (hload : plan.load header baseline = .ok functions)
    (failure : Escape) :
    plan.Escapes s tree failure ↔ plan.config.method = none ∧
      ∃ error, (Report.printedLines s.encoding functions).2 = some error ∧
        failure = .output error := by
  simp [escapes_iff, hlog, hreads.header, hreads.baseline, reads_iff, hload]

/-- Once header and baseline are read, an answer needs the functions, and that they are what is asked
for. -/
theorem answers_iff (hlog : plan.LogFits s tree) (hreads : plan.Reads s header baseline) :
    plan.Answers s tree ↔ ∃ functions, plan.load header baseline = .ok functions ∧
      plan.Satisfied s functions := by
  simp [Answers, hlog, hreads.header, hreads.baseline, reads_iff]

end Stages

end Plan

/-- How something ends that has an answer or fails: with status 0 when there is the answer, with an
escape when a failure escapes, and otherwise with status 1. Nothing is shown without status 0, unless
a line is not printed. -/
structure Ends (exit : Exit) (output : Text) (answered : Prop) (escapes : Escape → Prop) :
    Prop where
  status : exit = .status 0 ∨ exit = .status 1 ∨ ∃ failure, exit = .escape failure
  zero_iff : exit = .status 0 ↔ answered
  escape_iff : ∀ failure, exit = .escape failure ↔ escapes failure
  silent : exit ≠ .status 0 → (∀ error, exit ≠ .escape (.output error)) → output = []

namespace Ends

variable {output : Text} {answered : Prop} {escapes : Escape → Prop}

theorem zero (h : answered) (hescapes : ∀ failure, ¬ escapes failure) :
    Ends (.status 0) output answered escapes where
  status := .inl rfl
  zero_iff := iff_of_true rfl h
  escape_iff failure := iff_of_false (by simp) (hescapes failure)
  silent hexit := absurd rfl hexit

theorem one (h : ¬ answered) (hescapes : ∀ failure, ¬ escapes failure) :
    Ends (.status 1) [] answered escapes where
  status := .inr (.inl rfl)
  zero_iff := iff_of_false (by simp) h
  escape_iff failure := iff_of_false (by simp) (hescapes failure)
  silent _ _ := rfl

theorem escape {failure : Escape} (h : ¬ answered)
    (hescapes : ∀ other, escapes other ↔ other = failure) :
    Ends (.escape failure) [] answered escapes where
  status := .inr (.inr ⟨failure, rfl⟩)
  zero_iff := iff_of_false (by simp) h
  escape_iff other := by simp [hescapes, eq_comm]
  silent _ _ := rfl

theorem stopped {error : PrintError} (h : ¬ answered)
    (hescapes : ∀ other, escapes other ↔ other = .output error) :
    Ends (.escape (.output error)) output answered escapes where
  status := .inr (.inr ⟨_, rfl⟩)
  zero_iff := iff_of_false (by simp) h
  escape_iff other := by simp [hescapes, eq_comm]
  silent _ hexit := absurd rfl (hexit error)

end Ends

namespace Report

@[simp] theorem exit_after (records : List Log.Record) (r : Report) :
    (r.after records).exit = r.exit := rfl

@[simp] theorem output_after (records : List Log.Record) (r : Report) :
    (r.after records).output = r.output := rfl

variable {s : Surroundings} {tree : FileTree} {plan : Plan}

/-- The report of a header ends as its plan does. -/
theorem ofHeader_ends {header : Header} {baseline : Baseline}
    (hlog : plan.LogFits s tree) (hreads : plan.Reads s header baseline) :
    Ends (ofHeader s plan.config baseline header).exit
      (ofHeader s plan.config baseline header).output
      (plan.Answers s tree) (plan.Escapes s tree) := by
  have hanswers := Plan.answers_iff hlog hreads
  have hresult :
      ((Oracle.mk baseline).load {} plan.config.headerFile.stem (.header header)).result =
        plan.load header baseline := rfl
  simp only [ofHeader, hreads.create_eq, exit_after, output_after, hresult]
  cases hload : plan.load header baseline with
  | error failure =>
    have hunanswered : ¬ plan.Answers s tree := by simp [hanswers, hload]
    have hescapes := Plan.escapes_load_iff hlog hreads hload
    by_cases hmetadata : ∃ error, failure = .metadata error
    · obtain ⟨error, rfl⟩ := hmetadata
      exact .one hunanswered (by simp [hescapes])
    · have hescape (other : Escape) : plan.Escapes s tree other ↔ other = .header failure :=
        (hescapes other).trans (and_iff_right (not_exists.mp hmetadata))
      cases failure with
      | metadata error => exact absurd ⟨error, rfl⟩ hmetadata
      | emptyVersion => exact .escape hunanswered hescape
      | payload error => exact .escape hunanswered hescape
      | misuse error => exact .escape hunanswered hescape
      | unwritable => exact .escape hunanswered hescape
  | ok functions =>
    have hescapes := Plan.escapes_output_iff hlog hreads hload
    have hanswered : plan.Answers s tree ↔ plan.Satisfied s functions := by simp [hanswers, hload]
    unfold Plan.Satisfied at hanswered
    cases hmethod : plan.config.method with
    | none =>
      rw [hmethod] at hanswered
      dsimp only [ofListing]
      cases hlines : printedLines s.encoding functions with
      | mk output stop =>
        have hnone : stop = none ↔ ∀ f ∈ functions, Prints s f := by
          rw [← printedLines_snd_eq_none_iff, hlines]
        cases stop with
        | none => exact .zero (hanswered.mpr (hnone.mp rfl)) (by simp [hescapes, hlines])
        | some error =>
          exact .stopped (fun h => by cases hnone.mpr (hanswered.mp h))
            (by simp [hescapes, hlines, hmethod])
    | some method =>
      rw [hmethod] at hanswered
      have hcalm : ∀ failure, ¬ plan.Escapes s tree failure := by simp [hescapes, hmethod]
      dsimp only
      cases hfind : Function.find functions method with
      | ok f =>
        rw [ofQuestion_of_find hfind]
        exact .zero (hanswered.mpr ⟨f, hfind⟩) hcalm
      | error e =>
        obtain ⟨hexit, houtput⟩ := ofQuestion_of_find_error (s := s) hfind
        rw [hexit, houtput]
        exact .one (fun h => by simpa [hfind] using hanswered.mp h) hcalm

/-- The report of a header file ends as its plan does. -/
theorem ofFile_ends (hlog : plan.LogFits s tree) :
    Ends (ofFile s plan.environment plan.config plan.content).exit
      (ofFile s plan.environment plan.config plan.content).output
      (plan.Answers s tree) (plan.Escapes s tree) := by
  simp only [ofFile, exit_after, output_after]
  cases hread : Header.ofFile s.nesting plan.content with
  | error error =>
    have hunanswered : ¬ plan.Answers s tree := fun ⟨_, _, _, _, hreads, _⟩ =>
      absurd (hreads.header.symm.trans hread) (by simp)
    have hescapes := Plan.escapes_headerFile_iff hlog hread
    dsimp only
    cases hmessage : error.message? s.wording with
    | none => exact .escape hunanswered (by simp [hescapes, hmessage])
    | some message => exact .one hunanswered (by simp [hescapes, hmessage])
  | ok header =>
    cases hbaseline : plan.environment.baseline with
    | error error =>
      have hunanswered : ¬ plan.Answers s tree := fun ⟨_, _, _, _, hreads, _⟩ =>
        absurd (hreads.baseline.symm.trans hbaseline) (by simp)
      exact .escape hunanswered (Plan.escapes_baseline_iff hlog hread hbaseline)
    | ok baseline => exact ofHeader_ends hlog ⟨hread, hbaseline⟩

end Report

/-- A plan is carried out as its report says, unless the name of the log file is too long. -/
theorem carryOut_ends (s : Surroundings) {tree : FileTree} {plan : Plan}
    (hready : Ready s tree plan.config) :
    Ends (carryOut s tree plan).exit (carryOut s tree plan).output
      (plan.Answers s tree) (plan.Escapes s tree) := by
  obtain ⟨made, hmake⟩ := hready.logDirectory
  by_cases hlog : plan.LogFits s tree
  · obtain ⟨⟨journal, tree', greeting⟩, hstart⟩ :=
      Log.Journal.exists_start hmake (hlog made hmake) plan.config.verbose
    rw [carryOut, hstart]
    exact Report.ofFile_ends hlog
  · have hlong : FileTree.isLongPath ⟨.root, made.2 ++ [Log.fileName s.stamps.file]⟩ = true := by
      simpa [Plan.LogFits, hmake] using hlog
    rw [carryOut, Log.Journal.start_tooLong hmake hlong]
    exact .escape (fun hanswers => hlog hanswers.1) (Plan.escapes_iff_of_not_logFits hlog)

/-- A configuration that is refused although its files are ready is refused with a message, unless the
variable file is given up. -/
theorem message_or_abandoned_of_configure {s : Surroundings} {arguments : Arguments}
    {env : Environment} {tree : FileTree} {error : ConfigError}
    (h : configure s arguments env tree = .error error)
    (hready : ∀ environment,
      env.load s.variableReader tree Environment.variableFile = .ok environment →
        Ready s tree (configOf arguments environment)) :
    ((∃ message, error.message? = some message) ∧
        env.load s.variableReader tree Environment.variableFile ≠ .error .abandoned) ∨
      (error = .variableFile .abandoned ∧
        env.load s.variableReader tree Environment.variableFile = .error .abandoned) := by
  unfold configure at h
  cases hload : env.load s.variableReader tree Environment.variableFile with
  | error e =>
    rw [hload] at h
    obtain rfl := Except.error.inj h
    cases e with
    | refused message => exact .inl ⟨⟨message, rfl⟩, by simp⟩
    | abandoned => exact .inr ⟨rfl, rfl⟩
  | ok environment =>
    refine .inl ⟨?_, by simp⟩
    obtain ⟨content, hcontent⟩ := (hready environment hload).headerFile
    simp only [hload, Config.check, hcontent] at h
    cases hmethod : (configOf arguments environment).method with
    | none => simp [hmethod] at h
    | some method =>
      by_cases hparen : CodePoint.ofChar '(' ∈ method
      · simp [hmethod, hparen] at h
      · simp only [hmethod, hparen, if_false] at h
        obtain rfl := Except.error.inj h
        exact ⟨_, rfl⟩

/-- A plan keeps to the configuration that was ready. -/
theorem ready_of_configure {s : Surroundings} {arguments : Arguments} {env : Environment}
    {tree : FileTree} {plan : Plan} (h : configure s arguments env tree = .ok plan)
    (hready : ∀ environment,
      env.load s.variableReader tree Environment.variableFile = .ok environment →
        Ready s tree (configOf arguments environment)) :
    Ready s tree plan.config ∧
      env.load s.variableReader tree Environment.variableFile ≠ .error .abandoned := by
  unfold configure at h
  cases hload : env.load s.variableReader tree Environment.variableFile with
  | error e => simp [hload] at h
  | ok environment =>
    simp only [hload] at h
    cases hcheck : (configOf arguments environment).check tree with
    | error fault => simp [hcheck] at h
    | ok content =>
      rw [hcheck] at h
      obtain rfl := Except.ok.inj h
      exact ⟨hready environment hload, by simp⟩

/-- A run with arguments that are accepted, a header file that is there and a log directory that can
be made ends with status 0 exactly when its plan has an answer, and with an escape exactly when the
variable file is given up or a failure of its plan escapes. Otherwise it ends with status 1; and then,
as with every escape but that of a line that is not printed, nothing is shown. -/
theorem run_ends (s : Surroundings) {words : List Text} {arguments : Arguments}
    (env : Environment) (tree : FileTree) (hwords : Arguments.read s.dialect words = .ok arguments)
    (hready : ∀ environment,
      env.load s.variableReader tree Environment.variableFile = .ok environment →
        Ready s tree (configOf arguments environment)) :
    Ends (run s words env tree).exit (run s words env tree).output
      (∃ plan, configure s arguments env tree = .ok plan ∧ plan.Answers s tree)
      (fun failure =>
        (env.load s.variableReader tree Environment.variableFile = .error .abandoned ∧
          failure = .variableFile) ∨
        ∃ plan, configure s arguments env tree = .ok plan ∧ plan.Escapes s tree failure) := by
  rw [run, hwords]
  dsimp only
  cases hplan : configure s arguments env tree with
  | error error =>
    obtain ⟨⟨message, hmessage⟩, hload⟩ | ⟨rfl, hload⟩ :=
      message_or_abandoned_of_configure hplan hready
    · simp only [hmessage]
      exact .one (by simp) (by simp [hload])
    · exact .escape (by simp) (by simp [hload, ConfigError.escape])
  | ok plan =>
    obtain ⟨hconfig, hload⟩ := ready_of_configure hplan hready
    simpa [hload] using carryOut_ends s hconfig

/-- A working directory in which only a header file stands. -/
def treeOf (content : Text) : FileTree where
  workingDirectory := ["work"]
  nodes := [(["work", "header.json"], .file (Utf8.encode content))]

/-- The header of a class without functions. -/
def emptyHeader : Text :=
  "\x7b\"kind\": 1, \"metadata_version\": [1, 9, 0], \"data1\": [\"\\u0000\\u0000\"]\x7d"

/-- Surroundings in which nothing takes time and errors have short words. -/
def quiet : Surroundings where
  stamps := ⟨"19700101_000000", "1970-01-01 00:00:00", "0.000"⟩
  wording := ⟨"not UTF-8", fun _ => "not JSON"⟩
  unworded _ := "unsuitable"
  dialect := ⟨true, true⟩
  variableReader := Dotenv.reader "not UTF-8"
  nesting := 990
  depth := 980
  encoding := .unicode

/-- The run about a class without functions ends with status 0, so its plan has an answer. -/
theorem run_ends_listing :
    let arguments : Arguments := { headerFile := some "header.json" }
    let tree := treeOf emptyHeader
    Arguments.read quiet.dialect ["header.json"] = .ok arguments ∧
      Ready quiet tree (configOf arguments []) ∧
      (run quiet ["header.json"] [] tree).exit = .status 0 ∧
      ∃ plan, configure quiet arguments [] tree = .ok plan ∧ plan.Answers quiet tree := by
  intro arguments tree
  have hwords : Arguments.read quiet.dialect ["header.json"] = .ok arguments := by decide +kernel
  have hready : Ready quiet tree (configOf arguments []) := ⟨⟨_, rfl⟩, ⟨_, rfl⟩⟩
  have hexit : (run quiet ["header.json"] [] tree).exit = .status 0 := by decide +kernel
  have hends := run_ends quiet [] tree hwords fun environment h => by
    obtain rfl : [] = environment := Except.ok.inj h
    exact hready
  exact ⟨hwords, hready, hexit, hends.zero_iff.mp hexit⟩

/-- The same run with a configured baseline of two numbers ends with no status at all, although its
header file is there, its arguments are accepted and its log directory can be made. -/
theorem run_escapes_shortBaseline :
    let arguments : Arguments := { headerFile := some "header.json" }
    let tree := treeOf emptyHeader
    let env : Environment := [("KMETA_BASELINE_VERSION", "1.9")]
    Arguments.read quiet.dialect ["header.json"] = .ok arguments ∧
      Ready quiet tree (configOf arguments env) ∧
      (run quiet ["header.json"] env tree).exit = .escape (.baseline (.shape "1.9")) ∧
      ∀ code, (run quiet ["header.json"] env tree).exit ≠ .status code := by
  intro arguments tree env
  have hexit : (run quiet ["header.json"] env tree).exit = .escape (.baseline (.shape "1.9")) := by
    decide +kernel
  exact ⟨by decide +kernel, ⟨⟨_, rfl⟩, ⟨_, rfl⟩⟩, hexit, fun code => by simp [hexit]⟩

end CommandLine

end KotlinNullability
