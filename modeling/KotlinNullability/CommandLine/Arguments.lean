import KotlinNullability.Association
import KotlinNullability.Text.DecimalDigit
import KotlinNullability.Text.Quoted

/-!
# Arguments

The command line takes three options and one positional argument, the header file. A long option may
be shortened as long as it stays unambiguous, and its value may follow an equals sign. Options of one
letter may share a word, and the value may follow its letter directly. After the separator `--` every
word is positional. A word that looks like a negative number, or has a space in it, is no option
unless it begins as one.

The words are first classified, each by itself, and then taken in order. Readers differ in how they
take a word in which letters stand together, and a separator in the place of a value; the `Dialect`
settles it.
-/

namespace KotlinNullability.CommandLine

/-- What readers of arguments differ in. -/
structure Dialect where
  /-- Behind a flag of one letter, an equals sign separates a value from the letter in front of it, and
  what begins with no letter of an option is left over. Otherwise an equals sign is one more letter,
  and what begins with no letter of an option is refused. -/
  separates : Bool
  /-- A separator may be the value of an option. Otherwise it is none, and what is then left is no text
  but an empty list. -/
  keepsSeparator : Bool
  deriving DecidableEq, Repr

/-- The options. -/
inductive Switch where
  | help
  | method
  | verbose
  deriving DecidableEq, Repr

namespace Switch

/-- The spellings of all options, in order. -/
def spellings : List (Text × Switch) :=
  [("-h", help), ("--help", help), ("-m", method), ("--method", method), ("-v", verbose),
   ("--verbose", verbose)]

/-- The option with a spelling. -/
def find? (spelling : Text) : Option Switch := Association.find? spelling spellings

/-- Whether an option takes a value. -/
def takesValue : Switch → Bool
  | method => true
  | help | verbose => false

/-- The name of an option in messages: all its spellings. -/
def label (s : Switch) : Text :=
  Text.join "/" ((spellings.filter fun entry => entry.2 = s).map (·.1))

end Switch

/-- Why the arguments are refused. -/
inductive UsageError where
  /-- A word may stand for several options. -/
  | ambiguous (word : Text) (candidates : List Text)
  /-- An option lacks its value. -/
  | valueMissing (option : Switch)
  /-- An option that takes no value has one. -/
  | valueIgnored (option : Switch) (value : Text)
  /-- Words are left over. -/
  | unrecognized (words : List Text)
  deriving DecidableEq, Repr

/-- The wording of the error. -/
def UsageError.message : UsageError → Text
  | ambiguous word candidates =>
    "ambiguous option: " ++ word ++ " could match " ++ Text.join ", " candidates
  | valueMissing option => "argument " ++ option.label ++ ": expected one argument"
  | valueIgnored option value =>
    "argument " ++ option.label ++ ": ignored explicit argument " ++ value.quoted
  | unrecognized words => "unrecognized arguments: " ++ Text.join " " words

/-- The text behind an option in its word. -/
structure Attachment where
  text : Text
  /-- Whether an equals sign separates it from the option. -/
  separated : Bool
  deriving DecidableEq, Repr

/-- What a word of the command line is by itself. -/
inductive Word where
  | value (t : Text)
  | separator
  /-- An option, and what stands behind it in its word. -/
  | option (switch : Switch) (long : Bool) (attached : Option Attachment)
  | unknown (t : Text)
  deriving DecidableEq, Repr

/-- Whether a text is one or more decimal digits. -/
def isNumeral (t : Text) : Bool := !t.isEmpty && t.all fun c => c.digit?.isSome

/-- Whether a text looks like a negative number: a minus sign and digits, or a decimal fraction that
may lack digits before its point. A line feed at the end is overlooked. -/
def looksNegative (t : Text) : Bool :=
  match t with
  | [] => false
  | c :: rest =>
    let body := if rest.getLast? = some (CodePoint.ofChar '\n') then rest.dropLast else rest
    decide (c = '-') &&
      (isNumeral body ||
        match body.dropWhile fun d => d.digit?.isSome with
        | [] => false
        | d :: fraction => decide (d = '.') && isNumeral fraction)

/-- Whether a spelling is one of a long option. -/
def isLong (spelling : Text) : Bool := (Text.ofString "--").isPrefixOf spelling

/-- The readings of a word as a shortened option, or as a letter with a value behind it. -/
def readings (t : Text) : List (Text × Word) :=
  if isLong t then
    let (name, after) := t.span (· ≠ CodePoint.ofChar '=')
    let attached : Option Attachment :=
      match after with
      | [] => none
      | _ :: value => some ⟨value, true⟩
    (Switch.spellings.filter fun entry => name.isPrefixOf entry.1).map fun entry =>
      (entry.1, .option entry.2 true attached)
  else
    (Switch.spellings.filter fun entry => entry.1 = t.take 2).map fun entry =>
      (entry.1, .option entry.2 false (some ⟨t.drop 2, false⟩))

/-- Classify a word that begins with a dash and spells no option exactly. -/
def classifyDashed (t : Text) : Except UsageError Word :=
  let (name, after) := t.span (· ≠ CodePoint.ofChar '=')
  match after, Switch.find? name with
  | _ :: value, some switch => .ok (.option switch (isLong name) (some ⟨value, true⟩))
  | _, _ =>
    match readings t with
    | [] =>
      if looksNegative t || t.contains (CodePoint.ofChar ' ') then .ok (.value t)
      else .ok (.unknown t)
    | [reading] => .ok reading.2
    | several => .error (.ambiguous t (several.map (·.1)))

/-- Classify a word before the separator. -/
def classify (t : Text) : Except UsageError Word :=
  match t with
  | [] => .ok (.value t)
  | [_] => .ok (.value t)
  | c :: _ :: _ =>
    if c ≠ '-' then .ok (.value t)
    else
      match Switch.find? t with
      | some switch => .ok (.option switch (isLong t) none)
      | none => classifyDashed t

/-- Classify the words of a command line. -/
def classifyAll : List Text → Except UsageError (List Word)
  | [] => .ok []
  | t :: rest =>
    if t = Text.ofString "--" then .ok (.separator :: rest.map .value)
    else do
      let word ← classify t
      let words ← classifyAll rest
      return word :: words

/-- How the letters of an option word end. -/
inductive Tail where
  | nothing
  /-- The value of the method option. -/
  | value (t : Text)
  /-- The value of the method option is the next word. -/
  | valueFollows
  /-- Letters of no option are left over. -/
  | leftOver (t : Text)
  deriving DecidableEq, Repr

/-- The flags in an option word, and how it ends. -/
structure Expansion where
  flags : List Switch
  tail : Tail
  deriving DecidableEq, Repr

/-- An option with nothing behind it. -/
def expandBare (switch : Switch) : Expansion :=
  if switch.takesValue then ⟨[], .valueFollows⟩ else ⟨[switch], .nothing⟩

/-- The value that text behind an option gives. -/
def Dialect.valueOf (dialect : Dialect) (t : Text) : Text :=
  if t = Text.ofString "--" && !dialect.keepsSeparator then "[]" else t

/-- An option with text behind it: its value, or further letters. -/
def expandAttached (dialect : Dialect) (switch : Switch) (long separated : Bool) :
    Text → Except UsageError Expansion
  | [] => if switch.takesValue then .ok ⟨[], .value []⟩ else .error (.valueIgnored switch [])
  | c :: rest =>
    if switch.takesValue then .ok ⟨[], .value (dialect.valueOf (c :: rest))⟩
    else if long || dialect.separates && (separated || c = '-') then
      .error (.valueIgnored switch (c :: rest))
    else
      match Switch.find? ['-', c] with
      | some next => do
        let expansion ←
          match rest with
          | [] => .ok (expandBare next)
          | d :: value =>
            if dialect.separates && d = '=' then expandAttached dialect next false true value
            else expandAttached dialect next false false (d :: value)
        return { expansion with flags := switch :: expansion.flags }
      | none =>
        if dialect.separates then .ok ⟨[switch], .leftOver ('-' :: c :: rest)⟩
        else .error (.valueIgnored switch (c :: rest))

/-- The flags in an option word, and how it ends. -/
def expand (dialect : Dialect) (switch : Switch) (long : Bool) :
    Option Attachment → Except UsageError Expansion
  | none => .ok (expandBare switch)
  | some attached => expandAttached dialect switch long attached.separated attached.text

/-- What the command line asks for. -/
structure Arguments where
  headerFile : Option Text := none
  method : Option Text := none
  verbose : Bool := false
  deriving DecidableEq, Repr

/-- Why there is nothing to run. -/
inductive Stop where
  | help
  | usage (error : UsageError)
  deriving DecidableEq, Repr

/-- What was taken so far, and the words left over. -/
structure Progress where
  arguments : Arguments := {}
  extras : List Text := []

namespace Progress

/-- Leave a word over. -/
def leaveOver (p : Progress) (t : Text) : Progress := { p with extras := p.extras ++ [t] }

/-- Take the header file. -/
def withHeaderFile (p : Progress) (t : Text) : Progress :=
  { p with arguments := { p.arguments with headerFile := some t } }

/-- Take the method; the last one counts. -/
def withMethod (p : Progress) (t : Text) : Progress :=
  { p with arguments := { p.arguments with method := some t } }

/-- Take flags; the one for help stops everything. -/
def withFlags (p : Progress) : List Switch → Except Stop Progress
  | [] => .ok p
  | .help :: _ => .error .help
  | .verbose :: flags =>
    withFlags { p with arguments := { p.arguments with verbose := true } } flags
  | .method :: flags => withFlags p flags

/-- Take the words in order. The first positional word is the header file, and a separator next to it
goes with it. -/
def takeAll (dialect : Dialect) (p : Progress) : List Word → Except Stop Progress
  | [] => .ok p
  | .value t :: words =>
    match p.arguments.headerFile, words with
    | some _, words => takeAll dialect (p.leaveOver t) words
    | none, .separator :: words => takeAll dialect (p.withHeaderFile t) words
    | none, words => takeAll dialect (p.withHeaderFile t) words
  | .separator :: words =>
    match p.arguments.headerFile with
    | some _ => takeAll dialect (p.leaveOver "--") words
    | none => takeAll dialect p words
  | .unknown t :: words => takeAll dialect (p.leaveOver t) words
  | .option switch long attached :: words =>
    match expand dialect switch long attached with
    | .error e => .error (.usage e)
    | .ok ⟨flags, tail⟩ =>
      match tail, words with
      | .nothing, words => do takeAll dialect (← p.withFlags flags) words
      | .value t, words => do takeAll dialect ((← p.withFlags flags).withMethod t) words
      | .valueFollows, .value t :: words => do
        takeAll dialect ((← p.withFlags flags).withMethod t) words
      | .valueFollows, _ => .error (.usage (.valueMissing .method))
      | .leftOver t, words => do takeAll dialect ((← p.withFlags flags).leaveOver t) words

end Progress

/-- Read the arguments of a command line. -/
def Arguments.read (dialect : Dialect) (words : List Text) : Except Stop Arguments := do
  let words ← (classifyAll words).mapError .usage
  let progress ← Progress.takeAll dialect {} words
  if progress.extras.isEmpty then return progress.arguments
  else throw (.usage (.unrecognized progress.extras))

end KotlinNullability.CommandLine
