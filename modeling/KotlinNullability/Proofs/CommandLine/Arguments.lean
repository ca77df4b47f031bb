import KotlinNullability.CommandLine.Arguments
import Mathlib.Data.List.Basic

/-!
# Adding a method to the arguments

A header file that stands alone on the command line was taken for a plain value. It is taken for one
next to other words too, so a method can be asked for behind it, in the word of the option.
-/

namespace KotlinNullability.CommandLine

variable {dialect : Dialect}

namespace Progress

/-- Flags do not say what the header file is. -/
theorem headerFile_of_withFlags {p q : Progress} {flags : List Switch}
    (h : p.withFlags flags = .ok q) : q.arguments.headerFile = p.arguments.headerFile := by
  induction flags generalizing p with
  | nil =>
    cases h
    rfl
  | cons flag flags ih =>
    cases flag with
    | help => cases h
    | verbose =>
      rw [withFlags] at h
      have hrest := ih h
      exact hrest
    | method =>
      rw [withFlags] at h
      exact ih h

/-- An option on its own says nothing about the header file. -/
theorem headerFile_of_option {switch : Switch} {long : Bool} {attached : Option Attachment}
    {q : Progress} (h : takeAll dialect {} [.option switch long attached] = .ok q) :
    q.arguments.headerFile = none := by
  rw [takeAll] at h
  cases hexpand : expand dialect switch long attached with
  | error e =>
    rw [hexpand] at h
    cases h
  | ok expansion =>
    obtain ⟨flags, tail⟩ := expansion
    rw [hexpand] at h
    dsimp only at h
    cases hflags : withFlags {} flags with
    | error e => cases tail <;> rw [hflags] at h <;> cases h
    | ok p =>
      have hp := headerFile_of_withFlags hflags
      cases tail with
      | nothing =>
        rw [hflags] at h
        cases h
        exact hp
      | value t =>
        rw [hflags] at h
        cases h
        exact hp
      | valueFollows => cases h
      | leftOver t =>
        rw [hflags] at h
        cases h
        exact hp

end Progress

/-- A word that is taken for the header file is a plain value. -/
theorem classify_of_read {file : Text}
    (h : Arguments.read dialect [file] = .ok { headerFile := some file }) :
    file ≠ Text.ofString "--" ∧ classify file = .ok (.value file) := by
  by_cases hseparator : file = Text.ofString "--"
  · rw [hseparator] at h
    cases h
  refine ⟨hseparator, ?_⟩
  rw [Arguments.read, classifyAll, if_neg hseparator] at h
  cases hword : classify file with
  | error e =>
    rw [hword] at h
    cases h
  | ok word =>
    rw [hword] at h
    cases word with
    | value t =>
      cases h
      rfl
    | separator => cases h
    | unknown t => cases h
    | option switch long attached =>
      simp only [classifyAll, bind, Except.bind, pure, Except.pure, Except.mapError] at h
      cases htake : Progress.takeAll dialect {} [.option switch long attached] with
      | error e =>
        rw [htake] at h
        cases h
      | ok q =>
        have hnone := Progress.headerFile_of_option htake
        rw [htake] at h
        dsimp only at h
        split at h
        · rw [Except.ok.inj h] at hnone
          cases hnone
        · cases h

/-- The word of the method option holds the method behind an equals sign. -/
theorem classify_methodWord (method : Text) :
    classify ("--method=" ++ method) = .ok (.option .method true (some ⟨method, true⟩)) := rfl

/-- A method may be asked for behind a header file that is taken for one on its own. -/
theorem read_methodWord {file method : Text}
    (hfile : Arguments.read dialect [file] = .ok { headerFile := some file })
    (hmethod : method ≠ Text.ofString "--") :
    Arguments.read dialect [file, "--method=" ++ method] =
      .ok { headerFile := some file, method := some method } := by
  obtain ⟨hseparator, hvalue⟩ := classify_of_read hfile
  have hword : Text.ofString "--method=" ++ method ≠ Text.ofString "--" := nofun
  have hexpand : expand dialect .method true (some ⟨method, true⟩) = .ok ⟨[], .value method⟩ := by
    cases method with
    | nil => rfl
    | cons c method =>
      have hvalueOf : dialect.valueOf (c :: method) = c :: method := by
        simp [Dialect.valueOf, hmethod]
      rw [expand]
      unfold expandAttached
      rw [hvalueOf]
      rfl
  rw [Arguments.read, classifyAll, if_neg hseparator, hvalue, classifyAll, if_neg hword,
    classify_methodWord]
  simp only [classifyAll, bind, Except.bind, pure, Except.pure, Except.mapError, Progress.takeAll]
  rw [hexpand]
  rfl

end KotlinNullability.CommandLine
