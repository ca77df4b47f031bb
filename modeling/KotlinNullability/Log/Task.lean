import KotlinNullability.Log.Record

/-!
# Timed tasks

A task is logged when it starts and when it ends, with the time that it took. A task that is
interrupted from outside logs no end.
-/

namespace KotlinNullability.Log

/-- How a task ended. -/
inductive Ending where
  | completed
  | failed (reason : Text)
  | interrupted
  deriving DecidableEq, Repr

/-- The record of a task that starts. -/
def taskStarted (logger task : Text) : Record := ⟨.debug, logger, "Starting " ++ task⟩

/-- The record of a task that was completed after so many milliseconds. -/
def taskCompleted (logger task elapsed : Text) : Record :=
  ⟨.debug, logger, "Completed " ++ task ++ " in " ++ elapsed ++ "ms"⟩

/-- The record of a task that failed after so many milliseconds. -/
def taskFailed (logger task elapsed reason : Text) : Record :=
  ⟨.error, logger, "Failed " ++ task ++ " after " ++ elapsed ++ "ms: " ++ reason⟩

/-- All records of a task. -/
def taskRecords (logger task elapsed : Text) : Ending → List Record
  | .completed => [taskStarted logger task, taskCompleted logger task elapsed]
  | .failed reason => [taskStarted logger task, taskFailed logger task elapsed reason]
  | .interrupted => [taskStarted logger task]

end KotlinNullability.Log
