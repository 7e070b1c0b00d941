import Zurg.Control.Task
import Zurg.Grpc
import Zurg.FileSystem

/-!
# Zurg.Tasks.Run — what every `Task::Run` has

The states of a task, what it asks its surroundings while it runs, and what is left of a run.
-/

namespace Zurg.Tasks

open Proto Grpc
open Control (TaskOutput)

/-- `Task::State`. -/
inductive State
  | pending
  | running
  | paused
  | completed
  | cancelled
  | failed
  deriving DecidableEq, Repr

/-- The answers of `CancelRequested` and `ShouldContinue`, by the number of the question. -/
structure Polls where
  cancelRequested : ℕ → Bool
  shouldContinue : ℕ → Bool

/-- `CancelRequested() || !ctx.ShouldContinue()`, as question `n`. -/
def Polls.stop (polls : Polls) (n : ℕ) : Bool :=
  polls.cancelRequested n || !polls.shouldContinue n

/-- A run of `Task::Run` that has returned. -/
structure TaskRun where
  /-- What has been sent, in order. -/
  outputs : List TaskOutput
  state : State
  /-- The number of questions asked until the input was collected. -/
  collected : ℕ := 0
  /-- The temp file, if it is still there. -/
  tempFile : Option File := none

/-- `SetState` and `SendError`, with nothing sent before. -/
def TaskRun.stopped (state : State) (code message : String) : TaskRun :=
  { outputs := [.error code message], state := state }

/-- `std::to_string` of the code of a status. -/
def codeText (status : Status) : String := toString status.code.number

/-- The chunks that have been sent. -/
def uploaded (outputs : List TaskOutput) : List LogChunk :=
  outputs.filterMap fun
    | .logData chunk => some chunk
    | _ => none

theorem uploaded_append (os os' : List TaskOutput) :
    uploaded (os ++ os') = uploaded os ++ uploaded os' := List.filterMap_append

theorem uploaded_map_logData (chunks : List LogChunk) :
    uploaded (chunks.map .logData) = chunks := by
  induction chunks with
  | nil => rfl
  | cons c cs ih =>
    rw [List.map_cons, uploaded, List.filterMap_cons]
    exact congrArg (c :: ·) ih

end Zurg.Tasks
