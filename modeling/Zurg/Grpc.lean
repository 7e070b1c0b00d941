import Mathlib.Data.Nat.Notation

/-!
# Zurg.Grpc — `grpc::Status`
-/

namespace Zurg.Grpc

inductive StatusCode
  | ok
  | cancelled
  | unknown
  | invalidArgument
  | deadlineExceeded
  | notFound
  | alreadyExists
  | permissionDenied
  | resourceExhausted
  | failedPrecondition
  | aborted
  | outOfRange
  | unimplemented
  | internal
  | unavailable
  | dataLoss
  | unauthenticated
  deriving DecidableEq, Repr

/-- The number of a code, as in `static_cast<int>`. -/
def StatusCode.number : StatusCode → ℕ
  | .ok => 0
  | .cancelled => 1
  | .unknown => 2
  | .invalidArgument => 3
  | .deadlineExceeded => 4
  | .notFound => 5
  | .alreadyExists => 6
  | .permissionDenied => 7
  | .resourceExhausted => 8
  | .failedPrecondition => 9
  | .aborted => 10
  | .outOfRange => 11
  | .unimplemented => 12
  | .internal => 13
  | .unavailable => 14
  | .dataLoss => 15
  | .unauthenticated => 16

structure Status where
  code : StatusCode
  message : String
  deriving DecidableEq, Repr

namespace Status

/-- `Status::OK`. -/
def success : Status := ⟨.ok, ""⟩

def ok (s : Status) : Bool := s.code = .ok

@[simp] theorem ok_success : success.ok = true := rfl

end Status

end Zurg.Grpc
