import Mathlib

/-! The status codes of `nanosig_status.h`. -/
namespace Nanosig

inductive Status where
  | ok
  | queueFull
  | nomem
  | inval
  | tooManyHandles
  | shutdown
  | exists
  | noLoop
  | empty
  | corrupt
  | noTimer
  | busy
  | range
  | param
  | timeout
  deriving DecidableEq, Repr

end Nanosig
