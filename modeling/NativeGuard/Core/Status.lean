/-!
# Statuses (`core/status.hpp`)
-/

namespace NativeGuard

inductive StatusCode where
  | ok
  | invalidArgument
  | messageTooLarge
  | truncatedMessage
  | duplicateRule
  | ioError
deriving DecidableEq, Repr

structure Status where
  code : StatusCode := .ok
  message : String := ""
deriving DecidableEq, Repr

end NativeGuard
