import NativeGuard.Json.Grammar

/-!
# The message handler interface (`process/client_message_handler.hpp`)
-/

namespace NativeGuard.Process

open Json

inductive ClientMessageAction where
  | forward
  | drop
  | respondWithError
deriving DecidableEq, Repr

inductive ServerMessageAction where
  | forward
  | replace
  | drop
deriving DecidableEq, Repr

inductive MessageDirection where
  | clientToServer
  | serverToClient
deriving DecidableEq, Repr

structure ClientMessageDecision where
  action : ClientMessageAction := .forward
  idJson : Bytes := []
  errorCode : Int := 0
  errorMessage : Bytes := []
deriving DecidableEq, Repr

structure ServerMessageDecision where
  action : ServerMessageAction := .forward
  replacement : Bytes := []
deriving DecidableEq, Repr

/-- A handler with states `σ`, whose decision may depend on what it has seen. -/
structure ClientMessageHandler (σ : Type) where
  inspect : σ → Bytes → ClientMessageDecision × σ
  inspectServer : σ → Bytes → ServerMessageDecision × σ
  messageTooLarge : σ → MessageDirection → Nat → σ
  connectionClosed : σ → σ

end NativeGuard.Process
