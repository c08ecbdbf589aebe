import NativeGuard.Json.Grammar

/-!
# Audit events (`audit/audit_sink.hpp`)
-/

namespace NativeGuard.Audit

open Json

inductive EventType where
  | toolCall
  | toolHidden
  | messageRejected
  | correlationExhausted
deriving DecidableEq, Repr

inductive Decision where
  | allow
  | deny
deriving DecidableEq, Repr

inductive Reason where
  | policyAllowed
  | policyDenied
  | invalidParameters
  | malformedMessage
  | messageTooLarge
  | capacityExhausted
deriving DecidableEq, Repr

structure AuditEvent where
  type : EventType := .messageRejected
  decision : Decision := .deny
  reason : Reason := .malformedMessage
  toolName : Bytes := []
  idJson : Bytes := []
  encodedMessageBytes : Nat := 0
  includeMessageSize : Bool := false
deriving DecidableEq, Repr

end NativeGuard.Audit
