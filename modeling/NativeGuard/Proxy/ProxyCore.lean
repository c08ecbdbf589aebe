import NativeGuard.Security.Policy

/-!
# The decision core (`src/proxy_core.cpp`)

The two authorizations as pure functions of the policy and the limit. The
counters they also bump are write-only statistics and are left out.
-/

namespace NativeGuard.Proxy

open Json Security

inductive Action where
  | forward
  | block
deriving DecidableEq, Repr

inductive Reason where
  | policyAllowed
  | policyDenied
  | messageTooLarge
  | emptyToolName
deriving DecidableEq, Repr

structure Decision where
  action : Action := .block
  reason : Reason := .policyDenied
deriving DecidableEq, Repr

def Decision.shouldForward (decision : Decision) : Bool :=
  decision.action = .forward

structure ProxyCore where
  policy : PolicyTable
  maxMessageBytes : Nat := 1024 * 1024

namespace ProxyCore

variable (core : ProxyCore)

def authorizeToolCall (toolName : Bytes) (encodedMessageBytes : Nat) : Decision :=
  if encodedMessageBytes > core.maxMessageBytes then ⟨.block, .messageTooLarge⟩
  else if toolName = [] then ⟨.block, .emptyToolName⟩
  else if core.policy.invocationFor toolName = .allow then ⟨.forward, .policyAllowed⟩
  else ⟨.block, .policyDenied⟩

def authorizeToolVisibility (toolName : Bytes) : Decision :=
  if toolName = [] then ⟨.block, .emptyToolName⟩
  else if core.policy.visibilityFor toolName = .allow then
    ⟨.forward, .policyAllowed⟩
  else ⟨.block, .policyDenied⟩

theorem authorizeToolCall_forward {toolName : Bytes} {size : Nat} :
    (core.authorizeToolCall toolName size).shouldForward = true ↔
      size ≤ core.maxMessageBytes ∧ toolName ≠ [] ∧
        core.policy.invocationFor toolName = .allow := by
  unfold authorizeToolCall Decision.shouldForward
  split_ifs with hsize hname hallow
  · simp
    omega
  · simp [hname]
  · simp [hname, hallow]
    omega
  · simp [hallow]

theorem authorizeToolVisibility_forward {toolName : Bytes} :
    (core.authorizeToolVisibility toolName).shouldForward = true ↔
      toolName ≠ [] ∧ core.policy.visibilityFor toolName = .allow := by
  unfold authorizeToolVisibility Decision.shouldForward
  split_ifs with hname hallow
  · simp [hname]
  · simp [hname, hallow]
  · simp [hallow]

end ProxyCore

end NativeGuard.Proxy
