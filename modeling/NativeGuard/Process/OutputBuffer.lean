import NativeGuard.Data.Decimal
import NativeGuard.Process.ClientMessageHandler

/-!
# Output buffers of the relay (`src/linux_stdio_relay.cpp`)

A buffer is reserved once and never grows past its capacity; an append that does
not fit is refused. A sequence of appends stops at the first refusal and keeps
what was appended before it.
-/

namespace NativeGuard.Process

open Json Data

structure OutputBuffer where
  bytes : Bytes
  capacity : Nat
  fits : bytes.length ≤ capacity

namespace OutputBuffer

/-- The buffer with `value` behind its bytes. -/
def push (output : OutputBuffer) (value : Bytes)
    (h : value.length ≤ output.capacity - output.bytes.length) : OutputBuffer where
  bytes := output.bytes ++ value
  capacity := output.capacity
  fits := by
    have := output.fits
    rw [List.length_append]
    omega

end OutputBuffer

/-- An append returns whether it found room. -/
abbrev Append := OutputBuffer → Bool × OutputBuffer

/-- C++'s `&&` on appends. -/
def Append.and (first second : Append) : Append := fun output =>
  match first output with
  | (true, output) => second output
  | (false, output) => (false, output)

def appendBytes (value : Bytes) : Append := fun output =>
  if h : value.length ≤ output.capacity - output.bytes.length then
    (true, output.push value h)
  else (false, output)

def appendMessage (message : Bytes) : Append :=
  (appendBytes message).and (appendBytes [0x0A])

/-- The sixteen bytes of `code_buffer` hold every `int`. -/
def codeBufferBytes : Nat := 16

def appendJsonRpcError (decision : ClientMessageDecision) : Append := fun output =>
  if (toChars decision.errorCode).length > codeBufferBytes then (false, output)
  else
    ((appendBytes (ascii "\x7b\"jsonrpc\":\"2.0\",\"id\":")).and <|
      (appendBytes decision.idJson).and <|
      (appendBytes (ascii ",\"error\":\x7b\"code\":")).and <|
      (appendBytes (toChars decision.errorCode)).and <|
      (appendBytes (ascii ",\"message\":\"")).and <|
      (appendBytes decision.errorMessage).and <|
      appendBytes (ascii "\"\x7d\x7d\n")) output

/-! ## What the appends write -/

/-- The append writes `text` whenever there is room for it. -/
def Writes (append : Append) (text : Bytes) : Prop :=
  ∀ output : OutputBuffer, output.bytes.length + text.length ≤ output.capacity →
    ∃ output', append output = (true, output') ∧
      output'.bytes = output.bytes ++ text ∧ output'.capacity = output.capacity

theorem writes_appendBytes (value : Bytes) : Writes (appendBytes value) value := by
  intro output hroom
  have h : value.length ≤ output.capacity - output.bytes.length := by omega
  exact ⟨output.push value h, dif_pos h, rfl, rfl⟩

theorem Writes.and {first second : Append} {text text' : Bytes} (h : Writes first text)
    (h' : Writes second text') : Writes (first.and second) (text ++ text') := by
  intro output hroom
  rw [List.length_append] at hroom
  obtain ⟨middle, hfirst, hbytes, hcapacity⟩ := h output (by omega)
  obtain ⟨last, hsecond, hbytes', hcapacity'⟩ := h' middle (by
    rw [hbytes, hcapacity, List.length_append]
    omega)
  refine ⟨last, ?_, ?_, hcapacity'.trans hcapacity⟩
  · unfold Append.and
    rw [hfirst]
    exact hsecond
  · rw [hbytes', hbytes, List.append_assoc]

theorem writes_appendMessage (message : Bytes) :
    Writes (appendMessage message) (message ++ [0x0A]) :=
  (writes_appendBytes _).and (writes_appendBytes _)

/-- An append that succeeds has written `text`, all of it. -/
def Wrote (append : Append) (text : Bytes) : Prop :=
  ∀ output : OutputBuffer, (append output).1 = true →
    (append output).2.bytes = output.bytes ++ text ∧
      (append output).2.capacity = output.capacity

theorem wrote_appendBytes (value : Bytes) : Wrote (appendBytes value) value := by
  intro output hadded
  unfold appendBytes at hadded ⊢
  by_cases h : value.length ≤ output.capacity - output.bytes.length
  · rw [dif_pos h]
    exact ⟨rfl, rfl⟩
  · rw [dif_neg h] at hadded
    cases hadded

theorem Wrote.and {first second : Append} {text text' : Bytes} (h : Wrote first text)
    (h' : Wrote second text') : Wrote (first.and second) (text ++ text') := by
  intro output hadded
  unfold Append.and at hadded ⊢
  rcases hfirst : first output with ⟨added, middle⟩
  cases added with
  | false =>
      rw [hfirst] at hadded
      cases hadded
  | true =>
      rw [hfirst] at hadded
      obtain ⟨hbytes, hcapacity⟩ := h output (by rw [hfirst])
      obtain ⟨hbytes', hcapacity'⟩ := h' middle hadded
      rw [hfirst] at hbytes hcapacity
      dsimp only at hbytes hcapacity ⊢
      rw [hbytes', hbytes, hcapacity', hcapacity, List.append_assoc]
      exact ⟨rfl, rfl⟩

theorem wrote_appendMessage (message : Bytes) :
    Wrote (appendMessage message) (message ++ [0x0A]) :=
  (wrote_appendBytes _).and (wrote_appendBytes _)

/-- The line of an error reply, without its newline. -/
def errorLine (decision : ClientMessageDecision) : Bytes :=
  ascii "\x7b\"jsonrpc\":\"2.0\",\"id\":" ++ (decision.idJson ++
    (ascii ",\"error\":\x7b\"code\":" ++ (toChars decision.errorCode ++
      (ascii ",\"message\":\"" ++ (decision.errorMessage ++ ascii "\"\x7d\x7d")))))

theorem writes_appendJsonRpcError {decision : ClientMessageDecision}
    (h : (toChars decision.errorCode).length ≤ codeBufferBytes) :
    Writes (appendJsonRpcError decision) (errorLine decision ++ [0x0A]) := by
  have hlast : ascii "\"\x7d\x7d\n" = ascii "\"\x7d\x7d" ++ [0x0A] := by decide
  have hwrites := (writes_appendBytes (ascii "\x7b\"jsonrpc\":\"2.0\",\"id\":")).and <|
    (writes_appendBytes decision.idJson).and <|
    (writes_appendBytes (ascii ",\"error\":\x7b\"code\":")).and <|
    (writes_appendBytes (toChars decision.errorCode)).and <|
    (writes_appendBytes (ascii ",\"message\":\"")).and <|
    (writes_appendBytes decision.errorMessage).and <|
    writes_appendBytes (ascii "\"\x7d\x7d\n")
  rw [hlast] at hwrites
  intro output hroom
  unfold errorLine at hroom ⊢
  unfold appendJsonRpcError
  simp only [List.append_assoc] at hroom ⊢
  rw [if_neg (by omega), hlast]
  exact hwrites output hroom

theorem wrote_appendJsonRpcError (decision : ClientMessageDecision) :
    Wrote (appendJsonRpcError decision) (errorLine decision ++ [0x0A]) := by
  have hlast : ascii "\"\x7d\x7d\n" = ascii "\"\x7d\x7d" ++ [0x0A] := by decide
  have hwrote := (wrote_appendBytes (ascii "\x7b\"jsonrpc\":\"2.0\",\"id\":")).and <|
    (wrote_appendBytes decision.idJson).and <|
    (wrote_appendBytes (ascii ",\"error\":\x7b\"code\":")).and <|
    (wrote_appendBytes (toChars decision.errorCode)).and <|
    (wrote_appendBytes (ascii ",\"message\":\"")).and <|
    (wrote_appendBytes decision.errorMessage).and <|
    wrote_appendBytes (ascii "\"\x7d\x7d\n")
  intro output hadded
  unfold appendJsonRpcError at hadded ⊢
  split at hadded
  · cases hadded
  · rename_i hcode
    obtain ⟨hbytes, hcapacity⟩ := hwrote output hadded
    rw [if_neg hcode]
    refine ⟨?_, hcapacity⟩
    rw [hbytes, hlast]
    unfold errorLine
    simp only [List.append_assoc]

end NativeGuard.Process
