import CellModem.Command.Rendering
import CellModem.Text.Utf8

/-!
# Sinks

A sink takes the bytes it is given at once or not at all, like the transmit
queue of a serial line. A command is handed to it in one piece; what it does not
take is lost, and reported.
-/

namespace CellModem

/-- A place for bytes that takes a number of them at a time, or any number. -/
structure Sink where
  limit : Option Nat
deriving DecidableEq

namespace Sink

/-- A sink that takes whatever it is given. -/
def unlimited : Sink := ⟨none⟩

/-- How many of `offered` bytes the sink takes. -/
def accepted (s : Sink) (offered : Nat) : Nat :=
  match s.limit with
  | none => offered
  | some n => min n offered

/-- Hands a command to the sink, and returns the bytes that were taken. -/
def send (s : Sink) (c : Command) : Logged (List UInt8) := do
  let rendered ← c.render
  Logged.note (.sending rendered)
  let bytes := Text.bytes rendered
  let accepted := s.accepted bytes.length
  Logged.noteIf (accepted < bytes.length) (.shortWrite accepted bytes.length)
  return bytes.take accepted

theorem value_send_unlimited (c : Command) :
    (unlimited.send c).value = Text.bytes c.render.value := by
  simp [send, unlimited, accepted]

end Sink

end CellModem
