import CellModem.Modem
import CellModem.Command.Rendering
import CellModem.Text.Utf8

/-!
# The transmitter's work

The transmitter takes the queued commands one by one, writes each to the far end
and flushes. The far end may take a command piece by piece, and it may let a
write or a flush wait; then the transmitter keeps what is left in its hand until
it is woken (`Transmitter.wake`), and meanwhile takes no other command. A
command that cannot be written in full, or not be flushed, is reported and not
tried again; the next one has its turn all the same.

`transmitStep` is one small piece of this, and `Sending` says all that it can
be. Each piece leaves less to do (`load_transmitStep_lt`).
-/

namespace CellModem.Modem

/-- Goes on when the far end has accepted some bytes of what is left of a
command, or has failed. -/
def goOn (m : Modem) (command : Command) (rest : List UInt8) :
    Option Nat → Traced Output Modem
  | none => do
    Traced.report (.transmitterFailed .serial)
    return { m with transmitter := .idle }
  | some n => do
    Traced.report (.wrote (rest.take n))
    return { m with transmitter := .offering command (rest.drop n) }

/-- One piece of the transmitter's work; there is no result if it has to
wait. -/
def transmitStep (m : Modem) : Option (Traced Output Modem) :=
  match m.transmitter with
  | .idle =>
    match m.link.commands with
    | [] => none
    | command :: rest => some do
      let rendered ← command.render.shown
      Traced.report (.notice (.sending rendered))
      return { m with
        link := { m.link with commands := rest }
        transmitter := .offering command (Text.bytes rendered) }
  | .writing command rest _ =>
    match m.writer.toWrite with
    | .wait => none
    | answer =>
      some ({ m with writer := m.writer.afterWrite }.goOn command rest
        (answer.accepted? rest.length))
  | .flushing =>
    let m' := { m with writer := m.writer.afterFlush, transmitter := .idle }
    match m.writer.toFlush with
    | .wait => none
    | .done => some do
      Traced.report .flushed
      return m'
    | .failure => some do
      Traced.report (.transmitterFailed .serial)
      return m'

/-- All that one piece of the transmitter's work can be. -/
inductive Sending (m : Modem) : List Output → Modem → Prop
  | take {command : Command} {rest : List Command}
      (hidle : m.transmitter = .idle)
      (hcommands : m.link.commands = command :: rest) :
      Sending m
        (command.render.shown.trace ++
          [.notice (.sending command.render.value)])
        { m with
          link := { m.link with commands := rest }
          transmitter :=
            .offering command (Text.bytes command.render.value) }
  | write {command : Command} {rest : List UInt8} {ne_nil : rest ≠ []}
      {n : Nat} (hwriting : m.transmitter = .writing command rest ne_nil)
      (hn : m.writer.toWrite.accepted? rest.length = some n) :
      Sending m [.wrote (rest.take n)]
        { m with
          writer := m.writer.afterWrite
          transmitter := .offering command (rest.drop n) }
  | failWrite {command : Command} {rest : List UInt8} {ne_nil : rest ≠ []}
      (hwriting : m.transmitter = .writing command rest ne_nil)
      (hfailure : m.writer.toWrite = .failure) :
      Sending m [.transmitterFailed .serial]
        { m with writer := m.writer.afterWrite, transmitter := .idle }
  | flush (hflushing : m.transmitter = .flushing)
      (hdone : m.writer.toFlush = .done) :
      Sending m [.flushed]
        { m with writer := m.writer.afterFlush, transmitter := .idle }
  | failFlush (hflushing : m.transmitter = .flushing)
      (hfailure : m.writer.toFlush = .failure) :
      Sending m [.transmitterFailed .serial]
        { m with writer := m.writer.afterFlush, transmitter := .idle }

theorem sending_transmitStep {m : Modem} {x : Traced Output Modem}
    (h : m.transmitStep = some x) : m.Sending x.trace x.value := by
  unfold transmitStep at h
  split at h
  · next hidle =>
    split at h
    · cases h
    · next command rest hcommands =>
      cases h
      exact .take hidle hcommands
  · next command rest ne_nil hwriting =>
    split at h
    · cases h
    · next hwait =>
      cases h
      cases hn : m.writer.toWrite.accepted? rest.length with
      | none =>
        exact .failWrite hwriting
          ((WriteAnswer.accepted?_eq_none_iff.1 hn).resolve_right hwait)
      | some n => exact .write hwriting hn
  · next hflushing =>
    split at h
    · cases h
    · next hdone =>
      cases h
      exact .flush hflushing hdone
    · next hfailure =>
      cases h
      exact .failFlush hflushing hfailure

/-! ### The work ends -/

def queueLoad : List Command → Nat
  | [] => 0
  | command :: rest =>
    (Text.bytes command.render.value).length + 2 + queueLoad rest

def transmitterLoad : Transmitter → Nat
  | .idle => 0
  | .writing _ rest _ => rest.length + 1
  | .flushing => 1

/-- How much the transmitter still has to do at most. -/
def transmitLoad (m : Modem) : Nat :=
  transmitterLoad m.transmitter + queueLoad m.link.commands

theorem transmitterLoad_offering (command : Command) (rest : List UInt8) :
    transmitterLoad (.offering command rest) = rest.length + 1 := by
  cases rest <;> rfl

theorem load_transmitStep_lt (m : Modem) (x : Traced Output Modem)
    (h : m.transmitStep = some x) : x.value.transmitLoad < m.transmitLoad := by
  have hsending := sending_transmitStep h
  generalize x.trace = outs, x.value = m' at hsending
  cases hsending with
  | take hidle hcommands =>
    rw [transmitLoad, transmitterLoad_offering]
    simp only [transmitLoad, hidle, hcommands, transmitterLoad, queueLoad]
    omega
  | @write command rest ne_nil n hwriting hn =>
    have hpos := WriteAnswer.pos_of_accepted? (List.length_pos_iff.2 ne_nil) hn
    have hrest := List.length_pos_iff.2 ne_nil
    rw [transmitLoad, transmitterLoad_offering, List.length_drop]
    simp only [transmitLoad, hwriting, transmitterLoad]
    omega
  | failWrite hwriting _ =>
    simp only [transmitLoad, hwriting, transmitterLoad]
    omega
  | flush hflushing _ | failFlush hflushing _ =>
    simp only [transmitLoad, hflushing, transmitterLoad]
    omega

/-- All of the transmitter's work that can be done now. -/
def transmit (m : Modem) : Traced Output Modem :=
  Traced.exhaust transmitStep transmitLoad load_transmitStep_lt m

end CellModem.Modem
