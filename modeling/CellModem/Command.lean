import CellModem.Logged
import CellModem.Request

/-!
# Commands

A command is the line of text that asks for something, at most 256 bytes long
and without its end of line. `Request.encode` writes the command for each
request. Text from outside is put in piece by piece, and a piece that does not
fit is cut where the space ends.
-/

namespace CellModem

/-- The text of a command, without its end of line. -/
structure Command where
  content : BoundedText 256
deriving DecidableEq

namespace Command

/-- The most bytes that a command takes, its end of line included once
it is rendered. -/
def limit : Nat := 256

def text (c : Command) : String := c.content.text

def empty : Command := ⟨.empty⟩

instance : Inhabited Command := ⟨empty⟩

/-- Appends a piece, or as much of it as fits. -/
def push (c : Command) (piece : String) : Logged Command := do
  Logged.noteIf (!c.content.admits piece) .commandCut
  return ⟨c.content.push piece⟩

@[simp] theorem value_push (c : Command) (piece : String) :
    (c.push piece).value = ⟨c.content.push piece⟩ := rfl

/-- Appends pieces one by one; each finds its own end. -/
def pushAll (c : Command) : List String → Logged Command
  | [] => return c
  | piece :: pieces => do
    let c ← c.push piece
    c.pushAll pieces

def ofPieces (pieces : List String) : Logged Command := empty.pushAll pieces

def ofText (s : String) : Logged Command := empty.push s

/-- A sign of life. -/
def attention : String := "AT"

/-- Takes an incoming call. -/
def answer : String := "ATA"

/-- Leads the number to dial, which a semicolon marks as a voice call. -/
def dial : String := "ATD"

/-- Ends all calls. -/
def hangUp : String := "ATH"

def echoOff : String := "ATE0"

def echoOn : String := "ATE1"

def listCalls : String := "AT+CLCC"

/-- Switches the modem off. -/
def powerDown : String := "AT+QPOWD"

/-- Leads the name of a setting. -/
def config : String := "AT+QCFG="

/-- Full function, after a restart. -/
def reboot : String := "AT+CFUN=1,1"

def simStatus : String := "AT+CPIN?"

/-- Leads the PIN in quotes. -/
def enterPin : String := "AT+CPIN="

def registration : String := "AT+CREG?"

end Command

/-- The pieces of which the command for a request is made. -/
def Request.pieces : Request → List String
  | .attention => [Command.attention]
  | .setEcho on => [if on then Command.echoOn else Command.echoOff]
  | .dial number => [Command.dial, number.text, ";"]
  | .answer => [Command.answer]
  | .hangUp => [Command.hangUp]
  | .listCalls => [Command.listCalls]
  | .simStatus => [Command.simStatus]
  | .enterPin pin => [Command.enterPin, "\"", pin, "\""]
  | .registration => [Command.registration]
  | .queryConfig name => [Command.config, "\"", name, "\""]
  | .setConfig name value => [Command.config, "\"", name, "\",", value]
  | .reboot => [Command.reboot]
  | .powerDown => [Command.powerDown]

/-- The command that asks for what is requested. -/
def Request.encode (r : Request) : Logged Command := Command.ofPieces r.pieces

end CellModem
