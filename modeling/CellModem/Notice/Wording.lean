import CellModem.Notice
import CellModem.Text.Escape
import CellModem.Text.Utf8

/-!
# The wording of notices

One sentence for each cause. Values are written in a fixed form: texts in
quotes, bytes as lists of numbers, and compound values by name with their
parts in brackets.
-/

namespace CellModem

/-- A value that may be missing. -/
def describeOption {α : Type} (describe : α → String) : Option α → String
  | none => "None"
  | some a => "Some(" ++ describe a ++ ")"

def PhoneNumber.describe (n : PhoneNumber) : String :=
  "Number(" ++ Text.quoted n.text ++ ")"

def Request.describe : Request → String
  | .attention => "At"
  | .setEcho on => "SetEcho(" ++ (if on then "true" else "false") ++ ")"
  | .dial number => "Dial(" ++ number.describe ++ ")"
  | .answer => "Answer"
  | .hangUp => "HangUp"
  | .listCalls => "ListCalls"
  | .simStatus => "GetSimStatus"
  | .enterPin pin => "EnterPin(" ++ Text.quoted pin ++ ")"
  | .registration => "GetRegistration"
  | .queryConfig name => "QueryConfig(" ++ Text.quoted name ++ ")"
  | .setConfig name value =>
    "SetConfig \x7b name: " ++ Text.quoted name ++ ", value: " ++
      Text.quoted value ++ " \x7d"
  | .reboot => "Reboot"
  | .powerDown => "PowerDown"

def SimStatus.describe : SimStatus → String
  | .unknown => "Unknown"
  | .ready => "Ready"
  | .simPin => "SimPin"
  | .simPuk => "SimPuk"
  | .simPin2 => "SimPin2"
  | .simPuk2 => "SimPuk2"
  | .phoneSimPin => "PhoneSimPin"
  | .notInserted => "NotInserted"

def Registration.Status.describe : Registration.Status → String
  | .notRegistered => "NotRegistered"
  | .registeredHome => "RegisteredHome"
  | .searching => "Searching"
  | .registrationDenied => "RegistrationDenied"
  | .unknown => "Unknown"
  | .registeredRoaming => "RegisteredRoaming"

def Registration.describe (r : Registration) : String :=
  "NetworkRegistration \x7b status: " ++ r.status.describe ++
    ", lac: " ++ describeOption (fun a => toString a.toNat) r.area ++
    ", ci: " ++ describeOption (fun c => toString c.toNat) r.cell ++ " \x7d"

def Urc.describe : Urc → String
  | .ring => "Ring(Ring)"
  | .callerId number =>
    "CallerId(CallerId \x7b number: " ++ describeOption PhoneNumber.describe
      number ++ " \x7d)"
  | .callEnded => "CallEnded(CallEnded)"
  | .simStatus status => "SimStatus(" ++ status.describe ++ ")"
  | .registration r => "NetworkRegistration(" ++ r.describe ++ ")"
  | .ready => "Ready(Ready)"
  | .poweredDown => "PoweredDown(PoweredDown)"
  | .indication payload =>
    "Indication(Indication \x7b payload: " ++
      Text.quoted payload.text ++ " \x7d)"

def ModemError.describe : ModemError → String
  | .generic => "Generic"
  | .equipment code => "CmeErr \x7b code: " ++ toString code.toNat ++ " \x7d"
  | .messageService code => "CmsErr \x7b code: " ++
      toString code.toNat ++ " \x7d"
  | .noCarrier => "NoCarrier"
  | .busy => "Busy"
  | .noAnswer => "NoAnswer"
  | .noDialtone => "NoDialtone"

def Failure.describe : Failure → String
  | .serial => "Serial"
  | .timeout => "Timeout"
  | .modem e => "Modem(" ++ e.describe ++ ")"

/-- What was read, as text if it is text. -/
def describeRead (bytes : List UInt8) : String :=
  match Text.ofBytes? bytes with
  | some s => "BYTES READ " ++ Text.quoted s
  | none => "READ INVALID " ++ Text.byteList bytes

/-- The sentence for a notice. -/
def Notice.message : Notice → String
  | .bufferFull capacity =>
    "read buffer is full (" ++ toString capacity ++
      " bytes), consume lines before filling"
  | .lineTooLong limit dropped =>
    "line exceeds " ++ toString limit ++ " bytes, discarding " ++
      toString dropped ++ " buffered bytes"
  | .transportClosed => "modem transport closed"
  | .replyNotTaken => "reply queue send timed out"
  | .unknownLine bytes => "Got unknown response: " ++ Text.byteList bytes
  | .runFailed request failure =>
    "AT command " ++ request.describe ++ " error: " ++ failure.describe
  | .commandCut => "command truncated to 256 bytes"
  | .numberCut => "phone number truncated to 50 bytes"
  | .shortWrite accepted offered =>
    "transport accepted " ++ toString accepted ++ " of " ++ toString offered ++
      " command bytes"
  | .callListFull => "more than 7 calls listed, ignoring the rest"
  | .badCallEntry bytes => "failed to parse call list entry: " ++
      Text.byteList bytes
  | .configValuesCut values => "config values truncated: " ++ Text.quoted values
  | .verboseError code => "verbose error report: " ++ Text.quoted code
  | .notText bytes => "Got non UTF-8 line: " ++ Text.byteList bytes
  | .unexpectedLine bytes => "Got unexpected line: " ++ Text.byteList bytes
  | .probeFailed attempt =>
    "AT failed, attempt " ++ toString attempt ++
      "/10, retrying after Duration \x7b ticks: 500000 \x7d"
  | .bringingUp => "initializing modem"
  | .broughtUp => "modem successfully initialized"
  | .sending rendered => "Write to modem: " ++ Text.quoted rendered
  | .published urc => "Got URC: " ++ urc.describe
  | .staleLine bytes => "Dropping stale reply line: " ++ Text.byteList bytes
  | .framed bytes => "RECV LINE: " ++ Text.byteList bytes
  | .runStarted request => "Running AT command: " ++ request.describe
  | .runCompleted request => "Completed AT command: " ++ request.describe
  | .bytesRead bytes => describeRead bytes

end CellModem
