import CellModem.Request
import CellModem.FinalResult
import CellModem.Urc

/-!
# Notices

Everything that the library reports beside its results, as causes. How grave a
cause is, is decided here; how it is worded, in the module on wording.
-/

namespace CellModem

/-- How grave a notice is, the gravest first. -/
inductive Level where
  | error
  | warn
  | info
  | debug
  | trace
deriving DecidableEq

/-- The place of a level, counted from the gravest. -/
def Level.rank : Level → Nat
  | .error => 0
  | .warn => 1
  | .info => 2
  | .debug => 3
  | .trace => 4

/-- Whether something of level `l` is reported where `least` is the least grave
level reported. -/
def Level.reported (least l : Level) : Bool := l.rank ≤ least.rank

/-- Something worth reporting. -/
inductive Notice where
  /-- The line buffer was to be filled without room in it. -/
  | bufferFull (capacity : Nat)
  /-- A line grew too long without an end; all that was buffered is dropped. -/
  | lineTooLong (limit dropped : Nat)
  | transportClosed
  /-- The receiver gave up handing a line to the command that is running. -/
  | replyNotTaken
  /-- A line that came while nothing was asked, and is no message. -/
  | unknownLine (bytes : List UInt8)
  | runFailed (request : Request) (failure : Failure)
  | commandCut
  | numberCut
  | shortWrite (accepted offered : Nat)
  /-- There were more calls than are kept. -/
  | callListFull
  | badCallEntry (bytes : List UInt8)
  | configValuesCut (values : String)
  /-- An error was reported in words in place of a number. -/
  | verboseError (code : String)
  | notText (bytes : List UInt8)
  /-- A line within a reply that nobody knows. -/
  | unexpectedLine (bytes : List UInt8)
  | probeFailed (attempt : Nat)
  | bringingUp
  | broughtUp
  | sending (rendered : String)
  | published (urc : Urc)
  /-- A line left over from an earlier reply. -/
  | staleLine (bytes : List UInt8)
  | framed (bytes : List UInt8)
  | runStarted (request : Request)
  | runCompleted (request : Request)
  | bytesRead (bytes : List UInt8)
deriving DecidableEq

/-- How grave a notice is. -/
def Notice.level : Notice → Level
  | .bufferFull _ | .lineTooLong _ _ | .transportClosed | .replyNotTaken
  | .unknownLine _ | .runFailed _ _ => .error
  | .commandCut | .numberCut | .shortWrite _ _ | .callListFull | .badCallEntry _
  | .configValuesCut _ | .verboseError _ | .notText _ | .unexpectedLine _
  | .probeFailed _ => .warn
  | .bringingUp | .broughtUp => .info
  | .sending _ | .published _ | .staleLine _ => .debug
  | .framed _ | .runStarted _ | .runCompleted _ | .bytesRead _ => .trace

end CellModem
