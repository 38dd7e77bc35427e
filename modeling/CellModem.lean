import CellModem.Text.Blank
import CellModem.Text.Cut
import CellModem.Text.Escape
import CellModem.Text.Lead
import CellModem.Text.Numeral
import CellModem.Text.Utf8
import CellModem.Token
import CellModem.Field
import CellModem.Line
import CellModem.PhoneNumber
import CellModem.Request
import CellModem.Call
import CellModem.SimStatus
import CellModem.Registration
import CellModem.ConfigValue
import CellModem.FinalResult
import CellModem.Urc
import CellModem.Response
import CellModem.Notice
import CellModem.Notice.Wording
import CellModem.Traced
import CellModem.Logged
import CellModem.Command
import CellModem.Command.Rendering
import CellModem.Sink
import CellModem.Call.Decoder
import CellModem.ConfigValue.Decoder
import CellModem.FinalResult.Decoder
import CellModem.Urc.Decoder
import CellModem.Response.Accept
import CellModem.Transaction
import CellModem.LineBuffer
import CellModem.Backlog
import CellModem.Link
import CellModem.Run
import CellModem.Job
import CellModem.Writer
import CellModem.Modem
import CellModem.Modem.Tasks
import CellModem.Modem.Receiving
import CellModem.Modem.Transmitting
import CellModem.Modem.Executor
import CellModem.Modem.History
import CellModem.Proofs.Reply
import CellModem.Proofs.Recognition
import CellModem.Proofs.Results
import CellModem.Proofs.Matching
import CellModem.Proofs.Exchange
import CellModem.Proofs.Framing
import CellModem.Proofs.Draining
import CellModem.Proofs.Storage
import CellModem.Proofs.Reception
import CellModem.Proofs.Turns
import CellModem.Proofs.Outputs
import CellModem.Proofs.Pieces
import CellModem.Proofs.Refinement
import CellModem.Proofs.Leftovers
import CellModem.Proofs.Story
import CellModem.Proofs.Course
import CellModem.Proofs.Timeouts
import CellModem.Proofs.BringUp
import CellModem.Proofs.Ordering
import CellModem.Proofs.Awaiting
import CellModem.Proofs.Serial
import CellModem.Proofs.Listening
import CellModem.Proofs.Losses
import CellModem.Proofs.Overlong
import CellModem.Proofs.Offering
import CellModem.Proofs.Transmission
import CellModem.Proofs.Truncation
import CellModem.Proofs.Fitting
import CellModem.Proofs.Echo
import CellModem.Proofs.Fields
import CellModem.Proofs.Scanning
import CellModem.Proofs.Numerals
import CellModem.Proofs.Registration
import CellModem.Proofs.Settings
import CellModem.Proofs.Calls
import CellModem.Proofs.Messages
import CellModem.Proofs.Fitting
import CellModem.Proofs.Results
