import FrontEnd.Main
import FrontEnd.Token.Reader
import FrontEnd.Proofs.Syntax.Nodes
import FrontEnd.Proofs.Syntax.Reading
import FrontEnd.Proofs.Syntax.Grammar
import FrontEnd.Proofs.Syntax.Accepts
import FrontEnd.Proofs.Syntax.Scanning
import FrontEnd.Proofs.Syntax.Coverage
import FrontEnd.Proofs.Syntax.Alike
import FrontEnd.Proofs.Syntax.Relocation
import FrontEnd.Proofs.Syntax.Recognition
import FrontEnd.Proofs.Syntax.Spelling
import FrontEnd.Proofs.Syntax.Rereading
import FrontEnd.Proofs.Syntax.Concatenation
import FrontEnd.Proofs.Syntax.Quotation
import FrontEnd.Proofs.Syntax.Rescanning
import FrontEnd.Proofs.Syntax.Resolution
import FrontEnd.Proofs.Rounding
import FrontEnd.Proofs.Syntax.Ranges
import FrontEnd.Proofs.Syntax.OpenComments
import FrontEnd.Proofs.Syntax.Openings
import FrontEnd.Proofs.Syntax.Introductions
import FrontEnd.Proofs.Scope
import FrontEnd.Proofs.Session
import FrontEnd.Proofs.Typing.Consistent
import FrontEnd.Proofs.Typing.Settled
import FrontEnd.Proofs.Typing.Trail
import FrontEnd.Proofs.Typing.Registration
import FrontEnd.Proofs.Typing.Lexical
import FrontEnd.Proofs.Typing.Simulation
import FrontEnd.Proofs.Typing.Rules
import FrontEnd.Proofs.Typing.Functions
import FrontEnd.Proofs.Typing.Blocks
import FrontEnd.Proofs.Typing.Checking
import FrontEnd.Proofs.Typing.Limit
import FrontEnd.Proofs.Typing.Programs
import FrontEnd.Proofs.Typing.Adequacy
import FrontEnd.Proofs.Typing.Mirror
import FrontEnd.Proofs.Typing.Repetition
import FrontEnd.Proofs.Typing.Idempotence
import FrontEnd.Proofs.Typing.Relocation
import FrontEnd.Proofs.Compile
import FrontEnd.Proofs.Diagnostics
import FrontEnd.Proofs.Typing.Inference
import FrontEnd.Proofs.Typing.Frames
import FrontEnd.Proofs.Typing.Bindings
import FrontEnd.Proofs.Typing.Ledger
import FrontEnd.Proofs.Typing.Rebinding
import FrontEnd.Proofs.Typing.Progress
import FrontEnd.Proofs.Syntax.Hygiene
import FrontEnd.Proofs.Typing.Loops
import FrontEnd.Proofs.Typing.Twins
import FrontEnd.Proofs.Typing.Hygiene
import FrontEnd.Proofs.Typing.ShortForms
import FrontEnd.Proofs.Syntax.Consumption
import FrontEnd.Proofs.Syntax.Cursor
import FrontEnd.Proofs.Outline
import FrontEnd.Proofs.Syntax.Headings
import FrontEnd.Proofs.Typing.Dumps
import FrontEnd.Proofs.Options
import FrontEnd.Proofs.Json
import FrontEnd.Proofs.Metrics.History
import FrontEnd.Proofs.Metrics.Summary
import FrontEnd.Proofs.Metrics.Account
import FrontEnd.Proofs.Syntax.Survey
import FrontEnd.Proofs.Syntax.SourceShape
