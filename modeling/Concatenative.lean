import Concatenative.Cursor
import Concatenative.Main
import Concatenative.Proofs.Continuation
import Concatenative.Proofs.LineNumbers
import Concatenative.Proofs.Legibility
import Concatenative.Proofs.RoundTrip
import Concatenative.Proofs.Accumulation
import Concatenative.Proofs.Regime
import Concatenative.Proofs.Scripts
import Concatenative.Proofs.Trail
import Concatenative.Proofs.Grammar
import Concatenative.Proofs.Completion
import Concatenative.Proofs.BetweenLines
import Concatenative.Proofs.Conversation
import Concatenative.Proofs.Brackets
import Concatenative.Proofs.Simulation
import Concatenative.Proofs.Underflow
import Concatenative.Proofs.StackFrame
import Concatenative.Proofs.LinesUnseen
import Concatenative.Proofs.Unmentioned
import Concatenative.Proofs.Redefinition
import Concatenative.Proofs.StackDump
import Concatenative.Proofs.Definitions
import Concatenative.Proofs.Layout
import Concatenative.Proofs.KeptNewlines
import Concatenative.Proofs.FeedNumbers
import Concatenative.Proofs.Trimming
import Concatenative.Proofs.Signatures
import Concatenative.Proofs.StackEffects
import Concatenative.Proofs.Arithmetic
import Concatenative.Proofs.Listing
import Concatenative.Proofs.Numerals
import Concatenative.Parser
import Concatenative.Proofs.Reading
import Concatenative.Proofs.Lexing
