import Lindenmayer.Figure.Basic
import Lindenmayer.Stored.LSystem
import Lindenmayer.Stored.Turtle
import Lindenmayer.Stored.Figure
import Lindenmayer.Export.Modules
import Lindenmayer.Proofs.Bracket.Balanced
import Lindenmayer.Proofs.Bracket.Trunk
import Lindenmayer.Proofs.Canvas.Stack
import Lindenmayer.Proofs.Turtle.Trace
import Lindenmayer.Proofs.Turtle.Unwinding
import Lindenmayer.Proofs.Turtle.Path
import Lindenmayer.Proofs.Figure.Run
import Lindenmayer.Proofs.Grammar.Expansion
import Lindenmayer.Proofs.Figure.Restoration
import Lindenmayer.Proofs.Json.Numeral
import Lindenmayer.Proofs.Json.Quoted
import Lindenmayer.Proofs.Json.Rendering
import Lindenmayer.Proofs.Json.Reading
import Lindenmayer.Proofs.Stored.LSystem
import Lindenmayer.Proofs.LSystem.Run
import Lindenmayer.Proofs.LSystem.Reload
import Lindenmayer.Proofs.LSystem.Parallel
import Lindenmayer.Proofs.Turtle.Calls
import Lindenmayer.Proofs.Figure.Placement
import Lindenmayer.Proofs.Scalar.Grid
import Lindenmayer.Proofs.Scalar.Error
import Lindenmayer.Proofs.Scalar.Reach
import Lindenmayer.Proofs.Scalar.Double
import Lindenmayer.Proofs.Scalar.Scaling
import Lindenmayer.Proofs.Scalar.Shortest
import Lindenmayer.Proofs.Scalar.Clearance
import Lindenmayer.Proofs.Scalar.Gap
import Lindenmayer.Proofs.Scalar.Single
import Lindenmayer.Proofs.Scalar.Readback
import Lindenmayer.Proofs.Json.Single
import Lindenmayer.Proofs.Stored.Turtle
import Lindenmayer.Proofs.Figure.History
import Lindenmayer.Proofs.Canvas.Repetition
import Lindenmayer.Proofs.Figure.Repetition
import Lindenmayer.Proofs.Export.Interning
import Lindenmayer.Proofs.Export.Lossless
import Lindenmayer.Proofs.Export.Sharing
import Lindenmayer.Proofs.Canvas.Recording
import Lindenmayer.Proofs.Grammar.Growth
import Lindenmayer.Proofs.Figure.Growth
import Lindenmayer.Proofs.Json.Fragment
import Lindenmayer.Proofs.Json.Syntax
import Lindenmayer.Proofs.Json.Scanning
import Lindenmayer.Proofs.Json.Lexing
import Lindenmayer.Proofs.Json.Acceptance
import Lindenmayer.Proofs.Json.Schema
import Lindenmayer.Proofs.Json.Thorough
import Lindenmayer.Proofs.Json.Fields
import Lindenmayer.Proofs.Stored.Fields
import Lindenmayer.Proofs.Figure.Refusal
import Lindenmayer.Proofs.Export.Failure
import Lindenmayer.Proofs.Scalar.Whole
import Lindenmayer.Proofs.Turtle.Pen
import Lindenmayer.Proofs.Turtle.Progression
import Lindenmayer.Proofs.Grammar.Equivalence
import Lindenmayer.Proofs.Figure.Alphabet
import Lindenmayer.Proofs.Canvas.Nesting
import Lindenmayer.Proofs.Scalar.Order
import Lindenmayer.Proofs.Canvas.Bounds
import Lindenmayer.Proofs.Grammar.Table
import Lindenmayer.Proofs.Json.Around
import Lindenmayer.Proofs.Json.Number
import Lindenmayer.Proofs.Json.Keeping
import Lindenmayer.Proofs.Stored.Figure
import Lindenmayer.Proofs.Figure.Rules
