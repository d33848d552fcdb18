import ScriptPir.Expectation
import ScriptPir.Host.World
import ScriptPir.Main
import ScriptPir.Proofs.Reading
import ScriptPir.Proofs.Unambiguous
import ScriptPir.Tree.Graph
import ScriptPir.Value.Tagged
import ScriptPir.Proofs.Grouping
import ScriptPir.Proofs.ExpressionParsing
import ScriptPir.Proofs.Lexing
import ScriptPir.Proofs.Precedence
import ScriptPir.Proofs.StatementParsing
import ScriptPir.Proofs.Walk
import ScriptPir.Proofs.Passage
import ScriptPir.Proofs.ExpressionLowering
import ScriptPir.Proofs.SimpleLowering
import ScriptPir.Proofs.Layout
import ScriptPir.Proofs.Staging
import ScriptPir.Proofs.StatementLowering
import ScriptPir.Proofs.ScriptLowering
import ScriptPir.Proofs.Evaluation
import ScriptPir.Proofs.Machine
import ScriptPir.Proofs.Simulation
import ScriptPir.Proofs.Paths
import ScriptPir.Proofs.WellFormed
import ScriptPir.Proofs.Keeping
import ScriptPir.Proofs.Legs
import ScriptPir.Proofs.Labelling
import ScriptPir.Proofs.Registers
import ScriptPir.Proofs.Liveness
import ScriptPir.Proofs.Declarations
import ScriptPir.Proofs.Exits
import ScriptPir.Proofs.Faults
import ScriptPir.Proofs.Folding
import ScriptPir.Proofs.Deferral
import ScriptPir.Proofs.Placement
import ScriptPir.Proofs.Introduction
import ScriptPir.Proofs.DeclaredOnce
import ScriptPir.Proofs.Provenance
import ScriptPir.Proofs.Escapes
import ScriptPir.Proofs.Quoting
import ScriptPir.Proofs.Tiling
import ScriptPir.Proofs.Growth
import ScriptPir.Proofs.StatementGrowth
import ScriptPir.Proofs.Continuation
import ScriptPir.Proofs.StatementCompletion
import ScriptPir.Proofs.ReadFailure
import ScriptPir.Proofs.Spelling
import ScriptPir.Proofs.StatementLeaves
import ScriptPir.Proofs.StatementSpacing
import ScriptPir.Proofs.FunctionCode
import ScriptPir.Proofs.Probe
import ScriptPir.Proofs.Valuation
import ScriptPir.Proofs.ConstantFolding
import ScriptPir.Proofs.Finiteness
import ScriptPir.Proofs.ExactFolding
import ScriptPir.Proofs.Framing
import ScriptPir.Proofs.Delivery
import ScriptPir.Proofs.Unfolding
import ScriptPir.Proofs.Expectations
import ScriptPir.Proofs.Consumption
import ScriptPir.Proofs.Advancement
import ScriptPir.Proofs.Progress
import ScriptPir.Proofs.Rounding
import ScriptPir.Proofs.ShortestDigits
import ScriptPir.Proofs.PointedDecimals
import ScriptPir.Proofs.FloatReading
import ScriptPir.Proofs.RenderedConstants
import ScriptPir.Proofs.Numerals
