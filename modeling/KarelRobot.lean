import KarelRobot.CommandLine.Arguments
import KarelRobot.Main
import KarelRobot.Proofs.Layout
import KarelRobot.Machine.StackTrace
import KarelRobot.Proofs.Linking
import KarelRobot.Proofs.Grammar
import KarelRobot.Proofs.Reachability
import KarelRobot.Proofs.Reading
import KarelRobot.Proofs.Acceptance
import KarelRobot.Proofs.Tokens
import KarelRobot.Proofs.Scoping
import KarelRobot.Proofs.Compilation
import KarelRobot.Proofs.Evaluation
import KarelRobot.Proofs.Execution
import KarelRobot.Proofs.Placement
import KarelRobot.Proofs.Calling
import KarelRobot.Proofs.Simulation
import KarelRobot.Proofs.Correctness
import KarelRobot.Proofs.CallStack
import KarelRobot.Proofs.Safety
import KarelRobot.Proofs.Stepping
import KarelRobot.Proofs.Nesting
import KarelRobot.Proofs.Termination
import KarelRobot.Proofs.Outline
import KarelRobot.Proofs.Rejection
import KarelRobot.Proofs.Segments
import KarelRobot.Proofs.Silence
import KarelRobot.Proofs.Effects
import KarelRobot.Proofs.Robustness
import KarelRobot.Proofs.Locality
import KarelRobot.Proofs.Events
import KarelRobot.Proofs.Relocation
import KarelRobot.Proofs.Spacing
import KarelRobot.Proofs.DepthFirst
import KarelRobot.Proofs.Board
import KarelRobot.Proofs.Positions
import KarelRobot.Proofs.Numerals
import KarelRobot.Proofs.StackTraces
import KarelRobot.Proofs.Suggestions
import KarelRobot.Proofs.Shadowing
import KarelRobot.Proofs.Negations
import KarelRobot.Proofs.Excursions
import KarelRobot.Proofs.Violations
import KarelRobot.Proofs.Enumeration
import KarelRobot.Proofs.Occurrences
import KarelRobot.Proofs.Findings
import KarelRobot.Proofs.Failures
import KarelRobot.Proofs.Replays
import KarelRobot.Proofs.Lexemes
import KarelRobot.Proofs.References
import KarelRobot.Proofs.EditDistance
import KarelRobot.Proofs.Pulling
import KarelRobot.Proofs.Walls
import KarelRobot.Proofs.Pictures
import KarelRobot.Proofs.Lines
import KarelRobot.Proofs.Snippets
import KarelRobot.Proofs.Listings
import KarelRobot.Proofs.Conditions
import KarelRobot.Proofs.Walks
