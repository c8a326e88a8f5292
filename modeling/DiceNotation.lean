import DiceNotation.Main
import DiceNotation.Proofs.SetSize
import DiceNotation.Proofs.ExactRuns
import DiceNotation.Proofs.Grammar.Recognition
import DiceNotation.Proofs.Notation.Stability
import DiceNotation.Proofs.Division
import DiceNotation.Proofs.ErrorClasses
import DiceNotation.Proofs.RollOrder
import DiceNotation.Proofs.BuiltLeaves
import DiceNotation.Proofs.Reading.Joined
import DiceNotation.Proofs.JoinedRolls
import DiceNotation.Proofs.Comments
import DiceNotation.Proofs.Histories
import DiceNotation.Proofs.Keeping
import DiceNotation.Proofs.Templates
import DiceNotation.Proofs.Sessions
import DiceNotation.Proofs.Notation.Meaning
import DiceNotation.Proofs.Streams
import DiceNotation.Proofs.Explosions
import DiceNotation.Proofs.Rerolling
import DiceNotation.Proofs.Validation
import DiceNotation.Proofs.Determinism
import DiceNotation.Proofs.PartialResults
import DiceNotation.Proofs.Totals
import DiceNotation.Proofs.HigherRolls
import DiceNotation.Proofs.HitCounts
import DiceNotation.Proofs.FairRolls
import DiceNotation.Proofs.Reading.Compacting
import DiceNotation.Proofs.FoldingOverflow
import DiceNotation.Proofs.Reading.Windows
import DiceNotation.Proofs.Reading.ErrorPositions
import DiceNotation.Proofs.Descriptions.Traces
