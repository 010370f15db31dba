import Reckoner.Main
import Reckoner.Proofs.Agreement
import Reckoner.Proofs.Arguments
import Reckoner.Proofs.CanonicalForm
import Reckoner.Proofs.CompletedWords
import Reckoner.Proofs.Definitions
import Reckoner.Proofs.ExactValues
import Reckoner.Proofs.FirstDefect
import Reckoner.Proofs.FreshEvaluation
import Reckoner.Proofs.History
import Reckoner.Proofs.Layout
import Reckoner.Proofs.Marking
import Reckoner.Proofs.NegativeArgument
import Reckoner.Proofs.NegativeBase
import Reckoner.Proofs.NumberForm
import Reckoner.Proofs.Parentheses
import Reckoner.Proofs.PositionalReading
import Reckoner.Proofs.Powers
import Reckoner.Proofs.ReadSet
import Reckoner.Proofs.Replay
import Reckoner.Proofs.RoundingBounds
import Reckoner.Proofs.ShortestDecimal
import Reckoner.Proofs.StackDiscipline
import Reckoner.Proofs.Substitution
import Reckoner.Text.Base64
import Reckoner.Yaml.Source
import Reckoner.Yaml.Timestamp
