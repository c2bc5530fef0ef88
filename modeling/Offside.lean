import Offside.Expansion.Stock
import Offside.Session
import Offside.Proofs.Token.Lines
import Offside.Proofs.Token.Tiling
import Offside.Proofs.Layout.Ancestry
import Offside.Proofs.Layout.Conservation
import Offside.Proofs.Layout.FittingIndents
import Offside.Proofs.Layout.OutlineReading
import Offside.Proofs.Compile
import Offside.Proofs.Expansion.Course
import Offside.Proofs.Layout.Nested
import Offside.Proofs.Layout.OffsideRule
import Offside.Proofs.Layout.RoundTrip
import Offside.Proofs.Expansion.Agreement
import Offside.Proofs.Expansion.Levels
import Offside.Proofs.Expansion.CutOff
import Offside.Proofs.Expansion.Walk
import Offside.Proofs.Layout.Inert
import Offside.Proofs.Layout.Offers
import Offside.Proofs.Layout.Spacing
import Offside.Proofs.Layout.Succession
import Offside.Proofs.Token.Insertion
import Offside.Proofs.Layout.BlankLine
import Offside.Proofs.Expansion.Derivation
import Offside.Proofs.Expansion.Runaway
import Offside.Proofs.Layout.ForestHeight
import Offside.Proofs.Layout.NestingLimit
import Offside.Proofs.Token.LineShape
import Offside.Proofs.Layout.FaultPlaces
import Offside.Proofs.Layout.SigilChoice
import Offside.Proofs.Token.Alternation
import Offside.Proofs.Token.Locality
import Offside.Proofs.Layout.BlockHistory
import Offside.Proofs.Layout.OpenCalls
import Offside.Proofs.Token.LineEnding
import Offside.Proofs.Expansion.Stages
import Offside.Proofs.Expansion.Concatenation
import Offside.Proofs.Text.Count
import Offside.Proofs.Expansion.Repetition
import Offside.Proofs.Expansion.Kept
import Offside.Proofs.Expansion.Requests
import Offside.Proofs.Layout.OneLine
import Offside.Proofs.Layout.Rereading
import Offside.Proofs.Layout.CallableNames
import Offside.Proofs.Layout.Oddities
import Offside.Proofs.Layout.ClosedCalls
import Offside.Proofs.Expansion.Budget
import Offside.Proofs.Expansion.PlainMacros
