import Tokenwise.Callable.Stock
import Tokenwise.Grammar.Definitions
import Tokenwise.Parser.Probe
import Tokenwise.Parser.Whole
import Tokenwise.Proofs.Callable.Currying
import Tokenwise.Proofs.Choice.Conservative
import Tokenwise.Proofs.Choice.Regroup
import Tokenwise.Proofs.Failure.Found
import Tokenwise.Proofs.Failure.OneLine
import Tokenwise.Proofs.Grammar.Csv
import Tokenwise.Proofs.Grammar.Nested
import Tokenwise.Proofs.Parser.AtEnd
import Tokenwise.Proofs.Parser.ExactCount
import Tokenwise.Proofs.Parser.Lockstep
import Tokenwise.Proofs.Parser.NextToken
import Tokenwise.Proofs.Parser.Onward
import Tokenwise.Proofs.Parser.Repetition
import Tokenwise.Proofs.Parser.Requests
import Tokenwise.Proofs.Parser.Termination
import Tokenwise.Proofs.Value.Distinct
import Tokenwise.Proofs.Value.FirstAppearance
import Tokenwise.Proofs.Value.HashKey
import Tokenwise.Proofs.Choice.Factoring
import Tokenwise.Proofs.Choice.OneMatcher
import Tokenwise.Proofs.Parser.Combination
import Tokenwise.Proofs.Parser.LongestPrefix
import Tokenwise.Proofs.Parser.Literal
import Tokenwise.Proofs.Grammar.SeparatedTokens
import Tokenwise.Proofs.Failure.Caret
import Tokenwise.Proofs.Value.Union
import Tokenwise.Proofs.Parser.Grouping
import Tokenwise.Proofs.Parser.NestedNames
import Tokenwise.Proofs.Stream.Rest
