import DocRules.Engine
import DocRules.File
import DocRules.Rule.Structured
import DocRules.Proofs.Evaluation.Source
import DocRules.Proofs.Evaluation.Direct
import DocRules.Proofs.Evaluation.Trace
import DocRules.Proofs.Evaluation.TwoPass
import DocRules.Proofs.Grammar
import DocRules.Proofs.Grammar.Reading
import DocRules.Proofs.Reduction.Chain
import DocRules.Proofs.Precedence
import DocRules.Proofs.Grammar.Acceptance
import DocRules.Proofs.Evaluation.Indexed
import DocRules.Proofs.Binary64.Rounding
import DocRules.Proofs.Binary64.Shortest
import DocRules.Proofs.Decimal
import DocRules.Proofs.Binary64.Text
import DocRules.Proofs.Token
import DocRules.Proofs.Value
import DocRules.Proofs.Rule.Text
import DocRules.Proofs.Canonical
import DocRules.Proofs.Bytes
import DocRules.Proofs.Cache.Payload
import DocRules.Proofs.Cache.Validity
import DocRules.Proofs.Cache.Frame
import DocRules.Proofs.Cache.Parsed
import DocRules.Proofs.Evaluation.Bound
import DocRules.Proofs.Evaluation.Unrolled
import DocRules.Proofs.Cache.Decoded
import DocRules.Proofs.Evaluation.Kinds
import DocRules.Proofs.Token.Extent
import DocRules.Proofs.Binary64.Exact
import DocRules.Proofs.Json.Numeral
import DocRules.Proofs.Json.Number
import DocRules.Proofs.Evaluation.Numeral
import DocRules.Proofs.Evaluation.Policies
import DocRules.Proofs.Rule.Shape
import DocRules.Proofs.Rule.Reprint
import DocRules.Proofs.Json.Text
import DocRules.Proofs.Rule.Structured
import DocRules.Proofs.Cache.Tampering
import DocRules.Proofs.Cache.Extent
import DocRules.Proofs.Json.Path
import DocRules.Proofs.Reduction.Lookahead
import DocRules.Proofs.Evaluation.Elements
import DocRules.Proofs.Evaluation.Effect
import DocRules.Proofs.Evaluation.Frames
import DocRules.Proofs.Evaluation.Iterations
import DocRules.Proofs.Evaluation.Quoted
import DocRules.Proofs.Reduction.Frontier
import DocRules.Proofs.Grammar.Fault
import DocRules.Proofs.Token.Cutoff
import DocRules.Proofs.Grammar.Layout
import DocRules.Proofs.Token.Listing
import DocRules.Proofs.Text.Occurrence
import DocRules.Proofs.Context
