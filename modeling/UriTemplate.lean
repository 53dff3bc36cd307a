import UriTemplate.Datum
import UriTemplate.Resolution
import UriTemplate.Proofs.Expansion
import UriTemplate.Proofs.Grammar.Abnf
import UriTemplate.Proofs.Grammar.Compiling
import UriTemplate.Proofs.Grammar.Scanning
import UriTemplate.Proofs.Grammar.Templates
import UriTemplate.Proofs.Grammar.Variables
import UriTemplate.Proofs.Grammar.Verdicts
import UriTemplate.Proofs.Matching.Ambiguity
import UriTemplate.Proofs.Matching.Greedy
import UriTemplate.Proofs.Matching.Language
import UriTemplate.Proofs.Matching.Search
import UriTemplate.Proofs.Matching.Splits
import UriTemplate.Proofs.Matching.UpperCase
import UriTemplate.Proofs.Matching.Values
import UriTemplate.Proofs.Parts
import UriTemplate.Proofs.Percent.ByteScan
import UriTemplate.Proofs.Percent.Image
import UriTemplate.Proofs.Percent.Pieces
import UriTemplate.Proofs.Percent.RoundTrip
import UriTemplate.Proofs.Percent.Stretches
import UriTemplate.Proofs.Percent.UpperCase
import UriTemplate.Proofs.Regex.Agreement
import UriTemplate.Proofs.Regex.Backtrack
import UriTemplate.Proofs.Regex.Syntax
import UriTemplate.Proofs.Resolution
import UriTemplate.Proofs.Utf8
import UriTemplate.Proofs.Assembly
import UriTemplate.Proofs.Types
import UriTemplate.Proofs.Confinement
import UriTemplate.Proofs.Drafts
import UriTemplate.Proofs.Canonical
import UriTemplate.Proofs.Defaults
import UriTemplate.Proofs.Equality
import UriTemplate.Proofs.Grammar.Expressions
import UriTemplate.Proofs.Regex.Shape
import UriTemplate.Proofs.Grammar.Refusals
import UriTemplate.Proofs.Events
import UriTemplate.Proofs.Percent.Decoding
import UriTemplate.Proofs.Sources
