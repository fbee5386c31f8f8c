import Glr.Grammar.Build
import Glr.Language.Registry
import Glr.Lexer.Token
import Glr.Parser.Basic
import Glr.Proofs.Derivation
import Glr.Proofs.Growth
import Glr.Sea.Language
import Glr.Tree.Bounds
import Glr.Proofs.Closure
import Glr.Proofs.States
import Glr.Proofs.FirstSets
import Glr.Proofs.Flow
import Glr.Proofs.Rows
import Glr.Proofs.Lowered
import Glr.Proofs.Recognition
import Glr.Proofs.OldTree
import Glr.Proofs.Built
import Glr.Proofs.Frontier
import Glr.Proofs.Turns
import Glr.Proofs.Compiled
import Glr.Proofs.Building
import Glr.Proofs.Measured
import Glr.Proofs.Moves
import Glr.Proofs.Spread
import Glr.Proofs.Coverage
import Glr.Proofs.Grown
import Glr.Proofs.Paths
import Glr.Proofs.Trees
import Glr.Proofs.Sentences
import Glr.Proofs.Roots
import Glr.Proofs.Unambiguous
import Glr.Proofs.Reparse
import Glr.Proofs.Reached
import Glr.Proofs.Tracks
import Glr.Proofs.Expansion
import Glr.Proofs.Flattening
import Glr.Proofs.Faults
import Glr.Proofs.Ledger
import Glr.Proofs.Best
import Glr.Proofs.Encoding
import Glr.Proofs.Written
import Glr.Proofs.Payload
import Glr.Proofs.Container
import Glr.Proofs.Recency
import Glr.Proofs.Overlap
import Glr.Proofs.Layout
import Glr.Proofs.Loadable
import Glr.Proofs.Locality
import Glr.Proofs.Tokens
import Glr.Proofs.Readings
import Glr.Proofs.Spared
import Glr.Proofs.Extents
import Glr.Proofs.Spelled
import Glr.Proofs.Spelling
import Glr.Proofs.InStep
import Glr.Proofs.Untouched
import Glr.Proofs.Following
import Glr.Proofs.Reusable
import Glr.Proofs.Taken
import Glr.Proofs.Closing
import Glr.Proofs.Handover
import Glr.Proofs.Edges
import Glr.Proofs.Heeding
import Glr.Proofs.Reparsed
import Glr.Proofs.Precedence
import Glr.Proofs.Scanning
import Glr.Proofs.Selection
import Glr.Proofs.TextEnd
import Glr.Proofs.RootKind
import Glr.Proofs.TokenTexts
import Glr.Proofs.Positions
import Glr.Proofs.Finding
import Glr.Proofs.Aligned
import Glr.Proofs.Justified
import Glr.Proofs.Abreast
import Glr.Proofs.Progress
import Glr.Proofs.Ranking
import Glr.Proofs.Seeking
import Glr.Proofs.Totals
