import Equational.Violation
import Equational.CommandLine
import Equational.Context
import Equational.Context.Reader
import Equational.Cursor
import Equational.Expansion
import Equational.Expression
import Equational.Formula
import Equational.Heuristic
import Equational.Heuristic.Distance
import Equational.Heuristic.Marking
import Equational.Heuristic.Pairing
import Equational.Heuristic.Scoring
import Equational.IdMap
import Equational.IdMap.Dense
import Equational.Json.Decode
import Equational.Json.Reader
import Equational.Json.Value
import Equational.Kernel
import Equational.Line
import Equational.Main
import Equational.ParseTree
import Equational.ParseTree.Reader
import Equational.Plan
import Equational.ProofState
import Equational.Random
import Equational.Ranking
import Equational.Rewrite
import Equational.Settings
import Equational.Settings.Reader
import Equational.Signature
import Equational.Solver
import Equational.Source
import Equational.Statement
import Equational.Statement.Reader
import Equational.Statistics
import Equational.Stopping
import Equational.Stopping.Normal
import Equational.Supply
import Equational.Term
import Equational.Term.Substitution
import Equational.Term.Occurrence
import Equational.Term.Renaming
import Equational.TermGraph
import Equational.TermGraph.Archive
import Equational.TermGraph.Edit
import Equational.TermGraph.Fold
import Equational.TermGraph.Shared
import Equational.TermGraph.Unfold
import Equational.Text
import Equational.Text.Unprintable
import Equational.Proofs.IdMap
import Equational.Proofs.Substitution
import Equational.Proofs.Occurrence
import Equational.Proofs.Marking
import Equational.Proofs.Matching
import Equational.Proofs.Draws
import Equational.Proofs.Supply
import Equational.Proofs.Storage
import Equational.Proofs.Rewriting
import Equational.Proofs.Kernel
import Equational.Proofs.Expansion
import Equational.Proofs.Successor
import Equational.Proofs.Driving
import Equational.Proofs.Enumeration
import Equational.Proofs.Soundness
import Equational.Proofs.Equivalence
import Equational.Proofs.Renaming
import Equational.Proofs.Repetition
import Equational.Proofs.Equivariance
import Equational.Proofs.Reordering
import Equational.Proofs.Benefit
import Equational.Proofs.Ranking
import Equational.Proofs.Plan
import Equational.Proofs.Freshness
import Equational.Proofs.Serving
import Equational.Proofs.Search
import Equational.Proofs.Solver
import Equational.Proofs.Archive
import Equational.Proofs.Context
import Equational.Proofs.Building
import Equational.Proofs.Loading
import Equational.Proofs.Reloading
import Equational.Proofs.Printing
import Equational.Proofs.RuleSet
import Equational.Proofs.Fingerprint
import Equational.Proofs.Clash
import Equational.Proofs.Moves
import Equational.Proofs.Depth
import Equational.Proofs.Ending
import Equational.Proofs.Steadiness
import Equational.Proofs.Chunking
import Equational.Proofs.Bookkeeping
import Equational.Proofs.Orderliness
import Equational.Proofs.Variables
import Equational.Proofs.Encoding
import Equational.Proofs.Settings
import Equational.Proofs.Unfolding
import Equational.Proofs.Filling
import Equational.Proofs.StoredMatching
import Equational.Proofs.StoredRewriting
import Equational.Proofs.StoredSuccessors
import Equational.Proofs.Shuffling
import Equational.Proofs.Simultaneity
import Equational.Proofs.Implication
import Equational.Proofs.EquivalenceRelation
import Equational.Proofs.Forest
import Equational.Proofs.Locality
import Equational.Proofs.Codec
import Equational.Proofs.Merging
import Equational.Proofs.Layout
import Equational.Proofs.Sharing
import Equational.Proofs.ViablePrefix
import Equational.Proofs.SourceLines
import Equational.Proofs.Resolution
import Equational.Proofs.ColumnEditing
import Equational.Proofs.Usage
import Equational.Proofs.DenseMap
import Equational.Proofs.DenseSet
import Equational.Proofs.Agenda
import Equational.Proofs.Folding
import Equational.Proofs.Calls
import Equational.Proofs.Meeting
import Equational.Proofs.Pairing
import Equational.Proofs.Distance
import Equational.Proofs.Scoring
import Equational.Proofs.EditDistance
