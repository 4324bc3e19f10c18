import ScopedRewriting.Bindings
import ScopedRewriting.Engine.Basic
import ScopedRewriting.Engine.Cache
import ScopedRewriting.Engine.Correspondence
import ScopedRewriting.Engine.Event
import ScopedRewriting.Engine.Job
import ScopedRewriting.Engine.Meaning
import ScopedRewriting.Engine.Normalize
import ScopedRewriting.Engine.Part
import ScopedRewriting.Engine.Pool
import ScopedRewriting.Main
import ScopedRewriting.Names
import ScopedRewriting.Pattern.Basic
import ScopedRewriting.Pattern.Instance
import ScopedRewriting.Pattern.Match
import ScopedRewriting.Program.Files
import ScopedRewriting.Program.Options
import ScopedRewriting.Program.Process
import ScopedRewriting.Program.Run
import ScopedRewriting.Program.Stage
import ScopedRewriting.Program.Whole
import ScopedRewriting.Program.WordCount
import ScopedRewriting.Proofs.Allowance
import ScopedRewriting.Proofs.Arrangement
import ScopedRewriting.Proofs.Chains
import ScopedRewriting.Proofs.Comments
import ScopedRewriting.Proofs.Conflicts
import ScopedRewriting.Proofs.Congruence
import ScopedRewriting.Proofs.Contract
import ScopedRewriting.Proofs.Directives
import ScopedRewriting.Proofs.Drawing
import ScopedRewriting.Proofs.Equivariance
import ScopedRewriting.Proofs.Footprint
import ScopedRewriting.Proofs.Inert
import ScopedRewriting.Proofs.Instances
import ScopedRewriting.Proofs.Layout
import ScopedRewriting.Proofs.Lexing
import ScopedRewriting.Proofs.Matching
import ScopedRewriting.Proofs.Memory
import ScopedRewriting.Proofs.Merging
import ScopedRewriting.Proofs.Multiplication
import ScopedRewriting.Proofs.Nesting
import ScopedRewriting.Proofs.NormalForm
import ScopedRewriting.Proofs.Parallel
import ScopedRewriting.Proofs.Parts
import ScopedRewriting.Proofs.Patterns
import ScopedRewriting.Proofs.Printing
import ScopedRewriting.Proofs.Processing
import ScopedRewriting.Proofs.Reading
import ScopedRewriting.Proofs.Renaming
import ScopedRewriting.Proofs.Requests
import ScopedRewriting.Proofs.Resolution
import ScopedRewriting.Proofs.Scopes
import ScopedRewriting.Proofs.Scoping
import ScopedRewriting.Proofs.Shadowing
import ScopedRewriting.Proofs.Sharing
import ScopedRewriting.Proofs.Simulation
import ScopedRewriting.Proofs.Stability
import ScopedRewriting.Proofs.Stages
import ScopedRewriting.Proofs.Steps
import ScopedRewriting.Proofs.Streams
import ScopedRewriting.Proofs.Substitution
import ScopedRewriting.Proofs.Tiling
import ScopedRewriting.Proofs.Vocabulary
import ScopedRewriting.Scope.Basic
import ScopedRewriting.Scope.Built
import ScopedRewriting.Scope.Chain
import ScopedRewriting.Scope.Lexical
import ScopedRewriting.Scope.Renaming
import ScopedRewriting.Scope.Shared
import ScopedRewriting.Scope.Text
import ScopedRewriting.Session.Command
import ScopedRewriting.Session.Query
import ScopedRewriting.Session.Sketch
import ScopedRewriting.Source.Comment
import ScopedRewriting.Source.Descent
import ScopedRewriting.Source.Form
import ScopedRewriting.Source.Grammar
import ScopedRewriting.Source.Layout
import ScopedRewriting.Source.Lexer
import ScopedRewriting.Source.Reader
import ScopedRewriting.Source.Token
import ScopedRewriting.Term.Basic
import ScopedRewriting.Term.Substitution
import ScopedRewriting.Term.Subterm
import ScopedRewriting.Term.Tree
import ScopedRewriting.Text.Inspect
import ScopedRewriting.Text.Quoted
