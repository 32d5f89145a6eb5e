import LoxMachine.Bindings
import LoxMachine.Bytes
import LoxMachine.Bytes.Character
import LoxMachine.Bytes.Quoted
import LoxMachine.Bytes.Utf8
import LoxMachine.Command
import LoxMachine.Depths
import LoxMachine.Disk
import LoxMachine.Log
import LoxMachine.Machine
import LoxMachine.Machine.Step
import LoxMachine.Main
import LoxMachine.Number
import LoxMachine.Options
import LoxMachine.Options.File
import LoxMachine.Pattern
import LoxMachine.Pattern.Class
import LoxMachine.Pattern.Parse
import LoxMachine.Proofs.Grammar
import LoxMachine.Proofs.Grammar.Completeness
import LoxMachine.Proofs.Grammar.Initializers
import LoxMachine.Proofs.Grammar.Modules
import LoxMachine.Proofs.Grammar.Numbering
import LoxMachine.Proofs.Grammar.Readability
import LoxMachine.Proofs.Grammar.Sequences
import LoxMachine.Proofs.Grammar.Soundness
import LoxMachine.Proofs.Machine.Arguments
import LoxMachine.Proofs.Machine.Blame
import LoxMachine.Proofs.Machine.Dispatch
import LoxMachine.Proofs.Machine.Effects
import LoxMachine.Proofs.Machine.Ground
import LoxMachine.Proofs.Machine.Growth
import LoxMachine.Proofs.Machine.Printing
import LoxMachine.Proofs.Machine.Safety
import LoxMachine.Proofs.Machine.Stack
import LoxMachine.Proofs.Machine.Whereabouts
import LoxMachine.Proofs.Parser.Acceptance
import LoxMachine.Proofs.Parser.Bounds
import LoxMachine.Proofs.Parser.Clauses
import LoxMachine.Proofs.Parser.Located
import LoxMachine.Proofs.Parser.Numbers
import LoxMachine.Proofs.Parser.Orderly
import LoxMachine.Proofs.Placing.Lockstep
import LoxMachine.Proofs.Placing.Programs
import LoxMachine.Proofs.Placing.Reading
import LoxMachine.Proofs.Placing.Scopes
import LoxMachine.Proofs.Placing.Stores
import LoxMachine.Proofs.Placing.Trees
import LoxMachine.Proofs.Recovery.Detours
import LoxMachine.Proofs.Recovery.Openings
import LoxMachine.Proofs.Relocation.Lockstep
import LoxMachine.Proofs.Relocation.Parsing
import LoxMachine.Proofs.Relocation.Scopes
import LoxMachine.Proofs.Relocation.Sessions
import LoxMachine.Proofs.Relocation.Stores
import LoxMachine.Proofs.Relocation.Trees
import LoxMachine.Proofs.Renaming.Alike
import LoxMachine.Proofs.Renaming.Lockstep
import LoxMachine.Proofs.Renaming.Modules
import LoxMachine.Proofs.Renaming.Scopes
import LoxMachine.Proofs.Renaming.Stores
import LoxMachine.Proofs.Renaming.Trees
import LoxMachine.Proofs.Scope.Features
import LoxMachine.Proofs.Scope.Located
import LoxMachine.Proofs.Scope.Nesting
import LoxMachine.Proofs.Scope.Resolution
import LoxMachine.Proofs.Scope.Sites
import LoxMachine.Proofs.Session.Compiling
import LoxMachine.Proofs.Session.Failing
import LoxMachine.Proofs.Session.Globals
import LoxMachine.Proofs.Session.History
import LoxMachine.Proofs.Session.Kindred
import LoxMachine.Proofs.Session.Leniency
import LoxMachine.Proofs.Session.Lines
import LoxMachine.Proofs.Session.Locations
import LoxMachine.Proofs.Session.Numbers
import LoxMachine.Proofs.Session.Output
import LoxMachine.Proofs.Session.Owners
import LoxMachine.Proofs.Session.References
import LoxMachine.Proofs.Session.Superclasses
import LoxMachine.Proofs.Source.Ranges
import LoxMachine.Proofs.Source.Trees
import LoxMachine.Proofs.Store.Chains
import LoxMachine.Proofs.Store.Environments
import LoxMachine.Proofs.Store.Heritage
import LoxMachine.Proofs.Store.Order
import LoxMachine.Proofs.Store.Soundness
import LoxMachine.Proofs.Suite.Isolation
import LoxMachine.Proofs.Token.Coverage
import LoxMachine.Proofs.Token.Lexemes
import LoxMachine.Proofs.Token.Munch
import LoxMachine.Proofs.Token.Respacing
import LoxMachine.Proofs.Token.Scanned
import LoxMachine.Proofs.Token.Seams
import LoxMachine.Report
import LoxMachine.Scope
import LoxMachine.Session
import LoxMachine.Shell
import LoxMachine.Source
import LoxMachine.Store
import LoxMachine.Suite
import LoxMachine.Token
import LoxMachine.Token.Scan
import LoxMachine.Tree
import LoxMachine.Tree.Expression
import LoxMachine.Tree.Parser
import LoxMachine.Tree.Printer
import LoxMachine.Tree.Statement
import LoxMachine.Value
import LoxMachine.Yaml.Fault
import LoxMachine.Yaml.Node
import LoxMachine.Yaml.Scalar
import LoxMachine.Yaml.Scanner
import LoxMachine.Yaml.Stream
import LoxMachine.Yaml.Timestamp
import LoxMachine.Yaml.Token
import LoxMachine.Yaml.Value
import LoxMachine.Proofs.Recovery.Confinement
import LoxMachine.Proofs.Recovery.Shapes
import LoxMachine.Proofs.Recovery.Statements
import LoxMachine.Proofs.Recovery.Refusals
import LoxMachine.Proofs.Recovery.Braces
import LoxMachine.Proofs.Parser.Lookback
import LoxMachine.Proofs.Machine.Activations
import LoxMachine.Proofs.Session.Calls
import LoxMachine.Proofs.Scope.Violations
import LoxMachine.Proofs.Token.Excerpts
import LoxMachine.Proofs.Grammar.Spans
import LoxMachine.Proofs.Grammar.Parts
import LoxMachine.Proofs.Grammar.Excerpts
import LoxMachine.Proofs.Loops.Rounds
import LoxMachine.Proofs.Loops.Scopes
import LoxMachine.Proofs.Loops.Passes
import LoxMachine.Proofs.Loops.Stores
import LoxMachine.Proofs.Loops.Code
import LoxMachine.Proofs.Loops.Lockstep
import LoxMachine.Proofs.Loops.Sessions
import LoxMachine.Proofs.Loops.Clauses
import LoxMachine.Proofs.Loops.Statements
import LoxMachine.Proofs.Machine.Outcomes
import LoxMachine.Proofs.Machine.Evaluation
import LoxMachine.Proofs.Session.Protection
import LoxMachine.Proofs.Session.Declarations
import LoxMachine.Proofs.Store.Keywords
import LoxMachine.Proofs.Machine.Invocations
import LoxMachine.Proofs.Machine.Receivers
import LoxMachine.Proofs.Session.Receivers
import LoxMachine.Proofs.Machine.Returns
import LoxMachine.Proofs.Machine.Exits
import LoxMachine.Proofs.Session.Returns
import LoxMachine.Proofs.Bytes.Characters
import LoxMachine.Proofs.Bytes.Numerals
import LoxMachine.Proofs.Bytes.Quoted
import LoxMachine.Proofs.Bytes.Boundaries
import LoxMachine.Proofs.Number.Exact
import LoxMachine.Proofs.Number.Shortest
import LoxMachine.Proofs.Number.Text
import LoxMachine.Proofs.Parser.Made
import LoxMachine.Proofs.Printer.Expressions
import LoxMachine.Proofs.Printer.Statements
import LoxMachine.Proofs.Printer.Modules
import LoxMachine.Proofs.Source.Positions
import LoxMachine.Proofs.Source.Reports
import LoxMachine.Proofs.Command.Flags
import LoxMachine.Proofs.Parser.Layers
import LoxMachine.Proofs.Store.Sharing
