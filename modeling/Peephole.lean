import Peephole.Alias
import Peephole.Batch
import Peephole.Binding
import Peephole.Choice
import Peephole.Code.Body
import Peephole.Code.Expr
import Peephole.Code.MatchStep
import Peephole.CommandLine
import Peephole.Compile
import Peephole.Config
import Peephole.Discovery
import Peephole.Expansion
import Peephole.Fault
import Peephole.Files.FileSystem
import Peephole.Files.OsError
import Peephole.Files.Path
import Peephole.GeneratedFile
import Peephole.Grammar.Expression
import Peephole.Grammar.Lexeme
import Peephole.Grammar.Program
import Peephole.Grammar.Reader
import Peephole.Grammar.Statement
import Peephole.Grammar.Symbol
import Peephole.Grammar.SyntaxError
import Peephole.Host
import Peephole.Layout
import Peephole.Main
import Peephole.Matcher
import Peephole.Notice
import Peephole.Proofs.C.Lexing
import Peephole.Proofs.C.Machine
import Peephole.Proofs.C.MatcherText
import Peephole.Proofs.C.Parsing
import Peephole.Proofs.C.Printing
import Peephole.Proofs.C.Syntax
import Peephole.Proofs.Grammar.TreeLanguage
import Peephole.Proofs.Names
import Peephole.Registry
import Peephole.Replacement
import Peephole.Response
import Peephole.Template
import Peephole.Tree.Kind
import Peephole.Tree.Node
import Peephole.Tree.Operator
import Peephole.Word
import Peephole.Proofs.Replacement.Compiles
import Peephole.Proofs.C.Heap
import Peephole.Proofs.Replacement.Meaning
import Peephole.Proofs.Replacement.Simulation
import Peephole.Proofs.Layout.LaidOut
import Peephole.Proofs.Replacement.Execution
import Peephole.Proofs.Layout.Locals
import Peephole.Proofs.Layout.Acceptance
import Peephole.Proofs.Layout.Matching
import Peephole.Proofs.Binding.Resolution
import Peephole.Proofs.Layout.Execution
import Peephole.Proofs.Expansion.Emission
import Peephole.Proofs.Expansion.Partition
import Peephole.Proofs.Grammar.Lexeme
import Peephole.Proofs.Grammar.LayoutFreedom
import Peephole.Proofs.Grammar.Precedence
import Peephole.Proofs.Grammar.OperatorMeaning
import Peephole.Proofs.Grammar.Reading
import Peephole.Proofs.Grammar.Spelling
import Peephole.Proofs.Grammar.Completeness
import Peephole.Proofs.Expansion.FunctionNames
import Peephole.Proofs.Binding.Declarations
import Peephole.Proofs.Binding.Hygiene
import Peephole.Proofs.Replacement.Reaches
import Peephole.Proofs.Replacement.Discriminant
import Peephole.Proofs.Layout.Refusal
import Peephole.Proofs.Expansion.Faults
import Peephole.Proofs.C.Scope
import Peephole.Proofs.Layout.Scope
import Peephole.Proofs.Replacement.Scope
import Peephole.Proofs.Expansion.WellScoped
import Peephole.Proofs.Files.Places
import Peephole.Proofs.Files.Saving
import Peephole.Proofs.Outcomes
import Peephole.Proofs.Replacement.Congruence
import Peephole.Proofs.Replacement.Specialization
import Peephole.Proofs.Binding.Tables
import Peephole.Proofs.Expansion.RuleByRule
import Peephole.Proofs.Binding.Ranges
import Peephole.Proofs.Expansion.InlineSets
import Peephole.Proofs.Files.Destinations
import Peephole.Proofs.Expansion.Characters
import Peephole.Proofs.Grammar.ReservedWords
import Peephole.Proofs.Binding.Build
import Peephole.Proofs.Binding.Growth
import Peephole.Proofs.Replacement.Mentions
import Peephole.Proofs.Files.Discovery
import Peephole.Proofs.Replacement.Calls
import Peephole.Proofs.Layout.Numbering
