import LazyModules.Accident
import LazyModules.Address
import LazyModules.Address.Path
import LazyModules.Address.Url
import LazyModules.Cell
import LazyModules.CommandLine
import LazyModules.CommandLine.Arguments
import LazyModules.Computation
import LazyModules.Engine
import LazyModules.Eval
import LazyModules.Eval.Display
import LazyModules.Eval.Objection
import LazyModules.Expr
import LazyModules.Expr.Outline
import LazyModules.Library
import LazyModules.Main
import LazyModules.Number
import LazyModules.Number.Binary64
import LazyModules.Number.Shortest
import LazyModules.Parse
import LazyModules.Proofs.Grammar.Reading
import LazyModules.Proofs.Need.CallByNeed
import LazyModules.Reading
import LazyModules.Report
import LazyModules.Report.Locate
import LazyModules.Scope
import LazyModules.SemanticError
import LazyModules.Table
import LazyModules.Text.Blank
import LazyModules.Text.Digit
import LazyModules.Text.Lines
import LazyModules.Text.Percent
import LazyModules.Text.Point
import LazyModules.Text.Printable
import LazyModules.Text.Quoted
import LazyModules.Text.Split
import LazyModules.Text.Utf8
import LazyModules.Text.Word
import LazyModules.Token
import LazyModules.Token.Literal
import LazyModules.Token.Numeral
import LazyModules.Token.Scan
import LazyModules.Value
import LazyModules.Value.Tree
import LazyModules.World
import LazyModules.World.Disk
import LazyModules.World.Document
import LazyModules.Proofs.Scoping.Offsets
import LazyModules.Proofs.Discipline.Expressions
import LazyModules.Proofs.Engine.Steps
import LazyModules.Proofs.Discipline.Engine
import LazyModules.Proofs.Discipline.Session
import LazyModules.Proofs.Engine.Failure
import LazyModules.Proofs.Engine.Requests
import LazyModules.Proofs.Engine.Journal
import LazyModules.Proofs.Grammar.Imports
import LazyModules.Proofs.Scoping.Lexical
import LazyModules.Proofs.Blame.Spelling
import LazyModules.Proofs.Blame.Pointers
import LazyModules.Proofs.Grammar.Viable
import LazyModules.Proofs.Address.Remote
import LazyModules.Proofs.Imports.Containment
import LazyModules.Proofs.Imports.Cycles
import LazyModules.Proofs.Library.Runs
import LazyModules.Proofs.Imports.OnDemand
import LazyModules.Proofs.Order.Declarations
import LazyModules.Proofs.Engine.Terminal
import LazyModules.Proofs.Blame.Holders
import LazyModules.Proofs.Data.ReadBack
import LazyModules.Proofs.Lines.Reports
import LazyModules.Proofs.Scan.Openers
import LazyModules.Proofs.Scan.Quotes
import LazyModules.Proofs.Blame.Refusals
import LazyModules.Proofs.Blame.Names
import LazyModules.Proofs.Address.Canonical
import LazyModules.Proofs.Grammar.Parameters
import LazyModules.Proofs.Blame.Delimiters
import LazyModules.Proofs.Lines.Positions
import LazyModules.Proofs.Data.BackReferences
import LazyModules.Proofs.Blame.Brackets
import LazyModules.Proofs.Blame.Unclosed
import LazyModules.Proofs.Scoping.Valued
import LazyModules.Proofs.Scan.Patterns
import LazyModules.Proofs.Scan.Longest
import LazyModules.Proofs.Scan.Tiling
import LazyModules.Proofs.Engine.Consultations
