import LoxLang.Decimal.Double
import LoxLang.Decimal.Shortest
import LoxLang.Decimal.Layout
import LoxLang.Text.Utf8
import LoxLang.Text.Json
import LoxLang.Token.Basic
import LoxLang.Token.Listing
import LoxLang.Diagnostic
import LoxLang.Lexis.Piece
import LoxLang.Lexis.Scan
import LoxLang.Tree.Basic
import LoxLang.Tree.Parenthesized
import LoxLang.Grammar.Cursor
import LoxLang.Grammar.Expression
import LoxLang.Grammar.Program
import LoxLang.Scope.Resolve
import LoxLang.Store.Value
import LoxLang.Store.Basic
import LoxLang.Store.Lemmas
import LoxLang.Store.Sink
import LoxLang.Eval.Machine
import LoxLang.Eval.Operator
import LoxLang.Eval.Basic
import LoxLang.Host.Library
import LoxLang.Session
import LoxLang.CommandLine
import LoxLang.Main
import LoxLang.Proofs.Grammar.Derivation
import LoxLang.Proofs.Grammar.Reading
import LoxLang.Proofs.Grammar.Soundness
import LoxLang.Proofs.Grammar.Completeness
import LoxLang.Proofs.Grammar.Acceptance
import LoxLang.Proofs.Grammar.Numbering
import LoxLang.Proofs.Lexis.Spelling
import LoxLang.Proofs.Scope.Fitting
import LoxLang.Proofs.Scope.Walk
import LoxLang.Proofs.Store.Pairs
import LoxLang.Proofs.Lexical.Semantics
import LoxLang.Proofs.Lexical.World
import LoxLang.Proofs.Lexical.Steps
import LoxLang.Proofs.Run.Hosts
import LoxLang.Proofs.Run.Calls
import LoxLang.Proofs.Run.Session
import LoxLang.Proofs.Lexical.Simulation
import LoxLang.Proofs.Lexical.Refinement
import LoxLang.Proofs.Lexical.Session
import LoxLang.Proofs.Lexical.Points
import LoxLang.Proofs.Run.Frames
import LoxLang.Proofs.Run.Table
import LoxLang.Proofs.Alike.Tree
import LoxLang.Proofs.Alike.Reading
import LoxLang.Proofs.Alike.Scopes
import LoxLang.Proofs.Alike.Machine
import LoxLang.Proofs.Alike.Coupling
import LoxLang.Proofs.Alike.Execution
import LoxLang.Proofs.Alike.Session
import LoxLang.Proofs.Alike.Joining
import LoxLang.Proofs.Grammar.Lookahead
import LoxLang.Proofs.Grammar.Buffer
import LoxLang.Proofs.Grammar.Fragment
import LoxLang.Proofs.Grammar.Keywords
import LoxLang.Proofs.Grammar.Recovery
import LoxLang.Proofs.Run.Printing
import LoxLang.Proofs.Grammar.Shape
import LoxLang.Proofs.Scope.Sites
import LoxLang.Proofs.Scope.Rules
import LoxLang.Proofs.Lexical.Initial
import LoxLang.Proofs.Lexical.Runs
import LoxLang.Proofs.Loops.Tree
import LoxLang.Proofs.Loops.Scopes
import LoxLang.Proofs.Loops.World
import LoxLang.Proofs.Loops.Machine
import LoxLang.Proofs.Loops.Steps
import LoxLang.Proofs.Loops.Execution
import LoxLang.Proofs.Loops.Hosts
import LoxLang.Proofs.Loops.Session
import LoxLang.Proofs.Store.Search
import LoxLang.Proofs.Run.Returns
import LoxLang.Proofs.Run.Quiet
import LoxLang.Proofs.Run.Discipline
import LoxLang.Proofs.Run.Obedience
import LoxLang.Proofs.Run.Origins
import LoxLang.Proofs.Run.Growth
import LoxLang.Proofs.Run.Receivers
import LoxLang.Proofs.Grammar.Names
import LoxLang.Proofs.Scope.Receivers
import LoxLang.Proofs.Lexis.Lexeme
import LoxLang.Proofs.Lexis.Bytes
import LoxLang.Proofs.Lexis.Reader
import LoxLang.Proofs.Lexis.Reading
import LoxLang.Proofs.Lexis.Lines
import LoxLang.Proofs.Lexis.Rescanning
import LoxLang.Proofs.Grammar.FirstFault
import LoxLang.Proofs.Decimal.Rounding
import LoxLang.Proofs.Decimal.Bits
import LoxLang.Proofs.Decimal.ReadBack
import LoxLang.Proofs.Run.Literals
import LoxLang.Proofs.Tree.Form
import LoxLang.Proofs.Tree.Faithful
import LoxLang.Proofs.Run.Capacity
