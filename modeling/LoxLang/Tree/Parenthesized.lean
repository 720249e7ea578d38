import LoxLang.Decimal.Layout
import LoxLang.Tree.Basic

/-!
# Tree/Parenthesized — expressions as fully parenthesised text

Every compound expression is a parenthesis that opens with its operator: `1 + 2 * 3` is
`(+ 1.0 (* 2.0 3.0))`.
-/

namespace LoxLang

/-- A constant in the text of a tree. A whole number has all its digits and `.0`. -/
def Constant.treeText : Constant → String
  | .nil => "nil"
  | .bool true => "true"
  | .bool false => "false"
  | .number x => if isWhole x then exact x ++ ".0" else plain x
  | .string s => s

/-- Texts in a row, a space before each. -/
def spaced : List String → String
  | [] => ""
  | part :: parts => " " ++ part ++ spaced parts

/-- A head and its parts in parentheses. -/
def parenthesize (head : String) (parts : List String) : String :=
  "(" ++ head ++ spaced parts ++ ")"

namespace Expr

mutual

/-- The fully parenthesised text of an expression. -/
def text : Expr → String
  | .constant c => c.treeText
  | .grouping inner => parenthesize "group" [inner.text]
  | .unary operator operand => parenthesize operator.lexeme [operand.text]
  | .binary left operator right => parenthesize operator.lexeme [left.text, right.text]
  | .logical left operator right => parenthesize operator.lexeme [left.text, right.text]
  | .conditional condition onTrue onFalse =>
    parenthesize "?:" [condition.text, onTrue.text, onFalse.text]
  | .var _ name => name.lexeme
  | .assign _ name value => parenthesize "=" [name.lexeme, value.text]
  | .call callee _ arguments => parenthesize "call" (callee.text :: texts arguments)
  | .get object name => parenthesize "." [object.text, name.lexeme]
  | .set object name value =>
    parenthesize "=" [parenthesize "." [object.text, name.lexeme], value.text]
  | .this _ _ => thisName

def texts : List Expr → List String
  | [] => []
  | e :: es => e.text :: texts es

end

end Expr

end LoxLang
