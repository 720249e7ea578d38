import Mathlib
import LoxLang.Proofs.Decimal.ReadBack
import LoxLang.Proofs.Grammar.Acceptance
import LoxLang.Proofs.Lexis.Rescanning
import LoxLang.Proofs.Tree.Form

/-!
# Proofs/Tree/Faithful — the text of a tree shows the tree

Binary and unary operators, assignments, calls and groupings all have the same kind of text, a head
and its parts in parentheses. The head and the number of the parts tell them apart: `Form.read` finds
the expression that a form stands for, and it finds the tree whose form it is (`Expr.read_form`). For
that the words have to be lexemes of the right kinds, so that a variable is not taken for a constant
and an operator not for `group` or `call`. In a tree that is read from a text they are
(`Derives.legible`).

The main result is `parseExpression_text_injective`.
-/

namespace LoxLang

open Grammar Lexis

/-! ## Legible trees -/

/-- The token is a lexeme of one of the given kinds. -/
structure Token.Spells (kinds : List Kind) (t : Token) : Prop where
  isLexeme : IsLexeme t.kind t.literal t.lexeme.toList
  kind : t.kind ∈ kinds

/-- A constant that the text of a tree shows as it is written in a program. -/
def Constant.Legible : Constant → Prop
  | .nil | .bool _ => True
  | .number x => x.isFinite = true ∧ isNegative x = false
  | .string _ => False

/-- The operators that evaluate both operands. -/
def binaryKinds : List Kind :=
  [Level.equality, .comparison, .term, .factor].flatMap Level.operators

/-- The operators that may leave out the second operand. -/
def logicalKinds : List Kind :=
  [Level.disjunction, .conjunction].flatMap Level.operators

namespace Expr

mutual

/-- The tokens of the tree are lexemes of the kinds that belong in their places, and its constants
are legible. -/
def Legible : Expr → Prop
  | .constant c => c.Legible
  | .grouping inner => inner.Legible
  | .unary operator operand => operator.Spells [.bang, .minus] ∧ operand.Legible
  | .binary left operator right =>
    left.Legible ∧ operator.Spells binaryKinds ∧ right.Legible
  | .logical left operator right =>
    left.Legible ∧ operator.Spells logicalKinds ∧ right.Legible
  | .conditional condition onTrue onFalse =>
    condition.Legible ∧ onTrue.Legible ∧ onFalse.Legible
  | .var _ name => name.Spells [.identifier]
  | .assign _ name value => name.Spells [.identifier] ∧ value.Legible
  | .call callee paren arguments =>
    callee.Legible ∧ paren.Spells [.rightParen] ∧ AllLegible arguments
  | .get object name => object.Legible ∧ name.Spells [.identifier]
  | .set object name value => object.Legible ∧ name.Spells [.identifier] ∧ value.Legible
  | .this _ keyword => keyword.Spells [.thisWord]

def AllLegible : List Expr → Prop
  | [] => True
  | e :: es => e.Legible ∧ AllLegible es

end

mutual

/-- Node ids do not matter to what is legible. -/
theorem legible_of_bare : ∀ {e : Expr}, e.bare.Legible → e.Legible
  | .constant _, h | .var _ _, h | .this _ _, h => h
  | .grouping inner, h => @legible_of_bare inner h
  | .unary _ _, h => ⟨h.1, legible_of_bare h.2⟩
  | .binary _ _ _, h | .logical _ _ _, h => ⟨legible_of_bare h.1, h.2.1, legible_of_bare h.2.2⟩
  | .conditional _ _ _, h =>
    ⟨legible_of_bare h.1, legible_of_bare h.2.1, legible_of_bare h.2.2⟩
  | .assign _ _ _, h => ⟨h.1, legible_of_bare h.2⟩
  | .call _ _ _, h => ⟨legible_of_bare h.1, h.2.1, allLegible_of_bareAll h.2.2⟩
  | .get _ _, h => ⟨legible_of_bare h.1, h.2⟩
  | .set _ _ _, h => ⟨legible_of_bare h.1, h.2.1, legible_of_bare h.2.2⟩

theorem allLegible_of_bareAll : ∀ {es : List Expr}, AllLegible (bareAll es) → AllLegible es
  | [], _ => trivial
  | _ :: _, h => ⟨legible_of_bare h.1, allLegible_of_bareAll h.2⟩

end

mutual

/-- The constants of a tree, in the order of its text. -/
def constants : Expr → List Constant
  | .constant c => [c]
  | .grouping e | .unary _ e | .assign _ _ e | .get e _ => e.constants
  | .binary left _ right | .logical left _ right | .set left _ right =>
    left.constants ++ right.constants
  | .conditional condition onTrue onFalse =>
    condition.constants ++ onTrue.constants ++ onFalse.constants
  | .call callee _ arguments => callee.constants ++ constantsAll arguments
  | .var _ _ | .this _ _ => []

def constantsAll : List Expr → List Constant
  | [] => []
  | e :: es => e.constants ++ constantsAll es

end

mutual

/-- Node ids are no constants. -/
theorem constants_bare : ∀ e : Expr, e.bare.constants = e.constants
  | .constant _ | .var _ _ | .this _ _ => rfl
  | .grouping e | .unary _ e | .assign _ _ e | .get e _ => constants_bare e
  | .binary left _ right | .logical left _ right | .set left _ right => by
    simp only [bare, constants, constants_bare left, constants_bare right]
  | .conditional condition onTrue onFalse => by
    simp only [bare, constants, constants_bare condition, constants_bare onTrue,
      constants_bare onFalse]
  | .call callee _ arguments => by
    simp only [bare, constants, constants_bare callee, constantsAll_bareAll arguments]

theorem constantsAll_bareAll : ∀ es : List Expr, constantsAll (bareAll es) = constantsAll es
  | [] => rfl
  | e :: es => by simp only [bareAll, constantsAll, constants_bare e, constantsAll_bareAll es]

end

end Expr

/-- A constant that is no string and, if it is a number, finite. -/
def Constant.Finite : Constant → Prop
  | .string _ => False
  | .number x => x.isFinite = true
  | .nil | .bool _ => True

/-! ## Reading a form -/

/-- The token that the text alone is scanned to, on no line. -/
def token? : List Char → Option Token
  | [] => none
  | c :: cs =>
    match cut c cs with
    | .lexeme kind literal text =>
      if text = c :: cs then some ⟨kind, String.ofList text, literal, 0⟩ else none
    | _ => none

/-- The expression that a word stands for. -/
def Form.wordExpr (t : Token) : Option Expr :=
  match t.kind, t.literal with
  | .identifier, _ => some (.var 0 t)
  | .thisWord, _ => some (.this 0 t)
  | .nilWord, _ => some (.constant .nil)
  | _, some (.bool b) => some (.constant (.bool b))
  | _, some (.number x) => some (.constant (.number x))
  | _, _ => none

/-- The closing parenthesis of a call, on no line. -/
def Form.closing : Token := ⟨.rightParen, ")", none, 0⟩

/-- The expression that a list stands for; its head is a token, but for that of a conditional. -/
def Form.listExpr : Option Token → List Expr → Option Expr
  | none, [condition, onTrue, onFalse] => some (.conditional condition onTrue onFalse)
  | none, _ => none
  | some t, parts =>
    match t.kind, parts with
    | .identifier, first :: parts =>
      if t.lexeme = "group" then some (.grouping first) else some (.call first closing parts)
    | .equal, [.var _ name, value] => some (.assign 0 name value)
    | .equal, [.get object name, value] => some (.set object name value)
    | .dot, [object, .var _ name] => some (.get object name)
    | _, [operand] => some (.unary t operand)
    | kind, [left, right] =>
      if kind ∈ logicalKinds then some (.logical left t right) else some (.binary left t right)
    | _, _ => none

namespace Form

mutual

/-- **The expression that a form stands for**, without node ids and lines. -/
def read : Form → Option Expr
  | .word text => token? text >>= wordExpr
  | .list head parts => readAll parts >>= listExpr (token? head)

def readAll : List Form → Option (List Expr)
  | [] => some []
  | f :: fs => do return (← f.read) :: (← readAll fs)

end

end Form

/-- The token on no line. -/
def Token.unplaced (t : Token) : Token :=
  { t with line := 0 }

@[simp] theorem Token.kind_unplaced (t : Token) : t.unplaced.kind = t.kind := rfl

namespace Expr

mutual

/-- The tree without node ids and lines. -/
def outline : Expr → Expr
  | .constant c => .constant c
  | .grouping inner => .grouping inner.outline
  | .unary operator operand => .unary operator.unplaced operand.outline
  | .binary left operator right => .binary left.outline operator.unplaced right.outline
  | .logical left operator right => .logical left.outline operator.unplaced right.outline
  | .conditional condition onTrue onFalse =>
    .conditional condition.outline onTrue.outline onFalse.outline
  | .var _ name => .var 0 name.unplaced
  | .assign _ name value => .assign 0 name.unplaced value.outline
  | .call callee paren arguments =>
    .call callee.outline paren.unplaced (outlines arguments)
  | .get object name => .get object.outline name.unplaced
  | .set object name value => .set object.outline name.unplaced value.outline
  | .this _ keyword => .this 0 keyword.unplaced

def outlines : List Expr → List Expr
  | [] => []
  | e :: es => e.outline :: outlines es

end

end Expr

namespace Form

/-- The parts of a list are read, and then its head says what it stands for. -/
theorem read_list (head : List Char) (parts : List Form) :
    (list head parts).read = readAll parts >>= listExpr (token? head) := rfl

theorem readAll_cons {f : Form} {fs : List Form} {e : Expr} {es : List Expr}
    (h : f.read = some e) (hs : readAll fs = some es) : readAll (f :: fs) = some (e :: es) := by
  simp [readAll, h, hs]

end Form

/-- **A lexeme alone is scanned to its token.** -/
theorem token?_eq {kind : Kind} {literal : Option Literal} {text : List Char}
    (h : IsLexeme kind literal text) :
    token? text = some ⟨kind, String.ofList text, literal, 0⟩ := by
  obtain ⟨c, cs, rfl⟩ := h.exists_cons
  simp [token?, h.cut_eq]

namespace Token.Spells

variable {t : Token} {kinds : List Kind}

theorem token?_lexeme (h : t.Spells kinds) : token? t.lexeme.toList = some t.unplaced := by
  rw [token?_eq h.isLexeme, String.ofList_toList]
  rfl

theorem token?_thisName (h : t.Spells [.thisWord]) : token? thisName.toList = some t.unplaced := by
  rw [← h.isLexeme.text_of_kind.1 (List.mem_singleton.mp h.kind), h.token?_lexeme]

/-- There is one closing parenthesis, on no line. -/
theorem unplaced_eq_closing (h : t.Spells [.rightParen]) : t.unplaced = Form.closing := by
  have htoken := h.token?_lexeme
  rw [h.isLexeme.text_of_kind.2 (List.mem_singleton.mp h.kind)] at htoken
  exact (Option.some.inj htoken).symm

/-- An identifier is read as a variable. -/
theorem read_lexeme (h : t.Spells [.identifier]) :
    (Form.word t.lexeme.toList).read = some (.var 0 t.unplaced) := by
  have hkind : t.unplaced.kind = .identifier := List.mem_singleton.mp h.kind
  rw [Form.read, h.token?_lexeme]
  simp only [Option.bind_eq_bind, Option.bind_some, Form.wordExpr, hkind]

/-- An operator before one part is read as unary. -/
theorem listExpr_unary (h : t.Spells [.bang, .minus]) (operand : Expr) :
    Form.listExpr (some t.unplaced) [operand] = some (.unary t.unplaced operand) := by
  have hkind : t.kind = .bang ∨ t.kind = .minus := by simpa using h.kind
  rcases hkind with hkind | hkind <;> simp only [Form.listExpr, Token.kind_unplaced, hkind]

/-- A logical operator between two parts is told by its kind. -/
theorem listExpr_logical (h : t.Spells logicalKinds) (left right : Expr) :
    Form.listExpr (some t.unplaced) [left, right] = some (.logical left t.unplaced right) := by
  have hkind : t.kind = .orWord ∨ t.kind = .andWord := by
    simpa [logicalKinds, Level.operators] using h.kind
  rcases hkind with hkind | hkind <;> simp only [Form.listExpr, Token.kind_unplaced, hkind] <;> rfl

theorem listExpr_binary (h : t.Spells binaryKinds) (left right : Expr) :
    Form.listExpr (some t.unplaced) [left, right] = some (.binary left t.unplaced right) := by
  have hkind : (t.kind = .bangEqual ∨ t.kind = .equalEqual) ∨
      (t.kind = .greater ∨ t.kind = .greaterEqual ∨ t.kind = .less ∨ t.kind = .lessEqual) ∨
      (t.kind = .minus ∨ t.kind = .plus) ∨ t.kind = .slash ∨ t.kind = .star := by
    simpa [binaryKinds, Level.operators, or_assoc] using h.kind
  rcases hkind with (h | h) | (h | h | h | h) | (h | h) | h | h <;>
    simp only [Form.listExpr, Token.kind_unplaced, h] <;> rfl

end Token.Spells

/-- **A constant that is legible is read back from its text.** -/
theorem Constant.read_treeText {c : Constant} (h : c.Legible) :
    (Form.word c.treeText.toList).read = some (.constant c) := by
  cases c with
  | nil => rfl
  | bool b => cases b <;> rfl
  | number x =>
    rw [Form.read, token?_eq (isLexeme_treeText h.1 h.2)]
    rfl
  | string s => exact h.elim

namespace Expr

/-- A property is read from its object and its name. -/
theorem read_get {object : Expr} {name : Token} (hobject : object.form.read = some object.outline)
    (hname : name.Spells [.identifier]) :
    (Form.list ".".toList [object.form, .word name.lexeme.toList]).read =
      some (.get object.outline name.unplaced) := by
  rw [Form.read_list, Form.readAll_cons hobject (Form.readAll_cons hname.read_lexeme rfl)]
  rfl

mutual

/-- **The form of a legible tree is read as the tree.** -/
theorem read_form : ∀ {e : Expr}, e.Legible → e.form.read = some e.outline
  | .constant c, h => Constant.read_treeText h
  | .grouping inner, h => by
    rw [form, Form.read_list, Form.readAll_cons (@read_form inner h) rfl]
    rfl
  | .unary operator operand, h => by
    rw [form, Form.read_list, Form.readAll_cons (read_form h.2) rfl, h.1.token?_lexeme]
    exact h.1.listExpr_unary _
  | .binary left operator right, h => by
    rw [form, Form.read_list,
      Form.readAll_cons (read_form h.1) (Form.readAll_cons (read_form h.2.2) rfl),
      h.2.1.token?_lexeme]
    exact h.2.1.listExpr_binary _ _
  | .logical left operator right, h => by
    rw [form, Form.read_list,
      Form.readAll_cons (read_form h.1) (Form.readAll_cons (read_form h.2.2) rfl),
      h.2.1.token?_lexeme]
    exact h.2.1.listExpr_logical _ _
  | .conditional condition onTrue onFalse, h => by
    rw [form, Form.read_list, Form.readAll_cons (read_form h.1)
      (Form.readAll_cons (read_form h.2.1) (Form.readAll_cons (read_form h.2.2) rfl))]
    rfl
  | .var _ name, h => Token.Spells.read_lexeme h
  | .assign _ name value, h => by
    rw [form, Form.read_list,
      Form.readAll_cons h.1.read_lexeme (Form.readAll_cons (read_form h.2) rfl)]
    rfl
  | .call callee paren arguments, h => by
    rw [form, Form.read_list, Form.readAll_cons (read_form h.1) (readAll_forms h.2.2), outline,
      h.2.1.unplaced_eq_closing]
    rfl
  | .get object name, h => read_get (read_form h.1) h.2
  | .set object name value, h => by
    rw [form, Form.read_list, Form.readAll_cons (read_get (read_form h.1) h.2.1)
      (Form.readAll_cons (read_form h.2.2) rfl)]
    rfl
  | .this _ keyword, h => by
    have hkind : keyword.unplaced.kind = .thisWord := List.mem_singleton.mp h.kind
    rw [form, Form.read, @Token.Spells.token?_thisName keyword h]
    simp only [Option.bind_eq_bind, Option.bind_some, Form.wordExpr, hkind]
    rfl

theorem readAll_forms : ∀ {es : List Expr}, AllLegible es →
    Form.readAll (forms es) = some (outlines es)
  | [], _ => rfl
  | _ :: _, h => Form.readAll_cons (read_form h.1) (readAll_forms h.2)

end

end Expr

/-! ## The forms of legible trees are proper -/

/-- Lexemes have neither a space nor a parenthesis in them, but for the parentheses and strings. -/
theorem Token.Spells.isPlain {t : Token} {kinds : List Kind} (h : t.Spells kinds)
    (hkinds : ∀ kind ∈ kinds, kind ∉ [Kind.leftParen, .rightParen, .string]) :
    ∀ c ∈ t.lexeme.toList, Form.isPlain c :=
  h.isLexeme.isPlain (hkinds _ h.kind)

theorem Token.Spells.proper {t : Token} (h : t.Spells [.identifier]) :
    (Form.word t.lexeme.toList).Proper :=
  h.isLexeme.proper (by simp [List.mem_singleton.mp h.kind])

theorem Constant.Legible.proper {c : Constant} (h : c.Legible) :
    (Form.word c.treeText.toList).Proper := by
  cases c with
  | nil => exact ⟨nofun, List.all_eq_true.mp rfl⟩
  | bool b => cases b <;> exact ⟨nofun, List.all_eq_true.mp rfl⟩
  | number x => exact (isLexeme_treeText h.1 h.2).proper (by decide)
  | string s => exact h.elim

namespace Expr

mutual

/-- A legible tree has a proper form. -/
theorem proper_form : ∀ {e : Expr}, e.Legible → e.form.Proper
  | .constant _, h => Constant.Legible.proper h
  | .grouping inner, h => ⟨List.all_eq_true.mp rfl, @proper_form inner h, trivial⟩
  | .unary _ _, h => ⟨h.1.isPlain (by decide), proper_form h.2, trivial⟩
  | .binary _ _ _, h | .logical _ _ _, h =>
    ⟨h.2.1.isPlain (by decide), proper_form h.1, proper_form h.2.2, trivial⟩
  | .conditional _ _ _, h =>
    ⟨List.all_eq_true.mp rfl, proper_form h.1, proper_form h.2.1, proper_form h.2.2, trivial⟩
  | .var _ _, h => Token.Spells.proper h
  | .assign _ _ _, h => ⟨List.all_eq_true.mp rfl, h.1.proper, proper_form h.2, trivial⟩
  | .call _ _ _, h => ⟨List.all_eq_true.mp rfl, proper_form h.1, allProper_forms h.2.2⟩
  | .get _ _, h => ⟨List.all_eq_true.mp rfl, proper_form h.1, h.2.proper, trivial⟩
  | .set _ _ _, h =>
    ⟨List.all_eq_true.mp rfl, ⟨List.all_eq_true.mp rfl, proper_form h.1, h.2.1.proper, trivial⟩,
      proper_form h.2.2, trivial⟩
  | .this _ _, _ => ⟨nofun, List.all_eq_true.mp rfl⟩

theorem allProper_forms : ∀ {es : List Expr}, AllLegible es → Form.AllProper (forms es)
  | [], _ => trivial
  | _ :: _, h => ⟨proper_form h.1, allProper_forms h.2⟩

end

/-- **Legible trees with one text are one tree**, but for node ids and lines. -/
theorem outline_eq_of_text_eq {e e' : Expr} (he : e.Legible) (he' : e'.Legible)
    (h : e.text = e'.text) : e.outline = e'.outline := by
  have hchars : e.form.chars ++ [] = e'.form.chars ++ [] := by
    rw [← toList_text, ← toList_text, h]
  have hform : e.form = e'.form :=
    (Form.chars_append_inj (proper_form he) (proper_form he') (ends_nil _) (ends_nil _) hchars).1
  refine Option.some.inj ?_
  rw [← read_form he, hform, read_form he']

end Expr

/-! ## What is read is legible -/

namespace Grammar

/-- What a derivation gives is legible. -/
def ExprRule.Legible : (r : ExprRule) → r.Tree → Prop
  | .arguments, es => Expr.AllLegible es
  | .expression, e | .conditional, e | .operation _, e | .call, e | .primary, e => e.Legible

def ExprRule.constants : (r : ExprRule) → r.Tree → List Constant
  | .arguments, es => Expr.constantsAll es
  | .expression, e | .conditional, e | .operation _, e | .call, e | .primary, e => e.constants

/-- Operands that are joined by a lexeme of the level are legible. -/
theorem legible_join {level : Level} {left right : Expr} {operator : Token} (hl : left.Legible)
    (hlexeme : IsLexeme operator.kind operator.literal operator.lexeme.toList)
    (hkind : operator.kind ∈ level.operators) (hr : right.Legible) :
    (level.join left operator right).Legible := by
  cases level with
  | disjunction | conjunction =>
    exact ⟨hl, ⟨hlexeme, (by decide : Level.operators _ ⊆ logicalKinds) hkind⟩, hr⟩
  | equality | comparison | term | factor =>
    exact ⟨hl, ⟨hlexeme, (by decide : Level.operators _ ⊆ binaryKinds) hkind⟩, hr⟩

theorem constants_join (level : Level) (left right : Expr) (operator : Token) :
    (level.join left operator right).constants = left.constants ++ right.constants := by
  cases level <;> rfl

/-- The numbers that literals stand for are legible, if they are finite. -/
theorem legible_number {t : Token} {x : Float} (ht : IsLexeme t.kind t.literal t.lexeme.toList)
    (hliteral : t.literal = some (.number x)) (hx : x.isFinite = true) :
    (Constant.number x).Legible := by
  obtain ⟨n, d, rfl⟩ : ∃ n d, x = nearest n d := by
    generalize t.kind = kind, t.literal = literal, t.lexeme.toList = text at ht hliteral
    cases ht with
    | whole h => exact ⟨_, _, (Literal.number.inj (Option.some.inj hliteral)).symm⟩
    | fraction h h' => exact ⟨_, _, (Literal.number.inj (Option.some.inj hliteral)).symm⟩
    | word hc h =>
      unfold wordLiteral at hliteral
      split at hliteral <;> cases hliteral
    | mark | alone | withEqual | slash | string => cases hliteral
  exact ⟨hx, isNegative_nearest hx⟩

/-- **Trees of lexemes are legible**, if their constants are. -/
theorem Derives.legible {r : ExprRule} {w : List Token} {t : r.Tree} (h : Derives r w t)
    (hw : ∀ t ∈ w, IsLexeme t.kind t.literal t.lexeme.toList)
    (hfinite : ∀ c ∈ r.constants t, c.Finite) : r.Legible t := by
  induction h with
  | assign hname _ _ ih =>
    simp only [List.forall_mem_cons] at hw
    exact ⟨⟨hw.1, by simp [hname]⟩, ih hw.2.2 hfinite⟩
  | set _ _ hname _ _ ihu ihw =>
    simp only [List.forall_mem_append, List.forall_mem_cons] at hw
    obtain ⟨hobject, hvalue⟩ := List.forall_mem_append.mp hfinite
    exact ⟨ihu hw.1 hobject, ⟨hw.2.2.1, by simp [hname]⟩, ihw hw.2.2.2.2 hvalue⟩
  | choose _ _ _ _ _ ihu ihv ihw =>
    simp only [List.forall_mem_append, List.forall_mem_cons] at hw
    obtain ⟨hleft, hfalse⟩ := List.forall_mem_append.mp hfinite
    obtain ⟨hcondition, htrue⟩ := List.forall_mem_append.mp hleft
    exact ⟨ihu hw.1 hcondition, ihv hw.2.2.1 htrue, ihw hw.2.2.2.2 hfalse⟩
  -- The level says whether the operator is binary or logical.
  | @join level _ _ left right operator _ hkind _ ihu ihw =>
    simp only [List.forall_mem_append, List.forall_mem_cons] at hw
    change ∀ c ∈ (level.join left operator right).constants, c.Finite at hfinite
    rw [constants_join, List.forall_mem_append] at hfinite
    exact legible_join (ihu hw.1 hfinite.1) hw.2.1 hkind (ihw hw.2.2 hfinite.2)
  | unary hkind _ ih =>
    simp only [List.forall_mem_cons] at hw
    exact ⟨⟨hw.1, by simpa using hkind⟩, ih hw.2 hfinite⟩
  | callEmpty _ _ hclosing ih =>
    simp only [List.forall_mem_append, List.forall_mem_cons] at hw
    exact ⟨ih hw.1 (List.forall_mem_append.mp hfinite).1, ⟨hw.2.2.1, by simp [hclosing]⟩, trivial⟩
  | call _ _ _ _ hclosing ihu ihw =>
    simp only [List.forall_mem_append, List.forall_mem_cons] at hw
    obtain ⟨hcallee, harguments⟩ := List.forall_mem_append.mp hfinite
    exact ⟨ihu hw.1 hcallee, ⟨hw.2.2.2.1, by simp [hclosing]⟩, ihw hw.2.2.1 harguments⟩
  | get _ _ hname ih =>
    simp only [List.forall_mem_append, List.forall_mem_cons] at hw
    exact ⟨ih hw.1 hfinite, hw.2.2.1, by simp [hname]⟩
  | argument _ ih => exact ⟨ih hw (List.forall_mem_append.mp hfinite).1, trivial⟩
  | moreArguments _ _ _ ihu ihw =>
    simp only [List.forall_mem_append, List.forall_mem_cons] at hw
    obtain ⟨hfirst, hmore⟩ := List.forall_mem_append.mp hfinite
    exact ⟨ihu hw.1 hfirst, ihw hw.2.2 hmore⟩
  | falseWord | trueWord | nilWord => exact trivial
  | number _ hliteral =>
    exact legible_number (hw _ List.mem_cons_self) hliteral (hfinite _ List.mem_cons_self)
  | string _ hliteral => exact hfinite _ List.mem_cons_self
  | this hkind | use hkind => exact ⟨hw _ List.mem_cons_self, by simp [hkind]⟩
  | grouping _ _ _ ih =>
    simp only [List.forall_mem_cons, List.forall_mem_append] at hw
    exact ih hw.2.1 hfinite
  | ofConditional _ ih | ofOperation _ ih | ofTighter _ ih | ofCall _ ih | ofPrimary _ ih =>
    exact ih hw hfinite

end Grammar

/-- A text is read as a legible tree, if the constants in it are finite numbers and no strings. -/
theorem Expr.legible_of_parseExpression {source : String} {nextId : NodeId} {e : Expr}
    (h : (parseExpression (tokensOf (scan source)) nextId).1 = .ok e)
    (hfinite : ∀ c ∈ e.constants, c.Finite) : e.Legible := by
  refine legible_of_bare ((Parser.derives_of_parseExpression h).legible (fun t ht => ?_) ?_)
  · have hkind : t.kind ≠ .eof := by simpa using List.mem_takeWhile_imp ht
    have hmem : .ok t ∈ scan source := by
      obtain ⟨item, hitem, heq⟩ := List.mem_filterMap.mp ((List.takeWhile_sublist _).mem ht)
      cases item with
      | error d => cases heq
      | ok t' =>
        cases heq
        exact hitem
    exact isLexeme_of_mem_scan hkind hmem
  · rwa [← constants_bare] at hfinite

/-- **The text of a tree shows the tree.** Of the trees that texts without strings are read as, and
whose numbers are finite, two that have the same text are equal up to node ids and the lines of
tokens. -/
theorem parseExpression_text_injective {source source' : String} {nextId nextId' : NodeId}
    {e e' : Expr} (he : (parseExpression (tokensOf (scan source)) nextId).1 = .ok e)
    (he' : (parseExpression (tokensOf (scan source')) nextId').1 = .ok e')
    (hfinite : ∀ c ∈ e.constants, c.Finite) (hfinite' : ∀ c ∈ e'.constants, c.Finite)
    (htext : e.text = e'.text) : e.outline = e'.outline :=
  Expr.outline_eq_of_text_eq (Expr.legible_of_parseExpression he hfinite)
    (Expr.legible_of_parseExpression he' hfinite') htext

/-- The tokens of `-a - f(x)` over three lines. -/
def differenceTokens (lexeme : String) (x : Float) (line line' line'' : Nat) : List Token :=
  [⟨.minus, "-", none, line⟩, ⟨.identifier, "a", none, line⟩, ⟨.minus, "-", none, line'⟩,
    ⟨.identifier, "f", none, line''⟩, ⟨.leftParen, "(", none, line''⟩,
    ⟨.number, lexeme, some (.number x), line''⟩, ⟨.rightParen, ")", none, line''⟩,
    endToken line'']

/-- The tree of these tokens. -/
def difference (x : Float) (line line' line'' : Nat) (id : NodeId) : Expr :=
  .binary (.unary ⟨.minus, "-", none, line⟩ (.var id ⟨.identifier, "a", none, line⟩))
    ⟨.minus, "-", none, line'⟩
    (.call (.var (id + 1) ⟨.identifier, "f", none, line''⟩) ⟨.rightParen, ")", none, line''⟩
      [.constant (.number x)])

/-- The three lines are read to the tree. -/
theorem parseExpression_differenceTokens (lexeme : String) (x : Float)
    (line line' line'' : Nat) (id : NodeId) :
    (parseExpression (differenceTokens lexeme x line line' line'') id).1 =
      .ok (difference x line line' line'' id) := by
  cbv

/-- The constants of the tree are finite. -/
theorem finite_difference {x : Float} (hx : x.isFinite = true) (line line' line'' : Nat)
    (id : NodeId) : ∀ c ∈ (difference x line line' line'' id).constants, c.Finite := by
  intro c hc
  obtain rfl := List.mem_singleton.mp hc
  exact hx

/-- Two texts that differ in blanks, a comment and the digits of a number. -/
theorem parseExpression_text_injective_difference :
    let e := difference (nearest 25 10) 1 1 1 0
    let e' := difference (nearest 250 100) 1 2 3 7
    (parseExpression (tokensOf (scan "-a - f(2.5)")) 0).1 = .ok e ∧
      (parseExpression (tokensOf (scan "-a\n- // minus\nf(2.50)")) 7).1 = .ok e' ∧
      (∀ c ∈ e.constants, c.Finite) ∧ (∀ c ∈ e'.constants, c.Finite) ∧
      e.text = "(- (- a) (call f 2.5))" ∧ e.text = e'.text ∧ e.outline = e'.outline := by
  intro e e'
  have hscan : tokensOf (scan "-a - f(2.5)") = differenceTokens "2.5" (nearest 25 10) 1 1 1 := by
    decide +kernel
  have hscan' : tokensOf (scan "-a\n- // minus\nf(2.50)") =
      differenceTokens "2.50" (nearest 250 100) 1 2 3 := by
    decide +kernel
  have he : (parseExpression (tokensOf (scan "-a - f(2.5)")) 0).1 = .ok e := by
    rw [hscan]
    exact parseExpression_differenceTokens _ _ _ _ _ _
  have he' : (parseExpression (tokensOf (scan "-a\n- // minus\nf(2.50)")) 7).1 = .ok e' := by
    rw [hscan']
    exact parseExpression_differenceTokens _ _ _ _ _ _
  have hfinite : ∀ c ∈ e.constants, c.Finite := finite_difference (by decide +kernel) _ _ _ _
  have hfinite' : ∀ c ∈ e'.constants, c.Finite := finite_difference (by decide +kernel) _ _ _ _
  have htext : e.text = "(- (- a) (call f 2.5))" := by decide +kernel
  have hsame : e.text = e'.text := by decide +kernel
  exact ⟨he, he', hfinite, hfinite', htext, hsame,
    parseExpression_text_injective he he' hfinite hfinite' hsame⟩

end LoxLang
