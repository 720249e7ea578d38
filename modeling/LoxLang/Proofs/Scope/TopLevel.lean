import Mathlib
import LoxLang.Proofs.Grammar.Acceptance
import LoxLang.Proofs.Scope.Walk

/-!
# Proofs/Scope/TopLevel — expressions outside all scopes

Outside all scopes every name is global: the walk over an expression finds no distance there, and
the only thing that it can find wrong is a `this` (`Scope.notes_expr`). The words `this` of an
expression are those among the tokens that it is read from (`thisWords_of_parseExpression`), so an
expression read from tokens without the word is in order at the top of a program.
-/

namespace LoxLang

/-! ## The words `this` of an expression -/

namespace Expr

mutual

/-- The words `this` of an expression, in their order. -/
def thisWords : Expr → List Token
  | .constant _ | .var _ _ => []
  | .grouping inner => inner.thisWords
  | .unary _ operand => operand.thisWords
  | .binary left _ right | .logical left _ right => left.thisWords ++ right.thisWords
  | .conditional condition onTrue onFalse =>
    condition.thisWords ++ (onTrue.thisWords ++ onFalse.thisWords)
  | .this _ keyword => [keyword]
  | .assign _ _ value => value.thisWords
  | .call callee _ arguments => callee.thisWords ++ thisWordsAll arguments
  | .get object _ => object.thisWords
  | .set object _ value => object.thisWords ++ value.thisWords

def thisWordsAll : List Expr → List Token
  | [] => []
  | e :: es => e.thisWords ++ thisWordsAll es

end

attribute [simp] thisWords thisWordsAll

mutual

/-- The words `this` do not depend on node ids. -/
@[simp] theorem thisWords_bare : ∀ e : Expr, e.bare.thisWords = e.thisWords
  | .constant _ | .var _ _ | .this _ _ => rfl
  | .grouping inner | .unary _ inner | .get inner _ | .assign _ _ inner => thisWords_bare inner
  | .binary left _ right | .logical left _ right | .set left _ right =>
    congrArg₂ (· ++ ·) (thisWords_bare left) (thisWords_bare right)
  | .conditional condition onTrue onFalse =>
    congrArg₂ (· ++ ·) (thisWords_bare condition)
      (congrArg₂ (· ++ ·) (thisWords_bare onTrue) (thisWords_bare onFalse))
  | .call callee _ arguments =>
    congrArg₂ (· ++ ·) (thisWords_bare callee) (thisWordsAll_bareAll arguments)

theorem thisWordsAll_bareAll : ∀ es : List Expr, thisWordsAll (bareAll es) = thisWordsAll es
  | [] => rfl
  | e :: es => congrArg₂ (· ++ ·) (thisWords_bare e) (thisWordsAll_bareAll es)

end

end Expr

theorem Level.thisWords_join (level : Level) (left right : Expr) (operator : Token) :
    (level.join left operator right).thisWords = left.thisWords ++ right.thisWords := by
  cases level <;> rfl

theorem Level.thisWord_not_mem_operators (level : Level) : .thisWord ∉ level.operators := by
  cases level <;> decide

namespace Grammar

/-- The words `this` of what a rule forms. -/
def ExprRule.thisWords : (r : ExprRule) → r.Tree → List Token
  | .arguments, es => Expr.thisWordsAll es
  | .expression, e | .conditional, e | .operation _, e | .call, e | .primary, e => e.thisWords

attribute [simp] ExprRule.thisWords

/-- **A phrase has the words `this` of its tokens.** -/
theorem Derives.thisWords_eq {r : ExprRule} {w : List Token} {t : r.Tree} (h : Derives r w t) :
    r.thisWords t = w.filter (·.kind = .thisWord) := by
  induction h with
  | assign hn he _ ih => simpa [hn, he] using ih
  | set _ hd hn he _ ihu ihw => simpa [hd, hn, he] using congrArg₂ (· ++ ·) ihu ihw
  | ofConditional _ ih | ofOperation _ ih | ofCall _ ih | ofPrimary _ ih | ofTighter _ ih => exact ih
  | choose _ hq _ hk _ ihu ihv ihw =>
    simpa [hq, hk] using congrArg₂ (· ++ ·) ihu (congrArg₂ (· ++ ·) ihv ihw)
  | @join level _ _ _ _ operator _ ho _ ihu ihw =>
    have hne : operator.kind ≠ .thisWord := fun hk => level.thisWord_not_mem_operators (hk ▸ ho)
    simpa [hne, Level.thisWords_join] using congrArg₂ (· ++ ·) ihu ihw
  | unary ho _ ih =>
    rcases ho with ho | ho <;> simpa [ho] using ih
  | callEmpty _ ho hk ih => simpa [ho, hk] using ih
  | call _ ho _ _ hk ihu ihw => simpa [ho, hk] using congrArg₂ (· ++ ·) ihu ihw
  | get _ hd hn ih => simpa [hd, hn] using ih
  | argument _ ih => simpa using ih
  | moreArguments _ hk _ ihu ihw => simpa [hk] using congrArg₂ (· ++ ·) ihu ihw
  | falseWord h | trueWord h | nilWord h | this h | use h => simp [h]
  | number h | string h => rcases h with h | h <;> simp [h]
  | grouping ho _ hk ih => simpa [ho, hk] using ih

end Grammar

/-- An expression has the words `this` of the tokens that it is read from. -/
theorem thisWords_of_parseExpression {tokens : List Token} {nextId : NodeId} {e : Expr}
    (h : (parseExpression tokens nextId).1 = .ok e) :
    e.thisWords = (tokens.takeWhile (·.kind ≠ .eof)).filter (·.kind = .thisWord) :=
  (Expr.thisWords_bare e).symm.trans (Parser.derives_of_parseExpression h).thisWords_eq

/-! ## The walk outside all scopes -/

namespace Scope

/-- A stretch of the walk that, outside all scopes, notes the given faults and does nothing else. -/
def Notes (x : Walker Unit) (faults : List Diagnostic) : Prop :=
  ∀ w : Walk, w.scopes = [] → w.after x = { w with faults := w.faults ++ faults }

namespace Notes

variable {x y : Walker Unit} {ds es : List Diagnostic}

theorem nothing (h : ∀ w : Walk, w.scopes = [] → w.after x = w) : Notes x [] := by
  intro w hw
  rw [h w hw, List.append_nil]

/-- Faults are noted one after the other. -/
theorem bind (hx : Notes x ds) (hy : Notes y es) : Notes (x >>= fun _ => y) (ds ++ es) := by
  intro w hw
  change (w.after x).after y = _
  rw [hx w hw, ← List.append_assoc]
  exact hy _ hw

/-- Outside all scopes no name is found. -/
theorem locate (id : NodeId) (name : Token) : Notes (Scope.locate id name) [] :=
  nothing fun w hw => by
    rw [after_locate, hw]
    rfl

end Notes

/-- What is wrong with an expression outside all scopes: every `this` in it. -/
def thisFaults (words : List Token) : List Diagnostic :=
  words.map (.resolve · .thisOutsideClass)

@[simp] theorem thisFaults_append (words words' : List Token) :
    thisFaults (words ++ words') = thisFaults words ++ thisFaults words' :=
  List.map_append

mutual

/-- **Outside every class each `this` of an expression is reported, and nothing else.** -/
theorem notes_expr {ctx : Context} (hctx : ctx.inClass = false) :
    ∀ e : Expr, Notes (expr ctx e) (thisFaults e.thisWords)
  | .constant _ => .nothing fun _ _ => rfl
  | .grouping inner | .unary _ inner | .get inner _ => notes_expr hctx inner
  | .binary left _ right | .logical left _ right | .set left _ right => by
    rw [Expr.thisWords, thisFaults_append]
    exact (notes_expr hctx left).bind (notes_expr hctx right)
  | .conditional condition onTrue onFalse => by
    rw [Expr.thisWords, thisFaults_append, thisFaults_append]
    exact (notes_expr hctx condition).bind ((notes_expr hctx onTrue).bind (notes_expr hctx onFalse))
  | .call callee _ arguments => by
    rw [Expr.thisWords, thisFaults_append]
    exact (notes_expr hctx callee).bind (notes_exprs hctx arguments)
  | .var id name => fun ⟨_, found, faults⟩ hw => by
    cases hw
    exact Notes.locate id name ⟨[], found, faults⟩ rfl
  | .assign id name value => by
    rw [expr, ← List.append_nil (thisFaults _)]
    exact (notes_expr hctx value).bind (.locate id name)
  | .this id keyword => by
    rw [expr, hctx]
    exact fun _ _ => rfl

theorem notes_exprs {ctx : Context} (hctx : ctx.inClass = false) :
    ∀ es : List Expr, Notes (exprs ctx es) (thisFaults (Expr.thisWordsAll es))
  | [] => .nothing fun _ _ => rfl
  | e :: es => by
    rw [Expr.thisWordsAll, thisFaults_append]
    exact (notes_expr hctx e).bind (notes_exprs hctx es)

end

end Scope

/-- **At the top of a program** the names of an expression have no distances, and every `this` is a
fault. -/
theorem resolve_printStmt (e : Expr) :
    resolve [.printStmt e] = ⟨[], Scope.thisFaults e.thisWords⟩ := by
  have hwalk := @Scope.notes_expr ⟨none, false⟩ rfl e ⟨[], [], []⟩ rfl
  exact congrArg (fun w : Scope.Walk => Resolution.mk w.found.reverse w.faults) hwalk

end LoxLang
