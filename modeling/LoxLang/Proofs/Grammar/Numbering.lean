import Mathlib
import LoxLang.Proofs.Grammar.Reading

/-!
# Proofs/Grammar/Numbering — what holds of every tree that is read

Also a tree that was read with faults has two properties that its use relies on. Its node ids are
the ones that the cursor handed out while it was read, each of them once and in the order in which
the scopes are walked (`Numbered`). And it is *proper*: where the grammar asks for a statement
there is no declaration, and `this` is written as its token says.
-/

namespace LoxLang

/-! ## Node ids -/

namespace Expr

mutual

/-- The node ids of an expression. An assignment comes behind its value. -/
def ids : Expr → List NodeId
  | .constant _ => []
  | .grouping inner => inner.ids
  | .unary _ operand => operand.ids
  | .binary left _ right | .logical left _ right => left.ids ++ right.ids
  | .conditional condition onTrue onFalse => condition.ids ++ (onTrue.ids ++ onFalse.ids)
  | .var id _ | .this id _ => [id]
  | .assign id _ value => value.ids ++ [id]
  | .call callee _ arguments => callee.ids ++ idsAll arguments
  | .get object _ => object.ids
  | .set object _ value => object.ids ++ value.ids

def idsAll : List Expr → List NodeId
  | [] => []
  | e :: es => e.ids ++ idsAll es

end

/-- The node ids of an expression that may be left out. -/
def idsOption : Option Expr → List NodeId
  | none => []
  | some e => e.ids

end Expr

mutual

/-- The node ids of a statement. -/
def Stmt.ids : Stmt → List NodeId
  | .exprStmt e | .printStmt e => e.ids
  | .varDecl _ initial => Expr.idsOption initial
  | .block body => Stmt.idsAll body
  | .ifStmt condition onTrue onFalse => condition.ids ++ (onTrue.ids ++ Stmt.idsOption onFalse)
  | .whileStmt condition body => condition.ids ++ body.ids
  | .forStmt initial condition increment body =>
    Stmt.idsOption initial ++ (Expr.idsOption condition ++ (Expr.idsOption increment ++ body.ids))
  | .returnStmt _ value => Expr.idsOption value
  | .funDecl routine => routine.ids
  | .classDecl _ methods => Routine.idsAll methods

def Stmt.idsAll : List Stmt → List NodeId
  | [] => []
  | s :: ss => s.ids ++ Stmt.idsAll ss

def Stmt.idsOption : Option Stmt → List NodeId
  | none => []
  | some s => s.ids

/-- The node ids of a routine. -/
def Routine.ids : Routine → List NodeId
  | ⟨_, _, body⟩ => Stmt.idsAll body

def Routine.idsAll : List Routine → List NodeId
  | [] => []
  | r :: rs => r.ids ++ Routine.idsAll rs

end

/-- The ids are from `first` up to `limit`, each larger than the one before. -/
structure Numbered (first limit : NodeId) (ids : List NodeId) : Prop where
  le : first ≤ limit
  increasing : ids.Pairwise (· < ·)
  bounds : ∀ id ∈ ids, first ≤ id ∧ id < limit

namespace Numbered

variable {a b c : NodeId} {ids ids' : List NodeId}

theorem nil (h : a ≤ b) : Numbered a b [] := ⟨h, .nil, nofun⟩

/-- Ids of two stretches one behind the other. -/
theorem append (h : Numbered a b ids) (h' : Numbered b c ids') : Numbered a c (ids ++ ids') where
  le := Nat.le_trans h.le h'.le
  increasing := List.pairwise_append.mpr ⟨h.increasing, h'.increasing, fun x hx y hy =>
    Nat.lt_of_lt_of_le (h.bounds x hx).2 (h'.bounds y hy).1⟩
  bounds id hid := by
    rcases List.mem_append.mp hid with hid | hid
    · obtain ⟨hle, hlt⟩ := h.bounds id hid
      exact ⟨hle, Nat.lt_of_lt_of_le hlt h'.le⟩
    · obtain ⟨hle, hlt⟩ := h'.bounds id hid
      exact ⟨Nat.le_trans h.le hle, hlt⟩

/-- Ids in a narrow range are in every wider one. -/
theorem widen (h : Numbered b c ids) {a d : NodeId} (hab : a ≤ b) (hcd : c ≤ d) :
    Numbered a d ids where
  le := Nat.le_trans hab (Nat.le_trans h.le hcd)
  increasing := h.increasing
  bounds id hid :=
    ⟨Nat.le_trans hab (h.bounds id hid).1, Nat.lt_of_lt_of_le (h.bounds id hid).2 hcd⟩

theorem single (id : NodeId) : Numbered id (id + 1) [id] :=
  ⟨Nat.le_succ id, by simp, by simp⟩

/-- **Ids that are numbered are distinct.** -/
theorem nodup (h : Numbered a b ids) : ids.Nodup :=
  h.increasing.imp Nat.ne_of_lt

end Numbered

/-! ## Proper trees -/

/-- The token is spelled as its kind says, as far as `this` goes. -/
structure Token.Spelled (t : Token) : Prop where
  this : t.kind = .thisWord → t.lexeme = thisName
  name : t.kind = .identifier → t.lexeme ≠ thisName

namespace Expr

mutual

/-- Every `this` in the expression is spelled so. -/
def Proper : Expr → Prop
  | .constant _ | .var _ _ => True
  | .grouping inner => inner.Proper
  | .unary _ operand => operand.Proper
  | .binary left _ right | .logical left _ right => left.Proper ∧ right.Proper
  | .conditional condition onTrue onFalse => condition.Proper ∧ onTrue.Proper ∧ onFalse.Proper
  | .assign _ _ value => value.Proper
  | .call callee _ arguments => callee.Proper ∧ AllProper arguments
  | .get object _ => object.Proper
  | .set object _ value => object.Proper ∧ value.Proper
  | .this _ keyword => keyword.lexeme = thisName

def AllProper : List Expr → Prop
  | [] => True
  | e :: es => e.Proper ∧ AllProper es

end

def OptionProper : Option Expr → Prop
  | none => True
  | some e => e.Proper

end Expr

namespace Stmt

/-- The statement declares a name. -/
def isDeclaration : Stmt → Bool
  | .varDecl _ _ | .funDecl _ | .classDecl _ _ => true
  | _ => false

/-- The statement may stand first in a `for`. -/
def isClause : Stmt → Bool
  | .varDecl _ _ | .exprStmt _ => true
  | _ => false

end Stmt

mutual

/-- No declaration stands where the grammar asks for a statement, and `this` is no variable. -/
def Stmt.Proper : Stmt → Prop
  | .exprStmt e | .printStmt e => e.Proper
  | .varDecl name initial => name.lexeme ≠ thisName ∧ Expr.OptionProper initial
  | .block body => Stmt.AllProper body
  | .ifStmt condition onTrue onFalse =>
    condition.Proper ∧ (onTrue.isDeclaration = false ∧ onTrue.Proper) ∧
      (∀ s ∈ onFalse, s.isDeclaration = false) ∧ Stmt.OptionProper onFalse
  | .whileStmt condition body => condition.Proper ∧ body.isDeclaration = false ∧ body.Proper
  | .forStmt initial condition increment body =>
    ((∀ s ∈ initial, s.isClause = true) ∧ Stmt.OptionProper initial) ∧
      Expr.OptionProper condition ∧ Expr.OptionProper increment ∧
      body.isDeclaration = false ∧ body.Proper
  | .returnStmt _ value => Expr.OptionProper value
  | .funDecl routine => routine.Proper
  | .classDecl _ methods => Routine.AllProper methods

def Stmt.AllProper : List Stmt → Prop
  | [] => True
  | s :: ss => s.Proper ∧ Stmt.AllProper ss

def Stmt.OptionProper : Option Stmt → Prop
  | none => True
  | some s => s.Proper

def Routine.Proper : Routine → Prop
  | ⟨_, _, body⟩ => Stmt.AllProper body

def Routine.AllProper : List Routine → Prop
  | [] => True
  | r :: rs => r.Proper ∧ Routine.AllProper rs

end

/-! ## What is read is numbered and proper -/

/-- The tokens ahead are spelled as their kinds say. -/
def Cursor.Spelled (c : Cursor) : Prop :=
  ∀ t ∈ c.rest, t.Spelled

/-- From `c` to `c'` a tree with the given ids was read, and it is proper. -/
structure Cursor.Stretch (c c' : Cursor) (ids : List NodeId) (proper : Prop) : Prop where
  forward : c.Forward c'
  numbered : Numbered c.nextId c'.nextId ids
  proper : c.Spelled → proper

namespace Cursor.Stretch

variable {c c' c'' : Cursor} {ids ids' : List NodeId} {p p' : Prop}

/-- A stretch on which no tree was read. -/
theorem ofForward (h : c.Forward c') : c.Stretch c' [] True :=
  ⟨h, .nil h.nextId, fun _ => trivial⟩

theorem refl (c : Cursor) : c.Stretch c [] True :=
  .ofForward (.refl c)

/-- Two stretches one behind the other are one stretch. -/
theorem trans (h : c.Stretch c' ids p) (h' : c'.Stretch c'' ids' p') :
    c.Stretch c'' (ids ++ ids') (p ∧ p') where
  forward := h.forward.trans h'.forward
  numbered := h.numbered.append h'.numbered
  proper hc := ⟨h.proper hc, h'.proper fun t ht => hc t (h.forward.rest.subset ht)⟩

theorem congr (h : c.Stretch c' ids p) (hids : ids = ids') (hp : p → p') :
    c.Stretch c' ids' p' :=
  ⟨h.forward, hids ▸ h.numbered, fun hc => hp (h.proper hc)⟩

/-- A token is a stretch without ids, and it is spelled as it was in the text. -/
theorem ofToken {t : Token} (hr : c.rest = t :: c'.rest) (hc : c' = { c with rest := c'.rest }) :
    c.Stretch c' [] t.Spelled := by
  rw [hc]
  refine ⟨⟨hr ▸ List.suffix_cons t _, rfl, List.prefix_refl _, Nat.le_refl _⟩,
    .nil (Nat.le_refl _), fun h => h t ?_⟩
  rw [hr]
  exact List.mem_cons_self

end Cursor.Stretch

namespace Parser

open Cursor (Stretch)

/-- A success of the parser is a stretch with the ids of its result, which is proper. -/
def Yields {α : Type} (ids : α → List NodeId) (proper : α → Prop) (p : Parser α) : Prop :=
  ∀ {c a c'}, p c = .ok a c' → c.Stretch c' (ids a) (proper a)

/-- The rules for expressions yield numbered and proper trees. A loop goes on from the expression
before it. -/
structure ExprYields (n : Nat) : Prop where
  expression : Yields Expr.ids Expr.Proper (expression n)
  conditional : Yields Expr.ids Expr.Proper (conditional n)
  operation : ∀ o, Yields Expr.ids Expr.Proper (operation n o)
  operations : ∀ {level left c₀ c e c'}, operations n level left c = .ok e c' →
    Stretch c₀ c left.ids left.Proper → Stretch c₀ c' e.ids e.Proper
  unary : Yields Expr.ids Expr.Proper (unary n)
  suffixes : ∀ {object c₀ c e c'}, suffixes n object c = .ok e c' →
    Stretch c₀ c object.ids object.Proper → Stretch c₀ c' e.ids e.Proper
  arguments : ∀ count, Yields Expr.idsAll Expr.AllProper (arguments n count)
  primary : Yields Expr.ids Expr.Proper (primary n)

variable {n : Nat} {c₀ c c' : Cursor}

/-- Where no token is taken, the cursor has not moved. -/
theorem eq_of_acceptAny_none {kinds : List Kind} (h : acceptAny kinds c = .ok none c') :
    c = c' := by
  rcases acceptAny_ok h with ⟨_, ht, -⟩ | ⟨-, hc, -⟩
  · cases ht
  · exact hc

theorem stretch_accept {kinds : List Kind} {t : Token} (h : acceptAny kinds c = .ok (some t) c') :
    c.Stretch c' [] t.Spelled ∧ t.kind ∈ kinds := by
  rcases acceptAny_ok h with ⟨t', ht, hk, hr, hc⟩ | ⟨ht, -, -⟩
  · cases ht
    exact ⟨.ofToken hr hc, hk⟩
  · cases ht

theorem stretch_expect {kind : Kind} {fault : ParseFault} {t : Token}
    (h : expect kind fault c = .ok t c') : c.Stretch c' [] t.Spelled ∧ t.kind = kind := by
  obtain ⟨hk, hr, hc⟩ := expect_ok h
  exact ⟨.ofToken hr hc, hk⟩

theorem stretch_freshId {id : NodeId} (h : freshId c = .ok id c') : c.Stretch c' [id] True := by
  cases h
  exact ⟨Steady.freshId.ok rfl, .single _, fun _ => trivial⟩

/-- An assignment has the ids of its target and of its value, and then one of its own if it assigns
a variable. -/
theorem stretch_assignTo {target value e : Expr} {equal : Token}
    (htarget : c₀.Stretch c target.ids target.Proper) {c₁ c₂ : Cursor}
    (hvalue : c.Stretch c₁ value.ids value.Proper) (h : assignTo target equal value c₁ = .ok e c₂) :
    c₀.Stretch c₂ e.ids e.Proper := by
  unfold assignTo at h
  split at h
  · -- the id of the target is dropped
    obtain ⟨id, c', h₁, h₂⟩ := bind_ok h
    obtain ⟨rfl, rfl⟩ := pure_ok.mp h₂
    have hstretch := hvalue.trans (stretch_freshId h₁)
    exact ⟨htarget.forward.trans hstretch.forward,
      hstretch.numbered.widen htarget.numbered.le (Nat.le_refl _),
      fun hc => ((htarget.trans hstretch).proper hc).2.1⟩
  · obtain ⟨rfl, rfl⟩ := pure_ok.mp h
    exact htarget.trans hvalue
  · obtain ⟨_, c', h₁, h₂⟩ := bind_ok h
    obtain ⟨rfl, rfl⟩ := pure_ok.mp h₂
    have hnote := (Steady.note _ _).ok h₁
    exact ⟨htarget.forward.trans (hvalue.forward.trans hnote),
      htarget.numbered.widen (Nat.le_refl _) (Nat.le_trans hvalue.numbered.le hnote.nextId),
      htarget.proper⟩

/-- An expression is a conditional, with an assignment behind it perhaps. -/
theorem yields_expression (ih : ExprYields n) :
    Yields Expr.ids Expr.Proper (expression (n + 1)) := by
  intro c e c' h
  obtain ⟨target, c₁, h₁, h⟩ := bind_ok h
  obtain ⟨o, c₂, h₂, h⟩ := bind_ok h
  have y₁ := ih.conditional h₁
  cases o with
  | none =>
    obtain rfl := eq_of_acceptAny_none h₂
    obtain ⟨rfl, rfl⟩ := pure_ok.mp h
    exact y₁
  | some equal =>
    obtain ⟨value, c₃, h₃, h⟩ := bind_ok h
    have y₂ := (y₁.trans (stretch_accept h₂).1).congr (List.append_nil _) And.left
    exact stretch_assignTo y₂ (ih.expression h₃) h

/-- A conditional has the ids of its parts in order. -/
theorem yields_conditional (ih : ExprYields n) :
    Yields Expr.ids Expr.Proper (conditional (n + 1)) := by
  intro c e c' h
  obtain ⟨condition, c₁, h₁, h⟩ := bind_ok h
  obtain ⟨o, c₂, h₂, h⟩ := bind_ok h
  have y₁ := ih.operation _ h₁
  cases o with
  | none =>
    obtain rfl := eq_of_acceptAny_none h₂
    obtain ⟨rfl, rfl⟩ := pure_ok.mp h
    exact y₁
  | some question =>
    obtain ⟨onTrue, c₃, h₃, h⟩ := bind_ok h
    obtain ⟨colon, c₄, h₄, h⟩ := bind_ok h
    obtain ⟨onFalse, c₅, h₅, h⟩ := bind_ok h
    obtain ⟨rfl, rfl⟩ := pure_ok.mp h
    have y₂ := (stretch_accept h₂).1
    have y₄ := (stretch_expect h₄).1
    refine (y₁.trans (y₂.trans ((ih.expression h₃).trans (y₄.trans (ih.expression h₅))))).congr rfl ?_
    exact fun ⟨hc, _, ht, _, hf⟩ => ⟨hc, ht, hf⟩

/-- An operation has those of its left operand, and goes on with the loop. -/
theorem yields_operation (ih : ExprYields n) (o : Option Level) :
    Yields Expr.ids Expr.Proper (operation (n + 1) o) := by
  intro c e c' h
  cases o with
  | none => exact ih.unary h
  | some level =>
    obtain ⟨left, c₁, h₁, h⟩ := bind_ok h
    exact ih.operations h (ih.operation _ h₁)

theorem Level.ids_join (level : Level) (left right : Expr) (operator : Token) :
    (level.join left operator right).ids = left.ids ++ right.ids := by
  cases level <;> rfl

theorem Level.proper_join (level : Level) (left right : Expr) (operator : Token) :
    (level.join left operator right).Proper ↔ left.Proper ∧ right.Proper := by
  cases level <;> rfl

/-- The loop over operators goes on from the stretch of the left operand. -/
theorem yields_operations (ih : ExprYields n) {level : Level} {left e : Expr}
    (h : operations (n + 1) level left c = .ok e c')
    (hleft : c₀.Stretch c left.ids left.Proper) : c₀.Stretch c' e.ids e.Proper := by
  obtain ⟨o, c₁, h₁, h⟩ := bind_ok h
  cases o with
  | none =>
    obtain rfl := eq_of_acceptAny_none h₁
    obtain ⟨rfl, rfl⟩ := pure_ok.mp h
    exact hleft
  | some operator =>
    obtain ⟨right, c₂, h₂, h⟩ := bind_ok h
    refine ih.operations h ((hleft.trans ((stretch_accept h₁).1.trans (ih.operation _ h₂))).congr ?_ ?_)
    · exact (Level.ids_join level left right operator).symm
    · exact fun ⟨hl, _, hr⟩ => (Level.proper_join level left right operator).mpr ⟨hl, hr⟩

theorem yields_unary (ih : ExprYields n) : Yields Expr.ids Expr.Proper (unary (n + 1)) := by
  intro c e c' h
  obtain ⟨o, c₁, h₁, h⟩ := bind_ok h
  cases o with
  | none =>
    obtain rfl := eq_of_acceptAny_none h₁
    obtain ⟨object, c₂, h₂, h⟩ := bind_ok h
    exact ih.suffixes h (ih.primary h₂)
  | some operator =>
    obtain ⟨operand, c₂, h₂, h⟩ := bind_ok h
    obtain ⟨rfl, rfl⟩ := pure_ok.mp h
    exact ((stretch_accept h₁).1.trans (ih.unary h₂)).congr rfl And.right

/-- The loop over suffixes goes on from the stretch of the object. -/
theorem yields_suffixes (ih : ExprYields n) {object e : Expr}
    (h : suffixes (n + 1) object c = .ok e c')
    (hobject : c₀.Stretch c object.ids object.Proper) : c₀.Stretch c' e.ids e.Proper := by
  obtain ⟨o, c₁, h₁, h⟩ := bind_ok h
  cases o with
  | none =>
    obtain rfl := eq_of_acceptAny_none h₁
    obtain ⟨rfl, rfl⟩ := pure_ok.mp h
    exact hobject
  | some t =>
    have y₁ := hobject.trans (stretch_accept h₁).1
    dsimp only at h
    split at h
    · obtain ⟨b, c₂, h₂, h⟩ := bind_ok h
      rw [looksAt_eq] at h₂
      cases h₂
      split at h
      · obtain ⟨es, c₂, h₂, h⟩ := bind_ok h
        obtain ⟨rfl, rfl⟩ := pure_ok.mp h₂
        obtain ⟨paren, c₃, h₃, h⟩ := bind_ok h
        refine ih.suffixes h ((y₁.trans (stretch_expect h₃).1).congr ?_ ?_)
        · simp [Expr.ids, Expr.idsAll]
        · exact fun ⟨⟨ho, _⟩, _⟩ => ⟨ho, trivial⟩
      · obtain ⟨es, c₂, h₂, h⟩ := bind_ok h
        obtain ⟨paren, c₃, h₃, h⟩ := bind_ok h
        refine ih.suffixes h ((y₁.trans ((ih.arguments _ h₂).trans (stretch_expect h₃).1)).congr ?_ ?_)
        · simp [Expr.ids]
        · exact fun ⟨⟨ho, _⟩, ha, _⟩ => ⟨ho, ha⟩
    · obtain ⟨name, c₂, h₂, h⟩ := bind_ok h
      refine ih.suffixes h ((y₁.trans (stretch_expect h₂).1).congr ?_ ?_)
      · simp [Expr.ids]
      · exact fun ⟨⟨ho, _⟩, _⟩ => ho

/-- One argument and the arguments behind it. -/
theorem yields_argumentsTail (ih : ExprYields n) (count : Nat) :
    Yields Expr.idsAll Expr.AllProper (do
      let argument ← expression n
      match ← accept .comma with
        | none => return [argument]
        | some _ => return argument :: (← arguments n (count + 1))) := by
  intro c es c' h
  obtain ⟨argument, c₁, h₁, h⟩ := bind_ok h
  obtain ⟨o, c₂, h₂, h⟩ := bind_ok h
  have y₁ := ih.expression h₁
  cases o with
  | none =>
    obtain rfl := eq_of_acceptAny_none h₂
    obtain ⟨rfl, rfl⟩ := pure_ok.mp h
    exact y₁.congr (List.append_nil _).symm fun h => ⟨h, trivial⟩
  | some comma =>
    obtain ⟨rest, c₃, h₃, h⟩ := bind_ok h
    obtain ⟨rfl, rfl⟩ := pure_ok.mp h
    exact (y₁.trans ((stretch_accept h₂).1.trans (ih.arguments _ h₃))).congr rfl
      fun ⟨ha, _, hr⟩ => ⟨ha, hr⟩

/-- A fault that is noted on the way changes neither ids nor trees. -/
theorem Yields.noteHere {α : Type} {ids : α → List NodeId} {proper : α → Prop} {p : Parser α}
    (hp : Yields ids proper p) (fault : ParseFault) :
    Yields ids proper (Parser.noteHere fault >>= fun _ => p) := by
  intro c a c' h
  obtain ⟨_, c₁, h₁, h⟩ := bind_ok h
  have hnote : c.Stretch c₁ [] True := .ofForward ((Steady.noteHere fault).ok h₁)
  exact (hnote.trans (hp h)).congr rfl And.right

theorem yields_arguments (ih : ExprYields n) (count : Nat) :
    Yields Expr.idsAll Expr.AllProper (arguments (n + 1) count) := by
  intro c es c' h
  simp only [arguments] at h
  split at h
  · exact Yields.noteHere (yields_argumentsTail ih count) _ h
  · exact yields_argumentsTail ih count h

/-- A literal has no id. -/
theorem stretch_constantOf {t : Token} {e : Expr} (h : constantOf t c = .ok e c') :
    c.Stretch c' e.ids e.Proper := by
  rcases hl : t.literal with _ | s | x | b <;> simp only [constantOf, hl] at h
  · cases h
  · obtain ⟨rfl, rfl⟩ := pure_ok.mp h
    exact .refl c
  · obtain ⟨rfl, rfl⟩ := pure_ok.mp h
    exact .refl c
  · cases h

/-- A variable and `this` take a new id behind their token. -/
theorem yields_primary (ih : ExprYields n) : Yields Expr.ids Expr.Proper (primary (n + 1)) := by
  intro c e c' h
  obtain ⟨o, c₁, h₁, h⟩ := bind_ok h
  cases o with
  | none => exact absurd h refuse_ok
  | some t =>
    obtain ⟨y₁, hk⟩ := stretch_accept h₁
    simp only [primaryKinds, List.mem_cons, List.not_mem_nil, or_false] at hk
    rcases hk with ht | ht | ht | ht | ht | ht | ht | ht <;> simp only [ht] at h
    · obtain ⟨rfl, rfl⟩ := pure_ok.mp h
      exact y₁.congr rfl fun _ => trivial
    · obtain ⟨rfl, rfl⟩ := pure_ok.mp h
      exact y₁.congr rfl fun _ => trivial
    · obtain ⟨rfl, rfl⟩ := pure_ok.mp h
      exact y₁.congr rfl fun _ => trivial
    · exact (y₁.trans (stretch_constantOf h)).congr rfl And.right
    · exact (y₁.trans (stretch_constantOf h)).congr rfl And.right
    · obtain ⟨id, c₂, h₂, h⟩ := bind_ok h
      obtain ⟨rfl, rfl⟩ := pure_ok.mp h
      exact (y₁.trans (stretch_freshId h₂)).congr rfl fun ⟨hs, _⟩ => hs.this ht
    · obtain ⟨id, c₂, h₂, h⟩ := bind_ok h
      obtain ⟨rfl, rfl⟩ := pure_ok.mp h
      exact (y₁.trans (stretch_freshId h₂)).congr rfl fun _ => trivial
    · obtain ⟨inner, c₂, h₂, h⟩ := bind_ok h
      obtain ⟨closing, c₃, h₃, h⟩ := bind_ok h
      obtain ⟨rfl, rfl⟩ := pure_ok.mp h
      exact (y₁.trans ((ih.expression h₂).trans (stretch_expect h₃).1)).congr
        (List.append_nil _) fun ⟨_, hi, _⟩ => hi

/-- **Expressions are numbered as they are read**, by induction on the depth. -/
theorem exprYields : ∀ n, ExprYields n
  | 0 =>
    { expression := fun h => absurd h refuse_ok
      conditional := fun h => absurd h refuse_ok
      operation := fun _ _ _ _ h => absurd h refuse_ok
      operations := fun h => absurd h refuse_ok
      unary := fun h => absurd h refuse_ok
      suffixes := fun h => absurd h refuse_ok
      arguments := fun _ _ _ _ h => absurd h refuse_ok
      primary := fun h => absurd h refuse_ok }
  | n + 1 =>
    have ih := exprYields n
    { expression := yields_expression ih
      conditional := yields_conditional ih
      operation := yields_operation ih
      operations := yields_operations ih
      unary := yields_unary ih
      suffixes := yields_suffixes ih
      arguments := yields_arguments ih
      primary := yields_primary ih }

/-! ### Statements -/

theorem yields_expressionUpTo (kind : Kind) (fault : ParseFault) :
    Yields Expr.ids Expr.Proper (expressionUpTo n kind fault) := by
  intro c e c' h
  obtain ⟨e, c₁, h₁, h⟩ := bind_ok h
  obtain ⟨closing, c₂, h₂, h⟩ := bind_ok h
  obtain ⟨rfl, rfl⟩ := pure_ok.mp h
  exact (((exprYields n).expression h₁).trans (stretch_expect h₂).1).congr (List.append_nil _)
    And.left

theorem yields_some {o : Option Expr} (h : (some <$> expression n) c = .ok o c') :
    c.Stretch c' (Expr.idsOption o) (Expr.OptionProper o) := by
  obtain ⟨e, he, rfl⟩ := map_ok h
  exact (exprYields n).expression he

theorem yields_optionalUpTo (kind : Kind) (fault : ParseFault) :
    Yields Expr.idsOption Expr.OptionProper (optionalUpTo n kind fault) := by
  intro c o c' h
  obtain ⟨b, c₁, h₁, h⟩ := bind_ok h
  rw [looksAt_eq] at h₁
  cases h₁
  obtain ⟨o', c₁, h₁, closing, c₂, h₂, h⟩ : ∃ o' c₁, c.Stretch c₁ (Expr.idsOption o')
      (Expr.OptionProper o') ∧ ∃ closing c₂, expect kind fault c₁ = .ok closing c₂ ∧
      (pure o' : Parser _) c₂ = .ok o c' := by
    split at h
    · obtain ⟨_, c₁, h₁, h⟩ := bind_ok h
      obtain ⟨rfl, rfl⟩ := pure_ok.mp h₁
      obtain ⟨closing, c₂, h₂, h⟩ := bind_ok h
      exact ⟨none, c, .refl c, closing, c₂, h₂, h⟩
    · obtain ⟨o', c₁, h₁, h⟩ := bind_ok h
      obtain ⟨closing, c₂, h₂, h⟩ := bind_ok h
      exact ⟨o', c₁, yields_some h₁, closing, c₂, h₂, h⟩
  obtain ⟨rfl, rfl⟩ := pure_ok.mp h
  exact (h₁.trans (stretch_expect h₂).1).congr (List.append_nil _) And.left

/-- A declaration of a variable may stand first in a `for`. -/
theorem yields_varDecl :
    Yields Stmt.ids (fun s => s.isClause = true ∧ s.Proper) (varDecl n) := by
  intro c s c' h
  obtain ⟨name, c₁, h₁, h⟩ := bind_ok h
  obtain ⟨o, c₂, h₂, h⟩ := bind_ok h
  obtain ⟨y₁, hk⟩ := stretch_expect h₁
  cases o with
  | none =>
    obtain rfl := eq_of_acceptAny_none h₂
    obtain ⟨_, c₃, h₃, h⟩ := bind_ok h
    obtain ⟨rfl, rfl⟩ := pure_ok.mp h₃
    obtain ⟨semicolon, c₄, h₄, h⟩ := bind_ok h
    obtain ⟨rfl, rfl⟩ := pure_ok.mp h
    exact (y₁.trans (stretch_expect h₄).1).congr rfl fun ⟨hs, _⟩ => ⟨rfl, hs.name hk, trivial⟩
  | some equal =>
    obtain ⟨o', c₃, h₃, h⟩ := bind_ok h
    obtain ⟨semicolon, c₄, h₄, h⟩ := bind_ok h
    obtain ⟨rfl, rfl⟩ := pure_ok.mp h
    refine (y₁.trans ((stretch_accept h₂).1.trans
      ((yields_some h₃).trans (stretch_expect h₄).1))).congr (List.append_nil _) ?_
    exact fun ⟨hs, _, ho, _⟩ => ⟨rfl, hs.name hk, ho⟩

theorem yields_forInitial :
    Yields Stmt.idsOption (fun o => (∀ s ∈ o, s.isClause = true) ∧ Stmt.OptionProper o)
      (forInitial n) := by
  intro c o c' h
  obtain ⟨o', c₁, h₁, h⟩ := bind_ok h
  cases o' with
  | none =>
    obtain rfl := eq_of_acceptAny_none h₁
    obtain ⟨e, c₂, h₂, h⟩ := bind_ok h
    obtain ⟨rfl, rfl⟩ := pure_ok.mp h
    exact (yields_expressionUpTo _ _ h₂).congr rfl fun he => ⟨by simp [Stmt.isClause], he⟩
  | some t =>
    dsimp only at h
    split at h
    · obtain ⟨rfl, rfl⟩ := pure_ok.mp h
      exact (stretch_accept h₁).1.congr rfl fun _ => ⟨nofun, trivial⟩
    · obtain ⟨s, h₂, rfl⟩ := map_ok h
      exact ((stretch_accept h₁).1.trans (yields_varDecl h₂)).congr rfl
        fun ⟨_, hc, hs⟩ => ⟨by simpa using hc, hs⟩

/-- The rules for statements yield numbered and proper trees. -/
structure StmtYields (n : Nat) : Prop where
  declaration : Yields Stmt.idsOption Stmt.OptionProper (declaration n)
  methods : Yields Routine.idsAll Routine.AllProper (methods n)
  routine : ∀ form, Yields Routine.ids Routine.Proper (routine n form)
  statement : Yields Stmt.ids (fun s => s.isDeclaration = false ∧ s.Proper) (statement n)
  block : Yields Stmt.idsAll Stmt.AllProper (block n)

/-- A declaration that fails yields no ids, though some may have been used up. -/
theorem yields_declaration (ih : StmtYields n) :
    Yields Stmt.idsOption Stmt.OptionProper (declaration (n + 1)) := by
  intro c o c' h
  rcases recovering_ok h with ⟨s, rfl, hs⟩ | ⟨d, c₁, rfl, -, -⟩
  · obtain ⟨o, c₁, h₁, h⟩ := bind_ok hs
    cases o with
    | none =>
      obtain rfl := eq_of_acceptAny_none h₁
      exact (ih.statement h).congr rfl And.right
    | some t =>
      obtain ⟨y₁, hk⟩ := stretch_accept h₁
      simp only [List.mem_cons, List.not_mem_nil, or_false] at hk
      rcases hk with ht | ht | ht <;> simp only [ht] at h
      · obtain ⟨name, c₂, h₂, h⟩ := bind_ok h
        obtain ⟨opening, c₃, h₃, h⟩ := bind_ok h
        obtain ⟨rs, c₄, h₄, h⟩ := bind_ok h
        obtain ⟨closing, c₅, h₅, h⟩ := bind_ok h
        obtain ⟨rfl, rfl⟩ := pure_ok.mp h
        exact (y₁.trans ((stretch_expect h₂).1.trans ((stretch_expect h₃).1.trans
          ((ih.methods h₄).trans (stretch_expect h₅).1)))).congr (List.append_nil _)
          fun ⟨_, _, _, hm, _⟩ => hm
      · obtain ⟨r, c₂, h₂, h⟩ := bind_ok h
        obtain ⟨rfl, rfl⟩ := pure_ok.mp h
        exact (y₁.trans (ih.routine _ h₂)).congr rfl And.right
      · exact (y₁.trans (yields_varDecl h)).congr rfl fun ⟨_, _, hs⟩ => hs
  · exact .ofForward ((stmtSteady (n + 1)).declaration.ok h)

theorem yields_methods (ih : StmtYields n) :
    Yields Routine.idsAll Routine.AllProper (methods (n + 1)) := by
  intro c rs c' h
  obtain ⟨b, c₁, h₁, h⟩ := bind_ok h
  obtain ⟨b', c₂, h₂, h⟩ := bind_ok h
  rw [looksAt_eq] at h₁
  cases h₁
  cases h₂
  split at h
  · obtain ⟨rfl, rfl⟩ := pure_ok.mp h
    exact .refl c
  · obtain ⟨r, c₁, h₁, h⟩ := bind_ok h
    obtain ⟨rs, c₂, h₂, h⟩ := bind_ok h
    obtain ⟨rfl, rfl⟩ := pure_ok.mp h
    exact (ih.routine _ h₁).trans (ih.methods h₂)

/-- A routine has the ids of its body. -/
theorem yields_routine (ih : StmtYields n) (form : RoutineForm) :
    Yields Routine.ids Routine.Proper (routine (n + 1) form) := by
  intro c r c' h
  obtain ⟨⟨name, ps⟩, c₁, h₁, h⟩ := bind_ok h
  obtain ⟨body, c₂, h₂, h⟩ := bind_ok h
  obtain ⟨rfl, rfl⟩ := pure_ok.mp h
  have hhead : c.Stretch c₁ [] True := .ofForward ((Steady.routineHead n form).ok h₁)
  exact (hhead.trans (ih.block h₂)).congr rfl And.right

/-- A declaration that was recovered from leaves nothing. -/
theorem stretch_toList {o : Option Stmt} {ss : List Stmt} {c'' : Cursor}
    (h : c.Stretch c' (Stmt.idsOption o) (Stmt.OptionProper o))
    (h' : c'.Stretch c'' (Stmt.idsAll ss) (Stmt.AllProper ss)) :
    c.Stretch c'' (Stmt.idsAll (o.toList ++ ss)) (Stmt.AllProper (o.toList ++ ss)) := by
  cases o with
  | none => exact (h.trans h').congr rfl And.right
  | some s => exact h.trans h'

theorem yields_block (ih : StmtYields n) :
    Yields Stmt.idsAll Stmt.AllProper (block (n + 1)) := by
  intro c ss c' h
  obtain ⟨b, c₁, h₁, h⟩ := bind_ok h
  obtain ⟨b', c₂, h₂, h⟩ := bind_ok h
  rw [looksAt_eq] at h₁
  cases h₁
  cases h₂
  split at h
  · obtain ⟨closing, c₁, h₁, h⟩ := bind_ok h
    obtain ⟨rfl, rfl⟩ := pure_ok.mp h
    exact (stretch_expect h₁).1.congr rfl fun _ => trivial
  · obtain ⟨o, c₁, h₁, h⟩ := bind_ok h
    obtain ⟨ss, c₂, h₂, h⟩ := bind_ok h
    obtain ⟨rfl, rfl⟩ := pure_ok.mp h
    exact stretch_toList (ih.declaration h₁) (ih.block h₂)

/-- Where a statement is asked for, no declaration is read. -/
theorem yields_statement (ih : StmtYields n) :
    Yields Stmt.ids (fun s => s.isDeclaration = false ∧ s.Proper) (statement (n + 1)) := by
  intro c s c' h
  obtain ⟨o, c₁, h₁, h⟩ := bind_ok h
  cases o with
  | none =>
    obtain rfl := eq_of_acceptAny_none h₁
    obtain ⟨e, c₂, h₂, h⟩ := bind_ok h
    obtain ⟨rfl, rfl⟩ := pure_ok.mp h
    exact (yields_expressionUpTo _ _ h₂).congr rfl fun he => ⟨rfl, he⟩
  | some t =>
    obtain ⟨y₁, hk⟩ := stretch_accept h₁
    simp only [List.mem_cons, List.not_mem_nil, or_false] at hk
    rcases hk with ht | ht | ht | ht | ht | ht <;> simp only [ht] at h
    -- `for`
    · obtain ⟨opening, c₂, h₂, h⟩ := bind_ok h
      obtain ⟨initial, c₃, h₃, h⟩ := bind_ok h
      obtain ⟨condition, c₄, h₄, h⟩ := bind_ok h
      obtain ⟨increment, c₅, h₅, h⟩ := bind_ok h
      obtain ⟨body, c₆, h₆, h⟩ := bind_ok h
      obtain ⟨rfl, rfl⟩ := pure_ok.mp h
      exact (y₁.trans ((stretch_expect h₂).1.trans ((yields_forInitial h₃).trans
        ((yields_optionalUpTo _ _ h₄).trans ((yields_optionalUpTo _ _ h₅).trans
        (ih.statement h₆)))))).congr rfl fun ⟨_, _, hi, hc, hinc, hb⟩ => ⟨rfl, hi, hc, hinc, hb⟩
    -- `if`
    · obtain ⟨opening, c₂, h₂, h⟩ := bind_ok h
      obtain ⟨condition, c₃, h₃, h⟩ := bind_ok h
      obtain ⟨onTrue, c₄, h₄, h⟩ := bind_ok h
      obtain ⟨o, c₅, h₅, h⟩ := bind_ok h
      have y₄ := y₁.trans ((stretch_expect h₂).1.trans ((yields_expressionUpTo _ _ h₃).trans
        (ih.statement h₄)))
      cases o with
      | none =>
        obtain rfl := eq_of_acceptAny_none h₅
        obtain ⟨rfl, rfl⟩ := pure_ok.mp h
        refine y₄.congr (by simp [Stmt.ids, Stmt.idsOption]) ?_
        exact fun ⟨_, _, hc, hb⟩ => ⟨rfl, hc, hb, nofun, trivial⟩
      | some elseWord =>
        obtain ⟨onFalse, c₆, h₆, h⟩ := bind_ok h
        obtain ⟨rfl, rfl⟩ := pure_ok.mp h
        refine (y₄.trans ((stretch_accept h₅).1.trans (ih.statement h₆))).congr
          (by simp [Stmt.ids, Stmt.idsOption]) ?_
        exact fun ⟨⟨_, _, hc, hb⟩, _, hd, hb'⟩ => ⟨rfl, hc, hb, by simpa using hd, hb'⟩
    -- `while`
    · obtain ⟨opening, c₂, h₂, h⟩ := bind_ok h
      obtain ⟨condition, c₃, h₃, h⟩ := bind_ok h
      obtain ⟨body, c₄, h₄, h⟩ := bind_ok h
      obtain ⟨rfl, rfl⟩ := pure_ok.mp h
      exact (y₁.trans ((stretch_expect h₂).1.trans ((yields_expressionUpTo _ _ h₃).trans
        (ih.statement h₄)))).congr rfl fun ⟨_, _, hc, hb⟩ => ⟨rfl, hc, hb⟩
    -- `return`
    · obtain ⟨value, c₂, h₂, h⟩ := bind_ok h
      obtain ⟨rfl, rfl⟩ := pure_ok.mp h
      exact (y₁.trans (yields_optionalUpTo _ _ h₂)).congr rfl fun ⟨_, hv⟩ => ⟨rfl, hv⟩
    -- a block
    · obtain ⟨body, c₂, h₂, h⟩ := bind_ok h
      obtain ⟨rfl, rfl⟩ := pure_ok.mp h
      exact (y₁.trans (ih.block h₂)).congr rfl fun ⟨_, hb⟩ => ⟨rfl, hb⟩
    -- `print`
    · obtain ⟨e, c₂, h₂, h⟩ := bind_ok h
      obtain ⟨rfl, rfl⟩ := pure_ok.mp h
      exact (y₁.trans (yields_expressionUpTo _ _ h₂)).congr rfl fun ⟨_, he⟩ => ⟨rfl, he⟩

/-- **Statements are numbered as they are read.** -/
theorem stmtYields : ∀ n, StmtYields n
  | 0 =>
    { declaration := fun h => absurd h refuse_ok
      methods := fun h => absurd h refuse_ok
      routine := fun _ _ _ _ h => absurd h refuse_ok
      statement := fun h => absurd h refuse_ok
      block := fun h => absurd h refuse_ok }
  | n + 1 =>
    have ih := stmtYields n
    { declaration := yields_declaration ih
      methods := yields_methods ih
      routine := yields_routine ih
      statement := yields_statement ih
      block := yields_block ih }

/-- **The ids of a program are numbered**, over all its declarations. -/
theorem yields_program : ∀ {n : Nat}, Yields Stmt.idsAll Stmt.AllProper (program n)
  | 0, _, _, _, h => absurd h refuse_ok
  | n + 1, c, ss, c', h => by
      obtain ⟨b, c₁, h₁, h⟩ := bind_ok h
      cases h₁
      split at h
      · obtain ⟨rfl, rfl⟩ := pure_ok.mp h
        exact .refl c
      · obtain ⟨o, c₁, h₁, h⟩ := bind_ok h
        obtain ⟨ss, c₂, h₂, h⟩ := bind_ok h
        obtain ⟨rfl, rfl⟩ := pure_ok.mp h
        exact stretch_toList ((stmtYields n).declaration h₁) (yields_program h₂)

end Parser

/-! ## Programs and expressions from tokens -/

/-- **The node ids of a program are new, and no two of them are the same**, whatever is wrong with
its tokens. -/
theorem numbered_parse (tokens : List Token) (nextId : NodeId) :
    Numbered nextId (parse tokens nextId).nextId (Stmt.idsAll (parse tokens nextId).statements) := by
  cases h : Parser.program (Cursor.start tokens nextId).depth (Cursor.start tokens nextId) with
  | ok ss c =>
    simp only [parse, h]
    exact (Parser.yields_program h).numbered
  | error d c =>
    simp only [parse, h]
    exact .nil ((Parser.Steady.program _).error h).nextId

/-- A program from well spelled tokens is proper. -/
theorem proper_parse {tokens : List Token} (hs : ∀ t ∈ tokens, t.Spelled) (nextId : NodeId) :
    Stmt.AllProper (parse tokens nextId).statements := by
  cases h : Parser.program (Cursor.start tokens nextId).depth (Cursor.start tokens nextId) with
  | ok ss c =>
    simp only [parse, h]
    exact (Parser.yields_program h).proper fun t ht => hs t ((List.takeWhile_subset _) ht)
  | error d c =>
    simp only [parse, h]
    trivial

/-- The node ids of an expression are new, and no two of them are the same. -/
theorem numbered_parseExpression {tokens : List Token} {nextId : NodeId} {e : Expr}
    (h : (parseExpression tokens nextId).1 = .ok e) :
    Numbered nextId (parseExpression tokens nextId).2 e.ids := by
  obtain ⟨c', halone⟩ := Parser.parseExpression_ok.mp h
  have hread := (Parser.expressionAlone_ok.mp halone).1
  simp only [parseExpression, halone]
  exact ((Parser.exprYields _).expression hread).numbered

/-- Reading an expression never takes an id back, whether it succeeds or fails. -/
theorem le_parseExpression (tokens : List Token) (nextId : NodeId) :
    nextId ≤ (parseExpression tokens nextId).2 := by
  unfold parseExpression
  cases h : Parser.expressionAlone (.start tokens nextId) with
  | ok e c => exact (Parser.Steady.expressionAlone.ok h).nextId
  | error d c => exact (Parser.Steady.expressionAlone.error h).nextId

end LoxLang
