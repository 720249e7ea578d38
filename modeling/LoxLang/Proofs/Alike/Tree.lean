import Mathlib
import LoxLang.Proofs.Run.Table

/-!
# Proofs/Alike/Tree — trees that differ in node ids and lines

Two trees are alike if they have the same shape and the same tokens, up to the lines of the tokens
and the node ids of the names: `lines` says which lines may stand for each other, `uses` which ids.
Reading a text with other ids in stock, or the same text further down, gives trees that are alike.

The walk over the scopes finds the same distances in trees that are alike. So where the distances of
both are recorded, ids stand for each other that have the same distance (`Stmt.Alike.recorded`).
-/

namespace LoxLang

/-- Lines that may stand for each other. -/
abbrev Lines := Nat → Nat → Prop

/-- Node ids that may stand for each other. -/
abbrev Ids := NodeId → NodeId → Prop

/-! ## Tokens and diagnostics -/

/-- Tokens that differ at most in their lines. -/
structure Token.Alike (lines : Lines) (t t' : Token) : Prop where
  kind : t.kind = t'.kind
  lexeme : t.lexeme = t'.lexeme
  literal : t.literal = t'.literal
  line : lines t.line t'.line

/-- Diagnostics that differ at most in the lines of their places. -/
inductive Diagnostic.Alike (lines : Lines) : Diagnostic → Diagnostic → Prop
  | lex {line line' : Nat} (h : lines line line') (fault : LexFault) :
      Alike lines (.lex line fault) (.lex line' fault)
  | parse {t t' : Token} (h : t.Alike lines t') (fault : ParseFault) :
      Alike lines (.parse t fault) (.parse t' fault)
  | resolve {t t' : Token} (h : t.Alike lines t') (fault : ScopeFault) :
      Alike lines (.resolve t fault) (.resolve t' fault)
  | runtime {line line' : Nat} (h : lines line line') (fault : RuntimeFault) :
      Alike lines (.runtime line fault) (.runtime line' fault)
  | output : Alike lines .output .output

section

variable {lines lines' : Lines}

theorem Token.Alike.refl (hlines : ∀ l, lines l l) (t : Token) : t.Alike lines t :=
  ⟨rfl, rfl, rfl, hlines t.line⟩

/-- Where more lines may stand for each other, more tokens are alike. -/
theorem Token.Alike.mono (hlines : ∀ {l l'}, lines l l' → lines' l l') {t t' : Token}
    (h : t.Alike lines t') : t.Alike lines' t' :=
  ⟨h.kind, h.lexeme, h.literal, hlines h.line⟩

/-- Tokens that are alike on equal lines are equal. -/
theorem Token.Alike.eq {t t' : Token} (h : t.Alike Eq t') : t = t' := by
  obtain ⟨kind, lexeme, literal, line⟩ := t
  obtain ⟨rfl, rfl, rfl, rfl⟩ := h
  rfl

theorem Diagnostic.Alike.refl (hlines : ∀ l, lines l l) (d : Diagnostic) : d.Alike lines d := by
  cases d with
  | lex line fault => exact .lex (hlines line) fault
  | parse t fault => exact .parse (.refl hlines t) fault
  | resolve t fault => exact .resolve (.refl hlines t) fault
  | runtime line fault => exact .runtime (hlines line) fault
  | output => exact .output

/-- Diagnostics that are alike on equal lines are equal. -/
theorem Diagnostic.Alike.eq {d d' : Diagnostic} (h : d.Alike Eq d') : d = d' := by
  cases h with
  | lex h | runtime h => rw [h]
  | parse h | resolve h => rw [h.eq]
  | output => rfl

/-- The message of a diagnostic does not tell its place. -/
theorem Diagnostic.Alike.message_eq {d d' : Diagnostic} (h : d.Alike lines d') :
    d.message = d'.message := by
  cases h <;> rfl

/-- A relation that holds between equal things only relates a list to itself only. -/
theorem forall₂_eq {α : Type} {rel : α → α → Prop} (hrel : ∀ {a b}, rel a b → a = b)
    {as bs : List α} (h : List.Forall₂ rel as bs) : as = bs :=
  List.forall₂_eq_eq_eq ▸ h.imp fun _ _ => hrel

/-- Tokens that are alike have the same text. -/
theorem Token.Alike.map_lexeme {ts ts' : List Token} (h : List.Forall₂ (Token.Alike lines) ts ts') :
    ts.map Token.lexeme = ts'.map Token.lexeme := by
  induction h with
  | nil => rfl
  | cons h _ ih => rw [List.map_cons, List.map_cons, h.lexeme, ih]

end

/-! ## Trees -/

mutual

/-- Expressions that differ at most in node ids and lines. -/
inductive Expr.Alike (lines : Lines) (uses : Ids) : Expr → Expr → Prop
  | constant (c : Constant) : Alike lines uses (.constant c) (.constant c)
  | grouping {e e' : Expr} (h : Alike lines uses e e') :
      Alike lines uses (.grouping e) (.grouping e')
  | unary {t t' : Token} {e e' : Expr} (ht : t.Alike lines t') (h : Alike lines uses e e') :
      Alike lines uses (.unary t e) (.unary t' e')
  | binary {t t' : Token} {a a' b b' : Expr} (ha : Alike lines uses a a')
      (ht : t.Alike lines t') (hb : Alike lines uses b b') :
      Alike lines uses (.binary a t b) (.binary a' t' b')
  | logical {t t' : Token} {a a' b b' : Expr} (ha : Alike lines uses a a')
      (ht : t.Alike lines t') (hb : Alike lines uses b b') :
      Alike lines uses (.logical a t b) (.logical a' t' b')
  | conditional {a a' b b' c c' : Expr} (ha : Alike lines uses a a') (hb : Alike lines uses b b')
      (hc : Alike lines uses c c') : Alike lines uses (.conditional a b c) (.conditional a' b' c')
  | var {id id' : NodeId} {t t' : Token} (hid : uses id id') (ht : t.Alike lines t') :
      Alike lines uses (.var id t) (.var id' t')
  | assign {id id' : NodeId} {t t' : Token} {e e' : Expr} (hid : uses id id')
      (ht : t.Alike lines t') (h : Alike lines uses e e') :
      Alike lines uses (.assign id t e) (.assign id' t' e')
  | call {t t' : Token} {f f' : Expr} {es es' : List Expr} (hf : Alike lines uses f f')
      (ht : t.Alike lines t') (hes : AllAlike lines uses es es') :
      Alike lines uses (.call f t es) (.call f' t' es')
  | get {t t' : Token} {e e' : Expr} (h : Alike lines uses e e') (ht : t.Alike lines t') :
      Alike lines uses (.get e t) (.get e' t')
  | set {t t' : Token} {e e' v v' : Expr} (h : Alike lines uses e e') (ht : t.Alike lines t')
      (hv : Alike lines uses v v') : Alike lines uses (.set e t v) (.set e' t' v')
  | this {id id' : NodeId} {t t' : Token} (hid : uses id id') (ht : t.Alike lines t') :
      Alike lines uses (.this id t) (.this id' t')

inductive Expr.AllAlike (lines : Lines) (uses : Ids) : List Expr → List Expr → Prop
  | nil : AllAlike lines uses [] []
  | cons {e e' : Expr} {es es' : List Expr} (h : Alike lines uses e e')
      (hes : AllAlike lines uses es es') : AllAlike lines uses (e :: es) (e' :: es')

end

/-- Expressions that may be left out, and differ at most in node ids and lines. -/
abbrev Expr.OptionAlike (lines : Lines) (uses : Ids) : Option Expr → Option Expr → Prop :=
  Option.Rel (Expr.Alike lines uses)

mutual

/-- Statements that differ at most in node ids and lines. -/
inductive Stmt.Alike (lines : Lines) (uses : Ids) : Stmt → Stmt → Prop
  | exprStmt {e e' : Expr} (h : e.Alike lines uses e') :
      Stmt.Alike lines uses (.exprStmt e) (.exprStmt e')
  | printStmt {e e' : Expr} (h : e.Alike lines uses e') :
      Stmt.Alike lines uses (.printStmt e) (.printStmt e')
  | varDecl {t t' : Token} {e e' : Option Expr} (ht : t.Alike lines t')
      (h : Expr.OptionAlike lines uses e e') : Stmt.Alike lines uses (.varDecl t e) (.varDecl t' e')
  | block {ss ss' : List Stmt} (h : Stmt.AllAlike lines uses ss ss') :
      Stmt.Alike lines uses (.block ss) (.block ss')
  | ifStmt {e e' : Expr} {s s' : Stmt} {o o' : Option Stmt} (h : e.Alike lines uses e')
      (hs : Stmt.Alike lines uses s s') (ho : Stmt.OptionAlike lines uses o o') :
      Stmt.Alike lines uses (.ifStmt e s o) (.ifStmt e' s' o')
  | whileStmt {e e' : Expr} {s s' : Stmt} (h : e.Alike lines uses e')
      (hs : Stmt.Alike lines uses s s') : Stmt.Alike lines uses (.whileStmt e s) (.whileStmt e' s')
  | forStmt {o o' : Option Stmt} {a a' b b' : Option Expr} {s s' : Stmt}
      (ho : Stmt.OptionAlike lines uses o o') (ha : Expr.OptionAlike lines uses a a')
      (hb : Expr.OptionAlike lines uses b b') (hs : Stmt.Alike lines uses s s') :
      Stmt.Alike lines uses (.forStmt o a b s) (.forStmt o' a' b' s')
  | returnStmt {t t' : Token} {e e' : Option Expr} (ht : t.Alike lines t')
      (h : Expr.OptionAlike lines uses e e') :
      Stmt.Alike lines uses (.returnStmt t e) (.returnStmt t' e')
  | funDecl {r r' : Routine} (h : Routine.Alike lines uses r r') :
      Stmt.Alike lines uses (.funDecl r) (.funDecl r')
  | classDecl {t t' : Token} {rs rs' : List Routine} (ht : t.Alike lines t')
      (h : Routine.AllAlike lines uses rs rs') :
      Stmt.Alike lines uses (.classDecl t rs) (.classDecl t' rs')

inductive Stmt.AllAlike (lines : Lines) (uses : Ids) : List Stmt → List Stmt → Prop
  | nil : Stmt.AllAlike lines uses [] []
  | cons {s s' : Stmt} {ss ss' : List Stmt} (h : Stmt.Alike lines uses s s')
      (hss : Stmt.AllAlike lines uses ss ss') : Stmt.AllAlike lines uses (s :: ss) (s' :: ss')

inductive Stmt.OptionAlike (lines : Lines) (uses : Ids) : Option Stmt → Option Stmt → Prop
  | none : Stmt.OptionAlike lines uses none none
  | some {s s' : Stmt} (h : Stmt.Alike lines uses s s') :
      Stmt.OptionAlike lines uses (some s) (some s')

/-- Routines that differ at most in node ids and lines. -/
inductive Routine.Alike (lines : Lines) (uses : Ids) : Routine → Routine → Prop
  | mk {t t' : Token} {ps ps' : List Token} {ss ss' : List Stmt} (ht : t.Alike lines t')
      (hps : List.Forall₂ (Token.Alike lines) ps ps') (hss : Stmt.AllAlike lines uses ss ss') :
      Routine.Alike lines uses ⟨t, ps, ss⟩ ⟨t', ps', ss'⟩

inductive Routine.AllAlike (lines : Lines) (uses : Ids) : List Routine → List Routine → Prop
  | nil : Routine.AllAlike lines uses [] []
  | cons {r r' : Routine} {rs rs' : List Routine} (h : Routine.Alike lines uses r r')
      (hrs : Routine.AllAlike lines uses rs rs') : Routine.AllAlike lines uses (r :: rs) (r' :: rs')

end

/-- The names of routines that are alike differ at most in their lines. -/
theorem Routine.Alike.name {lines : Lines} {uses : Ids} {r r' : Routine}
    (h : r.Alike lines uses r') : r.name.Alike lines r'.name := by
  cases h with
  | mk ht => exact ht

theorem Routine.Alike.parameters {lines : Lines} {uses : Ids} {r r' : Routine}
    (h : r.Alike lines uses r') : List.Forall₂ (Token.Alike lines) r.parameters r'.parameters := by
  cases h with
  | mk _ hps => exact hps

theorem Routine.Alike.body {lines : Lines} {uses : Ids} {r r' : Routine}
    (h : r.Alike lines uses r') : Stmt.AllAlike lines uses r.body r'.body := by
  cases h with
  | mk _ _ hss => exact hss

/-- Programs that are alike one after the other are alike as a whole. -/
theorem Stmt.AllAlike.append {lines : Lines} {uses : Ids} {ss ss' ts ts' : List Stmt} :
    Stmt.AllAlike lines uses ss ss' → Stmt.AllAlike lines uses ts ts' →
      Stmt.AllAlike lines uses (ss ++ ts) (ss' ++ ts')
  | .nil, ht => ht
  | .cons h hss, ht => .cons h (hss.append ht)

/-- Programs that are alike fall apart alike. -/
theorem Stmt.AllAlike.exists_append {lines : Lines} {uses : Ids} {ts : List Stmt} :
    ∀ {ss us : List Stmt}, Stmt.AllAlike lines uses us (ss ++ ts) → ∃ ss' ts', us = ss' ++ ts' ∧
      Stmt.AllAlike lines uses ss' ss ∧ Stmt.AllAlike lines uses ts' ts
  | [], us, h => ⟨[], us, rfl, .nil, h⟩
  | _ :: _, _ :: _, .cons h hus => by
    obtain ⟨ss', ts', rfl, hss, hts⟩ := hus.exists_append
    exact ⟨_ :: ss', ts', rfl, .cons h hss, hts⟩

/-! ## One after the other -/

/-- The third relation leads where the first and then the second lead. -/
def Composes {α : Type} (r r' r'' : α → α → Prop) : Prop :=
  ∀ ⦃a b c⦄, r a b → r' b c → r'' a c

section

variable {lines lines' lines'' : Lines} {uses uses' uses'' : Ids}

/-- Token by token, differences in lines add up. -/
theorem Token.Alike.trans (hlines : Composes lines lines' lines'')
    {t t' t'' : Token} (h : t.Alike lines t') (h' : t'.Alike lines' t'') : t.Alike lines'' t'' :=
  ⟨h.kind.trans h'.kind, h.lexeme.trans h'.lexeme, h.literal.trans h'.literal,
    hlines h.line h'.line⟩

theorem Token.Alike.all_trans (hlines : Composes lines lines' lines'') :
    ∀ {ts ts' ts'' : List Token}, List.Forall₂ (Token.Alike lines) ts ts' →
      List.Forall₂ (Token.Alike lines') ts' ts'' → List.Forall₂ (Token.Alike lines'') ts ts''
  | _, _, _, .nil, .nil => .nil
  | _, _, _, .cons h hts, .cons h' hts' => .cons (h.trans hlines h') (all_trans hlines hts hts')

mutual

/-- Expressions that are alike by way of a third are alike, as far as ids and lines stand for each
other by way of those of the third. -/
theorem Expr.Alike.trans (hlines : Composes lines lines' lines'')
    (huses : Composes uses uses' uses'') : ∀ {e e' e'' : Expr},
    e.Alike lines uses e' → e'.Alike lines' uses' e'' → e.Alike lines'' uses'' e''
  | _, _, _, .constant c, .constant _ => .constant c
  | _, _, _, .grouping h, .grouping h' => .grouping (h.trans hlines huses h')
  | _, _, _, .unary ht h, .unary ht' h' => .unary (ht.trans hlines ht') (h.trans hlines huses h')
  | _, _, _, .binary ha ht hb, .binary ha' ht' hb' =>
    .binary (ha.trans hlines huses ha') (ht.trans hlines ht') (hb.trans hlines huses hb')
  | _, _, _, .logical ha ht hb, .logical ha' ht' hb' =>
    .logical (ha.trans hlines huses ha') (ht.trans hlines ht') (hb.trans hlines huses hb')
  | _, _, _, .conditional ha hb hc, .conditional ha' hb' hc' =>
    .conditional (ha.trans hlines huses ha') (hb.trans hlines huses hb')
      (hc.trans hlines huses hc')
  | _, _, _, .var hid ht, .var hid' ht' => .var (huses hid hid') (ht.trans hlines ht')
  | _, _, _, .assign hid ht h, .assign hid' ht' h' =>
    .assign (huses hid hid') (ht.trans hlines ht') (h.trans hlines huses h')
  | _, _, _, .call hf ht hes, .call hf' ht' hes' =>
    .call (hf.trans hlines huses hf') (ht.trans hlines ht') (hes.trans hlines huses hes')
  | _, _, _, .get h ht, .get h' ht' => .get (h.trans hlines huses h') (ht.trans hlines ht')
  | _, _, _, .set h ht hv, .set h' ht' hv' =>
    .set (h.trans hlines huses h') (ht.trans hlines ht') (hv.trans hlines huses hv')
  | _, _, _, .this hid ht, .this hid' ht' => .this (huses hid hid') (ht.trans hlines ht')

theorem Expr.AllAlike.trans (hlines : Composes lines lines' lines'')
    (huses : Composes uses uses' uses'') : ∀ {es es' es'' : List Expr},
    Expr.AllAlike lines uses es es' → Expr.AllAlike lines' uses' es' es'' →
      Expr.AllAlike lines'' uses'' es es''
  | _, _, _, .nil, .nil => .nil
  | _, _, _, .cons h hes, .cons h' hes' =>
    .cons (h.trans hlines huses h') (hes.trans hlines huses hes')

end

theorem Expr.OptionAlike.trans (hlines : Composes lines lines' lines'')
    (huses : Composes uses uses' uses'') : ∀ {o o' o'' : Option Expr},
    Expr.OptionAlike lines uses o o' → Expr.OptionAlike lines' uses' o' o'' →
      Expr.OptionAlike lines'' uses'' o o''
  | _, _, _, .none, .none => .none
  | _, _, _, .some h, .some h' => .some (h.trans hlines huses h')

mutual

/-- The same for statements, which hold statements and routines in turn. -/
theorem Stmt.Alike.trans (hlines : Composes lines lines' lines'')
    (huses : Composes uses uses' uses'') : ∀ {s s' s'' : Stmt},
    s.Alike lines uses s' → s'.Alike lines' uses' s'' → s.Alike lines'' uses'' s''
  | _, _, _, .exprStmt h, .exprStmt h' => .exprStmt (h.trans hlines huses h')
  | _, _, _, .printStmt h, .printStmt h' => .printStmt (h.trans hlines huses h')
  | _, _, _, .varDecl ht h, .varDecl ht' h' =>
    .varDecl (ht.trans hlines ht') (Expr.OptionAlike.trans hlines huses h h')
  | _, _, _, .block h, .block h' => .block (h.trans hlines huses h')
  | _, _, _, .ifStmt h hs ho, .ifStmt h' hs' ho' =>
    .ifStmt (h.trans hlines huses h') (hs.trans hlines huses hs') (ho.trans hlines huses ho')
  | _, _, _, .whileStmt h hs, .whileStmt h' hs' =>
    .whileStmt (h.trans hlines huses h') (hs.trans hlines huses hs')
  | _, _, _, .forStmt ho ha hb hs, .forStmt ho' ha' hb' hs' =>
    .forStmt (ho.trans hlines huses ho') (Expr.OptionAlike.trans hlines huses ha ha')
      (Expr.OptionAlike.trans hlines huses hb hb') (hs.trans hlines huses hs')
  | _, _, _, .returnStmt ht h, .returnStmt ht' h' =>
    .returnStmt (ht.trans hlines ht') (Expr.OptionAlike.trans hlines huses h h')
  | _, _, _, .funDecl h, .funDecl h' => .funDecl (h.trans hlines huses h')
  | _, _, _, .classDecl ht h, .classDecl ht' h' =>
    .classDecl (ht.trans hlines ht') (h.trans hlines huses h')

theorem Stmt.AllAlike.trans (hlines : Composes lines lines' lines'')
    (huses : Composes uses uses' uses'') : ∀ {ss ss' ss'' : List Stmt},
    Stmt.AllAlike lines uses ss ss' → Stmt.AllAlike lines' uses' ss' ss'' →
      Stmt.AllAlike lines'' uses'' ss ss''
  | _, _, _, .nil, .nil => .nil
  | _, _, _, .cons h hss, .cons h' hss' =>
    .cons (h.trans hlines huses h') (hss.trans hlines huses hss')

theorem Stmt.OptionAlike.trans (hlines : Composes lines lines' lines'')
    (huses : Composes uses uses' uses'') : ∀ {o o' o'' : Option Stmt},
    Stmt.OptionAlike lines uses o o' → Stmt.OptionAlike lines' uses' o' o'' →
      Stmt.OptionAlike lines'' uses'' o o''
  | _, _, _, .none, .none => .none
  | _, _, _, .some h, .some h' => .some (h.trans hlines huses h')

theorem Routine.Alike.trans (hlines : Composes lines lines' lines'')
    (huses : Composes uses uses' uses'') : ∀ {r r' r'' : Routine},
    r.Alike lines uses r' → r'.Alike lines' uses' r'' → r.Alike lines'' uses'' r''
  | _, _, _, .mk ht hps hss, .mk ht' hps' hss' =>
    .mk (ht.trans hlines ht') (Token.Alike.all_trans hlines hps hps') (hss.trans hlines huses hss')

theorem Routine.AllAlike.trans (hlines : Composes lines lines' lines'')
    (huses : Composes uses uses' uses'') : ∀ {rs rs' rs'' : List Routine},
    Routine.AllAlike lines uses rs rs' → Routine.AllAlike lines' uses' rs' rs'' →
      Routine.AllAlike lines'' uses'' rs rs''
  | _, _, _, .nil, .nil => .nil
  | _, _, _, .cons h hrs, .cons h' hrs' =>
    .cons (h.trans hlines huses h') (hrs.trans hlines huses hrs')

end

end

/-! ## More lines and ids that stand for each other -/

section

variable {lines lines' : Lines} {uses uses' : Ids}

mutual

/-- Where more ids and lines may stand for each other, more expressions are alike. -/
theorem Expr.Alike.mono (hlines : ∀ {l l'}, lines l l' → lines' l l')
    (huses : ∀ {i j}, uses i j → uses' i j) : ∀ {e e' : Expr},
    e.Alike lines uses e' → e.Alike lines' uses' e'
  | _, _, .constant c => .constant c
  | _, _, .grouping h => .grouping (h.mono hlines huses)
  | _, _, .unary ht h => .unary (ht.mono hlines) (h.mono hlines huses)
  | _, _, .binary ha ht hb =>
    .binary (ha.mono hlines huses) (ht.mono hlines) (hb.mono hlines huses)
  | _, _, .logical ha ht hb =>
    .logical (ha.mono hlines huses) (ht.mono hlines) (hb.mono hlines huses)
  | _, _, .conditional ha hb hc =>
    .conditional (ha.mono hlines huses) (hb.mono hlines huses) (hc.mono hlines huses)
  | _, _, .var hid ht => .var (huses hid) (ht.mono hlines)
  | _, _, .assign hid ht h => .assign (huses hid) (ht.mono hlines) (h.mono hlines huses)
  | _, _, .call hf ht hes => .call (hf.mono hlines huses) (ht.mono hlines) (hes.mono hlines huses)
  | _, _, .get h ht => .get (h.mono hlines huses) (ht.mono hlines)
  | _, _, .set h ht hv => .set (h.mono hlines huses) (ht.mono hlines) (hv.mono hlines huses)
  | _, _, .this hid ht => .this (huses hid) (ht.mono hlines)

theorem Expr.AllAlike.mono (hlines : ∀ {l l'}, lines l l' → lines' l l')
    (huses : ∀ {i j}, uses i j → uses' i j) : ∀ {es es' : List Expr},
    Expr.AllAlike lines uses es es' → Expr.AllAlike lines' uses' es es'
  | _, _, .nil => .nil
  | _, _, .cons h hes => .cons (h.mono hlines huses) (hes.mono hlines huses)

end

theorem Expr.OptionAlike.mono (hlines : ∀ {l l'}, lines l l' → lines' l l')
    (huses : ∀ {i j}, uses i j → uses' i j) {e e' : Option Expr}
    (h : Expr.OptionAlike lines uses e e') : Expr.OptionAlike lines' uses' e e' := by
  cases h with
  | none => exact .none
  | some h => exact .some (h.mono hlines huses)

mutual

/-- The same for statements. -/
theorem Stmt.Alike.mono (hlines : ∀ {l l'}, lines l l' → lines' l l')
    (huses : ∀ {i j}, uses i j → uses' i j) : ∀ {s s' : Stmt},
    s.Alike lines uses s' → s.Alike lines' uses' s'
  | _, _, .exprStmt h => .exprStmt (h.mono hlines huses)
  | _, _, .printStmt h => .printStmt (h.mono hlines huses)
  | _, _, .varDecl ht h => .varDecl (ht.mono hlines) (Expr.OptionAlike.mono hlines huses h)
  | _, _, .block h => .block (h.mono hlines huses)
  | _, _, .ifStmt h hs ho =>
    .ifStmt (h.mono hlines huses) (hs.mono hlines huses) (ho.mono hlines huses)
  | _, _, .whileStmt h hs => .whileStmt (h.mono hlines huses) (hs.mono hlines huses)
  | _, _, .forStmt ho ha hb hs =>
    .forStmt (ho.mono hlines huses) (Expr.OptionAlike.mono hlines huses ha)
      (Expr.OptionAlike.mono hlines huses hb) (hs.mono hlines huses)
  | _, _, .returnStmt ht h => .returnStmt (ht.mono hlines) (Expr.OptionAlike.mono hlines huses h)
  | _, _, .funDecl h => .funDecl (h.mono hlines huses)
  | _, _, .classDecl ht h => .classDecl (ht.mono hlines) (h.mono hlines huses)

theorem Stmt.AllAlike.mono (hlines : ∀ {l l'}, lines l l' → lines' l l')
    (huses : ∀ {i j}, uses i j → uses' i j) : ∀ {ss ss' : List Stmt},
    Stmt.AllAlike lines uses ss ss' → Stmt.AllAlike lines' uses' ss ss'
  | _, _, .nil => .nil
  | _, _, .cons h hss => .cons (h.mono hlines huses) (hss.mono hlines huses)

theorem Stmt.OptionAlike.mono (hlines : ∀ {l l'}, lines l l' → lines' l l')
    (huses : ∀ {i j}, uses i j → uses' i j) : ∀ {o o' : Option Stmt},
    Stmt.OptionAlike lines uses o o' → Stmt.OptionAlike lines' uses' o o'
  | _, _, .none => .none
  | _, _, .some h => .some (h.mono hlines huses)

theorem Routine.Alike.mono (hlines : ∀ {l l'}, lines l l' → lines' l l')
    (huses : ∀ {i j}, uses i j → uses' i j) : ∀ {r r' : Routine},
    r.Alike lines uses r' → r.Alike lines' uses' r'
  | _, _, .mk ht hps hss =>
    .mk (ht.mono hlines) (hps.imp fun _ _ h => h.mono hlines) (hss.mono hlines huses)

theorem Routine.AllAlike.mono (hlines : ∀ {l l'}, lines l l' → lines' l l')
    (huses : ∀ {i j}, uses i j → uses' i j) : ∀ {rs rs' : List Routine},
    Routine.AllAlike lines uses rs rs' → Routine.AllAlike lines' uses' rs rs'
  | _, _, .nil => .nil
  | _, _, .cons h hrs => .cons (h.mono hlines huses) (hrs.mono hlines huses)

end

end

/-! ## Trees with the same bare tree -/

/-- Any ids may stand for each other. -/
def Ids.any : Ids := fun _ _ => True

mutual

/-- **Trees that differ in their ids only are alike.** -/
theorem Expr.alike_of_bare : ∀ {e e' : Expr}, e.bare = e'.bare → e.Alike Eq .any e'
  | .constant c, e', h => by
    cases e' with simp at h
    | constant c' => exact h ▸ .constant c
  | .grouping e, e', h => by
    cases e' with simp at h
    | grouping e' => exact .grouping (Expr.alike_of_bare h)
  | .unary t e, e', h => by
    cases e' with simp at h
    | unary t' e' => exact .unary (h.1 ▸ .refl (fun _ => rfl) t) (Expr.alike_of_bare h.2)
  | .binary a t b, e', h => by
    cases e' with simp at h
    | binary a' t' b' =>
      exact .binary (Expr.alike_of_bare h.1) (h.2.1 ▸ .refl (fun _ => rfl) t)
        (Expr.alike_of_bare h.2.2)
  | .logical a t b, e', h => by
    cases e' with simp at h
    | logical a' t' b' =>
      exact .logical (Expr.alike_of_bare h.1) (h.2.1 ▸ .refl (fun _ => rfl) t)
        (Expr.alike_of_bare h.2.2)
  | .conditional a b c, e', h => by
    cases e' with simp at h
    | conditional a' b' c' =>
      exact .conditional (Expr.alike_of_bare h.1) (Expr.alike_of_bare h.2.1)
        (Expr.alike_of_bare h.2.2)
  | .var id t, e', h => by
    cases e' with simp at h
    | var id' t' => exact .var trivial (h ▸ .refl (fun _ => rfl) t)
  | .assign id t e, e', h => by
    cases e' with simp at h
    | assign id' t' e' =>
      exact .assign trivial (h.1 ▸ .refl (fun _ => rfl) t) (Expr.alike_of_bare h.2)
  | .call f t es, e', h => by
    cases e' with simp at h
    | call f' t' es' =>
      exact .call (Expr.alike_of_bare h.1) (h.2.1 ▸ .refl (fun _ => rfl) t)
        (Expr.allAlike_of_bare h.2.2)
  | .get e t, e', h => by
    cases e' with simp at h
    | get e' t' => exact .get (Expr.alike_of_bare h.1) (h.2 ▸ .refl (fun _ => rfl) t)
  | .set e t v, e', h => by
    cases e' with simp at h
    | set e' t' v' =>
      exact .set (Expr.alike_of_bare h.1) (h.2.1 ▸ .refl (fun _ => rfl) t)
        (Expr.alike_of_bare h.2.2)
  | .this id t, e', h => by
    cases e' with simp at h
    | this id' t' => exact .this trivial (h ▸ .refl (fun _ => rfl) t)

theorem Expr.allAlike_of_bare : ∀ {es es' : List Expr},
    Expr.bareAll es = Expr.bareAll es' → Expr.AllAlike Eq .any es es'
  | [], [], _ => .nil
  | e :: es, e' :: es', h => by
    simp at h
    exact .cons (Expr.alike_of_bare h.1) (Expr.allAlike_of_bare h.2)
  | [], _ :: _, h | _ :: _, [], h => by simp at h

end

/-- Expressions that may be left out are alike if they are the same without their ids. -/
theorem Expr.optionAlike_of_bare {e e' : Option Expr} (h : e.map Expr.bare = e'.map Expr.bare) :
    Expr.OptionAlike Eq .any e e' := by
  cases e with
  | none =>
    cases e' with
    | none => exact .none
    | some e' => cases h
  | some e =>
    cases e' with
    | none => cases h
    | some e' => exact .some (Expr.alike_of_bare (Option.some.inj h))

mutual

/-- Statements that are the same without their ids are alike. -/
theorem Stmt.alike_of_bare : ∀ {s s' : Stmt}, s.bare = s'.bare → s.Alike Eq .any s'
  | .exprStmt e, s', h => by
    cases s' with simp at h
    | exprStmt e' => exact .exprStmt (Expr.alike_of_bare h)
  | .printStmt e, s', h => by
    cases s' with simp at h
    | printStmt e' => exact .printStmt (Expr.alike_of_bare h)
  | .varDecl t e, s', h => by
    cases s' with simp at h
    | varDecl t' e' =>
      exact .varDecl (h.1 ▸ .refl (fun _ => rfl) t) (Expr.optionAlike_of_bare h.2)
  | .block ss, s', h => by
    cases s' with simp at h
    | block ss' => exact .block (Stmt.allAlike_of_bare h)
  | .ifStmt e s o, s', h => by
    cases s' with simp at h
    | ifStmt e' s' o' =>
      exact .ifStmt (Expr.alike_of_bare h.1) (Stmt.alike_of_bare h.2.1)
        (Stmt.optionAlike_of_bare h.2.2)
  | .whileStmt e s, s', h => by
    cases s' with simp at h
    | whileStmt e' s' => exact .whileStmt (Expr.alike_of_bare h.1) (Stmt.alike_of_bare h.2)
  | .forStmt o a b s, s', h => by
    cases s' with simp at h
    | forStmt o' a' b' s' =>
      exact .forStmt (Stmt.optionAlike_of_bare h.1) (Expr.optionAlike_of_bare h.2.1)
        (Expr.optionAlike_of_bare h.2.2.1) (Stmt.alike_of_bare h.2.2.2)
  | .returnStmt t e, s', h => by
    cases s' with simp at h
    | returnStmt t' e' =>
      exact .returnStmt (h.1 ▸ .refl (fun _ => rfl) t) (Expr.optionAlike_of_bare h.2)
  | .funDecl r, s', h => by
    cases s' with simp at h
    | funDecl r' => exact .funDecl (Routine.alike_of_bare h)
  | .classDecl t rs, s', h => by
    cases s' with simp at h
    | classDecl t' rs' =>
      exact .classDecl (h.1 ▸ .refl (fun _ => rfl) t) (Routine.allAlike_of_bare h.2)

/-- Programs that are the same without their ids are alike. -/
theorem Stmt.allAlike_of_bare : ∀ {ss ss' : List Stmt},
    Stmt.bareAll ss = Stmt.bareAll ss' → Stmt.AllAlike Eq .any ss ss'
  | [], [], _ => .nil
  | s :: ss, s' :: ss', h => by
    simp at h
    exact .cons (Stmt.alike_of_bare h.1) (Stmt.allAlike_of_bare h.2)
  | [], _ :: _, h | _ :: _, [], h => by simp at h

theorem Stmt.optionAlike_of_bare : ∀ {o o' : Option Stmt},
    Stmt.bareOption o = Stmt.bareOption o' → Stmt.OptionAlike Eq .any o o'
  | none, none, _ => .none
  | some s, some s', h => .some (Stmt.alike_of_bare (Option.some.inj h))
  | none, some _, h | some _, none, h => by simp at h

theorem Routine.alike_of_bare : ∀ {r r' : Routine}, r.bare = r'.bare → r.Alike Eq .any r'
  | ⟨t, ps, ss⟩, ⟨t', ps', ss'⟩, h => by
    simp at h
    obtain ⟨rfl, rfl, h⟩ := h
    exact .mk (.refl (fun _ => rfl) t) (List.forall₂_same.mpr fun p _ => .refl (fun _ => rfl) p)
      (Stmt.allAlike_of_bare h)

theorem Routine.allAlike_of_bare : ∀ {rs rs' : List Routine},
    Routine.bareAll rs = Routine.bareAll rs' → Routine.AllAlike Eq .any rs rs'
  | [], [], _ => .nil
  | r :: rs, r' :: rs', h => by
    simp at h
    exact .cons (Routine.alike_of_bare h.1) (Routine.allAlike_of_bare h.2)
  | [], _ :: _, h | _ :: _, [], h => by simp at h

end

/-! ## Recorded distances -/

/-- Ids that are recorded with the same distance stand for each other. -/
def Ids.Joins (uses : Ids) (known known' : Recorded) : Prop :=
  ∀ ⦃i j d⦄, known i d → known' j d → uses i j

section

variable {lines : Lines} {any uses : Ids} {known known' : Recorded}

/-- Statements that are alike declare the same names. -/
theorem Stmt.Alike.after_eq {s s' : Stmt} (h : s.Alike lines any s') (Γ : Scopes) :
    s.after Γ = s'.after Γ := by
  cases h with
  | varDecl ht | classDecl ht => simp [Stmt.after, ht.lexeme]
  | funDecl h => simp [Stmt.after, h.name.lexeme]
  | _ => rfl

/-- Clauses that are alike leave the same scopes behind. -/
theorem Stmt.OptionAlike.after_eq {o o' : Option Stmt} (h : Stmt.OptionAlike lines any o o')
    (Γ : Scopes) : Stmt.afterOption Γ o = Stmt.afterOption Γ o' := by
  cases h with
  | none => rfl
  | some h => exact h.after_eq Γ

mutual

/-- Where the distances of the names in both trees are recorded, ids of the same distance stand for
each other. -/
theorem Expr.Alike.recorded (huses : uses.Joins known known') {Γ : Scopes}
    {own : Option String} : ∀ {e e' : Expr}, e.Alike lines any e' →
    (∀ u ∈ e.uses Γ own, known u.1 u.2) → (∀ u ∈ e'.uses Γ own, known' u.1 u.2) →
    e.Alike lines uses e'
  | _, _, .constant c, _, _ => .constant c
  | _, _, .grouping h, hl, hr => .grouping (h.recorded huses hl hr)
  | _, _, .unary ht h, hl, hr => .unary ht (h.recorded huses hl hr)
  | _, _, .binary ha ht hb, hl, hr => by
    simp only [Expr.uses, List.forall_mem_append] at hl hr
    exact .binary (ha.recorded huses hl.1 hr.1) ht (hb.recorded huses hl.2 hr.2)
  | _, _, .logical ha ht hb, hl, hr => by
    simp only [Expr.uses, List.forall_mem_append] at hl hr
    exact .logical (ha.recorded huses hl.1 hr.1) ht (hb.recorded huses hl.2 hr.2)
  | _, _, .conditional ha hb hc, hl, hr => by
    simp only [Expr.uses, List.forall_mem_append] at hl hr
    exact .conditional (ha.recorded huses hl.1 hr.1) (hb.recorded huses hl.2.1 hr.2.1)
      (hc.recorded huses hl.2.2 hr.2.2)
  | _, _, .var _ ht, hl, hr =>
    .var (huses (hl _ (.head _)) (ht.lexeme ▸ hr _ (.head _))) ht
  | _, _, .assign _ ht h, hl, hr => by
    simp only [Expr.uses, List.forall_mem_append, List.forall_mem_singleton] at hl hr
    exact .assign (huses hl.2 (ht.lexeme ▸ hr.2)) ht (h.recorded huses hl.1 hr.1)
  | _, _, .call hf ht hes, hl, hr => by
    simp only [Expr.uses, List.forall_mem_append] at hl hr
    exact .call (hf.recorded huses hl.1 hr.1) ht (hes.recorded huses hl.2 hr.2)
  | _, _, .get h ht, hl, hr => .get (h.recorded huses hl hr) ht
  | _, _, .set h ht hv, hl, hr => by
    simp only [Expr.uses, List.forall_mem_append] at hl hr
    exact .set (h.recorded huses hl.1 hr.1) ht (hv.recorded huses hl.2 hr.2)
  | _, _, .this _ ht, hl, hr =>
    .this (huses (hl _ (.head _)) (ht.lexeme ▸ hr _ (.head _))) ht

/-- The same for arguments: the uses of each of them are among those of all. -/
theorem Expr.AllAlike.recorded (huses : uses.Joins known known')
    {Γ : Scopes} {own : Option String} : ∀ {es es' : List Expr}, Expr.AllAlike lines any es es' →
    (∀ u ∈ Expr.usesAll Γ own es, known u.1 u.2) →
    (∀ u ∈ Expr.usesAll Γ own es', known' u.1 u.2) → Expr.AllAlike lines uses es es'
  | _, _, .nil, _, _ => .nil
  | _, _, .cons h hes, hl, hr => by
    simp only [Expr.usesAll, List.forall_mem_append] at hl hr
    exact .cons (h.recorded huses hl.1 hr.1) (hes.recorded huses hl.2 hr.2)

end

theorem Expr.OptionAlike.recorded (huses : uses.Joins known known')
    {Γ : Scopes} {own : Option String} {e e' : Option Expr} (h : Expr.OptionAlike lines any e e')
    (hl : ∀ u ∈ Expr.usesOption Γ own e, known u.1 u.2)
    (hr : ∀ u ∈ Expr.usesOption Γ own e', known' u.1 u.2) : Expr.OptionAlike lines uses e e' := by
  cases h with
  | none => exact .none
  | some h => exact .some (h.recorded huses hl hr)

mutual

/-- **Where the distances of both programs are recorded, ids stand for each other that have the same
distance**, in every statement. -/
theorem Stmt.Alike.recorded (huses : uses.Joins known known') :
    ∀ {s s' : Stmt} {Γ : Scopes}, s.Alike lines any s' → (∀ u ∈ s.uses Γ, known u.1 u.2) →
    (∀ u ∈ s'.uses Γ, known' u.1 u.2) → s.Alike lines uses s'
  | _, _, _, .exprStmt h, hl, hr => .exprStmt (h.recorded huses hl hr)
  | _, _, _, .printStmt h, hl, hr => .printStmt (h.recorded huses hl hr)
  | _, _, Γ, .varDecl ht h, hl, hr => by
    simp only [Stmt.uses, ht.lexeme] at hl hr
    exact .varDecl ht (Expr.OptionAlike.recorded huses h hl hr)
  | _, _, _, .block h, hl, hr => .block (h.recorded huses hl hr)
  | _, _, _, .ifStmt h hs ho, hl, hr => by
    simp only [Stmt.uses, List.forall_mem_append] at hl hr
    exact .ifStmt (h.recorded huses hl.1 hr.1) (hs.recorded huses hl.2.1 hr.2.1)
      (ho.recorded huses hl.2.2 hr.2.2)
  | _, _, _, .whileStmt h hs, hl, hr => by
    simp only [Stmt.uses, List.forall_mem_append] at hl hr
    exact .whileStmt (h.recorded huses hl.1 hr.1) (hs.recorded huses hl.2 hr.2)
  | _, _, Γ, .forStmt ho ha hb hs, hl, hr => by
    simp only [Stmt.uses, List.forall_mem_append, ho.after_eq] at hl hr
    exact .forStmt (ho.recorded huses hl.1 hr.1)
      (Expr.OptionAlike.recorded huses ha hl.2.1 hr.2.1)
      (Expr.OptionAlike.recorded huses hb hl.2.2.1 hr.2.2.1)
      (hs.recorded huses hl.2.2.2 hr.2.2.2)
  | _, _, _, .returnStmt ht h, hl, hr =>
    .returnStmt ht (Expr.OptionAlike.recorded huses h hl hr)
  | _, _, Γ, .funDecl h, hl, hr => by
    simp only [Stmt.uses, h.name.lexeme] at hl hr
    exact .funDecl (h.recorded huses hl hr)
  | _, _, Γ, .classDecl ht h, hl, hr => by
    simp only [Stmt.uses, ht.lexeme] at hl hr
    exact .classDecl ht (h.recorded huses hl hr)

theorem Stmt.AllAlike.recorded (huses : uses.Joins known known') :
    ∀ {ss ss' : List Stmt} {Γ : Scopes}, Stmt.AllAlike lines any ss ss' →
    (∀ u ∈ Stmt.usesAll ss Γ, known u.1 u.2) → (∀ u ∈ Stmt.usesAll ss' Γ, known' u.1 u.2) →
    Stmt.AllAlike lines uses ss ss'
  | _, _, _, .nil, _, _ => .nil
  | _, _, Γ, .cons h hss, hl, hr => by
    simp only [Stmt.usesAll, List.forall_mem_append, h.after_eq] at hl hr
    exact .cons (h.recorded huses hl.1 hr.1) (hss.recorded huses hl.2 hr.2)

theorem Stmt.OptionAlike.recorded (huses : uses.Joins known known') :
    ∀ {o o' : Option Stmt} {Γ : Scopes}, Stmt.OptionAlike lines any o o' →
    (∀ u ∈ Stmt.usesOption o Γ, known u.1 u.2) → (∀ u ∈ Stmt.usesOption o' Γ, known' u.1 u.2) →
    Stmt.OptionAlike lines uses o o'
  | _, _, _, .none, _, _ => .none
  | _, _, _, .some h, hl, hr => .some (h.recorded huses hl hr)

/-- The uses of a routine are those of its body, inside of its parameters. -/
theorem Routine.Alike.recorded (huses : uses.Joins known known') :
    ∀ {r r' : Routine} {Γ : Scopes}, r.Alike lines any r' → (∀ u ∈ r.uses Γ, known u.1 u.2) →
    (∀ u ∈ r'.uses Γ, known' u.1 u.2) → r.Alike lines uses r'
  | _, _, Γ, .mk ht hps hss, hl, hr => by
    simp only [Routine.uses, Token.Alike.map_lexeme hps] at hl hr
    exact .mk ht hps (hss.recorded huses hl hr)

theorem Routine.AllAlike.recorded (huses : uses.Joins known known') :
    ∀ {rs rs' : List Routine} {Γ : Scopes}, Routine.AllAlike lines any rs rs' →
    (∀ u ∈ Routine.usesAll rs Γ, known u.1 u.2) → (∀ u ∈ Routine.usesAll rs' Γ, known' u.1 u.2) →
    Routine.AllAlike lines uses rs rs'
  | _, _, _, .nil, _, _ => .nil
  | _, _, _, .cons h hrs, hl, hr => by
    simp only [Routine.usesAll, List.forall_mem_append] at hl hr
    exact .cons (h.recorded huses hl.1 hr.1) (hrs.recorded huses hl.2 hr.2)

end

/-! ### Alike trees use names at the same distances -/

mutual

/-- The walk finds the same distances in expressions that are alike, in the same order. -/
theorem Expr.Alike.map_snd_uses {Γ : Scopes} {own : Option String} : ∀ {e e' : Expr},
    e.Alike lines any e' → (e.uses Γ own).map Prod.snd = (e'.uses Γ own).map Prod.snd
  | _, _, .constant _ => rfl
  | _, _, .grouping h | _, _, .unary _ h | _, _, .get h _ => h.map_snd_uses
  | _, _, .binary ha _ hb | _, _, .logical ha _ hb | _, _, .set ha _ hb => by
    simp only [Expr.uses, List.map_append, ha.map_snd_uses, hb.map_snd_uses]
  | _, _, .conditional ha hb hc => by
    simp only [Expr.uses, List.map_append, ha.map_snd_uses, hb.map_snd_uses, hc.map_snd_uses]
  | _, _, .var _ ht | _, _, .this _ ht => by
    simp only [Expr.uses, List.map_cons, List.map_nil, ht.lexeme]
  | _, _, .assign _ ht h => by
    simp only [Expr.uses, List.map_append, List.map_cons, List.map_nil, h.map_snd_uses, ht.lexeme]
  | _, _, .call hf _ hes => by
    simp only [Expr.uses, List.map_append, hf.map_snd_uses, hes.map_snd_uses]

theorem Expr.AllAlike.map_snd_uses {Γ : Scopes} {own : Option String} : ∀ {es es' : List Expr},
    Expr.AllAlike lines any es es' →
    (Expr.usesAll Γ own es).map Prod.snd = (Expr.usesAll Γ own es').map Prod.snd
  | _, _, .nil => rfl
  | _, _, .cons h hes => by
    simp only [Expr.usesAll, List.map_append, h.map_snd_uses, hes.map_snd_uses]

end

theorem Expr.OptionAlike.map_snd_uses {Γ : Scopes} {own : Option String} {o o' : Option Expr}
    (h : Expr.OptionAlike lines any o o') :
    (Expr.usesOption Γ own o).map Prod.snd = (Expr.usesOption Γ own o').map Prod.snd := by
  cases h with
  | none => rfl
  | some h => exact h.map_snd_uses

mutual

/-- The walk finds the same distances in statements that are alike. -/
theorem Stmt.Alike.map_snd_uses : ∀ {s s' : Stmt} {Γ : Scopes}, s.Alike lines any s' →
    (s.uses Γ).map Prod.snd = (s'.uses Γ).map Prod.snd
  | _, _, _, .exprStmt h | _, _, _, .printStmt h => h.map_snd_uses
  | _, _, _, .varDecl ht h => by
    simp only [Stmt.uses, ht.lexeme]
    exact Expr.OptionAlike.map_snd_uses h
  | _, _, _, .block h => h.map_snd_uses
  | _, _, _, .ifStmt h hs ho => by
    simp only [Stmt.uses, List.map_append, h.map_snd_uses, hs.map_snd_uses, ho.map_snd_uses]
  | _, _, _, .whileStmt h hs => by
    simp only [Stmt.uses, List.map_append, h.map_snd_uses, hs.map_snd_uses]
  | _, _, _, .forStmt ho ha hb hs => by
    simp only [Stmt.uses, List.map_append, ho.after_eq, ho.map_snd_uses,
      Expr.OptionAlike.map_snd_uses ha, Expr.OptionAlike.map_snd_uses hb, hs.map_snd_uses]
  | _, _, _, .returnStmt _ h => Expr.OptionAlike.map_snd_uses h
  | _, _, _, .funDecl h => by
    simp only [Stmt.uses, h.name.lexeme]
    exact h.map_snd_uses
  | _, _, _, .classDecl ht h => by
    simp only [Stmt.uses, ht.lexeme]
    exact h.map_snd_uses

/-- The walk finds the same distances in programs that are alike. -/
theorem Stmt.AllAlike.map_snd_uses : ∀ {ss ss' : List Stmt} {Γ : Scopes},
    Stmt.AllAlike lines any ss ss' →
    (Stmt.usesAll ss Γ).map Prod.snd = (Stmt.usesAll ss' Γ).map Prod.snd
  | _, _, _, .nil => rfl
  | _, _, _, .cons h hss => by
    simp only [Stmt.usesAll, List.map_append, h.after_eq, h.map_snd_uses, hss.map_snd_uses]

theorem Stmt.OptionAlike.map_snd_uses : ∀ {o o' : Option Stmt} {Γ : Scopes},
    Stmt.OptionAlike lines any o o' →
    (Stmt.usesOption o Γ).map Prod.snd = (Stmt.usesOption o' Γ).map Prod.snd
  | _, _, _, .none => rfl
  | _, _, _, .some h => h.map_snd_uses

theorem Routine.Alike.map_snd_uses : ∀ {r r' : Routine} {Γ : Scopes}, r.Alike lines any r' →
    (r.uses Γ).map Prod.snd = (r'.uses Γ).map Prod.snd
  | _, _, _, .mk _ hps hss => by
    simp only [Routine.uses, Token.Alike.map_lexeme hps]
    exact hss.map_snd_uses

theorem Routine.AllAlike.map_snd_uses : ∀ {rs rs' : List Routine} {Γ : Scopes},
    Routine.AllAlike lines any rs rs' →
    (Routine.usesAll rs Γ).map Prod.snd = (Routine.usesAll rs' Γ).map Prod.snd
  | _, _, _, .nil => rfl
  | _, _, _, .cons h hrs => by
    simp only [Routine.usesAll, List.map_append, h.map_snd_uses, hrs.map_snd_uses]

end

end

end LoxLang
