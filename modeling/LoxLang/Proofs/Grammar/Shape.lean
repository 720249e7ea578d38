import Mathlib
import LoxLang.Proofs.Grammar.Numbering

/-!
# Proofs/Grammar/Shape — where declarations stand

A tree that was read has declarations only where the grammar has them: as a statement of a program,
of a block or of a body, or first in a `for`. Branches and bodies of loops are never declarations.
This holds of every list of tokens (`shaped_parse`), however they are spelled and whatever is wrong
with them, since it is the rules for statements alone that see to it.
-/

namespace LoxLang

mutual

/-- No declaration stands where the grammar asks for a statement. -/
def Stmt.Shaped : Stmt → Prop
  | .exprStmt _ | .printStmt _ | .varDecl _ _ | .returnStmt _ _ => True
  | .block body => Stmt.AllShaped body
  | .ifStmt _ onTrue onFalse =>
    (onTrue.isDeclaration = false ∧ onTrue.Shaped) ∧
      (∀ s ∈ onFalse, s.isDeclaration = false) ∧ Stmt.OptionShaped onFalse
  | .whileStmt _ body => body.isDeclaration = false ∧ body.Shaped
  | .forStmt initial _ _ body =>
    ((∀ s ∈ initial, s.isClause = true) ∧ Stmt.OptionShaped initial) ∧
      body.isDeclaration = false ∧ body.Shaped
  | .funDecl routine => routine.Shaped
  | .classDecl _ methods => Routine.AllShaped methods

def Stmt.AllShaped : List Stmt → Prop
  | [] => True
  | s :: ss => s.Shaped ∧ Stmt.AllShaped ss

def Stmt.OptionShaped : Option Stmt → Prop
  | none => True
  | some s => s.Shaped

def Routine.Shaped : Routine → Prop
  | ⟨_, _, body⟩ => Stmt.AllShaped body

def Routine.AllShaped : List Routine → Prop
  | [] => True
  | r :: rs => r.Shaped ∧ Routine.AllShaped rs

end

/-- A clause has no statements in it. -/
theorem Stmt.shaped_of_isClause : ∀ {s : Stmt}, s.isClause = true → s.Shaped
  | .varDecl _ _, _ | .exprStmt _, _ => trivial

/-- A declaration that failed is left out. -/
theorem Stmt.allShaped_toList_append : ∀ {o : Option Stmt} {ss : List Stmt},
    Stmt.OptionShaped o → Stmt.AllShaped ss → Stmt.AllShaped (o.toList ++ ss)
  | none, _, _, hss => hss
  | some _, _, hs, hss => ⟨hs, hss⟩

namespace Parser

/-- Whatever the parser succeeds with has the property. -/
def Gives {α : Type} (p : α → Prop) (x : Parser α) : Prop :=
  ∀ ⦃c a c'⦄, x c = .ok a c' → p a

namespace Gives

variable {α β : Type} {p : α → Prop} {q : β → Prop}

theorem pure {a : α} (h : p a) : Gives p (Pure.pure a) := by
  intro _ _ _ hok
  obtain ⟨rfl, -⟩ := pure_ok.mp hok
  exact h

theorem refuse (fault : ParseFault) : Gives p (Parser.refuse fault) :=
  fun _ _ _ hok => absurd hok refuse_ok

/-- The second parser may rely on what the first gives. -/
theorem bind {x : Parser α} {f : α → Parser β} (hx : Gives p x) (hf : ∀ a, p a → Gives q (f a)) :
    Gives q (x >>= f) := by
  intro _ _ _ hok
  obtain ⟨a, _, ha, hok⟩ := bind_ok hok
  exact hf a (hx ha) hok

/-- Nothing has to be known of what was read before. -/
theorem after {x : Parser α} {f : α → Parser β} (hf : ∀ a, Gives q (f a)) : Gives q (x >>= f) :=
  bind (p := fun _ => True) (fun _ _ _ _ => trivial) fun a _ => hf a

theorem map {x : Parser α} {f : α → β} (hx : Gives p x) (hf : ∀ a, p a → q (f a)) :
    Gives q (f <$> x) := by
  intro _ _ _ hok
  obtain ⟨a, ha, rfl⟩ := map_ok hok
  exact hf a (hx ha)

/-- Recovery gives what the parser gives, or nothing. -/
theorem recovering {p : Stmt → Prop} {x : Parser Stmt} (hx : Gives p x) :
    Gives (fun o => ∀ s ∈ o, p s) (Parser.recovering x) := by
  intro _ _ _ hok
  rcases recovering_ok hok with ⟨s, rfl, hs⟩ | ⟨_, _, rfl, -, -⟩
  · intro s' hs'
    cases hs'
    exact hx hs
  · exact nofun

end Gives

/-- The statement is shaped and is none of the declarations. -/
def IsStatement (s : Stmt) : Prop :=
  s.isDeclaration = false ∧ s.Shaped

theorem gives_varDecl (n : Nat) : Gives (fun s => s.isClause = true) (varDecl n) :=
  .after fun _ => .after fun o => by
    cases o <;> exact .after fun _ => .after fun _ => .pure rfl

theorem gives_forInitial (n : Nat) :
    Gives (fun o => ∀ s ∈ o, s.isClause = true) (forInitial n) := by
  refine .after fun o => ?_
  cases o with
  | none => exact .after fun e => .pure (by rintro s ⟨⟩; rfl)
  | some t =>
    dsimp only
    split
    · exact .pure nofun
    · exact (gives_varDecl n).map fun s hs => by rintro s' ⟨⟩; exact hs

/-- The rules for statements give shaped trees. -/
structure StmtGives (n : Nat) : Prop where
  declaration : Gives Stmt.OptionShaped (declaration n)
  methods : Gives Routine.AllShaped (methods n)
  routine : ∀ form, Gives Routine.Shaped (routine n form)
  statement : Gives IsStatement (statement n)
  block : Gives Stmt.AllShaped (block n)

variable {n : Nat}

/-- A declaration is well shaped, if its parts are. -/
theorem gives_declaration (ih : StmtGives n) : Gives Stmt.OptionShaped (declaration (n + 1)) := by
  have hbody : Gives Stmt.Shaped (declarationBody n) := by
    refine .after fun o => ?_
    cases o with
    | none => exact fun _ _ _ hok => (ih.statement hok).2
    | some t =>
      dsimp only
      split
      · exact .after fun _ => .after fun _ => ih.methods.bind fun _ hms => .after fun _ => .pure hms
      · exact (ih.routine .function).bind fun _ hr => .pure hr
      · exact fun _ _ _ hok => Stmt.shaped_of_isClause (gives_varDecl n hok)
  intro c o c' hok
  have hall := hbody.recovering hok
  cases o with
  | none => trivial
  | some s => exact hall s rfl

theorem gives_methods (ih : StmtGives n) : Gives Routine.AllShaped (methods (n + 1)) := by
  refine .after fun _ => .after fun _ => ?_
  split
  · exact .pure trivial
  · exact (ih.routine .method).bind fun _ hr => ih.methods.bind fun _ hrs => .pure ⟨hr, hrs⟩

theorem gives_routine (ih : StmtGives n) (form : RoutineForm) :
    Gives Routine.Shaped (routine (n + 1) form) :=
  .after fun _ => ih.block.bind fun _ hbody => .pure hbody

theorem gives_block (ih : StmtGives n) : Gives Stmt.AllShaped (block (n + 1)) := by
  refine .after fun _ => .after fun _ => ?_
  split
  · exact .after fun _ => .pure trivial
  · exact ih.declaration.bind fun _ ho => ih.block.bind fun _ hss =>
      .pure (Stmt.allShaped_toList_append ho hss)

/-- **Where the grammar asks for a statement, no declaration is read.** -/
theorem gives_statement (ih : StmtGives n) : Gives IsStatement (statement (n + 1)) := by
  refine .after fun o => ?_
  cases o with
  | none => exact .after fun _ => .pure ⟨rfl, trivial⟩
  | some t =>
    dsimp only
    split
    · -- `for`
      refine .after fun _ => (gives_forInitial n).bind fun initial hi => .after fun _ =>
        .after fun _ => ih.statement.bind fun _ hb => .pure ⟨rfl, ⟨hi, ?_⟩, hb⟩
      cases initial with
      | none => trivial
      | some s => exact Stmt.shaped_of_isClause (hi s rfl)
    · -- `if`
      refine .after fun _ => .after fun _ => ih.statement.bind fun _ ht => .after fun o => ?_
      cases o with
      | none => exact .pure ⟨rfl, ht, nofun, trivial⟩
      | some _ =>
        exact ih.statement.bind fun _ hf => .pure ⟨rfl, ht, by rintro s ⟨⟩; exact hf.1, hf.2⟩
    · -- `while`
      exact .after fun _ => .after fun _ => ih.statement.bind fun _ hb => .pure ⟨rfl, hb⟩
    · exact .after fun _ => .pure ⟨rfl, trivial⟩
    · exact ih.block.bind fun _ hss => .pure ⟨rfl, hss⟩
    · exact .after fun _ => .pure ⟨rfl, trivial⟩

/-- **The rules for statements give well shaped trees**, by induction on the depth. -/
theorem stmtGives : ∀ n, StmtGives n
  | 0 =>
    { declaration := .refuse _
      methods := .refuse _
      routine := fun _ => .refuse _
      statement := .refuse _
      block := .refuse _ }
  | n + 1 =>
    have ih := stmtGives n
    { declaration := gives_declaration ih
      methods := gives_methods ih
      routine := gives_routine ih
      statement := gives_statement ih
      block := gives_block ih }

/-- A program is well shaped. -/
theorem gives_program : ∀ n, Gives Stmt.AllShaped (program n)
  | 0 => .refuse _
  | n + 1 => by
    refine .after fun _ => ?_
    split
    · exact .pure trivial
    · exact (stmtGives n).declaration.bind fun _ ho => (gives_program n).bind fun _ hss =>
        .pure (Stmt.allShaped_toList_append ho hss)

end Parser

/-- **What is read of a program is shaped**, whatever the tokens are. -/
theorem shaped_parse (tokens : List Token) (nextId : NodeId) :
    Stmt.AllShaped (parse tokens nextId).statements := by
  cases h : Parser.program (Cursor.start tokens nextId).depth (Cursor.start tokens nextId) with
  | ok ss c =>
    simp only [parse, h]
    exact Parser.gives_program _ h
  | error d c =>
    simp only [parse, h]
    trivial

end LoxLang
