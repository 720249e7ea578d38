import Mathlib
import LoxLang.Proofs.Grammar.Shape
import LoxLang.Proofs.Scope.Walk

/-!
# Proofs/Scope/Sites — the places of a program and the rules that hold there

What a name means, and whether it may stand where it does, is a matter of the text around it: of the
blocks, loops, routines and classes that enclose it and of what they declare before it. A `Position`
keeps just that, the enclosing constructs with the part of their text that comes before. A program
is listed as its *sites* (`sitesAll`): each declaration, each `return` and each use of a name, in the
order of the text, with its place.

On sites the rules for scopes are short. A use belongs to the innermost construct around it that
declares its name (`Position.Binds`), and there are five ways to be out of place (`Site.Violates`).
Nothing here keeps a table of names or an order of visits; that the walk over the scopes does what
these rules say is shown in `Proofs/Scope/Rules`.
-/

namespace LoxLang

/-! ## Places -/

/-- The name that a statement declares in the scope that it stands in. -/
def Stmt.declared? : Stmt → Option Token
  | .varDecl name _ | .classDecl name _ => some name
  | .funDecl r => some r.name
  | _ => none

/-- What a scope belongs to. The parameters and the body of a routine are one scope. -/
inductive Construct where
  | block
  | loop
  | function
  | method (name : Token)
  | classBody

/-- The scope is that of a function or a method. -/
def Construct.isRoutine : Construct → Bool
  | .function | .method _ => true
  | .block | .loop | .classBody => false

/-- A scope around a place, up to that place: the parameters and the statements of the scope that
stand before it, the latest first, and the statement of the scope that holds it. -/
structure Enclosing where
  construct : Construct
  parameters : List Token
  before : List Stmt
  here : Option Stmt

namespace Enclosing

/-- The name is declared in the scope before the statement that holds the place. -/
def DeclaresBefore (c : Enclosing) (name : String) : Prop :=
  (c.construct = .classBody ∧ name = thisName) ∨ (∃ t ∈ c.parameters, t.lexeme = name) ∨
    ∃ s ∈ c.before, ∃ t ∈ s.declared?, t.lexeme = name

/-- The name is declared in the scope, by what stands before the place or by the statement that
holds it. -/
def Declares (c : Enclosing) (name : String) : Prop :=
  c.DeclaresBefore name ∨ ∃ s ∈ c.here, ∃ t ∈ s.declared?, t.lexeme = name

end Enclosing

/-- A place in a program. -/
structure Position where
  /-- The scopes around the place, innermost first. The globals are not among them. -/
  scopes : List Enclosing
  /-- The variable whose initial value holds the place. -/
  initialOf? : Option Token

/-- The innermost scope around the place that declares the name has `d` scopes inside of it. -/
def Position.Binds (p : Position) (name : String) (d : Nat) : Prop :=
  ∃ inner c outer, p.scopes = inner ++ c :: outer ∧ inner.length = d ∧ c.Declares name ∧
    ∀ i ∈ inner, ¬ i.Declares name

/-! ## Sites -/

/-- What stands at a site. -/
inductive Item where
  /-- A variable, function, class or parameter is declared. -/
  | declaration (name : Token)
  | returning (keyword : Token) (value : Option Expr)
  | read (id : NodeId) (name : Token)
  | write (id : NodeId) (name : Token)
  | this (id : NodeId) (keyword : Token)

/-- The node id and the name of a use. -/
def Item.use? : Item → Option (NodeId × Token)
  | .read id name | .write id name | .this id name => some (id, name)
  | .declaration _ | .returning _ _ => none

/-- A place and what stands there. -/
structure Site where
  place : Position
  item : Item

namespace Expr

mutual

/-- The uses of names in an expression. An assignment comes behind its value. -/
def items : Expr → List Item
  | .constant _ => []
  | .grouping inner => inner.items
  | .unary _ operand => operand.items
  | .binary left _ right | .logical left _ right => left.items ++ right.items
  | .conditional condition onTrue onFalse => condition.items ++ (onTrue.items ++ onFalse.items)
  | .var id name => [.read id name]
  | .this id keyword => [.this id keyword]
  | .assign id name value => value.items ++ [.write id name]
  | .call callee _ arguments => callee.items ++ itemsAll arguments
  | .get object _ => object.items
  | .set object _ value => object.items ++ value.items

def itemsAll : List Expr → List Item
  | [] => []
  | e :: es => e.items ++ itemsAll es

end

/-- The uses of names in an expression that may be left out. -/
def itemsOption : Option Expr → List Item
  | none => []
  | some e => e.items

end Expr

/-- An expression has no scopes of its own: all that stands in it has one place. -/
def Position.sites (p : Position) (items : List Item) : List Site :=
  items.map fun item => ⟨p, item⟩

/-- The scopes around what stands in the statement `s`. -/
def holding (s : Stmt) : List Enclosing → List Enclosing
  | [] => []
  | c :: outer => { c with here := some s } :: outer

/-- The scopes around what stands behind the statement `s`. -/
def behind (s : Stmt) : List Enclosing → List Enclosing
  | [] => []
  | c :: outer => { c with before := s :: c.before, here := none } :: outer

/-- The sites of the parameters of a routine, behind those in `earlier`. -/
def parameterSites (construct : Construct) (scopes : List Enclosing) (earlier : List Token) :
    List Token → List Site
  | [] => []
  | t :: ts =>
    ⟨⟨⟨construct, earlier, [], none⟩ :: scopes, none⟩, .declaration t⟩ ::
      parameterSites construct scopes (t :: earlier) ts

mutual

/-- The sites of a statement inside of the scopes. -/
def Stmt.sites (scopes : List Enclosing) : Stmt → List Site
  | .exprStmt e | .printStmt e => Position.sites ⟨scopes, none⟩ e.items
  | .varDecl name initial =>
    ⟨⟨scopes, none⟩, .declaration name⟩ :: Position.sites ⟨scopes, some name⟩ (Expr.itemsOption initial)
  | .block body => Stmt.sitesAll (⟨.block, [], [], none⟩ :: scopes) body
  | .ifStmt condition onTrue onFalse =>
    Position.sites ⟨scopes, none⟩ condition.items ++
      (onTrue.sites scopes ++ Stmt.sitesOption scopes onFalse)
  | .whileStmt condition body => Position.sites ⟨scopes, none⟩ condition.items ++ body.sites scopes
  | .forStmt initial condition increment body =>
    Stmt.sitesOption (⟨.loop, [], [], initial⟩ :: scopes) initial ++
      (Position.sites ⟨⟨.loop, [], initial.toList, none⟩ :: scopes, none⟩
          (Expr.itemsOption condition) ++
        (Position.sites ⟨⟨.loop, [], initial.toList, none⟩ :: scopes, none⟩
            (Expr.itemsOption increment) ++
          body.sites (⟨.loop, [], initial.toList, none⟩ :: scopes)))
  | .returnStmt keyword value =>
    ⟨⟨scopes, none⟩, .returning keyword value⟩ :: Position.sites ⟨scopes, none⟩ (Expr.itemsOption value)
  | .funDecl r => ⟨⟨scopes, none⟩, .declaration r.name⟩ :: r.sites .function scopes
  | .classDecl name methods =>
    ⟨⟨scopes, none⟩, .declaration name⟩ ::
      Routine.methodSites (⟨.classBody, [], [], none⟩ :: scopes) methods

/-- The sites of the statements of a scope. -/
def Stmt.sitesAll (scopes : List Enclosing) : List Stmt → List Site
  | [] => []
  | s :: ss => s.sites (holding s scopes) ++ Stmt.sitesAll (behind s scopes) ss

def Stmt.sitesOption (scopes : List Enclosing) : Option Stmt → List Site
  | none => []
  | some s => s.sites scopes

/-- The sites of the parameters and the body of a routine. -/
def Routine.sites (construct : Construct) (scopes : List Enclosing) : Routine → List Site
  | ⟨_, parameters, body⟩ =>
    parameterSites construct scopes [] parameters ++
      Stmt.sitesAll (⟨construct, parameters.reverse, [], none⟩ :: scopes) body

def Routine.methodSites (scopes : List Enclosing) : List Routine → List Site
  | [] => []
  | r :: rs => r.sites (.method r.name) scopes ++ Routine.methodSites scopes rs

end

/-- The sites of a program. -/
def programSites (ss : List Stmt) : List Site :=
  Stmt.sitesAll [] ss

/-! ### The node ids of a program are those of its sites -/

/-- The node ids among items. -/
def Item.ids (items : List Item) : List NodeId :=
  items.filterMap fun item => item.use?.map Prod.fst

/-- The node ids among sites. -/
def Site.ids (sites : List Site) : List NodeId :=
  Item.ids (sites.map Site.item)

@[simp] theorem Item.ids_append (xs ys : List Item) :
    Item.ids (xs ++ ys) = Item.ids xs ++ Item.ids ys :=
  List.filterMap_append

@[simp] theorem Site.ids_append (xs ys : List Site) :
    Site.ids (xs ++ ys) = Site.ids xs ++ Site.ids ys := by
  simp [Site.ids]

/-- All items of an expression have one place, and keep their ids. -/
@[simp] theorem Site.ids_sites (p : Position) (items : List Item) :
    Site.ids (p.sites items) = Item.ids items := by
  simp [Site.ids, Position.sites, Function.comp_def]

mutual

/-- The uses in an expression have its node ids, in order. -/
theorem Expr.ids_items : ∀ e : Expr, Item.ids e.items = e.ids
  | .constant _ | .var _ _ | .this _ _ => rfl
  | .grouping inner | .unary _ inner | .get inner _ => inner.ids_items
  | .binary left _ right | .logical left _ right | .set left _ right => by
    simp [Expr.items, Expr.ids, left.ids_items, right.ids_items]
  | .conditional condition onTrue onFalse => by
    simp [Expr.items, Expr.ids, condition.ids_items, onTrue.ids_items, onFalse.ids_items]
  | .assign id name value => by
    simp only [Expr.items, Expr.ids, Item.ids_append, value.ids_items]
    rfl
  | .call callee _ arguments => by
    simp [Expr.items, Expr.ids, callee.ids_items, Expr.ids_itemsAll arguments]

theorem Expr.ids_itemsAll : ∀ es : List Expr, Item.ids (Expr.itemsAll es) = Expr.idsAll es
  | [] => rfl
  | e :: es => by simp [Expr.itemsAll, Expr.idsAll, e.ids_items, Expr.ids_itemsAll es]

end

theorem Expr.ids_itemsOption : ∀ o : Option Expr, Item.ids (Expr.itemsOption o) = Expr.idsOption o
  | none => rfl
  | some e => e.ids_items

/-- Parameters have no ids. -/
theorem ids_parameterSites (construct : Construct) (scopes : List Enclosing) :
    ∀ earlier ts, Site.ids (parameterSites construct scopes earlier ts) = []
  | _, [] => rfl
  | earlier, t :: ts => ids_parameterSites construct scopes (t :: earlier) ts

/-- A site that is no use of a name has no id. -/
theorem Site.ids_cons {place : Position} {item : Item} (h : item.use? = none) (sites : List Site) :
    Site.ids (⟨place, item⟩ :: sites) = Site.ids sites := by
  simp [Site.ids, Item.ids, h]

mutual

/-- **The sites of a statement have its node ids, in order**; the same holds of each sort of tree
below. -/
theorem Stmt.ids_sites : ∀ (s : Stmt) (scopes : List Enclosing), Site.ids (s.sites scopes) = s.ids
  | .exprStmt e, _ | .printStmt e, _ => by simp [Stmt.sites, Stmt.ids, e.ids_items]
  | .varDecl _ initial, _ =>
    (Site.ids_cons rfl _).trans ((Site.ids_sites _ _).trans (Expr.ids_itemsOption initial))
  | .block body, _ => Stmt.ids_sitesAll body _
  | .ifStmt condition onTrue onFalse, _ => by
    simp [Stmt.sites, Stmt.ids, condition.ids_items, onTrue.ids_sites,
      Stmt.ids_sitesOption onFalse]
  | .whileStmt condition body, _ => by
    simp [Stmt.sites, Stmt.ids, condition.ids_items, body.ids_sites]
  | .forStmt initial condition increment body, _ => by
    simp [Stmt.sites, Stmt.ids, Stmt.ids_sitesOption initial, Expr.ids_itemsOption, body.ids_sites]
  | .returnStmt _ value, _ =>
    (Site.ids_cons rfl _).trans ((Site.ids_sites _ _).trans (Expr.ids_itemsOption value))
  | .funDecl r, _ => (Site.ids_cons rfl _).trans (r.ids_sites _ _)
  | .classDecl _ methods, _ => (Site.ids_cons rfl _).trans (Routine.ids_methodSites methods _)

theorem Stmt.ids_sitesAll : ∀ (ss : List Stmt) (scopes : List Enclosing),
    Site.ids (Stmt.sitesAll scopes ss) = Stmt.idsAll ss
  | [], _ => rfl
  | s :: ss, _ => by simp [Stmt.sitesAll, Stmt.idsAll, s.ids_sites, Stmt.ids_sitesAll ss]

theorem Stmt.ids_sitesOption : ∀ (o : Option Stmt) (scopes : List Enclosing),
    Site.ids (Stmt.sitesOption scopes o) = Stmt.idsOption o
  | none, _ => rfl
  | some s, scopes => s.ids_sites scopes

theorem Routine.ids_sites : ∀ (r : Routine) (construct : Construct) (scopes : List Enclosing),
    Site.ids (r.sites construct scopes) = r.ids
  | ⟨_, _, body⟩, _, _ => by
    simp [Routine.sites, Routine.ids, ids_parameterSites, Stmt.ids_sitesAll body]

theorem Routine.ids_methodSites : ∀ (rs : List Routine) (scopes : List Enclosing),
    Site.ids (Routine.methodSites scopes rs) = Routine.idsAll rs
  | [], _ => rfl
  | r :: rs, scopes => by
    simp [Routine.methodSites, Routine.idsAll, r.ids_sites, Routine.ids_methodSites rs scopes]

end

/-- **Each use of a name in a program is at one of its sites.** -/
theorem ids_programSites (ss : List Stmt) : Site.ids (programSites ss) = Stmt.idsAll ss :=
  Stmt.ids_sitesAll ss []

theorem Site.mem_ids {sites : List Site} {id : NodeId} :
    id ∈ Site.ids sites ↔ ∃ site ∈ sites, ∃ name, site.item.use? = some (id, name) := by
  simp [Site.ids, Item.ids]

/-! ## The rules -/

/-- A site is out of place, and what is reported about it. -/
inductive Site.Violates : Site → Diagnostic → Prop
  /-- A `return` is not inside of a function or method. -/
  | returnAtTop {p : Position} {keyword : Token} {value : Option Expr}
      (h : ∀ c ∈ p.scopes, c.construct.isRoutine = false) :
      Violates ⟨p, .returning keyword value⟩ (.resolve keyword .returnAtTopLevel)
  /-- The innermost function or method around a `return` with a value is a method `init`. -/
  | returnFromInitializer {p : Position} {keyword name : Token} {value : Expr}
      {inner outer : List Enclosing} {c : Enclosing} (hscopes : p.scopes = inner ++ c :: outer)
      (hinner : ∀ i ∈ inner, i.construct.isRoutine = false) (hc : c.construct = .method name)
      (hname : name.lexeme = initializerName) :
      Violates ⟨p, .returning keyword (some value)⟩ (.resolve keyword .returnFromInitializer)
  /-- A `this` is not inside of a class body. -/
  | thisOutsideClass {p : Position} {id : NodeId} {keyword : Token}
      (h : ∀ c ∈ p.scopes, c.construct ≠ .classBody) :
      Violates ⟨p, .this id keyword⟩ (.resolve keyword .thisOutsideClass)
  /-- A name is declared for the second time in a scope. -/
  | alreadyDeclared {p : Position} {name : Token} {c : Enclosing} {outer : List Enclosing}
      (hscopes : p.scopes = c :: outer) (h : c.DeclaresBefore name.lexeme) :
      Violates ⟨p, .declaration name⟩ (.resolve name .alreadyDeclared)
  /-- A local variable is read in its own initial value. -/
  | ownInitializer {p : Position} {id : NodeId} {name x : Token} (hlocal : p.scopes ≠ [])
      (hx : p.initialOf? = some x) (hname : x.lexeme = name.lexeme) :
      Violates ⟨p, .read id name⟩ (.resolve name .ownInitializer)

end LoxLang
