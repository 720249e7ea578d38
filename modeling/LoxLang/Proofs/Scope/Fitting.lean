import Mathlib
import LoxLang.Proofs.Grammar.Numbering
import LoxLang.Scope.Resolve

/-!
# Proofs/Scope/Fitting — what recorded distances have to be

The scopes around a place are lists of names, innermost first (`Scopes`). A tree *fits* its place if
every use of a name in it is recorded with the distance of that name (`Expr.Fits`, `Stmt.Fits`) and
no scope declares a name twice. Fitting is what a running program needs to know about the distances;
that the walk over the scopes brings it about is shown in `Proofs/Scope/Walk`.

The initial value of a local variable stands in a scope that has the variable already and cannot
read it. A value that assigns the variable finds it there all the same: it is not *tidy*.
-/

namespace LoxLang

/-- The names of the scopes around a place, innermost first. The globals are not among them. -/
abbrev Scopes := List (List String)

namespace Scopes

/-- The number of scopes inside the innermost one that has the name. -/
def distance? (Γ : Scopes) (name : String) : Option Nat :=
  Γ.findIdx? (name ∈ ·)

/-- The scopes with one more name in the innermost. -/
def declare (Γ : Scopes) (name : String) : Scopes :=
  match Γ with
  | [] => []
  | scope :: Γ => (name :: scope) :: Γ

/-- What the initial value of a variable finds declared but not defined: the variable, unless it is
global. -/
def pending (Γ : Scopes) (name : String) : Option String :=
  match Γ with
  | [] => none
  | _ :: _ => some name

/-- The innermost scope does not have the name yet. -/
def Lacks (Γ : Scopes) (name : String) : Prop :=
  ∀ scope ∈ Γ.head?, name ∉ scope

/-- The distance of a name where a variable is pending. -/
def seen (Γ : Scopes) (own : Option String) (name : String) : Option Nat :=
  if own = some name then some 0 else Γ.distance? name

theorem seen_of_ne {Γ : Scopes} {own : Option String} {name : String} (h : own ≠ some name) :
    Γ.seen own name = Γ.distance? name :=
  if_neg h

theorem distance?_cons_of_mem {scope : List String} {name : String} (h : name ∈ scope)
    (Γ : Scopes) : distance? (scope :: Γ) name = some 0 := by
  simp [distance?, List.findIdx?_cons, h]

theorem distance?_cons_of_not_mem {scope : List String} {name : String} (h : name ∉ scope)
    (Γ : Scopes) : distance? (scope :: Γ) name = (distance? Γ name).map (· + 1) := by
  simp [distance?, List.findIdx?_cons, h]

end Scopes

/-! ## Scopes behind a statement -/

/-- The scopes behind a statement. -/
def Stmt.after (Γ : Scopes) : Stmt → Scopes
  | .varDecl name _ | .classDecl name _ => Γ.declare name.lexeme
  | .funDecl r => Γ.declare r.name.lexeme
  | _ => Γ

/-- The scopes behind a statement that may be left out. -/
def Stmt.afterOption (Γ : Scopes) : Option Stmt → Scopes
  | none => Γ
  | some s => s.after Γ

theorem Stmt.after_nil (s : Stmt) : s.after [] = [] := by
  cases s <;> rfl

/-- The scopes behind a list of statements. -/
def Stmt.afterAll : Scopes → List Stmt → Scopes
  | Γ, [] => Γ
  | Γ, s :: ss => Stmt.afterAll (s.after Γ) ss

theorem Stmt.tail_after (Γ : Scopes) (s : Stmt) : (s.after Γ).tail = Γ.tail := by
  cases s <;> cases Γ <;> rfl

theorem Stmt.tail_afterOption : ∀ (o : Option Stmt) (Γ : Scopes),
    (Stmt.afterOption Γ o).tail = Γ.tail
  | none, _ => rfl
  | some s, Γ => s.tail_after Γ

theorem Stmt.tail_afterAll : ∀ (ss : List Stmt) (Γ : Scopes), (Stmt.afterAll Γ ss).tail = Γ.tail
  | [], _ => rfl
  | s :: ss, Γ => (Stmt.tail_afterAll ss _).trans (s.tail_after Γ)

/-- A statement that declares nothing leaves the scopes as they are. -/
theorem Stmt.after_eq {Γ : Scopes} : ∀ {s : Stmt}, s.isDeclaration = false → s.after Γ = Γ
  | .exprStmt _, _ | .printStmt _, _ | .block _, _ | .ifStmt _ _ _, _ | .whileStmt _ _, _
  | .forStmt _ _ _ _, _ | .returnStmt _ _, _ => rfl

/-- What is not a declaration leaves the scopes alone. -/
theorem Stmt.afterOption_eq {Γ : Scopes} : ∀ {o : Option Stmt},
    (∀ s ∈ o, s.isDeclaration = false) → Stmt.afterOption Γ o = Γ
  | none, _ => rfl
  | some s, h => Stmt.after_eq (s := s) (h s rfl)

/-! ## Fitting -/

/-- What is asked of a use of a name with an id and a distance. -/
abbrev Recorded := NodeId → Option Nat → Prop

namespace Expr

variable (known : Recorded) (tidy : Bool) (Γ : Scopes) (own : Option String)

mutual

/-- The uses of names in the expression are recorded with their distances in the scopes `Γ`, where
the variable `own` is pending. -/
def Fits : Expr → Prop
  | .constant _ => True
  | .grouping inner => inner.Fits
  | .unary _ operand => operand.Fits
  | .binary left _ right | .logical left _ right => left.Fits ∧ right.Fits
  | .conditional condition onTrue onFalse => condition.Fits ∧ onTrue.Fits ∧ onFalse.Fits
  | .var id name | .this id name => own ≠ some name.lexeme ∧ known id (Γ.seen own name.lexeme)
  | .assign id name value =>
    value.Fits ∧ (own = some name.lexeme → tidy = false) ∧ known id (Γ.seen own name.lexeme)
  | .call callee _ arguments => callee.Fits ∧ AllFits arguments
  | .get object _ => object.Fits
  | .set object _ value => object.Fits ∧ value.Fits

def AllFits : List Expr → Prop
  | [] => True
  | e :: es => e.Fits ∧ AllFits es

end

/-- An expression that may be left out fits. -/
def OptionFits : Option Expr → Prop
  | none => True
  | some e => e.Fits known tidy Γ own

end Expr

section

variable (known : Recorded) (tidy : Bool)

mutual

/-- The uses of names in the statement are recorded with their distances, from the scopes `Γ` on. -/
def Stmt.Fits : Stmt → (Γ : Scopes) → Prop
  | .exprStmt e, Γ | .printStmt e, Γ => e.Fits known tidy Γ none
  | .varDecl name initial, Γ =>
    Γ.Lacks name.lexeme ∧ Expr.OptionFits known tidy Γ (Γ.pending name.lexeme) initial
  | .block body, Γ => Stmt.AllFits body ([] :: Γ)
  | .ifStmt condition onTrue onFalse, Γ =>
    condition.Fits known tidy Γ none ∧ (onTrue.isDeclaration = false ∧ onTrue.Fits Γ) ∧
      (∀ s ∈ onFalse, s.isDeclaration = false) ∧ Stmt.OptionFits onFalse Γ
  | .whileStmt condition body, Γ =>
    condition.Fits known tidy Γ none ∧ body.isDeclaration = false ∧ body.Fits Γ
  | .forStmt initial condition increment body, Γ =>
    ((∀ s ∈ initial, s.isClause = true) ∧ Stmt.OptionFits initial ([] :: Γ)) ∧
      Expr.OptionFits known tidy (Stmt.afterOption ([] :: Γ) initial) none condition ∧
      Expr.OptionFits known tidy (Stmt.afterOption ([] :: Γ) initial) none increment ∧
      body.isDeclaration = false ∧ body.Fits (Stmt.afterOption ([] :: Γ) initial)
  | .returnStmt _ value, Γ => Expr.OptionFits known tidy Γ none value
  | .funDecl r, Γ => Γ.Lacks r.name.lexeme ∧ r.Fits (Γ.declare r.name.lexeme)
  | .classDecl name methods, Γ =>
    Γ.Lacks name.lexeme ∧ Routine.AllFits methods ([thisName] :: Γ.declare name.lexeme)

/-- Each statement fits the scopes behind the one before it. -/
def Stmt.AllFits : List Stmt → (Γ : Scopes) → Prop
  | [], _ => True
  | s :: ss, Γ => s.Fits Γ ∧ Stmt.AllFits ss (s.after Γ)

def Stmt.OptionFits : Option Stmt → (Γ : Scopes) → Prop
  | none, _ => True
  | some s, Γ => s.Fits Γ

/-- The body of the routine fits a scope with the parameters, inside of `Γ`. -/
def Routine.Fits : Routine → (Γ : Scopes) → Prop
  | ⟨_, parameters, body⟩, Γ =>
    (parameters.map Token.lexeme).Nodup ∧ Stmt.AllFits body (parameters.map Token.lexeme :: Γ)

def Routine.AllFits : List Routine → (Γ : Scopes) → Prop
  | [], _ => True
  | r :: rs, Γ => r.Fits Γ ∧ Routine.AllFits rs Γ

end

end

/-- A routine fits if its parameters are distinct and its body fits a scope with them. -/
theorem Routine.fits_iff {known : Recorded} {tidy : Bool} {Γ : Scopes} {r : Routine} :
    r.Fits known tidy Γ ↔ (r.parameters.map Token.lexeme).Nodup ∧
      Stmt.AllFits known tidy r.body (r.parameters.map Token.lexeme :: Γ) := by
  cases r
  exact Iff.rfl

/-- A method of a class that fits, fits. -/
theorem Routine.AllFits.of_mem {known : Recorded} {tidy : Bool} {Γ : Scopes} {r : Routine} :
    ∀ {rs : List Routine}, Routine.AllFits known tidy rs Γ → r ∈ rs → r.Fits known tidy Γ
  | _ :: _, h, .head _ => h.1
  | _ :: _, h, .tail _ hr => Routine.AllFits.of_mem h.2 hr

/-! ### Fitting and more being recorded -/

section

variable {known known' : Recorded} {tidy : Bool}

mutual

/-- What fits goes on to fit when more is recorded; the same holds of each sort of tree below. -/
theorem Expr.Fits.mono (h : ∀ id d, known id d → known' id d) {Γ : Scopes}
    {own : Option String} : ∀ {e : Expr}, e.Fits known tidy Γ own → e.Fits known' tidy Γ own
  | .constant _, _ => trivial
  | .grouping inner, he | .unary _ inner, he | .get inner _, he => Expr.Fits.mono h (e := inner) he
  | .binary _ _ _, he | .logical _ _ _, he | .set _ _ _, he =>
    ⟨Expr.Fits.mono h he.1, Expr.Fits.mono h he.2⟩
  | .conditional _ _ _, he =>
    ⟨Expr.Fits.mono h he.1, Expr.Fits.mono h he.2.1, Expr.Fits.mono h he.2.2⟩
  | .var _ _, he | .this _ _, he => ⟨he.1, h _ _ he.2⟩
  | .assign _ _ _, he => ⟨Expr.Fits.mono h he.1, he.2.1, h _ _ he.2.2⟩
  | .call _ _ _, he => ⟨Expr.Fits.mono h he.1, Expr.AllFits.mono h he.2⟩

theorem Expr.AllFits.mono (h : ∀ id d, known id d → known' id d) {Γ : Scopes}
    {own : Option String} : ∀ {es : List Expr},
    Expr.AllFits known tidy Γ own es → Expr.AllFits known' tidy Γ own es
  | [], _ => trivial
  | _ :: _, he => ⟨Expr.Fits.mono h he.1, Expr.AllFits.mono h he.2⟩

end

theorem Expr.OptionFits.mono (h : ∀ id d, known id d → known' id d) {Γ : Scopes}
    {own : Option String} : ∀ {o : Option Expr},
    Expr.OptionFits known tidy Γ own o → Expr.OptionFits known' tidy Γ own o
  | none, _ => trivial
  | some _, he => Expr.Fits.mono h he

mutual

/-- A statement goes on to fit when more is recorded. -/
theorem Stmt.Fits.mono (h : ∀ id d, known id d → known' id d) :
    ∀ {s : Stmt} {Γ : Scopes}, s.Fits known tidy Γ → s.Fits known' tidy Γ
  | .exprStmt _, _, hs | .printStmt _, _, hs => Expr.Fits.mono h hs
  | .varDecl _ _, _, hs => ⟨hs.1, Expr.OptionFits.mono h hs.2⟩
  | .block body, Γ, hs => Stmt.AllFits.mono h (show Stmt.AllFits known tidy body ([] :: Γ) from hs)
  | .ifStmt _ _ _, _, hs =>
    ⟨Expr.Fits.mono h hs.1, ⟨hs.2.1.1, Stmt.Fits.mono h hs.2.1.2⟩, hs.2.2.1,
      Stmt.OptionFits.mono h hs.2.2.2⟩
  | .whileStmt _ _, _, hs => ⟨Expr.Fits.mono h hs.1, hs.2.1, Stmt.Fits.mono h hs.2.2⟩
  | .forStmt _ _ _ _, _, hs =>
    ⟨⟨hs.1.1, Stmt.OptionFits.mono h hs.1.2⟩, Expr.OptionFits.mono h hs.2.1,
      Expr.OptionFits.mono h hs.2.2.1, hs.2.2.2.1, Stmt.Fits.mono h hs.2.2.2.2⟩
  | .returnStmt _ _, _, hs => Expr.OptionFits.mono h hs
  | .funDecl _, _, hs => ⟨hs.1, Routine.Fits.mono h hs.2⟩
  | .classDecl _ _, _, hs => ⟨hs.1, Routine.AllFits.mono h hs.2⟩

theorem Stmt.AllFits.mono (h : ∀ id d, known id d → known' id d) :
    ∀ {ss : List Stmt} {Γ : Scopes},
    Stmt.AllFits known tidy ss Γ → Stmt.AllFits known' tidy ss Γ
  | [], _, _ => trivial
  | _ :: _, _, hs => ⟨Stmt.Fits.mono h hs.1, Stmt.AllFits.mono h hs.2⟩

theorem Stmt.OptionFits.mono (h : ∀ id d, known id d → known' id d) :
    ∀ {o : Option Stmt} {Γ : Scopes},
    Stmt.OptionFits known tidy o Γ → Stmt.OptionFits known' tidy o Γ
  | none, _, _ => trivial
  | some s, _, hs => Stmt.Fits.mono h (s := s) hs

theorem Routine.Fits.mono (h : ∀ id d, known id d → known' id d) :
    ∀ {r : Routine} {Γ : Scopes}, r.Fits known tidy Γ → r.Fits known' tidy Γ
  | ⟨_, _, _⟩, _, hr => ⟨hr.1, Stmt.AllFits.mono h hr.2⟩

theorem Routine.AllFits.mono (h : ∀ id d, known id d → known' id d) :
    ∀ {rs : List Routine} {Γ : Scopes},
    Routine.AllFits known tidy rs Γ → Routine.AllFits known' tidy rs Γ
  | [], _, _ => trivial
  | _ :: _, _, hr => ⟨Routine.Fits.mono h hr.1, Routine.AllFits.mono h hr.2⟩

end

end

/-! ### Expressions without scopes -/

mutual

/-- Where no name is local, an expression fits if nothing else is recorded. -/
theorem Expr.fits_nil {known : Recorded} {tidy : Bool} : ∀ {e : Expr},
    (∀ id ∈ e.ids, known id none) → e.Fits known tidy [] none
  | .constant _, _ => trivial
  | .grouping inner, h | .unary _ inner, h | .get inner _, h => Expr.fits_nil (e := inner) h
  | .binary _ _ _, h | .logical _ _ _, h | .set _ _ _, h =>
    ⟨Expr.fits_nil fun id hid => h id (List.mem_append_left _ hid),
      Expr.fits_nil fun id hid => h id (List.mem_append_right _ hid)⟩
  | .conditional _ _ _, h =>
    ⟨Expr.fits_nil fun id hid => h id (List.mem_append_left _ hid),
      Expr.fits_nil fun id hid => h id (List.mem_append_right _ (List.mem_append_left _ hid)),
      Expr.fits_nil fun id hid => h id (List.mem_append_right _ (List.mem_append_right _ hid))⟩
  | .var id _, h | .this id _, h => ⟨nofun, h id (.head _)⟩
  | .assign id _ _, h =>
    ⟨Expr.fits_nil fun i hi => h i (List.mem_append_left _ hi), nofun,
      h id (List.mem_append_right _ (.head _))⟩
  | .call _ _ _, h =>
    ⟨Expr.fits_nil fun id hid => h id (List.mem_append_left _ hid),
      Expr.allFits_nil fun id hid => h id (List.mem_append_right _ hid)⟩

theorem Expr.allFits_nil {known : Recorded} {tidy : Bool} : ∀ {es : List Expr},
    (∀ id ∈ Expr.idsAll es, known id none) → Expr.AllFits known tidy [] none es
  | [], _ => trivial
  | _ :: _, h =>
    ⟨Expr.fits_nil fun id hid => h id (List.mem_append_left _ hid),
      Expr.allFits_nil fun id hid => h id (List.mem_append_right _ hid)⟩

end

/-! ## Tidy programs -/

namespace Expr

variable (name : String)

mutual

/-- The expression assigns the variable somewhere. -/
def assigns : Expr → Bool
  | .constant _ | .var _ _ | .this _ _ => false
  | .grouping inner => inner.assigns
  | .unary _ operand => operand.assigns
  | .binary left _ right | .logical left _ right => left.assigns || right.assigns
  | .conditional condition onTrue onFalse =>
    condition.assigns || onTrue.assigns || onFalse.assigns
  | .assign _ target value => target.lexeme = name || value.assigns
  | .call callee _ arguments => callee.assigns || anyAssigns arguments
  | .get object _ => object.assigns
  | .set object _ value => object.assigns || value.assigns

def anyAssigns : List Expr → Bool
  | [] => false
  | e :: es => e.assigns || anyAssigns es

end

end Expr

mutual

/-- No local variable is assigned in its own initial value; `inner` says whether the statement
stands in a scope. -/
def Stmt.isTidy (inner : Bool) : Stmt → Bool
  | .exprStmt _ | .printStmt _ | .returnStmt _ _ => true
  | .varDecl name initial => !inner || initial.all fun e => !e.assigns name.lexeme
  | .block body => Stmt.allTidy true body
  | .ifStmt _ onTrue onFalse => onTrue.isTidy inner && Stmt.optionTidy inner onFalse
  | .whileStmt _ body => body.isTidy inner
  | .forStmt initial _ _ body => Stmt.optionTidy true initial && body.isTidy true
  | .funDecl r => r.isTidy
  | .classDecl _ methods => Routine.allTidy methods

def Stmt.allTidy (inner : Bool) : List Stmt → Bool
  | [] => true
  | s :: ss => s.isTidy inner && Stmt.allTidy inner ss

def Stmt.optionTidy (inner : Bool) : Option Stmt → Bool
  | none => true
  | some s => s.isTidy inner

def Routine.isTidy : Routine → Bool
  | ⟨_, _, body⟩ => Stmt.allTidy true body

def Routine.allTidy : List Routine → Bool
  | [] => true
  | r :: rs => r.isTidy && Routine.allTidy rs

end

section

variable {known : Recorded}

mutual

/-- An expression that does not assign the pending variable fits tidily. -/
theorem Expr.Fits.tidy {Γ : Scopes} {own : Option String} : ∀ {e : Expr},
    e.Fits known false Γ own → (∀ x ∈ own, e.assigns x = false) → e.Fits known true Γ own
  | .constant _, _, _ => trivial
  | .grouping inner, he, hx | .unary _ inner, he, hx | .get inner _, he, hx =>
    Expr.Fits.tidy (e := inner) he hx
  | .binary _ _ _, he, hx | .logical _ _ _, he, hx | .set _ _ _, he, hx => by
    simp only [Expr.assigns, Bool.or_eq_false_iff] at hx
    exact ⟨Expr.Fits.tidy he.1 fun x h => (hx x h).1, Expr.Fits.tidy he.2 fun x h => (hx x h).2⟩
  | .conditional _ _ _, he, hx => by
    simp only [Expr.assigns, Bool.or_eq_false_iff] at hx
    exact ⟨Expr.Fits.tidy he.1 fun x h => (hx x h).1.1,
      Expr.Fits.tidy he.2.1 fun x h => (hx x h).1.2, Expr.Fits.tidy he.2.2 fun x h => (hx x h).2⟩
  | .var _ _, he, _ | .this _ _, he, _ => he
  | .assign _ _ _, he, hx => by
    simp only [Expr.assigns, Bool.or_eq_false_iff, decide_eq_false_iff_not] at hx
    exact ⟨Expr.Fits.tidy he.1 fun x h => (hx x h).2, fun hown => absurd rfl (hx _ hown).1,
      he.2.2⟩
  | .call _ _ _, he, hx => by
    simp only [Expr.assigns, Bool.or_eq_false_iff] at hx
    exact ⟨Expr.Fits.tidy he.1 fun x h => (hx x h).1, Expr.AllFits.tidy he.2 fun x h => (hx x h).2⟩

theorem Expr.AllFits.tidy {Γ : Scopes} {own : Option String} : ∀ {es : List Expr},
    Expr.AllFits known false Γ own es → (∀ x ∈ own, Expr.anyAssigns x es = false) →
    Expr.AllFits known true Γ own es
  | [], _, _ => trivial
  | _ :: _, he, hx => by
    simp only [Expr.anyAssigns, Bool.or_eq_false_iff] at hx
    exact ⟨Expr.Fits.tidy he.1 fun x h => (hx x h).1, Expr.AllFits.tidy he.2 fun x h => (hx x h).2⟩

end

/-- Where nothing is pending, everything is tidy. -/
theorem Expr.OptionFits.tidy {Γ : Scopes} {own : Option String} : ∀ {o : Option Expr},
    Expr.OptionFits known false Γ own o → (∀ x ∈ own, ∀ e ∈ o, e.assigns x = false) →
    Expr.OptionFits known true Γ own o
  | none, _, _ => trivial
  | some e, he, hx => Expr.Fits.tidy (e := e) he fun x h => hx x h e rfl

/-- A name is pending only in an inner scope, and only as itself. -/
theorem Scopes.mem_pending {Γ : Scopes} {name x : String} (h : x ∈ Γ.pending name) :
    x = name ∧ Γ.isEmpty = false := by
  cases Γ with
  | nil => cases h
  | cons scope Γ =>
    cases h
    exact ⟨rfl, rfl⟩

@[simp] theorem Scopes.isEmpty_declare (Γ : Scopes) (name : String) :
    (Γ.declare name).isEmpty = Γ.isEmpty := by
  cases Γ <;> rfl

theorem Stmt.isEmpty_after (Γ : Scopes) (s : Stmt) : (s.after Γ).isEmpty = Γ.isEmpty := by
  cases s <;> simp [Stmt.after]

theorem Stmt.isEmpty_afterOption (Γ : Scopes) : ∀ o : Option Stmt,
    (Stmt.afterOption Γ o).isEmpty = Γ.isEmpty
  | none => rfl
  | some s => s.isEmpty_after Γ

mutual

/-- **Tidy statements that fit fit tidily.** -/
theorem Stmt.Fits.tidy : ∀ {s : Stmt} {Γ : Scopes}, s.Fits known false Γ →
    s.isTidy (!Γ.isEmpty) = true → s.Fits known true Γ
  | .exprStmt _, _, hs, _ | .printStmt _, _, hs, _ => Expr.Fits.tidy hs nofun
  | .varDecl name _, Γ, hs, ht => by
    refine ⟨hs.1, Expr.OptionFits.tidy hs.2 fun x hx e he => ?_⟩
    obtain ⟨rfl, hinner⟩ := Scopes.mem_pending hx
    simpa [hinner, Stmt.isTidy, Option.mem_def.mp he] using ht
  | .block body, Γ, hs, ht => Stmt.AllFits.tidy (show Stmt.AllFits known false body ([] :: Γ) from hs) ht
  | .ifStmt _ _ _, _, hs, ht =>
    have ht := Bool.and_eq_true_iff.mp ht
    ⟨Expr.Fits.tidy hs.1 nofun, ⟨hs.2.1.1, Stmt.Fits.tidy hs.2.1.2 ht.1⟩, hs.2.2.1,
      Stmt.OptionFits.tidy hs.2.2.2 ht.2⟩
  | .whileStmt _ _, _, hs, ht => ⟨Expr.Fits.tidy hs.1 nofun, hs.2.1, Stmt.Fits.tidy hs.2.2 ht⟩
  | .forStmt initial _ _ _, Γ, hs, ht => by
    have ht := Bool.and_eq_true_iff.mp ht
    refine ⟨⟨hs.1.1, Stmt.OptionFits.tidy hs.1.2 ht.1⟩, Expr.OptionFits.tidy hs.2.1 nofun,
      Expr.OptionFits.tidy hs.2.2.1 nofun, hs.2.2.2.1, Stmt.Fits.tidy hs.2.2.2.2 ?_⟩
    rw [Stmt.isEmpty_afterOption]
    exact ht.2
  | .returnStmt _ _, _, hs, _ => Expr.OptionFits.tidy hs nofun
  | .funDecl _, _, hs, ht => ⟨hs.1, Routine.Fits.tidy hs.2 ht⟩
  | .classDecl _ _, _, hs, ht => ⟨hs.1, Routine.AllFits.tidy hs.2 ht⟩

/-- Statements that fit and are tidy fit in the strict sense, one after the other. -/
theorem Stmt.AllFits.tidy : ∀ {ss : List Stmt} {Γ : Scopes}, Stmt.AllFits known false ss Γ →
    Stmt.allTidy (!Γ.isEmpty) ss = true → Stmt.AllFits known true ss Γ
  | [], _, _, _ => trivial
  | s :: _, Γ, hs, ht =>
    have ht := Bool.and_eq_true_iff.mp ht
    ⟨Stmt.Fits.tidy hs.1 ht.1, Stmt.AllFits.tidy hs.2 (by rw [s.isEmpty_after Γ]; exact ht.2)⟩

theorem Stmt.OptionFits.tidy : ∀ {o : Option Stmt} {Γ : Scopes},
    Stmt.OptionFits known false o Γ → Stmt.optionTidy (!Γ.isEmpty) o = true →
    Stmt.OptionFits known true o Γ
  | none, _, _, _ => trivial
  | some s, _, hs, ht => Stmt.Fits.tidy (s := s) hs ht

theorem Routine.Fits.tidy : ∀ {r : Routine} {Γ : Scopes}, r.Fits known false Γ → r.isTidy = true →
    r.Fits known true Γ
  | ⟨_, _, _⟩, _, hr, ht => ⟨hr.1, Stmt.AllFits.tidy hr.2 ht⟩

theorem Routine.AllFits.tidy : ∀ {rs : List Routine} {Γ : Scopes},
    Routine.AllFits known false rs Γ → Routine.allTidy rs = true → Routine.AllFits known true rs Γ
  | [], _, _, _ => trivial
  | _ :: _, _, hr, ht =>
    have ht := Bool.and_eq_true_iff.mp ht
    ⟨Routine.Fits.tidy hr.1 ht.1, Routine.AllFits.tidy hr.2 ht.2⟩

end

end

end LoxLang
