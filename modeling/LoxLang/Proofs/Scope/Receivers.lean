import Mathlib
import LoxLang.Proofs.Grammar.Names
import LoxLang.Proofs.Scope.Walk

/-!
# Proofs/Scope/Receivers — what each `this` stands for

The `this` of a method is declared in a scope of its own, around the parameters; inside of the
method each block and each function adds a scope to the distance, and a class starts anew for its own
methods. A tree *receives* at a distance if every `this` in it that belongs to the method around it is
recorded with that distance, and nothing in it declares or assigns `this` (`Stmt.Receives`). Trees
that fit and in which nothing is called `this` receive at the distance of `this` in their scopes
(`Stmt.Fits.receives`).
-/

namespace LoxLang

/-! ## The `this` of a method -/

mutual

/-- The node ids of each `this` in a statement that no class in the statement is around. -/
def Stmt.ownThisIds : Stmt → List NodeId
  | .exprStmt e | .printStmt e => e.thisIds
  | .varDecl _ initial => Expr.thisIdsOption initial
  | .block body => Stmt.ownThisIdsAll body
  | .ifStmt condition onTrue onFalse =>
    condition.thisIds ++ (onTrue.ownThisIds ++ Stmt.ownThisIdsOption onFalse)
  | .whileStmt condition body => condition.thisIds ++ body.ownThisIds
  | .forStmt initial condition increment body =>
    Stmt.ownThisIdsOption initial ++
      (Expr.thisIdsOption condition ++ (Expr.thisIdsOption increment ++ body.ownThisIds))
  | .returnStmt _ value => Expr.thisIdsOption value
  | .funDecl routine => routine.ownThisIds
  | .classDecl _ _ => []

def Stmt.ownThisIdsAll : List Stmt → List NodeId
  | [] => []
  | s :: ss => s.ownThisIds ++ Stmt.ownThisIdsAll ss

def Stmt.ownThisIdsOption : Option Stmt → List NodeId
  | none => []
  | some s => s.ownThisIds

/-- The node ids of each `this` that means the instance which the routine is called on. -/
def Routine.ownThisIds : Routine → List NodeId
  | ⟨_, _, body⟩ => Stmt.ownThisIdsAll body

end

/-! ## Receiving -/

namespace Expr

variable (known : Recorded) (d : Option Nat) (own : List NodeId)

mutual

/-- Every `this` in the expression is recorded with the distance, and is one of `own` unless it is
global; no local variable that is assigned is called `this`. -/
def Receives : Expr → Prop
  | .constant _ | .var _ _ => True
  | .this id keyword => known id d ∧ (d ≠ none → keyword.lexeme = thisName ∧ id ∈ own)
  | .grouping inner => inner.Receives
  | .unary _ operand => operand.Receives
  | .binary left _ right | .logical left _ right => left.Receives ∧ right.Receives
  | .conditional condition onTrue onFalse =>
    condition.Receives ∧ onTrue.Receives ∧ onFalse.Receives
  | .assign id name value => value.Receives ∧ (name.lexeme ≠ thisName ∨ known id none)
  | .call callee _ arguments => callee.Receives ∧ AllReceive arguments
  | .get object _ => object.Receives
  | .set object _ value => object.Receives ∧ value.Receives

def AllReceive : List Expr → Prop
  | [] => True
  | e :: es => e.Receives ∧ AllReceive es

end

def OptionReceives : Option Expr → Prop
  | none => True
  | some e => e.Receives known d own

end Expr

section

variable (known : Recorded)

mutual

/-- Every `this` in the statement is recorded with its distance, where `d` is the distance at the
place of the statement. Nothing that the statement declares is called `this`. -/
def Stmt.Receives : Stmt → (d : Option Nat) → (own : List NodeId) → Prop
  | .exprStmt e, d, own | .printStmt e, d, own => e.Receives known d own
  | .varDecl name initial, d, own =>
    name.lexeme ≠ thisName ∧ Expr.OptionReceives known d own initial
  | .block body, d, own => Stmt.AllReceive body (d.map (· + 1)) own
  | .ifStmt condition onTrue onFalse, d, own =>
    condition.Receives known d own ∧ onTrue.Receives d own ∧ Stmt.OptionReceives onFalse d own
  | .whileStmt condition body, d, own => condition.Receives known d own ∧ body.Receives d own
  | .forStmt initial condition increment body, d, own =>
    Stmt.OptionReceives initial (d.map (· + 1)) own ∧
      Expr.OptionReceives known (d.map (· + 1)) own condition ∧
      Expr.OptionReceives known (d.map (· + 1)) own increment ∧ body.Receives (d.map (· + 1)) own
  | .returnStmt _ value, d, own => Expr.OptionReceives known d own value
  | .funDecl r, d, own => r.name.lexeme ≠ thisName ∧ r.Receives d own
  | .classDecl name methods, _, _ => name.lexeme ≠ thisName ∧ Routine.MethodsReceive methods

def Stmt.AllReceive : List Stmt → (d : Option Nat) → (own : List NodeId) → Prop
  | [], _, _ => True
  | s :: ss, d, own => s.Receives d own ∧ Stmt.AllReceive ss d own

def Stmt.OptionReceives : Option Stmt → (d : Option Nat) → (own : List NodeId) → Prop
  | none, _, _ => True
  | some s, d, own => s.Receives d own

/-- The body of the routine receives one scope further in. -/
def Routine.Receives : Routine → (d : Option Nat) → (own : List NodeId) → Prop
  | ⟨_, _, body⟩, d, own => Stmt.AllReceive body (d.map (· + 1)) own

/-- Each method receives what it is called on. -/
def Routine.MethodsReceive : List Routine → Prop
  | [] => True
  | r :: rs => r.Receives (some 0) r.ownThisIds ∧ Routine.MethodsReceive rs

end

end

/-- A routine adds a scope to the distance. -/
theorem Routine.receives_iff {known : Recorded} {d : Option Nat} {own : List NodeId} {r : Routine} :
    r.Receives known d own ↔ Stmt.AllReceive known r.body (d.map (· + 1)) own := by
  cases r
  exact Iff.rfl

/-- A method is received at the scope around its parameters. -/
theorem Routine.MethodsReceive.of_mem {known : Recorded} {r : Routine} :
    ∀ {rs : List Routine}, Routine.MethodsReceive known rs → r ∈ rs →
      r.Receives known (some 0) r.ownThisIds
  | _ :: _, h, .head _ => h.1
  | _ :: _, h, .tail _ hr => Routine.MethodsReceive.of_mem h.2 hr

theorem Stmt.AllReceive.of_mem {known : Recorded} {d : Option Nat} {own : List NodeId} {s : Stmt} :
    ∀ {ss : List Stmt}, Stmt.AllReceive known ss d own → s ∈ ss → s.Receives known d own
  | _ :: _, h, .head _ => h.1
  | _ :: _, h, .tail _ hs => Stmt.AllReceive.of_mem h.2 hs

/-! ### Receiving and more being recorded -/

section

variable {known known' : Recorded}

mutual

/-- More may be recorded; the same holds of each sort of tree below. -/
theorem Expr.Receives.mono (h : ∀ id d, known id d → known' id d) {d : Option Nat}
    {own : List NodeId} : ∀ {e : Expr}, e.Receives known d own → e.Receives known' d own
  | .constant _, _ | .var _ _, _ => trivial
  | .this _ _, he => ⟨h _ _ he.1, he.2⟩
  | .grouping inner, he | .unary _ inner, he | .get inner _, he =>
    Expr.Receives.mono h (e := inner) he
  | .binary _ _ _, he | .logical _ _ _, he | .set _ _ _, he =>
    ⟨Expr.Receives.mono h he.1, Expr.Receives.mono h he.2⟩
  | .conditional _ _ _, he =>
    ⟨Expr.Receives.mono h he.1, Expr.Receives.mono h he.2.1, Expr.Receives.mono h he.2.2⟩
  | .assign _ _ _, he => ⟨Expr.Receives.mono h he.1, he.2.imp_right (h _ _)⟩
  | .call _ _ _, he => ⟨Expr.Receives.mono h he.1, Expr.AllReceive.mono h he.2⟩

theorem Expr.AllReceive.mono (h : ∀ id d, known id d → known' id d) {d : Option Nat}
    {own : List NodeId} : ∀ {es : List Expr},
    Expr.AllReceive known d own es → Expr.AllReceive known' d own es
  | [], _ => trivial
  | _ :: _, he => ⟨Expr.Receives.mono h he.1, Expr.AllReceive.mono h he.2⟩

end

theorem Expr.OptionReceives.mono (h : ∀ id d, known id d → known' id d) {d : Option Nat}
    {own : List NodeId} : ∀ {o : Option Expr},
    Expr.OptionReceives known d own o → Expr.OptionReceives known' d own o
  | none, _ => trivial
  | some _, he => Expr.Receives.mono h he

mutual

/-- A statement goes on to receive when more is recorded. -/
theorem Stmt.Receives.mono (h : ∀ id d, known id d → known' id d) :
    ∀ {s : Stmt} {d : Option Nat} {own : List NodeId},
    s.Receives known d own → s.Receives known' d own
  | .exprStmt _, _, _, hs | .printStmt _, _, _, hs => Expr.Receives.mono h hs
  | .varDecl _ _, _, _, hs => ⟨hs.1, Expr.OptionReceives.mono h hs.2⟩
  | .block body, d, own, hs =>
    Stmt.AllReceive.mono h (show Stmt.AllReceive known body (d.map (· + 1)) own from hs)
  | .ifStmt _ _ _, _, _, hs =>
    ⟨Expr.Receives.mono h hs.1, Stmt.Receives.mono h hs.2.1, Stmt.OptionReceives.mono h hs.2.2⟩
  | .whileStmt _ _, _, _, hs => ⟨Expr.Receives.mono h hs.1, Stmt.Receives.mono h hs.2⟩
  | .forStmt _ _ _ _, _, _, hs =>
    ⟨Stmt.OptionReceives.mono h hs.1, Expr.OptionReceives.mono h hs.2.1,
      Expr.OptionReceives.mono h hs.2.2.1, Stmt.Receives.mono h hs.2.2.2⟩
  | .returnStmt _ _, _, _, hs => Expr.OptionReceives.mono h hs
  | .funDecl _, _, _, hs => ⟨hs.1, Routine.Receives.mono h hs.2⟩
  | .classDecl _ _, _, _, hs => ⟨hs.1, Routine.MethodsReceive.mono h hs.2⟩

theorem Stmt.AllReceive.mono (h : ∀ id d, known id d → known' id d) :
    ∀ {ss : List Stmt} {d : Option Nat} {own : List NodeId},
    Stmt.AllReceive known ss d own → Stmt.AllReceive known' ss d own
  | [], _, _, _ => trivial
  | _ :: _, _, _, hs => ⟨Stmt.Receives.mono h hs.1, Stmt.AllReceive.mono h hs.2⟩

theorem Stmt.OptionReceives.mono (h : ∀ id d, known id d → known' id d) :
    ∀ {o : Option Stmt} {d : Option Nat} {own : List NodeId},
    Stmt.OptionReceives known o d own → Stmt.OptionReceives known' o d own
  | none, _, _, _ => trivial
  | some s, _, _, hs => Stmt.Receives.mono h (s := s) hs

theorem Routine.Receives.mono (h : ∀ id d, known id d → known' id d) :
    ∀ {r : Routine} {d : Option Nat} {own : List NodeId},
    r.Receives known d own → r.Receives known' d own
  | ⟨_, _, body⟩, d, own, hr =>
    Stmt.AllReceive.mono h (show Stmt.AllReceive known body (d.map (· + 1)) own from hr)

theorem Routine.MethodsReceive.mono (h : ∀ id d, known id d → known' id d) :
    ∀ {rs : List Routine}, Routine.MethodsReceive known rs → Routine.MethodsReceive known' rs
  | [], _ => trivial
  | _ :: _, hr => ⟨Routine.Receives.mono h hr.1, Routine.MethodsReceive.mono h hr.2⟩

end

end

/-! ### Expressions without scopes -/

mutual

/-- Where nothing is recorded, an expression receives nothing. -/
theorem Expr.receives_none {known : Recorded} {own : List NodeId} : ∀ {e : Expr},
    (∀ id ∈ e.ids, known id none) → e.Receives known none own
  | .constant _, _ | .var _ _, _ => trivial
  | .this id _, h => ⟨h id (.head _), fun hne => absurd rfl hne⟩
  | .grouping inner, h | .unary _ inner, h | .get inner _, h => Expr.receives_none (e := inner) h
  | .binary _ _ _, h | .logical _ _ _, h | .set _ _ _, h =>
    ⟨Expr.receives_none fun id hid => h id (List.mem_append_left _ hid),
      Expr.receives_none fun id hid => h id (List.mem_append_right _ hid)⟩
  | .conditional _ _ _, h =>
    ⟨Expr.receives_none fun id hid => h id (List.mem_append_left _ hid),
      Expr.receives_none fun id hid => h id (List.mem_append_right _ (List.mem_append_left _ hid)),
      Expr.receives_none fun id hid => h id (List.mem_append_right _ (List.mem_append_right _ hid))⟩
  | .assign id _ _, h =>
    ⟨Expr.receives_none fun i hi => h i (List.mem_append_left _ hi),
      .inr (h id (List.mem_append_right _ (.head _)))⟩
  | .call _ _ _, h =>
    ⟨Expr.receives_none fun id hid => h id (List.mem_append_left _ hid),
      Expr.allReceive_none fun id hid => h id (List.mem_append_right _ hid)⟩

theorem Expr.allReceive_none {known : Recorded} {own : List NodeId} : ∀ {es : List Expr},
    (∀ id ∈ Expr.idsAll es, known id none) → Expr.AllReceive known none own es
  | [], _ => trivial
  | _ :: _, h =>
    ⟨Expr.receives_none fun id hid => h id (List.mem_append_left _ hid),
      Expr.allReceive_none fun id hid => h id (List.mem_append_right _ hid)⟩

end

/-! ## Trees that fit receive -/

namespace Scopes

variable {Γ : Scopes}

/-- Another name does not change where `this` is. -/
theorem distance?_declare_this {name : String} (h : name ≠ thisName) :
    (Γ.declare name).distance? thisName = Γ.distance? thisName := by
  cases Γ with
  | nil => rfl
  | cons scope Γ => simp [declare, distance?, List.findIdx?_cons, Ne.symm h]

end Scopes

/-- **A statement does not move `this`**: it declares nothing of that name. -/
theorem Stmt.distance?_after {Γ : Scopes} : ∀ {s : Stmt}, s.Named →
    (s.after Γ).distance? thisName = Γ.distance? thisName
  | .varDecl _ _, h | .classDecl _ _, h | .funDecl ⟨_, _, _⟩, h => Scopes.distance?_declare_this h.1
  | .exprStmt _, _ | .printStmt _, _ | .block _, _ | .ifStmt _ _ _, _ | .whileStmt _ _, _
  | .forStmt _ _ _ _, _ | .returnStmt _ _, _ => rfl

theorem Stmt.distance?_afterOption {Γ : Scopes} : ∀ {o : Option Stmt}, Stmt.OptionNamed o →
    (Stmt.afterOption Γ o).distance? thisName = Γ.distance? thisName
  | none, _ => rfl
  | some s, h => Stmt.distance?_after (s := s) h

section

variable {known : Recorded} {tidy : Bool} {Γ : Scopes} {ids : List NodeId}

mutual

/-- An expression that fits receives at the distance of `this`. -/
theorem Expr.Fits.receives {own : Option String} : ∀ {e : Expr}, e.Fits known tidy Γ own →
    e.Proper → e.Named → (∀ id ∈ e.thisIds, id ∈ ids) →
    e.Receives known (Γ.distance? thisName) ids
  | .constant _, _, _, _, _ | .var _ _, _, _, _, _ => trivial
  | .this id keyword, hfits, hproper, _, hids => by
    have hthis : keyword.lexeme = thisName := hproper
    obtain ⟨hown, hknown⟩ := hfits
    rw [Scopes.seen_of_ne hown, hthis] at hknown
    exact ⟨hknown, fun _ => ⟨hthis, hids id (.head _)⟩⟩
  | .grouping inner, hfits, hproper, hnamed, hids | .unary _ inner, hfits, hproper, hnamed, hids
  | .get inner _, hfits, hproper, hnamed, hids =>
    Expr.Fits.receives (e := inner) hfits hproper hnamed hids
  | .binary _ _ _, hfits, hproper, hnamed, hids | .logical _ _ _, hfits, hproper, hnamed, hids
  | .set _ _ _, hfits, hproper, hnamed, hids =>
    ⟨Expr.Fits.receives hfits.1 hproper.1 hnamed.1 fun id hid => hids id (List.mem_append_left _ hid),
      Expr.Fits.receives hfits.2 hproper.2 hnamed.2
        fun id hid => hids id (List.mem_append_right _ hid)⟩
  | .conditional _ _ _, hfits, hproper, hnamed, hids =>
    ⟨Expr.Fits.receives hfits.1 hproper.1 hnamed.1 fun id hid => hids id (List.mem_append_left _ hid),
      Expr.Fits.receives hfits.2.1 hproper.2.1 hnamed.2.1
        fun id hid => hids id (List.mem_append_right _ (List.mem_append_left _ hid)),
      Expr.Fits.receives hfits.2.2 hproper.2.2 hnamed.2.2
        fun id hid => hids id (List.mem_append_right _ (List.mem_append_right _ hid))⟩
  | .assign _ _ _, hfits, hproper, hnamed, hids =>
    ⟨Expr.Fits.receives hfits.1 hproper hnamed.2 hids, .inl hnamed.1⟩
  | .call _ _ _, hfits, hproper, hnamed, hids =>
    ⟨Expr.Fits.receives hfits.1 hproper.1 hnamed.1 fun id hid => hids id (List.mem_append_left _ hid),
      Expr.AllFits.receive hfits.2 hproper.2 hnamed.2
        fun id hid => hids id (List.mem_append_right _ hid)⟩

theorem Expr.AllFits.receive {own : Option String} : ∀ {es : List Expr},
    Expr.AllFits known tidy Γ own es → Expr.AllProper es → Expr.AllNamed es →
    (∀ id ∈ Expr.thisIdsAll es, id ∈ ids) →
    Expr.AllReceive known (Γ.distance? thisName) ids es
  | [], _, _, _, _ => trivial
  | _ :: _, hfits, hproper, hnamed, hids =>
    ⟨Expr.Fits.receives hfits.1 hproper.1 hnamed.1 fun id hid => hids id (List.mem_append_left _ hid),
      Expr.AllFits.receive hfits.2 hproper.2 hnamed.2
        fun id hid => hids id (List.mem_append_right _ hid)⟩

end

theorem Expr.OptionFits.receives {own : Option String} : ∀ {o : Option Expr},
    Expr.OptionFits known tidy Γ own o → Expr.OptionProper o → Expr.OptionNamed o →
    (∀ id ∈ Expr.thisIdsOption o, id ∈ ids) →
    Expr.OptionReceives known (Γ.distance? thisName) ids o
  | none, _, _, _, _ => trivial
  | some _, hfits, hproper, hnamed, hids => Expr.Fits.receives hfits hproper hnamed hids

end

section

variable {known : Recorded} {tidy : Bool}

mutual

/-- **A statement that fits its place receives there.** -/
theorem Stmt.Fits.receives : ∀ {s : Stmt} {Γ : Scopes} {ids : List NodeId},
    s.Fits known tidy Γ → s.Proper → s.Named → (∀ id ∈ s.ownThisIds, id ∈ ids) →
    s.Receives known (Γ.distance? thisName) ids
  | .exprStmt _, _, _, hfits, hproper, hnamed, hids
  | .printStmt _, _, _, hfits, hproper, hnamed, hids =>
    Expr.Fits.receives hfits hproper hnamed hids
  | .varDecl _ _, _, _, hfits, hproper, hnamed, hids =>
    ⟨hnamed.1, Expr.OptionFits.receives hfits.2 hproper.2 hnamed.2 hids⟩
  | .block body, Γ, ids, hfits, hproper, hnamed, hids => by
    have hfits' : Stmt.AllFits known tidy body ([] :: Γ) := hfits
    have hbody := Stmt.AllFits.receive hfits' hproper hnamed hids
    rwa [Scopes.distance?_cons_of_not_mem List.not_mem_nil] at hbody
  | .ifStmt _ _ _, _, _, hfits, hproper, hnamed, hids =>
    ⟨Expr.Fits.receives hfits.1 hproper.1 hnamed.1 fun id hid => hids id (List.mem_append_left _ hid),
      Stmt.Fits.receives hfits.2.1.2 hproper.2.1.2 hnamed.2.1
        fun id hid => hids id (List.mem_append_right _ (List.mem_append_left _ hid)),
      Stmt.OptionFits.receives hfits.2.2.2 hproper.2.2.2 hnamed.2.2
        fun id hid => hids id (List.mem_append_right _ (List.mem_append_right _ hid))⟩
  | .whileStmt _ _, _, _, hfits, hproper, hnamed, hids =>
    ⟨Expr.Fits.receives hfits.1 hproper.1 hnamed.1 fun id hid => hids id (List.mem_append_left _ hid),
      Stmt.Fits.receives hfits.2.2 hproper.2.2 hnamed.2
        fun id hid => hids id (List.mem_append_right _ hid)⟩
  | .forStmt initial condition increment body, Γ, ids, hfits, hproper, hnamed, hids => by
    -- the clauses and the body stand behind the declaration of the first clause
    have hdistance : (Stmt.afterOption ([] :: Γ) initial).distance? thisName =
        (Γ.distance? thisName).map (· + 1) := by
      rw [Stmt.distance?_afterOption hnamed.1, Scopes.distance?_cons_of_not_mem List.not_mem_nil]
    have hinitial := Stmt.OptionFits.receives hfits.1.2 hproper.1.2 hnamed.1
      fun id hid => hids id (List.mem_append_left _ hid)
    have hcondition := Expr.OptionFits.receives hfits.2.1 hproper.2.1 hnamed.2.1
      fun id hid => hids id (List.mem_append_right _ (List.mem_append_left _ hid))
    have hincrement := Expr.OptionFits.receives hfits.2.2.1 hproper.2.2.1 hnamed.2.2.1
      fun id hid => hids id (List.mem_append_right _ (List.mem_append_right _
        (List.mem_append_left _ hid)))
    have hbody := Stmt.Fits.receives hfits.2.2.2.2 hproper.2.2.2.2 hnamed.2.2.2
      fun id hid => hids id (List.mem_append_right _ (List.mem_append_right _
        (List.mem_append_right _ hid)))
    rw [Scopes.distance?_cons_of_not_mem List.not_mem_nil] at hinitial
    rw [hdistance] at hcondition hincrement hbody
    exact ⟨hinitial, hcondition, hincrement, hbody⟩
  | .returnStmt _ _, _, _, hfits, hproper, hnamed, hids =>
    Expr.OptionFits.receives hfits hproper hnamed hids
  | .funDecl r, Γ, ids, hfits, hproper, hnamed, hids => by
    obtain ⟨name, parameters, body⟩ := r
    have hroutine := Routine.Fits.receives hfits.2 hproper hnamed hids
    rw [Scopes.distance?_declare_this hnamed.1] at hroutine
    exact ⟨hnamed.1, hroutine⟩
  | .classDecl _ _, _, _, hfits, hproper, hnamed, _ =>
    ⟨hnamed.1, Routine.AllFits.receive hfits.2 hproper hnamed.2⟩

theorem Stmt.AllFits.receive : ∀ {ss : List Stmt} {Γ : Scopes} {ids : List NodeId},
    Stmt.AllFits known tidy ss Γ → Stmt.AllProper ss → Stmt.AllNamed ss →
    (∀ id ∈ Stmt.ownThisIdsAll ss, id ∈ ids) →
    Stmt.AllReceive known ss (Γ.distance? thisName) ids
  | [], _, _, _, _, _, _ => trivial
  | s :: ss, Γ, ids, hfits, hproper, hnamed, hids => by
    have hrest := Stmt.AllFits.receive hfits.2 hproper.2 hnamed.2
      fun id hid => hids id (List.mem_append_right _ hid)
    rw [Stmt.distance?_after hnamed.1] at hrest
    exact ⟨Stmt.Fits.receives hfits.1 hproper.1 hnamed.1
      fun id hid => hids id (List.mem_append_left _ hid), hrest⟩

theorem Stmt.OptionFits.receives : ∀ {o : Option Stmt} {Γ : Scopes} {ids : List NodeId},
    Stmt.OptionFits known tidy o Γ → Stmt.OptionProper o → Stmt.OptionNamed o →
    (∀ id ∈ Stmt.ownThisIdsOption o, id ∈ ids) →
    Stmt.OptionReceives known o (Γ.distance? thisName) ids
  | none, _, _, _, _, _, _ => trivial
  | some s, _, _, hfits, hproper, hnamed, hids =>
    Stmt.Fits.receives (s := s) hfits hproper hnamed hids

/-- A routine that fits receives one scope further in. -/
theorem Routine.Fits.receives : ∀ {r : Routine} {Γ : Scopes} {ids : List NodeId},
    r.Fits known tidy Γ → r.Proper → r.Named → (∀ id ∈ r.ownThisIds, id ∈ ids) →
    r.Receives known (Γ.distance? thisName) ids
  | ⟨_, parameters, body⟩, Γ, ids, hfits, hproper, hnamed, hids => by
    have hthis : thisName ∉ parameters.map Token.lexeme := by
      intro hmem
      obtain ⟨p, hp, hname⟩ := List.mem_map.mp hmem
      exact hnamed.2.1 p hp hname
    have hbody := Stmt.AllFits.receive hfits.2 hproper hnamed.2.2 hids
    rwa [Scopes.distance?_cons_of_not_mem hthis] at hbody

/-- Methods receive what they are called on, whatever is around the class. -/
theorem Routine.AllFits.receive : ∀ {rs : List Routine} {Γ : Scopes},
    Routine.AllFits known tidy rs ([thisName] :: Γ) → Routine.AllProper rs → Routine.AllNamed rs →
    Routine.MethodsReceive known rs
  | [], _, _, _, _ => trivial
  | r :: rs, Γ, hfits, hproper, hnamed => by
    have hr := Routine.Fits.receives hfits.1 hproper.1 hnamed.1 fun id hid => hid
    rw [Scopes.distance?_cons_of_mem (List.mem_singleton.mpr rfl)] at hr
    exact ⟨hr, Routine.AllFits.receive hfits.2 hproper.2 hnamed.2⟩

end

end

end LoxLang
