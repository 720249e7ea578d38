import Mathlib
import LoxLang.Proofs.Grammar.Acceptance
import LoxLang.Proofs.Lexis.Spelling
import LoxLang.Proofs.Scope.Fitting

/-!
# Proofs/Scope/Walk — the walk over the scopes records distances that fit

`Expr.uses` and `Stmt.uses` list the uses of names in a tree with their distances, in the order of
the walk. Where the walk notes no fault, it finds just these (`Covers.clean`), and the tree fits
wherever they are recorded (`Settles.fits`). Since no two uses of a program have the same id, the
table that its distances are entered into records them all (`enters_resolve`).
-/

namespace LoxLang

/-- A use of a name: its id and the distance of the name, if it is not global. -/
abbrev Use := NodeId × Option Nat

/-! ## The uses of names in a tree -/

namespace Expr

variable (Γ : Scopes) (own : Option String)

mutual

/-- The uses of names in an expression. -/
def uses : Expr → List Use
  | .constant _ => []
  | .grouping inner => inner.uses
  | .unary _ operand => operand.uses
  | .binary left _ right | .logical left _ right => left.uses ++ right.uses
  | .conditional condition onTrue onFalse => condition.uses ++ (onTrue.uses ++ onFalse.uses)
  | .var id name | .this id name => [(id, Γ.seen own name.lexeme)]
  | .assign id name value => value.uses ++ [(id, Γ.seen own name.lexeme)]
  | .call callee _ arguments => callee.uses ++ usesAll arguments
  | .get object _ => object.uses
  | .set object _ value => object.uses ++ value.uses

def usesAll : List Expr → List Use
  | [] => []
  | e :: es => e.uses ++ usesAll es

end

/-- The uses of names in an expression that may be left out. -/
def usesOption : Option Expr → List Use
  | none => []
  | some e => e.uses Γ own

end Expr

mutual

/-- The uses of names in a statement. -/
def Stmt.uses : Stmt → (Γ : Scopes) → List Use
  | .exprStmt e, Γ | .printStmt e, Γ => e.uses Γ none
  | .varDecl name initial, Γ => Expr.usesOption Γ (Γ.pending name.lexeme) initial
  | .block body, Γ => Stmt.usesAll body ([] :: Γ)
  | .ifStmt condition onTrue onFalse, Γ =>
    condition.uses Γ none ++ (onTrue.uses Γ ++ Stmt.usesOption onFalse Γ)
  | .whileStmt condition body, Γ => condition.uses Γ none ++ body.uses Γ
  | .forStmt initial condition increment body, Γ =>
    Stmt.usesOption initial ([] :: Γ) ++
      (Expr.usesOption (Stmt.afterOption ([] :: Γ) initial) none condition ++
        (Expr.usesOption (Stmt.afterOption ([] :: Γ) initial) none increment ++
          body.uses (Stmt.afterOption ([] :: Γ) initial)))
  | .returnStmt _ value, Γ => Expr.usesOption Γ none value
  | .funDecl r, Γ => r.uses (Γ.declare r.name.lexeme)
  | .classDecl name methods, Γ => Routine.usesAll methods ([thisName] :: Γ.declare name.lexeme)

def Stmt.usesAll : List Stmt → (Γ : Scopes) → List Use
  | [], _ => []
  | s :: ss, Γ => s.uses Γ ++ Stmt.usesAll ss (s.after Γ)

def Stmt.usesOption : Option Stmt → (Γ : Scopes) → List Use
  | none, _ => []
  | some s, Γ => s.uses Γ

/-- The uses of names in the body of a routine. -/
def Routine.uses : Routine → (Γ : Scopes) → List Use
  | ⟨_, parameters, body⟩, Γ => Stmt.usesAll body (parameters.map Token.lexeme :: Γ)

def Routine.usesAll : List Routine → (Γ : Scopes) → List Use
  | [], _ => []
  | r :: rs, Γ => r.uses Γ ++ Routine.usesAll rs Γ

end

/-! ### Uses of `this` -/

namespace Expr

mutual

/-- The node ids of `this` in an expression. -/
def thisIds : Expr → List NodeId
  | .constant _ | .var _ _ => []
  | .grouping inner => inner.thisIds
  | .unary _ operand => operand.thisIds
  | .binary left _ right | .logical left _ right => left.thisIds ++ right.thisIds
  | .conditional condition onTrue onFalse =>
    condition.thisIds ++ (onTrue.thisIds ++ onFalse.thisIds)
  | .this id _ => [id]
  | .assign _ _ value => value.thisIds
  | .call callee _ arguments => callee.thisIds ++ thisIdsAll arguments
  | .get object _ => object.thisIds
  | .set object _ value => object.thisIds ++ value.thisIds

def thisIdsAll : List Expr → List NodeId
  | [] => []
  | e :: es => e.thisIds ++ thisIdsAll es

end

def thisIdsOption : Option Expr → List NodeId
  | none => []
  | some e => e.thisIds

end Expr

mutual

/-- The node ids of `this` in a statement. -/
def Stmt.thisIds : Stmt → List NodeId
  | .exprStmt e | .printStmt e => e.thisIds
  | .varDecl _ initial => Expr.thisIdsOption initial
  | .block body => Stmt.thisIdsAll body
  | .ifStmt condition onTrue onFalse =>
    condition.thisIds ++ (onTrue.thisIds ++ Stmt.thisIdsOption onFalse)
  | .whileStmt condition body => condition.thisIds ++ body.thisIds
  | .forStmt initial condition increment body =>
    Stmt.thisIdsOption initial ++
      (Expr.thisIdsOption condition ++ (Expr.thisIdsOption increment ++ body.thisIds))
  | .returnStmt _ value => Expr.thisIdsOption value
  | .funDecl routine => routine.thisIds
  | .classDecl _ methods => Routine.thisIdsAll methods

def Stmt.thisIdsAll : List Stmt → List NodeId
  | [] => []
  | s :: ss => s.thisIds ++ Stmt.thisIdsAll ss

def Stmt.thisIdsOption : Option Stmt → List NodeId
  | none => []
  | some s => s.thisIds

def Routine.thisIds : Routine → List NodeId
  | ⟨_, _, body⟩ => Stmt.thisIdsAll body

def Routine.thisIdsAll : List Routine → List NodeId
  | [] => []
  | r :: rs => r.thisIds ++ Routine.thisIdsAll rs

end

/-! ### Their ids -/

mutual

/-- The uses of an expression have its node ids, in order; the same holds of each sort of tree
below. -/
theorem Expr.map_fst_uses {Γ : Scopes} {own : Option String} : ∀ e : Expr,
    (e.uses Γ own).map Prod.fst = e.ids
  | .constant _ => rfl
  | .grouping inner | .unary _ inner | .get inner _ => inner.map_fst_uses
  | .binary left _ right | .logical left _ right | .set left _ right => by
    simp [Expr.uses, Expr.ids, left.map_fst_uses, right.map_fst_uses]
  | .conditional condition onTrue onFalse => by
    simp [Expr.uses, Expr.ids, condition.map_fst_uses, onTrue.map_fst_uses, onFalse.map_fst_uses]
  | .var _ _ | .this _ _ => rfl
  | .assign _ _ value => by simp [Expr.uses, Expr.ids, value.map_fst_uses]
  | .call callee _ arguments => by
    simp [Expr.uses, Expr.ids, callee.map_fst_uses, Expr.map_fst_usesAll arguments]

theorem Expr.map_fst_usesAll {Γ : Scopes} {own : Option String} : ∀ es : List Expr,
    (Expr.usesAll Γ own es).map Prod.fst = Expr.idsAll es
  | [] => rfl
  | e :: es => by simp [Expr.usesAll, Expr.idsAll, e.map_fst_uses, Expr.map_fst_usesAll es]

end

theorem Expr.map_fst_usesOption {Γ : Scopes} {own : Option String} : ∀ o : Option Expr,
    (Expr.usesOption Γ own o).map Prod.fst = Expr.idsOption o
  | none => rfl
  | some e => e.map_fst_uses

mutual

/-- The uses of a statement have its node ids. -/
theorem Stmt.map_fst_uses : ∀ (s : Stmt) (Γ : Scopes), (s.uses Γ).map Prod.fst = s.ids
  | .exprStmt e, _ | .printStmt e, _ => e.map_fst_uses
  | .varDecl _ initial, _ => Expr.map_fst_usesOption initial
  | .block body, _ => Stmt.map_fst_usesAll body _
  | .ifStmt condition onTrue onFalse, _ => by
    simp [Stmt.uses, Stmt.ids, condition.map_fst_uses, onTrue.map_fst_uses,
      Stmt.map_fst_usesOption onFalse]
  | .whileStmt condition body, _ => by
    simp [Stmt.uses, Stmt.ids, condition.map_fst_uses, body.map_fst_uses]
  | .forStmt initial condition increment body, _ => by
    simp [Stmt.uses, Stmt.ids, Stmt.map_fst_usesOption initial, Expr.map_fst_usesOption,
      body.map_fst_uses]
  | .returnStmt _ value, _ => Expr.map_fst_usesOption value
  | .funDecl r, _ => r.map_fst_uses _
  | .classDecl _ methods, _ => Routine.map_fst_usesAll methods _

theorem Stmt.map_fst_usesAll : ∀ (ss : List Stmt) (Γ : Scopes),
    (Stmt.usesAll ss Γ).map Prod.fst = Stmt.idsAll ss
  | [], _ => rfl
  | s :: ss, _ => by
    simp [Stmt.usesAll, Stmt.idsAll, s.map_fst_uses, Stmt.map_fst_usesAll ss]

theorem Stmt.map_fst_usesOption : ∀ (o : Option Stmt) (Γ : Scopes),
    (Stmt.usesOption o Γ).map Prod.fst = Stmt.idsOption o
  | none, _ => rfl
  | some s, Γ => s.map_fst_uses Γ

theorem Routine.map_fst_uses : ∀ (r : Routine) (Γ : Scopes), (r.uses Γ).map Prod.fst = r.ids
  | ⟨_, _, body⟩, _ => Stmt.map_fst_usesAll body _

theorem Routine.map_fst_usesAll : ∀ (rs : List Routine) (Γ : Scopes),
    (Routine.usesAll rs Γ).map Prod.fst = Routine.idsAll rs
  | [], _ => rfl
  | r :: rs, Γ => by
    simp [Routine.usesAll, Routine.idsAll, r.map_fst_uses Γ, Routine.map_fst_usesAll rs Γ]

end

/-! ## What the walk keeps of the scopes -/

namespace Scope

/-- The entries of a scope: its names are defined, and the pending one is declared. -/
def Shows (names : Names) (scope : List String) (own : Option String) : Prop :=
  ∀ x, names[x]? =
    if own = some x then some .declared else if x ∈ scope then some .defined else none

/-- The walk has the scopes `Γ` open; a pending name is in the innermost. -/
def ShowsAll : List Names → Scopes → Option String → Prop
  | [], [], own => own = none
  | names :: rest, scope :: Γ, own => Shows names scope own ∧ ShowsAll rest Γ none
  | _, _, _ => False

/-- A scope has the names that are defined in it and the one that is pending. -/
theorem Shows.contains {names : Names} {scope : List String} {own : Option String}
    (h : Shows names scope own) (x : String) :
    names.contains x = (decide (own = some x) || decide (x ∈ scope)) := by
  rw [Std.TreeMap.contains_eq_isSome_getElem?, h x]
  by_cases hown : own = some x
  · simp [hown]
  · by_cases hx : x ∈ scope <;> simp [hown, hx]

/-- The distance that the walk finds. -/
theorem ShowsAll.distance? : ∀ {scopes : List Names} {Γ : Scopes} {own : Option String},
    ShowsAll scopes Γ own → ∀ x, Scope.distance? x scopes = Γ.seen own x
  | [], [], _, h, x => by
      cases h
      rfl
  | names :: rest, scope :: Γ, own, h, x => by
      have hrest : Scope.distance? x rest = Scopes.distance? Γ x :=
        (h.2.distance? x).trans (Scopes.seen_of_ne nofun)
      unfold Scope.distance? at hrest ⊢
      rw [List.findIdx?_cons, h.1.contains x, hrest]
      by_cases hown : own = some x
      · simp [Scopes.seen, hown]
      · by_cases hx : x ∈ scope
        · simp [Scopes.seen, hown, hx, Scopes.distance?_cons_of_mem]
        · simp [Scopes.seen, hown, hx, Scopes.distance?_cons_of_not_mem]
  | [], _ :: _, _, h, _ => h.elim
  | _ :: _, [], _, h, _ => h.elim

/-- The walk after one more stretch. -/
def Walk.after (w : Walk) (x : Walker Unit) : Walk :=
  (x.run w).2

/-- The distances among uses, as the walk records them. -/
def recorded (uses : List Use) : List (NodeId × Nat) :=
  uses.filterMap fun u => u.2.map (u.1, ·)

theorem recorded_append (us vs : List Use) : recorded (us ++ vs) = recorded us ++ recorded vs :=
  List.filterMap_append

/-- The stretch goes from one place to another; if it notes no fault, it records the given uses and
the condition `clean` holds. -/
structure Covers (x : Walker Unit) (Γ : Scopes) (own : Option String) (Γ' : Scopes)
    (own' : Option String) (uses : List Use) (clean : Prop) : Prop where
  scopes : ∀ {w : Walk}, ShowsAll w.scopes Γ own → ShowsAll (w.after x).scopes Γ' own'
  clean : ∀ {w : Walk}, ShowsAll w.scopes Γ own →
    ∃ new, (w.after x).faults = w.faults ++ new ∧
      (new = [] → (w.after x).found = (recorded uses).reverse ++ w.found ∧ clean)

variable {x y : Walker Unit} {Γ Γ' Γ'' : Scopes} {own own' own'' : Option String}
  {us vs : List Use} {p q : Prop}

/-- **Stretches of the walk may stand one behind the other.** -/
theorem Covers.bind (hx : Covers x Γ own Γ' own' us p) (hy : Covers y Γ' own' Γ'' own'' vs q) :
    Covers (x >>= fun _ => y) Γ own Γ'' own'' (us ++ vs) (p ∧ q) where
  scopes h := hy.scopes (hx.scopes h)
  clean h := by
    obtain ⟨new, h₁, hp⟩ := hx.clean h
    obtain ⟨new', h₂, hq⟩ := hy.clean (hx.scopes h)
    refine ⟨new ++ new', h₂.trans (by rw [h₁, List.append_assoc]), fun hnil => ?_⟩
    obtain ⟨rfl, rfl⟩ := List.append_eq_nil_iff.mp hnil
    refine ⟨(hq rfl).1.trans ?_, (hp rfl).2, (hq rfl).2⟩
    rw [(hp rfl).1, recorded_append, List.reverse_append, List.append_assoc]

theorem Covers.imp (h : Covers x Γ own Γ' own' us p) (hpq : p → q) :
    Covers x Γ own Γ' own' us q where
  scopes := h.scopes
  clean hs := by
    obtain ⟨new, hnew, hclean⟩ := h.clean hs
    exact ⟨new, hnew, fun hnil => ⟨(hclean hnil).1, hpq (hclean hnil).2⟩⟩

/-- A stretch that only changes the scopes. -/
theorem Covers.of_scopes
    (h : ∀ {w : Walk}, ShowsAll w.scopes Γ own → ShowsAll (w.after x).scopes Γ' own' ∧
      (w.after x).found = w.found ∧ (w.after x).faults = w.faults) :
    Covers x Γ own Γ' own' [] True where
  scopes hs := (h hs).1
  clean hs := ⟨[], by rw [(h hs).2.2, List.append_nil], fun _ => ⟨(h hs).2.1, trivial⟩⟩

theorem covers_pure : Covers (pure ()) Γ own Γ own [] True :=
  .of_scopes fun h => ⟨h, rfl, rfl⟩

/-- A stretch that notes a fault has nothing more to show. -/
theorem covers_note (token : Token) (fault : ScopeFault) :
    Covers (note token fault) Γ own Γ own us False where
  scopes h := h
  clean _ := ⟨[.resolve token fault], rfl, nofun⟩

/-- To locate a name is to record its distance, if a scope has it. -/
theorem after_locate (id : NodeId) (name : Token) (w : Walk) :
    w.after (locate id name) = match Scope.distance? name.lexeme w.scopes with
      | none => w
      | some d => { w with found := (id, d) :: w.found } :=
  rfl

/-- The distance that is recorded for a name is the one that is seen. -/
theorem covers_locate (id : NodeId) (name : Token) :
    Covers (locate id name) Γ own Γ own [(id, Γ.seen own name.lexeme)] True := by
  have hafter : ∀ w : Walk, ShowsAll w.scopes Γ own → w.after (locate id name) =
      { w with found := (recorded [(id, Γ.seen own name.lexeme)]).reverse ++ w.found } := by
    intro w h
    rw [after_locate, h.distance? name.lexeme]
    cases Γ.seen own name.lexeme <;> rfl
  refine ⟨fun h => ?_, fun h => ⟨[], ?_, fun _ => ⟨?_, trivial⟩⟩⟩
  · rw [hafter _ h]
    exact h
  · rw [hafter _ h, List.append_nil]
  · rw [hafter _ h]

/-! ### Names of the innermost scope -/

/-- What the innermost scope says about a name. -/
def entry (Γ : Scopes) (own : Option String) (name : String) : Option Mark :=
  if own = some name then some .declared
  else if name ∈ Γ.headD [] then some .defined else none

/-- The innermost scope tells what is declared in it, and nothing else does. -/
theorem ShowsAll.innermost? {w : Walk} (h : ShowsAll w.scopes Γ own) (name : Token) :
    (Scope.innermost? name).run w = (entry Γ own name.lexeme, w) := by
  obtain ⟨scopes, found, faults⟩ := w
  match scopes, Γ, h with
  | [], [], h =>
    cases h
    rfl
  | names :: _, _ :: _, h => exact congrArg (·, _) (h.1 name.lexeme)

/-- A stretch that begins with a check. -/
theorem Covers.unless {c : Prop} [Decidable c] (name : Token) (fault : ScopeFault)
    (hx : Covers x Γ own Γ' own' us p) :
    Covers (do
      if c then note name fault
      x) Γ own Γ' own' us (¬ c ∧ p) := by
  by_cases hc : c
  · rw [if_pos hc]
    have hnote : Covers (note name fault >>= fun _ => x) Γ own Γ' own' ([] ++ us) (False ∧ p) :=
      (covers_note name fault).bind hx
    exact hnote.imp fun h => h.1.elim
  · rw [if_neg hc]
    exact hx.imp fun hp => ⟨hc, hp⟩

/-- A stretch that begins with a check of the innermost scope. -/
theorem Covers.guarded (name : Token) (fault : ScopeFault) (test : Option Mark → Prop)
    [DecidablePred test] (hx : Covers x Γ own Γ' own' us p) :
    Covers (do
      if test (← innermost? name) then note name fault
      x) Γ own Γ' own' us (¬ test (entry Γ own name.lexeme) ∧ p) := by
  have hunless := hx.unless (c := test (entry Γ own name.lexeme)) name fault
  have hafter : ∀ w : Walk, ShowsAll w.scopes Γ own →
      (w.after do
        if test (← innermost? name) then note name fault
        x) =
      w.after (do
        if test (entry Γ own name.lexeme) then note name fault
        x) := by
    intro w h
    simp only [Walk.after, StateT.run_bind, h.innermost? name]
    rfl
  refine ⟨fun h => ?_, fun h => ?_⟩
  · rw [hafter _ h]
    exact hunless.scopes h
  · rw [hafter _ h]
    exact hunless.clean h

/-! ### Entering names -/

/-- A name that is declared is pending. -/
theorem Shows.insert_declared {names : Names} {scope : List String} (h : Shows names scope none)
    (x : String) : Shows (names.insert x .declared) scope (some x) := by
  intro y
  rw [Std.TreeMap.getElem?_insert, h y]
  by_cases hxy : x = y <;> simp [hxy]

/-- A name that is defined is no longer pending. -/
theorem Shows.insert_defined {names : Names} {scope : List String} {own : Option String}
    {x : String} (h : Shows names scope own) (hown : ∀ y ∈ own, y = x) :
    Shows (names.insert x .defined) (x :: scope) none := by
  intro y
  rw [Std.TreeMap.getElem?_insert, h y]
  by_cases hxy : x = y
  · simp [hxy]
  · have hy : own ≠ some y := fun hy => hxy (hown y hy).symm
    simp [hxy, hy, Ne.symm hxy]

/-- To declare a name makes it pending, unless it is global. -/
theorem covers_markDeclared (name : Token) :
    Covers (mark name .declared) Γ none Γ (Γ.pending name.lexeme) [] True := by
  refine .of_scopes fun {w} h => ?_
  obtain ⟨scopes, found, faults⟩ := w
  match scopes, Γ, h with
  | [], [], h => exact ⟨h, rfl, rfl⟩
  | names :: _, _ :: _, h => exact ⟨⟨h.1.insert_declared _, h.2⟩, rfl, rfl⟩

/-- Behind its definition the name is in the innermost scope. -/
theorem covers_define (name : Token) :
    Covers (define name) Γ (Γ.pending name.lexeme) (Γ.declare name.lexeme) none [] True := by
  refine .of_scopes fun {w} h => ?_
  obtain ⟨scopes, found, faults⟩ := w
  match scopes, Γ, h with
  | [], [], _ => exact ⟨rfl, rfl, rfl⟩
  | names :: _, _ :: _, h =>
    exact ⟨⟨h.1.insert_defined fun y hy => (Option.some.inj hy).symm, h.2⟩, rfl, rfl⟩

/-- A scope that does not tell of a name lacks it. -/
theorem lacks_of_entry {name : String} (h : ¬ (entry Γ none name).isSome) : Γ.Lacks name := by
  intro scope hscope hmem
  cases Γ with
  | nil => cases hscope
  | cons head Γ =>
    cases hscope
    simp [entry, hmem] at h

/-- **A name that is declared without a fault was not in its scope before.** -/
theorem covers_declare (name : Token) :
    Covers (declare name) Γ none Γ (Γ.pending name.lexeme) [] (Γ.Lacks name.lexeme) :=
  ((covers_markDeclared name).guarded name .alreadyDeclared (fun o => o.isSome)).imp
    fun h => lacks_of_entry h.1

/-! ### Scopes inside scopes -/

/-- Leaving a scope shows the scopes around it. -/
theorem ShowsAll.tail : ∀ {scopes : List Names} {Γ : Scopes}, ShowsAll scopes Γ none →
    ShowsAll scopes.tail Γ.tail none
  | [], [], h => h
  | _ :: _, _ :: _, h => h.2
  | [], _ :: _, h => h.elim
  | _ :: _, [], h => h.elim

/-- A stretch inside of a scope of its own leaves the scopes as they were. -/
theorem Covers.within {names : Names} {scope : List String} (hnames : Shows names scope none)
    (hx : Covers x (scope :: Γ) none Γ' none us p) (htail : Γ'.tail = Γ) :
    Covers (within names x) Γ none Γ none us p where
  scopes {w} h := htail ▸ (hx.scopes (w := { w with scopes := names :: w.scopes }) ⟨hnames, h⟩).tail
  clean {w} h := hx.clean (w := { w with scopes := names :: w.scopes }) ⟨hnames, h⟩

theorem shows_empty : Shows ∅ [] none := fun x => by simp

/-- The scope of a class has `this` from the start. -/
theorem shows_this : Shows {(thisName, Mark.defined)} [thisName] none :=
  shows_empty.insert_defined fun _ h => (Option.not_mem_none _ h).elim

/-- A stretch may start from scopes that have the same names in another order. -/
theorem Covers.permuted {scope scope' : List String} (h : ∀ a, a ∈ scope ↔ a ∈ scope')
    (hx : Covers x (scope' :: Γ) none Γ' own' us p) : Covers x (scope :: Γ) none Γ' own' us p := by
  have hshows : ∀ {w : Walk}, ShowsAll w.scopes (scope :: Γ) none →
      ShowsAll w.scopes (scope' :: Γ) none := by
    rintro ⟨scopes, found, faults⟩ hs
    match scopes, hs with
    | names :: _, hs =>
      refine ⟨fun a => ?_, hs.2⟩
      rw [hs.1 a]
      simp [h a]
  exact ⟨fun hs => hx.scopes (hshows hs), fun hs => hx.clean (hshows hs)⟩

/-- The parameters of a routine have names of their own. -/
theorem covers_parameters : ∀ (ps : List Token) (scope : List String),
    Covers (parameters ps) (scope :: Γ) none (((ps.map Token.lexeme).reverse ++ scope) :: Γ) none []
      ((ps.map Token.lexeme).Nodup ∧ ∀ a ∈ ps.map Token.lexeme, a ∉ scope)
  | [], _ => covers_pure.imp fun _ => ⟨.nil, nofun⟩
  | t :: ps, scope => by
    have hdefine : Covers (define t) (scope :: Γ) (some t.lexeme) ((t.lexeme :: scope) :: Γ) none
        [] True := covers_define t
    have hall := (covers_declare t).bind (hdefine.bind (covers_parameters ps (t.lexeme :: scope)))
    rw [List.map_cons, List.reverse_cons, List.append_assoc]
    refine hall.imp fun ⟨hlacks, _, hnodup, hfresh⟩ => ?_
    refine ⟨List.nodup_cons.mpr ⟨fun hmem => hfresh _ hmem (.head _), hnodup⟩, fun a ha => ?_⟩
    rcases List.mem_cons.mp ha with rfl | ha
    · exact hlacks scope rfl
    · exact fun hmem => hfresh a ha (.tail _ hmem)

/-! ### Expressions -/

/-- What a walk without faults says about a tree with the uses `us`: it fits where they are
recorded, and each `this` among `ids` has a distance. -/
structure Settles (us : List Use) (ids : List NodeId) (fits : Recorded → Prop) : Prop where
  fits : ∀ {known : Recorded}, (∀ u ∈ us, known u.1 u.2) → fits known
  this : ∀ id ∈ ids, ∃ d, (id, some d) ∈ us

namespace Settles

variable {ids ids' : List NodeId} {fits fits' : Recorded → Prop}

/-- What is settled of two parts is settled of both. -/
theorem append (h : Settles us ids fits) (h' : Settles vs ids' fits') :
    Settles (us ++ vs) (ids ++ ids') fun known => fits known ∧ fits' known where
  fits hknown := ⟨h.fits fun u hu => hknown u (List.mem_append_left _ hu),
    h'.fits fun u hu => hknown u (List.mem_append_right _ hu)⟩
  this id hid := by
    rcases List.mem_append.mp hid with hid | hid
    · obtain ⟨d, hd⟩ := h.this id hid
      exact ⟨d, List.mem_append_left _ hd⟩
    · obtain ⟨d, hd⟩ := h'.this id hid
      exact ⟨d, List.mem_append_right _ hd⟩

theorem nil : Settles [] [] fun _ => True :=
  ⟨fun _ => trivial, nofun⟩

theorem imp (h : Settles us ids fits) (himp : ∀ {known}, fits known → fits' known) :
    Settles us ids fits' :=
  ⟨fun hknown => himp (h.fits hknown), h.this⟩

end Settles

/-- Inside a class `this` is in one of the scopes. -/
def Context.Encloses (ctx : Context) (Γ : Scopes) : Prop :=
  ctx.inClass = true → ∃ d, Γ.distance? thisName = some d

mutual

/-- **The walk over an expression without faults shows that it fits.** -/
theorem covers_expr {ctx : Context} (hctx : ctx.Encloses Γ) (hown : own ≠ some thisName) :
    ∀ e : Expr, e.Proper → Covers (Scope.expr ctx e) Γ own Γ own (e.uses Γ own)
      (Settles (e.uses Γ own) e.thisIds fun known => e.Fits known false Γ own)
  | .constant _, _ => covers_pure.imp fun _ => .nil
  | .grouping inner, h | .unary _ inner, h | .get inner _, h => covers_expr hctx hown inner h
  | .binary left _ right, h | .logical left _ right, h | .set left _ right, h =>
    ((covers_expr hctx hown left h.1).bind (covers_expr hctx hown right h.2)).imp
      fun ⟨hl, hr⟩ => hl.append hr
  | .conditional condition onTrue onFalse, h =>
    ((covers_expr hctx hown condition h.1).bind ((covers_expr hctx hown onTrue h.2.1).bind
      (covers_expr hctx hown onFalse h.2.2))).imp fun ⟨hc, ht, hf⟩ => hc.append (ht.append hf)
  | .call callee _ arguments, h =>
    ((covers_expr hctx hown callee h.1).bind (covers_exprs hctx hown arguments h.2)).imp
      fun ⟨hc, ha⟩ => hc.append ha
  | .var id name, _ => by
    refine ((covers_locate id name).guarded name .ownInitializer (· = some .declared)).imp ?_
    intro ⟨hentry, _⟩
    have hne : own ≠ some name.lexeme := fun heq => hentry (by simp [entry, heq])
    exact ⟨fun hknown => ⟨hne, hknown _ (.head _)⟩, nofun⟩
  | .assign id name value, h => by
    refine ((covers_expr hctx hown value h).bind (covers_locate id name)).imp fun ⟨hvalue, _⟩ => ?_
    have huse : Settles [(id, Γ.seen own name.lexeme)] [] fun known =>
        known id (Γ.seen own name.lexeme) := ⟨fun hknown => hknown _ (.head _), nofun⟩
    have hboth := hvalue.append huse
    rw [List.append_nil] at hboth
    exact hboth.imp fun h => ⟨h.1, fun _ => rfl, h.2⟩
  | .this id keyword, h => by
    rw [Scope.expr]
    have hne : own ≠ some keyword.lexeme := (show keyword.lexeme = thisName from h) ▸ hown
    cases hclass : ctx.inClass with
    | false =>
      rw [if_neg Bool.false_ne_true]
      exact (covers_note keyword .thisOutsideClass).imp False.elim
    | true =>
      rw [if_pos rfl]
      refine (covers_locate id keyword).imp fun _ => ⟨fun hknown => ⟨hne, hknown _ (.head _)⟩, ?_⟩
      intro i hi
      obtain ⟨d, hd⟩ := hctx hclass
      cases List.mem_singleton.mp hi
      refine ⟨d, List.mem_singleton.mpr ?_⟩
      rw [Scopes.seen_of_ne hne, h, hd]

theorem covers_exprs {ctx : Context} (hctx : ctx.Encloses Γ) (hown : own ≠ some thisName) :
    ∀ es : List Expr, Expr.AllProper es →
      Covers (Scope.exprs ctx es) Γ own Γ own (Expr.usesAll Γ own es)
        (Settles (Expr.usesAll Γ own es) (Expr.thisIdsAll es)
          fun known => Expr.AllFits known false Γ own es)
  | [], _ => covers_pure.imp fun _ => .nil
  | e :: es, h =>
    ((covers_expr hctx hown e h.1).bind (covers_exprs hctx hown es h.2)).imp
      fun ⟨he, hes⟩ => he.append hes

end

theorem covers_optional {ctx : Context} (hctx : ctx.Encloses Γ) (hown : own ≠ some thisName) :
    ∀ o : Option Expr, Expr.OptionProper o →
      Covers (Scope.optional ctx o) Γ own Γ own (Expr.usesOption Γ own o)
        (Settles (Expr.usesOption Γ own o) (Expr.thisIdsOption o)
          fun known => Expr.OptionFits known false Γ own o)
  | none, _ => covers_pure.imp fun _ => .nil
  | some e, h => covers_expr hctx hown e h

/-! ### Statements -/

theorem nothing_pending : (none : Option String) ≠ some thisName := nofun

namespace Context.Encloses

variable {ctx : Context}

/-- A scope more does not hide `this`. -/
theorem cons (h : ctx.Encloses Γ) (scope : List String) : ctx.Encloses (scope :: Γ) := by
  intro hclass
  obtain ⟨d, hd⟩ := h hclass
  by_cases hmem : thisName ∈ scope
  · exact ⟨0, Scopes.distance?_cons_of_mem hmem Γ⟩
  · exact ⟨d + 1, by rw [Scopes.distance?_cons_of_not_mem hmem, hd]; rfl⟩

theorem declare (h : ctx.Encloses Γ) (name : String) : ctx.Encloses (Γ.declare name) := by
  intro hclass
  obtain ⟨d, hd⟩ := h hclass
  cases Γ with
  | nil => exact ⟨d, hd⟩
  | cons scope Γ =>
    by_cases hmem : thisName ∈ name :: scope
    · exact ⟨0, Scopes.distance?_cons_of_mem hmem Γ⟩
    · refine ⟨d, ?_⟩
      rw [Scopes.distance?_cons_of_not_mem fun h => hmem (.tail _ h)] at hd
      exact (Scopes.distance?_cons_of_not_mem hmem Γ).trans hd

/-- A statement does not hide `this`. -/
theorem after (h : ctx.Encloses Γ) : ∀ s : Stmt, ctx.Encloses (s.after Γ)
  | .varDecl name _ | .classDecl name _ => h.declare name.lexeme
  | .funDecl r => h.declare r.name.lexeme
  | .exprStmt _ | .printStmt _ | .block _ | .ifStmt _ _ _ | .whileStmt _ _ | .forStmt _ _ _ _
  | .returnStmt _ _ => h

theorem afterOption (h : ctx.Encloses Γ) : ∀ o : Option Stmt, ctx.Encloses (Stmt.afterOption Γ o)
  | none => h
  | some s => h.after s

theorem this (kind : Option RoutineKind) (Γ : Scopes) :
    Context.Encloses ⟨kind, true⟩ ([thisName] :: Γ) :=
  fun _ => ⟨0, Scopes.distance?_cons_of_mem (.head _) Γ⟩

end Context.Encloses

/-- A variable is declared, its initial value is walked over, and then it is defined. -/
theorem covers_var {ctx : Context} (hctx : ctx.Encloses Γ) {name : Token} {initial : Option Expr}
    (h : (Stmt.varDecl name initial).Proper) :
    Covers (Scope.stmt ctx (.varDecl name initial)) Γ none (Γ.declare name.lexeme) none
      (Stmt.uses (.varDecl name initial) Γ)
      (Settles (Stmt.uses (.varDecl name initial) Γ) (Expr.thisIdsOption initial)
        fun known => Stmt.Fits known false (.varDecl name initial) Γ) := by
  have hown : Γ.pending name.lexeme ≠ some thisName := fun hown =>
    h.1 (Scopes.mem_pending hown).1.symm
  have hall := (covers_declare name).bind
    ((covers_optional hctx hown initial h.2).bind (covers_define name))
  simp only [List.nil_append, List.append_nil] at hall
  exact hall.imp fun ⟨hlacks, hinitial, _⟩ => hinitial.imp fun hfits => ⟨hlacks, hfits⟩

/-- A declaration enters its name before what it binds the name to. -/
theorem Covers.named {ids : List NodeId} {fits : Recorded → Prop} (name : Token)
    (hx : Covers x (Γ.declare name.lexeme) none (Γ.declare name.lexeme) none us
      (Settles us ids fits)) :
    Covers (do
      declare name
      define name
      x) Γ none (Γ.declare name.lexeme) none us
      (Settles us ids fun known => Γ.Lacks name.lexeme ∧ fits known) :=
  ((covers_declare name).bind ((covers_define name).bind hx)).imp
    fun ⟨hlacks, _, hsettles⟩ => hsettles.imp fun hfits => ⟨hlacks, hfits⟩

/-- A return may be out of place; that does not matter to the names. -/
theorem covers_return {ctx : Context} (hctx : ctx.Encloses Γ) (keyword : Token)
    {value : Option Expr} (h : Expr.OptionProper value) :
    Covers (Scope.stmt ctx (.returnStmt keyword value)) Γ none Γ none (Expr.usesOption Γ none value)
      (Settles (Expr.usesOption Γ none value) (Expr.thisIdsOption value)
        fun known => Expr.OptionFits known false Γ none value) :=
  (((covers_optional hctx nothing_pending value h).unless keyword .returnFromInitializer).unless
    keyword .returnAtTopLevel).imp fun ⟨_, _, hvalue⟩ => hvalue

mutual

/-- **The walk over a statement without faults shows that it fits**, one case for each sort of
statement. -/
theorem covers_stmt : ∀ {ctx : Context} {Γ : Scopes}, ctx.Encloses Γ → ∀ s : Stmt, s.Proper →
    Covers (Scope.stmt ctx s) Γ none (s.after Γ) none (s.uses Γ)
      (Settles (s.uses Γ) s.thisIds fun known => s.Fits known false Γ)
  | _, _, hctx, .exprStmt e, h | _, _, hctx, .printStmt e, h => covers_expr hctx nothing_pending e h
  | _, _, hctx, .varDecl _ _, h => covers_var hctx h
  | _, _, hctx, .block body, h =>
    (covers_stmts (hctx.cons []) body h).within shows_empty (Stmt.tail_afterAll body _)
  | _, Γ, hctx, .ifStmt condition onTrue onFalse, h => by
    have htrue := covers_stmt hctx onTrue h.2.1.2
    rw [Stmt.after_eq h.2.1.1] at htrue
    have hfalse := covers_optionalStmt hctx onFalse h.2.2.2
    rw [Stmt.afterOption_eq h.2.2.1] at hfalse
    refine ((covers_expr hctx nothing_pending condition h.1).bind (htrue.bind hfalse)).imp ?_
    intro ⟨hc, ht, hf⟩
    exact (hc.append (ht.append hf)).imp fun ⟨hc, ht, hf⟩ => ⟨hc, ⟨h.2.1.1, ht⟩, h.2.2.1, hf⟩
  | _, _, hctx, .whileStmt condition body, h => by
    have hbody := covers_stmt hctx body h.2.2
    rw [Stmt.after_eq h.2.1] at hbody
    refine ((covers_expr hctx nothing_pending condition h.1).bind hbody).imp ?_
    intro ⟨hc, hb⟩
    exact (hc.append hb).imp fun ⟨hc, hb⟩ => ⟨hc, h.2.1, hb⟩
  | _, Γ, hctx, .forStmt initial condition increment body, h => by
    -- The other clauses and the body stand behind the declaration of the first clause.
    have hinner := (hctx.cons []).afterOption initial
    have hbody := covers_stmt hinner body h.2.2.2.2
    rw [Stmt.after_eq h.2.2.2.1] at hbody
    have hall := (covers_optionalStmt (hctx.cons []) initial h.1.2).bind
      ((covers_optional hinner nothing_pending condition h.2.1).bind
        ((covers_optional hinner nothing_pending increment h.2.2.1).bind hbody))
    refine (hall.within shows_empty (Stmt.tail_afterOption initial _)).imp ?_
    intro ⟨hi, hc, hn, hb⟩
    exact (hi.append (hc.append (hn.append hb))).imp
      fun ⟨hi, hc, hn, hb⟩ => ⟨⟨h.1.1, hi⟩, hc, hn, h.2.2.2.1, hb⟩
  | _, _, hctx, .returnStmt keyword _, h => covers_return hctx keyword h
  | _, _, hctx, .funDecl r, h => (covers_routine (hctx.declare _) .function r h).named r.name
  | ctx, Γ, hctx, .classDecl name methods, h =>
    ((covers_methods (.this ctx.routine _) methods h).within shows_this rfl).named name

theorem covers_stmts : ∀ {ctx : Context} {Γ : Scopes}, ctx.Encloses Γ → ∀ ss : List Stmt,
    Stmt.AllProper ss →
    Covers (Scope.stmts ctx ss) Γ none (Stmt.afterAll Γ ss) none (Stmt.usesAll ss Γ)
      (Settles (Stmt.usesAll ss Γ) (Stmt.thisIdsAll ss) fun known => Stmt.AllFits known false ss Γ)
  | _, _, _, [], _ => covers_pure.imp fun _ => .nil
  | _, _, hctx, s :: ss, h =>
    ((covers_stmt hctx s h.1).bind (covers_stmts (hctx.after s) ss h.2)).imp
      fun ⟨hs, hss⟩ => hs.append hss

theorem covers_optionalStmt : ∀ {ctx : Context} {Γ : Scopes}, ctx.Encloses Γ →
    ∀ o : Option Stmt, Stmt.OptionProper o →
    Covers (Scope.optionalStmt ctx o) Γ none (Stmt.afterOption Γ o) none (Stmt.usesOption o Γ)
      (Settles (Stmt.usesOption o Γ) (Stmt.thisIdsOption o)
        fun known => Stmt.OptionFits known false o Γ)
  | _, _, _, none, _ => covers_pure.imp fun _ => .nil
  | _, _, hctx, some s, h => covers_stmt hctx s h

/-- A routine opens a scope with its parameters. -/
theorem covers_routine : ∀ {ctx : Context} {Γ : Scopes}, ctx.Encloses Γ →
    ∀ (kind : RoutineKind) (r : Routine), r.Proper →
    Covers (Scope.routine ctx kind r) Γ none Γ none (r.uses Γ)
      (Settles (r.uses Γ) r.thisIds fun known => r.Fits known false Γ)
  | ctx, Γ, hctx, kind, ⟨_, parameters, body⟩, h => by
    have hinner : Context.Encloses { ctx with routine := some kind }
        (parameters.map Token.lexeme :: Γ) := Context.Encloses.cons hctx _
    have hmem : ∀ a, a ∈ (parameters.map Token.lexeme).reverse ++ [] ↔
        a ∈ parameters.map Token.lexeme := by simp
    have hall := ((covers_parameters parameters []).bind
      ((covers_stmts hinner body h).permuted hmem)).within shows_empty (Stmt.tail_afterAll body _)
    exact hall.imp fun ⟨hnodup, hbody⟩ => hbody.imp fun hfits => ⟨hnodup.1, hfits⟩

theorem covers_methods : ∀ {ctx : Context} {Γ : Scopes}, ctx.Encloses Γ → ∀ rs : List Routine,
    Routine.AllProper rs →
    Covers (Scope.methods ctx rs) Γ none Γ none (Routine.usesAll rs Γ)
      (Settles (Routine.usesAll rs Γ) (Routine.thisIdsAll rs)
        fun known => Routine.AllFits known false rs Γ)
  | _, _, _, [], _ => covers_pure.imp fun _ => .nil
  | _, _, hctx, r :: rs, h =>
    ((covers_routine hctx (methodKind r) r h.1).bind (covers_methods hctx rs h.2)).imp
      fun ⟨hr, hrs⟩ => hr.append hrs

end

end Scope

/-! ## The distances of a program -/

open Scope in
/-- **What the walk records of a program without faults fits the whole program.** -/
theorem resolve_settles {ss : List Stmt} (hproper : Stmt.AllProper ss)
    (hfaults : (resolve ss).faults = []) :
    (resolve ss).distances = recorded (Stmt.usesAll ss []) ∧
      Settles (Stmt.usesAll ss []) (Stmt.thisIdsAll ss)
        fun known => Stmt.AllFits known false ss [] := by
  have hctx : Context.Encloses ⟨none, false⟩ [] := nofun
  obtain ⟨new, hnew, hclean⟩ := (covers_stmts hctx ss hproper).clean (w := ⟨[], [], []⟩) rfl
  have hnil : new = [] := hnew.symm.trans hfaults
  obtain ⟨hfound, hsettles⟩ := hclean hnil
  refine ⟨?_, hsettles⟩
  rw [List.append_nil] at hfound
  exact (congrArg List.reverse hfound).trans (List.reverse_reverse _)

namespace Scope

/-- Recorded is what has a distance. -/
theorem mem_recorded {us : List Use} {id : NodeId} {d : Nat} :
    (id, d) ∈ recorded us ↔ (id, some d) ∈ us := by
  simp only [recorded, List.mem_filterMap, Option.map_eq_some_iff, Prod.mk.injEq]
  constructor
  · rintro ⟨⟨i, o⟩, hmem, d', rfl, rfl, rfl⟩
    exact hmem
  · exact fun hmem => ⟨(id, some d), hmem, d, rfl, rfl, rfl⟩

theorem mem_map_fst_recorded {us : List Use} {id : NodeId} (h : id ∈ (recorded us).map Prod.fst) :
    ∃ d, (id, some d) ∈ us := by
  obtain ⟨⟨i, d⟩, hmem, rfl⟩ := List.mem_map.mp h
  exact ⟨d, mem_recorded.mp hmem⟩

/-- No use is recorded twice. -/
theorem recorded_distinct {us : List Use} (h : (us.map Prod.fst).Nodup) :
    (recorded us).Pairwise fun a b => ¬ compare a.1 b.1 = .eq := by
  refine List.Pairwise.filterMap _ ?_ (List.pairwise_map.mp h)
  intro u v hne a ha b hb heq
  obtain ⟨d, _, rfl⟩ := Option.map_eq_some_iff.mp ha
  obtain ⟨d', _, rfl⟩ := Option.map_eq_some_iff.mp hb
  exact hne (Std.LawfulEqOrd.compare_eq_iff_eq.mp heq)

/-- A table that new uses are entered into has just their distances. -/
theorem getElem?_insertMany_recorded {us : List Use} (hnodup : (us.map Prod.fst).Nodup)
    {D : Std.TreeMap NodeId Nat} (hfresh : ∀ u ∈ us, D[u.1]? = none) {u : Use} (hu : u ∈ us) :
    (D.insertMany (recorded us))[u.1]? = u.2 := by
  obtain ⟨id, d⟩ := u
  cases d with
  | none =>
    rw [Std.TreeMap.getElem?_insertMany_list_of_contains_eq_false, hfresh _ hu]
    rw [List.contains_eq_mem, decide_eq_false_iff_not]
    intro hmem
    obtain ⟨d, hd⟩ := mem_map_fst_recorded hmem
    cases List.inj_on_of_nodup_map hnodup hu hd rfl
  | some d =>
    exact Std.TreeMap.getElem?_insertMany_list_of_mem Std.ReflCmp.compare_self
      (recorded_distinct hnodup) (mem_recorded.mpr hu)

/-- A table is not changed at the ids that are not used. -/
theorem getElem?_insertMany_recorded_of_not_mem {us : List Use} {D : Std.TreeMap NodeId Nat}
    {id : NodeId} (h : id ∉ us.map Prod.fst) : (D.insertMany (recorded us))[id]? = D[id]? := by
  refine Std.TreeMap.getElem?_insertMany_list_of_contains_eq_false ?_
  rw [List.contains_eq_mem, decide_eq_false_iff_not]
  intro hmem
  obtain ⟨d, hd⟩ := mem_map_fst_recorded hmem
  exact h (List.mem_map.mpr ⟨_, hd, rfl⟩)

end Scope

/-- Each use of a name in a program has its distance in a table into which the distances of the
program were entered. -/
theorem uses_entered {ss : List Stmt} (hproper : Stmt.AllProper ss)
    (hfaults : (resolve ss).faults = []) {first limit : NodeId}
    (hids : Numbered first limit (Stmt.idsAll ss)) {D : Std.TreeMap NodeId Nat}
    (hfresh : ∀ id, first ≤ id → D[id]? = none) :
    ∀ u ∈ Stmt.usesAll ss [], u.1 < limit ∧ (D.insertMany (resolve ss).distances)[u.1]? = u.2 := by
  have hmap : (Stmt.usesAll ss []).map Prod.fst = Stmt.idsAll ss := Stmt.map_fst_usesAll ss []
  have hbounds : ∀ u ∈ Stmt.usesAll ss [], first ≤ u.1 ∧ u.1 < limit := fun u hu =>
    hids.bounds u.1 (hmap ▸ List.mem_map_of_mem hu)
  intro u hu
  rw [(resolve_settles hproper hfaults).1]
  exact ⟨(hbounds u hu).2, Scope.getElem?_insertMany_recorded (hmap ▸ hids.nodup)
    (fun u hu => hfresh _ (hbounds u hu).1) hu⟩

/-- The distances of a program, entered into a table of those known before, are all that its
statements need. -/
structure Enters (ss : List Stmt) (first limit : NodeId) (D D' : Std.TreeMap NodeId Nat) :
    Prop where
  fits : Stmt.AllFits (fun id d => id < limit ∧ D'[id]? = d) false ss []
  this : ∀ id ∈ Stmt.thisIdsAll ss, ∃ d, D'[id]? = some d
  older : ∀ id, id < first → D'[id]? = D[id]?
  newer : ∀ id, limit ≤ id → D'[id]? = none

/-- **The distances found without a fault fit.** -/
theorem enters_resolve {ss : List Stmt} (hproper : Stmt.AllProper ss)
    (hfaults : (resolve ss).faults = []) {first limit : NodeId}
    (hids : Numbered first limit (Stmt.idsAll ss)) {D : Std.TreeMap NodeId Nat}
    (hfresh : ∀ id, first ≤ id → D[id]? = none) :
    Enters ss first limit D (D.insertMany (resolve ss).distances) := by
  obtain ⟨hdistances, hsettles⟩ := resolve_settles hproper hfaults
  have hentered := uses_entered hproper hfaults hids hfresh
  have hother : ∀ id, id ∉ Stmt.idsAll ss →
      (D.insertMany (resolve ss).distances)[id]? = D[id]? := fun id hid => by
    rw [hdistances]
    exact Scope.getElem?_insertMany_recorded_of_not_mem ((Stmt.map_fst_usesAll ss []) ▸ hid)
  refine ⟨hsettles.fits hentered, fun id hid => ?_, fun id hid => hother id fun hmem => ?_,
    fun id hid => ?_⟩
  · obtain ⟨d, hd⟩ := hsettles.this id hid
    exact ⟨d, (hentered _ hd).2⟩
  · exact Nat.not_lt_of_le (hids.bounds id hmem).1 hid
  · rw [hother id fun hmem => Nat.not_lt_of_le hid (hids.bounds id hmem).2]
    exact hfresh id (Nat.le_trans hids.le hid)

end LoxLang
