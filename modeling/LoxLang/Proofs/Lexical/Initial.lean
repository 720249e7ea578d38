import Mathlib
import LoxLang.Proofs.Lexical.Points

/-!
# Proofs/Lexical/Initial — assignments inside of an initial value

A local variable may not be read in its own initial value, and the resolver sees to that. It does not
look at assignments: `{ var x = x = true; }` passes, and the assignment is recorded with the distance
of a variable that its frame does not have yet.

The calls made for the parts of an expression (`Parts`) all stand in the scopes of the expression,
with the same variable pending. So at a point of a session it is known which variable is pending
(`Session.InInitialValue`), and an assignment with a recorded distance fails if it is to that
variable, and finds its variable the recorded number of frames up if not
(`assignment_found_unless_initial`).
-/

namespace LoxLang

/-- The call evaluates an expression or parts of one. -/
def Task.isExpression : Task → Bool
  | .evaluate _ | .evaluateAll _ | .evaluateOptional _ => true
  | .invoke _ _ _ | .callClosure _ _ | .execute _ | .executeAll _ | .repeatWhile _ _ _ => false

/-- The calls that a call makes for the parts of its expression, those that they make for theirs,
and so on. No function is entered on the way. -/
inductive Parts (host : Host) (fuel : Nat) (task : Task) (m : Machine) :
    Nat → Task → Machine → Prop
  | refl : Parts host fuel task m fuel task m
  | step {n : Nat} {task₁ task₂ : Task} {m₁ m₂ : Machine}
      (h : Parts host fuel task m (n + 1) task₁ m₁) (hcalls : Calls host n task₁ m₁ task₂ m₂)
      (hpart : task₂.isExpression = true) : Parts host fuel task m n task₂ m₂

/-- The call is made for a part of the initial value of a local variable `x`. -/
def Session.InInitialValue (s : Session) (host : Host) (source : String) (fuel : Nat) (x : String)
    (n : Nat) (task : Task) (m : Machine) : Prop :=
  ∃ k name initial m₀, s.Point host source fuel k (.execute (.varDecl name initial)) m₀ ∧
    m₀.scope ≠ m₀.globals ∧ name.lexeme = x ∧
    Parts host k (.execute (.varDecl name initial)) m₀ n task m

namespace Lexical

variable {host : Host} {natives : Natives} {n : Nat} {safe : Nat → Task → Machine → Prop}
  {W : World} {m m' : Machine} {task task' : Task} {own : Option String}

/-- The expression of a call fits the scopes `Γ`, where the variable `own` is pending. -/
def FitsIn (known : Recorded) (Γ : Scopes) (own : Option String) : Task → Prop
  | .evaluate e => e.Fits known false Γ own
  | .evaluateAll es => Expr.AllFits known false Γ own es
  | .evaluateOptional o => Expr.OptionFits known false Γ own o
  | .invoke _ _ _ | .callClosure _ _ | .execute _ | .executeAll _ | .repeatWhile _ _ _ => False

/-- A machine that corresponds to a state, and a call of which the expression stands in its frames
with the variable `own` pending. -/
def SoundIn (own : Option String) (task : Task) (m : Machine) : Prop :=
  ∃ W s Γ names, Related false W m s ∧ Sees W Γ own names ∧ FitsIn W.Records Γ own task

/-! ## Parts of an expression -/

/-- **The same variable is pending in all parts of an expression.** -/
theorem SoundIn.calls (ih : SimulatesAt false safe host natives n)
    (hcalls : Calls host n task m task' m') (hpart : task'.isExpression = true)
    (h : SoundIn own task m) : SoundIn own task' m' := by
  obtain ⟨W, s, Γ, names, hrel, hsees, hfits⟩ := h
  cases hcalls with
  | first hfirst =>
    refine ⟨W, s, Γ, names, hrel, hsees, ?_⟩
    cases task with
    | evaluate e =>
      obtain ⟨e₁, he₁, rfl⟩ := Option.map_eq_some_iff.mp hfirst
      exact Expr.Fits.first hfits he₁
    | evaluateAll es =>
      cases es with
      | nil => cases hfirst
      | cons e es =>
        cases hfirst
        exact hfits.1
    | evaluateOptional o =>
      cases o with
      | none => cases hfirst
      | some e =>
        cases hfirst
        exact hfits
    | invoke | callClosure | execute | executeAll | repeatWhile => exact hfits.elim
  | second hfirst hvalue hsecond =>
    have hfirst := Expr.Fits.first hfits hfirst
    obtain ⟨W', s', _, hW, hrel', -⟩ := (ih.evaluate hsees hfirst hrel).of_ok hvalue
    exact ⟨W', s', Γ, names, hrel', hsees.mono hW,
      (Expr.Fits.second hfits hsecond).mono hW.records⟩
  | arguments hvalue =>
    obtain ⟨W', s', _, hW, hrel', -⟩ := (ih.evaluate hsees hfits.1 hrel).of_ok hvalue
    exact ⟨W', s', Γ, names, hrel', hsees.mono hW, Expr.AllFits.mono hW.records hfits.2⟩
  | evaluateRest hvalue =>
    obtain ⟨W', s', _, hW, hrel', -⟩ := (ih.evaluate hsees hfits.1 hrel).of_ok hvalue
    exact ⟨W', s', Γ, names, hrel', hsees.mono hW, Expr.AllFits.mono hW.records hfits.2⟩
  | invoke => cases hpart
  | _ => exact hfits.elim

/-! ## Into an expression -/

/-- A statement that is sound stands in the frames of its machine. -/
theorem Sound.standing {t : Stmt} (h : Sound (.execute t) m) : ∃ W s Γ place,
    Related false W m s ∧ Standing W Γ place ∧ t.Fits W.Records false Γ := by
  obtain ⟨W, s, hrel, hfitting⟩ := h
  cases hfitting with
  | execute hstanding hfits => exact ⟨W, s, _, _, hrel, hstanding, hfits⟩

/-- The initial value of a local variable is evaluated with the variable pending. -/
theorem Sound.initial {name : Token} {initial : Option Expr}
    (h : Sound (.execute (.varDecl name initial)) m) (hlocal : m.scope ≠ m.globals) :
    SoundIn (some name.lexeme) (.evaluateOptional initial) m := by
  obtain ⟨W, s, Γ, place, hrel, hstanding, hfits⟩ := h.standing
  have hsees := hstanding.sees_initial hfits.1
  cases hstanding with
  | top htop => exact absurd (hrel.scope.trans (htop.trans hrel.globals.symm)) hlocal
  | inside => exact ⟨W, s, _, _, hrel, hsees, hfits.2⟩

/-- A global variable is not pending in its initial value. -/
theorem Sound.initial_global {name : Token} {initial : Option Expr}
    (h : Sound (.execute (.varDecl name initial)) m) (hglobal : m.scope = m.globals) :
    SoundIn none (.evaluateOptional initial) m := by
  obtain ⟨W, s, Γ, place, hrel, hstanding, hfits⟩ := h.standing
  have hsees := hstanding.sees_initial hfits.1
  cases hstanding with
  | top => exact ⟨W, s, _, _, hrel, hsees, hfits.2⟩
  | inside hscoped =>
    exact absurd (hrel.scope.symm.trans (hglobal.trans hrel.globals)) hscoped.1.2

/-- **Only a declaration of a local variable makes one pending.** -/
theorem Sound.into (ih : SimulatesAt false safe host natives n)
    (hcalls : Calls host n task m task' m')
    (hout : task.isExpression = false) (hpart : task'.isExpression = true) (h : Sound task m) :
    SoundIn none task' m' ∨ ∃ name initial, task = .execute (.varDecl name initial) ∧
      m.scope ≠ m.globals ∧ SoundIn (some name.lexeme) task' m' := by
  cases hcalls with
  | @first _ _ _ hfirst =>
    cases task with
    | execute s =>
      cases s with
      | varDecl name initial =>
        cases hfirst
        by_cases hglobal : m.scope = m.globals
        · exact .inl (h.initial_global hglobal)
        · exact .inr ⟨name, initial, rfl, hglobal, h.initial hglobal⟩
      | exprStmt e | printStmt e =>
        cases hfirst
        obtain ⟨W, s, Γ, place, hrel, hstanding, hfits⟩ := h.standing
        exact .inl ⟨W, s, Γ, _, hrel, hstanding.sees, hfits⟩
      | ifStmt condition onTrue onFalse =>
        cases hfirst
        obtain ⟨W, s, Γ, place, hrel, hstanding, hfits⟩ := h.standing
        exact .inl ⟨W, s, Γ, _, hrel, hstanding.sees, hfits.1⟩
      | returnStmt keyword value =>
        cases hfirst
        obtain ⟨W, s, Γ, place, hrel, hstanding, hfits⟩ := h.standing
        exact .inl ⟨W, s, Γ, _, hrel, hstanding.sees, hfits⟩
      | whileStmt =>
        cases hfirst
        cases hpart
      | block | forStmt | funDecl | classDecl => cases hfirst
    | executeAll ss =>
      cases ss with
      | nil => cases hfirst
      | cons =>
        cases hfirst
        cases hpart
    | repeatWhile condition =>
      cases condition with
      | none => cases hfirst
      | some e =>
        cases hfirst
        obtain ⟨W, s, hrel, hfitting⟩ := h
        cases hfitting with
        | repeatWhile hstanding hcondition =>
          exact .inl ⟨W, s, _, _, hrel, hstanding.sees, hcondition⟩
    | invoke | callClosure => cases hfirst
    | evaluate | evaluateAll | evaluateOptional => cases hout
  | host _ hpath howns =>
    obtain ⟨W, s, hrel, hfitting⟩ := h
    cases hfitting with
    | invoke _ harguments =>
      -- What a host function evaluates has no scopes around it, so nothing is pending there.
      obtain ⟨W', s', -, hrel', hhand⟩ :=
        hostPath_followed ih hpath hrel (inHand_arguments harguments)
      exact .inl ⟨W', s', _, _, hrel', .global W', hhand.fits howns⟩
  | @increment _ e _ _ _ _ _ hvalue _ hbody =>
    obtain ⟨W, s, hrel, hfitting⟩ := h
    cases hfitting with
    | @repeatWhile Γ _ _ _ _ hstanding hcondition hincrement hplain hfits =>
      obtain ⟨W', s', hW, hrel', hback⟩ :=
        round_followed ih hstanding hcondition hplain hfits hrel hvalue hbody
      have he : e.Fits W.Records false Γ none := hincrement
      exact .inl ⟨W', s', Γ, _, hrel', hback.sees, he.mono hW.records⟩
  | second | arguments | evaluateRest => cases hout
  | _ => cases hpart

/-! ## Points of a session -/

variable {s : Session} {source : String} {fuel : Nat}

/-- What is pending at a point is known from the calls that led there. -/
theorem soundIn_of_visits (hhost : HostSimulates false safe host natives) {task₀ : Task}
    {m₀ : Machine}
    (hpoint : ∀ {n task m}, Visits host fuel task₀ m₀ n task m → s.Point host source fuel n task m)
    (hsound : ∀ {n task m}, s.Point host source fuel n task m → Sound task m)
    (hstart : task₀.isExpression = true → SoundIn none task₀ m₀)
    (hvisits : Visits host fuel task₀ m₀ n task m) (hpart : task.isExpression = true) :
    SoundIn none task m ∨
      ∃ x, SoundIn (some x) task m ∧ s.InInitialValue host source fuel x n task m := by
  induction hvisits with
  | refl => exact .inl (hstart hpart)
  | @step n task₁ task₂ m₁ m₂ h hcalls ih =>
    have hat := simulatesAt hhost n
    cases hfrom : task₁.isExpression with
    | true =>
      rcases ih hfrom with hnone | ⟨x, hsome, k, name, initial, m₀, hdecl, hlocal, hx, hparts⟩
      · exact .inl (hnone.calls hat hcalls hpart)
      · exact .inr ⟨x, hsome.calls hat hcalls hpart,
          k, name, initial, m₀, hdecl, hlocal, hx, hparts.step hcalls hpart⟩
    | false =>
      rcases (hsound (hpoint h)).into hat hcalls hfrom hpart with
        hnone | ⟨name, initial, rfl, hlocal, hsome⟩
      · exact .inl hnone
      · exact .inr ⟨name.lexeme, hsome,
          n + 1, name, initial, m₁, hpoint h, hlocal, rfl, Parts.refl.step hcalls hpart⟩

/-- **At every point of a session it is known which variable is pending**: none, or one in whose
initial value the point is. -/
theorem Point.soundIn (hhost : HostSimulates false safe host natives) {state : State}
    (hstate : Corresponds false s state) (h : s.Point host source fuel n task m)
    (hpart : task.isExpression = true) :
    SoundIn none task m ∨
      ∃ x, SoundIn (some x) task m ∧ s.InInitialValue host source fuel x n task m := by
  cases h with
  | run hexecutes hreaches hvisits =>
    exact soundIn_of_visits hhost (.run hexecutes hreaches) (Point.sound hhost hstate) nofun hvisits
      hpart
  | evaluate hread hvisits =>
    refine soundIn_of_visits hhost (.evaluate hread) (Point.sound hhost hstate) (fun _ => ?_)
      hvisits hpart
    obtain ⟨W, hrel, -⟩ := hstate
    have hids := numbered_parseExpression (Session.expression?_eq_some.mp hread).2
    exact ⟨_, _, _, _, hrel.skipIds hids.le, .global _, hrel.fits_skipIds hids.bounds⟩

/-- The variable of an initial value is pending in all of its parts. -/
theorem soundIn_of_inInitialValue (hhost : HostSimulates false safe host natives) {state : State}
    (hstate : Corresponds false s state) {x : String}
    (h : s.InInitialValue host source fuel x n task m) (hpart : task.isExpression = true) :
    SoundIn (some x) task m := by
  obtain ⟨k, name, initial, m₀, hdecl, hlocal, rfl, hparts⟩ := h
  have hinitial := (Point.sound hhost hstate hdecl).initial hlocal
  clear hdecl
  induction hparts with
  | refl => cases hpart
  | @step n task₁ task₂ m₁ m₂ h hcalls hpart₂ ih =>
    cases hfrom : task₁.isExpression with
    | true => exact (ih hfrom).calls (simulatesAt hhost n) hcalls hpart
    | false =>
      -- only the declaration itself is no part of the value
      cases h with
      | refl =>
        cases hcalls with
        | first hfirst =>
          cases hfirst
          exact hinitial
      | step _ _ hpart₁ => rw [hpart₁] at hfrom; cases hfrom

/-! ## Assignments -/

section

variable {id : NodeId} {name : Token} {value : Expr} {v : Value} {d : Nat}

/-- An assignment evaluates its value first. -/
theorem evaluate_assign (hvalue : LoxLang.evaluate host n value m = .ok v m') :
    LoxLang.evaluate host (n + 1) (.assign id name value) m =
      (Eval.assign id name v >>= fun _ => pure v) m' := by
  simp only [LoxLang.evaluate, bind, EStateM.bind, hvalue]

/-- A variable that is bound at its distance is assigned there. -/
theorem assign_of_bound {r : FrameRef} {u : Value} (hd : m.distances[id]? = some d)
    (hup : m.store.up? d m.scope = some r) (hlocal : m.store.local? r name.lexeme = some u) :
    Eval.assign id name v m = .ok () { m with store := m.store.define r name.lexeme v } := by
  have hlocate := Store.locateAt_eq_ok _ _ _ _ hup hlocal
  simp only [Eval.assign, bind, EStateM.bind, get, getThe, MonadStateOf.get, EStateM.get, hd,
    hlocate]
  rfl

/-- A variable that is not bound at its distance is reported as undefined. -/
theorem assign_of_unbound {r : FrameRef} (hd : m.distances[id]? = some d)
    (hup : m.store.up? d m.scope = some r) (hlocal : m.store.local? r name.lexeme = none) :
    Eval.assign id name v m =
      .error (.fault (.runtime name.line (.undefinedVariable name.lexeme))) m := by
  have hlocate := Store.locateAt_eq_error _ _ _ hup hlocal
  simp only [Eval.assign, bind, EStateM.bind, get, getThe, MonadStateOf.get, EStateM.get, hd,
    hlocate]
  rfl

/-- **An assignment to the pending variable fails.** -/
theorem SoundIn.assign_fails (hat : SimulatesAt false safe host natives n)
    (h : SoundIn (some name.lexeme) (.evaluate (.assign id name value)) m)
    (hvalue : LoxLang.evaluate host n value m = .ok v m') :
    LoxLang.evaluate host (n + 1) (.assign id name value) m =
      .error (.fault (.runtime name.line (.undefinedVariable name.lexeme))) m' := by
  obtain ⟨W, s, Γ, names, hrel, hsees, hfits, -, hrecords⟩ := h
  obtain ⟨W', s', _, hW, hrel', -⟩ := (hat.evaluate hsees hfits hrel).of_ok hvalue
  obtain ⟨⟨-, hscope⟩, hfree⟩ := (hsees.mono hW).pending _ rfl
  have hd : m'.distances[id]? = some 0 := by
    rw [hrel'.distances id, (hW.records _ _ hrecords).2, Scopes.seen, if_pos rfl]
  have hlocal := hrel'.local_none hscope hfree
  rw [← hrel'.scope] at hlocal
  rw [evaluate_assign hvalue]
  simp only [bind, EStateM.bind, assign_of_unbound hd (rfl : m'.store.up? 0 m'.scope = _) hlocal]

/-- **Any other assignment with a recorded distance finds its variable there.** -/
theorem SoundIn.assign_writes (hat : SimulatesAt false safe host natives n)
    (h : SoundIn own (.evaluate (.assign id name value)) m) (hown : own ≠ some name.lexeme)
    (hd : m.distances[id]? = some d) (hvalue : LoxLang.evaluate host n value m = .ok v m') :
    ∃ r u, m'.store.up? d m'.scope = some r ∧ m'.store.local? r name.lexeme = some u ∧
      LoxLang.evaluate host (n + 1) (.assign id name value) m =
        .ok v { m' with store := m'.store.define r name.lexeme v } := by
  obtain ⟨W, s, Γ, names, hrel, hsees, hfits, -, hrecords⟩ := h
  obtain ⟨W', s', _, hW, hrel', -⟩ := (hat.evaluate hsees hfits hrel).of_ok hvalue
  have hrecords' := hW.records _ _ hrecords
  have hdist : W'.distance id = some d := by
    rw [hrecords'.2, ← hrecords.2, ← hrel.distances id, hd]
  obtain ⟨r, l, u, -, hup, hlocal, -⟩ := (hsees.mono hW).found ⟨hown, hrecords'⟩ hrel' hdist
  rw [← hrel'.scope] at hup
  refine ⟨r, u, hup, hlocal, ?_⟩
  rw [evaluate_assign hvalue]
  simp only [bind, EStateM.bind, assign_of_bound ((hrel'.distances id).trans hdist) hup hlocal]
  rfl

/-- **Where an assignment finds its variable.** At every point of every session, once the value of
an assignment with a recorded distance is there: if the assignment is made for a part of the initial
value of a local variable of its own name, it fails, since the variable is not bound yet; if not, it
finds the variable in the frame just that many steps up and writes it. -/
theorem assignment_found_unless_initial (hhost : host.LeavesScopes) (h : s.Reached host)
    (hpoint : s.Point host source fuel (n + 1) (.evaluate (.assign id name value)) m)
    (hd : m.distances[id]? = some d) (hvalue : LoxLang.evaluate host n value m = .ok v m') :
    (s.InInitialValue host source fuel name.lexeme (n + 1) (.evaluate (.assign id name value)) m ∧
      LoxLang.evaluate host (n + 1) (.assign id name value) m =
        .error (.fault (.runtime name.line (.undefinedVariable name.lexeme))) m') ∨
    (¬ s.InInitialValue host source fuel name.lexeme (n + 1) (.evaluate (.assign id name value)) m ∧
      ∃ r u, m'.store.up? d m'.scope = some r ∧ m'.store.local? r name.lexeme = some u ∧
        LoxLang.evaluate host (n + 1) (.assign id name value) m =
          .ok v { m' with store := m'.store.define r name.lexeme v }) := by
  have hsimulates := hostSimulates_of_leavesScopes hhost .silent
  obtain ⟨state, hstate⟩ := Reached.corresponds hsimulates h
  have hat := simulatesAt hsimulates n
  by_cases hinitial : s.InInitialValue host source fuel name.lexeme (n + 1)
      (.evaluate (.assign id name value)) m
  · have hsound := soundIn_of_inInitialValue hsimulates hstate hinitial rfl
    exact .inl ⟨hinitial, hsound.assign_fails hat hvalue⟩
  · refine .inr ⟨hinitial, ?_⟩
    rcases Point.soundIn hsimulates hstate hpoint rfl with hnone | ⟨x, hsome, hin⟩
    · exact hnone.assign_writes hat (Option.some_ne_none _).symm hd hvalue
    · refine hsome.assign_writes hat ?_ hd hvalue
      rintro ⟨⟩
      exact hinitial hin

end

/-! ### In the initial value of another variable, and in its own -/

/-- The machine in the block that a program consists of. -/
def inBlock (source : String) : Machine :=
  let m := (Session.start false none).prepared source
  m.inside ∅ m.scope

/-- The calls that the statements of the block make are points of the session. -/
theorem point_of_block {host : Host} {source : String} {ss : List Stmt} {n : Nat} {task : Task}
    {m : Machine} (hexecutes : (Session.start false none).Executes source)
    (hread : ((Session.start false none).read source).statements = [.block ss])
    (hvisits : Visits host 20 (.execute (.block ss)) ((Session.start false none).prepared source)
      n task m) :
    (Session.start false none).Point host source 20 n task m := by
  refine .run hexecutes ?_ hvisits
  rw [hread]
  exact .here

/-- `x = true`, as it is read behind one other use of a name. -/
def assignsX : Expr :=
  .assign 1 ⟨.identifier, "x", none, 1⟩ (.constant (.bool true))

/-- A variable is assigned in the initial value of another. -/
def otherInitial : String := "{ var x; var y = x = true; }"

/-- The machine in the block, behind the declaration of `x`. -/
def behindX : Machine :=
  { inBlock otherInitial with
    store := (inBlock otherInitial).store.define (inBlock otherInitial).scope "x" .nil }

theorem assignment_found_in_other_initial :
    let host := Library.host fun _ => 0
    let s := Session.start false none
    host.LeavesScopes ∧ s.Reached host ∧
    s.Point host otherInitial 20 15 (.evaluate assignsX) behindX ∧
    behindX.distances[1]? = some 0 ∧
    ∃ r u, behindX.store.up? 0 behindX.scope = some r ∧ behindX.store.local? r "x" = some u ∧
      LoxLang.evaluate host 15 assignsX behindX =
        .ok (.bool true) { behindX with store := behindX.store.define r "x" (.bool true) } := by
  intro host s
  have hhost : host.LeavesScopes := Library.leavesScopes fun _ => 0
  have hreached : s.Reached host := .start false none
  have hread : (s.read otherInitial).statements =
      [.block [.varDecl ⟨.identifier, "x", none, 1⟩ none,
        .varDecl ⟨.identifier, "y", none, 1⟩ (some assignsX)]] := by cbv
  have hfirst : LoxLang.execute host 18 (.varDecl ⟨.identifier, "x", none, 1⟩ none)
      (inBlock otherInitial) = .ok .normal behindX := rfl
  have hpoint : s.Point host otherInitial 20 15 (.evaluate assignsX) behindX :=
    point_of_block (by decide +kernel) hread (Visits.refl.step .block |>.step (.executeRest hfirst)
      |>.step (.first rfl) |>.step (.first rfl) |>.step (.first rfl))
  have hd : behindX.distances[1]? = some 0 := by decide +kernel
  have hvalue : LoxLang.evaluate host 14 (.constant (.bool true)) behindX =
      .ok (.bool true) behindX := rfl
  refine ⟨hhost, hreached, hpoint, hd, ?_⟩
  rcases assignment_found_unless_initial hhost hreached hpoint hd hvalue with
    ⟨-, hfails⟩ | ⟨-, hfound⟩
  · -- the variable is there, so the assignment does not fail
    obtain ⟨u, hu⟩ : ∃ u, behindX.store.local? behindX.scope "x" = some u :=
      Option.isSome_iff_exists.mp (by decide +kernel)
    have hassign : Eval.assign 1 ⟨.identifier, "x", none, 1⟩ (.bool true) behindX =
        .ok () { behindX with store := behindX.store.define behindX.scope "x" (.bool true) } :=
      assign_of_bound hd rfl hu
    rw [evaluate_assign hvalue] at hfails
    simp only [bind, EStateM.bind, hassign] at hfails
    cases hfails
  · exact hfound

/-- A variable is assigned in its own initial value. -/
def ownInitial : String := "{ var x = x = true; print x; }"

/-- **A program without scope faults may fail to find a local variable that it assigns**: in its own
initial value the variable is declared, but not bound. -/
theorem assignment_lost_in_own_initial :
    let host := Library.host fun _ => 0
    let s := Session.start false none
    s.Executes ownInitial ∧ (resolve (s.read ownInitial).statements).faults = [] ∧
    s.Point host ownInitial 20 16 (.evaluate assignsX) (inBlock ownInitial) ∧
    (inBlock ownInitial).distances[1]? = some 0 ∧
    LoxLang.evaluate host 16 assignsX (inBlock ownInitial) =
      .error (.fault (.runtime 1 (.undefinedVariable "x"))) (inBlock ownInitial) ∧
    (s.run host 20 ownInitial).1.diagnostics = [.runtime 1 (.undefinedVariable "x")] := by
  intro host s
  have hexecutes : s.Executes ownInitial := by decide +kernel
  have hread : (s.read ownInitial).statements =
      [.block [.varDecl ⟨.identifier, "x", none, 1⟩ (some assignsX),
        .printStmt (.var 2 ⟨.identifier, "x", none, 1⟩)]] := by cbv
  have hd : (inBlock ownInitial).distances[1]? = some 0 := by decide +kernel
  have hlocal : (inBlock ownInitial).store.local? (inBlock ownInitial).scope "x" = none :=
    Option.isNone_iff_eq_none.mp (by decide +kernel)
  refine ⟨hexecutes, hexecutes.2, point_of_block hexecutes hread ?_, hd, ?_, by decide +kernel⟩
  · exact Visits.refl.step .block |>.step (.first rfl) |>.step (.first rfl) |>.step (.first rfl)
  · have hassign : Eval.assign 1 ⟨.identifier, "x", none, 1⟩ (.bool true) (inBlock ownInitial) =
        .error (.fault (.runtime 1 (.undefinedVariable "x"))) (inBlock ownInitial) :=
      assign_of_unbound hd rfl hlocal
    have hvalue : LoxLang.evaluate host 15 (.constant (.bool true)) (inBlock ownInitial) =
        .ok (.bool true) (inBlock ownInitial) := rfl
    rw [assignsX, evaluate_assign hvalue]
    simp only [bind, EStateM.bind, hassign]

end Lexical

end LoxLang
