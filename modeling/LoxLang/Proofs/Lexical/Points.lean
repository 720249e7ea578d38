import Mathlib
import LoxLang.Proofs.Lexical.Session

/-!
# Proofs/Lexical/Points — every point of a session

The calls that a run makes are its points. At every point the call fits the frames of its machine
(`Sound`), since each call is made behind others that keep machines corresponding to states. Host
functions may make calls too, and whatever a host does that leaves the scopes alone can be followed
(`hostSimulates_of_leavesScopes`).

The main result is `names_always_found`: at every point of every session, a name with a recorded
distance is bound in the frame that many steps up.
-/

namespace LoxLang

/-! ## Host functions -/

namespace Lexical

variable {W W' : World} {m m' : Machine} {s : State} {hand hand' : Hand} {host : Host}
  {natives : Natives} {n : Nat} {safe : Nat → Task → Machine → Prop}

/-- What is in hand: values with a counterpart, and ids that are not recorded. -/
structure InHand (W : World) (hand : Hand) : Prop where
  values : ∀ v ∈ hand.values, ∃ v', Same false W v v'
  ids : ∀ id ∈ hand.ids, W.Records id none

namespace InHand

/-- What is in hand has a counterpart in every later world. -/
theorem mono (hW : W.Grows W') (h : InHand W hand) : InHand W' hand where
  values v hv := by
    obtain ⟨v', hsame⟩ := h.values v hv
    exact ⟨v', hsame.mono hW⟩
  ids id hid := hW.records id none (h.ids id hid)

/-- A value with a counterpart may be taken in hand. -/
theorem hold {v v' : Value} (h : InHand W hand) (hv : Same false W v v') :
    InHand W (hand.hold v) where
  values := List.forall_mem_cons.mpr ⟨⟨v', hv⟩, h.values⟩
  ids := h.ids

/-- An expression whose ids are in hand takes all its names as globals. -/
theorem fits (h : InHand W hand) {e : Expr} (howns : hand.Owns e) :
    e.Fits W.Records false [] none :=
  Expr.fits_nil fun id hid => h.ids id (howns id hid)

end InHand

/-- **Every step of a host function can be followed.** -/
theorem hostStep_followed (ih : SimulatesAt false safe host natives n)
    (hstep : HostStep (LoxLang.evaluate host n) hand m hand' m') (hrel : Related false W m s)
    (hhand : InHand W hand) :
    ∃ W' s', W.Extends none W' ∧ Related false W' m' s' ∧ InHand W' hand' := by
  cases hstep with
  | constant c => exact ⟨W, s, .refl _ W, hrel, hhand.hold (.constant c)⟩
  | host id f => exact ⟨W, s, .refl _ W, hrel, hhand.hold (.host id f)⟩
  | read h =>
    obtain ⟨v', hv⟩ := hrel.exists_same h
    exact ⟨W, s, .refl _ W, hrel, hhand.hold hv⟩
  | readField h =>
    obtain ⟨v', -, hv⟩ := optionRel_some (hrel.field? _ _) h
    exact ⟨W, s, .refl _ W, hrel, hhand.hold hv⟩
  | print sink =>
    exact ⟨W, { s with sink }, .refl _ W, { hrel with sink := rfl }, hhand⟩
  | clock clockReads =>
    exact ⟨W, { s with clockReads }, .refl _ W, { hrel with clockReads := rfl }, hhand⟩
  | @takeObjects nextObject =>
    exact ⟨W, { s with nextObject }, .refl _ W, { hrel with nextObject := rfl }, hhand⟩
  | @takeIds nextId hle =>
    -- New ids are beyond all recorded ones: names that are read with them are global.
    have hW : W.Extends none (W.note nextId W.distance) :=
      ⟨World.grows_note (hrel.nextId ▸ hle) fun _ _ => rfl, rfl, fun _ _ _ => rfl⟩
    refine ⟨_, s, hW, hrel.skipIds hle, (hhand.mono hW.toGrows).values, fun id hid => ?_⟩
    rcases List.mem_append.mp hid with hnew | hold
    · obtain ⟨hfirst, hlimit⟩ := List.mem_range'_1.mp hnew
      rw [Nat.add_sub_cancel' hle] at hlimit
      exact ⟨hlimit, hrel.unrecorded id (hrel.nextId ▸ hfirst)⟩
    · exact (hhand.mono hW.toGrows).ids id hold
  | defineGlobal x h =>
    obtain ⟨v', hv⟩ := hhand.values _ h
    have hrel' := hrel.writeGlobal x hv
    rw [← hrel.globals] at hrel'
    exact ⟨W, _, .refl _ W, hrel', hhand⟩
  | write hbound h =>
    obtain ⟨v', hv⟩ := hhand.values _ h
    obtain ⟨s', hrel'⟩ := hrel.write hbound hv
    exact ⟨W, s', .refl _ W, hrel', hhand⟩
  | writeField r x h =>
    obtain ⟨v', hv⟩ := hhand.values _ h
    exact ⟨W, _, .refl _ W, hrel.setField r x hv, hhand⟩
  | evaluated howns h =>
    obtain ⟨W', s', v', hW, hrel', hv⟩ := (ih.evaluate (.global W) (hhand.fits howns) hrel).of_ok h
    exact ⟨W', s', hW, hrel', (hhand.mono hW.toGrows).hold hv⟩
  | caught howns h =>
    obtain ⟨-, W', s', hW, hrel'⟩ := (ih.evaluate (.global W) (hhand.fits howns) hrel).of_error h
    exact ⟨W', s', hW, hrel', hhand.mono hW.toGrows⟩

/-- **Whatever a host function does with what it has in hand can be followed.** The induction is on
its path. -/
theorem hostPath_followed (ih : SimulatesAt false safe host natives n)
    (hpath : HostPath (LoxLang.evaluate host n) hand m hand' m') (hrel : Related false W m s)
    (hhand : InHand W hand) :
    ∃ W' s', W.Extends none W' ∧ Related false W' m' s' ∧ InHand W' hand' := by
  induction hpath with
  | refl => exact ⟨W, s, .refl _ W, hrel, hhand⟩
  | step _ hstep hfollowed =>
    obtain ⟨W₁, s₁, hW₁, hrel₁, hhand₁⟩ := hfollowed
    obtain ⟨W₂, s₂, hW₂, hrel₂, hhand₂⟩ := hostStep_followed ih hstep hrel₁ hhand₁
    exact ⟨W₂, s₂, hW₁.trans hW₂, hrel₂, hhand₂⟩

/-- A host function starts with its arguments in hand. -/
theorem inHand_arguments {arguments arguments' : List Value}
    (h : List.Forall₂ (Same false W) arguments arguments') : InHand W ⟨arguments, []⟩ where
  values v hv := by
    induction h with
    | nil => cases hv
    | cons hsame _ ih =>
      rcases List.mem_cons.mp hv with rfl | hv
      · exact ⟨_, hsame⟩
      · exact ih hv
  ids := nofun

/-- **A host that leaves the scopes alone keeps machines corresponding to states.** -/
theorem hostSimulates_of_leavesScopes (hhost : host.LeavesScopes) (natives : Natives) :
    HostSimulates false (fun _ _ _ => False) host natives where
  closed := ⟨fun h => h.elim, fun h => h.elim⟩
  invoke n ih W id f line arguments arguments' m s harguments hrel := by
    have hhand := inHand_arguments harguments
    have hends := hhost f.entry (LoxLang.evaluate host n) arguments m
    unfold Follows
    generalize host f.entry (LoxLang.evaluate host n) arguments m = out at hends ⊢
    cases hends with
    | gives hpath hv =>
      obtain ⟨W', s', hW, hrel', hhand'⟩ := hostPath_followed ih hpath hrel hhand
      obtain ⟨v', hsame⟩ := hhand'.values _ hv
      exact ⟨.ok (.ok v') s', nofun, .ok hW hrel' (.ok hsame)⟩
    | refuses hpath message =>
      obtain ⟨W', s', hW, hrel', -⟩ := hostPath_followed ih hpath hrel hhand
      exact ⟨.ok (.error message) s', nofun, .ok hW hrel' (.error message)⟩
    | @stops _ _ _ _ stop hpath howns hstop =>
      obtain ⟨W₁, s₁, hW₁, hrel₁, hhand₁⟩ := hostPath_followed ih hpath hrel hhand
      obtain ⟨hmiss, W₂, s₂, hW₂, hrel₂⟩ :=
        (ih.evaluate (.global W₁) (hhand₁.fits howns) hrel₁).of_error hstop
      exact ⟨.error stop s₂, nofun, .error hmiss (hW₁.trans hW₂) hrel₂⟩

end Lexical

/-! ## Calls that fit the frames -/

section

variable {known : Recorded} {tidy : Bool} {Γ : Scopes} {own : Option String} {e : Expr}

/-- The first part of an expression fits where the expression does. -/
theorem Expr.Fits.first {e₁ : Expr} (h : e.Fits known tidy Γ own) (hfirst : e.first = some e₁) :
    e₁.Fits known tidy Γ own := by
  cases e with
  | constant | var | this => cases hfirst
  | grouping | unary | get =>
    cases hfirst
    exact h
  | binary | logical | conditional | assign | call | set =>
    cases hfirst
    exact h.1

theorem Expr.Fits.second {e₂ : Expr} {v : Value} (h : e.Fits known tidy Γ own)
    (hsecond : e.second v = some e₂) : e₂.Fits known tidy Γ own := by
  cases e with
  | binary =>
    cases hsecond
    exact h.2
  | logical =>
    simp only [Expr.second] at hsecond
    split at hsecond <;> cases hsecond
    exact h.2
  | conditional =>
    cases hsecond
    split
    · exact h.2.1
    · exact h.2.2
  | set =>
    simp only [Expr.second] at hsecond
    split at hsecond <;> cases hsecond
    exact h.2
  | _ => cases hsecond

end

namespace Lexical

variable {host : Host} {natives : Natives} {n : Nat} {safe : Nat → Task → Machine → Prop}
  {W W' : World} {m m' : Machine} {s : State} {task task' : Task}

/-- A call that fits the frames. -/
inductive Fitting (W : World) : Task → Prop
  | evaluate {Γ : Scopes} {own : Option String} {names : Names} {e : Expr}
      (hsees : Sees W Γ own names) (hfits : e.Fits W.Records false Γ own) : Fitting W (.evaluate e)
  | evaluateAll {Γ : Scopes} {own : Option String} {names : Names} {es : List Expr}
      (hsees : Sees W Γ own names) (hfits : Expr.AllFits W.Records false Γ own es) :
      Fitting W (.evaluateAll es)
  | invoke {callee callee' : Value} {line : Nat} {arguments arguments' : List Value}
      (hcallee : Same false W callee callee')
      (harguments : List.Forall₂ (Same false W) arguments arguments') :
      Fitting W (.invoke callee line arguments)
  | callClosure {f f' : Closure} {arguments arguments' : List Value}
      (hf : SameFunction false W f f')
      (harguments : List.Forall₂ (Same false W) arguments arguments')
      (hlength : arguments.length = f.arity) : Fitting W (.callClosure f arguments)
  | execute {Γ : Scopes} {place : Place} {s : Stmt} (hstanding : Standing W Γ place)
      (hfits : s.Fits W.Records false Γ) : Fitting W (.execute s)
  | evaluateOptional {Γ : Scopes} {own : Option String} {names : Names} {e : Option Expr}
      (hsees : Sees W Γ own names) (hfits : Expr.OptionFits W.Records false Γ own e) :
      Fitting W (.evaluateOptional e)
  | executeAll {Γ : Scopes} {place : Place} {ss : List Stmt} (hstanding : Standing W Γ place)
      (hfits : Stmt.AllFits W.Records false ss Γ) : Fitting W (.executeAll ss)
  | repeatWhile {Γ : Scopes} {place : Place} {condition increment : Option Expr} {body : Stmt}
      (hstanding : Standing W Γ place)
      (hcondition : Expr.OptionFits W.Records false Γ none condition)
      (hincrement : Expr.OptionFits W.Records false Γ none increment)
      (hplain : body.isDeclaration = false) (hbody : body.Fits W.Records false Γ) :
      Fitting W (.repeatWhile condition increment body)

/-- A machine that corresponds to a state, and a call that fits its frames. -/
def Sound (task : Task) (m : Machine) : Prop :=
  ∃ W s, Related false W m s ∧ Fitting W task

/-- A call's first call fits the same frames. -/
theorem Fitting.first (h : Fitting W task) (hfirst : task.first = some task') :
    Fitting W task' := by
  cases h with
  | @evaluate Γ own names e hsees hfits =>
    obtain ⟨e₁, he₁, rfl⟩ := Option.map_eq_some_iff.mp hfirst
    exact .evaluate hsees (hfits.first he₁)
  | @evaluateAll _ _ _ es hsees hfits =>
    cases es with
    | nil => cases hfirst
    | cons e es =>
      cases hfirst
      exact .evaluate hsees hfits.1
  | invoke | callClosure => cases hfirst
  | @execute Γ _ s hstanding hfits =>
    cases s with
    | exprStmt e | printStmt e =>
      cases hfirst
      exact .evaluate (e := e) hstanding.sees hfits
    | varDecl name initial =>
      cases hfirst
      exact .evaluateOptional (hstanding.sees_initial hfits.1) hfits.2
    | ifStmt =>
      cases hfirst
      exact .evaluate hstanding.sees hfits.1
    | whileStmt condition body =>
      cases hfirst
      have hcondition : Expr.OptionFits W.Records false Γ none (some condition) := hfits.1
      exact .repeatWhile hstanding hcondition trivial hfits.2.1 hfits.2.2
    | returnStmt keyword value =>
      cases hfirst
      exact .evaluateOptional (e := value) hstanding.sees hfits
    | _ => cases hfirst
  | @evaluateOptional _ _ _ e hsees hfits =>
    cases e with
    | none => cases hfirst
    | some e =>
      cases hfirst
      exact .evaluate (e := e) hsees hfits
  | @executeAll _ _ ss hstanding hfits =>
    cases ss with
    | nil => cases hfirst
    | cons s ss =>
      cases hfirst
      exact .execute hstanding hfits.1
  | @repeatWhile _ _ condition _ _ hstanding hcondition =>
    cases condition with
    | none => cases hfirst
    | some e =>
      cases hfirst
      exact .evaluate (e := e) hstanding.sees hcondition

/-- An expression that may be left out leaves the scopes as they are. -/
theorem evaluateIfAny_followed (ih : SimulatesAt false safe host natives n) {Γ : Scopes}
    {names : Names} {e : Option Expr} {v : Option Value} (hsees : Sees W Γ none names)
    (hfits : Expr.OptionFits W.Records false Γ none e) (hrel : Related false W m s)
    (h : LoxLang.evaluateIfAny host n e m = .ok v m') :
    ∃ W' s', W.Extends none W' ∧ Related false W' m' s' := by
  obtain ⟨W', s', -, hW, hrel', -⟩ := (follows_evaluateIfAny ih hsees hfits hrel).of_ok h
  exact ⟨W', s', hW, hrel'⟩

/-- A round of a loop ends where it began. -/
theorem round_followed (ih : SimulatesAt false safe host natives n) {Γ : Scopes} {place : Place}
    {condition : Option Expr} {body : Stmt} {v : Option Value} {m'' : Machine}
    (hstanding : Standing W Γ place)
    (hcondition : Expr.OptionFits W.Records false Γ none condition)
    (hplain : body.isDeclaration = false) (hbody : body.Fits W.Records false Γ)
    (hrel : Related false W m s) (h : LoxLang.evaluateIfAny host n condition m = .ok v m')
    (h' : LoxLang.execute host n body m' = .ok .normal m'') :
    ∃ W' s', W.Grows W' ∧ Related false W' m'' s' ∧ Standing W' Γ place := by
  obtain ⟨W₁, s₁, hW₁, hrel₁⟩ := evaluateIfAny_followed ih hstanding.sees hcondition hrel h
  have hstanding₁ := hstanding.mono hW₁
  obtain ⟨W₂, s₂, _, hW₂, hrel₂, -, hnext⟩ :=
    (ih.execute hstanding₁ (hbody.mono hW₁.records) hrel₁).of_ok h'
  rw [Stmt.after_eq hplain] at hnext
  exact ⟨W₂, s₂, hW₁.toGrows.trans hW₂.toGrows, hrel₂,
    hstanding₁.rejoin hW₂.toGrows hW₂.scope hnext⟩

/-- An initializer is called as a method of the new instance. -/
theorem initializer_followed {c c' : Class} {method bound : Closure} (hc : SameClass false W c c')
    (hmethod : c.methods[initializerName]? = some method) (hrel : Related false W m s)
    (h : (Eval.newInstance c >>= Eval.bindMethod method) m = .ok bound m') :
    ∃ W' s' bound', W.Extends none W' ∧ Related false W' m' s' ∧
      SameFunction false W' bound bound' ∧ bound.routine = method.routine := by
  obtain ⟨method', -, hf⟩ := optionRel_some (hc.methods initializerName) hmethod
  have hbind : Simulates false none W
      (fun W' g g' => SameFunction false W' g g' ∧ g.routine = method.routine)
      (Eval.newInstance c >>= Eval.bindMethod method)
      (Run.newInstance c' >>= Run.bindMethod method') := by
    refine (simulates_newInstance hc).bind fun hW hr => ?_
    subst hr
    exact simulates_bindMethod (hf.mono hW.toGrows) _
  obtain ⟨W', s', bound', hW, hrel', hbound⟩ := (hbind hrel).of_ok h
  exact ⟨W', s', bound', hW, hrel', hbound⟩

/-- **Every call is made on a machine whose frames it fits.** -/
theorem Sound.calls (ih : SimulatesAt false safe host natives n)
    (hcalls : Calls host n task m task' m') (hsound : Sound task m) : Sound task' m' := by
  obtain ⟨W, s, hrel, hfitting⟩ := hsound
  -- What ran before the new call is followed by `ih`; the new call fits the world that it came to.
  cases hcalls with
  | first h => exact ⟨W, s, hrel, hfitting.first h⟩
  | second hfirst h hsecond =>
    cases hfitting with
    | evaluate hsees hfits =>
      obtain ⟨W', s', _, hW, hrel', -⟩ := (ih.evaluate hsees (hfits.first hfirst) hrel).of_ok h
      exact ⟨W', s', hrel', .evaluate (hsees.mono hW) ((hfits.second hsecond).mono hW.records)⟩
  | arguments h =>
    cases hfitting with
    | evaluate hsees hfits =>
      obtain ⟨W', s', _, hW, hrel', -⟩ := (ih.evaluate hsees hfits.1 hrel).of_ok h
      exact ⟨W', s', hrel', .evaluateAll (hsees.mono hW) (hfits.2.mono hW.records)⟩
  | invoke h h' =>
    cases hfitting with
    | evaluate hsees hfits =>
      obtain ⟨W₁, s₁, _, hW₁, hrel₁, hf⟩ := (ih.evaluate hsees hfits.1 hrel).of_ok h
      obtain ⟨W₂, s₂, _, hW₂, hrel₂, hvs⟩ :=
        (ih.evaluateAll (hsees.mono hW₁) (hfits.2.mono hW₁.records) hrel₁).of_ok h'
      exact ⟨W₂, s₂, hrel₂, .invoke (hf.mono hW₂.toGrows) hvs⟩
  | evaluateRest h =>
    cases hfitting with
    | evaluateAll hsees hfits =>
      obtain ⟨W', s', _, hW, hrel', -⟩ := (ih.evaluate hsees hfits.1 hrel).of_ok h
      exact ⟨W', s', hrel', .evaluateAll (hsees.mono hW) (hfits.2.mono hW.records)⟩
  | host _ h howns =>
    cases hfitting with
    | invoke _ harguments =>
      obtain ⟨W', s', -, hrel', hhand⟩ :=
        hostPath_followed ih h hrel (inHand_arguments harguments)
      exact ⟨W', s', hrel', .evaluate (.global W') (hhand.fits howns)⟩
  | function hlength =>
    cases hfitting with
    | invoke hcallee harguments =>
      obtain ⟨f', hf⟩ := hcallee.of_function
      exact ⟨W, s, hrel, .callClosure hf harguments hlength⟩
  | initializer hlength hmethod h =>
    cases hfitting with
    | invoke hcallee harguments =>
      obtain ⟨c', hc⟩ := hcallee.of_cls
      obtain ⟨W', s', bound', hW, hrel', hbound, hroutine⟩ :=
        initializer_followed hc hmethod hrel h
      refine ⟨W', s', hrel', .callClosure hbound (forall₂_mono hW.toGrows harguments) ?_⟩
      rw [hlength, Class.arity, hmethod, Closure.arity, hroutine]
      rfl
  | body =>
    cases hfitting with
    | callClosure hf harguments hlength =>
      obtain ⟨Γ, ⟨-, -, names, -, hscoped⟩, hfits, -⟩ := hf
      obtain ⟨hnodup, hbody⟩ := Routine.fits_iff.mp hfits
      obtain ⟨W₁, names₁, s₁, -, hW₁, -, hrel₁, hstanding⟩ :=
        hrel.callFrame hscoped hnodup harguments hlength
      exact ⟨W₁, s₁, hrel₁, .executeAll hstanding (hbody.mono hW₁.records)⟩
  | @block ss _ =>
    cases hfitting with
    | @execute Γ _ _ hstanding hfits =>
      have hss : Stmt.AllFits W.Records false ss ([] :: Γ) := hfits
      exact ⟨_, s, hrel.inside, .executeAll (hstanding.block hrel) hss⟩
  | onTrue h _ =>
    cases hfitting with
    | execute hstanding hfits =>
      obtain ⟨hcondition, ⟨-, htrue⟩, -⟩ := hfits
      obtain ⟨W', s', _, hW, hrel', -⟩ := (ih.evaluate hstanding.sees hcondition hrel).of_ok h
      exact ⟨W', s', hrel', .execute (hstanding.mono hW) (htrue.mono hW.records)⟩
  | @onFalse _ _ onFalse _ _ _ h _ =>
    cases hfitting with
    | @execute Γ _ _ hstanding hfits =>
      obtain ⟨hcondition, -, -, hfalse⟩ := hfits
      have hfalse : onFalse.Fits W.Records false Γ := hfalse
      obtain ⟨W', s', _, hW, hrel', -⟩ := (ih.evaluate hstanding.sees hcondition hrel).of_ok h
      exact ⟨W', s', hrel', .execute (hstanding.mono hW) (hfalse.mono hW.records)⟩
  | @forInitial initial _ _ _ _ =>
    cases hfitting with
    | @execute Γ _ _ hstanding hfits =>
      have hinitial : initial.Fits W.Records false ([] :: Γ) := hfits.1.2
      exact ⟨_, s, hrel.inside, .execute (hstanding.block hrel) hinitial⟩
  | @forLoop initial _ _ _ _ _ _ h =>
    cases hfitting with
    | @execute Γ _ _ hstanding hfits =>
      obtain ⟨⟨_, hinitial⟩, hcondition, hincrement, hplain, hbody⟩ := hfits
      have hinitial : initial.Fits W.Records false ([] :: Γ) := hinitial
      obtain ⟨W', s', _, hW, hrel', -, hnext⟩ :=
        (ih.execute (hstanding.block hrel) hinitial hrel.inside).of_ok h
      exact ⟨W', s', hrel', .repeatWhile hnext (hcondition.mono hW.records)
        (hincrement.mono hW.records) hplain (hbody.mono hW.records)⟩
  | loop =>
    cases hfitting with
    | execute hstanding hfits =>
      obtain ⟨-, hcondition, hincrement, hplain, hbody⟩ := hfits
      exact ⟨_, s, hrel.inside,
        .repeatWhile (hstanding.block hrel) hcondition hincrement hplain hbody⟩
  | executeRest h =>
    cases hfitting with
    | executeAll hstanding hfits =>
      obtain ⟨W', s', _, hW, hrel', -, hnext⟩ := (ih.execute hstanding hfits.1 hrel).of_ok h
      exact ⟨W', s', hrel', .executeAll hnext (hfits.2.mono hW.records)⟩
  | round h _ =>
    cases hfitting with
    | repeatWhile hstanding hcondition _ _ hbody =>
      obtain ⟨W', s', hW, hrel'⟩ := evaluateIfAny_followed ih hstanding.sees hcondition hrel h
      exact ⟨W', s', hrel', .execute (hstanding.mono hW) (hbody.mono hW.records)⟩
  | @increment _ e _ _ _ _ _ h _ h' =>
    cases hfitting with
    | @repeatWhile Γ _ _ _ _ hstanding hcondition hincrement hplain hbody =>
      obtain ⟨W', s', hW, hrel', hback⟩ :=
        round_followed ih hstanding hcondition hplain hbody hrel h h'
      have he : e.Fits W.Records false Γ none := hincrement
      exact ⟨W', s', hrel', .evaluate hback.sees (he.mono hW.records)⟩
  | again h _ h' h'' =>
    cases hfitting with
    | repeatWhile hstanding hcondition hincrement hplain hbody =>
      obtain ⟨W₁, s₁, hW₁, hrel₁, hback⟩ :=
        round_followed ih hstanding hcondition hplain hbody hrel h h'
      obtain ⟨W₂, s₂, hW₂, hrel₂⟩ :=
        evaluateIfAny_followed ih hback.sees (hincrement.mono hW₁.records) hrel₁ h''
      have hW := hW₁.trans hW₂.toGrows
      exact ⟨W₂, s₂, hrel₂, .repeatWhile (hback.mono hW₂) (hcondition.mono hW.records)
        (hincrement.mono hW.records) hplain (hbody.mono hW.records)⟩

/-- **At every call that a sound call comes to, the call is sound.** -/
theorem Sound.visits (hhost : HostSimulates false safe host natives) {fuel : Nat}
    (hvisits : Visits host fuel task m n task' m') (hsound : Sound task m) : Sound task' m' := by
  induction hvisits with
  | refl => exact hsound
  | @step n _ _ _ _ _ hcalls ih => exact ih.calls (simulatesAt hhost n) hcalls

/-! ## What holds at a point -/

/-- Nothing is looked for in a frame that is not there, and a name with a recorded distance is found
in the frame that many steps up. -/
structure Secure (host : Host) (n : Nat) (task : Task) (m : Machine) : Prop where
  present : ∀ {stop m'}, task.run host n m = .error stop m' → ¬ stop.MissesScope
  found : ∀ {e id name d}, task = .evaluate e → e.Uses id name → m.distances[id]? = some d →
    ∃ r v, m.store.up? d m.scope = some r ∧ m.store.local? r name.lexeme = some v ∧
      (0 < n → LoxLang.evaluate host n e m = .ok v m)

/-- A call that fits can be followed. -/
theorem Fitting.follows (hat : SimulatesAt false safe host natives n) (h : Fitting W task)
    (hrel : Related false W m s) :
    ∃ (exact : Prop) (o : Option FrameRef) (y : Run Unit),
      Follows exact false o W (fun _ _ _ => True) (task.run host n) m y s := by
  cases h with
  | evaluate hsees hfits => exact ⟨_, _, _, (hat.evaluate hsees hfits hrel).discard⟩
  | evaluateAll hsees hfits => exact ⟨_, _, _, (hat.evaluateAll hsees hfits hrel).discard⟩
  | invoke hcallee harguments =>
    exact ⟨_, _, _, (hat.invoke hcallee harguments hrel).discard⟩
  | callClosure hf harguments hlength =>
    exact ⟨_, _, _, (hat.callClosure hf harguments hlength hrel).discard⟩
  | execute hstanding hfits => exact ⟨_, _, _, (hat.execute hstanding hfits hrel).discard⟩
  | evaluateOptional hsees hfits =>
    exact ⟨_, _, _, (hat.evaluateOptional hsees hfits hrel).discard⟩
  | executeAll hstanding hfits =>
    exact ⟨_, _, _, (hat.executeAll hstanding hfits hrel).discard⟩
  | repeatWhile hstanding hcondition hincrement hplain hbody =>
    exact ⟨_, _, _, (hat.repeatWhile hstanding hcondition hincrement hplain hbody hrel).discard⟩

/-- **A name with a recorded distance is bound in the frame that many steps up**, and reading it
gives its value. -/
theorem uses_found {e : Expr} {id : NodeId} {name : Token} {d : Nat} (hrel : Related false W m s)
    (hfitting : Fitting W (.evaluate e)) (huses : e.Uses id name)
    (hd : m.distances[id]? = some d) :
    ∃ r v, m.store.up? d m.scope = some r ∧ m.store.local? r name.lexeme = some v ∧
      (0 < n → LoxLang.evaluate host n e m = .ok v m) := by
  obtain ⟨Γ, own, names, hsees, hfits⟩ : ∃ Γ own names, Sees W Γ own names ∧
      own ≠ some name.lexeme ∧ W.Records id (Γ.seen own name.lexeme) := by
    cases hfitting with
    | evaluate hsees hfits => cases huses <;> exact ⟨_, _, _, hsees, hfits⟩
  obtain ⟨r, l, v, v', hup, hlocal, -⟩ :=
    hsees.found hfits hrel ((hrel.distances id).symm.trans hd)
  rw [← hrel.scope] at hup
  refine ⟨r, v, hup, hlocal, fun hn => ?_⟩
  obtain ⟨n, rfl⟩ := Nat.exists_eq_succ_of_ne_zero (Nat.ne_of_gt hn)
  cases huses <;> exact lookUp_of_bound hd hup hlocal

/-- A sound call is secure. -/
theorem Sound.secure (hhost : HostSimulates false safe host natives) (h : Sound task m) (n : Nat) :
    Secure host n task m := by
  obtain ⟨W, s, hrel, hfitting⟩ := h
  constructor
  · intro stop m' hstop
    obtain ⟨_, _, _, hfollows⟩ := hfitting.follows (simulatesAt hhost n) hrel
    exact (hfollows.of_error hstop).1
  · intro e id name d he huses hd
    exact uses_found hrel (he ▸ hfitting) huses hd

end Lexical

/-! ## Sessions -/

namespace Lexical

variable {host : Host} {natives : Natives} {safe : Nat → Task → Machine → Prop} {s : Session}
  {source : String} {fuel : Nat}

/-- Every statement that a program comes to is sound. -/
theorem Reaches.sound (hat : SimulatesAt false safe host natives fuel) {ss : List Stmt} {t : Stmt}
    {m m' : Machine} (h : Reaches host fuel ss m t m') :
    ∀ {W place state}, Related false W m state → Standing W [] place →
      Stmt.AllFits W.Records false ss [] → Sound (.execute t) m' := by
  induction h with
  | here => exact fun hrel hstanding hfits => ⟨_, _, hrel, .execute hstanding hfits.1⟩
  | later h _ ih =>
    intro W place state hrel hstanding hfits
    obtain ⟨W', state', out, hW, hrel', -, hnext⟩ := (hat.execute hstanding hfits.1 hrel).of_ok h
    have hrest := hfits.2
    rw [Stmt.after_nil] at hnext hrest
    exact ih hrel' hnext (hrest.mono hW.records)

/-- Every session corresponds to a state. -/
theorem Reached.corresponds (hhost : HostSimulates false safe host natives) (h : s.Reached host) :
    ∃ state, Corresponds false s state := by
  induction h with
  | start recover capacity => exact ⟨_, corresponds_start false recover capacity⟩
  | defineHost _ name arity entry ih =>
    obtain ⟨state, hstate⟩ := ih
    exact ⟨_, hstate.defineHost name arity entry⟩
  | @run s _ fuel source ih =>
    obtain ⟨state, hstate⟩ := ih
    by_cases hexecutes : s.Executes source
    · obtain ⟨out, -, -, hend⟩ := hstate.run hhost hexecutes nofun fuel
      exact ⟨_, hend⟩
    · exact ⟨state, hstate.run_refused host hexecutes fuel⟩
  | @evaluate s _ fuel source ih =>
    obtain ⟨state, hstate⟩ := ih
    cases hread : s.expression? source with
    | none => exact ⟨state, hstate.evaluate_refused host hread fuel⟩
    | some e =>
      obtain ⟨out, -, hend⟩ := hstate.evaluate hhost hread fuel
      exact ⟨_, hend⟩

/-- At every point of a session the call fits the frames. -/
theorem Point.sound (hhost : HostSimulates false safe host natives) {state : State} {n : Nat}
    {task : Task} {m : Machine} (hstate : Corresponds false s state)
    (h : s.Point host source fuel n task m) : Sound task m := by
  cases h with
  | run hexecutes hreaches hvisits =>
    obtain ⟨W, hrel, htop, hfits, -⟩ := hstate.prepared hexecutes.2 nofun
    exact (Reaches.sound (simulatesAt hhost fuel) hreaches hrel (.top htop) hfits).visits hhost
      hvisits
  | evaluate hread hvisits =>
    obtain ⟨W, hrel, -⟩ := hstate
    have hids := numbered_parseExpression (Session.expression?_eq_some.mp hread).2
    have hsound : Sound (.evaluate _) _ := ⟨_, _, hrel.skipIds hids.le,
      .evaluate (.global _) (hrel.fits_skipIds hids.bounds)⟩
    exact hsound.visits hhost hvisits

/-- **Names are always found.** In every session, at every point: nothing is looked for in a frame
that is not there, and a variable or `this` with a recorded distance has a value in the frame just
that many steps up. No program stops for want of a frame; and once a program passed the resolver,
each `this` in it has a distance. -/
theorem names_always_found (hhost : host.LeavesScopes) (h : s.Reached host) (source : String)
    (fuel : Nat) :
    (∀ {n task m}, s.Point host source fuel n task m → Secure host n task m) ∧
    (s.Executes source → ∀ {stop m}, LoxLang.executeProgram host fuel (s.read source).statements
      (s.prepared source) = .error stop m → ¬ stop.MissesScope) ∧
    ((resolve (s.read source).statements).faults = [] →
      ∀ id ∈ Stmt.thisIdsAll (s.read source).statements,
        ∃ d, (s.prepared source).distances[id]? = some d) := by
  have hsimulates := hostSimulates_of_leavesScopes hhost .silent
  obtain ⟨state, hstate⟩ := Reached.corresponds hsimulates h
  refine ⟨fun hpoint => ?_, fun hexecutes stop m hstop => ?_, fun hresolve id hid => ?_⟩
  · exact (Point.sound hsimulates hstate hpoint).secure hsimulates _
  · obtain ⟨W, hrel, htop, hfits, -⟩ := hstate.prepared hexecutes.2 nofun
    have hprogram := follows_executeProgram (simulatesAt hsimulates fuel) (.top htop) hfits hrel
    exact (hprogram.of_error hstop).1
  · obtain ⟨W, hrel, -, -, hthis⟩ := hstate.prepared hresolve nofun
    obtain ⟨d, hd⟩ := hthis id hid
    exact ⟨d, (hrel.distances id).trans hd⟩

/-- A session in which a run failed inside a function, and a program with `this` in a closure. -/
theorem names_always_found_after_fault :
    let host := Library.host fun _ => 0
    let failed := (Session.start true none).run host 20 "fun f() { var x; x.y; } f();"
    let source := "class A { m() { fun g() { return this; } return g(); } } A().m();"
    host.LeavesScopes ∧ failed.2.Reached host ∧ failed.1.status = some .runtimeError ∧
    failed.2.Executes source ∧
    (∀ {n task m}, failed.2.Point host source 20 n task m → Secure host n task m) ∧
    ∀ id ∈ Stmt.thisIdsAll (failed.2.read source).statements,
      ∃ d, (failed.2.prepared source).distances[id]? = some d := by
  intro host failed source
  have hhost : host.LeavesScopes := Library.leavesScopes fun _ => 0
  have hreached : failed.2.Reached host := .run (.start true none) 20 _
  have hstatus : failed.1.status = some .runtimeError := by decide +kernel
  have hexecutes : failed.2.Executes source := by decide +kernel
  -- nothing is evaluated from here on
  clear_value source failed host
  obtain ⟨hsecure, -, hthis⟩ := names_always_found hhost hreached source 20
  exact ⟨hhost, hreached, hstatus, hexecutes, hsecure, hthis hexecutes.2⟩

end Lexical

end LoxLang
