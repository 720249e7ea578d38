import Mathlib
import LoxLang.Proofs.Lexical.Simulation

/-!
# Proofs/Lexical/Refinement — the machine runs programs with lexical scoping

Every function of the evaluator is followed by the one of the same name (`SimulatesAt`), by one
induction on the fuel. Statements extend the frame that they stand in; expressions and calls leave
all frames that there were before as they are, since a call runs in a frame of its own.

The two go the same way in tidy code, and in a call that loses no assignment (`Loses`), neither
itself nor in the calls that it makes (`Exact`).
-/

namespace LoxLang

/-- **An assignment is lost**: its name has a recorded distance and its value is there, but the
variable is not. -/
inductive Loses (host : Host) : Nat → Task → Machine → Prop
  | intro {n : Nat} {id : NodeId} {name : Token} {value : Expr} {d : Nat} {v : Value}
      {m m' : Machine} (hd : m.distances[id]? = some d)
      (hvalue : evaluate host n value m = .ok v m')
      (h : evaluate host (n + 1) (.assign id name value) m =
        .error (.fault (.runtime name.line (.undefinedVariable name.lexeme))) m') :
      Loses host (n + 1) (.evaluate (.assign id name value)) m

namespace Lexical

variable {tidy : Bool} {safe : Nat → Task → Machine → Prop} {host : Host} {natives : Natives}
  {n : Nat} {W W' : World} {Γ : Scopes} {own : Option String} {names : Names} {place : Place}
  {m m' : Machine} {s : State} {task task' : Task}

/-- How a statement ends, and where the next one stands. -/
def SameEnd (tidy : Bool) (Γ : Scopes) (W : World) (flow : Flow) (out : Flow × Place) : Prop :=
  SameFlow tidy W flow out.1 ∧ Standing W Γ out.2

/-- Calls that lose no assignment, and that make no others, as far as no host function does. -/
structure Safe (host : Host) (safe : Nat → Task → Machine → Prop) : Prop where
  calls : ∀ {n task m task' m'}, safe (n + 1) task m → task.isHost = false →
    Calls host n task m task' m' → safe n task' m'
  found : ∀ {n task m}, safe n task m → ¬ Loses host n task m

/-- In such a call machine and state are known to go the same way. -/
def Exact (tidy : Bool) (safe : Nat → Task → Machine → Prop) (n : Nat) (task : Task)
    (m : Machine) : Prop :=
  tidy = true ∨ safe n task m

/-- The calls that an exact call makes are exact. -/
theorem Safe.exact (hsafe : Safe host safe) (hcalls : Calls host n task m task' m')
    (htask : task.isHost = false) (h : Exact tidy safe (n + 1) task m) :
    Exact tidy safe n task' m' :=
  h.imp_right fun h => hsafe.calls h htask hcalls

/-- With this much fuel every evaluator of the machine can be followed. -/
structure SimulatesAt (tidy : Bool) (safe : Nat → Task → Machine → Prop) (host : Host)
    (natives : Natives) (n : Nat) : Prop where
  evaluate : ∀ {W Γ own names e m s}, Sees W Γ own names → e.Fits W.Records tidy Γ own →
    Related tidy W m s → Follows (Exact tidy safe n (.evaluate e) m) tidy none W (Same tidy)
      (LoxLang.evaluate host n e) m (evaluate natives n names e) s
  evaluateAll : ∀ {W Γ own names es m s}, Sees W Γ own names →
    Expr.AllFits W.Records tidy Γ own es → Related tidy W m s →
    Follows (Exact tidy safe n (.evaluateAll es) m) tidy none W
      (fun W' => List.Forall₂ (Same tidy W')) (LoxLang.evaluateAll host n es) m
      (evaluateAll natives n names es) s
  invoke : ∀ {W f f' line arguments arguments' m s}, Same tidy W f f' →
    List.Forall₂ (Same tidy W) arguments arguments' → Related tidy W m s →
    Follows (Exact tidy safe n (.invoke f line arguments) m) tidy none W (Same tidy)
      (LoxLang.invoke host n f line arguments) m (invoke natives n f' line arguments') s
  callClosure : ∀ {W f f' arguments arguments' m s}, SameFunction tidy W f f' →
    List.Forall₂ (Same tidy W) arguments arguments' → arguments.length = f.arity →
    Related tidy W m s →
    Follows (Exact tidy safe n (.callClosure f arguments) m) tidy none W (Same tidy)
      (LoxLang.callClosure host n f arguments) m (callClosure natives n f' arguments') s
  execute : ∀ {W Γ place t m s}, Standing W Γ place → t.Fits W.Records tidy Γ →
    Related tidy W m s → Follows (Exact tidy safe n (.execute t) m) tidy (some W.scope) W
      (SameEnd tidy (t.after Γ)) (LoxLang.execute host n t) m (execute natives n place t) s
  evaluateOptional : ∀ {W Γ own names e m s}, Sees W Γ own names →
    Expr.OptionFits W.Records tidy Γ own e → Related tidy W m s →
    Follows (Exact tidy safe n (.evaluateOptional e) m) tidy none W (Same tidy)
      (LoxLang.evaluateOptional host n e) m (evaluateOptional natives n names e) s
  executeAll : ∀ {W Γ place ss m s}, Standing W Γ place → Stmt.AllFits W.Records tidy ss Γ →
    Related tidy W m s → Follows (Exact tidy safe n (.executeAll ss) m) tidy (some W.scope) W
      (SameFlow tidy) (LoxLang.executeAll host n ss) m (executeAll natives n place ss) s
  repeatWhile : ∀ {W Γ place condition increment body m s}, Standing W Γ place →
    Expr.OptionFits W.Records tidy Γ none condition →
    Expr.OptionFits W.Records tidy Γ none increment →
    body.isDeclaration = false → body.Fits W.Records tidy Γ → Related tidy W m s →
    Follows (Exact tidy safe n (.repeatWhile condition increment body) m) tidy (some W.scope) W
      (fun W' flow flow' => SameFlow tidy W' flow flow' ∧ Standing W' Γ place)
      (LoxLang.repeatWhile host n condition increment body) m
      (repeatWhile natives n place condition increment body) s

/-- What the host does corresponds to what the natives answer, as far as evaluation does. -/
structure HostSimulates (tidy : Bool) (safe : Nat → Task → Machine → Prop) (host : Host)
    (natives : Natives) : Prop where
  closed : Safe host safe
  invoke : ∀ ⦃n⦄, SimulatesAt tidy safe host natives n →
    ∀ ⦃W id f line arguments arguments' m s⦄, List.Forall₂ (Same tidy W) arguments arguments' →
    Related tidy W m s →
    Follows (Exact tidy safe (n + 1) (.invoke (.host id f) line arguments) m) tidy none W
      (SameResult tidy) (host f.entry (LoxLang.evaluate host n) arguments) m
      (Run.native natives f.entry arguments') s

/-! ## Expressions -/

/-- A fault that is not for want of a frame can be followed. -/
theorem follows_raise {α β : Type} {exact : Prop} {o : Option FrameRef} {Q : World → α → β → Prop}
    {line : Nat} {fault : RuntimeFault} (h : ¬ (Stop.fault (.runtime line fault)).MissesScope)
    (hrel : Related tidy W m s) :
    Follows exact tidy o W Q (Eval.raise line fault) m (Run.raise line fault) s :=
  .of_simulates (simulates_raise h) hrel

/-- An assignment that is followed by none is lost. -/
theorem follows_assign (hsafe : Safe host safe) {id : NodeId} {name : Token} {value : Expr}
    {v v' : Value} {m₀ : Machine} (hsees : Sees W Γ own names)
    (hown : own = some name.lexeme → tidy = false)
    (hrecords : W.Records id (Γ.seen own name.lexeme)) (hv : Same tidy W v v')
    (hrel : Related tidy W m s) (hd : m₀.distances[id]? = m.distances[id]?)
    (hvalue : LoxLang.evaluate host n value m₀ = .ok v m) :
    Follows (Exact tidy safe (n + 1) (.evaluate (.assign id name value)) m₀) tidy none W
      (fun _ _ _ => True) (Eval.assign id name v) m (Run.assign names name v') s := by
  by_cases hpending : own = some name.lexeme
  · subst hpending
    -- The frame does not have the variable yet: the machine stops here, and the state would go on.
    obtain ⟨hzero, hassign⟩ := assign_pending hsees hrecords hrel v
    have hlost : LoxLang.evaluate host (n + 1) (.assign id name value) m₀ =
        .error (.fault (.runtime name.line (.undefinedVariable name.lexeme))) m := by
      simp only [LoxLang.evaluate, bind, EStateM.bind, hvalue, hassign]
    refine ⟨.error (.fault (.runtime name.line (.undefinedVariable name.lexeme))) s, ?_, ?_⟩
    · rintro (htidy | h)
      · rw [hown rfl] at htidy
        cases htidy
      · exact absurd (.intro (hd.trans hzero) hvalue hlost) (hsafe.found h)
    · rw [hassign]
      exact .error not_false (.refl none W) hrel
  · exact .of_simulates (simulates_assign hsees hpending hrecords hv) hrel

/-- **An expression is followed by the one of the same form**, if its parts are with less fuel. -/
theorem follows_evaluate (hsafe : Safe host safe) (ih : SimulatesAt tidy safe host natives n)
    {e : Expr} (hsees : Sees W Γ own names) (hfits : e.Fits W.Records tidy Γ own)
    (hrel : Related tidy W m s) :
    Follows (Exact tidy safe (n + 1) (.evaluate e) m) tidy none W (Same tidy)
      (LoxLang.evaluate host (n + 1) e) m (evaluate natives (n + 1) names e) s := by
  cases e with simp only [LoxLang.evaluate, evaluate]
  | constant c => exact .pure hrel (.constant c)
  | grouping inner =>
    exact (ih.evaluate (e := inner) hsees hfits hrel).mono (hsafe.exact (.first rfl) rfl)
  | unary operator operand =>
    refine (ih.evaluate (e := operand) hsees hfits hrel).bind (hsafe.exact (.first rfl) rfl)
      fun _ _ hrel hv => ?_
    exact .of_simulates (simulates_applyUnary hv operator) hrel
  | binary left operator right =>
    refine (ih.evaluate hsees hfits.1 hrel).bind (hsafe.exact (.first rfl) rfl)
      fun hleft hW hrel ha => ?_
    refine (ih.evaluate (hsees.mono hW) (hfits.2.mono hW.records) hrel).bind
      (hsafe.exact (.second rfl hleft rfl) rfl) fun _ hW' hrel hb => ?_
    exact .of_simulates (simulates_applyBinary (ha.mono hW'.toGrows) hb operator) hrel
  | logical left operator right =>
    refine (ih.evaluate hsees hfits.1 hrel).bind (hsafe.exact (.first rfl) rfl)
      fun {W' a a' m' s'} hleft hW hrel ha => ?_
    rw [← ha.isTruthy_eq]
    have hright := ih.evaluate (hsees.mono hW) (hfits.2.mono hW.records) hrel
    split
    · next hkind htruthy =>
      rw [if_pos ⟨hkind, htruthy⟩]
      exact .pure hrel (.constant (.bool true))
    · next hkind htruthy =>
      rw [if_neg (by simp [htruthy]), if_pos ⟨hkind, htruthy⟩]
      exact .pure hrel (.constant (.bool false))
    · next hor hand =>
      rw [if_neg fun h => hor h.1 h.2, if_neg fun h => hand h.1 h.2]
      have hsecond : (Expr.logical left operator right).second a = some right := by
        simp only [Expr.second]
      refine hright.bind (hsafe.exact (.second rfl hleft hsecond) rfl) fun _ _ hrel hb => ?_
      rw [← hb.isTruthy_eq]
      exact .pure hrel (.constant (.bool _))
  | conditional condition onTrue onFalse =>
    refine (ih.evaluate hsees hfits.1 hrel).bind (hsafe.exact (.first rfl) rfl)
      fun hcondition hW hrel hc => ?_
    rw [← hc.isTruthy_eq]
    split
    · next htruthy =>
      exact (ih.evaluate (hsees.mono hW) (hfits.2.1.mono hW.records) hrel).mono
        (hsafe.exact (.second rfl hcondition (congrArg some (if_pos htruthy))) rfl)
    · next hfalsy =>
      exact (ih.evaluate (hsees.mono hW) (hfits.2.2.mono hW.records) hrel).mono
        (hsafe.exact (.second rfl hcondition (congrArg some (if_neg hfalsy))) rfl)
  | var id name => exact .of_simulates (simulates_lookUp hsees hfits) hrel
  | this id keyword => exact .of_simulates (simulates_lookUp hsees hfits) hrel
  | assign id name value =>
    refine (ih.evaluate hsees hfits.1 hrel).bind (hsafe.exact (.first rfl) rfl)
      fun {W' v v' m' s'} hvalue hW hrel' hv => ?_
    have hrecords := hW.records _ _ hfits.2.2
    -- The value has recorded nothing for the id of the assignment.
    have hd : m.distances[id]? = m'.distances[id]? := by
      rw [hrel.distances, hrel'.distances, hfits.2.2.2, hrecords.2]
    refine (follows_assign hsafe (hsees.mono hW) hfits.2.1 hrecords hv hrel' hd hvalue).bind (·)
      fun _ hW' hrel _ => ?_
    exact .pure hrel (hv.mono hW'.toGrows)
  | call callee paren arguments =>
    refine (ih.evaluate hsees hfits.1 hrel).bind (hsafe.exact (.first rfl) rfl)
      fun hcallee hW hrel hf => ?_
    refine (ih.evaluateAll (hsees.mono hW) (hfits.2.mono hW.records) hrel).bind
      (hsafe.exact (.arguments hcallee) rfl) fun harguments hW' hrel hvs => ?_
    exact (ih.invoke (hf.mono hW'.toGrows) hvs hrel).mono
      (hsafe.exact (.invoke hcallee harguments) rfl)
  | get object name =>
    refine (ih.evaluate (e := object) hsees hfits hrel).bind (hsafe.exact (.first rfl) rfl)
      fun _ hW hrel hv => ?_
    cases hv with
    | object r => exact .of_simulates (simulates_property r name) hrel
    | constant c => cases c <;> exact follows_raise not_false hrel
    | _ => exact follows_raise not_false hrel
  | set object name value =>
    refine (ih.evaluate hsees hfits.1 hrel).bind (hsafe.exact (.first rfl) rfl)
      fun hobject hW hrel hv => ?_
    cases hv with
    | object r =>
      refine (ih.evaluate (hsees.mono hW) (hfits.2.mono hW.records) hrel).bind
        (hsafe.exact (.second rfl hobject rfl) rfl) fun _ hW' hrel hv => ?_
      exact .of_simulates ((simulates_setField r name.lexeme hv).bind fun hW'' _ =>
        .pure (hv.mono hW''.toGrows)) hrel
    | constant c => cases c <;> exact follows_raise not_false hrel
    | _ => exact follows_raise not_false hrel

/-- Arguments are followed one after the other. -/
theorem follows_evaluateAll (hsafe : Safe host safe) (ih : SimulatesAt tidy safe host natives n)
    {es : List Expr} (hsees : Sees W Γ own names) (hfits : Expr.AllFits W.Records tidy Γ own es)
    (hrel : Related tidy W m s) :
    Follows (Exact tidy safe (n + 1) (.evaluateAll es) m) tidy none W
      (fun W' => List.Forall₂ (Same tidy W')) (LoxLang.evaluateAll host (n + 1) es) m
      (evaluateAll natives (n + 1) names es) s := by
  cases es with simp only [LoxLang.evaluateAll, evaluateAll]
  | nil => exact .pure hrel .nil
  | cons e es =>
    refine (ih.evaluate hsees hfits.1 hrel).bind (hsafe.exact (.first rfl) rfl)
      fun hvalue hW hrel hv => ?_
    refine (ih.evaluateAll (hsees.mono hW) (hfits.2.mono hW.records) hrel).bind
      (hsafe.exact (.evaluateRest hvalue) rfl) fun _ hW' hrel hvs => ?_
    exact .pure hrel (.cons (hv.mono hW'.toGrows) hvs)

theorem follows_evaluateOptional (hsafe : Safe host safe)
    (ih : SimulatesAt tidy safe host natives n) {e : Option Expr} (hsees : Sees W Γ own names)
    (hfits : Expr.OptionFits W.Records tidy Γ own e) (hrel : Related tidy W m s) :
    Follows (Exact tidy safe (n + 1) (.evaluateOptional e) m) tidy none W (Same tidy)
      (LoxLang.evaluateOptional host (n + 1) e) m (evaluateOptional natives (n + 1) names e) s := by
  cases e with simp only [LoxLang.evaluateOptional, evaluateOptional]
  | none => exact .pure hrel (.constant .nil)
  | some e => exact (ih.evaluate hsees hfits hrel).mono (hsafe.exact (.first rfl) rfl)

/-! ## Calls -/

/-- Functions that do the same have as many parameters. -/
theorem SameFunction.arity_eq {f f' : Closure} (h : SameFunction tidy W f f') :
    f'.arity = f.arity := by
  obtain ⟨Γ, hclosure, -⟩ := h
  rw [Closure.arity, Closure.arity, hclosure.routine]

theorem SameMethod.arity_eq {f f' : Closure} (h : SameMethod tidy W f f') : f.arity = f'.arity := by
  obtain ⟨Γ, hclosure, -⟩ := h
  rw [Closure.arity, Closure.arity, hclosure.routine]

theorem SameClass.arity_eq {c c' : Class} (h : SameClass tidy W c c') : c'.arity = c.arity :=
  (Class.Paired.arity_eq SameMethod.arity_eq h).symm

theorem forall₂_mono (hW : W.Grows W') {vs vs' : List Value}
    (h : List.Forall₂ (Same tidy W) vs vs') : List.Forall₂ (Same tidy W') vs vs' :=
  h.imp fun _ _ hv => hv.mono hW

/-- A call has to bring as many arguments as are expected. -/
theorem follows_checkArity {α β : Type} {exact : Prop} {Q : World → α → β → Prop} {x : Eval α}
    {y : Run β} {line expected : Nat} {arguments arguments' : List Value}
    (harguments : List.Forall₂ (Same tidy W) arguments arguments') (hrel : Related tidy W m s)
    (h : arguments.length = expected → Follows exact tidy none W Q x m y s) :
    Follows exact tidy none W Q (Eval.checkArity line expected arguments >>= fun _ => x) m
      (Run.checkArity line expected arguments' >>= fun _ => y) s := by
  unfold Eval.checkArity Run.checkArity
  rw [← harguments.length_eq]
  split
  · exact h ‹_›
  · exact follows_raise not_false hrel

/-- A call is followed by a call of what corresponds to the callee. -/
theorem follows_invoke (hhost : HostSimulates tidy safe host natives)
    (ih : SimulatesAt tidy safe host natives n) {f f' : Value} {line : Nat}
    {arguments arguments' : List Value} (hf : Same tidy W f f')
    (harguments : List.Forall₂ (Same tidy W) arguments arguments') (hrel : Related tidy W m s) :
    Follows (Exact tidy safe (n + 1) (.invoke f line arguments) m) tidy none W (Same tidy)
      (LoxLang.invoke host (n + 1) f line arguments) m
      (invoke natives (n + 1) f' line arguments') s := by
  cases hf with
  | constant c =>
    cases c <;> simp only [Constant.value, LoxLang.invoke, invoke] <;>
      exact follows_raise not_false hrel
  | object r =>
    simp only [LoxLang.invoke, invoke]
    exact follows_raise not_false hrel
  | host id f =>
    simp only [LoxLang.invoke, invoke]
    refine follows_checkArity harguments hrel fun _ => ?_
    refine (hhost.invoke ih harguments hrel).bind (·) fun _ _ hrel hresult => ?_
    cases hresult with
    | ok hv => exact .pure hrel hv
    | error message => exact follows_raise not_false hrel
  | function id hf =>
    simp only [LoxLang.invoke, invoke, hf.arity_eq]
    refine follows_checkArity harguments hrel fun hlength => ?_
    exact (ih.callClosure hf harguments hlength hrel).mono
      (hhost.closed.exact (.function hlength) rfl)
  | @cls c c' hc =>
    simp only [LoxLang.invoke, invoke, SameClass.arity_eq hc]
    refine follows_checkArity harguments hrel fun hlength => ?_
    refine (Follows.of_simulates (simulates_newInstance hc) hrel).bind (·)
      fun {W' r r' m' s'} hnew hW hrel hr => ?_
    subst hr
    have hinit := (SameClass.mono hW.toGrows hc).methods initializerName
    have hmethod : ∀ method, c.methods[initializerName]? = some method →
        c.arity = method.arity := fun method hmethod => by rw [Class.arity, hmethod]; rfl
    generalize hfound : c.methods[initializerName]? = f, c'.methods[initializerName]? = f' at hinit
    cases hinit with
    | none => exact .pure hrel (.object _)
    | @some method _ hf =>
      refine (Follows.of_simulates (simulates_bindMethod hf _) hrel).bind (·)
        fun {W'' bound bound' m'' s''} hbind hW' hrel hbound => ?_
      -- The arguments were counted for the class, whose arity is that of its initializer.
      have hlength' : arguments.length = bound.arity :=
        (hlength.trans (hmethod method hfound)).trans
          (congrArg (fun r => r.parameters.length) hbound.2).symm
      have hboth : (Eval.newInstance c >>= Eval.bindMethod method) m = .ok bound m'' := by
        change EStateM.bind _ _ m = _
        rw [EStateM.bind, hnew]
        exact hbind
      refine (ih.callClosure hbound.1 (forall₂_mono (hW.toGrows.trans hW'.toGrows) harguments)
        hlength' hrel).bind (hhost.closed.exact (.initializer hlength hfound hboth) rfl) ?_
      exact fun _ _ hrel _ => .pure hrel (.object _)

/-- A closure runs where the names that it keeps are known. -/
theorem follows_namesOf {α β : Type} {exact : Prop} {o : Option FrameRef}
    {Q : World → α → β → Prop} {x : Eval α} {g : Names → Run β} {f : Closure}
    (hkept : W.kept f.scope = some names) (hrel : Related tidy W m s)
    (h : Follows exact tidy o W Q x m (g names) s) :
    Follows exact tidy o W Q x m (Run.namesOf f >>= g) s := by
  have hstate : (Run.namesOf f >>= g) s = g names s := by
    rw [← hrel.getD_kept hkept]
    rfl
  obtain ⟨out, hy, hagrees⟩ := h
  exact ⟨out, fun he => hstate.trans (hy he), hagrees⟩

/-- **The body of a closure is followed from a frame with its parameters**, and the caller's frame
is current again behind it. -/
theorem follows_callClosure (hsafe : Safe host safe) (ih : SimulatesAt tidy safe host natives n)
    {f f' : Closure} {arguments arguments' : List Value} (hf : SameFunction tidy W f f')
    (harguments : List.Forall₂ (Same tidy W) arguments arguments')
    (hlength : arguments.length = f.arity) (hrel : Related tidy W m s) :
    Follows (Exact tidy safe (n + 1) (.callClosure f arguments) m) tidy none W (Same tidy)
      (LoxLang.callClosure host (n + 1) f arguments) m
      (callClosure natives (n + 1) f' arguments') s := by
  obtain ⟨Γ, ⟨hroutine, hinit, names, hkept, hscoped⟩, hfits, hthis⟩ := id hf
  simp only [LoxLang.callClosure, callClosure]
  refine follows_namesOf hkept hrel ?_
  rw [← bind_assoc, ← bind_assoc, hroutine]
  refine Follows.bind (Q := SameFlow tidy) ?_ (·) fun _ hW hrel hflow =>
    .of_simulates (simulates_callResult (hf.mono hW.toGrows) hflow) hrel
  obtain ⟨hnodup, hbody⟩ := Routine.fits_iff.mp hfits
  refine follows_inCallFrame hrel hscoped hnodup harguments hlength
    (fun hW hscope hrel hstanding => ?_) fun r hflow => hflow.mono (World.grows_enter _ r)
  rw [← hscope]
  exact (ih.executeAll hstanding (hbody.mono hW.records) hrel).mono (hsafe.exact .body rfl)

/-! ## Statements -/

/-- A branch of a conditional declares nothing, so the next statement stands where it stood. -/
theorem follows_branch (ih : SimulatesAt tidy safe host natives n) {t : Stmt}
    (hstanding : Standing W Γ place) (hplain : t.isDeclaration = false)
    (hfits : t.Fits W.Records tidy Γ) (hrel : Related tidy W m s) :
    Follows (Exact tidy safe n (.execute t) m) tidy (some W.scope) W (SameEnd tidy Γ)
      (LoxLang.execute host n t) m (do
        return ((← execute natives n place t).1, place)) s := by
  have hexecute := ih.execute hstanding hfits hrel
  rw [Stmt.after_eq hplain] at hexecute
  exact hexecute.andThen fun hW h => ⟨h.1, hstanding.rejoin hW.toGrows hW.scope h.2⟩

/-- An `if` is followed by the branch that is taken. -/
theorem follows_if (hsafe : Safe host safe) (ih : SimulatesAt tidy safe host natives n)
    {condition : Expr} {onTrue : Stmt} {onFalse : Option Stmt} (hstanding : Standing W Γ place)
    (hfits : (Stmt.ifStmt condition onTrue onFalse).Fits W.Records tidy Γ)
    (hrel : Related tidy W m s) :
    Follows (Exact tidy safe (n + 1) (.execute (.ifStmt condition onTrue onFalse)) m) tidy
      (some W.scope) W (SameEnd tidy Γ)
      (LoxLang.execute host (n + 1) (.ifStmt condition onTrue onFalse)) m
      (execute natives (n + 1) place (.ifStmt condition onTrue onFalse)) s := by
  obtain ⟨hcondition, ⟨hplain, htrue⟩, hplain', hfalse⟩ := hfits
  simp only [LoxLang.execute, execute]
  refine ((ih.evaluate hstanding.sees hcondition hrel).weaken _).bind
    (hsafe.exact (.first rfl) rfl) fun hvalue _ hrel ⟨hW, hv⟩ => ?_
  rw [← hv.isTruthy_eq, ← hW.scope]
  split
  · next htruthy =>
    exact (follows_branch ih (hstanding.mono hW) hplain (htrue.mono hW.records) hrel).mono
      (hsafe.exact (.onTrue hvalue htruthy) rfl)
  · next hfalsy =>
    cases onFalse with
    | none => exact .pure hrel ⟨.normal, hstanding.mono hW⟩
    | some t =>
      have ht : t.Fits W.Records tidy Γ := hfalse
      exact (follows_branch ih (hstanding.mono hW) (hplain' t rfl) (ht.mono hW.records) hrel).mono
        (hsafe.exact (.onFalse hvalue (Bool.not_eq_true _ ▸ hfalsy)) rfl)

/-- A `for` is followed in a frame for its clause. -/
theorem follows_for (hsafe : Safe host safe) (ih : SimulatesAt tidy safe host natives n)
    {initial : Option Stmt} {condition increment : Option Expr} {body : Stmt}
    (hstanding : Standing W Γ place)
    (hfits : (Stmt.forStmt initial condition increment body).Fits W.Records tidy Γ)
    (hrel : Related tidy W m s) :
    Follows (Exact tidy safe (n + 1) (.execute (.forStmt initial condition increment body)) m) tidy
      (some W.scope) W (SameEnd tidy Γ)
      (LoxLang.execute host (n + 1) (.forStmt initial condition increment body)) m
      (execute natives (n + 1) place (.forStmt initial condition increment body)) s := by
  obtain ⟨⟨_, hinitial⟩, hcondition, hincrement, hplain, hbody⟩ := hfits
  have hblock := hstanding.block hrel
  have hloop : ∀ {W' inner m' s'}, W.Grows W' →
      Standing W' (Stmt.afterOption ([] :: Γ) initial) inner → Related tidy W' m' s' →
      Follows (Exact tidy safe n (.repeatWhile condition increment body) m') tidy (some W'.scope) W'
        (SameFlow tidy) (LoxLang.repeatWhile host n condition increment body) m'
        (repeatWhile natives n inner condition increment body) s' := fun hW hinner hrel =>
    (ih.repeatWhile hinner (hcondition.mono hW.records) (hincrement.mono hW.records) hplain
      (hbody.mono hW.records) hrel).imp fun _ h => h.1
  -- Behind the loop its frame is left, and the next statement stands where the loop stood.
  have hleave : ∀ {exact : Prop} {x : Eval Flow} {y : Run Flow},
      Follows exact tidy (some W.size) ((W.push W.scope).enter W.size) (SameFlow tidy) x
        (m.inside ∅ m.scope) y s →
      Follows exact tidy (some W.scope) W (SameEnd tidy Γ) (Eval.inNewFrame x) m
        (y >>= fun flow => pure (flow, place)) s := fun hinner =>
    ((follows_inNewFrame hrel hinner fun r h => h.mono (World.grows_enter _ r)).weaken _).andThen
      fun _ h => ⟨h.2, hstanding.mono h.1⟩
  have hW₁ : W.Grows ((W.push W.scope).enter W.size) :=
    (World.extends_push none W W.scope).toGrows.trans (World.grows_enter _ _)
  simp only [LoxLang.execute, execute]
  cases initial with
  | none =>
    simp only [pure_bind]
    exact hleave ((hloop hW₁ hblock hrel.inside).mono (hsafe.exact .loop rfl))
  | some t =>
    simp only [bind_map_left]
    rw [← bind_assoc]
    have ht : t.Fits W.Records tidy ([] :: Γ) := hinitial
    refine hleave ((ih.execute hblock (ht.mono hW₁.records) hrel.inside).bind
      (hsafe.exact .forInitial rfl) fun hfirst hW hrel h => ?_)
    have hscope : World.scope _ = W.size := hW.scope
    rw [← hscope]
    exact (hloop (hW₁.trans hW.toGrows) h.2 hrel).mono (hsafe.exact (.forLoop hfirst) rfl)

/-- **A statement is followed by the one of the same form**, if its parts are with less fuel. -/
theorem follows_execute (hsafe : Safe host safe) (ih : SimulatesAt tidy safe host natives n)
    {t : Stmt} (hstanding : Standing W Γ place) (hfits : t.Fits W.Records tidy Γ)
    (hrel : Related tidy W m s) :
    Follows (Exact tidy safe (n + 1) (.execute t) m) tidy (some W.scope) W
      (SameEnd tidy (t.after Γ)) (LoxLang.execute host (n + 1) t) m
      (execute natives (n + 1) place t) s := by
  cases t with simp only [LoxLang.execute, execute]
  | exprStmt e =>
    refine ((ih.evaluate (e := e) hstanding.sees hfits hrel).weaken _).bind
      (hsafe.exact (.first rfl) rfl) fun _ _ hrel ⟨hW, _⟩ => ?_
    exact .pure hrel ⟨.normal, hstanding.mono hW⟩
  | printStmt e =>
    refine ((ih.evaluate (e := e) hstanding.sees hfits hrel).weaken _).bind
      (hsafe.exact (.first rfl) rfl) fun _ _ hrel ⟨hW, hv⟩ => ?_
    refine .of_simulates (simulates_get fun hrel => ?_) hrel
    rw [hrel.text_eq hv]
    refine ((simulates_printLine _).bind ?_) hrel
    rintro _ _ _ _ rfl
    exact .pure ⟨.normal, hstanding.mono hW⟩
  | varDecl name initial =>
    refine ((ih.evaluateOptional (hstanding.sees_initial hfits.1) hfits.2 hrel).weaken _).bind
      (hsafe.exact (.first rfl) rfl) fun _ _ hrel ⟨hW, hv⟩ => ?_
    rw [← hW.scope]
    refine .of_simulates ((simulates_declare (hstanding.mono hW) hfits.1 hv).bind ?_) hrel
    exact fun _ hnext => .pure ⟨.normal, hnext⟩
  | block body =>
    have hfits' : Stmt.AllFits W.Records tidy body ([] :: Γ) := hfits
    have hbody := follows_inNewFrame hrel (ih.executeAll (hstanding.block hrel) hfits' hrel.inside)
      fun r h => h.mono (World.grows_enter _ r)
    refine ((hbody.weaken _).andThen ?_).mono (hsafe.exact .block rfl)
    exact fun _ ⟨hW, hflow⟩ => ⟨hflow, hstanding.mono hW⟩
  | ifStmt condition onTrue onFalse => exact follows_if hsafe ih hstanding hfits hrel
  | whileStmt condition body =>
    have hcondition : Expr.OptionFits W.Records tidy Γ none (some condition) := hfits.1
    have hincrement : Expr.OptionFits W.Records tidy Γ none none := trivial
    have hloop := ih.repeatWhile hstanding hcondition hincrement hfits.2.1 hfits.2.2 hrel
    exact (hloop.andThen fun _ h => h).mono (hsafe.exact (.first rfl) rfl)
  | forStmt initial condition increment body => exact follows_for hsafe ih hstanding hfits hrel
  | returnStmt keyword value =>
    refine ((ih.evaluateOptional (e := value) hstanding.sees hfits hrel).weaken _).bind
      (hsafe.exact (.first rfl) rfl) fun _ _ hrel ⟨hW, hv⟩ => ?_
    exact .pure hrel ⟨.returned hv, hstanding.mono hW⟩
  | funDecl r =>
    refine .of_simulates ((simulates_declareFunction hstanding hfits.1 hfits.2).bind ?_) hrel
    exact fun _ hnext => .pure ⟨.normal, hnext⟩
  | classDecl name methods =>
    refine .of_simulates ((simulates_declareClass hstanding hfits.1 hfits.2).bind ?_) hrel
    exact fun _ hnext => .pure ⟨.normal, hnext⟩

/-- Statements are followed one after the other, each where the one before it left off. -/
theorem follows_executeAll (hsafe : Safe host safe) (ih : SimulatesAt tidy safe host natives n)
    {ss : List Stmt} (hstanding : Standing W Γ place) (hfits : Stmt.AllFits W.Records tidy ss Γ)
    (hrel : Related tidy W m s) :
    Follows (Exact tidy safe (n + 1) (.executeAll ss) m) tidy (some W.scope) W (SameFlow tidy)
      (LoxLang.executeAll host (n + 1) ss) m (executeAll natives (n + 1) place ss) s := by
  cases ss with simp only [LoxLang.executeAll, executeAll]
  | nil => exact .pure hrel .normal
  | cons t ss =>
    refine (ih.execute hstanding hfits.1 hrel).bind (hsafe.exact (.first rfl) rfl) ?_
    rintro W' flow ⟨flow', next⟩ m' s' hfirst hW hrel ⟨hflow, hnext⟩
    cases hflow with
    | normal =>
      rw [← hW.scope]
      exact (ih.executeAll hnext (hfits.2.mono hW.records) hrel).mono
        (hsafe.exact (.executeRest hfirst) rfl)
    | returned hv => exact .pure hrel (.returned hv)

/-! ## Loops -/

/-- The value of an expression that may be left out. -/
def evaluateIfAny (natives : Natives) (n : Nat) (names : Names) : Option Expr → Run (Option Value)
  | some e => some <$> evaluate natives n names e
  | none => pure none

/-- A loop of the state tests its condition and goes on to the next round. -/
theorem repeatWhile_eq (natives : Natives) (n : Nat) (place : Place)
    (condition increment : Option Expr) (body : Stmt) :
    repeatWhile natives (n + 1) place condition increment body = (do
      let v ← evaluateIfAny natives n place.names condition
      if v.all Value.isTruthy then
        match (← execute natives n place body).1 with
        | .returned v => return .returned v
        | .normal =>
          let _ ← evaluateIfAny natives n place.names increment
          repeatWhile natives n place condition increment body
      else return .normal) := by
  have hincrement : (do
      let _ ← evaluateIfAny natives n place.names increment
      repeatWhile natives n place condition increment body) = (do
      match increment with
      | some e => let _ ← evaluate natives n place.names e
      | none => pure ()
      repeatWhile natives n place condition increment body) := by
    cases increment with
    | none => rfl
    | some e => simp only [evaluateIfAny, bind_map_left]
  rw [hincrement]
  cases condition with
  | none => rfl
  | some e =>
    refine Eq.symm ((bind_map_left some (evaluate natives n place.names e) _).trans (Eq.symm ?_))
    exact bind_map_left Value.isTruthy (evaluate natives n place.names e) _

/-- A condition that is left out needs no following. -/
theorem follows_evaluateIfAny (ih : SimulatesAt tidy safe host natives n) {o : Option Expr}
    (hsees : Sees W Γ own names) (hfits : Expr.OptionFits W.Records tidy Γ own o)
    (hrel : Related tidy W m s) :
    Follows (∀ e, o = some e → Exact tidy safe n (.evaluate e) m) tidy none W
      (fun W' => Option.Rel (Same tidy W')) (LoxLang.evaluateIfAny host n o) m
      (evaluateIfAny natives n names o) s := by
  cases o with
  | none => exact .pure hrel .none
  | some e =>
    exact ((ih.evaluate hsees hfits hrel).map fun hv => .some hv).mono fun h => h e rfl

/-- A loop is followed round by round; a condition that is left out holds. -/
theorem follows_repeatWhile (hsafe : Safe host safe) (ih : SimulatesAt tidy safe host natives n)
    {condition increment : Option Expr} {body : Stmt} (hstanding : Standing W Γ place)
    (hcondition : Expr.OptionFits W.Records tidy Γ none condition)
    (hincrement : Expr.OptionFits W.Records tidy Γ none increment)
    (hplain : body.isDeclaration = false) (hbody : body.Fits W.Records tidy Γ)
    (hrel : Related tidy W m s) :
    Follows (Exact tidy safe (n + 1) (.repeatWhile condition increment body) m) tidy
      (some W.scope) W (fun W' flow flow' => SameFlow tidy W' flow flow' ∧ Standing W' Γ place)
      (LoxLang.repeatWhile host (n + 1) condition increment body) m
      (repeatWhile natives (n + 1) place condition increment body) s := by
  rw [repeatWhile_eq_round, repeatWhile_eq]
  refine ((follows_evaluateIfAny ih hstanding.sees hcondition hrel).weaken _).bind ?_
    fun hvalue _ hrel ⟨hW, hv⟩ => ?_
  · rintro h e rfl
    exact hsafe.exact (.first rfl) rfl h
  rw [← Value.Paired.all_isTruthy_eq hv, ← hW.scope]
  split
  · next htruthy =>
    have hstanding := hstanding.mono hW
    refine (ih.execute hstanding (hbody.mono hW.records) hrel).bind
      (hsafe.exact (.round hvalue htruthy) rfl) ?_
    rintro W' flow ⟨flow', next⟩ m' s' hround hW' hrel ⟨hflow, hnext⟩
    rw [Stmt.after_eq hplain] at hnext
    -- The body declares nothing, so the next round stands where this one stood.
    have hback := hstanding.rejoin hW'.toGrows hW'.scope hnext
    have hgrows := hW.toGrows.trans hW'.toGrows
    cases hflow with
    | returned hv => exact .pure hrel ⟨.returned hv, hback⟩
    | normal =>
      rw [← hW'.scope]
      refine ((follows_evaluateIfAny ih hback.sees (hincrement.mono hgrows.records) hrel).weaken
        _).bind ?_ fun hstep _ hrel ⟨hV, _⟩ => ?_
      · rintro h e rfl
        exact hsafe.exact (.increment hvalue htruthy hround) rfl h
      have hgrows := hgrows.trans hV.toGrows
      rw [← hV.scope]
      exact (ih.repeatWhile (hback.mono hV) (hcondition.mono hgrows.records)
        (hincrement.mono hgrows.records) hplain (hbody.mono hgrows.records) hrel).mono
        (hsafe.exact (.again hvalue htruthy hround hstep) rfl)
  · exact .pure hrel ⟨.normal, hstanding.mono hW⟩

/-! ## Everything -/

/-- Without fuel both sides stop. -/
theorem follows_outOfFuel {α β : Type} {exact : Prop} {o : Option FrameRef}
    {Q : World → α → β → Prop} (hrel : Related tidy W m s) :
    Follows exact tidy o W Q (throw .outOfFuel) m (throw .outOfFuel) s :=
  .of_simulates simulates_outOfFuel hrel

/-- Without fuel every evaluator stops on both sides. -/
theorem simulatesAt_zero : SimulatesAt tidy safe host natives 0 where
  evaluate _ _ := follows_outOfFuel
  evaluateAll _ _ := follows_outOfFuel
  invoke _ _ := follows_outOfFuel
  callClosure _ _ _ := follows_outOfFuel
  execute _ _ := follows_outOfFuel
  evaluateOptional _ _ := follows_outOfFuel
  executeAll _ _ := follows_outOfFuel
  repeatWhile _ _ _ _ _ := follows_outOfFuel

/-- **Every evaluator can be followed, with any fuel.** -/
theorem simulatesAt (hhost : HostSimulates tidy safe host natives) : ∀ n,
    SimulatesAt tidy safe host natives n
  | 0 => simulatesAt_zero
  | n + 1 =>
    have ih := simulatesAt hhost n
    { evaluate := follows_evaluate hhost.closed ih
      evaluateAll := follows_evaluateAll hhost.closed ih
      invoke := follows_invoke hhost ih
      callClosure := follows_callClosure hhost.closed ih
      execute := follows_execute hhost.closed ih
      evaluateOptional := follows_evaluateOptional hhost.closed ih
      executeAll := follows_executeAll hhost.closed ih
      repeatWhile := follows_repeatWhile hhost.closed ih }

/-! ## Programs -/

/-- A program goes on behind a statement that ends. -/
theorem executeProgram_cons (natives : Natives) (fuel : Nat) (t : Stmt) (ss : List Stmt)
    (s : State) :
    executeProgram natives fuel (t :: ss) s = match execute natives fuel .top t s with
      | .ok _ s' => executeProgram natives fuel ss s'
      | .error stop s' => .error stop s' := by
  simp only [executeProgram]
  change EStateM.bind (execute natives fuel .top t) _ s = _
  simp only [EStateM.bind]
  cases execute natives fuel .top t s <;> rfl

/-- A program is followed statement by statement, and exactly if each of them is. -/
theorem follows_executeProgram (ih : SimulatesAt tidy safe host natives n) :
    ∀ {ss : List Stmt} {W : World} {m : Machine} {s : State}, Standing W [] .top →
    Stmt.AllFits W.Records tidy ss [] → Related tidy W m s →
    Follows (∀ {t m'}, Reaches host n ss m t m' → Exact tidy safe n (.execute t) m') tidy
      (some W.scope) W (fun _ _ _ => True) (LoxLang.executeProgram host n ss) m
      (executeProgram natives n ss) s
  | [], _, _, _, _, _, hrel => .pure hrel trivial
  | t :: ss, W, m, s, hstanding, hfits, hrel => by
    obtain ⟨out, hout, hagrees⟩ := ih.execute hstanding hfits.1 hrel
    have hrest := hfits.2
    rw [Stmt.after_nil] at hagrees hrest
    unfold Follows
    rw [LoxLang.executeProgram_cons, executeProgram_cons]
    cases hexecuted : LoxLang.execute host n t m with
    | ok flow m' =>
      rw [hexecuted] at hagrees
      cases hagrees with
      | ok hW hrel hend =>
        have hnext := hstanding.rejoin hW.toGrows hW.scope hend.2
        obtain ⟨out', hout', hagrees'⟩ :=
          follows_executeProgram ih hnext (hrest.mono hW.records) hrel
        rw [hW.scope] at hagrees'
        refine ⟨out', fun hexact => ?_, hagrees'.imp hW.trans fun _ hq => hq⟩
        rw [hout (hexact .here)]
        exact hout' fun hreaches => hexact (.later hexecuted hreaches)
    | error stop m' =>
      rw [hexecuted] at hagrees
      cases hagrees with
      | @error W' _ _ s' hstop hW hrel =>
        -- a stop leaves the globals as the current frame; at the top they are
        have htop : W.AtTop := by
          cases hstanding
          assumption
        have hscope : m'.globals = W'.scope := by
          rw [hrel.globals, hW.globals, hW.scope, htop]
        have hW' : W.Extends (some W.scope) (W'.enter m'.globals) := by
          rw [hscope]
          exact hW
        exact ⟨.error stop s', fun hexact => by rw [hout (hexact .here)],
          .error hstop hW' (hrel.enter m'.globals)⟩

end Lexical

end LoxLang
