import Mathlib
import LoxLang.Proofs.Alike.Tree
import LoxLang.Proofs.Run.Closure
import LoxLang.Proofs.Store.Pairs

/-!
# Proofs/Alike/Coupling — two runs side by side

That two programs do the same is shown by running them side by side. What the two sides have in
common at a point of the runs is a *world*; a `Coupling` says which worlds there are, when two
computations do the same in a world, and which ids, closures and statements stand for each other.

What has to be known of the single steps, and of the functions of the host, is `Coupling.Lawful`.
From that follows what is the same for all couplings: expressions, calls and loops of the same form
do the same on both sides (`Coupling.Lawful.at_of_execute`), by induction on the fuel of both
sides. Which forms of statements may stand for each other is left to the coupling.

The two sides need not have the same fuel. Where one side runs out of it, what follows on the other
side may only do what `Coupling.Rest` says.
-/

namespace LoxLang

/-- **A way to compare two runs.** -/
structure Coupling where
  /-- What the two sides have in common. -/
  World : Type
  /-- The worlds that the two sides come to. -/
  Later : World → World → Prop
  /-- Computations that do the same in a world. Their results are related in the world that they
  come to. -/
  Runs {α β : Type} : World → (World → α → β → Prop) → Eval α → Eval β → Prop
  /-- What one side may do when the other is out of fuel. -/
  Rest {α : Type} : Eval α → Prop
  /-- The fuel of the two sides. -/
  Allows : Nat → Nat → Prop
  /-- Lines that stand for each other. -/
  lines : Lines
  /-- Ids that stand for each other. -/
  Use : World → Ids
  /-- Functions that stand for each other. -/
  Function : World → Closure → Closure → Prop
  /-- Methods that stand for each other, before they are bound to an instance. -/
  Method : World → Closure → Closure → Prop
  /-- Statements that stand for each other. -/
  Code : World → Stmt → Stmt → Prop

namespace Coupling

section

variable (K : Coupling) (W : K.World)

/-- Values that stand for each other. -/
abbrev Same : Value → Value → Prop := Value.Paired (K.Function W) (K.Method W)

/-- Lists of values that stand for each other. -/
abbrev SameAll : List Value → List Value → Prop := List.Forall₂ (K.Same W)

/-- Ends of statements that stand for each other. -/
abbrev SameFlow : Flow → Flow → Prop := Flow.Paired (K.Same W)

/-- Values, or messages, that stand for each other. -/
abbrev SameResult : Except String Value → Except String Value → Prop := ExceptRel Eq (K.Same W)

/-- Lists of statements that stand for each other. -/
abbrev AllCode : List Stmt → List Stmt → Prop := List.Forall₂ (K.Code W)

/-- The evaluation of expressions that stand for each other does the same, in every world. -/
def Evaluates (evaluate evaluate' : Expr → Eval Value) : Prop :=
  ∀ ⦃W e e'⦄, e.Alike K.lines (K.Use W) e' → K.Runs W K.Same (evaluate e) (evaluate' e')

end

/-- **What has to be known of the single steps**, and of the functions of the host. -/
structure Lawful (K : Coupling) (host : Host) : Prop where
  closed : Eval.Closed K.Rest
  restHost : ∀ n, (∀ e, K.Rest (evaluate host n e)) →
    ∀ entry arguments, K.Rest (host entry (evaluate host n) arguments)
  trans : ∀ {W W' W''}, K.Later W W' → K.Later W' W'' → K.Later W W''
  use_mono : ∀ {W W' i j}, K.Later W W' → K.Use W i j → K.Use W' i j
  function_mono : ∀ {W W' f f'}, K.Later W W' → K.Function W f f' → K.Function W' f f'
  method_mono : ∀ {W W' f f'}, K.Later W W' → K.Method W f f' → K.Method W' f f'
  code_mono : ∀ {W W' s s'}, K.Later W W' → K.Code W s s' → K.Code W' s s'
  function_arity : ∀ {W f f'}, K.Function W f f' → f.arity = f'.arity
  method_arity : ∀ {W f f'}, K.Method W f f' → f.arity = f'.arity
  -- How computations are put together.
  pure {α β : Type} {W : K.World} {values : K.World → α → β → Prop} {a : α} {b : β}
    (h : values W a b) : K.Runs W values (Pure.pure a) (Pure.pure b)
  bind {α β γ δ : Type} {W : K.World} {values : K.World → α → β → Prop}
    {values' : K.World → γ → δ → Prop} {x : Eval α} {y : Eval β} {f : α → Eval γ} {g : β → Eval δ}
    (hx : K.Runs W values x y) (hf : ∀ a, K.Rest (f a)) (hg : ∀ b, K.Rest (g b))
    (h : ∀ {W' a b}, K.Later W W' → values W' a b → K.Runs W' values' (f a) (g b)) :
    K.Runs W values' (x >>= f) (y >>= g)
  raise {α β : Type} {W : K.World} {values : K.World → α → β → Prop} {line line' : Nat}
    (hline : K.lines line line') (fault : RuntimeFault) :
    K.Runs W values (Eval.raise line fault) (Eval.raise line' fault)
  -- Fuel.
  allows : ∀ {n k}, K.Allows (n + 1) (k + 1) → K.Allows n k
  spent {α β : Type} {W : K.World} {values : K.World → α → β → Prop} :
    K.Runs W values (throw .outOfFuel) (throw .outOfFuel)
  spentLeft {α β : Type} {W : K.World} {values : K.World → α → β → Prop} {k : Nat} {y : Eval β}
    (h : K.Allows 0 (k + 1)) (hy : K.Rest y) : K.Runs W values (throw .outOfFuel) y
  spentRight {α β : Type} {W : K.World} {values : K.World → α → β → Prop} {n : Nat} {x : Eval α}
    (h : K.Allows (n + 1) 0) (hx : K.Rest x) : K.Runs W values x (throw .outOfFuel)
  -- Steps.
  lookUp : ∀ {W id id' t t'}, K.Use W id id' → t.Alike K.lines t' →
    K.Runs W K.Same (Eval.lookUp id t) (Eval.lookUp id' t')
  assign : ∀ {W id id' t t' v v'}, K.Use W id id' → t.Alike K.lines t' → K.Same W v v' →
    K.Runs W (fun _ => Eq) (Eval.assign id t v) (Eval.assign id' t' v')
  property : ∀ {W t t'} (r), t.Alike K.lines t' →
    K.Runs W K.Same (Eval.property r t) (Eval.property r t')
  setField : ∀ {W v v'} (r name), K.Same W v v' →
    K.Runs W K.Same (Eval.setField r name v) (Eval.setField r name v')
  newInstance : ∀ {W} {c c' : Class}, c.Paired (K.Method W) c' →
    K.Runs W (fun _ => Eq) (Eval.newInstance c) (Eval.newInstance c')
  bindMethod : ∀ {W f f'} (r), K.Method W f f' →
    K.Runs W K.Function (Eval.bindMethod f r) (Eval.bindMethod f' r)
  printValue : ∀ {W v v'}, K.Same W v v' →
    K.Runs W (fun _ => Eq) (Eval.printValue v) (Eval.printValue v')
  /-- The bodies run in worlds where the statements of both stand for each other. -/
  inCall : ∀ {W f f' vs vs' x y}, K.Function W f f' → K.SameAll W vs vs' →
    (∀ {W'}, K.AllCode W' f.routine.body f'.routine.body → K.Runs W' K.SameFlow x y) →
    K.Runs W K.Same (Eval.inCall f vs x) (Eval.inCall f' vs' y)
  /-- A function of the host does the same, as far as the evaluation that it may use does. -/
  host : ∀ entry {evaluate evaluate' W vs vs'}, K.Evaluates evaluate evaluate' →
    (∀ e, K.Rest (evaluate e)) → (∀ e, K.Rest (evaluate' e)) → K.SameAll W vs vs' →
    K.Runs W K.SameResult (host entry evaluate vs) (host entry evaluate' vs')

/-- With fuel `n` on the one side and `k` on the other, every evaluator does the same. -/
structure At (K : Coupling) (host : Host) (n k : Nat) : Prop where
  evaluate : K.Evaluates (evaluate host n) (evaluate host k)
  evaluateAll : ∀ {W es es'}, Expr.AllAlike K.lines (K.Use W) es es' →
    K.Runs W K.SameAll (evaluateAll host n es) (evaluateAll host k es')
  invoke : ∀ {W f f' line line' vs vs'}, K.Same W f f' → K.lines line line' →
    K.SameAll W vs vs' → K.Runs W K.Same (invoke host n f line vs) (invoke host k f' line' vs')
  callClosure : ∀ {W f f' vs vs'}, K.Function W f f' → K.SameAll W vs vs' →
    K.Runs W K.Same (callClosure host n f vs) (callClosure host k f' vs')
  execute : ∀ {W s s'}, K.Code W s s' → K.Runs W K.SameFlow (execute host n s) (execute host k s')
  evaluateOptional : ∀ {W e e'}, Expr.OptionAlike K.lines (K.Use W) e e' →
    K.Runs W K.Same (evaluateOptional host n e) (evaluateOptional host k e')
  executeAll : ∀ {W ss ss'}, K.AllCode W ss ss' →
    K.Runs W K.SameFlow (executeAll host n ss) (executeAll host k ss')
  repeatWhile : ∀ {W a a' b b' s s'}, Expr.OptionAlike K.lines (K.Use W) a a' →
    Expr.OptionAlike K.lines (K.Use W) b b' → K.Code W s s' →
    K.Runs W K.SameFlow (repeatWhile host n a b s) (repeatWhile host k a' b' s')

namespace Lawful

variable {K : Coupling} {host : Host} (L : K.Lawful host) {W W' : K.World} {α β γ δ : Type}
  {values : K.World → α → β → Prop} {values' : K.World → γ → δ → Prop} {x : Eval α} {y : Eval β}

include L

theorem restAt : ∀ n, ClosedAt K.Rest host n :=
  closedAt L.closed L.restHost

/-! ## What stands for each other does so later -/

/-- Values that stand for each other do so in every later world. -/
theorem same_mono (hW : K.Later W W') {v v' : Value} (h : K.Same W v v') : K.Same W' v v' :=
  h.imp (L.function_mono hW) (L.method_mono hW)

theorem sameAll_mono (hW : K.Later W W') {vs vs' : List Value} (h : K.SameAll W vs vs') :
    K.SameAll W' vs vs' :=
  h.imp fun _ _ => L.same_mono hW

/-- Statements that stand for each other do so in every later world. -/
theorem allCode_mono (hW : K.Later W W') {ss ss' : List Stmt} (h : K.AllCode W ss ss') :
    K.AllCode W' ss ss' :=
  h.imp fun _ _ => L.code_mono hW

/-- Expressions that stand for each other do so in every later world. -/
theorem alike_mono (hW : K.Later W W') {e e' : Expr} (h : e.Alike K.lines (K.Use W) e') :
    e.Alike K.lines (K.Use W') e' :=
  h.mono id (L.use_mono hW)

theorem optionAlike_mono (hW : K.Later W W') {e e' : Option Expr}
    (h : Expr.OptionAlike K.lines (K.Use W) e e') : Expr.OptionAlike K.lines (K.Use W') e e' :=
  h.mono id (L.use_mono hW)

/-! ## Single steps -/

omit L in
/-- Branches that are taken on the same condition. -/
theorem ite {c c' : Prop} [Decidable c] [Decidable c'] {x₁ x₂ : Eval α} {y₁ y₂ : Eval β}
    (hc : c ↔ c') (h₁ : K.Runs W values x₁ y₁) (h₂ : K.Runs W values x₂ y₂) :
    K.Runs W values (if c then x₁ else x₂) (if c' then y₁ else y₂) := by
  by_cases h : c
  · rw [if_pos h, if_pos (hc.mp h)]
    exact h₁
  · rw [if_neg h, if_neg (mt hc.mpr h)]
    exact h₂

/-- A result that is computed from those of the computations. -/
theorem andReturn (hx : K.Runs W values x y) {f : α → γ} {g : β → δ}
    (h : ∀ {W' a b}, K.Later W W' → values W' a b → values' W' (f a) (g b)) :
    K.Runs W values' (x >>= fun a => Pure.pure (f a)) (y >>= fun b => Pure.pure (g b)) :=
  L.bind hx (fun _ => L.closed.pure _) (fun _ => L.closed.pure _) fun hW hab => L.pure (h hW hab)

theorem map (hx : K.Runs W values x y) {f : α → γ} {g : β → δ}
    (h : ∀ {W' a b}, values W' a b → values' W' (f a) (g b)) :
    K.Runs W values' (f <$> x) (g <$> y) := by
  rw [← bind_pure_comp, ← bind_pure_comp]
  exact L.andReturn hx fun _ => h

/-- Results that are related in one way are related in every weaker way. -/
theorem weaken {values₁ : K.World → α → β → Prop} (hx : K.Runs W values x y)
    (h : ∀ {W' a b}, values W' a b → values₁ W' a b) : K.Runs W values₁ x y := by
  have hid := L.map hx h (f := id) (g := id)
  rwa [id_map, id_map] at hid

theorem ofExcept {line line' : Nat} (hline : K.lines line line') {out : Except RuntimeFault α}
    {out' : Except RuntimeFault β} (h : ExceptRel Eq (values W) out out') :
    K.Runs W values (Eval.ofExcept line out) (Eval.ofExcept line' out') := by
  cases h with
  | ok h => exact L.pure h
  | error h =>
    cases h
    exact L.raise hline _

/-- Both sides count the same number of arguments. -/
theorem checkArity {line line' expected : Nat} (hline : K.lines line line') {vs vs' : List Value}
    (h : K.SameAll W vs vs') : K.Runs W (fun _ => Eq) (Eval.checkArity line expected vs)
      (Eval.checkArity line' expected vs') := by
  unfold Eval.checkArity
  rw [h.length_eq]
  split
  · exact L.pure rfl
  · exact L.raise hline _

/-- Only instances have properties, and instances stand for themselves. -/
theorem propertyOf {t t' : Token} (ht : t.Alike K.lines t') {v v' : Value} (hv : K.Same W v v') :
    K.Runs W K.Same (Eval.propertyOf t v) (Eval.propertyOf t' v') := by
  cases hv with
  | object r => exact L.property r ht
  | constant c => cases c <;> exact L.raise ht.line _
  | _ => exact L.raise ht.line _

/-- Only instances have fields, and instances stand for themselves. -/
theorem setPropertyOf {t t' : Token} (ht : t.Alike K.lines t') {x y : Eval Value}
    (hx : K.Runs W K.Same x y) {v v' : Value} (hv : K.Same W v v') :
    K.Runs W K.Same (Eval.setPropertyOf t x v) (Eval.setPropertyOf t' y v') := by
  cases hv with
  | object r =>
    simp only [Eval.setPropertyOf, ht.lexeme]
    exact L.bind hx (L.closed.setField r _) (L.closed.setField r _) fun _ hv => L.setField r _ hv
  | constant c => cases c <;> exact L.raise ht.line _
  | _ => exact L.raise ht.line _

/-- A function of the host gives values that stand for each other, or the same message. -/
theorem ofHost {line line' : Nat} (hline : K.lines line line') {out out' : Except String Value}
    (h : K.SameResult W out out') :
    K.Runs W K.Same (Eval.ofHost line out) (Eval.ofHost line' out') := by
  cases h with
  | ok hv => exact L.pure hv
  | error h =>
    cases h
    exact L.raise hline _

/-- Classes that stand for each other both have an initializer or none. -/
theorem construct {call call' : Closure → Eval Value} (hrest : ∀ f, K.Rest (call f))
    (hrest' : ∀ f, K.Rest (call' f)) {c c' : Class} (hc : c.Paired (K.Method W) c')
    (hcall : ∀ {W' f f'}, K.Later W W' → K.Function W' f f' → K.Runs W' K.Same (call f) (call' f'))
    (r : InstanceRef) :
    K.Runs W K.Same (Eval.construct call c r) (Eval.construct call' c' r) := by
  have hinit := hc.methods initializerName
  unfold Eval.construct
  generalize c.methods[initializerName]? = o, c'.methods[initializerName]? = o' at hinit
  cases hinit with
  | none => exact L.pure (.object r)
  | some hf =>
    refine L.bind (L.bindMethod r hf) (fun f => ?_) (fun f => ?_) fun hW hbound =>
      L.andReturn (hcall hW hbound) fun _ _ => .object r
    · exact L.closed.bind (hrest f) fun _ => L.closed.pure _
    · exact L.closed.bind (hrest' f) fun _ => L.closed.pure _

/-- Both sides have returned or neither has. -/
theorem unlessReturned {x y : Eval Flow} (hx : K.Runs W K.SameFlow x y) {flow flow' : Flow}
    (h : K.SameFlow W flow flow') :
    K.Runs W K.SameFlow (Eval.unlessReturned x flow) (Eval.unlessReturned y flow') := by
  cases h with
  | normal => exact hx
  | returned hv => exact L.pure (.returned hv)

/-! ## Expressions -/

section

variable {n k : Nat} (ih : K.At host n k)

include ih

/-- The second operand is left out on both sides or on neither. -/
theorem logical {t t' : Token} {a a' b b' : Expr} (ha : a.Alike K.lines (K.Use W) a')
    (ht : t.Alike K.lines t') (hb : b.Alike K.lines (K.Use W) b') :
    K.Runs W K.Same (evaluate host (n + 1) (.logical a t b))
      (evaluate host (k + 1) (.logical a' t' b')) := by
  have hrest : ∀ (n : Nat) (o : Option Expr) (v : Value), K.Rest (o.elim
      (Pure.pure (Value.bool v.isTruthy)) fun e => do
        return .bool (← evaluate host n e).isTruthy) := fun n o v => by
      cases o with
      | none => exact L.closed.pure _
      | some e => exact L.closed.bind ((L.restAt n).evaluate e) fun _ => L.closed.pure _
  rw [evaluate_logical, evaluate_logical]
  refine L.bind (ih.evaluate ha) (fun v => hrest n _ v) (fun v => hrest k _ v)
    fun {W' v v'} hW hv => ?_
  -- The operator and the first value say on both sides alike whether there is a second operand.
  have hsecond : Expr.OptionAlike K.lines (K.Use W') (Expr.second v (.logical a t b))
      (Expr.second v' (.logical a' t' b')) := by
    simp only [Expr.second, ht.kind, hv.isTruthy_eq]
    split
    · exact .none
    · exact .none
    · exact .some (L.alike_mono hW hb)
  generalize Expr.second v _ = o, Expr.second v' _ = o' at hsecond
  cases hsecond with
  | none => exact L.pure hv.truth
  | some he => exact L.andReturn (ih.evaluate he) fun _ hu => hu.truth

/-- **Expressions that stand for each other have values that do**, one case for each form of
expression. -/
theorem evaluate_succ : K.Evaluates (evaluate host (n + 1)) (evaluate host (k + 1)) := by
  have hl := L.restAt n
  have hr := L.restAt k
  intro W e e' h
  cases h with
  | constant c => exact L.pure (.constant c)
  | grouping h => exact ih.evaluate h
  | unary ht h =>
    refine L.bind (ih.evaluate h) (fun _ => L.closed.ofExcept _ _) (fun _ => L.closed.ofExcept _ _)
      fun _ hv => L.ofExcept ht.line ?_
    rw [ht.kind]
    exact hv.applyUnary _
  | binary ha ht hb =>
    refine L.bind (ih.evaluate ha)
      (fun _ => L.closed.bind (hl.evaluate _) fun _ => L.closed.ofExcept _ _)
      (fun _ => L.closed.bind (hr.evaluate _) fun _ => L.closed.ofExcept _ _) fun hW hv => ?_
    refine L.bind (ih.evaluate (L.alike_mono hW hb)) (fun _ => L.closed.ofExcept _ _)
      (fun _ => L.closed.ofExcept _ _) fun hW hu => L.ofExcept ht.line ?_
    rw [ht.kind]
    exact (L.same_mono hW hv).applyBinary hu _
  | logical ha ht hb => exact L.logical ih ha ht hb
  | conditional ha hb hc =>
    exact L.bind (ih.evaluate ha) (fun _ => Eval.Closed.ite _ (hl.evaluate _) (hl.evaluate _))
      (fun _ => Eval.Closed.ite _ (hr.evaluate _) (hr.evaluate _)) fun hW hv =>
        ite (by rw [hv.isTruthy_eq]) (ih.evaluate (L.alike_mono hW hb))
          (ih.evaluate (L.alike_mono hW hc))
  | var hid ht => exact L.lookUp hid ht
  | this hid ht => exact L.lookUp hid ht
  | assign hid ht h =>
    exact L.bind (ih.evaluate h)
      (fun _ => L.closed.bind (L.closed.assign _ _ _) fun _ => L.closed.pure _)
      (fun _ => L.closed.bind (L.closed.assign _ _ _) fun _ => L.closed.pure _) fun hW hv =>
        L.andReturn (L.assign (L.use_mono hW hid) ht hv) fun hW _ => L.same_mono hW hv
  | call hf ht hes =>
    refine L.bind (ih.evaluate hf)
      (fun _ => L.closed.bind (hl.evaluateAll _) fun _ => hl.invoke _ _ _)
      (fun _ => L.closed.bind (hr.evaluateAll _) fun _ => hr.invoke _ _ _) fun hW hf => ?_
    exact L.bind (ih.evaluateAll (hes.mono id (L.use_mono hW))) (fun _ => hl.invoke _ _ _)
      (fun _ => hr.invoke _ _ _) fun hW hvs => ih.invoke (L.same_mono hW hf) ht.line hvs
  | get h ht =>
    rw [evaluate_get, evaluate_get]
    exact L.bind (ih.evaluate h) (L.closed.propertyOf _) (L.closed.propertyOf _)
      fun _ hv => L.propertyOf ht hv
  | set h ht hv =>
    rw [evaluate_set, evaluate_set]
    exact L.bind (ih.evaluate h) (L.closed.setPropertyOf _ (hl.evaluate _))
      (L.closed.setPropertyOf _ (hr.evaluate _)) fun hW hobject =>
        L.setPropertyOf ht (ih.evaluate (L.alike_mono hW hv)) hobject

/-- Arguments are evaluated from the first to the last on both sides. -/
theorem evaluateAll_succ {es es' : List Expr} (h : Expr.AllAlike K.lines (K.Use W) es es') :
    K.Runs W K.SameAll (evaluateAll host (n + 1) es) (evaluateAll host (k + 1) es') := by
  cases h with
  | nil => exact L.pure .nil
  | cons h hes =>
    exact L.bind (ih.evaluate h)
      (fun _ => L.closed.bind ((L.restAt n).evaluateAll _) fun _ => L.closed.pure _)
      (fun _ => L.closed.bind ((L.restAt k).evaluateAll _) fun _ => L.closed.pure _) fun hW hv =>
        L.andReturn (ih.evaluateAll (hes.mono id (L.use_mono hW))) fun hW hvs =>
          .cons (L.same_mono hW hv) hvs

theorem evaluateOptional_succ {e e' : Option Expr}
    (h : Expr.OptionAlike K.lines (K.Use W) e e') :
    K.Runs W K.Same (evaluateOptional host (n + 1) e) (evaluateOptional host (k + 1) e') := by
  cases h with
  | none => exact L.pure (.constant .nil)
  | some h => exact ih.evaluate h

/-- An expression is left out on both sides or on neither. -/
theorem evaluateIfAny {e e' : Option Expr} (h : Expr.OptionAlike K.lines (K.Use W) e e') :
    K.Runs W (fun W => Option.Rel (K.Same W)) (evaluateIfAny host n e)
      (evaluateIfAny host k e') := by
  cases h with
  | none => exact L.pure .none
  | some h => exact L.map (ih.evaluate h) .some

/-! ## Calls -/

/-- Values that stand for each other are called alike, or cannot be called. -/
theorem invoke_succ {f f' : Value} {line line' : Nat} {vs vs' : List Value} (hf : K.Same W f f')
    (hline : K.lines line line') (hvs : K.SameAll W vs vs') :
    K.Runs W K.Same (invoke host (n + 1) f line vs) (invoke host (k + 1) f' line' vs') := by
  have hl := L.restAt n
  have hr := L.restAt k
  have hrest : ∀ {n : Nat} (c : Class), ClosedAt K.Rest host n → ∀ vs,
      K.Rest (Eval.newInstance c >>= Eval.construct (fun f => callClosure host n f vs) c) :=
    fun c h vs =>
    L.closed.bind (L.closed.writes (.newInstance c)) (L.closed.construct (h.callClosure · vs) c)
  cases hf with
  | constant c => cases c <;> exact L.raise hline _
  | object r => exact L.raise hline _
  | host id f =>
    rw [invoke_host, invoke_host]
    refine L.bind (L.checkArity hline hvs)
      (fun _ => L.closed.bind (L.restHost n hl.evaluate _ _) (L.closed.ofHost _))
      (fun _ => L.closed.bind (L.restHost k hr.evaluate _ _) (L.closed.ofHost _)) fun hW _ => ?_
    exact L.bind (L.host f.entry ih.evaluate hl.evaluate hr.evaluate (L.sameAll_mono hW hvs))
      (L.closed.ofHost _) (L.closed.ofHost _) fun _ hout => L.ofHost hline hout
  | function id hf =>
    simp only [invoke, L.function_arity hf]
    exact L.bind (L.checkArity hline hvs) (fun _ => hl.callClosure _ _)
      (fun _ => hr.callClosure _ _) fun hW _ =>
        ih.callClosure (L.function_mono hW hf) (L.sameAll_mono hW hvs)
  | cls hc =>
    rw [invoke_cls, invoke_cls, hc.arity_eq L.method_arity]
    refine L.bind (L.checkArity hline hvs) (fun _ => hrest _ hl _) (fun _ => hrest _ hr _)
      fun hW _ => ?_
    -- The arguments were evaluated in `W`; the instance and the bound initializer come later.
    have hc' := hc.imp (L.method_mono hW)
    refine L.bind (L.newInstance hc') (L.closed.construct (hl.callClosure · _) _)
      (L.closed.construct (hr.callClosure · _) _) fun {_ r r'} hW' hr' => ?_
    cases hr'
    refine L.construct (hl.callClosure · _) (hr.callClosure · _) (hc'.imp (L.method_mono hW'))
      (fun hW'' hbound => ih.callClosure hbound ?_) r
    exact L.sameAll_mono (L.trans (L.trans hW hW') hW'') hvs

/-- Calls of closures that stand for each other run bodies that do. -/
theorem callClosure_succ {f f' : Closure} {vs vs' : List Value} (hf : K.Function W f f')
    (hvs : K.SameAll W vs vs') :
    K.Runs W K.Same (callClosure host (n + 1) f vs) (callClosure host (k + 1) f' vs') := by
  rw [callClosure_eq, callClosure_eq]
  exact L.inCall hf hvs ih.executeAll

/-! ## Statements -/

theorem exprStmt {e e' : Expr} (h : e.Alike K.lines (K.Use W) e') :
    K.Runs W K.SameFlow (execute host (n + 1) (.exprStmt e))
      (execute host (k + 1) (.exprStmt e')) :=
  L.andReturn (ih.evaluate h) fun _ _ => .normal

/-- What is printed is the same on both sides. -/
theorem printStmt {e e' : Expr} (h : e.Alike K.lines (K.Use W) e') :
    K.Runs W K.SameFlow (execute host (n + 1) (.printStmt e))
      (execute host (k + 1) (.printStmt e')) := by
  have hrest : ∀ v, K.Rest (Eval.printValue v >>= fun _ => Pure.pure Flow.normal) := fun v =>
    L.closed.bind (L.closed.printValue v) fun _ => L.closed.pure _
  rw [execute_printStmt, execute_printStmt]
  exact L.bind (ih.evaluate h) hrest hrest fun _ hv =>
    L.andReturn (L.printValue hv) fun _ _ => .normal

/-- A declaration, if the frames that it is made in stand for each other. -/
theorem varDecl {t t' : Token} {e e' : Option Expr} (h : Expr.OptionAlike K.lines (K.Use W) e e')
    (hdefine : ∀ {W' v v'}, K.Later W W' → K.Same W' v v' →
      K.Runs W' (fun _ => Eq) (Eval.define t.lexeme v) (Eval.define t'.lexeme v')) :
    K.Runs W K.SameFlow (execute host (n + 1) (.varDecl t e))
      (execute host (k + 1) (.varDecl t' e')) :=
  L.bind (ih.evaluateOptional h)
    (fun _ => L.closed.bind (L.closed.define _ _) fun _ => L.closed.pure _)
    (fun _ => L.closed.bind (L.closed.define _ _) fun _ => L.closed.pure _) fun hW hv =>
      L.andReturn (hdefine hW hv) fun _ _ => .normal

/-- A statement is left out on both sides or on neither. -/
theorem executeIfAny {o o' : Option Stmt} (h : Option.Rel (K.Code W) o o') :
    K.Runs W K.SameFlow (executeIfAny host n o) (executeIfAny host k o') := by
  cases h with
  | none => exact L.pure .normal
  | some h => exact ih.execute h

/-- Both sides take the same branch. -/
theorem ifStmt {e e' : Expr} {s s' : Stmt} {o o' : Option Stmt}
    (h : e.Alike K.lines (K.Use W) e') (hs : K.Code W s s') (ho : Option.Rel (K.Code W) o o') :
    K.Runs W K.SameFlow (execute host (n + 1) (.ifStmt e s o))
      (execute host (k + 1) (.ifStmt e' s' o')) := by
  have hl := L.restAt n
  have hr := L.restAt k
  rw [execute_ifStmt, execute_ifStmt]
  exact L.bind (ih.evaluate h)
    (fun _ => Eval.Closed.ite _ (hl.execute s) (hl.executeIfAny L.closed o))
    (fun _ => Eval.Closed.ite _ (hr.execute s') (hr.executeIfAny L.closed o')) fun hW hv =>
      ite (by rw [hv.isTruthy_eq]) (ih.execute (L.code_mono hW hs))
        (L.executeIfAny ih (optionRel_mono (L.code_mono hW) ho))

theorem returnStmt (t t' : Token) {e e' : Option Expr}
    (h : Expr.OptionAlike K.lines (K.Use W) e e') :
    K.Runs W K.SameFlow (execute host (n + 1) (.returnStmt t e))
      (execute host (k + 1) (.returnStmt t' e')) :=
  L.andReturn (ih.evaluateOptional h) fun _ hv => .returned hv

/-- Both sides stop behind the same statement, if one returns. -/
theorem executeAll_succ {ss ss' : List Stmt} (h : K.AllCode W ss ss') :
    K.Runs W K.SameFlow (executeAll host (n + 1) ss) (executeAll host (k + 1) ss') := by
  cases h with
  | nil => exact L.pure .normal
  | cons h hss =>
    rw [executeAll_cons, executeAll_cons]
    exact L.bind (ih.execute h) (L.closed.unlessReturned ((L.restAt n).executeAll _))
      (L.closed.unlessReturned ((L.restAt k).executeAll _)) fun hW hflow =>
        L.unlessReturned (ih.executeAll (L.allCode_mono hW hss)) hflow

/-! ## Loops -/

/-- What runs in the frame of a `for` loop. -/
theorem clauses {o o' : Option Stmt} {a a' b b' : Option Expr} {s s' : Stmt}
    (ho : Option.Rel (K.Code W) o o') (ha : Expr.OptionAlike K.lines (K.Use W) a a')
    (hb : Expr.OptionAlike K.lines (K.Use W) b b') (hs : K.Code W s s') :
    K.Runs W K.SameFlow (LoxLang.executeIfAny host n o >>= fun _ => repeatWhile host n a b s)
      (LoxLang.executeIfAny host k o' >>= fun _ => repeatWhile host k a' b' s') :=
  L.bind (L.executeIfAny ih ho) (fun _ => (L.restAt n).repeatWhile a b s)
    (fun _ => (L.restAt k).repeatWhile a' b' s') fun hW _ =>
      ih.repeatWhile (L.optionAlike_mono hW ha) (L.optionAlike_mono hW hb) (L.code_mono hW hs)

omit ih in
/-- Loops whose rounds do the same. -/
theorem rounds {a a' b b' : Option Expr} {s s' : Stmt}
    (hcondition : K.Runs W (fun _ v v' => v.all Value.isTruthy = v'.all Value.isTruthy)
      (LoxLang.evaluateIfAny host n a) (LoxLang.evaluateIfAny host k a'))
    (hbody : ∀ {W'}, K.Later W W' →
      K.Runs W' K.SameFlow (roundBody host n b s) (roundBody host k b' s'))
    (hmore : ∀ {W'}, K.Later W W' →
      K.Runs W' K.SameFlow (repeatWhile host n a b s) (repeatWhile host k a' b' s')) :
    K.Runs W K.SameFlow (repeatWhile host (n + 1) a b s) (repeatWhile host (k + 1) a' b' s') := by
  have hrest : ∀ {n : Nat} {a b : Option Expr} {s : Stmt} (v : Option Value),
      K.Rest (if v.all Value.isTruthy then roundBody host n b s >>=
        Eval.unlessReturned (repeatWhile host n a b s) else Pure.pure .normal) := fun {n a b s} v =>
    Eval.Closed.ite _ (L.closed.bind ((L.restAt n).roundBody L.closed b s)
      (L.closed.unlessReturned ((L.restAt n).repeatWhile a b s))) (L.closed.pure _)
  rw [repeatWhile_eq_rounds, repeatWhile_eq_rounds]
  refine L.bind hcondition hrest hrest fun hW hv => ite (by rw [hv]) ?_ (L.pure .normal)
  exact L.bind (hbody hW) (L.closed.unlessReturned ((L.restAt n).repeatWhile a b s))
    (L.closed.unlessReturned ((L.restAt k).repeatWhile a' b' s')) fun hW' hflow =>
      L.unlessReturned (hmore (L.trans hW hW')) hflow

/-- A round runs bodies that stand for each other, and increments that do. -/
theorem roundBody {b b' : Option Expr} {s s' : Stmt}
    (hb : Expr.OptionAlike K.lines (K.Use W) b b') (hs : K.Code W s s') :
    K.Runs W K.SameFlow (LoxLang.roundBody host n b s) (LoxLang.roundBody host k b' s') := by
  have hrest : ∀ {n : Nat} {b : Option Expr} (flow : Flow), K.Rest (Eval.unlessReturned
      (LoxLang.evaluateIfAny host n b >>= fun _ => Pure.pure .normal) flow) := fun {n b} =>
    L.closed.unlessReturned <| L.closed.bind ((L.restAt n).evaluateIfAny L.closed b) fun _ =>
      L.closed.pure _
  exact L.bind (ih.execute hs) hrest hrest fun hW hflow => L.unlessReturned
    (L.andReturn (L.evaluateIfAny ih (L.optionAlike_mono hW hb)) fun _ _ => .normal) hflow

/-- Both sides begin another round or neither does. -/
theorem condition {a a' : Option Expr} (ha : Expr.OptionAlike K.lines (K.Use W) a a') :
    K.Runs W (fun _ v v' => v.all Value.isTruthy = v'.all Value.isTruthy)
      (LoxLang.evaluateIfAny host n a) (LoxLang.evaluateIfAny host k a') :=
  L.weaken (L.evaluateIfAny ih ha) Value.Paired.all_isTruthy_eq

/-- Loops of the same form run through the same rounds. -/
theorem repeatWhile_succ {a a' b b' : Option Expr} {s s' : Stmt}
    (ha : Expr.OptionAlike K.lines (K.Use W) a a') (hb : Expr.OptionAlike K.lines (K.Use W) b b')
    (hs : K.Code W s s') :
    K.Runs W K.SameFlow (repeatWhile host (n + 1) a b s) (repeatWhile host (k + 1) a' b' s') :=
  L.rounds (L.condition ih ha)
    (fun hW => L.roundBody ih (L.optionAlike_mono hW hb) (L.code_mono hW hs)) fun hW =>
      ih.repeatWhile (L.optionAlike_mono hW ha) (L.optionAlike_mono hW hb) (L.code_mono hW hs)

end

/-! ## Fuel -/

/-- The first side is out of fuel, and so is the second or what it does may follow. -/
theorem left_zero {k : Nat} (h : K.Allows 0 k) {y : Nat → Eval β} (hzero : y 0 = throw .outOfFuel)
    (hy : K.Rest (y k)) : K.Runs W values (throw .outOfFuel) (y k) := by
  cases k with
  | zero =>
    rw [hzero]
    exact L.spent
  | succ k => exact L.spentLeft h hy

/-- Without fuel on the first side, every evaluator stops there at once. -/
theorem at_left_zero {k : Nat} (h : K.Allows 0 k) : K.At host 0 k :=
  have hr := L.restAt k
  { evaluate := fun _ _ _ _ => L.left_zero h (y := fun k => evaluate host k _) rfl (hr.evaluate _)
    evaluateAll := fun _ => L.left_zero h (y := fun k => evaluateAll host k _) rfl
      (hr.evaluateAll _)
    invoke := fun _ _ _ => L.left_zero h (y := fun k => invoke host k _ _ _) rfl (hr.invoke _ _ _)
    callClosure := fun _ _ => L.left_zero h (y := fun k => callClosure host k _ _) rfl
      (hr.callClosure _ _)
    execute := fun _ => L.left_zero h (y := fun k => execute host k _) rfl (hr.execute _)
    evaluateOptional := fun _ => L.left_zero h (y := fun k => evaluateOptional host k _) rfl
      (hr.evaluateOptional _)
    executeAll := fun _ => L.left_zero h (y := fun k => executeAll host k _) rfl (hr.executeAll _)
    repeatWhile := fun _ _ _ => L.left_zero h (y := fun k => repeatWhile host k _ _ _) rfl
      (hr.repeatWhile _ _ _) }

/-- Without fuel on the second side, every evaluator stops there at once. -/
theorem at_right_zero {n : Nat} (h : K.Allows (n + 1) 0) : K.At host (n + 1) 0 :=
  have hl := L.restAt (n + 1)
  { evaluate := fun _ _ _ _ => L.spentRight h (hl.evaluate _)
    evaluateAll := fun _ => L.spentRight h (hl.evaluateAll _)
    invoke := fun _ _ _ => L.spentRight h (hl.invoke _ _ _)
    callClosure := fun _ _ => L.spentRight h (hl.callClosure _ _)
    execute := fun _ => L.spentRight h (hl.execute _)
    evaluateOptional := fun _ => L.spentRight h (hl.evaluateOptional _)
    executeAll := fun _ => L.spentRight h (hl.executeAll _)
    repeatWhile := fun _ _ _ => L.spentRight h (hl.repeatWhile _ _ _) }

/-- **Every evaluator does the same on both sides, if statements do with more fuel than they
need for their parts.** -/
theorem at_of_execute (hexecute : ∀ {n k}, K.Allows (n + 1) (k + 1) →
      (∀ i ≤ n, ∀ j, K.Allows i j → K.At host i j) → ∀ {W s s'}, K.Code W s s' →
      K.Runs W K.SameFlow (execute host (n + 1) s) (execute host (k + 1) s')) (n : Nat) :
    ∀ k, K.Allows n k → K.At host n k := by
  -- Strong induction: the loop inside a statement may be compared on all fuel below, not just on
  -- the step before.
  induction n using Nat.strongRecOn with
  | ind n ih =>
    intro k hallows
    match n, k with
    | 0, k => exact L.at_left_zero hallows
    | n + 1, 0 => exact L.at_right_zero hallows
    | n + 1, k + 1 =>
      have ihk := ih n (Nat.lt_succ_self n) k (L.allows hallows)
      exact
        { evaluate := L.evaluate_succ ihk
          evaluateAll := L.evaluateAll_succ ihk
          invoke := L.invoke_succ ihk
          callClosure := L.callClosure_succ ihk
          execute := hexecute hallows fun i hi => ih i (Nat.lt_succ_of_le hi)
          evaluateOptional := L.evaluateOptional_succ ihk
          executeAll := L.executeAll_succ ihk
          repeatWhile := L.repeatWhile_succ ihk }

end Lawful

end Coupling

end LoxLang
