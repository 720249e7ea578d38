import Mathlib
import LoxLang.Proofs.Run.Discipline
import LoxLang.Proofs.Run.Frames
import LoxLang.Proofs.Store.Pairs

/-!
# Proofs/Run/Obedience — every run obeys a lawful discipline

What is asked of a discipline is about single steps. One induction on the fuel carries it to every
evaluation, however it ends (`Discipline.Lawful.at`), and from there to every call that is made on
the way (`Discipline.Good.arrives`). A discipline that also stands at the start of a session and
takes in each program that is read (`Discipline.Governs`) is kept up over all actions of a session,
those that fail among them (`Discipline.Governs.ok`, `Discipline.Governs.later`), and at each moment
(`Discipline.Governs.moment`).
-/

namespace LoxLang

open EStateM (Result)

/-- Between its actions a session is at the top. -/
theorem Session.Reached.scope_eq_globals {host : Host} (hhost : host.Quiet) {s : Session}
    (h : s.Reached host) : s.machine.scope = s.machine.globals :=
  h.atTop (hhost.leavesScopes.keeps Machine.stable_sameScope)
    (hhost.leavesScopes.keeps Machine.stable_sameGlobals)

section

variable {evaluate : Expr → Eval Value} {e : Expr} {hand : Hand} {m m₁ : Machine}
  {out : Result Stop Machine (Except String Value)}

/-- What a host evaluates, it evaluates on a quiet path to its end. -/
theorem HostEvaluates.quietEnds (h : HostEvaluates evaluate e m₁ hand m out) :
    QuietEnds evaluate hand m out := by
  induction h with
  | evaluated howns h hrest => exact .step (.evaluated howns h) hrest
  | caught howns h hrest => exact .step (.caught howns h) hrest
  | stops howns h => exact .stops howns h
  | later hstep _ ih => exact .step hstep ih

end

namespace Discipline

variable {D : Discipline} {host : Host} {n : Nat} {task task' : Task} {m m' m'' : Machine}

/-! ## Calls -/

/-- A piece of a program brings no values. -/
theorem taskFine_of_isCode (h : task.isCode = true) : D.TaskFine m task := by
  cases task with
  | invoke | callClosure => cases h
  | _ => trivial

/-- With this much fuel every evaluator obeys the discipline. -/
structure At (D : Discipline) (host : Host) (n : Nat) : Prop where
  evaluate : ∀ {e m}, D.Good n (.evaluate e) m → D.Ends m D.Fine (evaluate host n e m)
  evaluateAll : ∀ {es m}, D.Good n (.evaluateAll es) m →
    D.Ends m D.AllFine (evaluateAll host n es m)
  invoke : ∀ {f line arguments m}, D.Good n (.invoke f line arguments) m →
    D.Ends m D.Fine (invoke host n f line arguments m)
  callClosure : ∀ {f arguments m}, D.Good n (.callClosure f arguments) m →
    D.Ends m D.Fine (callClosure host n f arguments m)
  execute : ∀ {s m}, D.Good n (.execute s) m → D.Ends m D.FlowFine (execute host n s m)
  evaluateOptional : ∀ {e m}, D.Good n (.evaluateOptional e) m →
    D.Ends m D.Fine (evaluateOptional host n e m)
  executeAll : ∀ {ss m}, D.Good n (.executeAll ss) m →
    D.Ends m D.FlowFine (executeAll host n ss m)
  repeatWhile : ∀ {condition increment body m},
    D.Good n (.repeatWhile condition increment body) m →
    D.Ends m D.FlowFine (repeatWhile host n condition increment body m)

namespace Good

variable (L : D.Lawful host)

include L

/-- A call for a part obeys, on any machine that the call has come to in the same frame. -/
theorem part (h : D.Good (n + 1) task m) (hmakes : Makes host n task m task' m')
    (hpart : Part task task') (hfollows : D.Follows m m') : D.Next n m task' m' where
  ok := hfollows.ok
  home := by
    rw [hfollows.scope]
    exact L.home hfollows.later h.home
  code := L.code hmakes (.part hpart hfollows) h.ok.shape hfollows.ok.shape h.code
  values := taskFine_of_isCode hpart.isCode
  later := hfollows.later

theorem first (h : D.Good (n + 1) task m) (hfirst : task.first = some task') : D.Good n task' m :=
  (h.part L (.plain (Task.isHost_of_first hfirst) (.first hfirst)) (.first hfirst)
    (.refl L h.ok)).toGood

/-- A new frame without names may be entered from a frame that may be. -/
theorem empty_inside (h : D.Good n task m) :
    D.Ok (m.inside ∅ m.scope) ∧ D.Later m (m.inside ∅ m.scope) ∧
      D.Home (m.inside ∅ m.scope) m.store.frames.size :=
  h.ok.inside L h.home fun hv => by simp at hv

/-- A call for a part that runs in a new frame obeys. -/
theorem inner (h : D.Good (n + 1) task m) (hmakes : Makes host n task m task' m')
    (hinner : InnerPart task task') (hfollows : D.Follows (m.inside ∅ m.scope) m') :
    D.Next n m task' m' where
  ok := hfollows.ok
  home := by
    rw [hfollows.scope]
    exact L.home hfollows.later (h.empty_inside L).2.2
  code := L.code hmakes (.inner hinner hfollows) h.ok.shape hfollows.ok.shape h.code
  values := taskFine_of_isCode hinner.isCode
  later := L.trans (h.empty_inside L).2.1 hfollows.later

/-- The first call of a block or a loop. -/
theorem entered (h : D.Good (n + 1) task m)
    (hmakes : Makes host n task m task' (m.inside ∅ m.scope)) (hinner : InnerPart task task') :
    D.Next n m task' (m.inside ∅ m.scope) :=
  h.inner L hmakes hinner (.refl L (h.empty_inside L).1)

/-- A new frame that binds fine arguments may be entered. -/
theorem arguments_inside {f : Closure} {arguments : List Value}
    (h : D.Good n (.callClosure f arguments) m) :
    D.Ok (m.inside (argumentNames f.routine.parameters arguments) f.scope) ∧
      D.Later m (m.inside (argumentNames f.routine.parameters arguments) f.scope) ∧
      D.Home (m.inside (argumentNames f.routine.parameters arguments) f.scope)
        m.store.frames.size := by
  obtain ⟨⟨id, hf⟩, harguments⟩ := h.values
  exact h.ok.inside L (L.calledHome hf) fun hv => harguments _ (mem_of_argumentNames hv)

/-- The body of a closure obeys in the frame of its call. -/
theorem body {f : Closure} {arguments : List Value}
    (h : D.Good (n + 1) (.callClosure f arguments) m) :
    D.Next n m (.executeAll f.routine.body)
      (m.inside (argumentNames f.routine.parameters arguments) f.scope) := by
  obtain ⟨hok, hlater, hhome⟩ := h.arguments_inside L
  have hcode := L.code (.plain rfl .body) (.body h.values.1) h.ok.shape hok.shape h.code
  exact ⟨⟨hok, hhome, hcode, trivial⟩, hlater⟩

end Good

/-! ## Calls of host functions -/

/-- A call of a host function has come to `m'`, with values and ids in hand; what is evaluated from
there on is evaluated in the call. -/
structure InHost (D : Discipline) (host : Host) (n : Nat) (arguments : List Value) (m : Machine)
    (out : Result Stop Machine (Except String Value)) (hand : Hand) (m' : Machine) : Prop where
  follows : D.Follows m m'
  values : D.AllFine m' hand.values
  ids : ∀ id ∈ hand.ids, D.Owned m' id
  within : ∀ {e m₁}, HostEvaluates (LoxLang.evaluate host n) e m₁ hand m' out →
    HostEvaluates (LoxLang.evaluate host n) e m₁ ⟨arguments, []⟩ m out

namespace InHost

variable {id : ObjectId} {f : HostFunction} {line : Nat} {arguments : List Value}
  {hand hand' : Hand} {e : Expr} (L : D.Lawful host) (ih : D.At host n)
  (h : D.Good (n + 1) (.invoke (.host id f) line arguments) m)
  (hlength : arguments.length = f.arity)

include L

/-- A host function starts with its arguments in hand, which are fine. -/
theorem start (h : D.Good (n + 1) (.invoke (.host id f) line arguments) m)
    (out : Result Stop Machine (Except String Value)) :
    D.InHost host n arguments m out ⟨arguments, []⟩ m :=
  ⟨.refl L h.ok, h.values.2, fun _ hid => absurd hid List.not_mem_nil, fun h => h⟩

include h hlength

/-- What a host evaluates obeys the discipline. -/
theorem good (hin : D.InHost host n arguments m (host f.entry (evaluate host n) arguments m) hand m')
    (howns : hand.Owns e)
    (hevaluates : HostEvaluates (evaluate host n) e m' hand m'
      (host f.entry (evaluate host n) arguments m)) : D.Next n m (.evaluate e) m' where
  ok := hin.follows.ok
  home := by
    rw [hin.follows.scope]
    exact L.home hin.follows.later h.home
  code := by
    have hids : ∀ id ∈ e.ids, D.Owned m' id := fun id hid => hin.ids id (howns id hid)
    exact L.code (.host hlength (hin.within hevaluates)) (.foreign hids) h.ok.shape
      hin.follows.ok.shape h.code
  values := trivial
  later := hin.follows.later

include ih

/-- **A step of a host function obeys the discipline.** -/
theorem step (hin : D.InHost host n arguments m (host f.entry (evaluate host n) arguments m) hand m')
    (hstep : QuietStep (evaluate host n) hand m' hand' m'')
    (hrest : QuietEnds (evaluate host n) hand' m'' (host f.entry (evaluate host n) arguments m)) :
    D.InHost host n arguments m (host f.entry (evaluate host n) arguments m) hand' m'' := by
  -- What the host evaluates from here on it also evaluates from the step before.
  have hwithin := fun {e m₁} (hlater : HostEvaluates (evaluate host n) e m₁ hand' m'' _) =>
    hin.within (.later hstep hlater)
  have hfollows : D.Follows m' m'' → D.Follows m m'' := hin.follows.trans L
  have hids : ∀ {hand₁ : Hand}, D.Later m' m'' → hand₁.ids = hand.ids →
      ∀ id ∈ hand₁.ids, D.Owned m'' id :=
    fun hlater hsame id hid => L.owned hlater (hin.ids id (hsame ▸ hid))
  cases hstep with
  | hold hoffers =>
    have hv := hin.follows.ok.fine_of_offers L hoffers
    exact ⟨hin.follows, List.forall_mem_cons.mpr ⟨hv, hin.values⟩, hin.ids, hwithin⟩
  | @idle nextObject sink clockReads hle =>
    have hidles : m'.Idles { m' with sink, clockReads, nextObject } := ⟨rfl, rfl, rfl, Nat.le_refl _⟩
    obtain ⟨hok, hlater⟩ := hin.follows.ok.idle L hidles
    exact ⟨hfollows ⟨hok, hlater, rfl⟩, hin.values.later L hlater, hids hlater rfl, hwithin⟩
  | @takeIds nextId hle =>
    have hidles : m'.Idles { m' with nextId } := ⟨rfl, rfl, rfl, hle⟩
    obtain ⟨hok, hlater⟩ := hin.follows.ok.idle L hidles
    refine ⟨hfollows ⟨hok, hlater, rfl⟩, hin.values.later L hlater, fun id hid => ?_, hwithin⟩
    rcases List.mem_append.mp hid with hnew | hold
    · obtain ⟨hge, hlt⟩ := List.mem_range'_1.mp hnew
      exact L.taken hin.follows.ok.shape hge (by rwa [Nat.add_sub_cancel' hle] at hlt)
    · exact L.owned hlater (hin.ids id hold)
  | defineGlobal x hv =>
    have hdefined := hin.follows.ok.defining L (x := x) (.inr rfl) (hin.values _ hv)
    exact ⟨hfollows hdefined, hin.values.later L hdefined.later, hids hdefined.later rfl, hwithin⟩
  | evaluated howns hx =>
    have hgood := hin.good L h hlength howns (.evaluated howns hx hrest)
    obtain ⟨hafter, hv⟩ := (ih.evaluate hgood.toGood).of_ok hx
    exact ⟨hfollows hafter, List.forall_mem_cons.mpr ⟨hv, hin.values.later L hafter.later⟩,
      hids hafter.later rfl, hwithin⟩
  | caught howns hx =>
    have hgood := hin.good L h hlength howns (.caught howns hx hrest)
    have hafter := (ih.evaluate hgood.toGood).of_error hx
    exact ⟨hfollows hafter, hin.values.later L hafter.later, hids hafter.later rfl, hwithin⟩

/-- Whatever a host evaluates in a call obeys the discipline. -/
theorem evaluates (hin : D.InHost host n arguments m
      (host f.entry (evaluate host n) arguments m) hand m')
    (hevaluates : HostEvaluates (evaluate host n) e m'' hand m'
      (host f.entry (evaluate host n) arguments m)) : D.Next n m (.evaluate e) m'' := by
  generalize hout : host f.entry (evaluate host n) arguments m = out at hevaluates
  induction hevaluates with
  | evaluated howns hx hrest =>
    subst hout
    exact hin.good L h hlength howns (.evaluated howns hx hrest)
  | caught howns hx hrest =>
    subst hout
    exact hin.good L h hlength howns (.caught howns hx hrest)
  | stops howns hx =>
    refine hin.good L h hlength howns ?_
    rw [hout]
    exact .stops howns hx
  | later hstep hlater ih' =>
    subst hout
    exact ih' (hin.step L ih h hlength hstep hlater.quietEnds) rfl

/-- **A call of a host function obeys the discipline.** -/
theorem ends (hin : D.InHost host n arguments m
      (host f.entry (evaluate host n) arguments m) hand m')
    (hends : QuietEnds (evaluate host n) hand m' (host f.entry (evaluate host n) arguments m)) :
    D.Ends m (fun m₁ r => ∀ v, r = .ok v → D.Fine m₁ v)
      (host f.entry (evaluate host n) arguments m) := by
  generalize hout : host f.entry (evaluate host n) arguments m = out at hends
  induction hends with
  | gives hv =>
    refine .ok hin.follows fun v heq => ?_
    cases heq
    exact hin.values _ hv
  | refuses message => exact .ok hin.follows fun v heq => by cases heq
  | stops howns hx =>
    have hgood := hin.good L h hlength howns (by rw [hout]; exact .stops howns hx)
    exact .error (hin.follows.trans L ((ih.evaluate hgood.toGood).of_error hx))
  | step hstep hrest ih' =>
    subst hout
    exact ih' (hin.step L ih h hlength hstep hrest) rfl

end InHost

/-! ## The calls that a call makes -/

namespace Good

variable (L : D.Lawful host)

include L

/-- A call with values obeys if the values are fine. -/
theorem value (h : D.Good (n + 1) task m) (hmakes : Makes host n task m task' m')
    (hcode : task'.isCode = false) (hfollows : D.Follows m m') (hvalues : D.TaskFine m' task') :
    D.Next n m task' m' where
  ok := hfollows.ok
  home := by
    rw [hfollows.scope]
    exact L.home hfollows.later h.home
  code := L.code hmakes (.value hcode) h.ok.shape hfollows.ok.shape h.code
  values := hvalues
  later := hfollows.later

/-- An initializer is called as a method of the new instance. -/
theorem initialized {c : Class} {line : Nat} {arguments : List Value} {method : Closure}
    (h : D.Good n (.invoke (.cls c) line arguments) m)
    (hmethod : c.methods[initializerName]? = some method) :
    D.Follows (m.instanced c) ((m.instanced c).binding method m.store.instances.size) ∧
      ∀ id, D.Fine ((m.instanced c).binding method m.store.instances.size)
        (.function id { method with scope := m.store.frames.size }) := by
  obtain ⟨hmade, hr⟩ := h.ok.instanced L h.values.1
  have hlookup : (m.instanced c).store.method? m.store.instances.size initializerName =
      some method := by
    change ((m.store.newInstance c).2.classOf? (m.store.newInstance c).1).bind _ = _
    rw [Store.classOf?_newInstance_self]
    exact hmethod
  exact ⟨hmade.ok.binding L hr hlookup, fun _ => L.bound hmade.ok.shape hr hlookup⟩

variable (ih : D.At host n)

include ih

/-- An expression that may be left out obeys if it does where it is there. -/
theorem evaluateIfAny {e : Option Expr} (hok : D.Ok m)
    (h : ∀ e₁, e = some e₁ → D.Good n (.evaluate e₁) m) :
    D.Ends m (fun _ _ => True) (LoxLang.evaluateIfAny host n e m) := by
  cases e with
  | none => exact .pure L hok trivial
  | some e =>
    have he := ih.evaluate (h e rfl)
    simp only [LoxLang.evaluateIfAny, Functor.map, EStateM.map]
    cases hout : LoxLang.evaluate host n e m with
    | ok v m' => exact .ok (he.of_ok hout).1 trivial
    | error stop m' => exact .error (he.of_error hout)

section

variable {condition increment : Option Expr} {body : Stmt}

/-- The condition of a loop obeys. -/
theorem condition_ends (h : D.Good (n + 1) (.repeatWhile condition increment body) m) :
    D.Ends m (fun _ _ => True) (LoxLang.evaluateIfAny host n condition m) := by
  refine evaluateIfAny L ih h.ok fun e he => ?_
  subst he
  exact h.first L rfl

/-- The body of a loop obeys behind its condition. -/
theorem round (h : D.Good (n + 1) (.repeatWhile condition increment body) m) {v : Option Value}
    (hcondition : LoxLang.evaluateIfAny host n condition m = .ok v m')
    (hv : v.all Value.isTruthy = true) : D.Good n (.execute body) m' :=
  (h.part L (.plain rfl (.round hcondition hv)) .round
    ((h.condition_ends L ih).of_ok hcondition).1).toGood

/-- The increment of a loop, behind its body. -/
theorem increment_ends (h : D.Good (n + 1) (.repeatWhile condition increment body) m)
    {v : Option Value} (hcondition : LoxLang.evaluateIfAny host n condition m = .ok v m')
    (hv : v.all Value.isTruthy = true) (hbody : LoxLang.execute host n body m' = .ok .normal m'') :
    D.Follows m m'' ∧ D.Ends m'' (fun _ _ => True) (LoxLang.evaluateIfAny host n increment m'') := by
  have hfollows := ((h.condition_ends L ih).of_ok hcondition).1.trans L
    ((ih.execute (h.round L ih hcondition hv)).of_ok hbody).1
  refine ⟨hfollows, evaluateIfAny L ih hfollows.ok fun e he => ?_⟩
  subst he
  exact (h.part L (.plain rfl (.increment hcondition hv hbody)) .increment hfollows).toGood

end

/-- **A call that obeys the discipline makes only such calls.** -/
theorem makes (h : D.Good (n + 1) task m) (hmakes : Makes host n task m task' m') :
    D.Next n m task' m' := by
  cases hmakes with
  -- The calls of a host function are found along its path. All others are made for a part of the
  -- task, for a body, or with values that the task has at hand.
  | host hlength hevaluates => exact (InHost.start L h _).evaluates L ih h hlength hevaluates
  | plain htask hcalls =>
    have hmakes : Makes host n task m task' m' := .plain htask hcalls
    cases hcalls with
    | first hfirst => exact ⟨h.first L hfirst, L.refl m⟩
    | second hfirst hx hsecond =>
      have hgood := h.first L (congrArg (Option.map Task.evaluate) hfirst)
      exact h.part L hmakes (.second hsecond) ((ih.evaluate hgood).of_ok hx).1
    | arguments hx => exact h.part L hmakes .arguments ((ih.evaluate (h.first L rfl)).of_ok hx).1
    | invoke hx hx' =>
      obtain ⟨hfollows, hf⟩ := (ih.evaluate (h.first L rfl)).of_ok hx
      have hgood := h.part L (.plain rfl (.arguments hx)) .arguments hfollows
      obtain ⟨hfollows', hvs⟩ := (ih.evaluateAll hgood.toGood).of_ok hx'
      exact h.value L hmakes rfl (hfollows.trans L hfollows') ⟨L.fine hfollows'.later hf, hvs⟩
    | evaluateRest hx =>
      exact h.part L hmakes .evaluateRest ((ih.evaluate (h.first L rfl)).of_ok hx).1
    | host => cases htask
    | function hlength =>
      exact h.value L hmakes rfl (.refl L h.ok) ⟨⟨_, h.values.1⟩, h.values.2⟩
    | @initializer c method _ _ _ _ _ hlength hmethod hx =>
      change Result.ok { method with scope := m.store.frames.size }
        ((m.instanced c).binding method m.store.instances.size) = .ok _ m' at hx
      cases hx
      obtain ⟨hbinding, hbound⟩ := h.initialized L hmethod
      have hfollows := (h.ok.instanced L h.values.1).1.trans L hbinding
      exact h.value L hmakes rfl hfollows ⟨⟨0, hbound 0⟩, h.values.2.later L hfollows.later⟩
    | body => exact h.body L
    | block => exact h.entered L hmakes .block
    | onTrue hx hv => exact h.part L hmakes .onTrue ((ih.evaluate (h.first L rfl)).of_ok hx).1
    | onFalse hx hv => exact h.part L hmakes .onFalse ((ih.evaluate (h.first L rfl)).of_ok hx).1
    | forInitial => exact h.entered L hmakes .forInitial
    | forLoop hx =>
      have hgood := h.entered L (.plain rfl .forInitial) .forInitial
      exact h.inner L hmakes .forLoop ((ih.execute hgood.toGood).of_ok hx).1
    | loop => exact h.entered L hmakes .forLoop
    | executeRest hx =>
      exact h.part L hmakes .executeRest ((ih.execute (h.first L rfl)).of_ok hx).1
    | round hx hv => exact h.part L hmakes .round ((h.condition_ends L ih).of_ok hx).1
    | increment hx hv hbody =>
      exact h.part L hmakes .increment (h.increment_ends L ih hx hv hbody).1
    | again hx hv hbody hincrement =>
      obtain ⟨hfollows, hends⟩ := h.increment_ends L ih hx hv hbody
      exact h.part L hmakes .again (hfollows.trans L (hends.of_ok hincrement).1)

/-- Every call that a good call makes is a good one. -/
theorem next (h : D.Good (n + 1) task m) (hmakes : Makes host n task m task' m') :
    D.Good n task' m' :=
  (h.makes L ih hmakes).toGood

end Good

/-! ## The evaluators -/

namespace At

variable (L : D.Lawful host) (ih : D.At host n)

include L ih

/-- Every form of expression ends in order, if its parts do. -/
theorem evaluate_succ {e : Expr} (h : D.Good (n + 1) (.evaluate e) m) :
    D.Ends m D.Fine (LoxLang.evaluate host (n + 1) e m) := by
  cases e with simp only [LoxLang.evaluate]
  | constant c => exact .pure L h.ok (L.constant m c)
  | grouping inner => exact ih.evaluate (h.first L rfl)
  | unary operator operand =>
    refine (ih.evaluate (h.first L rfl)).bind L fun _ hfollows _ => ?_
    refine .ofExcept L hfollows.ok _ fun hv => ?_
    obtain ⟨c, rfl⟩ := applyUnary_constant hv
    exact L.constant _ c
  | binary left operator right =>
    refine (ih.evaluate (h.first L rfl)).bind L fun hx _ _ => ?_
    have hright := h.next L ih (.plain rfl (.second rfl hx rfl))
    refine (ih.evaluate hright).bind L fun _ hfollows _ => ?_
    refine .ofExcept L hfollows.ok _ fun hv => ?_
    obtain ⟨c, rfl⟩ := applyBinary_constant hv
    exact L.constant _ c
  | logical left operator right =>
    change D.Ends m D.Fine (LoxLang.evaluate host (n + 1) (.logical left operator right) m)
    rw [evaluate_logical]
    refine (ih.evaluate (h.first L rfl)).bind L fun {a _} hx hfollows _ => ?_
    cases hsecond : Expr.second a (.logical left operator right) with
    | some e₂ =>
      have hright := h.next L ih (.plain rfl (.second rfl hx hsecond))
      refine (ih.evaluate hright).bind L fun _ hfollows' _ => ?_
      exact .pure L hfollows'.ok (L.constant _ (.bool _))
    | none => exact .pure L hfollows.ok (L.constant _ (.bool _))
  | conditional condition onTrue onFalse =>
    refine (ih.evaluate (h.first L rfl)).bind L fun {a _} hx _ _ => ?_
    have hnext := ih.evaluate (h.next L ih (.plain rfl (.second rfl hx rfl)))
    cases ha : a.isTruthy with simp only [ha] at hnext ⊢
    | true => exact hnext
    | false => exact hnext
  | var id name => exact .lookUp L h.ok id name
  | this id keyword => exact .lookUp L h.ok id keyword
  | assign id name value =>
    refine (ih.evaluate (h.first L rfl)).bind L fun _ hfollows hv => ?_
    have hname := L.assigns h.code hfollows.later hfollows.ok.shape
    refine (Ends.assign L hfollows.ok hv hname).bind L fun _ hfollows' _ => ?_
    exact .pure L hfollows'.ok (L.fine hfollows'.later hv)
  | call callee paren arguments =>
    refine (ih.evaluate (h.first L rfl)).bind L fun hx _ _ => ?_
    have harguments := h.next L ih (.plain rfl (.arguments hx))
    refine (ih.evaluateAll harguments).bind L fun hx' _ _ => ?_
    exact ih.invoke (h.next L ih (.plain rfl (.invoke hx hx')))
  | get object name =>
    refine (ih.evaluate (h.first L rfl)).bind L fun {v _} _ hfollows hv => ?_
    cases v with
    | object r => exact .property L hfollows.ok hv name
    | _ => exact .raise L hfollows.ok _ _
  | set object name value =>
    refine (ih.evaluate (h.first L rfl)).bind L fun {v _} hx hfollows _ => ?_
    cases v with
    | object r =>
      have hvalue := h.next L ih (.plain rfl (.second rfl hx rfl))
      refine (ih.evaluate hvalue).bind L fun {v m₂} hx' hfollows' hv => ?_
      obtain ⟨hshape, hlater⟩ := L.setting h.code hx hx' hfollows'.ok.shape
      have hset := hfollows'.ok.setting L hv hshape hlater
      exact .ok hset (L.fine hlater hv)
    | _ => exact .raise L hfollows.ok _ _

/-- Arguments end in order, from the first to the last. -/
theorem evaluateAll_succ {es : List Expr} (h : D.Good (n + 1) (.evaluateAll es) m) :
    D.Ends m D.AllFine (LoxLang.evaluateAll host (n + 1) es m) := by
  cases es with simp only [LoxLang.evaluateAll]
  | nil => exact .pure L h.ok fun _ hv => absurd hv List.not_mem_nil
  | cons e es =>
    refine (ih.evaluate (h.first L rfl)).bind L fun hx _ hv => ?_
    have hrest := h.next L ih (.plain rfl (.evaluateRest hx))
    refine (ih.evaluateAll hrest).bind L fun _ hfollows hvs => ?_
    exact .pure L hfollows.ok (List.forall_mem_cons.mpr ⟨L.fine hfollows.later hv, hvs⟩)

/-- A call of a class gives the new instance. -/
theorem construct {c : Class} {line : Nat} {arguments : List Value}
    (h : D.Good (n + 1) (.invoke (.cls c) line arguments) m) :
    D.Ends m (fun m' v => v = .object m.store.instances.size ∧ D.Later (m.instanced c) m')
      (LoxLang.invoke host (n + 1) (.cls c) line arguments m) := by
  simp only [LoxLang.invoke]
  refine (Ends.checkArity L h.ok line _ arguments).bind L fun _ _ hsame => ?_
  obtain ⟨rfl, hlength⟩ := hsame
  obtain ⟨hmade, -⟩ := h.ok.instanced L h.values.1
  refine .bind (P := fun m' r => m' = _ ∧ r = _) L (.ok hmade ⟨rfl, rfl⟩) fun _ _ hnew => ?_
  obtain ⟨rfl, rfl⟩ := hnew
  cases hmethod : c.methods[initializerName]? with
  | none => exact .pure L hmade.ok ⟨rfl, L.refl _⟩
  | some method =>
    obtain ⟨hbinding, -⟩ := h.initialized L hmethod
    have hbody := ih.callClosure (h.next L ih (.plain rfl (.initializer hlength hmethod rfl)))
    refine .bind (P := fun m' f => m' = _ ∧ f = _) L (.ok hbinding ⟨rfl, rfl⟩) fun _ _ hnew => ?_
    obtain ⟨rfl, rfl⟩ := hnew
    refine hbody.bind L fun _ hfollows _ => .pure L hfollows.ok ⟨rfl, ?_⟩
    exact L.trans hbinding.later hfollows.later

/-- Calls of all kinds of values end in order. -/
theorem invoke_succ {f : Value} {line : Nat} {arguments : List Value}
    (h : D.Good (n + 1) (.invoke f line arguments) m) :
    D.Ends m D.Fine (LoxLang.invoke host (n + 1) f line arguments m) := by
  cases f with simp only [LoxLang.invoke]
  | host id f =>
    refine (Ends.checkArity L h.ok line _ arguments).bind L fun _ _ hsame => ?_
    obtain ⟨rfl, hlength⟩ := hsame
    have hends := (InHost.start L h _).ends L ih h hlength (L.quiet f.entry _ arguments _)
    refine hends.bind L fun {out _} _ hfollows hout => ?_
    cases out with
    | ok v => exact .pure L hfollows.ok (hout v rfl)
    | error message => exact .raise L hfollows.ok line _
  | function id f =>
    refine (Ends.checkArity L h.ok line _ arguments).bind L fun _ _ hsame => ?_
    obtain ⟨rfl, hlength⟩ := hsame
    exact ih.callClosure (h.next L ih (.plain rfl (.function hlength)))
  | cls c =>
    have hr := (h.ok.instanced L h.values.1).2
    exact (ih.construct L h).imp fun hresult => hresult.1 ▸ L.fine hresult.2 hr
  | _ => exact .raise L h.ok line _

/-- The frame from before is current again behind a call. -/
theorem callClosure_succ {f : Closure} {arguments : List Value}
    (h : D.Good (n + 1) (.callClosure f arguments) m) :
    D.Ends m D.Fine (LoxLang.callClosure host (n + 1) f arguments m) := by
  simp only [LoxLang.callClosure]
  have hbody := Ends.inside L (h.arguments_inside L).2.1 (ih.executeAll (h.body L).toGood)
  exact hbody.bind L fun _ hfollows hflow => .callResult L hfollows.ok f hflow

theorem evaluateOptional_succ {e : Option Expr} (h : D.Good (n + 1) (.evaluateOptional e) m) :
    D.Ends m D.Fine (LoxLang.evaluateOptional host (n + 1) e m) := by
  cases e with simp only [LoxLang.evaluateOptional]
  | none => exact .pure L h.ok (L.constant m .nil)
  | some e => exact ih.evaluate (h.first L rfl)

/-- Every form of statement ends in order, if its parts do. -/
theorem execute_succ {s : Stmt} (h : D.Good (n + 1) (.execute s) m) :
    D.Ends m D.FlowFine (LoxLang.execute host (n + 1) s m) := by
  have hnormal : ∀ {m'}, D.Ok m' → D.Ends m' D.FlowFine ((Pure.pure Flow.normal : Eval Flow) m') :=
    fun hok => .pure L hok fun _ hv => by cases hv
  cases s with simp only [LoxLang.execute]
  | exprStmt e => exact (ih.evaluate (h.first L rfl)).bind L fun _ hfollows _ => hnormal hfollows.ok
  | printStmt e =>
    refine (ih.evaluate (h.first L rfl)).bind L fun _ hfollows _ => .get_bind ?_
    exact (Ends.printLine L hfollows.ok _).bind L fun _ hfollows' _ => hnormal hfollows'.ok
  | varDecl name initial =>
    refine (ih.evaluateOptional (h.first L rfl)).bind L fun _ hfollows hv => ?_
    refine (Ends.define L hfollows.ok (L.declares h.code rfl) hv).bind L fun _ hfollows' _ => ?_
    exact hnormal hfollows'.ok
  | block body =>
    have hbody := h.next L ih (.plain rfl .block)
    exact Ends.inside L (h.empty_inside L).2.1 (ih.executeAll hbody)
  | ifStmt condition onTrue onFalse =>
    refine (ih.evaluate (h.first L rfl)).bind L fun {v _} hx hfollows _ => ?_
    split
    · next hv => exact ih.execute (h.next L ih (.plain rfl (.onTrue hx hv)))
    · next hv =>
      cases onFalse with
      | none => exact hnormal hfollows.ok
      | some s => exact ih.execute (h.next L ih (.plain rfl (.onFalse hx (eq_false_of_ne_true hv))))
  | whileStmt condition body => exact ih.repeatWhile (h.first L rfl)
  | forStmt initial condition increment body =>
    refine Ends.inside L (h.empty_inside L).2.1 ?_
    cases initial with
    | none => exact ih.repeatWhile (h.next L ih (.plain rfl .loop))
    | some s =>
      refine (ih.execute (h.next L ih (.plain rfl .forInitial))).bind L fun hx _ _ => ?_
      exact ih.repeatWhile (h.next L ih (.plain rfl (.forLoop hx)))
  | returnStmt keyword value =>
    refine (ih.evaluateOptional (h.first L rfl)).bind L fun {v _} _ hfollows hv => ?_
    refine .pure L hfollows.ok fun u hu => ?_
    cases hu
    exact hv
  | funDecl r =>
    refine .bind (P := fun _ _ => True) L ?_ fun _ hfollows _ => hnormal hfollows.ok
    refine (Ends.freshObject L h.ok).bind L fun hx hfollows _ => .get_bind ?_
    have hf := L.fine hfollows.later (L.closure m.nextObject h.code h.home)
    cases hx
    exact .define L hfollows.ok (L.declares h.code rfl) hf
  | classDecl name methods =>
    refine .bind (P := fun _ _ => True) L ?_ fun _ hfollows _ => hnormal hfollows.ok
    refine (Ends.freshObject L h.ok).bind L fun hx hfollows _ => .get_bind ?_
    have hc := L.fine hfollows.later (L.cls h.code h.home)
    cases hx
    exact .define L hfollows.ok (L.declares h.code rfl) hc

theorem executeAll_succ {ss : List Stmt} (h : D.Good (n + 1) (.executeAll ss) m) :
    D.Ends m D.FlowFine (LoxLang.executeAll host (n + 1) ss m) := by
  cases ss with simp only [LoxLang.executeAll]
  | nil => exact .pure L h.ok fun _ hv => by cases hv
  | cons s ss =>
    refine (ih.execute (h.first L rfl)).bind L fun {flow _} hx hfollows hflow => ?_
    cases flow with
    | normal => exact ih.executeAll (h.next L ih (.plain rfl (.executeRest hx)))
    | returned v => exact .pure L hfollows.ok hflow

/-- A loop ends in order if its rounds do. -/
theorem repeatWhile_succ {condition increment : Option Expr} {body : Stmt}
    (h : D.Good (n + 1) (.repeatWhile condition increment body) m) :
    D.Ends m D.FlowFine (LoxLang.repeatWhile host (n + 1) condition increment body m) := by
  rw [repeatWhile_eq_round]
  refine (h.condition_ends L ih).bind L fun hx hfollows _ => ?_
  split
  · next hv =>
    refine (ih.execute (h.round L ih hx hv)).bind L fun {flow _} hbody hfollows' hflow => ?_
    cases flow with
    | returned v => exact .pure L hfollows'.ok hflow
    | normal =>
      refine (h.increment_ends L ih hx hv hbody).2.bind L fun hincrement _ _ => ?_
      exact ih.repeatWhile (h.next L ih (.plain rfl (.again hx hv hbody hincrement)))
  · exact .pure L hfollows.ok fun _ hv => by cases hv

end At

/-- **Every evaluation obeys a lawful discipline.** -/
theorem Lawful.at (L : D.Lawful host) : ∀ n, D.At host n
  | 0 => by
    constructor <;> exact fun h => .throw L h.ok .outOfFuel
  | n + 1 =>
    have ih := L.at n
    { evaluate := ih.evaluate_succ L
      evaluateAll := ih.evaluateAll_succ L
      invoke := ih.invoke_succ L
      callClosure := ih.callClosure_succ L
      execute := ih.execute_succ L
      evaluateOptional := ih.evaluateOptional_succ L
      executeAll := ih.executeAll_succ L
      repeatWhile := ih.repeatWhile_succ L }

/-- What a call comes to, however it ends. -/
theorem Good.run (L : D.Lawful host) (h : D.Good n task m) :
    D.Follows m (endOf (task.run host n m)) := by
  have hat := L.at n
  cases task with
  | evaluate => exact (hat.evaluate h).follows_discard
  | evaluateAll => exact (hat.evaluateAll h).follows_discard
  | invoke => exact (hat.invoke h).follows_discard
  | callClosure => exact (hat.callClosure h).follows_discard
  | execute => exact (hat.execute h).follows_discard
  | evaluateOptional => exact (hat.evaluateOptional h).follows_discard
  | executeAll => exact (hat.executeAll h).follows_discard
  | repeatWhile => exact (hat.repeatWhile h).follows_discard

/-- **Every call on the way obeys it as well.** -/
theorem Good.arrives (L : D.Lawful host) {fuel : Nat} (h : D.Good fuel task m)
    (harrives : Arrives host fuel task m n task' m') : D.Next n m task' m' := by
  induction harrives with
  | refl => exact ⟨h, L.refl m⟩
  | @step n _ _ _ _ _ hmakes ih =>
    have hnext := ih.toGood.makes L (L.at n) hmakes
    exact ⟨hnext.toGood, L.trans ih.later hnext.later⟩

/-! ## Actions of a session -/

/-- What a discipline has to take in for an action: a program that is executed, each statement of it
on the machine on which it is, or an expression that is evaluated. -/
def Admits (D : Discipline) (host : Host) (s : Session) : Action → Prop
  | .run fuel source => s.Executes source →
    D.Shape (s.prepared source) ∧ D.Later s.machine (s.prepared source) ∧
      ∀ {t m}, Reaches host fuel (s.read source).statements (s.prepared source) t m →
        D.Follows (s.prepared source) m → D.Code fuel (.execute t) m
  | .evaluate fuel source => ∀ {e}, s.expression? source = some e →
    D.Code fuel (.evaluate e) (s.reading source)
  | .defineHost .. => True

namespace Lawful

variable (L : D.Lawful host) {s : Session} {source : String} {fuel : Nat} {a : Action}

include L

/-- Each statement of a program is executed in obedience. -/
theorem next_of_reaches {ss : List Stmt} {t : Stmt} (hreaches : Reaches host fuel ss m t m') :
    D.Ok m → D.Home m m.scope →
      (∀ {t m'}, Reaches host fuel ss m t m' → D.Follows m m' → D.Code fuel (.execute t) m') →
      D.Next fuel m (.execute t) m' := by
  induction hreaches with
  | here =>
    exact fun hok hhome hcode => ⟨⟨hok, hhome, hcode .here (.refl L hok), trivial⟩, L.refl _⟩
  | later hx _ ih =>
    intro hok hhome hcode
    have hgood : D.Good fuel (.execute _) _ := ⟨hok, hhome, hcode .here (.refl L hok), trivial⟩
    obtain ⟨hfollows, -⟩ := ((L.at fuel).execute hgood).of_ok hx
    have hhome' := hfollows.scope.symm ▸ L.home hfollows.later hhome
    have hnext := ih hfollows.ok hhome' fun hreaches hfollows' =>
      hcode (.later hx hreaches) (hfollows.trans L hfollows')
    exact ⟨hnext.toGood, L.trans hfollows.later hnext.later⟩

/-- **A program is executed in obedience**, also if it ends with a fault. -/
theorem executeProgram : ∀ {ss : List Stmt} {m : Machine}, D.Ok m → D.Home m m.scope →
    (∀ {t m'}, Reaches host fuel ss m t m' → D.Follows m m' → D.Code fuel (.execute t) m') →
    D.Ok (endOf (executeProgram host fuel ss m)) ∧
      D.Later m (endOf (LoxLang.executeProgram host fuel ss m)) := by
  intro ss
  induction ss with
  | nil => exact fun hok _ _ => ⟨hok, L.refl _⟩
  | cons s ss ih =>
    intro m hok hhome hcode
    have hgood : D.Good fuel (.execute s) m := ⟨hok, hhome, hcode .here (.refl L hok), trivial⟩
    have hends := (L.at fuel).execute hgood
    rw [executeProgram_cons]
    cases hout : execute host fuel s m with
    | ok flow m' =>
      obtain ⟨hfollows, -⟩ := hends.of_ok hout
      have hhome' : D.Home m' m'.scope := by
        rw [hfollows.scope]
        exact L.home hfollows.later hhome
      obtain ⟨hok', hlater⟩ := ih hfollows.ok hhome' fun hreaches hfollows' =>
        hcode (.later hout hreaches) (hfollows.trans L hfollows')
      exact ⟨hok', L.trans hfollows.later hlater⟩
    | error stop m' =>
      have hfollows := hends.of_error hout
      have hidles : m'.Idles { m' with scope := m'.globals } := ⟨rfl, rfl, rfl, Nat.le_refl _⟩
      obtain ⟨hok', hlater⟩ := hfollows.ok.idle L hidles
      exact ⟨hok', L.trans hfollows.later hlater⟩

/-- A host function is defined. -/
theorem defineHost (hok : D.Ok m) (name : String) (arity : Nat) (entry : String) :
    D.Ok (m.defineHost name arity entry) ∧ D.Later m (m.defineHost name arity entry) := by
  have hdefined := hok.defining L (x := name) (.inr rfl)
    (L.hostFunction m m.nextObject ⟨name, arity, entry⟩)
  have hidles : (m.defining m.globals name (.host m.nextObject ⟨name, arity, entry⟩)).Idles
      (m.defineHost name arity entry) := ⟨rfl, rfl, rfl, Nat.le_refl _⟩
  obtain ⟨hok', hlater⟩ := hdefined.ok.idle L hidles
  exact ⟨hok', L.trans hdefined.later hlater⟩

/-- The machine before anything ran, but for the clock. -/
theorem ok_start (hfresh : ∀ capacity, D.Shape (.fresh capacity)) (recover : Bool)
    (capacity : Option Nat) : D.Ok (Session.start recover capacity).machine := by
  have hok : D.Ok (.fresh capacity) := by
    refine ⟨hfresh capacity, fun {r x v} hv => ?_, fun {r x v} hv => ?_⟩
    · change (Store.empty.newFrame ∅ none).2.local? r x = some v at hv
      rw [Store.local?_newFrame_empty] at hv
      simp [Store.empty, Store.local?] at hv
    · change (Store.empty.newFrame ∅ none).2.field? r x = some v at hv
      simp [Store.empty, Store.newFrame, Store.field?] at hv
  exact (L.defineHost hok "clock" 0 "clock").1

variable (hok : D.Ok s.machine) (hhome : D.Home s.machine s.machine.scope)

include hok hhome

/-- A program that is executed is begun in obedience. -/
theorem prepared (hadmits : D.Admits host s (.run fuel source)) (h : s.Executes source) :
    D.Ok (s.prepared source) ∧ D.Home (s.prepared source) (s.prepared source).scope := by
  obtain ⟨hshape, hlater, -⟩ := hadmits h
  refine ⟨hok.of_later L hshape hlater ?_ ?_, ?_⟩
  · exact fun hv => .inl (s.store_prepared source ▸ hv)
  · exact fun hv => .inl (s.store_prepared source ▸ hv)
  · rw [s.scope_prepared source]
    exact L.home hlater hhome

/-- A program has been run. -/
theorem executed (hadmits : D.Admits host s (.run fuel source)) (h : s.Executes source) :
    D.Ok (s.run host fuel source).2.machine ∧
      D.Later (s.prepared source) (s.run host fuel source).2.machine := by
  obtain ⟨hok', hhome'⟩ := L.prepared hok hhome hadmits h
  rw [Session.machine_run h]
  exact L.executeProgram hok' hhome' (hadmits h).2.2

/-- An expression is read and evaluated in obedience. -/
theorem next_expression (hadmits : D.Admits host s (.evaluate fuel source)) {e : Expr}
    (h : s.expression? source = some e) :
    D.Next fuel s.machine (.evaluate e) (s.reading source) := by
  have hids := numbered_parseExpression (Session.expression?_eq_some.mp h).2
  have hidles : s.machine.Idles (s.reading source) := ⟨rfl, rfl, rfl, hids.le⟩
  obtain ⟨hok', hlater⟩ := hok.idle L hidles
  exact ⟨⟨hok', L.home hlater hhome, hadmits h, trivial⟩, hlater⟩

/-- **An action that is admitted keeps the discipline up.** -/
theorem act (hadmits : D.Admits host s a) :
    D.Ok (s.act host a).machine ∧ D.Later s.machine (s.act host a).machine := by
  cases a with
  | defineHost name arity entry => exact L.defineHost hok name arity entry
  | run fuel source =>
    change D.Ok (s.run host fuel source).2.machine ∧ D.Later _ (s.run host fuel source).2.machine
    by_cases hexecutes : s.Executes source
    · obtain ⟨hok', hlater⟩ := L.executed hok hhome hadmits hexecutes
      exact ⟨hok', L.trans (hadmits hexecutes).2.1 hlater⟩
    · rw [(Session.run_of_not_executes host fuel hexecutes).2]
      have hids : Numbered s.machine.nextId (s.read source).nextId
        (Stmt.idsAll (s.read source).statements) := numbered_parse _ _
      exact hok.idle L ⟨rfl, rfl, rfl, hids.le⟩
  | evaluate fuel source =>
    change D.Ok (s.evaluate host fuel source).2.2.machine ∧
      D.Later _ (s.evaluate host fuel source).2.2.machine
    cases hread : s.expression? source with
    | none =>
      obtain ⟨limit, hle, heq⟩ := Session.evaluate_of_none host fuel hread
      rw [heq]
      exact hok.idle L ⟨rfl, rfl, rfl, hle⟩
    | some e =>
      rw [Session.evaluate_of_some host fuel hread]
      have hnext := L.next_expression hok hhome hadmits hread
      have hfollows := ((L.at fuel).evaluate hnext.toGood).follows
      exact ⟨hfollows.ok, L.trans hnext.later hfollows.later⟩

/-- The calls that are made while a program runs obey the discipline. -/
theorem next_of_arrives (hadmits : D.Admits host s (.run fuel source)) (h : s.Executes source)
    {t : Stmt} (hreaches : Reaches host fuel (s.read source).statements (s.prepared source) t m)
    (harrives : Arrives host fuel (.execute t) m n task m') :
    D.Next n (s.prepared source) task m' := by
  obtain ⟨hok', hhome'⟩ := L.prepared hok hhome hadmits h
  have hnext := L.next_of_reaches hreaches hok' hhome' (hadmits h).2.2
  have harrived := hnext.toGood.arrives L harrives
  exact ⟨harrived.toGood, L.trans hnext.later harrived.later⟩

/-- **So do all calls that are made in an action that is admitted.** -/
theorem during (hadmits : D.Admits host s a) (h : s.During host a n task m) :
    D.Next n s.machine task m := by
  cases h with
  | run hexecutes hreaches harrives =>
    have hnext := L.next_of_arrives hok hhome hadmits hexecutes hreaches harrives
    exact ⟨hnext.toGood, L.trans (hadmits hexecutes).2.1 hnext.later⟩
  | evaluate hread harrives =>
    have hnext := L.next_expression hok hhome hadmits hread
    have harrived := hnext.toGood.arrives L harrives
    exact ⟨harrived.toGood, L.trans hnext.later harrived.later⟩

end Lawful

/-! ## Sessions -/

/-- **The discipline is fit for sessions.** It stands on the machine before anything ran, takes in
every program that is executed and every expression that is evaluated, and what it asks of a call it
asks no less on a later machine. -/
structure Governs (D : Discipline) (host : Host) : Prop extends D.Lawful host where
  fresh : ∀ capacity, D.Shape (.fresh capacity)
  top : ∀ {m}, D.Shape m → D.Home m m.globals
  lasts : ∀ {n task m m'}, D.Follows m m' → D.Code n task m → D.Code n task m'
  expression : ∀ {n e m}, (∀ id ∈ e.ids, D.Owned m id) → D.Code n (.evaluate e) m
  program : ∀ {s : Session} {source : String}, s.Executes source → D.Shape s.machine →
    D.Shape (s.prepared source) ∧ D.Later s.machine (s.prepared source) ∧
      ∀ t ∈ (s.read source).statements, ∀ n, D.Code n (.execute t) (s.prepared source)

namespace Governs

variable (G : D.Governs host) {s : Session} {source : String} {fuel : Nat}

include G

/-- The globals may be entered between actions. -/
theorem home_scope (h : s.Reached host) (hok : D.Ok s.machine) :
    D.Home s.machine s.machine.scope := by
  rw [h.scope_eq_globals G.quiet]
  exact G.top hok.shape

/-- Every action is admitted. -/
theorem admits (hok : D.Ok s.machine) (a : Action) : D.Admits host s a := by
  cases a with
  | run fuel source =>
    intro hexecutes
    obtain ⟨hshape, hlater, hcode⟩ := G.program hexecutes hok.shape
    exact ⟨hshape, hlater, fun hreaches hfollows => G.lasts hfollows (hcode _ hreaches.mem fuel)⟩
  | evaluate fuel source =>
    intro e hread
    have hids := numbered_parseExpression (Session.expression?_eq_some.mp hread).2
    refine G.expression fun id hid => ?_
    obtain ⟨hge, hlt⟩ := hids.bounds id hid
    exact G.taken hok.shape hge hlt
  | defineHost => trivial

/-- Each action of a session keeps the machine in order, also one that fails. -/
theorem act (hreached : s.Reached host) (hok : D.Ok s.machine) (a : Action) :
    D.Ok (s.act host a).machine ∧ D.Later s.machine (s.act host a).machine :=
  G.toLawful.act hok (G.home_scope hreached hok) (G.admits hok a)

/-- **The discipline is kept up between actions.** -/
theorem ok (h : s.Reached host) : D.Ok s.machine := by
  induction h with
  | start recover capacity => exact G.ok_start G.fresh recover capacity
  | defineHost h name arity entry ih => exact (G.act h ih (.defineHost name arity entry)).1
  | run h fuel source ih => exact (G.act h ih (.run fuel source)).1
  | evaluate h fuel source ih => exact (G.act h ih (.evaluate fuel source)).1

/-- Over any actions the machine only moves on. -/
theorem later (h : s.Reached host) (actions : List Action) :
    D.Later s.machine (s.actAll host actions).machine := by
  induction actions generalizing s with
  | nil => exact G.refl _
  | cons a actions ih =>
    have hlater := (G.act h (G.ok h) a).2
    exact G.trans hlater (ih (h.act a))

/-- **At each moment of a session the discipline is kept up.** -/
theorem during (h : s.Reached host) {a : Action} (hduring : s.During host a n task m) :
    D.Next n s.machine task m :=
  G.toLawful.during (G.ok h) (G.home_scope h (G.ok h)) (G.admits (G.ok h) a) hduring

/-- The same for the calls that a text leads to, run as a program or evaluated. -/
theorem moment (h : s.Reached host) (hmoment : s.Moment host source fuel n task m) :
    D.Next n s.machine task m :=
  hmoment.elim (G.during h) (G.during h)

end Governs

end Discipline

end LoxLang
