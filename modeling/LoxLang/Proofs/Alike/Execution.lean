import Mathlib
import LoxLang.Proofs.Alike.Coupling
import LoxLang.Proofs.Alike.Machine
import LoxLang.Proofs.Run.Frames

/-!
# Proofs/Alike/Execution — machines that are alike run alike

On machines that are alike, evaluating expressions that are alike and executing statements that are
alike does the same, with any fuel (`alikeAt`): what comes out is alike, and so are the machines
then. The world of this coupling never changes (`Pairing.coupling`), and both sides have the same
fuel. A host function has to do the same too (`Host.Respects`): it cannot tell machines apart that
are alike. The functions of the library cannot, as long as the two tables are of the same size, for
the number of recorded distances is all of them that one of its functions looks at
(`Library.respects`).
-/

namespace LoxLang

variable {P : Pairing}

/-- Values, or messages, that are alike. -/
abbrev Value.ResultAlike (P : Pairing) : Except String Value → Except String Value → Prop :=
  ExceptRel Eq (Value.Alike P)

/-- The evaluation of expressions that are alike does the same. -/
def EvaluatesAlike (P : Pairing) (evaluate evaluate' : Expr → Eval Value) : Prop :=
  ∀ ⦃e e'⦄, e.Alike P.lines P.SameUse e' → Eval.Alike P (Value.Alike P) (evaluate e) (evaluate' e')

/-- A function of the host does not tell machines apart that are alike. -/
def HostCode.Respects (code : HostCode) (P : Pairing) : Prop :=
  ∀ ⦃evaluate evaluate' : Expr → Eval Value⦄, EvaluatesAlike P evaluate evaluate' →
    ∀ ⦃arguments arguments'⦄, List.Forall₂ (Value.Alike P) arguments arguments' →
    Eval.Alike P (Value.ResultAlike P) (code evaluate arguments) (code evaluate' arguments')

/-- **The functions of the host do not tell machines apart that are alike.** -/
def Host.Respects (host : Host) (P : Pairing) : Prop :=
  ∀ entry, HostCode.Respects (host entry) P

/-! ## Single steps -/

namespace Eval.Alike

variable {α β : Type} {values : α → β → Prop}

theorem raise {line line' : Nat} (hline : P.lines line line') (fault : RuntimeFault) :
    Eval.Alike P values (Eval.raise line fault) (Eval.raise line' fault) :=
  .throw (.fault (.runtime hline fault))

/-- A result that may be a fault. -/
theorem ofExcept {line line' : Nat} (hline : P.lines line line') {out : Except RuntimeFault α}
    {out' : Except RuntimeFault β} (h : ExceptRel Eq values out out') :
    Eval.Alike P values (Eval.ofExcept line out) (Eval.ofExcept line' out') := by
  cases h with
  | ok h => exact .pure h
  | error h =>
    cases h
    exact raise hline _

theorem ofExcept_eq {line line' : Nat} (hline : P.lines line line')
    {out out' : Except RuntimeFault α} (h : out = out') :
    Eval.Alike P Eq (Eval.ofExcept line out) (Eval.ofExcept line' out') := by
  subst h
  cases out with
  | ok a => exact .pure rfl
  | error fault => exact raise hline fault

/-- A step that changes the machine and gives a result. -/
theorem modifyGet {f : Machine → α × Machine} {g : Machine → β × Machine}
    (h : ∀ {m m'}, m.Alike P m' → values (f m).1 (g m').1 ∧ (f m).2.Alike P (g m').2) :
    Eval.Alike P values (modifyGet f) (modifyGet g) :=
  fun _ _ hm => .ok (h hm).1 (h hm).2

theorem modify {f g : Machine → Machine} (h : ∀ {m m'}, m.Alike P m' → (f m).Alike P (g m')) :
    Eval.Alike P Eq (modify f : Eval Unit) (modify g) :=
  fun _ _ hm => .ok rfl (h hm)

theorem freshObject : Eval.Alike P Eq Eval.freshObject Eval.freshObject :=
  modifyGet fun hm => ⟨hm.nextObject, { hm with nextObject := congrArg (· + 1) hm.nextObject }⟩

/-- The new frames have the same place in both stores. -/
theorem newFrame {names names' : Std.TreeMap String Value}
    (hnames : Store.Alike.NamesAlike P names names') (r : FrameRef) :
    Eval.Alike P Eq (Eval.newFrame names r) (Eval.newFrame names' r) :=
  modifyGet fun hm => ⟨hm.store.frames, { hm with store := hm.store.newFrame hnames (some r) }⟩

theorem newInstance {c c' : Class} (hc : c.Alike P c') :
    Eval.Alike P Eq (Eval.newInstance c) (Eval.newInstance c') :=
  modifyGet fun hm => ⟨hm.store.instances, { hm with store := hm.store.newInstance hc }⟩

theorem bindIn (r : FrameRef) (x : String) {v v' : Value} (hv : v.Alike P v') :
    Eval.Alike P Eq (Eval.bindIn r x v) (Eval.bindIn r x v') :=
  modify fun hm => { hm with store := hm.store.define r x hv }

theorem define (x : String) {v v' : Value} (hv : v.Alike P v') :
    Eval.Alike P Eq (Eval.define x v) (Eval.define x v') := by
  refine .get_bind fun hm => ?_
  rw [hm.scope]
  exact bindIn _ x hv

/-- The frame from before is current again on both sides. -/
theorem inFrame (r : FrameRef) {x : Eval α} {y : Eval β} (hx : Eval.Alike P values x y) :
    Eval.Alike P values (Eval.inFrame r x) (Eval.inFrame r y) := by
  intro m m' hm
  have hinside : Machine.Alike P { m with scope := r } { m' with scope := r } :=
    { hm with scope := rfl }
  have hout := hx hinside
  unfold Eval.inFrame
  dsimp only
  generalize x { m with scope := r } = out, y { m' with scope := r } = out' at hout
  cases hout with
  | ok h hs => exact .ok h { hs with scope := hm.scope }
  | error h hs => exact .error h { hs with scope := hm.scope }

/-- A computation in a new frame. -/
theorem inNewFrame {x : Eval α} {y : Eval β} (hx : Eval.Alike P values x y) :
    Eval.Alike P values (Eval.inNewFrame x) (Eval.inNewFrame y) := by
  refine .get_bind fun hm => ?_
  rw [hm.scope]
  refine (newFrame (fun x => by simp) _).bind fun {r r'} hr => ?_
  cases hr
  exact inFrame r hx

/-- The line is written to both sinks, and fails on both or on neither. -/
theorem printLine (line : String) :
    Eval.Alike P Eq (Eval.printLine line) (Eval.printLine line) := by
  intro m m' hm
  have hwritten : Machine.Alike P { m with sink := m.sink.write (line ++ "\n").toUTF8 }
      { m' with sink := m'.sink.write (line ++ "\n").toUTF8 } :=
    { hm with sink := by rw [hm.sink] }
  unfold Eval.printLine
  dsimp only
  rw [show m.sink.takes (line ++ "\n").toUTF8 = m'.sink.takes (line ++ "\n").toUTF8 by rw [hm.sink]]
  split
  · exact .ok rfl hwritten
  · exact .error (.fault .output) hwritten

/-! ### Names -/

variable {id id' : NodeId} {t t' : Token}

/-- A use of a name leads to the same frame on both sides, since it has the same distance. -/
theorem lookUp (hid : P.SameUse id id') (ht : t.Alike P.lines t') :
    Eval.Alike P (Value.Alike P) (Eval.lookUp id t) (Eval.lookUp id' t') := by
  refine .get_bind fun {m m'} hm => ofExcept ht.line ?_
  rw [hm.left, hm.right, hm.scope, hm.globals, ht.lexeme, show P.left[id]? = P.right[id']? from hid]
  cases P.right[id']? with
  | none => exact hm.store.get _ _
  | some d => exact hm.store.getAt _ _ _

/-- An assignment writes to the same frame on both sides. -/
theorem assign (hid : P.SameUse id id') (ht : t.Alike P.lines t') {v v' : Value}
    (hv : v.Alike P v') : Eval.Alike P Eq (Eval.assign id t v) (Eval.assign id' t' v') := by
  refine .get_bind fun {m m'} hm => ?_
  refine (ofExcept_eq ht.line ?_).bind fun {r r'} hr => ?_
  · rw [hm.left, hm.right, hm.scope, hm.globals, ht.lexeme,
      show P.left[id]? = P.right[id']? from hid]
    cases P.right[id']? with
    | none => exact hm.store.locate_eq _ _
    | some d => exact hm.store.locateAt_eq _ _ _
  · cases hr
    rw [ht.lexeme]
    exact bindIn r _ hv

/-! ### Functions and classes -/

/-- The instance is bound under `this` on both sides. -/
theorem bindMethod {f f' : Closure} (hf : f.Alike P f') (r : InstanceRef) :
    Eval.Alike P (Closure.Alike P) (Eval.bindMethod f r) (Eval.bindMethod f' r) := by
  unfold Eval.bindMethod
  rw [hf.scope]
  refine (newFrame (fun x => ?_) _).bind fun {r r'} hr => .pure ?_
  · change Option.Rel (Value.Alike P)
      ((∅ : Std.TreeMap String Value).insert thisName (.object r))[x]?
      ((∅ : Std.TreeMap String Value).insert thisName (.object r))[x]?
    rw [Std.TreeMap.getElem?_insert]
    split
    · exact .some (.object r)
    · simp
  · exact ⟨hf.routine, hr, hf.isInitializer⟩

/-- A property is a field on both sides, or a method, or it is missing on both. -/
theorem property (r : InstanceRef) (ht : t.Alike P.lines t') :
    Eval.Alike P (Value.Alike P) (Eval.property r t) (Eval.property r t') := by
  refine .get_bind fun {m m'} hm => ?_
  have hfield := hm.store.field? r t.lexeme
  have hmethod := hm.store.method? r t.lexeme
  rw [← ht.lexeme]
  dsimp only
  generalize m.store.field? r t.lexeme = o, m'.store.field? r t.lexeme = o' at hfield
  generalize m.store.method? r t.lexeme = f, m'.store.method? r t.lexeme = f' at hmethod
  cases hfield with
  | some hv => exact .pure hv
  | none =>
    cases hmethod with
    | none => exact raise ht.line _
    | some hf =>
      refine (bindMethod hf r).bind fun hbound => freshObject.bind fun {id id'} hid => ?_
      cases hid
      exact .pure (.function id hbound)

theorem setField (r : InstanceRef) (name : String) {v v' : Value} (hv : v.Alike P v') :
    Eval.Alike P (Value.Alike P) (Eval.setField r name v) (Eval.setField r name v') := by
  refine (modify fun hm => ?_).bind fun _ => .pure hv
  exact { hm with store := hm.store.setField r name hv }

/-- Values that are alike are printed alike. -/
theorem printValue {v v' : Value} (hv : v.Alike P v') :
    Eval.Alike P Eq (Eval.printValue v) (Eval.printValue v') := by
  refine .get_bind fun hm => ?_
  rw [hm.store.text_eq hv]
  exact printLine _

theorem declareFunction {r r' : Routine} (hr : r.Alike P.lines P.Kept r') :
    Eval.Alike P Eq (Eval.declareFunction r) (Eval.declareFunction r') := by
  refine freshObject.bind fun {id id'} hid => .get_bind fun hm => ?_
  cases hid
  rw [hr.name.lexeme, hm.scope]
  exact define _ (.function id ⟨hr, rfl, rfl⟩)

end Eval.Alike

/-- Methods of one name are alike in both classes. -/
theorem methodTable_alike (scope : FrameRef) : ∀ {rs rs' : List Routine},
    Routine.AllAlike P.lines P.Kept rs rs' → List.Forall₂
      (fun a b : String × Closure => a.1 = b.1 ∧ a.2.Alike P b.2)
      (rs.map fun r => (r.name.lexeme, Closure.mk r scope (r.name.lexeme = initializerName)))
      (rs'.map fun r => (r.name.lexeme, Closure.mk r scope (r.name.lexeme = initializerName)))
  | _, _, .nil => .nil
  | _, _, .cons hr hrs =>
    .cons ⟨hr.name.lexeme, hr, rfl, by simp only [hr.name.lexeme]⟩ (methodTable_alike scope hrs)

/-- Arguments that are alike are bound to the same names. -/
theorem argumentNames_alike {ps ps' : List Token} {vs vs' : List Value}
    (hps : List.Forall₂ (Token.Alike P.lines) ps ps')
    (hvs : List.Forall₂ (Value.Alike P) vs vs') :
    Store.Alike.NamesAlike P (argumentNames ps vs) (argumentNames ps' vs') := by
  refine ofList_rel ?_
  induction hps generalizing vs vs' with
  | nil => exact .nil
  | cons hp _ ih =>
    cases hvs with
    | nil => exact .nil
    | cons hv hvs => exact .cons ⟨hp.lexeme, hv⟩ (ih hvs)

namespace Eval.Alike

theorem declareClass {t t' : Token} (ht : t.Alike P.lines t') {rs rs' : List Routine}
    (hrs : Routine.AllAlike P.lines P.Kept rs rs') :
    Eval.Alike P Eq (Eval.declareClass t rs) (Eval.declareClass t' rs') := by
  refine freshObject.bind fun {id id'} hid => .get_bind fun hm => ?_
  cases hid
  rw [ht.lexeme, hm.scope]
  exact define _ (.cls ⟨rfl, rfl, ofList_rel (methodTable_alike _ hrs)⟩)

/-- An initializer gives its instance on both sides. -/
theorem callResult {f f' : Closure} (hf : f.Alike P f') {flow flow' : Flow}
    (hflow : flow.Alike P flow') :
    Eval.Alike P (Value.Alike P) (Eval.callResult f flow) (Eval.callResult f' flow') := by
  unfold Eval.callResult
  refine .ite (by rw [hf.isInitializer]) ?_ ?_
  · refine .get_bind fun hm => ofExcept hf.routine.name.line ?_
    rw [hf.scope]
    exact hm.store.getAt _ 0 thisName
  · cases hflow with
    | normal => exact .pure (.constant .nil)
    | returned hv => exact .pure hv

/-- The body runs in a frame that binds the arguments. -/
theorem inCall {f f' : Closure} (hf : f.Alike P f') {vs vs' : List Value}
    (hvs : List.Forall₂ (Value.Alike P) vs vs') {x y : Eval Flow}
    (hx : Eval.Alike P (Flow.Alike P) x y) :
    Eval.Alike P (Value.Alike P) (Eval.inCall f vs x) (Eval.inCall f' vs' y) := by
  unfold Eval.inCall
  rw [hf.scope]
  refine (newFrame (argumentNames_alike hf.routine.parameters hvs) _).bind fun {r r'} hr => ?_
  cases hr
  exact (inFrame r hx).bind fun hflow => callResult hf hflow

end Eval.Alike

/-! ## The evaluators -/

/-- Machines that are alike run side by side, with the same fuel. Whatever the two sides do, they
have the same in common. -/
def Pairing.coupling (P : Pairing) : Coupling where
  World := Unit
  Later _ _ := True
  Runs _ values x y := Eval.Alike P (values ()) x y
  Rest _ := True
  Allows n k := n = k
  lines := P.lines
  Use _ := P.SameUse
  Function _ := Closure.Alike P
  Method _ := Closure.Alike P
  Code _ s s' := s.Alike P.lines P.Kept s'

/-- Of the ids of a program that is run, all were given out; for a run only their distances count. -/
theorem Expr.Alike.used {e e' : Expr} (h : e.Alike P.lines P.Kept e') :
    e.Alike P.lines P.SameUse e' :=
  h.mono id Pairing.Kept.sameUse

theorem Expr.OptionAlike.used {e e' : Option Expr} (h : Expr.OptionAlike P.lines P.Kept e e') :
    Expr.OptionAlike P.lines P.SameUse e e' :=
  h.mono id Pairing.Kept.sameUse

theorem Stmt.OptionAlike.code {o o' : Option Stmt} (h : Stmt.OptionAlike P.lines P.Kept o o') :
    Option.Rel (P.coupling.Code ()) o o' := by
  cases h with
  | none => exact .none
  | some h => exact .some h

theorem Stmt.AllAlike.code : ∀ {ss ss' : List Stmt}, Stmt.AllAlike P.lines P.Kept ss ss' →
    P.coupling.AllCode () ss ss'
  | _, _, .nil => .nil
  | _, _, .cons h hss => .cons h hss.code

namespace Pairing

variable {host : Host} {n : Nat}

/-- The steps of both sides are alike. -/
theorem lawful (hhost : host.Respects P) : P.coupling.Lawful host where
  closed := by constructor <;> intros <;> trivial
  restHost _ _ _ _ := trivial
  trans _ _ := trivial
  use_mono _ h := h
  function_mono _ h := h
  method_mono _ h := h
  code_mono _ h := h
  function_arity h := h.arity_eq
  method_arity h := h.arity_eq
  pure h := .pure h
  bind hx _ _ h := hx.bind (h trivial)
  raise := .raise
  allows := Nat.succ.inj
  spent hm := .error .outOfFuel hm
  spentLeft h _ := nomatch h
  spentRight h _ := nomatch h
  lookUp := .lookUp
  assign hid ht hv := .assign hid ht hv
  property := .property
  setField r name hv := .setField r name hv
  newInstance := .newInstance
  bindMethod r hf := .bindMethod hf r
  printValue := .printValue
  inCall hf hvs hx := .inCall hf hvs (hx hf.routine.body.code)
  host entry _ _ _ _ _ hevaluate _ _ hvs := hhost entry (hevaluate (W := ())) hvs

/-- Statements of the same form, with one more unit of fuel than their parts. -/
theorem execute_succ (L : P.coupling.Lawful host) (ih : P.coupling.At host n n) {s s' : Stmt}
    (h : s.Alike P.lines P.Kept s') : P.coupling.Runs () P.coupling.SameFlow
      (execute host (n + 1) s) (execute host (n + 1) s') := by
  cases h with
  | exprStmt h => exact L.exprStmt ih h.used
  | printStmt h => exact L.printStmt ih h.used
  | varDecl ht h =>
    refine L.varDecl ih h.used fun _ hv => ?_
    rw [ht.lexeme]
    exact Eval.Alike.define _ hv
  | block h => exact Eval.Alike.inNewFrame (ih.executeAll h.code)
  | ifStmt h hs ho => exact L.ifStmt ih h.used hs ho.code
  | whileStmt h hs => exact ih.repeatWhile (.some h.used) .none hs
  | forStmt ho ha hb hs =>
    rw [execute_forStmt, execute_forStmt]
    exact Eval.Alike.inNewFrame (L.clauses ih ho.code ha.used hb.used hs)
  | returnStmt _ h => exact L.returnStmt ih _ _ h.used
  | funDecl h => exact (Eval.Alike.declareFunction h).bind fun _ => .pure .normal
  | classDecl ht h => exact (Eval.Alike.declareClass ht h).bind fun _ => .pure .normal

end Pairing

/-- **On machines that are alike every evaluator does the same, with any fuel.** -/
theorem alikeAt {host : Host} (hhost : host.Respects P) (n : Nat) : P.coupling.At host n n := by
  have L := P.lawful hhost
  refine L.at_of_execute (fun {n k} hallows ih => ?_) n n rfl
  obtain rfl : n = k := L.allows hallows
  exact Pairing.execute_succ L (ih n (Nat.le_refl n) n rfl)

section

variable {host : Host} (hhost : host.Respects P) (fuel : Nat)

include hhost

/-- **Expressions that are alike have values that are alike.** -/
theorem evaluate_alike {e e' : Expr} (h : e.Alike P.lines P.SameUse e') :
    Eval.Alike P (Value.Alike P) (evaluate host fuel e) (evaluate host fuel e') :=
  (alikeAt hhost fuel).evaluate (W := ()) h

/-- **Statements that are alike do the same on machines that are alike.** -/
theorem execute_alike {s s' : Stmt} (h : s.Alike P.lines P.Kept s') :
    Eval.Alike P (Flow.Alike P) (execute host fuel s) (execute host fuel s') :=
  (alikeAt hhost fuel).execute (W := ()) h

/-- **A program does the same on machines that are alike.** -/
theorem executeProgram_alike : ∀ {ss ss' : List Stmt}, Stmt.AllAlike P.lines P.Kept ss ss' →
    Eval.Alike P Eq (executeProgram host fuel ss) (executeProgram host fuel ss')
  | _, _, .nil => .pure rfl
  | s :: ss, s' :: ss', .cons h hss => by
    intro m m' hm
    have hout := execute_alike hhost fuel h hm
    rw [executeProgram_cons, executeProgram_cons]
    generalize execute host fuel s m = out, execute host fuel s' m' = out' at hout
    cases hout with
    | ok _ hm => exact executeProgram_alike hss hm
    | error hstop hm => exact .error hstop { hm with scope := hm.globals }

end

/-! ## The library -/

/-- What is known of the ids on either side says which of them stand for each other. -/
theorem Expr.Alike.of_ids {lines : Lines} {uses : Ids} {left right : NodeId → Prop} {e e' : Expr}
    (h : e.Alike lines .any e') (huses : ∀ {i j}, left i → right j → uses i j)
    (hids : ∀ id ∈ e.ids, left id) (hids' : ∀ id ∈ e'.ids, right id) : e.Alike lines uses e' := by
  have hjoins : uses.Joins (fun i _ => left i) (fun j _ => right j) := fun _ _ _ => huses
  have huse : ∀ {e : Expr} {u : Use}, u ∈ e.uses [] none → u.1 ∈ e.ids := fun {e} {u} hu => by
    rw [← e.map_fst_uses]
    exact List.mem_map_of_mem hu
  exact h.recorded hjoins (fun u hu => hids u.1 (huse hu)) fun u hu => hids' u.1 (huse hu)

/-- Names that got their ids only now are not recorded on either side. -/
theorem Expr.Alike.unrecorded {e e' : Expr} (h : e.Alike P.lines .any e')
    (hids : ∀ id ∈ e.ids, P.leftLimit ≤ id) (hids' : ∀ id ∈ e'.ids, P.rightLimit ≤ id) :
    e.Alike P.lines P.SameUse e' :=
  h.of_ids (fun hi hj => (P.left_fresh _ hi).trans (P.right_fresh _ hj).symm) hids hids'

/-- Machines stay alike when a function of the host is defined in both. -/
theorem Machine.Alike.defineHost {m m' : Machine} (h : m.Alike P m') (name : String) (arity : Nat)
    (entry : String) :
    (m.defineHost name arity entry).Alike P (m'.defineHost name arity entry) := by
  unfold Machine.defineHost
  rw [h.globals, h.nextObject]
  exact { h with
    store := h.store.define _ _ (.host _ _)
    globals := rfl
    nextObject := rfl }

namespace Library

variable {readings : Nat → Float}

/-- Only the messages of faults come out, and they do not tell the lines. -/
theorem evaluateSource_alike {evaluate evaluate' : Expr → Eval Value}
    (hevaluate : EvaluatesAlike P evaluate evaluate') (source : String) :
    Eval.Alike P (Value.ResultAlike P) (evaluateSource evaluate source)
      (evaluateSource evaluate' source) := by
  intro m m' hm
  have htokens : List.Forall₂ (Token.Alike P.lines) (tokensOf (scan source))
      (tokensOf (scan source)) := List.forall₂_same.mpr fun t _ => .refl P.lines_refl t
  have hread := parseExpression_alike P.lines_refl htokens m.nextId m'.nextId
  have htaken := hm.takeIds (le_parseExpression (tokensOf (scan source)) m.nextId)
    (le_parseExpression (tokensOf (scan source)) m'.nextId)
  rcases hleft : parseExpression (tokensOf (scan source)) m.nextId with ⟨out, nextId⟩
  rcases hright : parseExpression (tokensOf (scan source)) m'.nextId with ⟨out', nextId'⟩
  rw [hleft, hright] at hread htaken
  cases hread with
  | error hd =>
    rw [evaluateSource_of_error hleft, evaluateSource_of_error hright, hd.message_eq]
    exact .ok (.error rfl) htaken
  | @ok e e' he =>
    have hids := numbered_parseExpression (congrArg Prod.fst hleft)
    have hids' := numbered_parseExpression (congrArg Prod.fst hright)
    have hout := hevaluate (he.unrecorded
      (fun id hid => Nat.le_trans hm.leftLimit (hids.bounds id hid).1)
      fun id hid => Nat.le_trans hm.rightLimit (hids'.bounds id hid).1) htaken
    rw [evaluateSource_of_ok hleft, evaluateSource_of_ok hright]
    generalize evaluate e { m with nextId } = out, evaluate' e' { m' with nextId := nextId' } = out'
      at hout
    cases hout with
    | ok hv hm => exact .ok (.ok hv) hm
    | error hstop hm =>
      cases hstop with
      | outOfFuel => exact .error .outOfFuel hm
      | fault hd =>
        dsimp only
        rw [hd.message_eq]
        exact .ok (.error rfl) hm

/-- A name that is not in the library. -/
theorem host_of_arity?_none {entry : String} (h : arity? entry = none)
    (evaluate : Expr → Eval Value) (arguments : List Value) :
    host readings entry evaluate arguments = pure (.error "no such host function") := by
  unfold host
  split
  all_goals first | rfl | exact absurd h (by decide)

/-- What `twice` gives. -/
def doubled : List Value → Except String Value
  | [.number x] => .ok (.number (x * 2))
  | _ => .error "twice expects a number."

theorem doubled_of_more (v u : Value) (us : List Value) :
    doubled (v :: u :: us) = .error "twice expects a number." := by
  cases v <;> rfl

/-- Whether `twice` takes a value does not depend on its closures. -/
theorem doubled_core (v : Value) : doubled [v.core] = doubled [v] := by
  cases v <;> rfl

theorem doubled_self {values : Value → Value → Prop} (h : ∀ c : Constant, values c.value c.value)
    (v : Value) : ExceptRel Eq values (doubled [v]) (doubled [v]) := by
  cases v with
  | number x => exact .ok (h (.number _))
  | _ => exact .error rfl

/-- What `twice` gives depends on its arguments alone. -/
theorem host_twice (evaluate : Expr → Eval Value) (arguments : List Value) :
    host readings "twice" evaluate arguments = pure (doubled arguments) := by
  rcases arguments with _ | ⟨v, _ | ⟨u, us⟩⟩
  · rfl
  · cases v <;> rfl
  · cases v <;> rfl

/-- What has to be known of a relation between computations for the functions of the library to be
related by it. -/
structure Relates (readings : Nat → Float) (values : Value → Value → Prop)
    (results : Eval (Except String Value) → Eval (Except String Value) → Prop)
    (evaluate evaluate' : Expr → Eval Value) : Prop where
  pure : ∀ {r r'}, ExceptRel Eq values r r' → results (pure r) (pure r')
  constant : ∀ c : Constant, values c.value c.value
  core_eq : ∀ {v v'}, values v v' → v.core = v'.core
  clock : results (host readings "clock" evaluate []) (host readings "clock" evaluate' [])
  text : ∀ {v v'}, values v v' → ∀ entry ∈ ["show", "install", "evalsrc"],
    results (host readings entry evaluate [v]) (host readings entry evaluate' [v'])

namespace Relates

variable {values : Value → Value → Prop}
  {results : Eval (Except String Value) → Eval (Except String Value) → Prop}
  {evaluate evaluate' : Expr → Eval Value}

theorem refuses (h : Relates readings values results evaluate evaluate') (message : String) :
    results (Pure.pure (.error message)) (Pure.pure (.error message)) :=
  h.pure (.error rfl)

theorem gives (h : Relates readings values results evaluate evaluate') (c : Constant) :
    results (Pure.pure (.ok c.value)) (Pure.pure (.ok c.value)) :=
  h.pure (.ok (h.constant c))

/-- It is refused on both sides or doubles the same number. -/
theorem twice (h : Relates readings values results evaluate evaluate')
    {arguments arguments' : List Value} (harguments : List.Forall₂ values arguments arguments') :
    results (host readings "twice" evaluate arguments)
      (host readings "twice" evaluate' arguments') := by
  rw [host_twice, host_twice]
  refine h.pure ?_
  rcases harguments with _ | ⟨hv, _ | _⟩
  · exact .error rfl
  · rw [← doubled_core, h.core_eq hv, doubled_core]
    exact doubled_self h.constant _
  · rw [doubled_of_more, doubled_of_more]
    exact .error rfl

/-- **The functions of the library are related**, `locals` only if it is. -/
theorem host_entry (h : Relates readings values results evaluate evaluate') (entry : String)
    (hlocals : entry = "locals" →
      results (host readings "locals" evaluate []) (host readings "locals" evaluate' []))
    {arguments arguments' : List Value} (harguments : List.Forall₂ values arguments arguments') :
    results (host readings entry evaluate arguments) (host readings entry evaluate' arguments') := by
  cases hentry : arity? entry with
  | none =>
    rw [host_of_arity?_none hentry, host_of_arity?_none hentry]
    exact h.refuses _
  | some n =>
    unfold arity? at hentry
    split at hentry
    · rcases harguments with _ | ⟨_, _⟩
      · exact h.clock
      · exact h.refuses _
    · exact h.refuses _
    · rcases harguments with _ | ⟨_, _⟩
      · exact hlocals rfl
      · exact h.refuses _
    · exact h.twice harguments
    · rcases harguments with _ | ⟨hv, _ | _⟩
      · exact h.refuses _
      · exact h.text hv "show" (by simp)
      · exact h.refuses _
    · rcases harguments with _ | ⟨hv, _ | _⟩
      · exact h.refuses _
      · exact h.text hv "install" (by simp)
      · exact h.refuses _
    · rcases harguments with _ | ⟨hv, _ | _⟩
      · exact h.refuses _
      · exact h.text hv "evalsrc" (by simp)
      · exact h.refuses _
    · rcases harguments with _ | ⟨hv, _ | ⟨hu, _ | _⟩⟩
      · exact h.refuses _
      · exact h.refuses _
      · simp only [host, Value.equals_of_core (h.core_eq hv) (h.core_eq hu)]
        exact h.gives (.bool _)
      · exact h.refuses _
    · rcases harguments with _ | ⟨ha, _ | ⟨hb, _ | ⟨hc, _ | _⟩⟩⟩
      · exact h.refuses _
      · exact h.refuses _
      · exact h.refuses _
      · simp only [host, Value.isTruthy_of_core (h.core_eq ha)]
        split
        · exact h.pure (.ok hb)
        · exact h.pure (.ok hc)
      · exact h.refuses _
    · cases hentry

end Relates

/-- What the functions of the library see is the same in machines that are alike. -/
theorem relates_alike {evaluate evaluate' : Expr → Eval Value}
    (hevaluate : EvaluatesAlike P evaluate evaluate') :
    Relates readings (Value.Alike P) (Eval.Alike P (Value.ResultAlike P)) evaluate evaluate' where
  pure := .pure
  constant := .constant
  core_eq := Value.Paired.core_eq
  clock := by
    refine .map (Eval.Alike.modifyGet fun hm => ?_) .ok
    rw [hm.clockReads]
    exact ⟨.constant (.number _), { hm with clockReads := rfl }⟩
  text {v v'} hv entry hentry := by
    simp only [List.mem_cons, List.not_mem_nil, or_false] at hentry
    rcases hentry with rfl | rfl | rfl
    · refine .get_bind fun hm => ?_
      rw [hm.store.text_eq hv]
      exact .pure (.ok (.constant (.string _)))
    · refine (Eval.Alike.modify fun hm => ?_).bind fun _ => .pure (.ok (.constant .nil))
      rw [hm.store.text_eq hv]
      exact hm.defineHost _ 0 "fail"
    · refine .get_bind fun hm => ?_
      rw [hm.store.text_eq hv]
      exact evaluateSource_alike hevaluate _

/-- **The library does not tell machines apart that are alike**, as long as `locals` does not: it
sees the number of recorded distances. -/
theorem respects_entry (entry : String) (hsize : entry = "locals" → P.left.size = P.right.size) :
    HostCode.Respects (host readings entry) P := by
  intro evaluate evaluate' hevaluate arguments arguments' harguments
  refine (relates_alike hevaluate).host_entry entry (fun hlocals => .get_bind fun hm => ?_)
    harguments
  rw [hm.left, hm.right, hsize hlocals]
  exact .pure (.ok (.constant (.number _)))

/-- With tables of the same size the whole library cannot tell machines apart that are alike. -/
theorem respects (readings : Nat → Float) (hsize : P.left.size = P.right.size) :
    (host readings).Respects P :=
  fun entry => respects_entry entry fun _ => hsize

/-- The library without the function that sees the number of recorded distances. -/
def withoutLocals (readings : Nat → Float) : Host := fun entry =>
  host readings (if entry = "locals" then "" else entry)

theorem other_ne_locals (entry : String) : (if entry = "locals" then "" else entry) ≠ "locals" := by
  split
  · decide
  · assumption

/-- Without `locals` the tables may be of different sizes. -/
theorem withoutLocals_respects (readings : Nat → Float) (P : Pairing) :
    (withoutLocals readings).Respects P :=
  fun entry => respects_entry _ fun h => absurd h (other_ne_locals entry)

end Library

end LoxLang
