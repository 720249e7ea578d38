import Mathlib
import LoxLang.Proofs.Run.Quiet
import LoxLang.Proofs.Scope.Sites

/-!
# Proofs/Run/Discipline — what is to be kept up while a program runs

A `Discipline` says what holds of every machine, of every value, of every call before it is made, and
between a machine and a later one. It is lawful if each single change that an evaluator makes obeys
it: a new frame or instance, a name or a field that is written, a function or a class that is
declared, a method that is bound, and each call that a call makes (`Discipline.Lawful`).

Computations that are made of such changes obey it as well, and `Discipline.Ends` says so of each
operation of the machine; the evaluators themselves are the matter of `Proofs/Run/Obedience`.
-/

namespace LoxLang

open EStateM (Result)

/-! ## Kinds of calls -/

/-- The second call is made for a part of the first, in the same frame. -/
inductive Part : Task → Task → Prop
  | first {task task' : Task} (h : task.first = some task') : Part task task'
  | second {e e₂ : Expr} {v : Value} (h : e.second v = some e₂) :
      Part (.evaluate e) (.evaluate e₂)
  | arguments {callee : Expr} {paren : Token} {arguments : List Expr} :
      Part (.evaluate (.call callee paren arguments)) (.evaluateAll arguments)
  | evaluateRest {e : Expr} {es : List Expr} : Part (.evaluateAll (e :: es)) (.evaluateAll es)
  | onTrue {condition : Expr} {onTrue : Stmt} {onFalse : Option Stmt} :
      Part (.execute (.ifStmt condition onTrue onFalse)) (.execute onTrue)
  | onFalse {condition : Expr} {onTrue onFalse : Stmt} :
      Part (.execute (.ifStmt condition onTrue (some onFalse))) (.execute onFalse)
  | executeRest {s : Stmt} {ss : List Stmt} : Part (.executeAll (s :: ss)) (.executeAll ss)
  | round {condition increment : Option Expr} {body : Stmt} :
      Part (.repeatWhile condition increment body) (.execute body)
  | increment {condition : Option Expr} {e : Expr} {body : Stmt} :
      Part (.repeatWhile condition (some e) body) (.evaluate e)
  | again {condition increment : Option Expr} {body : Stmt} :
      Part (.repeatWhile condition increment body) (.repeatWhile condition increment body)

/-- The second call is made for a part of the first, in a new frame inside of its frame. -/
inductive InnerPart : Task → Task → Prop
  | block {ss : List Stmt} : InnerPart (.execute (.block ss)) (.executeAll ss)
  | forInitial {s : Stmt} {condition increment : Option Expr} {body : Stmt} :
      InnerPart (.execute (.forStmt (some s) condition increment body)) (.execute s)
  | forLoop {initial : Option Stmt} {condition increment : Option Expr} {body : Stmt} :
      InnerPart (.execute (.forStmt initial condition increment body))
        (.repeatWhile condition increment body)

/-- The call is for a piece of a program, and not for values. -/
def Task.isCode : Task → Bool
  | .invoke _ _ _ | .callClosure _ _ => false
  | _ => true

section

variable {task task' : Task}

theorem Task.isHost_of_first (h : task.first = some task') : task.isHost = false := by
  cases task with
  | invoke => cases h
  | _ => rfl

/-- What a call begins with is a piece of a program. -/
theorem Task.isCode_of_first (h : task.first = some task') : task'.isCode = true := by
  unfold Task.first at h
  split at h
  · obtain ⟨_, -, rfl⟩ := Option.map_eq_some_iff.mp h
    rfl
  all_goals cases h
  all_goals rfl

/-- The parts of a piece of a program are such pieces themselves. -/
theorem Part.isCode (h : Part task task') : task'.isCode = true := by
  cases h with
  | first h => exact Task.isCode_of_first h
  | _ => rfl

theorem InnerPart.isCode (h : InnerPart task task') : task'.isCode = true := by
  cases h <;> rfl

end

/-! ## Single changes of a machine -/

namespace Machine

/-- Nothing of what programs see is changed. -/
structure Idles (m m' : Machine) : Prop where
  store : m'.store = m.store
  globals : m'.globals = m.globals
  distances : m'.distances = m.distances
  nextId : m.nextId ≤ m'.nextId

/-- The globals are a frame, and the outermost one. -/
structure Rooted (m : Machine) : Prop where
  lt_size : m.globals < m.store.frames.size
  enclosing? : m.store.enclosing? m.globals = none

variable (m : Machine)

/-- The machine with one more frame. -/
def framed (names : Std.TreeMap String Value) (e : FrameRef) : Machine :=
  { m with store := (m.store.newFrame names (some e)).2 }

/-- The machine with one more instance. -/
def instanced (c : Class) : Machine :=
  { m with store := (m.store.newInstance c).2 }

/-- The machine with a name written. -/
def defining (r : FrameRef) (name : String) (v : Value) : Machine :=
  { m with store := m.store.define r name v }

/-- The machine with a field written. -/
def setting (r : InstanceRef) (name : String) (v : Value) : Machine :=
  { m with store := m.store.setField r name v }

/-- The class that a declaration makes on the machine. -/
def declaredClass (name : Token) (methods : List Routine) : Class :=
  ⟨m.nextObject, name.lexeme, methodTable methods m.scope⟩

/-- The machine with a frame in which a method knows its instance. -/
def binding (method : Closure) (r : InstanceRef) : Machine :=
  m.framed {(thisName, Value.object r)} method.scope

end Machine

/-- The frame of a bound method knows `this` and nothing else. -/
theorem getElem?_receiver (r : InstanceRef) (x : String) :
    ({(thisName, Value.object r)} : Std.TreeMap String Value)[x]? =
      if thisName = x then some (.object r) else none := by
  change ((∅ : Std.TreeMap String Value).insert thisName (.object r))[x]? = _
  simp [Std.TreeMap.getElem?_insert]

/-- A table that is made of pairs holds nothing else. -/
theorem mem_of_getElem?_insertMany {l : List (String × α)} {x : String} {a : α} :
    ∀ {t : Std.TreeMap String α}, (t.insertMany l)[x]? = some a → (x, a) ∈ l ∨ t[x]? = some a := by
  induction l with
  | nil => exact .inr
  | cons b l ih =>
    intro t h
    rw [Std.TreeMap.insertMany_cons] at h
    rcases ih h with hmem | hold
    · exact .inl (.tail _ hmem)
    · rw [Std.TreeMap.getElem?_insert] at hold
      split at hold
      · next heq =>
        cases hold
        cases Std.LawfulEqCmp.eq_of_compare heq
        exact .inl (.head _)
      · exact .inr hold

/-- What is in a table comes from the list that it was made from. -/
theorem mem_of_getElem?_ofList {l : List (String × α)} {x : String} {a : α}
    (h : (Std.TreeMap.ofList l)[x]? = some a) : (x, a) ∈ l := by
  rw [Std.TreeMap.ofList_eq_insertMany_empty] at h
  rcases mem_of_getElem?_insertMany h with hmem | hnone
  · exact hmem
  · simp at hnone

/-- What a call's frame binds is one of its arguments. -/
theorem mem_of_argumentNames {parameters : List Token} {arguments : List Value} {x : String}
    {v : Value} (h : (argumentNames parameters arguments)[x]? = some v) : v ∈ arguments := by
  exact (List.of_mem_zip (mem_of_getElem?_ofList h)).2

/-- The methods of a class are closed in the frame of its declaration. -/
theorem exists_of_methodTable {methods : List Routine} {e : FrameRef} {x : String} {f : Closure}
    (h : (methodTable methods e)[x]? = some f) :
    ∃ r ∈ methods, r.name.lexeme = x ∧ f = ⟨r, e, x = initializerName⟩ := by
  obtain ⟨r, hr, heq⟩ := List.mem_map.mp (mem_of_getElem?_ofList h)
  cases heq
  exact ⟨r, hr, rfl, rfl⟩

namespace Store

variable {s : Store} {r : FrameRef} {x : String}

/-- What is read at a distance is bound in some frame. -/
theorem exists_local?_of_getAt {d : Nat} {v : Value} (h : s.getAt r d x = .ok v) :
    ∃ r', s.local? r' x = some v := by
  simp only [getAt, bind, Except.bind] at h
  split at h
  · cases h
  · split at h
    · next hlocal =>
      cases h
      exact ⟨_, hlocal⟩
    · cases h

/-- What is read without a distance is bound in some frame. -/
theorem exists_local?_of_get {v : Value} (h : s.get r x = .ok v) :
    ∃ r', s.local? r' x = some v := by
  simp only [get] at h
  split at h
  · next hbound =>
    cases h
    obtain ⟨r', -, hlocal⟩ := Option.bind_eq_some_iff.mp hbound
    exact ⟨r', hlocal⟩
  · cases h

/-- An assignment that starts at an outermost frame writes there. -/
theorem eq_of_locate_root {r' : FrameRef} (hr : r < s.frames.size) (hroot : s.enclosing? r = none)
    (h : s.locate r x = .ok r') : r' = r := by
  rw [locate_of_root x hr hroot] at h
  split at h <;> cases h
  rfl

end Store

/-! ## Disciplines -/

/-- What is to be kept up. -/
structure Discipline where
  /-- What holds of a machine, besides that its values are fine. -/
  Shape : Machine → Prop
  /-- What holds between a machine and a later one. -/
  Later : Machine → Machine → Prop
  /-- What holds of a value. -/
  Fine : Machine → Value → Prop
  /-- What holds of a frame that code runs in. -/
  Home : Machine → FrameRef → Prop
  /-- What holds of the names that programs declare. -/
  Name : String → Prop
  /-- What holds of the ids that a host took for expressions of its own. -/
  Owned : Machine → NodeId → Prop
  /-- What holds of a call before it is made. -/
  Code : Nat → Task → Machine → Prop

namespace Discipline

variable (D : Discipline)

/-- The machine is in shape, and all values in it are fine. -/
structure Ok (m : Machine) : Prop where
  shape : D.Shape m
  names : ∀ {r x v}, m.store.local? r x = some v → D.Fine m v
  fields : ∀ {r x v}, m.store.field? r x = some v → D.Fine m v

def AllFine (m : Machine) (vs : List Value) : Prop :=
  ∀ v ∈ vs, D.Fine m v

/-- A value that is returned is fine. -/
def FlowFine (m : Machine) (flow : Flow) : Prop :=
  ∀ v, flow = .returned v → D.Fine m v

/-- The values that a call is made with are fine. -/
def TaskFine (m : Machine) : Task → Prop
  | .invoke callee _ arguments => D.Fine m callee ∧ D.AllFine m arguments
  | .callClosure f arguments => (∃ id, D.Fine m (.function id f)) ∧ D.AllFine m arguments
  | _ => True

/-- **A call that obeys the discipline.** -/
structure Good (n : Nat) (task : Task) (m : Machine) : Prop where
  ok : D.Ok m
  home : D.Home m m.scope
  code : D.Code n task m
  values : D.TaskFine m task

/-- A call that is made on a later machine than `m`, and obeys the discipline. -/
structure Next (n : Nat) (m : Machine) (task' : Task) (m' : Machine) : Prop
    extends D.Good n task' m' where
  later : D.Later m m'

/-- A machine that a computation comes to from `m`, in the same frame. -/
structure Follows (m m' : Machine) : Prop where
  ok : D.Ok m'
  later : D.Later m m'
  scope : m'.scope = m.scope

/-- The ends of computations that obey the discipline. -/
inductive Ends {α : Type} (m : Machine) (P : Machine → α → Prop) :
    Result Stop Machine α → Prop
  | ok {a : α} {m' : Machine} (h : D.Follows m m') (ha : P m' a) : Ends m P (.ok a m')
  | error {stop : Stop} {m' : Machine} (h : D.Follows m m') : Ends m P (.error stop m')

/-- How the machine of a call comes from that of the call that makes it. -/
inductive Move : Task → Machine → Task → Machine → Prop
  | part {task task' : Task} {m m' : Machine} (h : Part task task') (hfollows : D.Follows m m') :
      Move task m task' m'
  | inner {task task' : Task} {m m' : Machine} (h : InnerPart task task')
      (hfollows : D.Follows (m.inside ∅ m.scope) m') : Move task m task' m'
  | value {task task' : Task} {m m' : Machine} (h : task'.isCode = false) : Move task m task' m'
  | body {f : Closure} {arguments : List Value} {m : Machine}
      (hf : ∃ id, D.Fine m (.function id f)) :
      Move (.callClosure f arguments) m (.executeAll f.routine.body)
        (m.inside (argumentNames f.routine.parameters arguments) f.scope)
  | foreign {task : Task} {e : Expr} {m m' : Machine} (hids : ∀ id ∈ e.ids, D.Owned m' id) :
      Move task m (.evaluate e) m'

/-- **Each single step obeys the discipline.** -/
structure Lawful (host : Host) : Prop where
  quiet : host.Quiet
  refl : ∀ m, D.Later m m
  trans : ∀ {m₁ m₂ m₃}, D.Later m₁ m₂ → D.Later m₂ m₃ → D.Later m₁ m₃
  fine : ∀ {m m' v}, D.Later m m' → D.Fine m v → D.Fine m' v
  home : ∀ {m m' r}, D.Later m m' → D.Home m r → D.Home m' r
  owned : ∀ {m m' id}, D.Later m m' → D.Owned m id → D.Owned m' id
  idle : ∀ {m m'}, m.Idles m' → D.Shape m → D.Shape m' ∧ D.Later m m'
  taken : ∀ {m nextId id}, D.Shape m → m.nextId ≤ id → id < nextId → D.Owned { m with nextId } id
  framed : ∀ {m e} (names : Std.TreeMap String Value), D.Shape m → D.Home m e →
    D.Shape (m.framed names e) ∧ D.Later m (m.framed names e) ∧
      D.Home (m.framed names e) m.store.frames.size
  instanced : ∀ {m c}, D.Shape m → D.Fine m (.cls c) →
    D.Shape (m.instanced c) ∧ D.Later m (m.instanced c) ∧
      D.Fine (m.instanced c) (.object m.store.instances.size)
  defining : ∀ {m r x} (v : Value), D.Shape m → D.Name x ∨ r = m.globals →
    D.Shape (m.defining r x v) ∧ D.Later m (m.defining r x v)
  setting : ∀ {n object name value m r m₁ v m₂},
    D.Code (n + 1) (.evaluate (.set object name value)) m →
    evaluate host n object m = .ok (.object r) m₁ → evaluate host n value m₁ = .ok v m₂ →
    D.Shape m₂ → D.Shape (m₂.setting r name.lexeme v) ∧ D.Later m₂ (m₂.setting r name.lexeme v)
  constant : ∀ m (c : Constant), D.Fine m c.value
  hostFunction : ∀ m id f, D.Fine m (.host id f)
  closure : ∀ {n r m} (id : ObjectId), D.Code (n + 1) (.execute (.funDecl r)) m →
    D.Home m m.scope → D.Fine m (.function id (r.closure m.scope))
  cls : ∀ {n name methods m}, D.Code (n + 1) (.execute (.classDecl name methods)) m →
    D.Home m m.scope → D.Fine m (.cls (m.declaredClass name methods))
  calledHome : ∀ {m id f}, D.Fine m (.function id f) → D.Home m f.scope
  methodHome : ∀ {m r x f}, D.Shape m → D.Fine m (.object r) → m.store.method? r x = some f →
    D.Home m f.scope
  bound : ∀ {m r x f id}, D.Shape m → D.Fine m (.object r) → m.store.method? r x = some f →
    D.Fine (m.binding f r) (.function id { f with scope := m.store.frames.size })
  declares : ∀ {n s m t}, D.Code (n + 1) (.execute s) m → s.declared? = some t → D.Name t.lexeme
  assigns : ∀ {n id name value m m'}, D.Code (n + 1) (.evaluate (.assign id name value)) m →
    D.Later m m' → D.Shape m' → D.Name name.lexeme ∨ m'.distances[id]? = none ∧ m'.Rooted
  code : ∀ {n task m task' m'}, Makes host n task m task' m' → D.Move task m task' m' →
    D.Shape m → D.Shape m' → D.Code (n + 1) task m → D.Code n task' m'

variable {D} {host : Host} {n : Nat} {task task' : Task} {m m' m'' : Machine} {α β : Type}
  {P : Machine → α → Prop} {Q : Machine → β → Prop}

/-! ## Machines -/

theorem Follows.refl (L : D.Lawful host) (h : D.Ok m) : D.Follows m m :=
  ⟨h, L.refl m, rfl⟩

theorem Follows.trans (L : D.Lawful host) (h : D.Follows m m') (h' : D.Follows m' m'') :
    D.Follows m m'' :=
  ⟨h'.ok, L.trans h.later h'.later, h'.scope.trans h.scope⟩

theorem AllFine.later (L : D.Lawful host) {vs : List Value} (h : D.AllFine m vs)
    (hlater : D.Later m m') : D.AllFine m' vs :=
  fun v hv => L.fine hlater (h v hv)

namespace Ok

variable (L : D.Lawful host)

include L

/-- Values that are still there are still fine. -/
theorem of_later (hok : D.Ok m) (hshape : D.Shape m') (hlater : D.Later m m')
    (hnames : ∀ {r x v}, m'.store.local? r x = some v →
      m.store.local? r x = some v ∨ D.Fine m' v)
    (hfields : ∀ {r x v}, m'.store.field? r x = some v →
      m.store.field? r x = some v ∨ D.Fine m' v) : D.Ok m' where
  shape := hshape
  names hv := (hnames hv).elim (fun h => L.fine hlater (hok.names h)) id
  fields hv := (hfields hv).elim (fun h => L.fine hlater (hok.fields h)) id

/-- Changes that programs do not see keep a machine in order. -/
theorem idle (hok : D.Ok m) (h : m.Idles m') : D.Ok m' ∧ D.Later m m' := by
  obtain ⟨hshape, hlater⟩ := L.idle h hok.shape
  refine ⟨hok.of_later L hshape hlater (fun hv => .inl ?_) (fun hv => .inl ?_), hlater⟩
  · rwa [h.store] at hv
  · rwa [h.store] at hv

/-- What a host function can come by is fine. -/
theorem fine_of_offers (hok : D.Ok m) {v : Value} (h : m.Offers v) : D.Fine m v := by
  cases h with
  | constant c => exact L.constant m c
  | host id f => exact L.hostFunction m id f
  | name h => exact hok.names h
  | field h => exact hok.fields h

/-- A new frame with fine values, inside of a frame that may be entered. -/
theorem framed (hok : D.Ok m) {names : Std.TreeMap String Value} {e : FrameRef}
    (hhome : D.Home m e) (hnames : ∀ {x : String} {v : Value}, names[x]? = some v → D.Fine m v) :
    D.Follows m (m.framed names e) := by
  obtain ⟨hshape, hlater, -⟩ := L.framed names hok.shape hhome
  refine ⟨hok.of_later L hshape hlater (fun {r x v} hv => ?_) .inl, hlater, rfl⟩
  change (m.store.newFrame names (some e)).2.local? r x = some v at hv
  rw [Store.local?_newFrame] at hv
  split at hv
  · exact .inr (L.fine hlater (hnames hv))
  · exact .inl hv

/-- A fine value is bound to a name; what may not be bound elsewhere is bound in the globals. -/
theorem defining (hok : D.Ok m) {r : FrameRef} {x : String} {v : Value}
    (hname : D.Name x ∨ r = m.globals) (hv : D.Fine m v) : D.Follows m (m.defining r x v) := by
  obtain ⟨hshape, hlater⟩ := L.defining v hok.shape hname
  refine ⟨hok.of_later L hshape hlater (fun {r' x' v'} hv' => ?_) .inl, hlater, rfl⟩
  change (m.store.define r x v).local? r' x' = some v' at hv'
  rw [Store.local?_define] at hv'
  split at hv'
  · cases hv'
    exact .inr (L.fine hlater hv)
  · exact .inl hv'

/-- A new instance of a fine class is fine. -/
theorem instanced (hok : D.Ok m) {c : Class} (hc : D.Fine m (.cls c)) :
    D.Follows m (m.instanced c) ∧ D.Fine (m.instanced c) (.object m.store.instances.size) := by
  obtain ⟨hshape, hlater, hfine⟩ := L.instanced hok.shape hc
  refine ⟨⟨hok.of_later L hshape hlater .inl fun {r x v} hv => ?_, hlater, rfl⟩, hfine⟩
  change (m.store.newInstance c).2.field? r x = some v at hv
  rw [Store.field?_newInstance] at hv
  split at hv
  · cases hv
  · exact .inl hv

/-- A field is set to a fine value, if the machine stays in shape. -/
theorem setting (hok : D.Ok m) {r : InstanceRef} {x : String} {v : Value} (hv : D.Fine m v)
    (hshape : D.Shape (m.setting r x v)) (hlater : D.Later m (m.setting r x v)) :
    D.Follows m (m.setting r x v) := by
  refine ⟨hok.of_later L hshape hlater .inl fun {r' x' v'} hv' => ?_, hlater, rfl⟩
  change (m.store.setField r x v).field? r' x' = some v' at hv'
  rw [Store.field?_setField] at hv'
  split at hv'
  · cases hv'
    exact .inr (L.fine hlater hv)
  · exact .inl hv'

/-- A method is bound. -/
theorem binding (hok : D.Ok m) {r : InstanceRef} {x : String} {f : Closure}
    (hr : D.Fine m (.object r)) (hf : m.store.method? r x = some f) :
    D.Follows m (m.binding f r) := by
  refine hok.framed L (L.methodHome hok.shape hr hf) fun hv => ?_
  rw [getElem?_receiver] at hv
  split at hv
  · cases hv
    exact hr
  · cases hv

/-- A frame is entered. -/
theorem inside (hok : D.Ok m) {names : Std.TreeMap String Value} {e : FrameRef}
    (hhome : D.Home m e) (hnames : ∀ {x : String} {v : Value}, names[x]? = some v → D.Fine m v) :
    D.Ok (m.inside names e) ∧ D.Later m (m.inside names e) ∧
      D.Home (m.inside names e) m.store.frames.size := by
  have hframed := hok.framed L hhome hnames
  have hidles : (m.framed names e).Idles (m.inside names e) := ⟨rfl, rfl, rfl, Nat.le_refl _⟩
  obtain ⟨hok', hlater⟩ := hframed.ok.idle L hidles
  obtain ⟨-, -, hhome'⟩ := L.framed names hok.shape hhome
  exact ⟨hok', L.trans hframed.later hlater, L.home hlater hhome'⟩

end Ok

/-! ## Single steps -/

namespace Ends

variable (L : D.Lawful host)

/-- What a computation gives back is fine on the machine that it comes to. -/
theorem of_ok {out : Result Stop Machine α} {a : α} (h : D.Ends m P out) (hout : out = .ok a m') :
    D.Follows m m' ∧ P m' a := by
  subst hout
  cases h with
  | ok h ha => exact ⟨h, ha⟩

theorem of_error {out : Result Stop Machine α} {stop : Stop} (h : D.Ends m P out)
    (hout : out = .error stop m') : D.Follows m m' := by
  subst hout
  cases h with
  | error h => exact h

theorem follows {out : Result Stop Machine α} (h : D.Ends m P out) : D.Follows m (endOf out) := by
  cases h with
  | ok h | error h => exact h

/-- The same for a computation whose result is dropped. -/
theorem follows_discard {x : Eval α} (h : D.Ends m P (x m)) :
    D.Follows m (endOf (Functor.discard x m)) := by
  change D.Follows m (endOf (EStateM.map (fun _ => ()) x m))
  unfold EStateM.map
  cases hout : x m with
  | ok a m' => exact (h.of_ok hout).1
  | error stop m' => exact h.of_error hout

theorem imp {out : Result Stop Machine α} {P' : Machine → α → Prop} (h : D.Ends m P out)
    (hP : ∀ {m' a}, P m' a → P' m' a) : D.Ends m P' out := by
  cases h with
  | ok h ha => exact .ok h (hP ha)
  | error h => exact .error h

theorem get_bind {f : Machine → Eval α} (h : D.Ends m P (f m m)) : D.Ends m P ((get >>= f) m) := h

include L

/-- A computation behind another one. -/
theorem after {out : Result Stop Machine α} (h : D.Follows m m') (hout : D.Ends m' P out) :
    D.Ends m P out := by
  cases hout with
  | ok h' ha => exact .ok (h.trans L h') ha
  | error h' => exact .error (h.trans L h')

/-- Computations one behind the other: the second starts on a machine that follows. -/
theorem bind {x : Eval α} {f : α → Eval β} (hx : D.Ends m P (x m''))
    (hf : ∀ {a m'}, x m'' = .ok a m' → D.Follows m m' → P m' a → D.Ends m' Q (f a m')) :
    D.Ends m Q ((x >>= f) m'') := by
  change D.Ends m Q (EStateM.bind x f m'')
  unfold EStateM.bind
  cases hout : x m'' with
  | ok a m' =>
    obtain ⟨hfollows, ha⟩ := hx.of_ok hout
    exact (hf hout hfollows ha).after L hfollows
  | error stop m' => exact .error (hx.of_error hout)

theorem pure (hok : D.Ok m) {a : α} (ha : P m a) : D.Ends m P ((Pure.pure a : Eval α) m) :=
  .ok (.refl L hok) ha

theorem throw (hok : D.Ok m) (stop : Stop) :
    D.Ends m P ((MonadExcept.throw stop : Eval α) m) :=
  .error (.refl L hok)

theorem raise (hok : D.Ok m) (line : Nat) (fault : RuntimeFault) :
    D.Ends m P ((Eval.raise line fault : Eval α) m) :=
  .throw L hok _

theorem ofExcept (hok : D.Ok m) (line : Nat) {out : Except RuntimeFault α}
    (hout : ∀ {a}, out = .ok a → P m a) : D.Ends m P (Eval.ofExcept line out m) := by
  cases out with
  | ok a => exact .pure L hok (hout rfl)
  | error fault => exact .raise L hok line fault

theorem freshObject (hok : D.Ok m) : D.Ends m (fun _ _ => True) (Eval.freshObject m) := by
  have hidles : m.Idles { m with nextObject := m.nextObject + 1 } :=
    ⟨rfl, rfl, rfl, Nat.le_refl _⟩
  obtain ⟨hok', hlater⟩ := hok.idle L hidles
  exact .ok ⟨hok', hlater, rfl⟩ trivial

theorem printLine (hok : D.Ok m) (line : String) :
    D.Ends m (fun _ _ => True) (Eval.printLine line m) := by
  have hidles : m.Idles { m with sink := m.sink.write (line ++ "\n").toUTF8 } :=
    ⟨rfl, rfl, rfl, Nat.le_refl _⟩
  obtain ⟨hok', hlater⟩ := hok.idle L hidles
  unfold Eval.printLine
  dsimp only
  split
  · exact .ok ⟨hok', hlater, rfl⟩ trivial
  · exact .error ⟨hok', hlater, rfl⟩

theorem bindIn (hok : D.Ok m) {r : FrameRef} {x : String} {v : Value}
    (hname : D.Name x ∨ r = m.globals) (hv : D.Fine m v) :
    D.Ends m (fun _ _ => True) (Eval.bindIn r x v m) :=
  .ok (hok.defining L hname hv) trivial

theorem define (hok : D.Ok m) {x : String} {v : Value} (hname : D.Name x) (hv : D.Fine m v) :
    D.Ends m (fun _ _ => True) (Eval.define x v m) :=
  .get_bind (.bindIn L hok (.inl hname) hv)

/-- What is read is bound somewhere, so it is fine. -/
theorem lookUp (hok : D.Ok m) (id : NodeId) (name : Token) :
    D.Ends m D.Fine (Eval.lookUp id name m) := by
  refine .get_bind (.ofExcept L hok name.line fun {v} hv => ?_)
  split at hv
  · obtain ⟨r, hlocal⟩ := Store.exists_local?_of_getAt hv
    exact hok.names hlocal
  · obtain ⟨r, hlocal⟩ := Store.exists_local?_of_get hv
    exact hok.names hlocal

/-- An assignment writes to a frame where the name may be bound, or to the globals. -/
theorem assign (hok : D.Ok m) {id : NodeId} {name : Token} {v : Value} (hv : D.Fine m v)
    (hname : D.Name name.lexeme ∨ m.distances[id]? = none ∧ m.Rooted) :
    D.Ends m (fun _ _ => True) (Eval.assign id name v m) := by
  refine .get_bind (.bind (P := fun m r => D.Name name.lexeme ∨ r = m.globals) L
    (.ofExcept L hok name.line fun {r} hr => ?_) fun _ hfollows hr => ?_)
  · refine hname.imp_right fun ⟨hnone, hroot⟩ => ?_
    rw [hnone] at hr
    exact Store.eq_of_locate_root hroot.lt_size hroot.enclosing? hr
  · exact .bindIn L hfollows.ok hr (L.fine hfollows.later hv)

/-- A method that is bound is a fine function. -/
theorem bindMethod (hok : D.Ok m) {r : InstanceRef} {x : String} {f : Closure}
    (hr : D.Fine m (.object r)) (hf : m.store.method? r x = some f) :
    D.Ends m (fun m' g => ∀ id, D.Fine m' (.function id g)) (Eval.bindMethod f r m) :=
  .ok (hok.binding L hr hf) fun _ => L.bound hok.shape hr hf

/-- A field that is read is fine, and so is a method that is bound to its instance. -/
theorem property (hok : D.Ok m) {r : InstanceRef} (hr : D.Fine m (.object r)) (name : Token) :
    D.Ends m D.Fine (Eval.property r name m) := by
  refine .get_bind ?_
  cases hfield : m.store.field? r name.lexeme with
  | some v => exact .pure L hok (hok.fields hfield)
  | none =>
    cases hmethod : m.store.method? r name.lexeme with
    | none => exact .raise L hok _ _
    | some f =>
      refine (bindMethod L hok hr hmethod).bind L fun _ hfollows hg => ?_
      refine (freshObject L hfollows.ok).bind L fun {id _} _ hfollows' _ => ?_
      exact .pure L hfollows'.ok (L.fine hfollows'.later (hg id))

/-- What a call gives back is fine: an initializer reads its instance from a frame. -/
theorem callResult (hok : D.Ok m) (f : Closure) {flow : Flow} (hflow : D.FlowFine m flow) :
    D.Ends m D.Fine (Eval.callResult f flow m) := by
  unfold Eval.callResult
  split
  · refine .get_bind (.ofExcept L hok _ fun hv => ?_)
    obtain ⟨r, hlocal⟩ := Store.exists_local?_of_getAt hv
    exact hok.names hlocal
  · cases flow with
    | normal => exact .pure L hok (L.constant m .nil)
    | returned v => exact .pure L hok (hflow v rfl)

/-- A call that goes on has the right number of arguments. -/
theorem checkArity (hok : D.Ok m) (line expected : Nat) (arguments : List Value) :
    D.Ends m (fun m' _ => m' = m ∧ arguments.length = expected)
      (Eval.checkArity line expected arguments m) := by
  unfold Eval.checkArity
  split
  · next h => exact .pure L hok ⟨rfl, h⟩
  · exact .raise L hok line _

/-- The frame from before is current again. -/
theorem inside {names : Std.TreeMap String Value} {e : FrameRef} {x : Eval Flow}
    (hlater : D.Later m (m.inside names e))
    (h : D.Ends (m.inside names e) D.FlowFine (x (m.inside names e))) :
    D.Ends m D.FlowFine (Eval.inFrame m.store.frames.size x (m.framed names e)) := by
  have hback : ∀ {m'}, D.Ok m' → D.Later (m.inside names e) m' →
      D.Follows m { m' with scope := m.scope } ∧ D.Later m' { m' with scope := m.scope } := by
    intro m' hok hlater'
    have hidles : m'.Idles { m' with scope := m.scope } := ⟨rfl, rfl, rfl, Nat.le_refl _⟩
    obtain ⟨hok', hlater''⟩ := hok.idle L hidles
    exact ⟨⟨hok', L.trans (L.trans hlater hlater') hlater'', rfl⟩, hlater''⟩
  unfold Eval.inFrame
  dsimp only
  change D.Ends (m.inside names e) D.FlowFine
    (x { m.framed names e with scope := m.store.frames.size }) at h
  cases hout : x { m.framed names e with scope := m.store.frames.size } with
  | ok flow m' =>
    obtain ⟨hfollows, hflow⟩ := h.of_ok hout
    obtain ⟨hfollows', hlater'⟩ := hback hfollows.ok hfollows.later
    exact .ok hfollows' fun v hv => L.fine hlater' (hflow v hv)
  | error stop m' =>
    have hfollows := h.of_error hout
    exact .error (hback hfollows.ok hfollows.later).1

end Ends

end Discipline

end LoxLang
