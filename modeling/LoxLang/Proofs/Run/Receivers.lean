import Mathlib
import LoxLang.Proofs.Run.Origins
import LoxLang.Proofs.Scope.Receivers
import LoxLang.Proofs.Store.Search

/-!
# Proofs/Run/Receivers — every method knows the instance it was taken from

A method that is taken from an instance is a copy of the closure in its class. A frame of its own, in
which `this` is the instance, stands between the frame of the class declaration and those of the calls
(`Machine.Binds`), and nothing ever writes `this` there: programs cannot declare or assign the name,
and a host writes only globals.

Running code *sees* the receiver of the method around it if the frame of that copy is as many steps up
as is recorded for each `this` in the code (`Machine.Sees`). The discipline `receiving` carries this
from the class declaration through the binding of methods, their calls, and the blocks and functions
inside of them.

The main result is `methods_know_their_instance`.
-/

namespace LoxLang

open EStateM (Result)

/-! ## Bound methods -/

/-- Only instances that are there have a class. -/
theorem Store.lt_size_of_classOf? {s : Store} {r : InstanceRef} {c : Class}
    (h : s.classOf? r = some c) : r < s.instances.size := by
  obtain ⟨i, hi, -⟩ := Option.map_eq_some_iff.mp h
  exact (Array.getElem?_eq_some_iff.mp hi).1

namespace Machine

/-- The id is given out, and this is what is recorded for it. -/
def Records (m : Machine) : Recorded :=
  fun id d => id < m.nextId ∧ m.distances[id]? = d

/-- **The closure is a method, bound to the instance.** Its frame knows the instance as `this`; but
for that frame it is the method in the class of the instance. -/
structure Binds (m : Machine) (f : Closure) (r : InstanceRef) : Prop where
  this : m.store.local? f.scope thisName = some (.object r)
  method : ∃ c e, m.store.classOf? r = some c ∧ m.store.enclosing? f.scope = some e ∧
    c.methods[f.routine.name.lexeme]? = some { f with scope := e }
  /-- It gives its instance back if it is called `init`. -/
  isInitializer : f.isInitializer = decide (f.routine.name.lexeme = initializerName)

/-- At distance `d` from the frame, if there is one, is that of a bound method; `own` are the ids of
each `this` that means its instance. -/
def Sees (m : Machine) (scope : FrameRef) (d : Option Nat) (own : List NodeId) : Prop :=
  ∀ k, d = some k → ∃ f r, m.store.up? k scope = some f.scope ∧ m.Binds f r ∧
    own = f.routine.ownThisIds

/-- What bound methods rest on is still there. -/
structure Lasts (m m' : Machine) : Prop where
  enclosing? : ∀ {r e}, m.store.enclosing? r = some e → m'.store.enclosing? r = some e
  this : ∀ {r e v}, m.store.enclosing? r = some e → m.store.local? r thisName = some v →
    m'.store.local? r thisName = some v
  classOf? : ∀ {r c}, m.store.classOf? r = some c → m'.store.classOf? r = some c
  records : ∀ id d, m.Records id d → m'.Records id d

/-- The globals are the outermost frame, and nothing is recorded for ids to come. -/
structure Recording (m : Machine) : Prop extends m.Rooted where
  unused : ∀ {id}, m.nextId ≤ id → m.distances[id]? = none

/-- The methods of the class are closed in one frame, and receive what they are called on. -/
def Teaches (m : Machine) (c : Class) : Prop :=
  ∃ methods e, c.methods = methodTable methods e ∧ Routine.MethodsReceive m.Records methods

/-- What holds of values: a function sees the receiver of the method around its routine, and is bound
if it is an initializer; the methods of a class receive what they are called on. -/
def Receives (m : Machine) : Value → Prop
  | .function _ f => (∃ d own, m.Sees f.scope d own ∧ f.routine.Receives m.Records d own) ∧
    (f.isInitializer = true → ∃ r, m.Binds f r)
  | .cls c => m.Teaches c
  | .object r => ∃ c, m.store.classOf? r = some c ∧ m.Teaches c
  | _ => True

variable {m m' m'' : Machine} {f : Closure} {r : InstanceRef} {scope : FrameRef} {d : Option Nat}
  {own : List NodeId}

/-- Where there is no method around, nothing is asked of the frames. -/
theorem sees_none (m : Machine) (scope : FrameRef) (own : List NodeId) :
    m.Sees scope none own :=
  fun _ h => by cases h

/-! ### Later machines -/

theorem Lasts.refl (m : Machine) : m.Lasts m :=
  ⟨id, fun _ => id, id, fun _ _ => id⟩

theorem Lasts.trans (h : m.Lasts m') (h' : m'.Lasts m'') : m.Lasts m'' where
  enclosing? he := h'.enclosing? (h.enclosing? he)
  this he hv := h'.this (h.enclosing? he) (h.this he hv)
  classOf? hc := h'.classOf? (h.classOf? hc)
  records id d hd := h'.records id d (h.records id d hd)

/-- A chain of frames lasts. -/
theorem Lasts.up? (h : m.Lasts m') : ∀ {k : Nat} {e e' : FrameRef},
    m.store.up? k e = some e' → m'.store.up? k e = some e'
  | 0, _, _, hup => hup
  | k + 1, e, e', hup => by
    obtain ⟨e₁, he, hup'⟩ := Option.bind_eq_some_iff.mp hup
    exact Option.bind_eq_some_iff.mpr ⟨e₁, h.enclosing? he, h.up? hup'⟩

/-- A bound method stays bound to its instance. -/
theorem Binds.lasts (h : m.Binds f r) (hlasts : m.Lasts m') : m'.Binds f r := by
  obtain ⟨hthis, ⟨c, e, hc, he, hf⟩, hinit⟩ := h
  exact ⟨hlasts.this he hthis, ⟨c, e, hlasts.classOf? hc, hlasts.enclosing? he, hf⟩, hinit⟩

/-- A receiver that is in reach stays in reach. -/
theorem Sees.lasts (h : m.Sees scope d own) (hlasts : m.Lasts m') : m'.Sees scope d own := by
  intro k hk
  obtain ⟨f, r, hup, hbinds, hown⟩ := h k hk
  exact ⟨f, r, hlasts.up? hup, hbinds.lasts hlasts, hown⟩

/-- The methods of a class receive what they are called on, later too. -/
theorem Teaches.lasts {c : Class} (h : m.Teaches c) (hlasts : m.Lasts m') : m'.Teaches c := by
  obtain ⟨methods, e, htable, hmethods⟩ := h
  exact ⟨methods, e, htable, hmethods.mono hlasts.records⟩

/-- What holds of a value holds later too. -/
theorem Receives.lasts {v : Value} (h : m.Receives v) (hlasts : m.Lasts m') : m'.Receives v := by
  cases v with
  | function id f =>
    obtain ⟨⟨d, own, hsees, hroutine⟩, hinit⟩ := h
    refine ⟨⟨d, own, hsees.lasts hlasts, hroutine.mono hlasts.records⟩, fun hf => ?_⟩
    obtain ⟨r, hr⟩ := hinit hf
    exact ⟨r, hr.lasts hlasts⟩
  | cls c => exact Teaches.lasts h hlasts
  | object r =>
    obtain ⟨c, hc, hteaches⟩ := h
    exact ⟨c, hlasts.classOf? hc, hteaches.lasts hlasts⟩
  | _ => trivial

/-! ### Single changes -/

/-- Ids that are still to come may be others, as long as nothing is recorded for them. -/
theorem Recording.of_store (h : m.Recording) (hstore : m'.store = m.store)
    (hglobals : m'.globals = m.globals) (hunused : ∀ {id}, m'.nextId ≤ id → m'.distances[id]? = none) :
    m'.Recording := by
  obtain ⟨⟨hlt, hroot⟩, -⟩ := h
  rw [← hstore, ← hglobals] at hlt hroot
  exact ⟨⟨hlt, hroot⟩, hunused⟩

/-- A store that stays lasts, if what is recorded does. -/
theorem Lasts.of_store (hstore : m'.store = m.store)
    (hrecords : ∀ id d, m.Records id d → m'.Records id d) : m.Lasts m' where
  enclosing? := by simp [hstore]
  this := by simp [hstore]
  classOf? := by simp [hstore]
  records := hrecords

/-- Changes that programs do not see leave bound methods as they are. -/
theorem Recording.idles (h : m.Recording) (hidles : m.Idles m') : m'.Recording ∧ m.Lasts m' := by
  refine ⟨h.of_store hidles.store hidles.globals fun hid => ?_, .of_store hidles.store fun id d hd => ?_⟩
  · rw [hidles.distances]
    exact h.unused (Nat.le_trans hidles.nextId hid)
  · exact ⟨Nat.lt_of_lt_of_le hd.1 hidles.nextId, hidles.distances ▸ hd.2⟩

/-- A new frame is not in the way of any chain. -/
theorem lasts_framed (m : Machine) (names : Std.TreeMap String Value) (e : FrameRef) :
    m.Lasts (m.framed names e) where
  enclosing? {r e'} he := by
    have hr := Store.lt_size_of_enclosing? he
    exact (Store.enclosing?_newFrame_of_lt _ _ _ _ hr).trans he
  this {r e' v} _ hv := by
    have hr := Store.lt_size_of_local? hv
    exact (Store.local?_newFrame_of_lt _ _ _ _ _ hr).trans hv
  classOf? := id
  records _ _ := id

theorem lasts_inside (m : Machine) (names : Std.TreeMap String Value) (e : FrameRef) :
    m.Lasts (m.inside names e) :=
  have h := lasts_framed m names e
  ⟨h.enclosing?, h.this, h.classOf?, h.records⟩

/-- A new frame is not outermost. -/
theorem Recording.framed (h : m.Recording) (names : Std.TreeMap String Value) (e : FrameRef) :
    (m.framed names e).Recording where
  lt_size := by
    change m.globals < (m.store.newFrame names (some e)).2.frames.size
    rw [Store.frames_size_newFrame]
    exact Nat.lt_succ_of_lt h.lt_size
  enclosing? := (Store.enclosing?_newFrame_of_lt _ _ _ _ h.lt_size).trans h.enclosing?
  unused := h.unused

/-- A new instance changes nothing for the methods that are bound already. -/
theorem lasts_instanced (m : Machine) (c : Class) : m.Lasts (m.instanced c) where
  enclosing? := id
  this _ := id
  classOf? {r c'} hc := by
    have hr := Store.lt_size_of_classOf? hc
    change (m.store.newInstance c).2.classOf? r = _
    rw [Store.classOf?_newInstance, if_neg (Nat.ne_of_lt hr), hc]
  records _ _ := id

/-- What is written is not the `this` of a bound method. -/
theorem Recording.defining (h : m.Recording) {e : FrameRef} {x : String} (v : Value)
    (hx : x ≠ thisName ∨ e = m.globals) :
    (m.defining e x v).Recording ∧ m.Lasts (m.defining e x v) := by
  have henclosing : ∀ e', (m.defining e x v).store.enclosing? e' = m.store.enclosing? e' :=
    fun e' => Store.enclosing?_define ..
  refine ⟨⟨⟨?_, (henclosing _).trans h.enclosing?⟩, h.unused⟩, ⟨?_, ?_, id, fun _ _ => id⟩⟩
  · change m.globals < (m.store.define e x v).frames.size
    rw [Store.frames_size_define]
    exact h.lt_size
  · exact fun he => (henclosing _).trans he
  · intro r e' v' he hv
    change (m.store.define e x v).local? r thisName = some v'
    rw [Store.local?_define, if_neg, hv]
    rintro ⟨rfl, rfl, -⟩
    rcases hx with hne | rfl
    · exact hne rfl
    · rw [h.enclosing?] at he
      cases he

/-- Fields are none of the things that bound methods rest on. -/
theorem lasts_setting (m : Machine) (r : InstanceRef) (x : String) (v : Value) :
    m.Lasts (m.setting r x v) where
  enclosing? := id
  this _ := id
  classOf? hc := (Store.classOf?_setField ..).trans hc
  records _ _ := id

/-- One frame further in, the receiver is one step further away. -/
theorem Sees.inside (h : m.Sees scope d own) (names : Std.TreeMap String Value) :
    (m.inside names scope).Sees m.store.frames.size (d.map (· + 1)) own := by
  intro k hk
  obtain ⟨k, rfl, rfl⟩ := Option.map_eq_some_iff.mp hk
  have hlasts := lasts_inside m names scope
  obtain ⟨f, r, hup, hbinds, hown⟩ := h k rfl
  refine ⟨f, r, Option.bind_eq_some_iff.mpr ⟨scope, ?_, hlasts.up? hup⟩, hbinds.lasts hlasts, hown⟩
  change (m.store.newFrame names (some scope)).2.enclosing? _ = _
  rw [Store.enclosing?_newFrame, if_pos rfl]

/-- Before anything ran nothing is recorded. -/
theorem recording_fresh (capacity : Option Nat) : (fresh capacity).Recording := by
  refine ⟨⟨Nat.zero_lt_one, ?_⟩, fun _ => ?_⟩
  · exact (Store.enclosing?_newFrame ..).trans (if_pos rfl)
  · simp [fresh]

/-- **A method that is bound knows the instance.** -/
theorem binds_binding {x : String} {c : Class} {methods : List Routine} {e : FrameRef}
    (hc : m.store.classOf? r = some c) (htable : c.methods = methodTable methods e)
    (hf : c.methods[x]? = some f) :
    f.routine ∈ methods ∧ (m.binding f r).Binds { f with scope := m.store.frames.size } r := by
  obtain ⟨r', hr', rfl, rfl⟩ := exists_of_methodTable (htable ▸ hf)
  refine ⟨hr', ?_, ⟨c, e, hc, ?_, hf⟩, rfl⟩
  · change (m.store.newFrame {(thisName, Value.object r)} _).2.local? _ thisName = _
    rw [Store.local?_newFrame, if_pos rfl, getElem?_receiver, if_pos rfl]
  · change (m.store.newFrame _ (some e)).2.enclosing? _ = _
    rw [Store.enclosing?_newFrame, if_pos rfl]

end Machine

/-! ## Calls that see their receivers -/

section

variable {known : Recorded} {d : Option Nat} {own : List NodeId} {e : Expr}

/-- Each `this` in the first part of an expression is one of the expression. -/
theorem Expr.Receives.first {e₁ : Expr} (h : e.Receives known d own) (hfirst : e.first = some e₁) :
    e₁.Receives known d own := by
  cases e with
  | constant | var | this => cases hfirst
  | grouping | unary | get =>
    cases hfirst
    exact h
  | binary | logical | conditional | assign | call | set =>
    cases hfirst
    exact h.1

/-- Each `this` in a later part of an expression is one of the expression. -/
theorem Expr.Receives.second {e₂ : Expr} {v : Value} (h : e.Receives known d own)
    (hsecond : e.second v = some e₂) : e₂.Receives known d own := by
  cases e with
  | binary =>
    cases hsecond
    exact h.2
  | logical | set =>
    simp only [Expr.second] at hsecond
    split at hsecond <;> cases hsecond
    exact h.2
  | conditional =>
    cases hsecond
    split
    · exact h.2.1
    · exact h.2.2
  | _ => cases hsecond

end

namespace Task

/-- Every `this` in what the call is for is recorded with its distance. -/
def Receives (known : Recorded) (d : Option Nat) (own : List NodeId) : Task → Prop
  | evaluate e => e.Receives known d own
  | evaluateAll es => Expr.AllReceive known d own es
  | evaluateOptional e => Expr.OptionReceives known d own e
  | execute s => s.Receives known d own
  | executeAll ss => Stmt.AllReceive known ss d own
  | repeatWhile condition increment body => Expr.OptionReceives known d own condition ∧
    Expr.OptionReceives known d own increment ∧ body.Receives known d own
  | invoke _ _ _ | callClosure _ _ => True

variable {known known' : Recorded} {d : Option Nat} {own : List NodeId} {task task' : Task}

/-- In a call with values there is no `this`. -/
theorem receives_of_isCode (h : task.isCode = false) : task.Receives known d own := by
  cases task with
  | invoke | callClosure => trivial
  | _ => cases h

theorem Receives.mono (hknown : ∀ id d, known id d → known' id d)
    (h : task.Receives known d own) : task.Receives known' d own := by
  cases task with
  | evaluate => exact Expr.Receives.mono hknown h
  | evaluateAll => exact Expr.AllReceive.mono hknown h
  | evaluateOptional => exact Expr.OptionReceives.mono hknown h
  | execute => exact Stmt.Receives.mono hknown h
  | executeAll => exact Stmt.AllReceive.mono hknown h
  | repeatWhile => exact ⟨h.1.mono hknown, h.2.1.mono hknown, h.2.2.mono hknown⟩
  | invoke | callClosure => trivial

/-- Each `this` in the call that is made at once is one of the call. -/
theorem Receives.first (h : task.Receives known d own) (hfirst : task.first = some task') :
    task'.Receives known d own := by
  cases task with
  | evaluate e =>
    obtain ⟨e₁, he₁, rfl⟩ := Option.map_eq_some_iff.mp hfirst
    exact Expr.Receives.first h he₁
  | evaluateAll es =>
    cases es with
    | nil => cases hfirst
    | cons e es =>
      cases hfirst
      exact h.1
  | invoke | callClosure => cases hfirst
  | execute s =>
    cases s with
    | exprStmt | printStmt | returnStmt =>
      cases hfirst
      exact h
    | varDecl =>
      cases hfirst
      exact h.2
    | ifStmt =>
      cases hfirst
      exact h.1
    | whileStmt =>
      cases hfirst
      exact ⟨h.1, trivial, h.2⟩
    | _ => cases hfirst
  | evaluateOptional e =>
    cases e with
    | none => cases hfirst
    | some e =>
      cases hfirst
      exact h
  | executeAll ss =>
    cases ss with
    | nil => cases hfirst
    | cons s ss =>
      cases hfirst
      exact h.1
  | repeatWhile condition =>
    cases condition with
    | none => cases hfirst
    | some e =>
      cases hfirst
      exact h.1

/-- Each `this` in a part of a call is one of the call. -/
theorem Receives.part (h : task.Receives known d own) (hpart : Part task task') :
    task'.Receives known d own := by
  cases hpart with
  | first hfirst => exact h.first hfirst
  | second hsecond => exact Expr.Receives.second h hsecond
  | arguments | evaluateRest | executeRest => exact h.2
  | onTrue | increment => exact h.2.1
  | onFalse | round => exact h.2.2
  | again => exact h

/-- In a block or a loop the receiver is one step further away. -/
theorem Receives.inner (h : task.Receives known d own) (hinner : InnerPart task task') :
    task'.Receives known (d.map (· + 1)) own := by
  cases hinner with
  | block => exact h
  | forInitial => exact h.1
  | forLoop => exact h.2

end Task

/-- The receiver of the method around the call is where it looks for it. -/
def Machine.Serves (m : Machine) (task : Task) : Prop :=
  ∃ d own, m.Sees m.scope d own ∧ task.Receives m.Records d own

namespace Machine

variable {m m' : Machine} {task task' : Task}

/-- The receiver stays where a call looks for it. -/
theorem Serves.lasts (h : m.Serves task) (hlasts : m.Lasts m') (hscope : m'.scope = m.scope) :
    m'.Serves task := by
  obtain ⟨d, own, hsees, hreceives⟩ := h
  exact ⟨d, own, hscope ▸ hsees.lasts hlasts, hreceives.mono hlasts.records⟩

/-- A part of a call looks for the receiver in the same frame. -/
theorem Serves.part (h : m.Serves task) (hpart : Part task task') : m.Serves task' := by
  obtain ⟨d, own, hsees, hreceives⟩ := h
  exact ⟨d, own, hsees, hreceives.part hpart⟩

/-- In a new frame the receiver is one step further out. -/
theorem Serves.inner (h : m.Serves task) (hinner : InnerPart task task') :
    (m.inside ∅ m.scope).Serves task' := by
  obtain ⟨d, own, hsees, hreceives⟩ := h
  exact ⟨_, own, hsees.inside ∅, hreceives.inner hinner⟩

/-- The body of a function sees what the function sees. -/
theorem serves_body (id : ObjectId) {f : Closure} (h : m.Receives (.function id f))
    (names : Std.TreeMap String Value) :
    (m.inside names f.scope).Serves (.executeAll f.routine.body) := by
  obtain ⟨⟨d, own, hsees, hroutine⟩, -⟩ := h
  exact ⟨_, own, hsees.inside names, Routine.receives_iff.mp hroutine⟩

/-- An expression for which nothing is recorded has no receiver. -/
theorem serves_foreign {e : Expr} (h : ∀ id ∈ e.ids, m.Records id none) :
    m.Serves (.evaluate e) :=
  ⟨none, [], m.sees_none _ _, Expr.receives_none h⟩

end Machine

/-! ## The discipline -/

/-- **Methods know what they are called on.** -/
def receiving : Discipline where
  Shape := Machine.Recording
  Later := Machine.Lasts
  Fine := Machine.Receives
  Home _ _ := True
  Name x := x ≠ thisName
  Owned m id := m.Records id none
  Code _ task m := m.Serves task

/-- A program that is read and resolved has its distances recorded. -/
theorem Session.recording_prepared {s : Session} {source : String} (h : s.Executes source)
    (hm : s.machine.Recording) :
    (s.prepared source).Recording ∧ s.machine.Lasts (s.prepared source) ∧
      (∀ t ∈ (s.read source).statements, (s.prepared source).Serves (.execute t)) ∧
      ∀ id ∈ Stmt.thisIdsAll (s.read source).statements,
        ∃ d, (s.prepared source).Records id (some d) := by
  have hproper : Stmt.AllProper (s.read source).statements := proper_parse (spelled_scan source) _
  have hids : Numbered s.machine.nextId (s.read source).nextId
    (Stmt.idsAll (s.read source).statements) := numbered_parse _ _
  have henters := enters_resolve hproper h.2 hids fun id hid => hm.unused hid
  have hreceive := henters.fits.receive hproper (named_parse (spelled_scan source) _) fun _ => id
  have hstore := s.store_prepared source
  have hglobals := s.globals_prepared source
  refine ⟨hm.of_store hstore hglobals fun hid => henters.newer _ hid, .of_store hstore fun id d hd => ?_,
    fun t ht => ?_, fun id hid => ?_⟩
  · exact ⟨Nat.lt_of_lt_of_le hd.1 hids.le, (henters.older id hd.1).trans hd.2⟩
  · exact ⟨none, _, Machine.sees_none _ _ _, hreceive.of_mem ht⟩
  · obtain ⟨d, hd⟩ := henters.this id hid
    refine ⟨d, ?_, hd⟩
    by_contra hge
    cases hd.symm.trans (henters.newer id (Nat.le_of_not_lt hge))

/-- **Methods know what they are called on, in every session.** -/
theorem governs_receiving {host : Host} (hhost : host.Quiet) : receiving.Governs host where
  quiet := hhost
  refl := Machine.Lasts.refl
  trans := Machine.Lasts.trans
  fine hlasts hv := hv.lasts hlasts
  home _ _ := trivial
  owned hlasts hid := hlasts.records _ _ hid
  idle hidles hm := hm.idles hidles
  taken hm hge hlt := ⟨hlt, hm.unused hge⟩
  framed {m e} names hm _ := ⟨hm.framed names e, m.lasts_framed names e, trivial⟩
  instanced {m c} hm hc := by
    refine ⟨⟨⟨hm.lt_size, hm.enclosing?⟩, hm.unused⟩, m.lasts_instanced c, c, ?_, hc⟩
    change (m.store.newInstance c).2.classOf? _ = some c
    rw [Store.classOf?_newInstance, if_pos rfl]
  defining v hm hx := hm.defining v hx
  setting {_ _ name _ _ r _ v m₂} _ _ _ hm :=
    ⟨⟨⟨hm.lt_size, hm.enclosing?⟩, hm.unused⟩, m₂.lasts_setting r name.lexeme v⟩
  constant m c := by cases c <;> trivial
  hostFunction _ _ _ := trivial
  closure _ hcode _ := by
    obtain ⟨d, own, hsees, hreceives⟩ := hcode
    exact ⟨⟨d, own, hsees, hreceives.2⟩, fun hf => by cases hf⟩
  cls {_ _ methods m} hcode _ := by
    obtain ⟨d, own, -, hreceives⟩ := hcode
    exact ⟨methods, m.scope, rfl, hreceives.2⟩
  calledHome _ := trivial
  methodHome _ _ _ := trivial
  bound {m r x f id} _ hr hf := by
    obtain ⟨c, hc, methods, e, htable, hmethods⟩ := hr
    obtain ⟨c', hc', hf⟩ := Option.bind_eq_some_iff.mp hf
    obtain rfl := Option.some.inj (hc.symm.trans hc')
    -- The new frame has `this` and nothing else, so the body of the method is one scope further in.
    obtain ⟨hmem, hbinds⟩ := Machine.binds_binding hc htable hf
    have hroutine : f.routine.Receives (m.binding f r).Records (some 0) f.routine.ownThisIds :=
      (hmethods.of_mem hmem).mono (m.lasts_framed _ _).records
    refine ⟨⟨some 0, f.routine.ownThisIds, fun k hk => ?_, hroutine⟩, fun _ => ⟨r, hbinds⟩⟩
    cases hk
    exact ⟨_, r, rfl, hbinds, rfl⟩
  declares {_ s _ _} hcode hdeclared := by
    obtain ⟨d, own, -, hreceives⟩ := hcode
    cases s with
    | varDecl | funDecl | classDecl =>
      cases hdeclared
      exact hreceives.1
    | _ => cases hdeclared
  assigns hcode hlasts hm := by
    obtain ⟨d, own, -, hreceives⟩ := hcode
    exact hreceives.2.imp_right fun hnone => ⟨(hlasts.records _ _ hnone).2, hm.toRooted⟩
  code {_ task m task' m'} _ hmove _ _ hcode := by
    cases hmove with
    | part hpart hfollows => exact (hcode.part hpart).lasts hfollows.later hfollows.scope
    | inner hinner hfollows => exact (hcode.inner hinner).lasts hfollows.later hfollows.scope
    | value hvalue => exact ⟨none, [], m'.sees_none _ _, Task.receives_of_isCode hvalue⟩
    | body hf =>
      obtain ⟨id, hf⟩ := hf
      exact Machine.serves_body id hf _
    | foreign hids => exact Machine.serves_foreign hids
  fresh := Machine.recording_fresh
  top _ := trivial
  lasts hfollows hcode := hcode.lasts hfollows.later hfollows.scope
  expression hids := Machine.serves_foreign hids
  program h hm := by
    obtain ⟨hm', hlasts, hserves, -⟩ := Session.recording_prepared h hm
    exact ⟨hm', hlasts, fun t ht _ => hserves t ht⟩

/-! ## All of a session -/

/-- The calls from the run of a program on, with the session behind the action that they are made in:
those of the run, and those of whatever the session does behind it. -/
inductive Session.Onwards (host : Host) (s : Session) (source : String) :
    Session → Nat → Task → Machine → Prop
  | run {fuel n : Nat} {task : Task} {m : Machine} (h : s.During host (.run fuel source) n task m) :
      Onwards host s source (s.run host fuel source).2 n task m
  | later {fuel n : Nat} {actions : List Action} {a : Action} {task : Task} {m : Machine}
      (h : ((s.run host fuel source).2.actAll host actions).During host a n task m) :
      Onwards host s source (((s.run host fuel source).2.actAll host actions).act host a) n task m

/-- **What a `this` means.** Up from the current frame, as many steps as are recorded, is the frame of
a bound method, and the `this` is one of that method. It evaluates to the instance that the method is
bound to. The class of the instance is the one that was made when a class declaration with the method
was executed, in the frame around. -/
structure Session.MeansReceiver (host : Host) (s : Session) (n : Nat) (id : NodeId) (keyword : Token)
    (m : Machine) (f : Closure) (r : InstanceRef) : Prop where
  frame : ∃ d, m.distances[id]? = some d ∧ m.store.up? d m.scope = some f.scope
  binds : m.Binds f r
  own : id ∈ f.routine.ownThisIds
  evaluates : LoxLang.evaluate host (n + 1) (.this id keyword) m = .ok (.object r) m
  declared : ∃ c name methods m₀, m.store.classOf? r = some c ∧
    s.Declared host c name methods m₀ ∧ f.routine ∈ methods ∧
    m.store.enclosing? f.scope = some m₀.scope

/-- **What calls do with receivers.** -/
structure MindsReceivers (host : Host) (n : Nat) (task : Task) (m : Machine) : Prop where
  /-- A method that is taken from an instance is bound to it. -/
  taken : ∀ {object name r g m₁}, task = .evaluate (.get object name) →
    evaluate host n object m = .ok (.object r) m₁ → m₁.store.field? r name.lexeme = none →
    m₁.store.method? r name.lexeme = some g →
    ∃ id f m', evaluate host (n + 1) (.get object name) m = .ok (.function id f) m' ∧
      m'.Binds f r ∧ f.routine = g.routine
  /-- Bound methods stay bound to their instances. -/
  kept : ∀ {f r}, m.Binds f r → (endOf (task.run host (n + 1) m)).Binds f r ∧
    ∀ {k task' m'}, Arrives host (n + 1) task m k task' m' → m'.Binds f r
  /-- A call of a class gives a new instance, which is of that class. -/
  constructs : ∀ {c line arguments v m'}, task = .invoke (.cls c) line arguments →
    invoke host (n + 1) (.cls c) line arguments m = .ok v m' →
    v = .object m.store.instances.size ∧ m'.store.classOf? m.store.instances.size = some c
  /-- Initializers are bound methods, -/
  bound : ∀ {id f line arguments}, task = .invoke (.function id f) line arguments →
    f.isInitializer = true → ∃ r, m.Binds f r
  /-- and a call of one gives the instance that it is bound to. -/
  initializes : ∀ {id f line arguments r v m'}, task = .invoke (.function id f) line arguments →
    m.Binds f r → f.routine.name.lexeme = initializerName →
    invoke host (n + 1) (.function id f) line arguments m = .ok v m' → v = .object r

section

variable {host : Host} {s : Session} {source : String} {n : Nat} {task : Task} {m m' : Machine}

/-- A class with the method has been declared in the frame around. -/
theorem Machine.Binds.declared {f : Closure} {r : InstanceRef} (h : m.Binds f r)
    (hknows : ∀ {c}, m.store.classOf? r = some c → s.Knows host c) :
    ∃ c name methods m₀, m.store.classOf? r = some c ∧ s.Declared host c name methods m₀ ∧
      f.routine ∈ methods ∧ m.store.enclosing? f.scope = some m₀.scope := by
  obtain ⟨c, e, hc, he, hf⟩ := h.method
  obtain ⟨name, methods, m₀, hdeclared⟩ := hknows hc
  rw [hdeclared.made] at hf
  obtain ⟨routine, hroutine, -, heq⟩ := exists_of_methodTable hf
  obtain rfl : e = m₀.scope := congrArg Closure.scope heq
  obtain rfl : f.routine = routine := congrArg Closure.routine heq
  exact ⟨c, name, methods, m₀, hc, hdeclared, hroutine, he⟩

/-- Where a `this` is evaluated, its recorded distance leads to the frame of a bound method. -/
theorem meansReceiver_of_good {id : NodeId} {keyword : Token} {d : Nat}
    (h : receiving.Good (n + 1) (.evaluate (.this id keyword)) m) (hd : m.Records id (some d))
    (hknows : ∀ {r c}, m.store.classOf? r = some c → s.Knows host c) :
    ∃ f r, s.MeansReceiver host n id keyword m f r := by
  obtain ⟨d', own, hsees, hknown, hthis⟩ := h.code
  obtain rfl := hknown.2.symm.trans hd.2
  obtain ⟨f, r, hup, hbinds, rfl⟩ := hsees d rfl
  obtain ⟨hkeyword, hid⟩ := hthis (by simp)
  refine ⟨f, r, ⟨d, hd.2, hup⟩, hbinds, hid, ?_, hbinds.declared hknows⟩
  exact lookUp_of_bound hd.2 hup (hkeyword ▸ hbinds.this)

/-- An initializer gives what its frame knows as `this`, after its body has run. -/
theorem ends_initializer (L : receiving.Lawful host) {f : Closure} {r : InstanceRef}
    {arguments : List Value} (h : receiving.Good n (.callClosure f arguments) m)
    (hf : f.isInitializer = true) (hbinds : m.Binds f r) :
    receiving.Ends m (fun _ v => v = .object r) (callClosure host n f arguments m) := by
  cases n with
  | zero => exact .throw L h.ok .outOfFuel
  | succ n =>
    simp only [callClosure]
    have hbody := Discipline.Ends.inside L (h.arguments_inside L).2.1
      ((L.at n).executeAll (h.body L).toGood)
    refine hbody.bind L fun _ hfollows _ => ?_
    unfold Eval.callResult
    rw [if_pos hf]
    refine .get_bind (.ofExcept L hfollows.ok _ fun hv => ?_)
    rw [Store.getAt_eq_ok _ _ _ _ rfl (hbinds.lasts hfollows.later).this] at hv
    exact (Except.ok.inj hv).symm

/-- **Every call minds the receivers.** -/
theorem mindsReceivers_of_good (L : receiving.Lawful host) (h : receiving.Good (n + 1) task m) :
    MindsReceivers host n task m where
  taken {object name r g m₁} htask hobject hfield hmethod := by
    subst htask
    obtain ⟨hfollows, hr⟩ := ((L.at n).evaluate (h.first L rfl)).of_ok hobject
    obtain ⟨c, hc, methods, e, htable, -⟩ := hr
    -- The method comes from the class of the instance, and is bound in a frame of its own.
    obtain ⟨c', hc', hg⟩ := Option.bind_eq_some_iff.mp hmethod
    obtain rfl := Option.some.inj (hc.symm.trans hc')
    obtain ⟨-, hbinds⟩ := Machine.binds_binding hc htable hg
    refine ⟨m₁.nextObject, { g with scope := m₁.store.frames.size },
      { m₁.binding g r with nextObject := m₁.nextObject + 1 }, ?_,
      ⟨hbinds.this, hbinds.method, hbinds.isInitializer⟩, rfl⟩
    simp only [evaluate, bind, EStateM.bind, hobject, Eval.property, get, getThe, MonadStateOf.get,
      EStateM.get, hfield, hmethod]
    rfl
  kept hbinds := by
    refine ⟨hbinds.lasts (h.run L).later, fun harrives => ?_⟩
    exact hbinds.lasts (h.arrives L harrives).later
  constructs {c line arguments v m'} htask hv := by
    subst htask
    obtain ⟨-, rfl, hlasts⟩ := ((L.at n).construct L h).of_ok hv
    refine ⟨rfl, Machine.Lasts.classOf? hlasts ?_⟩
    exact (Store.classOf?_newInstance ..).trans (if_pos rfl)
  bound htask hf := by
    subst htask
    exact h.values.1.2 hf
  initializes {id f line arguments r v m'} htask hbinds hname hv := by
    subst htask
    have hf : f.isInitializer = true := hbinds.isInitializer.trans (decide_eq_true hname)
    have hends : receiving.Ends m (fun _ v => v = .object r)
        (invoke host (n + 1) (.function id f) line arguments m) := by
      simp only [invoke]
      refine (Discipline.Ends.checkArity L h.ok line _ arguments).bind L fun _ _ hsame => ?_
      obtain ⟨rfl, hlength⟩ := hsame
      exact ends_initializer L (h.next L (L.at n) (.plain rfl (.function hlength))) hf hbinds
    exact (hends.of_ok hv).2

/-- What is recorded for a program stays so. -/
theorem Session.Onwards.next (hhost : host.Quiet) (h : s.Reached host) (hexecutes : s.Executes source)
    {s' : Session} (honwards : s.Onwards host source s' n task m) :
    receiving.Next n (s.prepared source) task m := by
  have G := governs_receiving hhost
  have hok := G.ok h
  have hhome := G.home_scope h hok
  cases honwards with
  | run hduring =>
    cases hduring with
    | run _ hreaches harrives =>
      exact G.next_of_arrives hok hhome (G.admits hok _) hexecutes hreaches harrives
  | @later fuel _ actions _ _ _ hduring =>
    have hrun := h.run fuel source
    have hlater := (G.executed hok hhome (G.admits hok (.run fuel source)) hexecutes).2
    have hnext := G.during (hrun.actAll actions) hduring
    exact ⟨hnext.toGood, G.trans hlater (G.trans (G.later hrun actions) hnext.later)⟩

/-- The classes of all instances come from declarations that were executed. -/
theorem Session.Onwards.knows (hhost : host.Quiet) (h : s.Reached host) {s' : Session}
    (honwards : s.Onwards host source s' n task m) {r : InstanceRef} {c : Class}
    (hc : m.store.classOf? r = some c) : s'.Knows host c := by
  cases honwards with
  | run hduring => exact hduring.knows hhost h hc
  | @later fuel _ actions _ _ _ hduring =>
    exact hduring.knows hhost ((h.run fuel source).actAll actions) hc

/-- **Methods know their instance.** From the run of a program on, also in later actions of the
session, each `this` of the program means the instance of the method around it. At each moment of a
session, methods that are taken from an instance are bound to it and stay so; a call of a class that
returns gives the instance which it has made, and a call of a bound `init` that returns gives the
instance which it is bound to. -/
theorem methods_know_their_instance (hhost : host.Quiet) (h : s.Reached host) :
    (∀ {source}, s.Executes source → ∀ id ∈ Stmt.thisIdsAll (s.read source).statements,
      ∀ {s' n keyword m}, s.Onwards host source s' (n + 1) (.evaluate (.this id keyword)) m →
        ∃ f r, s'.MeansReceiver host n id keyword m f r) ∧
    (∀ {a n task m}, s.During host a (n + 1) task m → MindsReceivers host n task m) ∧
    ∀ actions {f r}, s.machine.Binds f r → (s.actAll host actions).machine.Binds f r := by
  have G := governs_receiving hhost
  refine ⟨fun {source} hexecutes id hid {s' n keyword m} honwards => ?_, fun hduring => ?_,
    fun actions f r hbinds => ?_⟩
  · obtain ⟨-, -, -, hrecorded⟩ := Session.recording_prepared hexecutes (G.ok h).shape
    obtain ⟨d, hd⟩ := hrecorded id hid
    have hnext := honwards.next hhost h hexecutes
    exact meansReceiver_of_good hnext.toGood (hnext.later.records _ _ hd) (honwards.knows hhost h)
  · exact mindsReceivers_of_good G.toLawful (G.during h hduring).toGood
  · exact hbinds.lasts (G.later h actions)

end

/-- A program that takes an initializer from an instance and gives the instance a field of its name. -/
def takesInitializer : String :=
  "class A { init() { this; return; } } var a = A(); var f = a.init; a.init = nil;"

/-- The global is an initializer without parameters, and its body begins with this `this`. -/
def Machine.holdsInitializer (m : Machine) (x : String) (node : NodeId) : Bool :=
  match m.store.get m.globals x with
  | .ok (.function _ ⟨⟨_, [], .exprStmt (.this id _) :: _⟩, _, true⟩) => id = node
  | _ => false

/-- What the test finds in the globals, written out. -/
theorem Machine.exists_of_holdsInitializer {m : Machine} {x : String} {node : NodeId}
    (h : m.holdsInitializer x node = true) :
    ∃ id f keyword rest, m.store.get m.globals x = .ok (.function id f) ∧ f.isInitializer = true ∧
      f.arity = 0 ∧ f.routine.body = .exprStmt (.this node keyword) :: rest := by
  unfold holdsInitializer at h
  split at h
  · next hget =>
    cases of_decide_eq_true h
    exact ⟨_, _, _, _, hget, rfl, rfl, rfl⟩
  · cases h

/-- The call `f()`. -/
def callsInitializer : Expr :=
  .call (.var 4 ⟨.identifier, "f", none, 1⟩) ⟨.rightParen, ")", none, 1⟩ []

/-- The call is read with the ids that come next. -/
theorem expression?_callsInitializer {s : Session} (h : s.machine.nextId = 4) :
    s.expression? "f()" = some callsInitializer := by
  unfold Session.expression?
  rw [h]
  cbv

/-- The call comes to the function, and to the `this` that its body begins with. -/
theorem arrives_callsInitializer {host : Host} {id : ObjectId} {node : NodeId} {f : Closure}
    {keyword : Token} {rest : List Stmt} {m : Machine} (hd : m.distances[4]? = none)
    (hget : m.store.get m.globals "f" = .ok (.function id f)) (harity : f.arity = 0)
    (hbody : f.routine.body = .exprStmt (.this node keyword) :: rest) :
    Arrives host 20 (.evaluate callsInitializer) m 19 (.invoke (.function id f) 1 []) m ∧
      ∃ m', Arrives host 20 (.evaluate callsInitializer) m 15 (.evaluate (.this node keyword)) m' := by
  have hcallee : evaluate host 19 (.var 4 ⟨.identifier, "f", none, 1⟩) m = .ok (.function id f) m :=
    lookUp_of_global hd hget
  have hinvoke : Arrives host 20 (.evaluate callsInitializer) m 19 (.invoke (.function id f) 1 []) m :=
    .step .refl (.plain rfl (.invoke hcallee rfl))
  have hbegin : Task.first (.executeAll f.routine.body) =
      some (.execute (.exprStmt (.this node keyword))) := by
    rw [hbody]
    rfl
  exact ⟨hinvoke, _, hinvoke.step (.plain rfl (.function harity.symm)) |>.step (.plain rfl .body)
    |>.step (.plain rfl (.first hbegin)) |>.step (.plain rfl (.first rfl))⟩

/-- The initializer that was taken, called in the session behind the program. -/
theorem methods_know_their_instance_takenInitializer :
    let host := Library.host fun _ => 0
    let start := Session.start true none
    let s := (start.run host 30 takesInitializer).2
    host.Quiet ∧ start.Reached host ∧ s.Reached host ∧ ∃ id f r keyword m m' f' r',
      s.During host (.evaluate 20 "f()") 19 (.invoke (.function id f) 1 []) m ∧ m.Binds f r ∧
      (∀ v m₁, invoke host 19 (.function id f) 1 [] m = .ok v m₁ → v = .object r) ∧
      s.During host (.evaluate 20 "f()") 15 (.evaluate (.this 0 keyword)) m' ∧
      (s.act host (.evaluate 20 "f()")).MeansReceiver host 14 0 keyword m' f' r' := by
  intro host start s
  have hquiet : host.Quiet := Library.quiet _
  have hstart : start.Reached host := .start true none
  have hreached : s.Reached host := hstart.run 30 _
  have hexecutes : start.Executes takesInitializer := by decide +kernel
  have hthis : 0 ∈ Stmt.thisIdsAll (start.read takesInitializer).statements := by decide +kernel
  have hholds : s.machine.holdsInitializer "f" 0 = true := by decide +kernel
  have hnextId : s.machine.nextId = 4 := by decide +kernel
  have hd : s.machine.distances[4]? = none := by decide +kernel
  have hs : s = (start.run host 30 takesInitializer).2 := rfl
  -- nothing is evaluated from here on
  clear_value s start host
  obtain ⟨id, f, keyword, rest, hget, hinit, harity, hbody⟩ :=
    Machine.exists_of_holdsInitializer hholds
  have hread := expression?_callsInitializer hnextId
  have hcalls := fun nextId => @arrives_callsInitializer host _ _ _ _ _ { s.machine with nextId }
    hd hget harity hbody
  obtain ⟨harrives, m', harrives'⟩ :=
    hcalls (parseExpression (tokensOf (scan "f()")) s.machine.nextId).2
  have hinvoke : s.During host (.evaluate 20 "f()") _ _ _ := .evaluate hread harrives
  have hevaluate : s.During host (.evaluate 20 "f()") _ _ _ := .evaluate hread harrives'
  have hminds := (methods_know_their_instance hquiet hreached).2.1 hinvoke
  obtain ⟨r, hbinds⟩ := hminds.bound rfl hinit
  have honwards : start.Onwards host takesInitializer (s.act host (.evaluate 20 "f()")) 15
      (.evaluate (.this 0 keyword)) m' := by
    rw [hs] at hevaluate ⊢
    exact @Session.Onwards.later host start takesInitializer 30 _ [] _ _ _ hevaluate
  obtain ⟨f', r', hmeans⟩ :=
    (methods_know_their_instance hquiet hstart).1 hexecutes 0 hthis honwards
  refine ⟨hquiet, hstart, hreached, id, f, r, keyword, _, m', f', r', hinvoke, hbinds,
    fun v m₁ hv => ?_, hevaluate, hmeans⟩
  exact hminds.initializes rfl hbinds (of_decide_eq_true (hbinds.isInitializer.symm.trans hinit)) hv

end LoxLang
