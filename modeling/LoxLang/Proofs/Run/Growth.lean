import Mathlib
import LoxLang.Proofs.Run.Obedience
import LoxLang.Proofs.Store.Search

/-!
# Proofs/Run/Growth — the heap only grows

Frames and instances refer to one another through closures, classes and fields, in cycles too, but
nothing of this is ever undone: a frame keeps the frame around it and every name that it has, an
instance its class and every field (`Machine.Grown`). A frame is only made inside of one that is
there, so each chain of frames leads to the globals; all closures have frames that are there
(`placement`), so their chains lead there as well (`Machine.Anchored`).

What a field holds changes only where a program sets it. If no call that is made on the way sets the
field of the instance, a discipline of its own says that the field is untouched (`untouched`).

The main result is `heap_only_grows`.
-/

namespace LoxLang

open EStateM (Result)

/-! ## Chains that lead to the globals -/

namespace Machine

/-- The chain of the frame ends with the globals. -/
def LeadsHome (m : Machine) (r : FrameRef) : Prop :=
  ∃ rs, m.store.Chain r rs ∧ (r :: rs).getLast? = some m.globals

/-- The closures that a value holds: a function its own, a class its methods, an instance those of its
class. -/
inductive Holds (m : Machine) : Value → Closure → Prop
  | function {id : ObjectId} {f : Closure} : m.Holds (.function id f) f
  | method {c : Class} {x : String} {f : Closure} (h : c.methods[x]? = some f) : m.Holds (.cls c) f
  | inherited {r : InstanceRef} {x : String} {f : Closure} (h : m.store.method? r x = some f) :
      m.Holds (.object r) f

/-- The chains of all closures that the value holds lead to the globals. -/
def Anchors (m : Machine) (v : Value) : Prop :=
  ∀ f, m.Holds v f → m.LeadsHome f.scope

/-- **All chains lead to the globals**: that of the current frame, and those of the closures that any
variable, any field and any instance holds. -/
structure Anchored (m : Machine) : Prop where
  scope : m.LeadsHome m.scope
  names : ∀ {r x v}, m.store.local? r x = some v → m.Anchors v
  fields : ∀ {r x v}, m.store.field? r x = some v → m.Anchors v
  instances : ∀ {r}, r < m.store.instances.size → m.Anchors (.object r)

/-- **Nothing that was there is gone.** -/
structure Grown (m m' : Machine) : Prop where
  frames : m.store.frames.size ≤ m'.store.frames.size
  enclosing? : ∀ {r}, r < m.store.frames.size → m'.store.enclosing? r = m.store.enclosing? r
  names : ∀ {r x}, (m.store.local? r x).isSome = true → (m'.store.local? r x).isSome = true
  instances : m.store.instances.size ≤ m'.store.instances.size
  classOf? : ∀ {r}, r < m.store.instances.size → m'.store.classOf? r = m.store.classOf? r
  fields : ∀ {r x}, (m.store.field? r x).isSome = true → (m'.store.field? r x).isSome = true
  globals : m'.globals = m.globals

/-- The frames of a machine: each is inside of an older one, but for the globals. -/
structure Nested (m : Machine) : Prop extends m.Rooted where
  younger : m.store.Younger
  outermost : ∀ {r}, r < m.store.frames.size → m.store.enclosing? r = none → r = m.globals

variable {m m' m'' : Machine}

theorem Grown.refl (m : Machine) : m.Grown m :=
  ⟨Nat.le_refl _, fun _ => rfl, id, Nat.le_refl _, fun _ => rfl, id, rfl⟩

/-- What has grown twice has grown. -/
theorem Grown.trans (h : m.Grown m') (h' : m'.Grown m'') : m.Grown m'' where
  frames := Nat.le_trans h.frames h'.frames
  enclosing? hr := (h'.enclosing? (Nat.lt_of_lt_of_le hr h.frames)).trans (h.enclosing? hr)
  names hx := h'.names (h.names hx)
  instances := Nat.le_trans h.instances h'.instances
  classOf? hr := (h'.classOf? (Nat.lt_of_lt_of_le hr h.instances)).trans (h.classOf? hr)
  fields hx := h'.fields (h.fields hx)
  globals := h'.globals.trans h.globals

theorem Grown.of_store (hstore : m'.store = m.store) (hglobals : m'.globals = m.globals) :
    m.Grown m' := by
  constructor <;> simp_all

theorem Nested.of_store (h : m.Nested) (hstore : m'.store = m.store)
    (hglobals : m'.globals = m.globals) : m'.Nested := by
  obtain ⟨⟨hlt, hroot⟩, hyounger, houtermost⟩ := h
  rw [← hstore, ← hglobals] at hlt hroot
  rw [← hstore] at hyounger
  refine ⟨⟨hlt, hroot⟩, hyounger, fun hr he => ?_⟩
  rw [hstore] at hr he
  rw [hglobals]
  exact houtermost hr he

end Machine

/-- Only instances that are there have fields. -/
theorem Store.lt_size_of_field? {s : Store} {r : InstanceRef} {x : String} {v : Value}
    (h : s.field? r x = some v) : r < s.instances.size := by
  by_contra hge
  simp [Store.field?, Array.getElem?_eq_none (Nat.le_of_not_lt hge)] at h

/-- The frame at the end of a chain is the outermost one. -/
theorem Store.Chain.last_outermost {s : Store} {r l : FrameRef} {rs : List FrameRef}
    (h : s.Chain r rs) (hyounger : s.Younger) (hl : (r :: rs).getLast? = some l) :
    s.enclosing? l = none ∧ l ≤ r := by
  induction h with
  | outermost he =>
    cases hl
    exact ⟨he, Nat.le_refl _⟩
  | @inside r e rs he _ ih =>
    rw [List.getLast?_cons_cons] at hl
    obtain ⟨hnone, hle⟩ := ih hl
    exact ⟨hnone, Nat.le_trans hle (Nat.le_of_lt (hyounger r e he))⟩

/-- **Every chain leads to the globals.** -/
theorem Machine.Nested.leadsHome {m : Machine} (h : m.Nested) {r : FrameRef}
    (hr : r < m.store.frames.size) : m.LeadsHome r := by
  obtain ⟨rs, hchain, -⟩ := h.younger.exists_chain r
  refine ⟨rs, hchain, ?_⟩
  obtain ⟨l, hl⟩ : ∃ l, (r :: rs).getLast? = some l := ⟨_, List.getLast?_eq_some_getLast (by simp)⟩
  obtain ⟨hnone, hle⟩ := hchain.last_outermost h.younger hl
  rw [hl, h.outermost (Nat.lt_of_le_of_lt hle hr) hnone]

/-! ## Where closures are -/

namespace Machine

/-- The value is there: an instance that it is, and the frames of the closures that it holds. -/
def Placed (m : Machine) : Value → Prop
  | .function _ f => f.scope < m.store.frames.size
  | .cls c => ∀ (x : String) (f : Closure), c.methods[x]? = some f → f.scope < m.store.frames.size
  | .object r => r < m.store.instances.size
  | _ => True

/-- The frames are nested, and the class of each instance is there. -/
structure Furnished (m : Machine) : Prop extends m.Nested where
  classes : ∀ {r c}, m.store.classOf? r = some c → m.Placed (.cls c)

variable {m m' : Machine} {v : Value}

/-- A value that is there stays there. -/
theorem Placed.grown (h : m.Placed v) (hgrown : m.Grown m') : m'.Placed v := by
  cases v with
  | function id f => exact Nat.lt_of_lt_of_le h hgrown.frames
  | cls c => exact fun x f hf => Nat.lt_of_lt_of_le (h x f hf) hgrown.frames
  | object r => exact Nat.lt_of_lt_of_le h hgrown.instances
  | _ => trivial

/-- Constants hold no closures. -/
theorem placed_constant (m : Machine) (c : Constant) : m.Placed c.value := by
  cases c <;> trivial

/-- The methods of an instance are closed in frames that are there. -/
theorem Furnished.scope_lt (h : m.Furnished) {r : InstanceRef} {x : String} {f : Closure}
    (hf : m.store.method? r x = some f) : f.scope < m.store.frames.size := by
  obtain ⟨c, hc, hf⟩ := Option.bind_eq_some_iff.mp hf
  exact h.classes hc x f hf

/-- The chains of all closures that a value holds lead to the globals. -/
theorem Furnished.anchors (h : m.Furnished) (hv : m.Placed v) : m.Anchors v := by
  intro f hf
  refine h.leadsHome ?_
  cases hf with
  | function => exact hv
  | method hmethod => exact hv _ _ hmethod
  | inherited hmethod => exact h.scope_lt hmethod

theorem Furnished.of_store (h : m.Furnished) (hstore : m'.store = m.store)
    (hglobals : m'.globals = m.globals) : m'.Furnished where
  toNested := h.toNested.of_store hstore hglobals
  classes hc := by
    rw [hstore] at hc
    exact (h.classes hc).grown (.of_store hstore hglobals)

/-! ### Single changes -/

/-- A new frame takes nothing away. -/
theorem grown_framed (names : Std.TreeMap String Value) (e : FrameRef) :
    m.Grown (m.framed names e) where
  frames := by
    change _ ≤ (m.store.newFrame names (some e)).2.frames.size
    simp
  enclosing? hr := Store.enclosing?_newFrame_of_lt _ _ _ _ hr
  names {r x} hx := by
    obtain ⟨v, hv⟩ := Option.isSome_iff_exists.mp hx
    change ((m.store.newFrame names (some e)).2.local? r x).isSome = true
    rw [Store.local?_newFrame_of_lt _ _ _ _ _ (Store.lt_size_of_local? hv)]
    exact hx
  instances := Nat.le_refl _
  classOf? _ := rfl
  fields := id
  globals := rfl

/-- A new frame inside of one that is there. -/
theorem Furnished.framed (h : m.Furnished) {e : FrameRef} (he : e < m.store.frames.size)
    (names : Std.TreeMap String Value) : (m.framed names e).Furnished := by
  have hgrown : m.Grown (m.framed names e) := grown_framed names e
  refine ⟨⟨⟨Nat.lt_of_lt_of_le h.lt_size hgrown.frames, ?_⟩, ?_, fun {r} hr hnone => ?_⟩, ?_⟩
  · exact (hgrown.enclosing? h.lt_size).trans h.enclosing?
  · exact h.younger.newFrame (fun r hr => by cases hr; exact he) names
  · change (m.store.newFrame names (some e)).2.enclosing? r = none at hnone
    change r < (m.store.newFrame names (some e)).2.frames.size at hr
    rw [Store.enclosing?_newFrame] at hnone
    rw [Store.frames_size_newFrame] at hr
    split at hnone
    · cases hnone
    · next hne => exact h.outermost (Nat.lt_of_le_of_ne (Nat.le_of_lt_succ hr) hne) hnone
  · exact fun hc => (h.classes hc).grown hgrown

/-- A new instance takes nothing away. -/
theorem grown_instanced (c : Class) : m.Grown (m.instanced c) where
  frames := Nat.le_refl _
  enclosing? _ := rfl
  names := id
  instances := by
    change _ ≤ (m.store.newInstance c).2.instances.size
    simp [Store.newInstance]
  classOf? {r} hr := by
    change (m.store.newInstance c).2.classOf? r = _
    rw [Store.classOf?_newInstance, if_neg (Nat.ne_of_lt hr)]
  fields {r x} hx := by
    obtain ⟨v, hv⟩ := Option.isSome_iff_exists.mp hx
    change ((m.store.newInstance c).2.field? r x).isSome = true
    rw [Store.field?_newInstance, if_neg (Nat.ne_of_lt (Store.lt_size_of_field? hv))]
    exact hx
  globals := rfl

/-- A new instance of a class that is there. -/
theorem Furnished.instanced (h : m.Furnished) {c : Class} (hc : m.Placed (.cls c)) :
    (m.instanced c).Furnished where
  toNested := ⟨⟨h.lt_size, h.enclosing?⟩, h.younger, h.outermost⟩
  classes {r c'} hc' := by
    change (m.store.newInstance c).2.classOf? r = some c' at hc'
    rw [Store.classOf?_newInstance] at hc'
    split at hc'
    · cases hc'
      exact hc
    · exact h.classes hc'

/-- Binding a name takes nothing away: the frame has one name more, or another value for it. -/
theorem grown_defining (r : FrameRef) (x : String) (v : Value) : m.Grown (m.defining r x v) where
  frames := by
    change _ ≤ (m.store.define r x v).frames.size
    simp
  enclosing? _ := Store.enclosing?_define ..
  names {r' x'} hx := by
    change ((m.store.define r x v).local? r' x').isSome = true
    rw [Store.local?_define]
    split
    · rfl
    · exact hx
  instances := Nat.le_refl _
  classOf? _ := rfl
  fields := id
  globals := rfl

theorem Furnished.defining (h : m.Furnished) (r : FrameRef) (x : String) (v : Value) :
    (m.defining r x v).Furnished := by
  have hsize : (m.defining r x v).store.frames.size = m.store.frames.size :=
    Store.frames_size_define ..
  have henclosing : ∀ r', (m.defining r x v).store.enclosing? r' = m.store.enclosing? r' :=
    fun r' => Store.enclosing?_define ..
  refine ⟨⟨⟨?_, ?_⟩, h.younger.define r x v, fun {r'} hr hnone => ?_⟩, fun hc => ?_⟩
  · rw [hsize]
    exact h.lt_size
  · rw [henclosing]
    exact h.enclosing?
  · rw [hsize] at hr
    rw [henclosing] at hnone
    exact h.outermost hr hnone
  · exact (h.classes hc).grown (grown_defining r x v)

/-- Setting a field takes nothing away: the instance has one field more, or another value for it. -/
theorem grown_setting (r : InstanceRef) (x : String) (v : Value) : m.Grown (m.setting r x v) where
  frames := Nat.le_refl _
  enclosing? _ := rfl
  names := id
  instances := by
    change _ ≤ (m.store.setField r x v).instances.size
    simp [Store.setField]
  classOf? _ := Store.classOf?_setField ..
  fields {r' x'} hx := by
    change ((m.store.setField r x v).field? r' x').isSome = true
    rw [Store.field?_setField]
    split
    · rfl
    · exact hx
  globals := rfl

theorem Furnished.setting (h : m.Furnished) (r : InstanceRef) (x : String) (v : Value) :
    (m.setting r x v).Furnished where
  toNested := ⟨⟨h.lt_size, h.enclosing?⟩, h.younger, h.outermost⟩
  classes {r' c} hc := by
    change (m.store.setField r x v).classOf? r' = some c at hc
    rw [Store.classOf?_setField] at hc
    exact (h.classes hc).grown (grown_setting r x v)

/-- Before anything ran there are the globals, and no instance. -/
theorem furnished_fresh (capacity : Option Nat) : (fresh capacity).Furnished := by
  have hnone : ∀ r, (fresh capacity).store.enclosing? r = none := by
    intro r
    change (Store.empty.newFrame ∅ none).2.enclosing? r = none
    rw [Store.enclosing?_newFrame]
    split
    · rfl
    · simp [Store.empty, Store.enclosing?]
  refine ⟨⟨⟨Nat.zero_lt_one, hnone 0⟩, fun r e he => ?_, fun hr _ => Nat.lt_one_iff.mp hr⟩, ?_⟩
  · rw [hnone] at he
    cases he
  · intro r c hc
    change (Store.empty.newFrame ∅ none).2.classOf? r = some c at hc
    simp [Store.empty, Store.newFrame, Store.classOf?] at hc

end Machine

/-- **Closures keep to frames that are there.** -/
def placement : Discipline where
  Shape := Machine.Furnished
  Later := Machine.Grown
  Fine := Machine.Placed
  Home m r := r < m.store.frames.size
  Name _ := True
  Owned _ _ := True
  Code _ _ _ := True

/-- **Closures keep to frames that are there, in every session.** -/
theorem governs_placement {host : Host} (hhost : host.Quiet) : placement.Governs host where
  quiet := hhost
  refl := Machine.Grown.refl
  trans := Machine.Grown.trans
  fine hgrown hv := hv.grown hgrown
  home hgrown hr := Nat.lt_of_lt_of_le hr hgrown.frames
  owned _ _ := trivial
  idle h hm := ⟨hm.of_store h.store h.globals, .of_store h.store h.globals⟩
  taken _ _ _ := trivial
  framed {m e} names hm he := by
    refine ⟨hm.framed he names, Machine.grown_framed names e, ?_⟩
    change m.store.frames.size < (m.store.newFrame names (some e)).2.frames.size
    simp
  instanced {m c} hm hc := by
    refine ⟨hm.instanced hc, Machine.grown_instanced c, ?_⟩
    change m.store.instances.size < (m.store.newInstance c).2.instances.size
    simp [Store.newInstance]
  defining v hm _ := ⟨hm.defining _ _ v, Machine.grown_defining _ _ v⟩
  setting _ _ _ hm := ⟨hm.setting _ _ _, Machine.grown_setting _ _ _⟩
  constant := Machine.placed_constant
  hostFunction _ _ _ := trivial
  closure _ _ hhome := hhome
  cls _ hhome := by
    intro x f hf
    obtain ⟨r, -, -, rfl⟩ := exists_of_methodTable hf
    exact hhome
  calledHome h := h
  methodHome hm _ hf := hm.scope_lt hf
  bound {m r x f id} _ _ _ := by
    change m.store.frames.size < (m.store.newFrame _ (some f.scope)).2.frames.size
    simp
  declares _ _ := trivial
  assigns _ _ _ := .inl trivial
  code _ _ _ _ _ := trivial
  fresh := Machine.furnished_fresh
  top hm := hm.lt_size
  lasts _ _ := trivial
  expression _ := trivial
  program {s source} _ hm :=
    have hstore := s.store_prepared source
    have hglobals := s.globals_prepared source
    ⟨hm.of_store hstore hglobals, .of_store hstore hglobals, fun _ _ _ => trivial⟩

/-! ## Where fields are set -/

/-- **On the way of a call a field of the instance is set**: in an expression that sets the field, the
object has evaluated to the instance, and the value was evaluated too. -/
inductive Sets (host : Host) (n : Nat) (task : Task) (m : Machine) (r : InstanceRef) : String → Prop
  | intro {k : Nat} {object value : Expr} {name : Token} {v : Value} {m₁ m₂ m₃ : Machine}
      (harrives : Arrives host n task m (k + 1) (.evaluate (.set object name value)) m₁)
      (hobject : evaluate host k object m₁ = .ok (.object r) m₂)
      (hvalue : evaluate host k value m₂ = .ok v m₃) : Sets host n task m r name.lexeme

section

variable {host : Host} {n : Nat} {task task' : Task} {m m' : Machine} {r : InstanceRef} {x : String}

/-- What is set in a call is set in the call that makes it. -/
theorem Sets.after (hmakes : Makes host n task m task' m') (h : Sets host n task' m' r x) :
    Sets host (n + 1) task m r x := by
  cases h with
  | intro harrives hobject hvalue => exact .intro (.after hmakes harrives) hobject hvalue

variable (host r x) in
/-- What a field holds is not touched by calls that do not set it. -/
def untouched : Discipline where
  Shape _ := True
  Later m m' := m'.store.field? r x = m.store.field? r x
  Fine _ _ := True
  Home _ _ := True
  Name _ := True
  Owned _ _ := True
  Code n task m := ¬ Sets host n task m r x

/-- **A field that is not set on the way holds what it held**, step by step. -/
theorem lawful_untouched (hhost : host.Quiet) : (untouched host r x).Lawful host where
  quiet := hhost
  refl _ := rfl
  trans h h' := Eq.trans h' h
  fine _ _ := trivial
  home _ _ := trivial
  owned _ _ := trivial
  idle {m m'} h _ := ⟨trivial, congrArg (Store.field? · r x) h.store⟩
  taken _ _ _ := trivial
  framed _ _ _ := ⟨trivial, rfl, trivial⟩
  instanced {m c} _ _ := by
    refine ⟨trivial, ?_, trivial⟩
    change (m.store.newInstance c).2.field? r x = m.store.field? r x
    rw [Store.field?_newInstance]
    split
    · next hr => simp [Store.field?, hr]
    · rfl
  defining _ _ _ := ⟨trivial, rfl⟩
  setting {n object name value m i m₁ v m₂} hcode hobject hvalue _ := by
    refine ⟨trivial, Store.field?_setField_of_ne _ _ _ _ _ _ ?_⟩
    by_contra hsame
    simp only [not_or, not_not] at hsame
    obtain ⟨rfl, rfl⟩ := hsame
    exact hcode (.intro .refl hobject hvalue)
  constant _ _ := trivial
  hostFunction _ _ _ := trivial
  closure _ _ _ := trivial
  cls _ _ := trivial
  calledHome _ := trivial
  methodHome _ _ _ := trivial
  bound _ _ _ := trivial
  declares _ _ := trivial
  assigns _ _ _ := .inl trivial
  code hmakes _ _ _ hcode hsets := hcode (hsets.after hmakes)

/-- A call that sets no such field is a good one to begin with. -/
theorem good_untouched (htask : task.isCode = true) (h : ¬ Sets host n task m r x) :
    (untouched host r x).Good n task m :=
  ⟨⟨trivial, fun _ => trivial, fun _ => trivial⟩, trivial, h, Discipline.taskFine_of_isCode htask⟩

/-- If a field holds something else after an evaluation, it was set on the way. -/
theorem sets_of_evaluate (hhost : host.Quiet) {e : Expr}
    (h : (endOf (evaluate host n e m)).store.field? r x ≠ m.store.field? r x) :
    Sets host n (.evaluate e) m r x := by
  by_contra hsets
  exact h (((lawful_untouched hhost).at n).evaluate (good_untouched rfl hsets)).follows.later

/-- If a field holds something else after a statement, it was set on the way. -/
theorem sets_of_execute (hhost : host.Quiet) {t : Stmt}
    (h : (endOf (execute host n t m)).store.field? r x ≠ m.store.field? r x) :
    Sets host n (.execute t) m r x := by
  by_contra hsets
  exact h (((lawful_untouched hhost).at n).execute (good_untouched rfl hsets)).follows.later

end

/-! ## All of a session -/

/-- The values that a call is made with. -/
inductive Task.Brings : Task → Value → Prop
  | callee {f : Value} {line : Nat} {arguments : List Value} :
      Brings (.invoke f line arguments) f
  | argument {f v : Value} {line : Nat} {arguments : List Value} (h : v ∈ arguments) :
      Brings (.invoke f line arguments) v
  | closure {id : ObjectId} {f : Closure} {arguments : List Value} :
      Brings (.callClosure f arguments) (.function id f)
  | passed {f : Closure} {v : Value} {arguments : List Value} (h : v ∈ arguments) :
      Brings (.callClosure f arguments) v

/-- The machines that a session comes to: the one between actions, and those of its moments. -/
inductive Session.Comes (host : Host) (s : Session) : Machine → Prop
  | rest : Comes host s s.machine
  | moment {source : String} {fuel n : Nat} {task : Task} {m : Machine}
      (h : s.Moment host source fuel n task m) : Comes host s m

/-- What a step leaves of the heap, however it ends. -/
structure Extends {α : Type} (host : Host) (n : Nat) (task : Task) (m : Machine)
    (anchors : Machine → α → Prop) (out : Result Stop Machine α) : Prop where
  grown : m.Grown (endOf out)
  anchored : (endOf out).Anchored
  value : ∀ {a m'}, out = .ok a m' → anchors m' a
  sets : ∀ {r x}, (endOf out).store.field? r x ≠ m.store.field? r x → Sets host n task m r x

/-- The name is bound in the globals. -/
def Machine.Defines (m : Machine) (x : String) : Prop :=
  (m.store.local? m.globals x).isSome = true

instance (m : Machine) (x : String) : Decidable (m.Defines x) :=
  inferInstanceAs (Decidable (_ = true))

section

variable {host : Host} {s : Session} {n : Nat} {task : Task} {m m' : Machine}

/-- A global that is defined stays so. -/
theorem Machine.Grown.defines (h : m.Grown m') {x : String} (hx : m.Defines x) : m'.Defines x := by
  rw [Machine.Defines, h.globals]
  exact h.names hx

/-- If all is in place, all chains lead to the globals. -/
theorem anchored_of_ok (hok : placement.Ok m) (hhome : placement.Home m m.scope) : m.Anchored where
  scope := hok.shape.leadsHome hhome
  names hv := hok.shape.anchors (hok.names hv)
  fields hv := hok.shape.anchors (hok.fields hv)
  instances hr := hok.shape.anchors (v := .object _) hr

/-- What the two disciplines say of the end of a computation, put together. -/
theorem extends_of_ends {α : Type} {P Q : Machine → α → Prop} {out : Result Stop Machine α}
    (hhome : placement.Home m m.scope) (h : placement.Ends m P out)
    (hvalue : ∀ {m' a}, m'.Furnished → P m' a → Q m' a)
    (hsets : ∀ {r x}, (endOf out).store.field? r x ≠ m.store.field? r x → Sets host n task m r x) :
    Extends host n task m Q out where
  grown := h.follows.later
  anchored := by
    refine anchored_of_ok h.follows.ok ?_
    rw [h.follows.scope]
    exact Nat.lt_of_lt_of_le hhome h.follows.later.frames
  value hout := by
    obtain ⟨hfollows, ha⟩ := h.of_ok hout
    exact hvalue hfollows.ok.shape ha
  sets := hsets

/-- The values that a good call is made with are there. -/
theorem Task.Brings.placed {v : Value} (h : task.Brings v) (hfine : placement.TaskFine m task) :
    m.Placed v := by
  cases h with
  | callee => exact hfine.1
  | argument hv | passed hv => exact hfine.2 v hv
  | closure => exact hfine.1.elim fun _ hf => hf

/-- On every machine that a session comes to, all is in place. -/
theorem Session.Comes.ok (hhost : host.Quiet) (h : s.Reached host) (hcomes : s.Comes host m) :
    placement.Ok m ∧ placement.Home m m.scope ∧ s.machine.Grown m := by
  have G := governs_placement hhost
  cases hcomes with
  | rest => exact ⟨G.ok h, G.home_scope h (G.ok h), .refl _⟩
  | moment hmoment =>
    have hnext := G.moment h hmoment
    exact ⟨hnext.ok, hnext.home, hnext.later⟩

/-- **The heap only grows.** On every machine that a session comes to, all chains lead to the globals:
from the current frame, from the closures of variables, fields and instances, and from those that a
call is made with. Every evaluation and every execution from there, however it ends, leaves each frame
its enclosing frame and its names, each instance its class and its fields, and all chains leading to
the globals; a field holds something else only if it was set on the way, on that very instance.
Over any actions, those that fail among them, a global that is defined stays so. -/
theorem heap_only_grows (hhost : host.Quiet) (h : s.Reached host) :
    (∀ {m}, s.Comes host m → m.Anchored ∧ s.machine.Grown m ∧
      (∀ n e, Extends host n (.evaluate e) m Machine.Anchors (evaluate host n e m)) ∧
      ∀ n t, Extends host n (.execute t) m (fun m' flow => ∀ v, flow = .returned v → m'.Anchors v)
        (execute host n t m)) ∧
    (∀ {source fuel n task m v}, s.Moment host source fuel n task m → task.Brings v → m.Anchors v) ∧
    ∀ actions, s.machine.Grown (s.actAll host actions).machine ∧
      ∀ x, s.machine.Defines x → (s.actAll host actions).machine.Defines x := by
  have G := governs_placement hhost
  refine ⟨fun hcomes => ?_, fun hmoment hbrings => ?_, fun actions => ?_⟩
  · obtain ⟨hok, hhome, hgrown⟩ := hcomes.ok hhost h
    refine ⟨anchored_of_ok hok hhome, hgrown, fun n e => ?_, fun n t => ?_⟩
    · exact extends_of_ends hhome ((G.at n).evaluate ⟨hok, hhome, trivial, trivial⟩)
        (fun hm hv => hm.anchors hv) (sets_of_evaluate hhost)
    · exact extends_of_ends hhome ((G.at n).execute ⟨hok, hhome, trivial, trivial⟩)
        (fun hm hv v hflow => hm.anchors (hv v hflow)) (sets_of_execute hhost)
  · have hnext := G.moment h hmoment
    exact hnext.ok.shape.anchors (hbrings.placed hnext.values)
  · have hgrown := G.later h actions
    exact ⟨hgrown, fun x hx => Machine.Grown.defines hgrown hx⟩

end

/-- An expression that sets a field of the instance in a global. -/
def setsFieldOfGlobal : Expr :=
  .set (.var 99 ⟨.identifier, "a", .none, 1⟩) ⟨.identifier, "y", .none, 1⟩ (.constant .nil)

/-- A session in which a run has failed behind the making of an instance. -/
theorem heap_only_grows_after_fault :
    let host := Library.host fun _ => 0
    let s := ((Session.start true none).run host 30
      "class A { init() { this.x = true; } } var a = A(); missing;").2
    host.Quiet ∧ s.Reached host ∧ s.machine.Anchored ∧ s.machine.Defines "a" ∧
      (s.actAll host [.run 30 "a.x = nil; missing;", .evaluate 30 "missing"]).machine.Defines "a" ∧
      Sets host 30 (.evaluate setsFieldOfGlobal) s.machine 0 "y" := by
  intro host s
  have hquiet : host.Quiet := Library.quiet _
  have hreached : s.Reached host := .run (.start true none) 30 _
  obtain ⟨hheap, -, hglobals⟩ := heap_only_grows hquiet hreached
  obtain ⟨hanchored, -, hevaluate, -⟩ := hheap .rest
  have hdefines : s.machine.Defines "a" := by decide +kernel
  refine ⟨hquiet, hreached, hanchored, hdefines, (hglobals _).2 "a" hdefines, ?_⟩
  refine (hevaluate 30 setsFieldOfGlobal).sets fun hsame => ?_
  have hset : ((endOf (evaluate host 30 setsFieldOfGlobal s.machine)).store.field? 0 "y").isSome ≠
      (s.machine.store.field? 0 "y").isSome := by decide +kernel
  exact hset (congrArg Option.isSome hsame)

end LoxLang
