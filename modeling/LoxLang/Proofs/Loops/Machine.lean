import Mathlib
import LoxLang.Proofs.Loops.World

/-!
# Proofs/Loops/Machine — stores and machines in a world

Stores correspond in a world (`SameStore`) if their frames are the frames of that world and each
frame binds the names that its twin binds, to values that correspond. Nothing is said of the idle
frames: no name is ever declared in them, and none is looked for there. Every step of a machine that
does the same to a frame and its twin keeps this.
-/

namespace LoxLang

namespace Loops

/-! ## Stores -/

/-- The frames of a store. -/
structure Shows (F : Frames) (s : Store) : Prop where
  size : s.frames.size = F.size
  enclosing? : ∀ r, r < F.size → s.enclosing? r = F.parent r

namespace Shows

variable {F : Frames} {s : Store}

/-- Going out of a frame in the store is climbing in the world. -/
theorem up?_eq (h : Shows F s) : ∀ (n : Nat) {r : FrameRef}, r < F.size →
    s.up? n r = F.climb n r
  | 0, _, _ => rfl
  | n + 1, r, hr => by
    rw [Store.up?, Frames.climb, h.enclosing? r hr]
    cases hp : F.parent r with
    | none => rfl
    | some p => exact h.up?_eq n (F.inside hr hp)

/-- A new frame is shown as a new frame of the world. -/
theorem newFrame (h : Shows F s) (names : Std.TreeMap String Value) {p : FrameRef}
    (hp : p < F.size) : Shows (F.push p hp) (s.newFrame names (some p)).2 where
  size := by rw [Store.frames_size_newFrame, h.size]; rfl
  enclosing? r hr := by
    rw [Store.enclosing?_newFrame, h.size]
    simp only [Frames.push]
    split
    · rfl
    · next hne => exact h.enclosing? r (Nat.lt_of_le_of_ne (Nat.le_of_lt_succ hr) hne)

/-- Binding a name moves no frame. -/
theorem define (h : Shows F s) (r : FrameRef) (x : String) (v : Value) :
    Shows F (s.define r x v) where
  size := by rw [Store.frames_size_define, h.size]
  enclosing? q hq := by rw [Store.enclosing?_define, h.enclosing? q hq]

end Shows

/-- Stores that correspond. -/
structure SameStore (C : Comparison) (W : World) (s s' : Store) : Prop where
  left : Shows W.left s
  right : Shows W.right s'
  instances : s.instances.size = s'.instances.size
  local? : ∀ {r}, r < W.left.size → ∀ x,
    Option.Rel (Same C W) (s.local? r x) (s'.local? (W.twin r) x)
  classOf? : ∀ r, Option.Rel (SameClass C W) (s.classOf? r) (s'.classOf? r)
  field? : ∀ r x, Option.Rel (Same C W) (s.field? r x) (s'.field? r x)

/-- Two tables bind the same names to values that correspond. -/
abbrev SameNames (C : Comparison) (W : World) (names names' : Std.TreeMap String Value) : Prop :=
  ∀ x : String, Option.Rel (Same C W) names[x]? names'[x]?

namespace SameStore

variable {C C' : Comparison} {W W' : World} {s s' : Store}

/-! ### Reading -/

/-- A global has values that correspond, or is undefined on both sides. -/
theorem get_globals (h : SameStore C W s s') (x : String) :
    ExceptRel Eq (Same C W) (s.get W.globals x) (s'.get (W.twin W.globals) x) := by
  have hlocal := h.local? W.globals_lt x
  have hlt := W.globals_lt
  have hlt' := W.twin_lt hlt
  rw [Store.get_of_root _ (h.left.size.symm ▸ hlt) ((h.left.enclosing? _ hlt).trans W.leftRoot),
    Store.get_of_root _ (h.right.size.symm ▸ hlt') ((h.right.enclosing? _ hlt').trans W.rightRoot)]
  generalize s.local? W.globals x = o, s'.local? (W.twin W.globals) x = o' at hlocal
  cases hlocal with
  | none => exact .error rfl
  | some hv => exact .ok hv

/-- An assignment to a global writes to twins, or fails on both sides. -/
theorem locate_globals (h : SameStore C W s s') (x : String) :
    ExceptRel Eq W.Twins (s.locate W.globals x) (s'.locate (W.twin W.globals) x) := by
  have hlt := W.globals_lt
  have hlt' := W.twin_lt hlt
  rw [Store.locate_of_root _ (h.left.size.symm ▸ hlt) ((h.left.enclosing? _ hlt).trans W.leftRoot),
    Store.locate_of_root _ (h.right.size.symm ▸ hlt')
      ((h.right.enclosing? _ hlt').trans W.rightRoot),
    ← isSome_eq_of_optionRel (h.local? hlt x)]
  split
  · exact .ok ⟨hlt, rfl⟩
  · exact .error rfl

/-- One comes to a frame and to its twin, or to nothing on both sides. -/
theorem ancestor {d d' : Nat} {r q : FrameRef} (h : SameStore C W s s') (hr : r < W.left.size)
    (hq : q < W.right.size) (hclimb : W.right.climb d' q = (W.left.climb d r).map W.twin)
    (x : String) : ExceptRel Eq W.Twins (s.ancestor r d x) (s'.ancestor q d' x) := by
  rw [Store.ancestor, Store.ancestor, h.left.up?_eq d hr, h.right.up?_eq d' hq, hclimb]
  cases hup : W.left.climb d r with
  | none => exact .error rfl
  | some p => exact .ok ⟨Frames.climb_lt hr hup, rfl⟩

/-- A distance that leads to twins leads to values that correspond. -/
theorem getAt {d d' : Nat} {r q : FrameRef} (h : SameStore C W s s') (hr : r < W.left.size)
    (hq : q < W.right.size) (hclimb : W.right.climb d' q = (W.left.climb d r).map W.twin)
    (x : String) : ExceptRel Eq (Same C W) (s.getAt r d x) (s'.getAt q d' x) := by
  have hancestor := h.ancestor hr hq hclimb x
  rw [Store.getAt, Store.getAt]
  generalize s.ancestor r d x = out, s'.ancestor q d' x = out' at hancestor
  cases hancestor with
  | error hfault => exact .error hfault
  | @ok p p' hp =>
    obtain ⟨hp, rfl⟩ := hp
    have hlocal := h.local? hp x
    simp only [bind, Except.bind]
    generalize s.local? p x = o, s'.local? (W.twin p) x = o' at hlocal
    cases hlocal with
    | none => exact .error rfl
    | some hv => exact .ok hv

/-- An assignment at a distance that leads to twins writes to twins. -/
theorem locateAt {d d' : Nat} {r q : FrameRef} (h : SameStore C W s s') (hr : r < W.left.size)
    (hq : q < W.right.size) (hclimb : W.right.climb d' q = (W.left.climb d r).map W.twin)
    (x : String) : ExceptRel Eq W.Twins (s.locateAt r d x) (s'.locateAt q d' x) := by
  have hancestor := h.ancestor hr hq hclimb x
  rw [Store.locateAt, Store.locateAt]
  generalize s.ancestor r d x = out, s'.ancestor q d' x = out' at hancestor
  cases hancestor with
  | error hfault => exact .error hfault
  | @ok p p' hp =>
    obtain ⟨hp, rfl⟩ := hp
    simp only [bind, Except.bind, ← isSome_eq_of_optionRel (h.local? hp x)]
    split
    · exact .ok ⟨hp, rfl⟩
    · exact .error rfl

theorem method? (h : SameStore C W s s') (r : InstanceRef) (x : String) :
    Option.Rel (SameMethod C W) (s.method? r x) (s'.method? r x) :=
  Store.method?_paired h.classOf? r x

theorem text_eq (h : SameStore C W s s') {v v' : Value} (hv : Same C W v v') :
    v.text s = v'.text s' :=
  hv.text_eq h.classOf? SameFunction.name_eq

/-! ### Writing -/

/-- In a later world whose frames the stores show, all that was there still corresponds. -/
theorem mono (hC : C.Later C') (hW : W.Grows W') (hleft : W'.left.size = W.left.size)
    (left : Shows W'.left s) (right : Shows W'.right s') (h : SameStore C W s s') :
    SameStore C' W' s s' where
  left := left
  right := right
  instances := h.instances
  local? {r} hr x := by
    rw [hW.twin r (hleft ▸ hr)]
    exact optionRel_mono (Same.mono hC hW) (h.local? (hleft ▸ hr) x)
  classOf? r := optionRel_mono (SameClass.mono hC hW) (h.classOf? r)
  field? r x := optionRel_mono (Same.mono hC hW) (h.field? r x)

theorem later (hC : C.Later C') (h : SameStore C W s s') : SameStore C' W s s' :=
  h.mono hC (.refl W) rfl h.left h.right

theorem enter {r q : FrameRef} (h : SameStore C W s s') (hr : r < W.left.size)
    (hq : q < W.right.size) : SameStore C (W.enter r q hr hq) s s' :=
  h.mono (.refl C) (World.grows_enter hr hq) rfl h.left h.right

/-- A new frame on both sides. -/
theorem newFrame {p q : FrameRef} (h : SameStore C W s s') (hp : p < W.left.size)
    (hq : q < W.right.size) {names names' : Std.TreeMap String Value}
    (hnames : SameNames C W names names') :
    SameStore C (W.push p q hp hq) (s.newFrame names (some p)).2
      (s'.newFrame names' (some q)).2 := by
  have hgrows := (World.extends_push hp hq).toGrows
  refine { left := h.left.newFrame names hp, right := h.right.newFrame names' hq
           instances := h.instances
           local? := fun {r} hr x => ?_
           classOf? := fun r => optionRel_mono (.mono (.refl C) hgrows) (h.classOf? r)
           field? := fun r x => optionRel_mono (.mono (.refl C) hgrows) (h.field? r x) }
  rw [Store.local?_newFrame, Store.local?_newFrame, h.left.size, h.right.size]
  by_cases hnew : r = W.left.size
  · have htwin : (W.push p q hp hq).twin r = W.right.size := if_pos hnew
    rw [if_pos hnew, if_pos htwin]
    exact optionRel_mono (.mono (.refl C) hgrows) (hnames x)
  · have hlt : r < W.left.size := Nat.lt_of_le_of_ne (Nat.le_of_lt_succ hr) hnew
    rw [if_neg hnew, hgrows.twin r hlt, if_neg (Nat.ne_of_lt (W.twin_lt hlt))]
    exact optionRel_mono (.mono (.refl C) hgrows) (h.local? hlt x)

/-- A new idle frame. -/
theorem newIdleFrame {q : FrameRef} (h : SameStore C W s s') (hq : q < W.right.size)
    (names : Std.TreeMap String Value) :
    SameStore C (W.pushIdle q hq) s (s'.newFrame names (some q)).2 := by
  have hgrows := (World.extends_pushIdle hq).toGrows
  refine { left := h.left, right := h.right.newFrame names hq
           instances := h.instances
           local? := fun {r} hr x => ?_
           classOf? := fun r => optionRel_mono (.mono (.refl C) hgrows) (h.classOf? r)
           field? := fun r x => optionRel_mono (.mono (.refl C) hgrows) (h.field? r x) }
  have hlt : W.twin r < W.right.size := W.twin_lt hr
  rw [hgrows.twin r hr, Store.local?_newFrame, h.right.size, if_neg (Nat.ne_of_lt hlt)]
  exact optionRel_mono (.mono (.refl C) hgrows) (h.local? hr x)

/-- A name is bound in a frame and in its twin. -/
theorem define {r : FrameRef} (h : SameStore C W s s') (hr : r < W.left.size) (x : String)
    {v v' : Value} (hv : Same C W v v') :
    SameStore C W (s.define r x v) (s'.define (W.twin r) x v') := by
  refine { left := h.left.define r x v, right := h.right.define (W.twin r) x v'
           instances := h.instances
           local? := fun {q} hq y => ?_
           classOf? := h.classOf?
           field? := h.field? }
  rw [Store.local?_define, Store.local?_define, h.left.size, h.right.size]
  by_cases hplace : r = q ∧ x = y
  · obtain ⟨rfl, rfl⟩ := hplace
    rw [if_pos ⟨rfl, rfl, hr⟩, if_pos ⟨rfl, rfl, W.twin_lt hr⟩]
    exact .some hv
  · rw [if_neg fun hplace' => hplace ⟨hplace'.1, hplace'.2.1⟩,
      if_neg fun hplace' => hplace ⟨W.twin_inj hr hq hplace'.1, hplace'.2.1⟩]
    exact h.local? hq y

/-- Stores correspond with a new instance in both. -/
theorem newInstance (h : SameStore C W s s') {c c' : Class} (hc : SameClass C W c c') :
    SameStore C W (s.newInstance c).2 (s'.newInstance c').2 where
  left := ⟨h.left.size, h.left.enclosing?⟩
  right := ⟨h.right.size, h.right.enclosing?⟩
  instances := by simp [Store.newInstance, h.instances]
  local? := h.local?
  classOf? r := by
    rw [Store.classOf?_newInstance, Store.classOf?_newInstance, h.instances]
    split
    · exact .some hc
    · exact h.classOf? r
  field? r x := by
    rw [Store.field?_newInstance, Store.field?_newInstance, h.instances]
    split
    · exact .none
    · exact h.field? r x

/-- Stores correspond with a field set in both. -/
theorem setField (h : SameStore C W s s') (i : InstanceRef) (x : String) {v v' : Value}
    (hv : Same C W v v') : SameStore C W (s.setField i x v) (s'.setField i x v') where
  left := ⟨h.left.size, h.left.enclosing?⟩
  right := ⟨h.right.size, h.right.enclosing?⟩
  instances := by simp [Store.setField, h.instances]
  local? := h.local?
  classOf? r := by
    rw [Store.classOf?_setField, Store.classOf?_setField]
    exact h.classOf? r
  field? r y := by
    rw [Store.field?_setField, Store.field?_setField, h.instances]
    split
    · exact .some hv
    · exact h.field? r y

end SameStore

/-! ## Machines -/

/-- **Machines that correspond in a world.** -/
structure Related (C : Comparison) (W : World) (m m' : Machine) : Prop where
  store : SameStore C W m.store m'.store
  leftGlobals : m.globals = W.globals
  rightGlobals : m'.globals = W.twin W.globals
  leftScope : m.scope = W.leftScope
  rightScope : m'.scope = W.rightScope
  sink : m.sink = m'.sink
  nextObject : m.nextObject = m'.nextObject
  clockReads : m.clockReads = m'.clockReads
  left : m.distances = C.left
  right : m'.distances = C.right
  leftLimit : C.leftLimit ≤ m.nextId
  rightLimit : C.rightLimit ≤ m'.nextId

namespace Related

variable {C : Comparison} {W : World} {m m' : Machine}

/-- Both machines enter linked frames. -/
theorem enter {r q : FrameRef} (h : Related C W m m') (hr : r < W.left.size)
    (hq : q < W.right.size) :
    Related C (W.enter r q hr hq) { m with scope := r } { m' with scope := q } :=
  { h with store := h.store.enter hr hq, leftScope := rfl, rightScope := rfl }

/-- The first machine stays in its frame. -/
theorem enterRight {q : FrameRef} (h : Related C W m m') (hq : q < W.right.size) :
    Related C (W.enter W.leftScope q W.leftScope_lt hq) m { m' with scope := q } :=
  { h with store := h.store.enter W.leftScope_lt hq, rightScope := rfl }

/-- The frames from before are current again. -/
theorem leave {W' : World} {r q : FrameRef} {hr : r < W.left.size} {hq : q < W.right.size}
    (hW : (W.enter r q hr hq).Extends W') (h : Related C W' m m') :
    ∃ W'', W.Extends W'' ∧ W'.Grows W'' ∧
      Related C W'' { m with scope := W.leftScope } { m' with scope := W.rightScope } :=
  have hleft := Nat.lt_of_lt_of_le W.leftScope_lt hW.left.size
  have hright := Nat.lt_of_lt_of_le W.rightScope_lt hW.right.size
  ⟨W'.enter W.leftScope W.rightScope hleft hright,
    ⟨⟨hW.left, hW.right, hW.twin, hW.globals⟩, rfl, rfl⟩, World.grows_enter hleft hright,
    h.enter hleft hright⟩

/-- The first machine was in the same frame all along. -/
theorem leaveRight {W' : World} {q : FrameRef} {hr : W.leftScope < W.left.size}
    {hq : q < W.right.size} (hW : (W.enter W.leftScope q hr hq).Extends W')
    (h : Related C W' m m') :
    ∃ W'', W.Extends W'' ∧ W'.Grows W'' ∧ Related C W'' m { m' with scope := W.rightScope } := by
  have hscope : m.scope = W.leftScope := h.leftScope.trans hW.leftScope
  have hleave := h.leave hW
  rwa [← hscope] at hleave

/-- Taking ids changes nothing that is compared. -/
theorem takeIds (h : Related C W m m') {nextId nextId' : NodeId} (hle : m.nextId ≤ nextId)
    (hle' : m'.nextId ≤ nextId') :
    Related C W { m with nextId } { m' with nextId := nextId' } :=
  { h with
    leftLimit := Nat.le_trans h.leftLimit hle
    rightLimit := Nat.le_trans h.rightLimit hle' }

/-- Machines correspond when a function of the host is defined in both. -/
theorem defineHost (h : Related C W m m') (name : String) (arity : Nat) (entry : String) :
    Related C W (m.defineHost name arity entry) (m'.defineHost name arity entry) := by
  unfold Machine.defineHost
  rw [h.rightGlobals, h.nextObject]
  exact { h with
    store := h.leftGlobals ▸ h.store.define (h.leftGlobals ▸ W.globals_lt) name (.host _ _)
    rightGlobals := rfl
    nextObject := rfl }

end Related

end Loops

end LoxLang
