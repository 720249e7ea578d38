import Mathlib
import LoxLang.Proofs.Alike.Scopes

/-!
# Proofs/Alike/Machine — machines that differ in node ids, lines and the table of distances

Two machines are alike if the values that they hold are, at the same places in their stores, and
everything else that a program can see is the same. Closures are alike if their routines are; a use
of a name stands for one that has the same distance in the table of its own machine. A `Pairing`
holds the two tables. The ids in closures were given out before the tables were made, so they stand
for each other in later tables as well (`Pairing.Kept`).
-/

namespace LoxLang

/-- Two tables of distances, the ids given out when they were made, and the lines that may stand for
each other. -/
structure Pairing where
  left : Std.TreeMap NodeId Nat
  right : Std.TreeMap NodeId Nat
  leftLimit : NodeId
  rightLimit : NodeId
  lines : Lines
  lines_refl : ∀ l, lines l l
  left_fresh : ∀ id, leftLimit ≤ id → left[id]? = none
  right_fresh : ∀ id, rightLimit ≤ id → right[id]? = none

namespace Pairing

variable (P : Pairing)

/-- Ids with the same distance. -/
def SameUse : Ids := fun i j =>
  P.left[i]? = P.right[j]?

/-- Ids that were given out, with the same distance. -/
def Kept : Ids := fun i j =>
  i < P.leftLimit ∧ j < P.rightLimit ∧ P.left[i]? = P.right[j]?

/-- A later pairing: nothing has changed for the ids that were given out before. -/
structure Grows (P Q : Pairing) : Prop where
  lines : ∀ {l l'}, P.lines l l' → Q.lines l l'
  leftLimit : P.leftLimit ≤ Q.leftLimit
  rightLimit : P.rightLimit ≤ Q.rightLimit
  left : ∀ id, id < P.leftLimit → Q.left[id]? = P.left[id]?
  right : ∀ id, id < P.rightLimit → Q.right[id]? = P.right[id]?

variable {P} {Q : Pairing} {i j : NodeId}

theorem Kept.sameUse (h : P.Kept i j) : P.SameUse i j := h.2.2

/-- A later pairing has nothing else to say of ids that were given out. -/
theorem Grows.kept (hPQ : P.Grows Q) (h : P.Kept i j) : Q.Kept i j := by
  obtain ⟨hi, hj, hsame⟩ := h
  refine ⟨Nat.lt_of_lt_of_le hi hPQ.leftLimit, Nat.lt_of_lt_of_le hj hPQ.rightLimit, ?_⟩
  rw [hPQ.left i hi, hPQ.right j hj, hsame]

end Pairing

/-! ## Values -/

/-- Closures with routines that are alike. -/
structure Closure.Alike (P : Pairing) (f f' : Closure) : Prop where
  routine : f.routine.Alike P.lines P.Kept f'.routine
  scope : f.scope = f'.scope
  isInitializer : f.isInitializer = f'.isInitializer

/-- Classes with methods that are alike. -/
abbrev Class.Alike (P : Pairing) : Class → Class → Prop :=
  Class.Paired (Closure.Alike P)

/-- Values that differ at most in the routines of closures. -/
abbrev Value.Alike (P : Pairing) : Value → Value → Prop :=
  Value.Paired (Closure.Alike P) (Closure.Alike P)

section

variable {P Q : Pairing}

/-- Closures stay alike under a later pairing: their names got their ids before. -/
theorem Closure.Alike.mono (hPQ : P.Grows Q) {f f' : Closure} (h : f.Alike P f') : f.Alike Q f' :=
  ⟨h.routine.mono hPQ.lines hPQ.kept, h.scope, h.isInitializer⟩

theorem Closure.Alike.arity_eq {f f' : Closure} (h : f.Alike P f') : f.arity = f'.arity :=
  h.routine.parameters.length_eq

theorem Closure.Alike.name_eq {f f' : Closure} (h : f.Alike P f') : f.name = f'.name :=
  h.routine.name.lexeme

theorem Class.Alike.mono (hPQ : P.Grows Q) {c c' : Class} (h : c.Alike P c') : c.Alike Q c' :=
  h.imp (Closure.Alike.mono hPQ)

theorem Value.Alike.mono (hPQ : P.Grows Q) {v v' : Value} (h : v.Alike P v') : v.Alike Q v' :=
  h.imp (Closure.Alike.mono hPQ) (Closure.Alike.mono hPQ)

end

/-! ## Stores -/

/-- Stores that hold values that are alike at the same places. -/
structure Store.Alike (P : Pairing) (s s' : Store) : Prop where
  frames : s.frames.size = s'.frames.size
  instances : s.instances.size = s'.instances.size
  enclosing? : ∀ r, s.enclosing? r = s'.enclosing? r
  local? : ∀ r x, Option.Rel (Value.Alike P) (s.local? r x) (s'.local? r x)
  classOf? : ∀ r, Option.Rel (Class.Alike P) (s.classOf? r) (s'.classOf? r)
  field? : ∀ r x, Option.Rel (Value.Alike P) (s.field? r x) (s'.field? r x)

namespace Store

namespace Alike

variable {P Q : Pairing} {s s' : Store}

/-- Stores stay alike under a later pairing. -/
theorem mono (hPQ : P.Grows Q) (h : s.Alike P s') : s.Alike Q s' where
  frames := h.frames
  instances := h.instances
  enclosing? := h.enclosing?
  local? r x := optionRel_mono (Value.Alike.mono hPQ) (h.local? r x)
  classOf? r := optionRel_mono (Class.Alike.mono hPQ) (h.classOf? r)
  field? r x := optionRel_mono (Value.Alike.mono hPQ) (h.field? r x)

/-! ### Reading -/

/-- A name is found in the same frame on both sides, since the frames bind the same names and lead
to the same ones. -/
theorem holderWithin_eq (h : s.Alike P s') (x : String) : ∀ (n : Nat) (r : FrameRef),
    s.holderWithin x n r = s'.holderWithin x n r
  | 0, _ => rfl
  | n + 1, r => by
    simp only [holderWithin, isSome_eq_of_optionRel (h.local? r x), h.enclosing? r,
      funext (h.holderWithin_eq x n)]

/-- An assignment without a distance writes to the same frame on both sides. -/
theorem locate_eq (h : s.Alike P s') (r : FrameRef) (x : String) :
    s.locate r x = s'.locate r x := by
  simp only [locate, holder?, h.frames, h.holderWithin_eq]

/-- Reading a name gives values that are alike, or fails on both sides. -/
theorem get (h : s.Alike P s') (r : FrameRef) (x : String) :
    ExceptRel Eq (Value.Alike P) (s.get r x) (s'.get r x) := by
  have hfound : Option.Rel (Value.Alike P) ((s.holder? r x).bind (s.local? · x))
      ((s'.holder? r x).bind (s'.local? · x)) := by
    simp only [holder?, h.frames, h.holderWithin_eq]
    cases s'.holderWithin x s'.frames.size r with
    | none => exact .none
    | some holder => exact h.local? holder x
  unfold Store.get
  generalize (s.holder? r x).bind (s.local? · x) = o,
    (s'.holder? r x).bind (s'.local? · x) = o' at hfound
  cases hfound with
  | none => exact .error rfl
  | some hv => exact .ok hv

/-- Going out of a frame leads to the same frame on both sides. -/
theorem up?_eq (h : s.Alike P s') : ∀ (n : Nat) (r : FrameRef), s.up? n r = s'.up? n r
  | 0, _ => rfl
  | n + 1, r => by simp only [up?, h.enclosing? r, funext (h.up?_eq n)]

/-- A recorded distance leads to the same frame on both sides. -/
theorem ancestor_eq (h : s.Alike P s') (r : FrameRef) (n : Nat) (x : String) :
    s.ancestor r n x = s'.ancestor r n x := by
  simp only [ancestor, h.up?_eq]

/-- An assignment with a distance writes to the same frame on both sides. -/
theorem locateAt_eq (h : s.Alike P s') (r : FrameRef) (n : Nat) (x : String) :
    s.locateAt r n x = s'.locateAt r n x := by
  simp only [locateAt, h.ancestor_eq, isSome_eq_of_optionRel (h.local? _ x)]

/-- Reading a name at a distance gives values that are alike, or fails on both sides. -/
theorem getAt (h : s.Alike P s') (r : FrameRef) (n : Nat) (x : String) :
    ExceptRel Eq (Value.Alike P) (s.getAt r n x) (s'.getAt r n x) := by
  simp only [Store.getAt, h.ancestor_eq]
  cases s'.ancestor r n x with
  | error fault => exact .error rfl
  | ok holder =>
    have hlocal := h.local? holder x
    simp only [bind, Except.bind]
    generalize s.local? holder x = o, s'.local? holder x = o' at hlocal
    cases hlocal with
    | none => exact .error rfl
    | some hv => exact .ok hv

theorem method? (h : s.Alike P s') (r : InstanceRef) (x : String) :
    Option.Rel (Closure.Alike P) (s.method? r x) (s'.method? r x) :=
  method?_paired h.classOf? r x

/-- Values that are alike are printed alike. -/
theorem text_eq (h : s.Alike P s') {v v' : Value} (hv : v.Alike P v') : v.text s = v'.text s' :=
  hv.text_eq h.classOf? Closure.Alike.name_eq

/-- Objects that are alike look alike to someone who inspects the program. -/
theorem inspection?_eq (h : s.Alike P s') {v v' : Value} (hv : v.Alike P v') :
    v.inspection? s = v'.inspection? s' :=
  hv.inspection?_eq h.classOf? Closure.Alike.name_eq

/-! ### Writing -/

/-- Tables that bind the same names to values that are alike. -/
abbrev NamesAlike (P : Pairing) (names names' : Std.TreeMap String Value) : Prop :=
  ∀ x : String, Option.Rel (Value.Alike P) names[x]? names'[x]?

/-- Stores stay alike when both get a frame. -/
theorem newFrame (h : s.Alike P s') {names names' : Std.TreeMap String Value}
    (hnames : NamesAlike P names names') (e : Option FrameRef) :
    (s.newFrame names e).2.Alike P (s'.newFrame names' e).2 where
  frames := by simp [h.frames]
  instances := h.instances
  enclosing? r := by rw [enclosing?_newFrame, enclosing?_newFrame, h.frames, h.enclosing? r]
  local? r x := by
    rw [local?_newFrame, local?_newFrame, h.frames]
    split
    · exact hnames x
    · exact h.local? r x
  classOf? := h.classOf?
  field? := h.field?

/-- Stores stay alike when a name is bound on both sides. -/
theorem define (h : s.Alike P s') (r : FrameRef) (x : String) {v v' : Value}
    (hv : v.Alike P v') : (s.define r x v).Alike P (s'.define r x v') where
  frames := by simp [h.frames]
  instances := h.instances
  enclosing? r' := by rw [enclosing?_define, enclosing?_define, h.enclosing? r']
  local? r' x' := by
    rw [local?_define, local?_define, h.frames]
    split
    · exact .some hv
    · exact h.local? r' x'
  classOf? := h.classOf?
  field? := h.field?

/-- Stores stay alike when both get an instance. -/
theorem newInstance (h : s.Alike P s') {c c' : Class} (hc : c.Alike P c') :
    (s.newInstance c).2.Alike P (s'.newInstance c').2 where
  frames := h.frames
  instances := by simp [Store.newInstance, h.instances]
  enclosing? := h.enclosing?
  local? := h.local?
  classOf? r := by
    rw [classOf?_newInstance, classOf?_newInstance, h.instances]
    split
    · exact .some hc
    · exact h.classOf? r
  field? r x := by
    rw [field?_newInstance, field?_newInstance, h.instances]
    split
    · exact .none
    · exact h.field? r x

/-- Stores stay alike when a field is set on both sides. -/
theorem setField (h : s.Alike P s') (i : InstanceRef) (x : String) {v v' : Value}
    (hv : v.Alike P v') : (s.setField i x v).Alike P (s'.setField i x v') where
  frames := h.frames
  instances := by simp [Store.setField, h.instances]
  enclosing? := h.enclosing?
  local? := h.local?
  classOf? r := by
    rw [classOf?_setField, classOf?_setField]
    exact h.classOf? r
  field? r x' := by
    rw [field?_setField, field?_setField, h.instances]
    split
    · exact .some hv
    · exact h.field? r x'

end Alike

end Store

/-! ## Machines -/

/-- **Machines that are alike.** -/
structure Machine.Alike (P : Pairing) (m m' : Machine) : Prop where
  store : m.store.Alike P m'.store
  globals : m.globals = m'.globals
  scope : m.scope = m'.scope
  sink : m.sink = m'.sink
  nextObject : m.nextObject = m'.nextObject
  clockReads : m.clockReads = m'.clockReads
  left : m.distances = P.left
  right : m'.distances = P.right
  leftLimit : P.leftLimit ≤ m.nextId
  rightLimit : P.rightLimit ≤ m'.nextId

/-- Reasons to stop that differ at most in lines. -/
inductive Stop.Alike (lines : Lines) : Stop → Stop → Prop
  | fault {d d' : Diagnostic} (h : d.Alike lines d') : Alike lines (.fault d) (.fault d')
  | outOfFuel : Alike lines .outOfFuel .outOfFuel

/-- Computations that do the same on machines that are alike. -/
abbrev Eval.Alike {α β : Type} (P : Pairing) (values : α → β → Prop) (x : Eval α) (y : Eval β) :
    Prop :=
  Likewise (Stop.Alike P.lines) (Machine.Alike P) values x y

/-- Ends of statements that are alike. -/
abbrev Flow.Alike (P : Pairing) : Flow → Flow → Prop :=
  Flow.Paired (Value.Alike P)

/-- Node ids may be taken on either side. -/
theorem Machine.Alike.takeIds {P : Pairing} {m m' : Machine} (h : m.Alike P m')
    {nextId nextId' : NodeId} (hle : m.nextId ≤ nextId) (hle' : m'.nextId ≤ nextId') :
    Machine.Alike P { m with nextId } { m' with nextId := nextId' } :=
  { h with
    leftLimit := Nat.le_trans h.leftLimit hle
    rightLimit := Nat.le_trans h.rightLimit hle' }

end LoxLang
