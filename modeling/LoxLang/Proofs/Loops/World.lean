import Mathlib
import LoxLang.Proofs.Loops.Scopes
import LoxLang.Proofs.Run.Keeping

/-!
# Proofs/Loops/World — frames against frames with idle ones among them

A machine that runs a program with `while` in place of `for` makes a frame in each round of such a
loop that the other machine does not make. So the frames of the two machines have other places. A
`World` says which frame of the second machine stands for each of the first, its *twin*. Two frames
are `Linked` if one comes from the first to the frame `d` further out just as one comes from the
second to the twin of that, with the idle frames counted in.

In a world the values of the machines correspond (`Same`): closures have related routines in linked
frames, and everything else is the same. Machines correspond (`Related`) if their bindings do.
-/

namespace LoxLang.Loops

/-! ## Frames -/

/-- How many frames there are, and which one is around each. -/
structure Frames where
  size : Nat
  parent : FrameRef → Option FrameRef
  inside : ∀ {r p}, r < size → parent r = some p → p < size

namespace Frames

/-- The frame `d` steps out of `r`. -/
def climb (F : Frames) : Nat → FrameRef → Option FrameRef
  | 0, r => some r
  | d + 1, r => (F.parent r).bind (F.climb d)

/-- One more frame, inside of `p`. -/
def push (F : Frames) (p : FrameRef) (hp : p < F.size) : Frames where
  size := F.size + 1
  parent r := if r = F.size then some p else F.parent r
  inside {r q} hr hq := by
    split at hq
    · cases hq
      exact Nat.lt_succ_of_lt hp
    · next hne =>
      exact Nat.lt_succ_of_lt (F.inside (Nat.lt_of_le_of_ne (Nat.le_of_lt_succ hr) hne) hq)

/-- Frames are only added. -/
structure Grows (F F' : Frames) : Prop where
  size : F.size ≤ F'.size
  parent : ∀ r, r < F.size → F'.parent r = F.parent r

variable {F F' F'' : Frames}

theorem Grows.refl (F : Frames) : F.Grows F := ⟨Nat.le_refl _, fun _ _ => rfl⟩

theorem Grows.trans (h : F.Grows F') (h' : F'.Grows F'') : F.Grows F'' :=
  ⟨Nat.le_trans h.size h'.size,
    fun r hr => (h'.parent r (Nat.lt_of_lt_of_le hr h.size)).trans (h.parent r hr)⟩

theorem grows_push {p : FrameRef} (hp : p < F.size) : F.Grows (F.push p hp) :=
  ⟨Nat.le_succ _, fun _ hr => if_neg (Nat.ne_of_lt hr)⟩

theorem parent_push {p : FrameRef} (hp : p < F.size) : (F.push p hp).parent F.size = some p :=
  if_pos rfl

/-- From a frame one comes to frames only. -/
theorem climb_lt : ∀ {d : Nat} {r q : FrameRef}, r < F.size → F.climb d r = some q → q < F.size
  | 0, _, _, hr, h => Option.some.inj h ▸ hr
  | _ + 1, _, _, hr, h => by
    obtain ⟨p, hp, hq⟩ := Option.bind_eq_some_iff.mp h
    exact climb_lt (F.inside hr hp) hq

/-- New frames are not around old ones, so one comes to the same frames as before. -/
theorem Grows.climb (h : F.Grows F') : ∀ (d : Nat) {r : FrameRef}, r < F.size →
    F'.climb d r = F.climb d r
  | 0, _, _ => rfl
  | d + 1, r, hr => by
    rw [Frames.climb, Frames.climb, h.parent r hr]
    cases hp : F.parent r with
    | none => rfl
    | some p => exact h.climb d (F.inside hr hp)

end Frames

/-! ## Worlds -/

/-- The frames of two machines, and how those of the first correspond to those of the second. -/
structure World where
  left : Frames
  right : Frames
  /-- The frame of the second machine that stands for one of the first. -/
  twin : FrameRef → FrameRef
  globals : FrameRef
  /-- The current frames. -/
  leftScope : FrameRef
  rightScope : FrameRef
  twin_lt : ∀ {r}, r < left.size → twin r < right.size
  twin_inj : ∀ {r q}, r < left.size → q < left.size → twin r = twin q → r = q
  globals_lt : globals < left.size
  leftRoot : left.parent globals = none
  rightRoot : right.parent (twin globals) = none
  leftScope_lt : leftScope < left.size
  rightScope_lt : rightScope < right.size

namespace World

/-- The later world has more frames. -/
structure Grows (W W' : World) : Prop where
  left : W.left.Grows W'.left
  right : W.right.Grows W'.right
  twin : ∀ r, r < W.left.size → W'.twin r = W.twin r
  globals : W'.globals = W.globals

/-- The later world has the same current frames. -/
structure Extends (W W' : World) : Prop extends Grows W W' where
  leftScope : W'.leftScope = W.leftScope
  rightScope : W'.rightScope = W.rightScope

variable {W W' W'' : World}

theorem Grows.refl (W : World) : W.Grows W := ⟨.refl _, .refl _, fun _ _ => rfl, rfl⟩

theorem Grows.trans (h : W.Grows W') (h' : W'.Grows W'') : W.Grows W'' where
  left := h.left.trans h'.left
  right := h.right.trans h'.right
  twin r hr := (h'.twin r (Nat.lt_of_lt_of_le hr h.left.size)).trans (h.twin r hr)
  globals := h'.globals.trans h.globals

theorem Extends.refl (W : World) : W.Extends W := ⟨.refl W, rfl, rfl⟩

theorem Extends.trans (h : W.Extends W') (h' : W'.Extends W'') : W.Extends W'' :=
  ⟨h.toGrows.trans h'.toGrows, h'.leftScope.trans h.leftScope, h'.rightScope.trans h.rightScope⟩

/-- Frames keep their twins. -/
theorem Grows.map_twin (h : W.Grows W') {o : Option FrameRef} (ho : ∀ r ∈ o, r < W.left.size) :
    o.map W'.twin = o.map W.twin := by
  cases o with
  | none => rfl
  | some r => exact congrArg some (h.twin r (ho r rfl))

/-! ### Steps of a world -/

/-- One more frame on both sides. -/
def push (W : World) (p q : FrameRef) (hp : p < W.left.size) (hq : q < W.right.size) : World where
  left := W.left.push p hp
  right := W.right.push q hq
  twin r := if r = W.left.size then W.right.size else W.twin r
  globals := W.globals
  leftScope := W.leftScope
  rightScope := W.rightScope
  twin_lt {r} hr := by
    split
    · exact Nat.lt_succ_self _
    · exact Nat.lt_succ_of_lt (W.twin_lt (Nat.lt_of_le_of_ne (Nat.le_of_lt_succ hr) ‹_›))
  twin_inj {r s} hr hs h := by
    have hlt : ∀ {r}, r < W.left.size + 1 → r ≠ W.left.size → W.twin r < W.right.size :=
      fun hr hne => W.twin_lt (Nat.lt_of_le_of_ne (Nat.le_of_lt_succ hr) hne)
    split at h <;> split at h
    · next hr hs => exact hr.trans hs.symm
    · next hne => exact absurd (h ▸ hlt hs hne) (Nat.lt_irrefl _)
    · next hne _ => exact absurd (h ▸ hlt hr hne) (Nat.lt_irrefl _)
    · next hne hne' =>
      exact W.twin_inj (Nat.lt_of_le_of_ne (Nat.le_of_lt_succ hr) hne)
        (Nat.lt_of_le_of_ne (Nat.le_of_lt_succ hs) hne') h
  globals_lt := Nat.lt_succ_of_lt W.globals_lt
  leftRoot := (if_neg (Nat.ne_of_lt W.globals_lt)).trans W.leftRoot
  rightRoot := by
    rw [if_neg (Nat.ne_of_lt W.globals_lt)]
    exact (if_neg (Nat.ne_of_lt (W.twin_lt W.globals_lt))).trans W.rightRoot
  leftScope_lt := Nat.lt_succ_of_lt W.leftScope_lt
  rightScope_lt := Nat.lt_succ_of_lt W.rightScope_lt

/-- One more frame on the right, which stands for none on the left. -/
def pushIdle (W : World) (q : FrameRef) (hq : q < W.right.size) : World where
  left := W.left
  right := W.right.push q hq
  twin := W.twin
  globals := W.globals
  leftScope := W.leftScope
  rightScope := W.rightScope
  twin_lt hr := Nat.lt_succ_of_lt (W.twin_lt hr)
  twin_inj := W.twin_inj
  globals_lt := W.globals_lt
  leftRoot := W.leftRoot
  rightRoot := (if_neg (Nat.ne_of_lt (W.twin_lt W.globals_lt))).trans W.rightRoot
  leftScope_lt := W.leftScope_lt
  rightScope_lt := Nat.lt_succ_of_lt W.rightScope_lt

/-- Other frames are the current ones. -/
def enter (W : World) (r q : FrameRef) (hr : r < W.left.size) (hq : q < W.right.size) : World :=
  { W with leftScope := r, rightScope := q, leftScope_lt := hr, rightScope_lt := hq }

/-- Two new frames become twins, and no other frame changes its twin. -/
theorem extends_push {p q : FrameRef} (hp : p < W.left.size) (hq : q < W.right.size) :
    W.Extends (W.push p q hp hq) where
  left := Frames.grows_push hp
  right := Frames.grows_push hq
  twin _ hr := if_neg (Nat.ne_of_lt hr)
  globals := rfl
  leftScope := rfl
  rightScope := rfl

/-- A frame that only the second machine makes is nobody's twin. -/
theorem extends_pushIdle {q : FrameRef} (hq : q < W.right.size) :
    W.Extends (W.pushIdle q hq) where
  left := .refl _
  right := Frames.grows_push hq
  twin _ _ := rfl
  globals := rfl
  leftScope := rfl
  rightScope := rfl

theorem grows_enter {r q : FrameRef} (hr : r < W.left.size) (hq : q < W.right.size) :
    W.Grows (W.enter r q hr hq) :=
  ⟨.refl _, .refl _, fun _ _ => rfl, rfl⟩

/-! ### Linked frames -/

/-- A frame and its twin. -/
def Twins (W : World) (r q : FrameRef) : Prop :=
  r < W.left.size ∧ W.twin r = q

/-- From `q` one comes to the twins of the frames to which one comes from `r`, past the idle frames
that the mask tells of. -/
structure Linked (W : World) (mask : Mask) (r q : FrameRef) : Prop where
  left_lt : r < W.left.size
  right_lt : q < W.right.size
  climb : ∀ d, W.right.climb (mask.shift d) q = (W.left.climb d r).map W.twin

namespace Linked

variable {mask : Mask} {r q : FrameRef}

/-- Frames stay linked while frames are added. -/
theorem mono (hW : W.Grows W') (h : W.Linked mask r q) : W'.Linked mask r q where
  left_lt := Nat.lt_of_lt_of_le h.left_lt hW.left.size
  right_lt := Nat.lt_of_lt_of_le h.right_lt hW.right.size
  climb d := by
    rw [hW.right.climb _ h.right_lt, hW.left.climb _ h.left_lt, h.climb d,
      hW.map_twin fun p hp => Frames.climb_lt h.left_lt hp]

/-- The innermost scope is not idle. -/
theorem twins (h : W.Linked mask r q) (hmask : mask.shift 0 = 0) : W.Twins r q := by
  have hclimb := h.climb 0
  rw [hmask] at hclimb
  exact ⟨h.left_lt, (Option.some.inj hclimb).symm⟩

/-- New frames inside of linked ones. -/
theorem push (h : W.Linked mask r q) :
    (W.push r q h.left_lt h.right_lt).Linked (true :: mask) W.left.size W.right.size where
  left_lt := Nat.lt_succ_self _
  right_lt := Nat.lt_succ_self _
  climb d := by
    have hlater := h.mono (extends_push h.left_lt h.right_lt).toGrows
    cases d with
    | zero => exact congrArg some (if_pos rfl).symm
    | succ d =>
      rw [Mask.shift_true_succ, Frames.climb, Frames.climb]
      simp only [World.push, Frames.parent_push, Option.bind_some]
      exact hlater.climb d

/-- A new idle frame. -/
theorem pushIdle (h : W.Linked mask r q) :
    (W.pushIdle q h.right_lt).Linked (false :: mask) r W.right.size where
  left_lt := h.left_lt
  right_lt := Nat.lt_succ_self _
  climb d := by
    have hlater := h.mono (extends_pushIdle h.right_lt).toGrows
    rw [Mask.shift_false, Frames.climb]
    simp only [World.pushIdle, Frames.parent_push, Option.bind_some]
    exact hlater.climb d

end Linked

/-- The current frames are linked. -/
abbrev Stands (W : World) (mask : Mask) : Prop :=
  W.Linked mask W.leftScope W.rightScope

theorem Stands.mono {mask : Mask} (hW : W.Extends W') (h : W.Stands mask) : W'.Stands mask := by
  rw [Stands, hW.leftScope, hW.rightScope]
  exact Linked.mono hW.toGrows h

/-- The frames of the globals are linked, since nothing is around them. -/
theorem linked_globals (W : World) : W.Linked [] W.globals (W.twin W.globals) where
  left_lt := W.globals_lt
  right_lt := W.twin_lt W.globals_lt
  climb
    | 0 => rfl
    | d + 1 => by rw [Mask.shift_nil, Frames.climb, Frames.climb, W.leftRoot, W.rightRoot]; rfl

/-- The globals are the current frames. -/
structure AtTop (W : World) : Prop where
  left : W.leftScope = W.globals
  right : W.rightScope = W.twin W.globals

theorem AtTop.stands (h : W.AtTop) : W.Stands [] := by
  rw [Stands, h.left, h.right]
  exact W.linked_globals

/-- A world at the top stays there as long as the current frames do. -/
theorem AtTop.mono (h : W.AtTop) (hW : W.Extends W') : W'.AtTop where
  left := by rw [hW.leftScope, h.left, hW.globals]
  right := by rw [hW.rightScope, h.right, hW.globals, hW.twin _ W.globals_lt]

end World

/-! ## Values -/

/-- The tables of two programs, and whether `for` loops of the first may be `while` loops in the
second. -/
structure Comparison extends Pairing where
  loops : Prop

/-- What stands for each other in the one stands for each other in the other, later. -/
structure Comparison.Later (C C' : Comparison) : Prop where
  loops : C.loops → C'.loops
  shifted : ∀ {mask i j}, C.Shifted mask i j → C'.Shifted mask i j

theorem Comparison.Later.refl (C : Comparison) : C.Later C := ⟨id, id⟩

/-- From the current frames the uses of a name lead to a frame and its twin, or both are global. -/
def Comparison.Use (C : Comparison) (W : World) : Ids := fun i j =>
  Option.Rel (fun d d' => W.right.climb d' W.rightScope = (W.left.climb d W.leftScope).map W.twin)
    C.left[i]? C.right[j]?

/-- A distance with the idle scopes counted in leads to the twin. -/
theorem Comparison.use_of_shifted {C : Comparison} {W : World} {mask : Mask}
    (hstands : W.Stands mask) {i j : NodeId} (h : C.Shifted mask i j) : C.Use W i j := by
  obtain ⟨-, -, hshift⟩ := h
  rw [Comparison.Use, hshift]
  cases C.left[i]? with
  | none => exact .none
  | some d => exact .some (hstands.climb d)

/-- Uses that lead to twins do so in every later world with the same current frames. -/
theorem Comparison.Use.mono {C : Comparison} {W W' : World} (hW : W.Extends W') {i j : NodeId}
    (h : C.Use W i j) : C.Use W' i j := by
  refine optionRel_mono (fun {d d'} hclimb => ?_) h
  rw [hW.leftScope, hW.rightScope, hW.left.climb _ W.leftScope_lt,
    hW.right.climb _ W.rightScope_lt, hclimb,
    hW.map_twin fun r hr => Frames.climb_lt W.leftScope_lt hr]

section

variable (C : Comparison) (W : World)

/-- Closures with related routines in linked frames. The routines may stand in one scope more than
the frames, which a call makes. -/
structure SameRoutine (outer inner : Mask) (f f' : Closure) : Prop where
  linked : W.Linked outer f.scope f'.scope
  routine : f.routine.Unrolls C.loops C.Shifted inner f'.routine
  isInitializer : f.isInitializer = f'.isInitializer

/-- Functions that correspond. The frame of an initializer binds its instance, so it is not idle. -/
def SameFunction (f f' : Closure) : Prop :=
  ∃ mask : Mask, SameRoutine C W mask mask f f' ∧ (f.isInitializer = true → mask.shift 0 = 0)

/-- Methods that correspond. Their routines stand in the scope of an instance. -/
def SameMethod (f f' : Closure) : Prop :=
  ∃ mask : Mask, SameRoutine C W mask (true :: mask) f f'

/-- Classes with methods that correspond. -/
abbrev SameClass : Class → Class → Prop :=
  Class.Paired (SameMethod C W)

/-- Values that correspond. -/
abbrev Same : Value → Value → Prop :=
  Value.Paired (SameFunction C W) (SameMethod C W)

end

section

variable {C C' : Comparison} {W W' : World} {f f' : Closure}

theorem SameRoutine.mono (hC : C.Later C') (hW : W.Grows W') {outer inner : Mask}
    (h : SameRoutine C W outer inner f f') : SameRoutine C' W' outer inner f f' :=
  ⟨h.linked.mono hW, h.routine.mono hC.loops hC.shifted, h.isInitializer⟩

theorem SameRoutine.arity_eq {outer inner : Mask} (h : SameRoutine C W outer inner f f') :
    f.arity = f'.arity :=
  congrArg List.length h.routine.parameters_eq

theorem SameRoutine.name_eq {outer inner : Mask} (h : SameRoutine C W outer inner f f') :
    f.name = f'.name :=
  congrArg Token.lexeme h.routine.name_eq

theorem SameFunction.mono (hC : C.Later C') (hW : W.Grows W') (h : SameFunction C W f f') :
    SameFunction C' W' f f' :=
  let ⟨mask, hf, hinit⟩ := h
  ⟨mask, hf.mono hC hW, hinit⟩

theorem SameFunction.arity_eq (h : SameFunction C W f f') : f.arity = f'.arity :=
  let ⟨_, hf, _⟩ := h
  hf.arity_eq

theorem SameFunction.name_eq (h : SameFunction C W f f') : f.name = f'.name :=
  let ⟨_, hf, _⟩ := h
  hf.name_eq

theorem SameMethod.mono (hC : C.Later C') (hW : W.Grows W') (h : SameMethod C W f f') :
    SameMethod C' W' f f' :=
  let ⟨mask, hf⟩ := h
  ⟨mask, hf.mono hC hW⟩

theorem SameMethod.arity_eq (h : SameMethod C W f f') : f.arity = f'.arity :=
  let ⟨_, hf⟩ := h
  hf.arity_eq

theorem SameClass.mono (hC : C.Later C') (hW : W.Grows W') {c c' : Class}
    (h : SameClass C W c c') : SameClass C' W' c c' :=
  h.imp (SameMethod.mono hC hW)

theorem Same.mono (hC : C.Later C') (hW : W.Grows W') {v v' : Value} (h : Same C W v v') :
    Same C' W' v v' :=
  h.imp (SameFunction.mono hC hW) (SameMethod.mono hC hW)

end

end LoxLang.Loops
