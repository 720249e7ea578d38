import Mathlib
import LoxLang.Proofs.Alike.Execution
import LoxLang.Proofs.Loops.Machine

/-!
# Proofs/Loops/Steps — steps that do the same in a world

Two computations simulate each other in a world (`Simulates`) if from machines that correspond they
come to machines that correspond in a later world, with results that do, or stop for the same
reason. The computations may have different fuel. At a `Pace` other than `even` one of the two may
run out of fuel although the other does not; then all that it has printed is a beginning of what the
other one prints.

Steps that use no fuel are simulated at the even pace, and thereby at any.
-/

namespace LoxLang

/-- Output was added at most. -/
def Machine.Appends (m m' : Machine) : Prop :=
  ∃ more, m'.sink.written = m.sink.written ++ more

/-- Evaluators only add output. -/
theorem Machine.steady_appends : Steady Machine.Appends where
  refl m := ⟨.empty, ByteArray.append_empty.symm⟩
  trans := by
    rintro m₁ m₂ m₃ ⟨more, h⟩ ⟨more', h'⟩
    exact ⟨more ++ more', by rw [h', h, ByteArray.append_assoc]⟩
  writes m _ _ := ⟨.empty, ByteArray.append_empty.symm⟩
  prints m bytes := ⟨m.sink.accepted bytes, rfl⟩
  within h := h

namespace Loops

open Machine (Appends steady_appends)

/-- Which of two computations may run out of fuel although the other does not. -/
inductive Pace where
  | even
  | leftShort
  | rightShort

section

variable {α β : Type}

/-- Outcomes that correspond. -/
inductive Ends (C : Comparison) (W : World) (values : World → α → β → Prop) :
    Pace → EStateM.Result Stop Machine α → EStateM.Result Stop Machine β → Prop
  | ok {p : Pace} {W' : World} {a : α} {b : β} {m m' : Machine} (hW : W.Extends W')
      (h : values W' a b) (hm : Related C W' m m') : Ends C W values p (.ok a m) (.ok b m')
  | error {p : Pace} {W' : World} (stop : Stop) {m m' : Machine} (hW : W.Extends W')
      (hm : Related C W' m m') : Ends C W values p (.error stop m) (.error stop m')
  | leftShort {m : Machine} {out' : EStateM.Result Stop Machine β} (h : m.Appends (endOf out')) :
      Ends C W values .leftShort (.error .outOfFuel m) out'
  | rightShort {out : EStateM.Result Stop Machine α} {m' : Machine} (h : m'.Appends (endOf out)) :
      Ends C W values .rightShort out (.error .outOfFuel m')

/-- **Computations that do the same from machines that correspond.** -/
def Simulates (p : Pace) (C : Comparison) (W : World) (values : World → α → β → Prop) (x : Eval α)
    (y : Eval β) : Prop :=
  ∀ ⦃m m'⦄, Related C W m m' → Ends C W values p (x m) (y m')

/-- What corresponds in a world does so in every later one. -/
def Lasts (values : World → α → β → Prop) : Prop :=
  ∀ ⦃W W' : World⦄ ⦃a : α⦄ ⦃b : β⦄, W.Grows W' → values W a b → values W' a b

end

/-- Ends of statements that correspond. -/
abbrev SameFlow (C : Comparison) (W : World) : Flow → Flow → Prop :=
  Flow.Paired (Same C W)

theorem lasts_same (C : Comparison) : Lasts (Same C) := fun _ _ _ _ hW h => h.mono (.refl C) hW

theorem lasts_sameFlow (C : Comparison) : Lasts (SameFlow C) :=
  fun _ _ _ _ hW h => h.imp (Same.mono (.refl C) hW)

section

variable {p : Pace} {C : Comparison} {W W' : World} {α β γ δ : Type}
  {values : World → α → β → Prop} {values' : World → γ → δ → Prop}

/-- What is reached from a later world is reached from the world before. -/
theorem Ends.after (hW : W.Extends W') {out : EStateM.Result Stop Machine α}
    {out' : EStateM.Result Stop Machine β} (h : Ends C W' values p out out') :
    Ends C W values p out out' := by
  cases h with
  | ok hW' h hm => exact .ok (hW.trans hW') h hm
  | error stop hW' hm => exact .error stop (hW.trans hW') hm
  | leftShort h => exact .leftShort h
  | rightShort h => exact .rightShort h

/-- At the even pace the machines correspond, however the computations end. -/
theorem Ends.related {out : EStateM.Result Stop Machine α} {out' : EStateM.Result Stop Machine β}
    (h : Ends C W values .even out out') :
    ∃ W', W.Extends W' ∧ Related C W' (endOf out) (endOf out') := by
  cases h with
  | ok hW _ hm => exact ⟨_, hW, hm⟩
  | error _ hW hm => exact ⟨_, hW, hm⟩

namespace Simulates

variable {x : Eval α} {y : Eval β} {f : α → Eval γ} {g : β → Eval δ}

/-! ## How computations are put together -/

theorem pure {a : α} {b : β} (h : values W a b) :
    Simulates p C W values (Pure.pure a) (Pure.pure b) :=
  fun _ _ hm => .ok (.refl W) h hm

theorem throw (stop : Stop) :
    Simulates p C W values (MonadExcept.throw stop) (MonadExcept.throw stop) :=
  fun _ _ hm => .error stop (.refl W) hm

theorem raise (line : Nat) (fault : RuntimeFault) :
    Simulates p C W values (Eval.raise line fault) (Eval.raise line fault) :=
  throw _

/-- The first computation is out of fuel. -/
theorem leftShort (hy : y.Keeps Appends) :
    Simulates .leftShort C W values (MonadExcept.throw .outOfFuel) y :=
  fun m m' hm => .leftShort <| by
    have hmore : m'.Appends (endOf (y m')) := hy m'
    rwa [Appends, ← hm.sink] at hmore

/-- The second computation is out of fuel. -/
theorem rightShort (hx : x.Keeps Appends) :
    Simulates .rightShort C W values x (MonadExcept.throw .outOfFuel) :=
  fun m m' hm => .rightShort <| by
    have hmore : m.Appends (endOf (x m)) := hx m
    rwa [Appends, hm.sink] at hmore

/-- A computation that looks at its machine first. -/
theorem get_bind {f : Machine → Eval α} {g : Machine → Eval β}
    (h : ∀ {m m'}, Related C W m m' → Simulates p C W values (f m) (g m')) :
    Simulates p C W values (get >>= f) (get >>= g) :=
  fun _ _ hm => h hm hm

/-- Where one side runs out of fuel, the rest of the other side may only add output. -/
theorem bind (hx : Simulates p C W values x y) (hf : ∀ a, (f a).Keeps Appends)
    (hg : ∀ b, (g b).Keeps Appends)
    (h : ∀ {W' a b}, W.Extends W' → values W' a b → Simulates p C W' values' (f a) (g b)) :
    Simulates p C W values' (x >>= f) (y >>= g) := by
  intro m m' hm
  have hout := hx hm
  change Ends C W values' p (EStateM.bind x f m) (EStateM.bind y g m')
  unfold EStateM.bind
  generalize x m = out, y m' = out' at hout
  cases hout with
  | ok hW hab hm => exact (h hW hab hm).after hW
  | error stop hW hm => exact .error stop hW hm
  | leftShort hmore =>
    refine .leftShort ?_
    cases out' with
    | ok b m' => exact steady_appends.trans hmore (hg b m')
    | error stop m' => exact hmore
  | rightShort hmore =>
    refine .rightShort ?_
    cases out with
    | ok a m => exact steady_appends.trans hmore (hf a m)
    | error stop m => exact hmore

/-- Nothing runs out of fuel in the first step. -/
theorem andThen (hx : Simulates .even C W values x y)
    (h : ∀ {W' a b}, W.Extends W' → values W' a b → Simulates p C W' values' (f a) (g b)) :
    Simulates p C W values' (x >>= f) (y >>= g) := by
  intro m m' hm
  have hout := hx hm
  change Ends C W values' p (EStateM.bind x f m) (EStateM.bind y g m')
  unfold EStateM.bind
  generalize x m = out, y m' = out' at hout
  cases hout with
  | ok hW hab hm => exact (h hW hab hm).after hW
  | error stop hW hm => exact .error stop hW hm

theorem map {f : α → γ} {g : β → δ} (hx : Simulates p C W values x y)
    (h : ∀ {W' a b}, values W' a b → values' W' (f a) (g b)) :
    Simulates p C W values' (f <$> x) (g <$> y) := by
  intro m m' hm
  have hout := hx hm
  change Ends C W values' p (EStateM.map f x m) (EStateM.map g y m')
  unfold EStateM.map
  generalize x m = out, y m' = out' at hout
  cases hout with
  | ok hW hab hm => exact .ok hW (h hab) hm
  | error stop hW hm => exact .error stop hW hm
  | leftShort hmore =>
    refine .leftShort ?_
    cases out' <;> exact hmore
  | rightShort hmore =>
    refine .rightShort ?_
    cases out <;> exact hmore

theorem ofExcept (line : Nat) {out : Except RuntimeFault α} {out' : Except RuntimeFault β}
    (h : ExceptRel Eq (values W) out out') :
    Simulates p C W values (Eval.ofExcept line out) (Eval.ofExcept line out') := by
  cases h with
  | ok h => exact pure h
  | error h =>
    cases h
    exact raise line _

/-- A step that may lead to a later world. -/
theorem modifyGet {f : Machine → α × Machine} {g : Machine → β × Machine}
    (h : ∀ {m m'}, Related C W m m' → ∃ W', W.Extends W' ∧ values W' (f m).1 (g m').1 ∧
      Related C W' (f m).2 (g m').2) :
    Simulates p C W values (modifyGet f) (modifyGet g) :=
  fun _ _ hm =>
    let ⟨_, hW, hvalues, hm⟩ := h hm
    .ok hW hvalues hm

/-- A step that makes no frame. -/
theorem modify {f g : Machine → Machine} (h : ∀ {m m'}, Related C W m m' →
    Related C W (f m) (g m')) :
    Simulates p C W (fun _ => Eq) (modify f : Eval Unit) (modify g) :=
  fun _ _ hm => .ok (.refl W) rfl (h hm)

/-! ## Frames -/

/-- The frame from before is current again on both sides. -/
theorem inFrame (hlasts : Lasts values) {r q : FrameRef} (hr : r < W.left.size)
    (hq : q < W.right.size) (hx : Simulates p C (W.enter r q hr hq) values x y) :
    Simulates p C W values (Eval.inFrame r x) (Eval.inFrame q y) := by
  intro m m' hm
  have hout := hx (hm.enter hr hq)
  unfold Eval.inFrame
  dsimp only
  rw [hm.leftScope, hm.rightScope]
  generalize x { m with scope := r } = out, y { m' with scope := q } = out' at hout
  cases hout with
  | ok hW hab hm =>
    obtain ⟨W'', hW'', hgrows, hm⟩ := hm.leave hW
    exact .ok hW'' (hlasts hgrows hab) hm
  | error stop hW hm =>
    obtain ⟨W'', hW'', -, hm⟩ := hm.leave hW
    exact .error stop hW'' hm
  | leftShort hmore =>
    refine .leftShort ?_
    cases out' <;> exact hmore
  | rightShort hmore =>
    refine .rightShort ?_
    cases out <;> exact hmore

/-- New frames inside of linked ones. -/
theorem newFrame {mask : Mask} {r q : FrameRef} (hlinked : W.Linked mask r q)
    {names names' : Std.TreeMap String Value} (hnames : SameNames C W names names') :
    Simulates p C W (fun W => W.Linked (true :: mask)) (Eval.newFrame names r)
      (Eval.newFrame names' q) := by
  refine modifyGet fun {m m'} hm => ⟨W.push r q hlinked.left_lt hlinked.right_lt,
    World.extends_push _ _, ?_, ?_⟩
  · simp only [Store.newFrame, hm.store.left.size, hm.store.right.size]
    exact hlinked.push
  · have htwin := (World.extends_push hlinked.left_lt hlinked.right_lt).twin _ W.globals_lt
    exact { hm with
      store := hm.store.newFrame _ _ hnames
      rightGlobals := hm.rightGlobals.trans htwin.symm }

/-- A computation in a new frame on both sides. -/
theorem inNewFrame (hlasts : Lasts values) {mask : Mask} (hstands : W.Stands mask)
    (hx : ∀ {W'}, W'.Stands (true :: mask) → Simulates p C W' values x y) :
    Simulates p C W values (Eval.inNewFrame x) (Eval.inNewFrame y) := by
  refine get_bind fun hm => ?_
  rw [hm.leftScope, hm.rightScope]
  refine andThen (newFrame hstands fun x => by simp) fun {W' r q} hW hnew => ?_
  have henter := World.grows_enter hnew.left_lt hnew.right_lt
  exact inFrame hlasts hnew.left_lt hnew.right_lt (hx (hnew.mono henter))

/-- A computation in an idle frame on the second side. -/
theorem inIdleFrame (hlasts : Lasts values) {mask : Mask} (hstands : W.Stands mask)
    (hx : ∀ {W'}, W'.Stands (false :: mask) → Simulates p C W' values x y) :
    Simulates p C W values x (Eval.inNewFrame y) := by
  intro m m' hm
  have hnew := hstands.pushIdle
  have hpushed : Related C (W.pushIdle W.rightScope hstands.right_lt) m
      { m' with store := (m'.store.newFrame ∅ (some W.rightScope)).2 } :=
    { hm with store := hm.store.newIdleFrame _ _ }
  have henter := World.grows_enter hnew.left_lt hnew.right_lt
  have hout := hx (hnew.mono henter) (hpushed.enterRight hnew.right_lt)
  change Ends C W values p (x m) (Eval.inFrame m'.store.frames.size y
    { m' with store := (m'.store.newFrame ∅ (some m'.scope)).2 })
  unfold Eval.inFrame
  dsimp only
  rw [hm.store.right.size, hm.rightScope]
  generalize x m = out, y { m' with
    store := (m'.store.newFrame ∅ (some W.rightScope)).2, scope := W.right.size } = out' at hout
  refine Ends.after (World.extends_pushIdle hstands.right_lt) ?_
  cases hout with
  | ok hW hab hm =>
    obtain ⟨W'', hW'', hgrows, hm⟩ := hm.leaveRight hW
    exact .ok hW'' (hlasts hgrows hab) hm
  | error stop hW hm =>
    obtain ⟨W'', hW'', -, hm⟩ := hm.leaveRight hW
    exact .error stop hW'' hm
  | leftShort hmore =>
    refine .leftShort ?_
    cases out' <;> exact hmore
  | rightShort hmore => exact .rightShort hmore

/-! ## Names -/

theorem freshObject : Simulates p C W (fun _ => Eq) Eval.freshObject Eval.freshObject :=
  modifyGet fun hm => ⟨W, .refl W, hm.nextObject,
    { hm with nextObject := congrArg (· + 1) hm.nextObject }⟩

/-- A name is bound in twins. -/
theorem bindIn {r q : FrameRef} (hr : W.Twins r q) (x : String) {v v' : Value}
    (hv : Same C W v v') :
    Simulates p C W (fun _ => Eq) (Eval.bindIn r x v) (Eval.bindIn q x v') := by
  obtain ⟨hlt, rfl⟩ := hr
  exact modify fun hm => { hm with store := hm.store.define hlt x hv }

/-- A declaration in the current frames, which have to be twins. -/
theorem define (hscope : W.Twins W.leftScope W.rightScope) (x : String) {v v' : Value}
    (hv : Same C W v v') :
    Simulates p C W (fun _ => Eq) (Eval.define x v) (Eval.define x v') := by
  refine get_bind fun hm => ?_
  rw [hm.leftScope, hm.rightScope]
  exact bindIn hscope x hv

/-- The line is written to both sinks, and fails on both or on neither. -/
theorem printLine (line : String) :
    Simulates p C W (fun _ => Eq) (Eval.printLine line) (Eval.printLine line) := by
  intro m m' hm
  have hwritten : Related C W { m with sink := m.sink.write (line ++ "\n").toUTF8 }
      { m' with sink := m'.sink.write (line ++ "\n").toUTF8 } :=
    { hm with sink := by rw [hm.sink] }
  unfold Eval.printLine
  dsimp only
  rw [show m.sink.takes (line ++ "\n").toUTF8 = m'.sink.takes (line ++ "\n").toUTF8 by rw [hm.sink]]
  split
  · exact .ok (.refl W) rfl hwritten
  · exact .error _ (.refl W) hwritten

variable {id id' : NodeId}

/-- A use leads to twins, whose values for the name correspond. -/
theorem lookUp (hid : C.Use W id id') (t : Token) :
    Simulates p C W (Same C) (Eval.lookUp id t) (Eval.lookUp id' t) := by
  refine get_bind fun {m m'} hm => ofExcept t.line ?_
  rw [hm.left, hm.right, hm.leftScope, hm.rightScope, hm.leftGlobals, hm.rightGlobals]
  have hdistance : Option.Rel _ C.left[id]? C.right[id']? := hid
  generalize C.left[id]? = o, C.right[id']? = o' at hdistance
  cases hdistance with
  | none => exact hm.store.get_globals t.lexeme
  | some hclimb => exact hm.store.getAt W.leftScope_lt W.rightScope_lt hclimb t.lexeme

/-- An assignment writes to twins. -/
theorem assign (hid : C.Use W id id') (t : Token) {v v' : Value} (hv : Same C W v v') :
    Simulates p C W (fun _ => Eq) (Eval.assign id t v) (Eval.assign id' t v') := by
  refine get_bind fun {m m'} hm => ?_
  refine andThen (ofExcept t.line (?_ : ExceptRel Eq W.Twins _ _)) fun {W' r q} hW hr =>
    bindIn (hr : W'.Twins r q) t.lexeme (lasts_same C hW.toGrows hv)
  rw [hm.left, hm.right, hm.leftScope, hm.rightScope, hm.leftGlobals, hm.rightGlobals]
  have hdistance : Option.Rel _ C.left[id]? C.right[id']? := hid
  generalize C.left[id]? = o, C.right[id']? = o' at hdistance
  cases hdistance with
  | none => exact hm.store.locate_globals t.lexeme
  | some hclimb => exact hm.store.locateAt W.leftScope_lt W.rightScope_lt hclimb t.lexeme

/-! ## Functions and classes -/

/-- The new instances have the same place in both stores. -/
theorem newInstance {c c' : Class} (hc : SameClass C W c c') :
    Simulates p C W (fun _ => Eq) (Eval.newInstance c) (Eval.newInstance c') :=
  modifyGet fun hm => ⟨W, .refl W, hm.store.instances,
    { hm with store := hm.store.newInstance hc }⟩

/-- The frame that binds the instance is between the frames of the class and those of the body. -/
theorem bindMethod {f f' : Closure} (hf : SameMethod C W f f') (r : InstanceRef) :
    Simulates p C W (SameFunction C) (Eval.bindMethod f r) (Eval.bindMethod f' r) := by
  obtain ⟨mask, hf⟩ := hf
  have hnames : SameNames C W {(thisName, Value.object r)} {(thisName, Value.object r)} := by
    intro x
    change Option.Rel (Same C W)
      ((∅ : Std.TreeMap String Value).insert thisName (.object r))[x]?
      ((∅ : Std.TreeMap String Value).insert thisName (.object r))[x]?
    rw [Std.TreeMap.getElem?_insert]
    split
    · exact .some (.object r)
    · simp
  refine andThen (newFrame hf.linked hnames) fun hW hnew => pure ?_
  exact ⟨true :: mask, ⟨hnew, (hf.mono (.refl C) hW.toGrows).routine, hf.isInitializer⟩,
    fun _ => rfl⟩

/-- A property is a field on both sides, or a method, or it is missing on both. -/
theorem property (r : InstanceRef) (t : Token) :
    Simulates p C W (Same C) (Eval.property r t) (Eval.property r t) := by
  refine get_bind fun {m m'} hm => ?_
  have hfield := hm.store.field? r t.lexeme
  have hmethod := hm.store.method? r t.lexeme
  dsimp only
  generalize m.store.field? r t.lexeme = o, m'.store.field? r t.lexeme = o' at hfield
  generalize m.store.method? r t.lexeme = f, m'.store.method? r t.lexeme = f' at hmethod
  cases hfield with
  | some hv => exact pure hv
  | none =>
    cases hmethod with
    | none => exact raise t.line _
    | some hf =>
      refine andThen (bindMethod hf r) fun _ hbound => andThen freshObject fun {_ id id'} hW hid => ?_
      cases hid
      exact pure (.function id (hbound.mono (.refl C) hW.toGrows))

theorem setField (r : InstanceRef) (name : String) {v v' : Value} (hv : Same C W v v') :
    Simulates p C W (Same C) (Eval.setField r name v) (Eval.setField r name v') := by
  refine andThen (modify fun hm => ?_) fun hW _ => pure (lasts_same C hW.toGrows hv)
  exact { hm with store := hm.store.setField r name hv }

theorem printValue {v v' : Value} (hv : Same C W v v') :
    Simulates p C W (fun _ => Eq) (Eval.printValue v) (Eval.printValue v') := by
  refine get_bind fun hm => ?_
  rw [hm.store.text_eq hv]
  exact printLine _

/-- A function that is declared in frames that are no idle ones. -/
theorem declareFunction {mask : Mask} (hstands : W.Stands mask)
    (hmask : mask.shift 0 = 0) {r r' : Routine} (hr : r.Unrolls C.loops C.Shifted mask r') :
    Simulates p C W (fun _ => Eq) (Eval.declareFunction r) (Eval.declareFunction r') := by
  refine andThen freshObject fun {W' id id'} hW hid => get_bind fun hm => ?_
  cases hid
  have hstands := hstands.mono hW
  rw [hr.name_eq, hm.leftScope, hm.rightScope]
  exact define (hstands.twins hmask) _ (.function id ⟨mask, ⟨hstands, hr, rfl⟩, nofun⟩)

end Simulates

/-- Methods of one name correspond in both classes. -/
theorem methodTable_same {mask : Mask} {r q : FrameRef} (hlinked : W.Linked mask r q) :
    ∀ {rs rs' : List Routine}, Routine.AllUnrolls C.loops C.Shifted (true :: mask) rs rs' →
    List.Forall₂ (fun a b : String × Closure => a.1 = b.1 ∧ SameMethod C W a.2 b.2)
      (rs.map fun f => (f.name.lexeme, Closure.mk f r (f.name.lexeme = initializerName)))
      (rs'.map fun f => (f.name.lexeme, Closure.mk f q (f.name.lexeme = initializerName)))
  | _, _, .nil => .nil
  | _, _, .cons hr hrs =>
    .cons ⟨congrArg Token.lexeme hr.name_eq, mask, hlinked, hr, by simp only [hr.name_eq]⟩
      (methodTable_same hlinked hrs)

/-- Arguments that correspond are bound to the same names. -/
theorem argumentNames_same (parameters : List Token) {vs vs' : List Value}
    (hvs : List.Forall₂ (Same C W) vs vs') :
    SameNames C W (argumentNames parameters vs) (argumentNames parameters vs') := by
  refine ofList_rel ?_
  induction parameters generalizing vs vs' with
  | nil => exact .nil
  | cons p ps ih =>
    cases hvs with
    | nil => exact .nil
    | cons hv hvs => exact .cons ⟨rfl, hv⟩ (ih hvs)

namespace Simulates

/-- A class is declared like a function, and its methods with it. -/
theorem declareClass {mask : Mask} (hstands : W.Stands mask)
    (hmask : mask.shift 0 = 0) (t : Token) {rs rs' : List Routine}
    (hrs : Routine.AllUnrolls C.loops C.Shifted (true :: mask) rs rs') :
    Simulates p C W (fun _ => Eq) (Eval.declareClass t rs) (Eval.declareClass t rs') := by
  refine andThen freshObject fun {W' id id'} hW hid => get_bind fun hm => ?_
  cases hid
  have hstands := hstands.mono hW
  rw [hm.leftScope, hm.rightScope]
  exact define (hstands.twins hmask) _
    (.cls ⟨rfl, rfl, ofList_rel (methodTable_same hstands hrs)⟩)

/-- An initializer gives its instance, any other routine what it returned. -/
theorem callResult {f f' : Closure} (hf : SameFunction C W f f') {flow flow' : Flow}
    (hflow : SameFlow C W flow flow') :
    Simulates p C W (Same C) (Eval.callResult f flow) (Eval.callResult f' flow') := by
  obtain ⟨mask, hf, hinit⟩ := hf
  unfold Eval.callResult
  rw [← hf.isInitializer]
  split
  · next hinitializer =>
    -- An initializer gives its instance, which its frame binds.
    refine get_bind fun hm => ?_
    rw [hf.routine.name_eq]
    refine ofExcept _ (hm.store.getAt hf.linked.left_lt hf.linked.right_lt ?_ thisName)
    have hclimb := hf.linked.climb 0
    rwa [hinit hinitializer] at hclimb
  · cases hflow with
    | normal => exact pure (.constant .nil)
    | returned hv => exact pure hv

/-- The body runs in frames inside of those of the closures. -/
theorem inCall {f f' : Closure} (hf : SameFunction C W f f') {vs vs' : List Value}
    (hvs : List.Forall₂ (Same C W) vs vs') {x y : Eval Flow}
    (hx : ∀ {W' mask}, W'.Stands mask →
      Stmt.AllUnrolls C.loops C.Shifted mask f.routine.body f'.routine.body →
      Simulates p C W' (SameFlow C) x y) :
    Simulates p C W (Same C) (Eval.inCall f vs x) (Eval.inCall f' vs' y) := by
  have ⟨mask, hroutine, _⟩ := hf
  unfold Eval.inCall
  rw [hroutine.routine.parameters_eq]
  refine andThen (newFrame hroutine.linked (argumentNames_same _ hvs)) fun {W' r q} hW hnew => ?_
  have henter := World.grows_enter hnew.left_lt hnew.right_lt
  have hbody : Simulates p C (W'.enter r q hnew.left_lt hnew.right_lt) (SameFlow C) x y :=
    hx (hnew.mono henter) hroutine.routine.body
  exact bind (inFrame (lasts_sameFlow C) hnew.left_lt hnew.right_lt hbody)
    (fun _ => steady_appends.closed.callResult _ _)
    (fun _ => steady_appends.closed.callResult _ _) fun hW' hflow =>
      callResult (hf.mono (.refl C) (hW.trans hW').toGrows) hflow

end Simulates

end

end Loops

end LoxLang
