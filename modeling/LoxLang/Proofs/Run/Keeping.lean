import Mathlib
import LoxLang.Proofs.Run.Closure

/-!
# Proofs/Run/Keeping — what every computation keeps of its machine

Evaluators change a machine in few ways: they write to its store and its sink, take object numbers,
and run in another frame, after which the frame from before is current again. To keep a relation
between the machine before and the machine after that allows for these (`Steady`) is a property of
the steps (`Steady.closed`), so it holds for every evaluator, however the evaluation ends
(`steadyAt`). It has to hold for the host as well (`Host.Keeps`); a host that leaves the scopes
alone keeps every relation that also allows for what such a host may change (`Stable`,
`Host.LeavesScopes.keeps`).
-/

namespace LoxLang

/-- However the computation ends, the relation holds between the machine before and after it. -/
def Eval.Keeps {α : Type} (rel : Machine → Machine → Prop) (x : Eval α) : Prop :=
  ∀ m, rel m (endOf (x m))

/-- A relation between the machine before and after a computation that allows for the changes that
evaluators make. -/
structure Steady (rel : Machine → Machine → Prop) : Prop where
  refl : ∀ m, rel m m
  trans : ∀ {m₁ m₂ m₃}, rel m₁ m₂ → rel m₂ m₃ → rel m₁ m₃
  writes : ∀ m store nextObject, rel m { m with store, nextObject }
  prints : ∀ m bytes, rel m { m with sink := m.sink.write bytes }
  /-- A computation in another frame, after which the frame from before is current again. -/
  within : ∀ {m m' r}, rel { m with scope := r } m' → rel m { m' with scope := m.scope }

/-- A relation that also allows for the changes that a host makes. -/
structure Stable (rel : Machine → Machine → Prop) : Prop where
  refl : ∀ m, rel m m
  trans : ∀ {m₁ m₂ m₃}, rel m₁ m₂ → rel m₂ m₃ → rel m₁ m₃
  writes : ∀ m store sink nextObject, rel m { m with store, sink, nextObject }
  /-- A computation in another frame, after which the frame from before is current again. -/
  within : ∀ {m m' r}, rel { m with scope := r } m' → rel m { m' with scope := m.scope }
  clock : ∀ m clockReads, rel m { m with clockReads }
  takeIds : ∀ {m nextId}, m.nextId ≤ nextId → rel m { m with nextId }

/-- A relation that allows for what hosts do allows for what evaluators do. -/
theorem Stable.steady {rel : Machine → Machine → Prop} (h : Stable rel) : Steady rel where
  refl := h.refl
  trans := h.trans
  writes m store nextObject := h.writes m store m.sink nextObject
  prints m bytes := h.writes m m.store (m.sink.write bytes) m.nextObject
  within := h.within

instance {rel : Machine → Machine → Prop} : Coe (Stable rel) (Steady rel) := ⟨Stable.steady⟩

/-- The functions of the host keep the relation, as far as the evaluation that they may use does. -/
def Host.Keeps (rel : Machine → Machine → Prop) (host : Host) : Prop :=
  ∀ entry evaluate arguments, (∀ e, (evaluate e).Keeps rel) →
    (host entry evaluate arguments).Keeps rel

/-! ## Single steps -/

namespace Eval.Keeps

variable {rel : Machine → Machine → Prop} {α β : Type}

theorem of_ok {x : Eval α} (hx : x.Keeps rel) {m m' : Machine} {a : α} (h : x m = .ok a m') :
    rel m m' := by
  have hm := hx m
  rwa [h] at hm

theorem of_error {x : Eval α} (hx : x.Keeps rel) {m m' : Machine} {stop : Stop}
    (h : x m = .error stop m') : rel m m' := by
  have hm := hx m
  rwa [h] at hm

theorem pure (hrel : Steady rel) (a : α) : Keeps rel (Pure.pure a : Eval α) := hrel.refl

theorem throw (hrel : Steady rel) (stop : Stop) : Keeps rel (MonadExcept.throw stop : Eval α) :=
  hrel.refl

/-- Computations one behind the other: the relation holds from the first machine to the last. -/
theorem bind (hrel : Steady rel) {x : Eval α} {f : α → Eval β} (hx : x.Keeps rel)
    (hf : ∀ a, (f a).Keeps rel) : (x >>= f).Keeps rel := by
  intro m
  change rel m (endOf (EStateM.bind x f m))
  unfold EStateM.bind
  cases hout : x m with
  | ok a m' => exact hrel.trans (hx.of_ok hout) (hf a m')
  | error stop m' => exact hx.of_error hout

theorem get_bind {f : Machine → Eval α} (hf : ∀ m, (f m).Keeps rel) : (get >>= f).Keeps rel :=
  fun m => hf m m

/-- A step that writes to the store and the object numbers only. -/
theorem of_writes (hrel : Steady rel) {x : Eval α} (h : ∀ m, ∃ store nextObject,
    endOf (x m) = { m with store, nextObject }) : x.Keeps rel := by
  intro m
  obtain ⟨store, nextObject, heq⟩ := h m
  rw [heq]
  exact hrel.writes m store nextObject

/-- A line is printed or fails, and has been written as far as the sink takes it in both cases. -/
theorem printLine (hrel : Steady rel) (line : String) : (Eval.printLine line).Keeps rel :=
  fun m => by
    unfold Eval.printLine
    dsimp only
    split <;> exact hrel.prints m _

/-- The frame from before is current again. -/
theorem inFrame (hrel : Steady rel) (r : FrameRef) {x : Eval α} (hx : x.Keeps rel) :
    (Eval.inFrame r x).Keeps rel := by
  intro m
  unfold Eval.inFrame
  dsimp only
  cases hout : x { m with scope := r } with
  | ok a m' => exact hrel.within (hx.of_ok hout)
  | error stop m' => exact hrel.within (hx.of_error hout)

end Eval.Keeps

/-- To keep a steady relation is a property of the steps of evaluators. -/
theorem Steady.closed {rel : Machine → Machine → Prop} (hrel : Steady rel) :
    Eval.Closed fun x => x.Keeps rel where
  pure a := .pure hrel a
  throw stop := .throw hrel stop
  bind hx hf := hx.bind hrel hf
  read _ hf := .get_bind hf
  writes hx := .of_writes hrel fun m => by
    obtain ⟨a, store, nextObject, heq⟩ := hx.ok m
    exact ⟨store, nextObject, by rw [heq]; rfl⟩
  printLine line := .printLine hrel line
  inFrame r hx := hx.inFrame hrel r

/-! ## The evaluators -/

/-- With this much fuel every evaluator keeps the relation. -/
abbrev KeepsAt (rel : Machine → Machine → Prop) (host : Host) (n : Nat) : Prop :=
  ClosedAt (fun x => x.Keeps rel) host n

variable {rel : Machine → Machine → Prop} {host : Host}

/-- **A steady relation that the host keeps is kept by every evaluator.** -/
theorem steadyAt (hrel : Steady rel) (hhost : host.Keeps rel) : ∀ n, KeepsAt rel host n :=
  closedAt hrel.closed fun n hevaluate entry arguments =>
    hhost entry (evaluate host n) arguments hevaluate

/-- **A stable relation that the host keeps is kept by every evaluator.** -/
theorem keepsAt (hrel : Stable rel) (hhost : host.Keeps rel) : ∀ n, KeepsAt rel host n :=
  steadyAt hrel hhost

/-! ## Hosts -/

/-- A step of a host function keeps the relation, as far as evaluation does. -/
theorem HostStep.keeps (hrel : Stable rel) {evaluate : Expr → Eval Value}
    (hevaluate : ∀ e, (evaluate e).Keeps rel) {hand hand' : Hand} {m m' : Machine}
    (h : HostStep evaluate hand m hand' m') : rel m m' := by
  cases h with
  | constant | host | read | readField => exact hrel.refl m
  | print sink => exact hrel.writes m m.store sink m.nextObject
  | clock clockReads => exact hrel.clock m clockReads
  | takeObjects => exact hrel.writes m m.store m.sink _
  | takeIds hle => exact hrel.takeIds hle
  | defineGlobal | write | writeField => exact hrel.writes m _ m.sink m.nextObject
  | evaluated _ h => exact (hevaluate _).of_ok h
  | caught _ h => exact (hevaluate _).of_error h

/-- The steps of a host function one behind the other. -/
theorem HostPath.keeps (hrel : Stable rel) {evaluate : Expr → Eval Value}
    (hevaluate : ∀ e, (evaluate e).Keeps rel) {hand hand' : Hand} {m m' : Machine}
    (h : HostPath evaluate hand m hand' m') : rel m m' := by
  induction h with
  | refl => exact hrel.refl m
  | step _ hstep ih => exact hrel.trans ih (hstep.keeps hrel hevaluate)

/-- A host that leaves the scopes alone keeps every stable relation. -/
theorem Host.LeavesScopes.keeps (hrel : Stable rel) (h : host.LeavesScopes) :
    host.Keeps rel := by
  intro entry evaluate arguments hevaluate m
  have hends := h entry evaluate arguments m
  generalize host entry evaluate arguments m = out at hends
  cases hends with
  | gives hpath | refuses hpath => exact hpath.keeps hrel hevaluate
  | stops hpath _ hstop =>
    exact hrel.trans (hpath.keeps hrel hevaluate) ((hevaluate _).of_error hstop)

end LoxLang
