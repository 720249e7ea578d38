import Mathlib
import LoxLang.Proofs.Run.Keeping
import LoxLang.Proofs.Run.Session

/-!
# Proofs/Run/Frames — the current frame after a computation is the one before it

Blocks, loops and calls run in frames of their own. However they end, the frame from before is
current again (`Machine.SameScope` is stable), so at the top of a program the current frame is that
of the globals before every statement: within a run because the statements before kept it, and at
the start of a run because the run before ended so, with a fault or without.

The main result is `scope_restored`.
-/

namespace LoxLang

namespace Machine

/-- The same frame is current. -/
def SameScope (m m' : Machine) : Prop :=
  m'.scope = m.scope

/-- The globals are the same frame. -/
def SameGlobals (m m' : Machine) : Prop :=
  m'.globals = m.globals

/-- The globals are the current frame. -/
def AtTop (m : Machine) : Prop :=
  m.scope = m.globals

/-- Evaluators and hosts come back to the frame that they started in. -/
theorem stable_sameScope : Stable SameScope where
  refl _ := rfl
  trans h₁ h₂ := Eq.trans h₂ h₁
  writes _ _ _ _ := rfl
  within _ := rfl
  clock _ _ := rfl
  takeIds _ := rfl

/-- The frame of the globals is fixed. -/
theorem stable_sameGlobals : Stable SameGlobals where
  refl _ := rfl
  trans h₁ h₂ := Eq.trans h₂ h₁
  writes _ _ _ _ := rfl
  within h := h
  clock _ _ := rfl
  takeIds _ := rfl

/-- At the top is where a machine stays that keeps its current frame and its globals. -/
theorem AtTop.kept {m m' : Machine} (h : m.AtTop) (hscope : m.SameScope m')
    (hglobals : m.SameGlobals m') : m'.AtTop :=
  hscope.trans (h.trans hglobals.symm)

end Machine

open Machine (SameScope SameGlobals stable_sameScope stable_sameGlobals)

variable {host : Host} {fuel : Nat}

/-- **A program ends at the top**, also with a fault. -/
theorem atTop_executeProgram (hscope : host.Keeps SameScope) (hglobals : host.Keeps SameGlobals) :
    ∀ (ss : List Stmt) {m : Machine}, m.AtTop → (endOf (executeProgram host fuel ss m)).AtTop
  | [], _, h => h
  | s :: ss, m, h => by
    rw [executeProgram_cons]
    cases hout : execute host fuel s m with
    | ok flow m' =>
      have hkept := (keepsAt stable_sameScope hscope fuel).execute s |>.of_ok hout
      have hkept' := (keepsAt stable_sameGlobals hglobals fuel).execute s |>.of_ok hout
      exact atTop_executeProgram hscope hglobals ss (h.kept hkept hkept')
    | error stop m' => exact rfl

/-- Every statement of a program starts at the top. -/
theorem Reaches.atTop (hscope : host.Keeps SameScope) (hglobals : host.Keeps SameGlobals)
    {ss : List Stmt} {t : Stmt} {m m' : Machine} (h : Reaches host fuel ss m t m')
    (htop : m.AtTop) : m'.AtTop := by
  induction h with
  | here => exact htop
  | @later s t ss flow m m' m'' h _ ih =>
    have hkept := (keepsAt stable_sameScope hscope fuel).execute s |>.of_ok h
    have hkept' := (keepsAt stable_sameGlobals hglobals fuel).execute s |>.of_ok h
    exact ih (htop.kept hkept hkept')

/-- Between runs and evaluations a session is at the top. -/
theorem Session.Reached.atTop (hscope : host.Keeps SameScope) (hglobals : host.Keeps SameGlobals)
    {s : Session} (h : s.Reached host) : s.machine.AtTop := by
  induction h with
  | start recover capacity => exact rfl
  | defineHost _ name arity entry ih => exact ih
  | @run s _ fuel source ih =>
    by_cases hexecutes : s.Executes source
    · rw [Session.machine_run hexecutes]
      exact atTop_executeProgram hscope hglobals _ ih
    · rw [(Session.run_of_not_executes host fuel hexecutes).2]
      exact ih
  | @evaluate s _ fuel source ih =>
    cases hread : s.expression? source with
    | none =>
      obtain ⟨limit, -, heq⟩ := Session.evaluate_of_none host fuel hread
      rw [heq]
      exact ih
    | some e =>
      rw [Session.evaluate_of_some host fuel hread]
      have hkept := (keepsAt stable_sameScope hscope fuel).evaluate e
      have hkept' := (keepsAt stable_sameGlobals hglobals fuel).evaluate e
      exact Machine.AtTop.kept (m := { s.machine with nextId := _ }) ih (hkept _) (hkept' _)

/-- **The current frame is always restored.** However an expression, a statement or the statements
of a block in a frame of their own end — with a value, a `return`, a fault or for want of fuel — the
frame from before is current. So every statement at the top of a run starts with the globals as the
current frame, whatever the runs before came to. -/
theorem scope_restored (hhost : host.Keeps SameScope) :
    (∀ n e, (evaluate host n e).Keeps SameScope) ∧
    (∀ n s, (execute host n s).Keeps SameScope) ∧
    (∀ n r ss, (Eval.inFrame r (executeAll host n ss)).Keeps SameScope) ∧
    (host.Keeps SameGlobals → ∀ s : Session, s.Reached host → s.machine.AtTop ∧
      ∀ fuel source t m, s.Executes source →
        Reaches host fuel (s.read source).statements (s.prepared source) t m → m.AtTop) := by
  have hat := keepsAt stable_sameScope hhost
  refine ⟨fun n => (hat n).evaluate, fun n => (hat n).execute, fun n r ss => ?_, ?_⟩
  · exact ((hat n).executeAll ss).inFrame stable_sameScope r
  · intro hglobals s hreached
    have htop := hreached.atTop hhost hglobals
    exact ⟨htop, fun fuel source t m _ hreaches => hreaches.atTop hhost hglobals htop⟩

/-- A session with the library, behind a fault in the increment of a loop inside a call. -/
theorem scope_restored_after_loop_fault :
    let host := Library.host fun _ => 0
    let s := ((Session.start false none).run host 30
      "fun f() { for (var i; true; missing) { { var x = i; } } } f();").2
    host.Keeps SameScope ∧ host.Keeps SameGlobals ∧ s.Reached host ∧
      s.Executes "var x; { x; }" ∧ s.machine.AtTop ∧
      ∀ t m, Reaches host 30 (s.read "var x; { x; }").statements (s.prepared "var x; { x; }") t m →
        m.AtTop := by
  intro host s
  have hleaves : host.LeavesScopes := Library.leavesScopes _
  have hscope : host.Keeps SameScope := hleaves.keeps stable_sameScope
  have hglobals : host.Keeps SameGlobals := hleaves.keeps stable_sameGlobals
  have hreached : s.Reached host := .run (.start false none) 30 _
  have hexecutes : s.Executes "var x; { x; }" := by decide +kernel
  obtain ⟨htop, hstatements⟩ := (scope_restored hscope).2.2.2 hglobals s hreached
  exact ⟨hscope, hglobals, hreached, hexecutes, htop, fun t m =>
    hstatements 30 "var x; { x; }" t m hexecutes⟩

end LoxLang
