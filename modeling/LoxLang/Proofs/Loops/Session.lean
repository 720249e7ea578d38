import Mathlib
import LoxLang.Proofs.Alike.Session
import LoxLang.Proofs.Loops.Hosts

/-!
# Proofs/Loops/Session — `for` is sugar for `while`

A program and the program with `while` in place of `for` are resolved with the same faults, so the
one runs just if the other does; and then they run the same in every session (`for_eq_while`). A
session corresponds to itself between runs (`Session.Reached.settled`): that is shown by comparing
each run with itself, at the even pace. From there on the two programs are compared at both other
paces, since either may need more fuel than the other.
-/

namespace LoxLang

/-! ## Running statements -/

namespace Session

/-- The report and the session after a program was executed. -/
def finished (s : Session) (found : List Diagnostic) :
    EStateM.Result Stop Machine Unit → Report × Session
  | .ok _ m =>
    (⟨some (if found.isEmpty then .ok else .staticError), found⟩, { s with machine := m })
  | .error stop m => s.stopped found stop m

/-- What a run does with statements: `found` are the faults found in reading them, and `limit` is
the next free node id. -/
def runStatements (host : Host) (fuel : Nat) (s : Session) (found : List Diagnostic)
    (ss : List Stmt) (limit : NodeId) : Report × Session :=
  let m := { s.machine with nextId := limit }
  let resolution := resolve ss
  if !resolution.faults.isEmpty then
    (⟨some .staticError, found ++ resolution.faults⟩, { s with machine := m })
  else s.finished found (executeProgram host fuel ss (m.noteDistances resolution.distances))

variable {s : Session} {source : String}

/-- A run reads a text and runs the statements that it has read. -/
theorem run_eq_runStatements (host : Host) (fuel : Nat)
    (h : s.found source = [] ∨ s.recover = true) :
    s.run host fuel source = s.runStatements host fuel (s.found source)
      (s.read source).statements (s.read source).nextId := by
  have hread := not_refused h
  unfold run
  simp only [found, read] at hread
  simp only [hread, Bool.false_eq_true, if_false]
  rfl

/-- A program without faults is executed with its distances noted. -/
theorem runStatements_of_clean (host : Host) (fuel : Nat) (found : List Diagnostic)
    {ss : List Stmt} (hclean : (resolve ss).faults = []) (limit : NodeId) :
    s.runStatements host fuel found ss limit = s.finished found (executeProgram host fuel ss
      (Machine.noteDistances { s.machine with nextId := limit } (resolve ss).distances)) := by
  simp [runStatements, hclean]

theorem output_finished (found : List Diagnostic) (out : EStateM.Result Stop Machine Unit) :
    (s.finished found out).2.output = (endOf out).sink.written := by
  rcases out with _ | ⟨_ | _, _⟩ <;> rfl

/-- The second run ends as the first one does if that ends, and goes on from there if that ran out
of fuel. -/
structure CarriesOn (first second : Report × Session) : Prop where
  ends : first.1.status ≠ none → second.1 = first.1 ∧ second.2.output = first.2.output
  prints : ∃ more, second.2.output = first.2.output ++ more

end Session

/-! ## Later tables -/

/-- The ids that a parser gives out are new. -/
theorem Numbered.newIds {first limit : NodeId} {ids : List NodeId} (h : Numbered first limit ids) :
    NewIds first limit ids :=
  ⟨h.le, h.nodup, h.bounds⟩

theorem NewIds.perm {first limit : NodeId} {ids ids' : List NodeId} (h : NewIds first limit ids)
    (hperm : ids'.Perm ids) : NewIds first limit ids' :=
  ⟨h.le, hperm.nodup_iff.mpr h.nodup, fun id hid => h.bounds id (hperm.mem_iff.mp hid)⟩

/-- Distances are entered for the ids of the program only. -/
theorem NewIds.laterTable {ss : List Stmt} {first limit limit' : NodeId}
    (hids : NewIds first limit' (Stmt.idsAll ss)) (hs : Stmt.AllShaped ss)
    (hclean : (resolve ss).faults = []) {D : Std.TreeMap NodeId Nat}
    (hfresh : ∀ id, limit ≤ id → D[id]? = none) (hle : limit ≤ first) :
    LaterTable limit limit' D (D.insertMany (resolve ss).distances) := by
  obtain ⟨hfound, hfaults⟩ := Scope.tracesAt_program hs
  rw [hfaults] at hclean
  have hother : ∀ id, id ∉ Stmt.idsAll ss →
      (D.insertMany (resolve ss).distances)[id]? = D[id]? := fun id hid => by
    rw [hfound]
    exact Scope.getElem?_insertMany_recorded_of_not_mem
      (((map_fst_uses_of_clean hclean).trans (ids_programSites ss)).symm ▸ hid)
  refine ⟨Nat.le_trans hle hids.le, fun id hid => hother id fun hmem => ?_, fun id hid => ?_⟩
  · exact Nat.not_lt_of_le (hids.bounds id hmem).1 (Nat.lt_of_lt_of_le hid hle)
  · rw [hother id fun hmem => Nat.not_lt_of_le hid (hids.bounds id hmem).2]
    exact hfresh id (Nat.le_trans (Nat.le_trans hle hids.le) hid)

namespace Loops

section

variable {C : Comparison} {left right : Std.TreeMap NodeId Nat} {leftLimit rightLimit : NodeId}

/-- The comparison with later tables. -/
def Comparison.later (C : Comparison) (loops : Prop)
    (hl : LaterTable C.leftLimit leftLimit C.left left)
    (hr : LaterTable C.rightLimit rightLimit C.right right) : Comparison :=
  { C.toPairing.later hl hr with loops }

/-- Later tables have nothing else to say of ids that were given out. -/
theorem Comparison.later_later {loops : Prop} (hloops : C.loops → loops)
    (hl : LaterTable C.leftLimit leftLimit C.left left)
    (hr : LaterTable C.rightLimit rightLimit C.right right) : C.Later (C.later loops hl hr) where
  loops := hloops
  shifted {mask i j} h := by
    obtain ⟨hi, hj, hshift⟩ := h
    refine ⟨Nat.lt_of_lt_of_le hi hl.le, Nat.lt_of_lt_of_le hj hr.le, ?_⟩
    change right[j]? = left[i]?.map mask.shift
    rw [hr.older j hj, hl.older i hi]
    exact hshift

end

/-- **Machines that correspond do so with the distances of related programs entered**, and then the
distances in the second program are those in the first with the idle scopes counted in. -/
theorem Related.note {C : Comparison} {W : World} {m m' : Machine} (h : Related C W m m')
    {loops : Prop} (hloops : C.loops → loops) {ss ss' : List Stmt}
    (hss : Stmt.AllUnrolls loops Mask.any [] ss ss') (hs : Stmt.AllShaped ss)
    (hclean : (resolve ss).faults = []) (hclean' : (resolve ss').faults = [])
    {limit limit' : NodeId} (hids : NewIds m.nextId limit (Stmt.idsAll ss))
    (hids' : NewIds m'.nextId limit' (Stmt.idsAll ss')) :
    ∃ C' : Comparison, (C'.loops ↔ loops) ∧ Stmt.AllUnrolls C'.loops C'.Shifted [] ss ss' ∧
      Related C' W (Machine.noteDistances { m with nextId := limit } (resolve ss).distances)
        (Machine.noteDistances { m' with nextId := limit' } (resolve ss').distances) := by
  have hs' := hss.shaped hs
  have hl := hids.laterTable hs hclean C.left_fresh h.leftLimit
  have hr := hids'.laterTable hs' hclean' C.right_fresh h.rightLimit
  have hnoted := allNoted_resolve hs hclean hids fun id hid =>
    C.left_fresh id (Nat.le_trans h.leftLimit hid)
  have hnoted' := allNoted_resolve hs' hclean' hids' fun id hid =>
    C.right_fresh id (Nat.le_trans h.rightLimit hid)
  refine ⟨C.later loops hl hr, Iff.rfl, hss.shifted hs rfl .nil hnoted hnoted', ?_⟩
  exact { h with
    store := h.store.later (Comparison.later_later hloops hl hr)
    left := congrArg (Std.TreeMap.insertMany · _) h.left
    right := congrArg (Std.TreeMap.insertMany · _) h.right
    leftLimit := Nat.le_refl _
    rightLimit := Nat.le_refl _ }

/-! ## Every session corresponds to itself -/

/-- The frame of the globals alone, on both sides. -/
def World.start : World where
  left := ⟨1, fun _ => none, nofun⟩
  right := ⟨1, fun _ => none, nofun⟩
  twin r := r
  globals := 0
  leftScope := 0
  rightScope := 0
  twin_lt h := h
  twin_inj _ _ h := h
  globals_lt := Nat.one_pos
  leftRoot := rfl
  rightRoot := rfl
  leftScope_lt := Nat.one_pos
  rightScope_lt := Nat.one_pos

/-- Nothing is recorded, and no loop is unrolled. -/
def Comparison.empty : Comparison :=
  { Pairing.empty with loops := False }

theorem shows_start : Shows World.start.left (Store.empty.newFrame ∅ none).2 where
  size := rfl
  enclosing? r hr := by
    obtain rfl := Nat.lt_one_iff.mp hr
    rfl

/-- A fresh machine corresponds to itself. -/
theorem related_fresh (capacity : Option Nat) :
    Related .empty .start (Machine.fresh capacity) (Machine.fresh capacity) where
  store :=
    { left := shows_start
      right := shows_start
      instances := rfl
      local? := fun _ x => by
        simp only [Machine.fresh, Store.local?_newFrame_empty]
        exact .none
      classOf? := fun _ => .none
      field? := fun _ _ => .none }
  leftGlobals := rfl
  rightGlobals := rfl
  leftScope := rfl
  rightScope := rfl
  sink := rfl
  nextObject := rfl
  clockReads := rfl
  left := rfl
  right := rfl
  leftLimit := Nat.le_refl _
  rightLimit := Nat.le_refl _

/-- Between runs a machine corresponds to itself, with no loop unrolled. -/
def Settled (m : Machine) : Prop :=
  ∃ C W, ¬ C.loops ∧ W.AtTop ∧ Related C W m m

/-- A computation that simulates itself leaves a machine that corresponds to itself. -/
theorem Settled.of_simulates {α : Type} {C : Comparison} {W : World}
    {values : World → α → α → Prop} {x : Eval α} {m : Machine} (hloops : ¬ C.loops)
    (htop : W.AtTop) (hx : Simulates .even C W values x x) (hm : Related C W m m) :
    Settled (endOf (x m)) :=
  let ⟨W', hW, hm⟩ := (hx hm).related
  ⟨C, W', hloops, htop.mono hW, hm⟩

end Loops

open Loops

namespace Session

variable {host : Host} {s : Session} {source : String}

/-- **A session corresponds to itself** between runs and evaluations. -/
theorem Reached.settled (hhost : Blind host) (h : s.Reached host) : Settled s.machine := by
  induction h with
  | start recover capacity =>
    exact ⟨.empty, .start, id, ⟨rfl, rfl⟩, (related_fresh capacity).defineHost _ _ _⟩
  | defineHost _ name arity entry ih =>
    obtain ⟨C, W, hloops, htop, hm⟩ := ih
    exact ⟨C, W, hloops, htop, hm.defineHost name arity entry⟩
  | @run s _ fuel source ih =>
    obtain ⟨C, W, hloops, htop, hm⟩ := ih
    -- A program is compared with itself here, so no loop is unrolled and both sides have the same
    -- fuel.
    have hids : Numbered s.machine.nextId (s.read source).nextId _ := numbered_parse _ _
    by_cases hexecutes : s.Executes source
    · have hself : Stmt.AllUnrolls False Mask.any [] (s.read source).statements
          (s.read source).statements :=
        (Stmt.allAlike_of_bare rfl).unrolls (fun _ _ => trivial) .nil
      obtain ⟨C', hloops', hss, hm'⟩ := hm.note hloops hself (shaped_parse _ _) hexecutes.2
        hexecutes.2 hids.newIds hids.newIds
      rw [machine_run hexecutes]
      exact .of_simulates hloops'.mp htop (executeProgram_simulates hhost
        (fun h => absurd h hloops'.mp) (Pace.allows_even fuel) htop hss) hm'
    · rw [(run_of_not_executes host fuel hexecutes).2]
      exact ⟨C, W, hloops, htop, hm.takeIds hids.le hids.le⟩
  | @evaluate s _ fuel source ih =>
    obtain ⟨C, W, hloops, htop, hm⟩ := ih
    cases hread : s.expression? source with
    | none =>
      obtain ⟨limit, hle, heq⟩ := evaluate_of_none host fuel hread
      rw [heq]
      exact ⟨C, W, hloops, htop, hm.takeIds hle hle⟩
    | some e =>
      have hids := numbered_parseExpression (expression?_eq_some.mp hread).2
      have huse : e.Alike Eq (C.Use W) e := use_of_unrecorded (Expr.alike_of_bare rfl)
        (fun id hid => Nat.le_trans hm.leftLimit (hids.bounds id hid).1)
        fun id hid => Nat.le_trans hm.rightLimit (hids.bounds id hid).1
      rw [evaluate_of_some host fuel hread]
      exact .of_simulates hloops htop (evaluate_simulates hhost (fun h => absurd h hloops)
        (Pace.allows_even fuel) huse) (hm.takeIds hids.le hids.le)

/-! ## `for` and `while` -/

namespace CarriesOn

variable {found : List Diagnostic} {out out' : EStateM.Result Stop Machine Unit}

/-- A run that ends alike carries on the other. -/
theorem of_eq (hreport : (s.finished found out').1 = (s.finished found out).1)
    (hsink : (endOf out').sink = (endOf out).sink) :
    CarriesOn (s.finished found out) (s.finished found out') := by
  have houtput : (s.finished found out').2.output = (s.finished found out).2.output := by
    rw [output_finished, output_finished, hsink]
  exact ⟨fun _ => ⟨hreport, houtput⟩, .empty, by rw [houtput, ByteArray.append_empty]⟩

/-- A run that is out of fuel is carried on by every run that prints more. -/
theorem of_outOfFuel {m : Machine} (hmore : m.Appends (endOf out)) :
    CarriesOn (s.finished found (.error .outOfFuel m)) (s.finished found out) := by
  refine ⟨fun h => absurd rfl h, ?_⟩
  rw [output_finished, output_finished]
  exact hmore

/-- The run of the first program is carried on by that of the second. -/
theorem of_leftShort {C : Comparison} {W : World}
    (h : Ends C W (fun _ => Eq) .leftShort out out') :
    CarriesOn (s.finished found out) (s.finished found out') := by
  cases h with
  | ok _ _ hm => exact of_eq rfl hm.sink.symm
  | error stop _ hm => exact of_eq (by cases stop <;> rfl) hm.sink.symm
  | leftShort hmore => exact of_outOfFuel hmore

/-- The first program carries on what the second does until it is out of fuel. -/
theorem of_rightShort {C : Comparison} {W : World}
    (h : Ends C W (fun _ => Eq) .rightShort out out') :
    CarriesOn (s.finished found out') (s.finished found out) := by
  cases h with
  | ok _ _ hm => exact of_eq rfl hm.sink
  | error stop _ hm => exact of_eq (by cases stop <;> rfl) hm.sink
  | rightShort hmore => exact of_outOfFuel hmore

end CarriesOn

/-- **`for` is sugar for `while`.** Take a program that a session reads and executes, and the
program with `while` in place of each `for`, with any node ids that were not given out before. Then
this is resolved without a fault, and run by the session it does what the program does. With five
times the fuel it carries on what the program does, and the program with the same fuel carries on
what it does: so the one comes to a report and an output just if the other does, and if they do not
end then they print the same. The functions of the host must not see the difference. -/
theorem for_eq_while (hhost : Blind host) (h : s.Reached host) (hexecutes : s.Executes source)
    {ss : List Stmt} {limit : NodeId}
    (hss : Stmt.bareAll ss = Stmt.bareAll (Stmt.desugaredAll (s.read source).statements))
    (hids : NewIds s.machine.nextId limit (Stmt.idsAll ss)) :
    (resolve ss).faults = [] ∧
      (∀ n k, 5 * n ≤ k → CarriesOn (s.run host n source)
        (s.runStatements host k (s.found source) ss limit)) ∧
      (∀ n k, k ≤ n → CarriesOn (s.runStatements host k (s.found source) ss limit)
        (s.run host n source)) ∧
      ∀ report output, report.status ≠ none →
        ((∃ fuel, (s.run host fuel source).1 = report ∧
            (s.run host fuel source).2.output = output) ↔
          ∃ fuel, (s.runStatements host fuel (s.found source) ss limit).1 = report ∧
            (s.runStatements host fuel (s.found source) ss limit).2.output = output) := by
  obtain ⟨C, W, -, htop, hm⟩ := h.settled hhost
  have hshaped : Stmt.AllShaped (s.read source).statements := shaped_parse _ _
  have hread : Numbered s.machine.nextId (s.read source).nextId _ := numbered_parse _ _
  have hunrolls : Stmt.AllUnrolls True Mask.any [] (s.read source).statements ss :=
    Stmt.allUnrolls_desugared trivial hshaped rfl (Stmt.allAlike_of_bare hss.symm)
  have hclean : (resolve ss).faults = [] := by
    have hperm := resolve_faults_perm hunrolls hshaped
    rw [hexecutes.2] at hperm
    exact hperm.nil_eq.symm
  obtain ⟨C', -, hrelated, hm'⟩ := hm.note (fun _ => trivial) hunrolls hshaped hexecutes.2 hclean
    hread.newIds hids
  -- One comparison serves both directions: it is run with either side short of fuel.
  have hends := fun {p : Pace} {n k} (hp : p ≠ .even) (hallows : p.Allows n k) =>
    executeProgram_simulates hhost (fun _ => hp) hallows htop hrelated hm'
  have hfor : ∀ n k, 5 * n ≤ k → CarriesOn (s.run host n source)
      (s.runStatements host k (s.found source) ss limit) := fun n k hle => by
    rw [run_eq_runStatements host n hexecutes.1, runStatements_of_clean host n _ hexecutes.2,
      runStatements_of_clean host k _ hclean]
    exact .of_leftShort (hends nofun hle)
  have hwhile : ∀ n k, k ≤ n → CarriesOn (s.runStatements host k (s.found source) ss limit)
      (s.run host n source) := fun n k hle => by
    rw [run_eq_runStatements host n hexecutes.1, runStatements_of_clean host n _ hexecutes.2,
      runStatements_of_clean host k _ hclean]
    exact .of_rightShort (hends nofun hle)
  refine ⟨hclean, hfor, hwhile, fun report output hstatus => ⟨?_, ?_⟩⟩
  · rintro ⟨n, rfl, rfl⟩
    exact ⟨5 * n, (hfor n (5 * n) (Nat.le_refl _)).ends hstatus⟩
  · rintro ⟨k, rfl, rfl⟩
    exact ⟨k, (hwhile k k (Nat.le_refl _)).ends hstatus⟩

/-- A closure from the body of a loop without condition, a `return` out of that loop, and loops
within each other, of which the inner one stops at a fault in its increment. -/
theorem for_eq_while_closures :
    let host := Library.withoutLocals fun _ => 0
    let s := ((Session.start false none).run host 20 "fun same(x) \x7b return x; \x7d").2
    let source := "fun find(t) \x7b for (var w = same(\"\");; w = w + \"a\") \x7b" ++
      " fun get() \x7b return w; \x7d if (w == t) return get; \x7d \x7d" ++
      " var g = find(\"aa\"); for (var b = true; b; b = false)" ++
      " for (; true; missing) \x7b var b = g(); print b; \x7d"
    let ss := Stmt.desugaredAll (s.read source).statements
    Blind host ∧ s.Reached host ∧ s.Executes source ∧
      NewIds s.machine.nextId (s.read source).nextId (Stmt.idsAll ss) ∧
      ((s.run host 40 source).1.status = some .runtimeError ∧
        (s.run host 40 source).1.diagnostics = [.runtime 1 (.undefinedVariable "missing")] ∧
        (s.run host 40 source).2.output = "aa\n".toUTF8) ∧
      (resolve ss).faults = [] ∧
      let ran := s.runStatements host 200 (s.found source) ss (s.read source).nextId
      ran.1 = (s.run host 40 source).1 ∧ ran.2.output = (s.run host 40 source).2.output := by
  intro host s source ss
  have hhost : Blind host := Library.blind _
  have hreached : s.Reached host := .run (.start false none) 20 _
  have hexecutes : s.Executes source := by decide +kernel
  have hrun : (s.run host 40 source).1.status = some .runtimeError ∧
      (s.run host 40 source).1.diagnostics = [.runtime 1 (.undefinedVariable "missing")] ∧
      (s.run host 40 source).2.output = "aa\n".toUTF8 := by decide +kernel
  clear_value host s source
  have hread : Numbered s.machine.nextId (s.read source).nextId _ := numbered_parse _ _
  have hids : NewIds s.machine.nextId (s.read source).nextId (Stmt.idsAll ss) :=
    hread.newIds.perm (Stmt.idsAll_desugaredAll _)
  obtain ⟨hclean, hfor, -, -⟩ := for_eq_while hhost hreached hexecutes rfl hids
  have hends := (hfor 40 200 (by decide)).ends (by rw [hrun.1]; exact nofun)
  exact ⟨hhost, hreached, hexecutes, hids, hrun, hclean, hends⟩

end Session

end LoxLang
