import Mathlib
import LoxLang.Proofs.Run.Frames
import LoxLang.Proofs.Scope.Walk

/-!
# Proofs/Run/Table — the table of distances over a session

A run enters the distances of its program into the table of the machine; nothing else touches the
table (`Machine.SameTable` is stable). Node ids are taken in increasing order, so the ids of what a
session reads are all distinct, and the entries of a run are new ones: `Session.Grows` says what one
action does to the ids and the table, `grows_actAll` what several do.

The main result is `table_over_session`.
-/

namespace LoxLang

/-- The table of distances is the same, and no node id is given back. -/
def Machine.SameTable (m m' : Machine) : Prop :=
  m'.distances = m.distances ∧ m.nextId ≤ m'.nextId

/-- Evaluators and hosts leave the table alone, and only take ids. -/
theorem Machine.stable_sameTable : Stable SameTable where
  refl _ := ⟨rfl, Nat.le_refl _⟩
  trans h₁ h₂ := ⟨h₂.1.trans h₁.1, Nat.le_trans h₁.2 h₂.2⟩
  writes _ _ _ _ := ⟨rfl, Nat.le_refl _⟩
  within h := h
  clock _ _ := ⟨rfl, Nat.le_refl _⟩
  takeIds h := ⟨rfl, h⟩

open Machine (SameTable stable_sameTable)

/-- The number of uses of names in a program that a scope around them declares. -/
def Stmt.localUses (ss : List Stmt) : Nat :=
  (Stmt.usesAll ss []).countP (·.2.isSome)

/-- The entries of a program are its uses of local names. -/
theorem Scope.length_recorded (us : List Use) : (recorded us).length = us.countP (·.2.isSome) := by
  rw [recorded, List.length_filterMap_eq_countP]
  exact List.countP_congr fun u _ => by simp

/-- A program adds one entry to the table for each use of a local name. -/
theorem size_insertMany_resolve {ss : List Stmt} (hproper : Stmt.AllProper ss)
    (hfaults : (resolve ss).faults = []) {first limit : NodeId}
    (hids : Numbered first limit (Stmt.idsAll ss)) {D : Std.TreeMap NodeId Nat}
    (hfresh : ∀ id, first ≤ id → D[id]? = none) :
    (D.insertMany (resolve ss).distances).size = D.size + Stmt.localUses ss := by
  have hmap : (Stmt.usesAll ss []).map Prod.fst = Stmt.idsAll ss := Stmt.map_fst_usesAll ss []
  rw [(resolve_settles hproper hfaults).1, Stmt.localUses, ← Scope.length_recorded]
  refine Std.TreeMap.size_insertMany_list (Scope.recorded_distinct (hmap ▸ hids.nodup)) ?_
  intro id hid
  rw [List.contains_eq_mem, decide_eq_false_iff_not]
  intro hmem
  obtain ⟨d, hd⟩ := Scope.mem_map_fst_recorded hmem
  have hfirst : first ≤ id := (hids.bounds id (hmap ▸ List.mem_map_of_mem hd)).1
  rw [Std.TreeMap.mem_iff_isSome_getElem?, hfresh id hfirst] at hid
  cases hid

variable {host : Host}

/-- Executing a program leaves the table alone, however it ends. -/
theorem sameTable_executeProgram (hhost : host.Keeps SameTable) (fuel : Nat) :
    ∀ (ss : List Stmt) (m : Machine), m.SameTable (endOf (executeProgram host fuel ss m))
  | [], m => stable_sameTable.refl m
  | s :: ss, m => by
    have hs := (keepsAt stable_sameTable hhost fuel).execute s
    rw [executeProgram_cons]
    cases hout : execute host fuel s m with
    | ok flow m' =>
      exact stable_sameTable.trans (hs.of_ok hout) (sameTable_executeProgram hhost fuel ss m')
    | error stop m' =>
      have hkept : m.SameTable m' := hs.of_error hout
      exact hkept

namespace Session

/-- The node ids in what an action reads. -/
def idsRead (s : Session) : Action → List NodeId
  | .run _ source => Stmt.idsAll (s.read source).statements
  | .evaluate _ source => Expr.idsOption (s.expression? source)
  | .defineHost .. => []

/-- The node ids in all that actions read. -/
def idsReadAll (host : Host) : Session → List Action → List NodeId
  | _, [] => []
  | s, a :: rest => s.idsRead a ++ idsReadAll host (s.act host a) rest

/-- The uses of local names that an action enters into the table: those in the statements that a run
executes. -/
def localsNoted (s : Session) : Action → Nat
  | .run _ source => if s.Executes source then Stmt.localUses (s.read source).statements else 0
  | .evaluate .. | .defineHost .. => 0

/-- No id that is still free has an entry in the table. -/
def Fresh (s : Session) : Prop :=
  ∀ id, s.machine.nextId ≤ id → s.machine.distances[id]? = none

/-- What actions that read the given ids and note so many local names do to the ids and the table of
a session. -/
structure Grows (s : Session) (ids : List NodeId) (noted : Nat) (s' : Session) : Prop where
  numbered : Numbered s.machine.nextId s'.machine.nextId ids
  older : ∀ id, id < s.machine.nextId → s'.machine.distances[id]? = s.machine.distances[id]?
  fresh : s'.Fresh
  localCount : s'.localCount = s.localCount + noted

variable {s s' : Session} {source : String}

/-- Nothing was read or noted, and ids were at most taken. -/
theorem Grows.of_sameTable (hfresh : s.Fresh) (h : s.machine.SameTable s'.machine) :
    s.Grows [] 0 s' where
  numbered := .nil h.2
  older id _ := by rw [h.1]
  fresh id hid := by
    rw [h.1]
    exact hfresh id (Nat.le_trans h.2 hid)
  localCount := congrArg Std.TreeMap.size h.1

/-- Actions one behind the other read the ids of both, and note the local names of both. -/
theorem Grows.trans {s₁ s₂ s₃ : Session} {ids ids' : List NodeId} {noted noted' : Nat}
    (h : s₁.Grows ids noted s₂) (h' : s₂.Grows ids' noted' s₃) :
    s₁.Grows (ids ++ ids') (noted + noted') s₃ where
  numbered := h.numbered.append h'.numbered
  older id hid := (h'.older id (Nat.lt_of_lt_of_le hid h.numbered.le)).trans (h.older id hid)
  fresh := h'.fresh
  localCount := by rw [h'.localCount, h.localCount, Nat.add_assoc]

/-- An entry of the table stays as it is. -/
theorem Grows.kept {ids : List NodeId} {noted : Nat} (hfresh : s.Fresh) (h : s.Grows ids noted s')
    {id : NodeId} {d : Nat} (hd : s.machine.distances[id]? = some d) :
    s'.machine.distances[id]? = some d := by
  have hlt : id < s.machine.nextId := by
    by_contra hge
    rw [hfresh id (Nat.le_of_not_lt hge)] at hd
    cases hd
  rw [h.older id hlt, hd]

/-- What the machine on which a program is executed has in its table. -/
theorem grows_prepared (hfresh : s.Fresh)
    (hresolve : (resolve (s.read source).statements).faults = []) :
    s.Grows (Stmt.idsAll (s.read source).statements) (Stmt.localUses (s.read source).statements)
      { s with machine := s.prepared source } := by
  have hproper : Stmt.AllProper (s.read source).statements :=
    proper_parse (spelled_scan source) s.machine.nextId
  have hids : Numbered s.machine.nextId (s.read source).nextId
      (Stmt.idsAll (s.read source).statements) := numbered_parse _ _
  have henters := enters_resolve hproper hresolve hids hfresh
  exact ⟨hids, henters.older, henters.newer, size_insertMany_resolve hproper hresolve hids hfresh⟩

/-- A run takes the ids that it reads, and notes the local names of what it executes. -/
theorem grows_run (hhost : host.Keeps SameTable) (hfresh : s.Fresh) (fuel : Nat) (source : String) :
    s.Grows (s.idsRead (.run fuel source)) (s.localsNoted (.run fuel source))
      (s.act host (.run fuel source)) := by
  have hids : Numbered s.machine.nextId (s.read source).nextId
      (Stmt.idsAll (s.read source).statements) := numbered_parse _ _
  change s.Grows (Stmt.idsAll (s.read source).statements)
    (if s.Executes source then Stmt.localUses (s.read source).statements else 0)
    (s.run host fuel source).2
  by_cases hexecutes : s.Executes source
  · rw [if_pos hexecutes]
    have hprepared := grows_prepared hfresh hexecutes.2
    have hrun := sameTable_executeProgram hhost fuel (s.read source).statements
      (s.prepared source)
    rw [← Session.machine_run hexecutes] at hrun
    have hgrows := hprepared.trans (.of_sameTable hprepared.fresh hrun)
    rwa [List.append_nil, Nat.add_zero] at hgrows
  · rw [if_neg hexecutes, (Session.run_of_not_executes host fuel hexecutes).2]
    exact ⟨hids, fun _ _ => rfl, fun id hid => hfresh id (Nat.le_trans hids.le hid), rfl⟩

/-- An evaluation takes the ids that it reads, and notes nothing. -/
theorem grows_evaluate (hhost : host.Keeps SameTable) (hfresh : s.Fresh) (fuel : Nat)
    (source : String) : s.Grows (s.idsRead (.evaluate fuel source)) 0
      (s.act host (.evaluate fuel source)) := by
  change s.Grows (Expr.idsOption (s.expression? source)) 0 (s.evaluate host fuel source).2.2
  cases hread : s.expression? source with
  | none =>
    obtain ⟨limit, hle, heq⟩ := Session.evaluate_of_none host fuel hread
    rw [heq]
    exact .of_sameTable hfresh ⟨rfl, hle⟩
  | some e =>
    have hids := numbered_parseExpression (Session.expression?_eq_some.mp hread).2
    have hevaluate := (keepsAt stable_sameTable hhost fuel).evaluate e { s.machine with
      nextId := (parseExpression (tokensOf (scan source)) s.machine.nextId).2 }
    rw [Session.evaluate_of_some host fuel hread]
    refine ⟨hids.widen (Nat.le_refl _) hevaluate.2, fun id _ => ?_, fun id hid => ?_, ?_⟩
    · exact congrArg (·[id]?) hevaluate.1
    · refine (congrArg (·[id]?) hevaluate.1).trans (hfresh id ?_)
      exact Nat.le_trans hids.le (Nat.le_trans hevaluate.2 hid)
    · exact congrArg Std.TreeMap.size hevaluate.1

/-- **What one action does to the ids and the table.** -/
theorem grows_act (hhost : host.Keeps SameTable) (hfresh : s.Fresh) (a : Action) :
    s.Grows (s.idsRead a) (s.localsNoted a) (s.act host a) := by
  cases a with
  | run fuel source => exact grows_run hhost hfresh fuel source
  | evaluate fuel source => exact grows_evaluate hhost hfresh fuel source
  | defineHost name arity entry => exact .of_sameTable hfresh ⟨rfl, Nat.le_refl _⟩

/-- What several actions do to them. -/
theorem grows_actAll (hhost : host.Keeps SameTable) (hfresh : s.Fresh) (actions : List Action) :
    ∃ noted, s.Grows (s.idsReadAll host actions) noted (s.actAll host actions) := by
  induction actions generalizing s with
  | nil => exact ⟨0, .of_sameTable hfresh (stable_sameTable.refl _)⟩
  | cons a rest ih =>
    have hstep := grows_act hhost hfresh a
    obtain ⟨noted, hrest⟩ := ih hstep.fresh
    exact ⟨s.localsNoted a + noted, hstep.trans hrest⟩

theorem fresh_start (recover : Bool) (capacity : Option Nat) : (start recover capacity).Fresh :=
  fun _ _ => Std.TreeMap.getElem?_emptyc

/-- **The table of distances over a session.** All names in all that a session ever reads have ids
of their own. An entry of the table is there for good, as it is. A run that gets past the resolver
adds as many entries as its statements have uses of names that a scope around them declares; no
other action adds any. -/
theorem table_over_session (hhost : host.Keeps SameTable) (recover : Bool) (capacity : Option Nat)
    (before after : List Action) :
    let first := start recover capacity
    let s := first.actAll host before
    (first.idsReadAll host (before ++ after)).Nodup ∧
    (∀ (id : NodeId) (d : Nat), s.machine.distances[id]? = some d →
      (s.actAll host after).machine.distances[id]? = some d) ∧
    ∀ a, (s.act host a).localCount = s.localCount + s.localsNoted a := by
  intro first s
  have hfirst : first.Fresh := fresh_start recover capacity
  obtain ⟨_, hbefore⟩ := grows_actAll hhost hfirst before
  obtain ⟨_, hafter⟩ := grows_actAll hhost hbefore.fresh after
  obtain ⟨_, hall⟩ := grows_actAll hhost hfirst (before ++ after)
  refine ⟨hall.numbered.nodup, fun id d hd => hafter.kept hbefore.fresh hd, fun a => ?_⟩
  exact (grows_act hhost hbefore.fresh a).localCount

/-- A session with the library that recovers from a fault and evaluates in between. -/
theorem table_over_session_recovering :
    let host := Library.host fun _ => 0
    let s := (start true none).actAll host [.run 20 "{ var a; a = a; } )", .evaluate 20 "a"]
    host.Keeps SameTable ∧ s.localCount = 2 ∧
      s.localsNoted (.run 20 "fun f(x) { return x; }") = 1 ∧
      (s.act host (.run 20 "fun f(x) { return x; }")).localCount = 3 := by
  intro host s
  have hkeeps : host.Keeps SameTable := (Library.leavesScopes _).keeps stable_sameTable
  have hbefore : s.localCount = 2 := by decide +kernel
  have hnoted : s.localsNoted (.run 20 "fun f(x) { return x; }") = 1 := by decide +kernel
  have hcount := (table_over_session hkeeps true none
    [.run 20 "{ var a; a = a; } )", .evaluate 20 "a"] []).2.2 (.run 20 "fun f(x) { return x; }")
  refine ⟨hkeeps, hbefore, hnoted, hcount.trans ?_⟩
  change s.localCount + s.localsNoted _ = 3
  rw [hbefore, hnoted]

end Session

end LoxLang
