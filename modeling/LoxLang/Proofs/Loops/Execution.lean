import Mathlib
import LoxLang.Proofs.Loops.Steps

/-!
# Proofs/Loops/Execution — programs with `while` in place of `for` run the same

On machines that correspond, related programs do the same (`simulatesAt`). The comparison is a
coupling (`Comparison.coupling`), so only a loop that is unrolled needs an argument of its own
(`unrolledLoop`), by induction on the fuel of the first program. A round of an unrolled loop takes up to four calls more than the round that it stands
for, so the second program does not run out of fuel first if it has five times the fuel of the
first, and does not outlast the first if it has no more fuel than that (`Pace.Allows`).

The functions of the host have to do the same on machines that correspond (`Blind`): they see
neither the table of distances nor the frames nor the inside of closures.
-/

namespace LoxLang.Loops

open Machine (Appends steady_appends)

/-! ## Fuel -/

/-- The fuel of the two sides at a pace. -/
def Pace.Allows : Pace → Nat → Nat → Prop
  | .even, n, k => n = k
  | .leftShort, n, k => 5 * n ≤ k
  | .rightShort, n, k => k ≤ n

/-- The second side has fuel for `i` calls that the first side does not make, unless it may run
short. -/
def Pace.Spares : Pace → Nat → Nat → Nat → Prop
  | .even, _, _, _ => False
  | .leftShort, n, k, i => 5 * n + i ≤ k
  | .rightShort, n, k, _ => k ≤ n

namespace Pace

variable {p : Pace} {n k i : Nat}

theorem allows_even (n : Nat) : even.Allows n n := rfl

theorem Allows.of_succ (h : p.Allows (n + 1) (k + 1)) : p.Allows n k := by
  cases p <;> simp only [Allows] at h ⊢ <;> omega

/-- With fuel to spare, both sides may go on. -/
theorem Spares.allows (h : p.Spares n k i) : p.Allows n k := by
  cases p with
  | even => exact h.elim
  | leftShort => exact Nat.le_trans (Nat.le_add_right _ _) h
  | rightShort => exact h

theorem Spares.weaken {j : Nat} (h : p.Spares n k i) (hj : j ≤ i) : p.Spares n k j := by
  cases p with
  | even => exact h
  | leftShort => exact Nat.le_trans (Nat.add_le_add_left hj _) h
  | rightShort => exact h

/-- A step that both sides make leaves the second four calls of its own, for the round of an
unrolled loop. -/
theorem Allows.spares (hp : p ≠ .even) (h : p.Allows (n + 1) (k + 1)) : p.Spares n k 4 := by
  cases p with
  | even => exact absurd rfl hp
  | _ => simp only [Allows, Spares] at h ⊢; omega

end Pace

section

variable {p : Pace} {C : Comparison} {W : World} {α β : Type} {values : World → α → β → Prop}
  {x : Eval α}

/-- A call that only the second side makes. -/
theorem Simulates.peel {n k i : Nat} (h : p.Spares n k (i + 1)) {y : Nat → Eval β}
    (hzero : y 0 = MonadExcept.throw .outOfFuel) (hx : x.Keeps Appends)
    (hy : ∀ k, p.Spares n k i → Simulates p C W values x (y (k + 1))) :
    Simulates p C W values x (y k) := by
  cases p with
  | even => exact h.elim
  | leftShort =>
    obtain ⟨j, rfl⟩ : ∃ j, k = j + 1 := ⟨k - 1, by simp only [Pace.Spares] at h; omega⟩
    exact hy j (by simp only [Pace.Spares] at h ⊢; omega)
  | rightShort =>
    cases k with
    | zero =>
      rw [hzero]
      exact .rightShort hx
    | succ j => exact hy j (Nat.le_of_succ_le h)

end

/-! ## Hosts -/

/-- The evaluation of expressions that correspond does the same, in every world. -/
def EvaluatesAlike (p : Pace) (C : Comparison) (evaluate evaluate' : Expr → Eval Value) : Prop :=
  ∀ ⦃W e e'⦄, e.Alike Eq (C.Use W) e' → Simulates p C W (Same C) (evaluate e) (evaluate' e')

/-- Values, or messages, that correspond. -/
abbrev SameResult (C : Comparison) (W : World) : Except String Value → Except String Value → Prop :=
  ExceptRel Eq (Same C W)

/-- A function of the host does the same on machines that correspond. -/
def BlindCode (code : HostCode) : Prop :=
  ∀ ⦃p C evaluate evaluate'⦄, EvaluatesAlike p C evaluate evaluate' →
    (∀ e, (evaluate e).Keeps Appends) → (∀ e, (evaluate' e).Keeps Appends) →
    ∀ ⦃W arguments arguments'⦄, List.Forall₂ (Same C W) arguments arguments' →
    Simulates p C W (SameResult C) (code evaluate arguments) (code evaluate' arguments')

/-- **The functions of the host see no more of a machine than what is the same in machines that
correspond**, and only add output. -/
structure Blind (host : Host) : Prop where
  code : ∀ entry, BlindCode (host entry)
  appends : host.Keeps Appends

/-! ## The evaluators -/

/-- Machines that correspond run side by side, with the fuel of a pace. Statements stand for each
other where the frames do in which they run. -/
def Comparison.coupling (C : Comparison) (p : Pace) : Coupling where
  World := World
  Later := World.Extends
  Runs W values x y := Simulates p C W values x y
  Rest x := x.Keeps Appends
  Allows := p.Allows
  lines := Eq
  Use := C.Use
  Function := SameFunction C
  Method := SameMethod C
  Code W s s' := ∃ mask, W.Stands mask ∧ s.Unrolls C.loops C.Shifted mask s'

section

variable {p : Pace} {C : Comparison} {W : World} {mask : Mask} (hstands : W.Stands mask)

include hstands

theorem code_of_optionUnrolls {o o' : Option Stmt}
    (h : Stmt.OptionUnrolls C.loops C.Shifted mask o o') :
    Option.Rel ((C.coupling p).Code W) o o' := by
  cases h with
  | none => exact .none
  | some h => exact .some ⟨mask, hstands, h⟩

/-- Statements that are related one by one stand for each other one by one. -/
theorem code_of_allUnrolls : ∀ {ss ss' : List Stmt},
    Stmt.AllUnrolls C.loops C.Shifted mask ss ss' → (C.coupling p).AllCode W ss ss'
  | _, _, .nil => .nil
  | _, _, .cons h hss => .cons ⟨mask, hstands, h⟩ (code_of_allUnrolls hss)

end

/-- The steps of both sides correspond. -/
theorem Blind.lawful {host : Host} (hhost : Blind host) (p : Pace) (C : Comparison) :
    (C.coupling p).Lawful host where
  closed := steady_appends.closed
  restHost _ hevaluate entry arguments := hhost.appends entry _ arguments hevaluate
  trans := .trans
  use_mono hW h := .mono hW h
  function_mono hW h := h.mono (.refl C) hW.toGrows
  method_mono hW h := h.mono (.refl C) hW.toGrows
  code_mono hW h := h.imp fun _ h => ⟨h.1.mono hW, h.2⟩
  function_arity h := h.arity_eq
  method_arity h := h.arity_eq
  pure h := .pure h
  bind hx hf hg h := hx.bind hf hg h
  raise hline fault := by
    cases hline
    exact .raise _ fault
  allows := .of_succ
  spent hm := .error .outOfFuel (.refl _) hm
  spentLeft h hy := by
    cases p with
    | even => cases h
    | leftShort => exact .leftShort hy
    | rightShort => exact absurd h (by simp [Comparison.coupling, Pace.Allows])
  spentRight h hx := by
    cases p with
    | even => cases h
    | leftShort => exact absurd h (by simp [Comparison.coupling, Pace.Allows])
    | rightShort => exact .rightShort hx
  lookUp hid ht := by
    cases ht.eq
    exact .lookUp hid _
  assign hid ht hv := by
    cases ht.eq
    exact .assign hid _ hv
  property r ht := by
    cases ht.eq
    exact .property r _
  setField r name hv := .setField r name hv
  newInstance := .newInstance
  bindMethod r hf := .bindMethod hf r
  printValue := .printValue
  inCall hf hvs hx := .inCall hf hvs fun hstands h => hx (code_of_allUnrolls hstands h)
  host entry _ _ _ _ _ hevaluate hl hr hvs := hhost.code entry hevaluate hl hr hvs

/-! ### Loops that are unrolled -/

/-- Without an increment a round is its body. -/
theorem roundBody_none {host : Host} {n : Nat} {s : Stmt} :
    roundBody host n none s = execute host n s := by
  conv_rhs => rw [← bind_pure (execute host n s)]
  unfold roundBody
  congr 1
  funext flow
  cases flow <;> rfl

/-- A list of one statement is executed as the statement, with one call less. -/
theorem executeAll_single {host : Host} {n : Nat} {s : Stmt} :
    executeAll host (n + 2) [s] = execute host (n + 1) s := by
  conv_rhs => rw [← bind_pure (execute host (n + 1) s)]
  rw [executeAll_cons]
  congr 1
  funext flow
  cases flow <;> rfl

/-- The first clause of a loop never returns. -/
theorem executeAll_clause {host : Host} {n : Nat} {i : Stmt} (hi : i.isClause = true)
    (ss : List Stmt) : executeAll host (n + 1) (i :: ss) = (do
      let _ ← execute host n i
      executeAll host n ss) := by
  cases i with
  | exprStmt e =>
    cases n with
    | zero => rfl
    | succ n => simp only [executeAll, execute, bind_assoc, pure_bind]
  | varDecl name e =>
    cases n with
    | zero => rfl
    | succ n => simp only [executeAll, execute, bind_assoc, pure_bind]
  | _ => cases hi

/-- The body of the `while` loop that a loop becomes. -/
abbrev whileBody (s' : Stmt) (b' : Option Expr) : Stmt :=
  .block (s' :: (b'.map Stmt.exprStmt).toList)

/-- A loop, and the `while` loop that it becomes. -/
structure BecomesWhile (C : Comparison) (W : World) (mask : Mask) (a : Option Expr) (c' : Expr)
    (b b' : Option Expr) (s s' : Stmt) : Prop where
  stands : W.Stands mask
  condition : Expr.ConditionAlike (C.Use W) a c'
  increment : Expr.OptionAlike Eq (C.Shifted (false :: mask)) b b'
  body : s.Unrolls C.loops C.Shifted (false :: mask) s'

/-- Loops become `while` loops in every later world too. -/
theorem BecomesWhile.mono {C : Comparison} {W W' : World} {mask : Mask} {a b b' : Option Expr}
    {c' : Expr} {s s' : Stmt} (hW : W.Extends W') (h : BecomesWhile C W mask a c' b b' s s') :
    BecomesWhile C W' mask a c' b b' s s' :=
  ⟨h.stands.mono hW, h.condition.mono (.mono hW), h.increment, h.body⟩

section

variable {p : Pace} {C : Comparison} {host : Host} {n k : Nat} {W : World} {mask : Mask}

/-- The only statement of a block, on the second side. -/
theorem Simulates.single {α : Type} {values : World → α → Flow → Prop} {x : Eval α} {s' : Stmt}
    {i : Nat} (h : p.Spares n k (i + 2)) (hx : x.Keeps Appends)
    (hy : ∀ k, p.Spares n k i → Simulates p C W values x (execute host (k + 1) s')) :
    Simulates p C W values x (executeAll host k [s']) := by
  refine .peel h (y := fun k => executeAll host k [s']) rfl hx fun k h => ?_
  refine .peel h (y := fun k => executeAll host (k + 1) [s']) rfl hx fun k h => ?_
  rw [executeAll_single]
  exact hy k h

variable (L : (C.coupling p).Lawful host)

section

variable (ih : ∀ k, p.Allows n k → (C.coupling p).At host n k)

include L ih

/-- A condition that is left out holds. -/
theorem unrolledCondition {a : Option Expr} {c' : Expr} (hspares : p.Spares n k 1)
    (ha : Expr.ConditionAlike (C.Use W) a c') :
    Simulates p C W (fun _ v v' => v.all Value.isTruthy = v'.all Value.isTruthy)
      (evaluateIfAny host n a) (evaluateIfAny host k (some c')) := by
  cases ha with
  | none =>
    exact .peel hspares (y := fun k => evaluateIfAny host k _) rfl (.pure steady_appends none)
      fun k _ => .pure rfl
  | some he => exact L.condition (ih k hspares.allows) (.some he)

/-- The increment as the last statement of a block. -/
theorem unrolledIncrement {b b' : Option Expr} (hspares : p.Spares n k 2)
    (hb : Expr.OptionAlike Eq (C.Use W) b b') :
    Simulates p C W (SameFlow C) (evaluateIfAny host n b >>= fun _ => pure .normal)
      (executeAll host k (b'.map Stmt.exprStmt).toList) := by
  have hx : (evaluateIfAny host n b >>= fun _ => pure Flow.normal).Keeps Appends :=
    L.closed.bind ((L.restAt n).evaluateIfAny L.closed b) fun _ => L.closed.pure _
  cases hb with
  | none =>
    exact .peel hspares (y := fun k => executeAll host k []) rfl hx fun k _ => .pure .normal
  | some he =>
    refine .single hspares hx fun k h => ?_
    simp only [evaluateIfAny, execute, bind_map_left]
    exact L.andReturn ((ih k h.allows).evaluate he) fun _ _ => .normal

/-- A round, and the block that it becomes. -/
theorem unrolledBody {b b' : Option Expr} {s s' : Stmt} (hspares : p.Spares n k 4)
    (hstands : W.Stands mask) (hb : Expr.OptionAlike Eq (C.Shifted (false :: mask)) b b')
    (hs : s.Unrolls C.loops C.Shifted (false :: mask) s') :
    Simulates p C W (SameFlow C) (roundBody host n b s) (execute host k (whileBody s' b')) := by
  have hl := L.restAt n
  have hx : (roundBody host n b s).Keeps Appends := hl.roundBody L.closed b s
  refine .peel hspares (y := fun k => execute host k _) rfl hx fun k hspares => ?_
  -- The block of the `while` loop has a frame that the `for` loop has not; nothing is declared
  -- there.
  refine .inIdleFrame (lasts_sameFlow C) hstands fun {W'} hstands => ?_
  refine .peel hspares (y := fun k => executeAll host k _) rfl hx fun k hspares => ?_
  rw [executeAll_cons]
  refine L.bind ((ih k hspares.allows).execute ⟨_, hstands, hs⟩)
    (L.closed.unlessReturned (L.closed.bind (hl.evaluateIfAny L.closed b) fun _ => L.closed.pure _))
    (L.closed.unlessReturned ((L.restAt k).executeAll _)) fun hW hflow => ?_
  exact L.unlessReturned (unrolledIncrement L ih hspares
    (hb.mono id fun h => .mono hW (C.use_of_shifted hstands h))) hflow

end

include L

/-- **A loop does the same as the `while` loop that it becomes.** -/
theorem unrolledLoop (hp : p ≠ .even)
    (ih : ∀ i < n, ∀ k, p.Allows i k → (C.coupling p).At host i k) (hallows : p.Allows n k)
    {a b b' : Option Expr} {c' : Expr} {s s' : Stmt}
    (h : BecomesWhile C W mask a c' b b' s s') :
    Simulates p C W (SameFlow C) (repeatWhile host n a b s)
      (repeatWhile host k (some c') none (whileBody s' b')) := by
  -- The induction is on the fuel of the `for` loop, which spends one unit on each round. The
  -- `while` loop spends some more on the block around its body; `Spares` says that it has them.
  induction n generalizing W k with
  | zero =>
    exact L.left_zero hallows (y := fun k => repeatWhile host k _ _ _) rfl
      ((L.restAt k).repeatWhile _ _ _)
  | succ n ihn =>
    cases k with
    | zero => exact L.spentRight hallows ((L.restAt (n + 1)).repeatWhile a b s)
    | succ k =>
      have hspares := hallows.spares hp
      have ihAt := ih n (Nat.lt_succ_self n)
      refine L.rounds (unrolledCondition L ihAt (hspares.weaken (by decide)) h.condition)
        (fun hW => ?_) fun hW => ?_
      · rw [roundBody_none]
        exact unrolledBody L ihAt hspares (h.stands.mono hW) h.increment h.body
      · exact ihn (fun i hi => ih i (Nat.lt_succ_of_lt hi)) hallows.of_succ (h.mono hW)

variable (hp : C.loops → p ≠ .even)
  (ih : ∀ i ≤ n, ∀ k, p.Allows i k → (C.coupling p).At host i k)

include hp ih

/-- A loop behind its first clause, and the statements of the block that it becomes. -/
theorem unrolledClause {o o' : Option Stmt} {a b b' : Option Expr} {c' : Expr} {s s' : Stmt}
    (hspares : p.Spares n k 4) (hloops : C.loops) (hclause : ∀ i ∈ o, i.isClause = true)
    (ho : Stmt.OptionUnrolls C.loops C.Shifted mask o o')
    (h : BecomesWhile C W mask a c' b b' s s') :
    Simulates p C W (SameFlow C) (executeIfAny host n o >>= fun _ => repeatWhile host n a b s)
      (executeAll host k (o'.toList ++ [.whileStmt c' (whileBody s' b')])) := by
  have hl := L.restAt n
  have hloop : ∀ {W' k}, W.Extends W' → p.Spares n k 2 → Simulates p C W' (SameFlow C)
      (repeatWhile host n a b s) (executeAll host k [.whileStmt c' (whileBody s' b')]) :=
    fun hW hspares => .single hspares (hl.repeatWhile a b s) fun k hspares =>
      unrolledLoop L (hp hloops) (fun i hi => ih i (Nat.le_of_lt hi)) hspares.allows (h.mono hW)
  cases ho with
  | none => exact hloop (.refl W) (hspares.weaken (by decide))
  | @some _ i i' hi =>
    have hx : (execute host n i >>= fun _ => repeatWhile host n a b s).Keeps Appends :=
      L.closed.bind (hl.execute i) fun _ => hl.repeatWhile a b s
    refine .peel hspares (y := fun k => executeAll host k _) rfl hx fun k hspares => ?_
    -- The first clause is not a `return`, so the rest of the block runs behind it.
    have hi' : i'.isClause = true := hi.isClause_eq ▸ hclause i rfl
    rw [Option.toList_some, List.singleton_append, executeAll_clause hi']
    exact L.bind ((ih n (Nat.le_refl n) k hspares.allows).execute ⟨mask, h.stands, hi⟩)
      (fun _ => hl.repeatWhile a b s) (fun _ => (L.restAt k).executeAll _) fun hW _ =>
        hloop hW (hspares.weaken (by decide))

/-! ### Statements -/

/-- **Related statements do the same**, one case for each form, and one for a loop that is unrolled.
-/
theorem execute_succ (hallows : p.Allows (n + 1) (k + 1)) {s s' : Stmt} (hstands : W.Stands mask)
    (h : s.Unrolls C.loops C.Shifted mask s') :
    Simulates p C W (SameFlow C) (execute host (n + 1) s) (execute host (k + 1) s') := by
  have ihk := ih n (Nat.le_refl n) k hallows.of_succ
  have huse : ∀ {i j}, C.Shifted mask i j → C.Use W i j := C.use_of_shifted hstands
  cases h with
  | exprStmt h => exact L.exprStmt ihk (h.mono id huse)
  | printStmt h => exact L.printStmt ihk (h.mono id huse)
  | varDecl hmask h =>
    exact L.varDecl ihk (h.mono id huse) fun hW hv => .define ((hstands.mono hW).twins hmask) _ hv
  | block h =>
    exact .inNewFrame (lasts_sameFlow C) hstands fun hstands =>
      ihk.executeAll (code_of_allUnrolls hstands h)
  | ifStmt h hs ho =>
    exact L.ifStmt ihk (h.mono id huse) ⟨mask, hstands, hs⟩ (code_of_optionUnrolls hstands ho)
  | whileStmt h hs =>
    exact ihk.repeatWhile (.some (h.mono id huse)) .none ⟨mask, hstands, hs⟩
  | forStmt ho ha hb hs =>
    rw [execute_forStmt, execute_forStmt]
    refine .inNewFrame (lasts_sameFlow C) hstands fun {W'} hstands => ?_
    have huse : ∀ {i j}, C.Shifted (true :: mask) i j → C.Use W' i j := C.use_of_shifted hstands
    exact L.clauses ihk (code_of_optionUnrolls hstands ho) (ha.mono id huse) (hb.mono id huse)
      ⟨_, hstands, hs⟩
  | unrolled hloops hclause ho ha hb hs =>
    rw [execute_forStmt]
    refine .inNewFrame (lasts_sameFlow C) hstands fun hstands => ?_
    exact unrolledClause L hp ih (hallows.spares (hp hloops)) hloops hclause ho
      ⟨hstands, ha.mono (C.use_of_shifted hstands), hb, hs⟩
  | returnStmt h => exact L.returnStmt ihk _ _ (h.mono id huse)
  | funDecl hmask h =>
    exact (Simulates.declareFunction hstands hmask h).andThen fun _ _ => .pure .normal
  | classDecl hmask h =>
    exact (Simulates.declareClass hstands hmask _ h).andThen fun _ _ => .pure .normal

end

/-- **On machines that correspond every evaluator does the same**, as far as the fuel allows. -/
theorem simulatesAt {p : Pace} {C : Comparison} {host : Host} (hhost : Blind host)
    (hp : C.loops → p ≠ .even) (n k : Nat) (hallows : p.Allows n k) :
    (C.coupling p).At host n k := by
  have L := hhost.lawful p C
  exact L.at_of_execute (fun hallows ih _ _ _ ⟨_, hstands, h⟩ =>
    execute_succ L hp ih hallows hstands h) n k hallows

section

variable {p : Pace} {C : Comparison} {W : World} {host : Host} (hhost : Blind host)
  (hp : C.loops → p ≠ .even) {n k : Nat} (hallows : p.Allows n k)

include hhost hp hallows

/-- **Expressions that correspond have values that do.** -/
theorem evaluate_simulates {e e' : Expr} (h : e.Alike Eq (C.Use W) e') :
    Simulates p C W (Same C) (evaluate host n e) (evaluate host k e') :=
  (simulatesAt hhost hp n k hallows).evaluate h

/-- **Related statements do the same on machines that correspond.** -/
theorem execute_simulates {mask : Mask} (hstands : W.Stands mask) {s s' : Stmt}
    (h : s.Unrolls C.loops C.Shifted mask s') :
    Simulates p C W (SameFlow C) (execute host n s) (execute host k s') :=
  (simulatesAt hhost hp n k hallows).execute ⟨mask, hstands, h⟩

end

/-! ## Programs -/

/-- A program only adds output if its statements do. -/
theorem keeps_executeProgram {host : Host} {n : Nat} (h : ∀ s, (execute host n s).Keeps Appends) :
    ∀ ss : List Stmt, (executeProgram host n ss).Keeps Appends := by
  intro ss
  induction ss with
  | nil => exact .pure steady_appends ()
  | cons s ss ih =>
    intro m
    rw [executeProgram_cons]
    cases hout : execute host n s m with
    | ok flow m' => exact steady_appends.trans ((h s).of_ok hout) (ih m')
    | error stop m' =>
      have hmore : m.Appends m' := (h s).of_error hout
      exact hmore

/-- A machine at the top is there after a fault as well. -/
theorem Related.atTop {C : Comparison} {W : World} {m m' : Machine} (h : Related C W m m')
    (htop : W.AtTop) :
    Related C W { m with scope := m.globals } { m' with scope := m'.globals } :=
  { h with
    leftScope := h.leftGlobals.trans htop.left.symm
    rightScope := h.rightGlobals.trans htop.right.symm }

/-- **Related programs do the same on machines that correspond.** -/
theorem executeProgram_simulates {p : Pace} {C : Comparison} {host : Host} (hhost : Blind host)
    (hp : C.loops → p ≠ .even) {n k : Nat} (hallows : p.Allows n k) :
    ∀ {W : World} {ss ss' : List Stmt}, W.AtTop → Stmt.AllUnrolls C.loops C.Shifted [] ss ss' →
    Simulates p C W (fun _ => Eq) (executeProgram host n ss) (executeProgram host k ss')
  | _, _, _, _, .nil => .pure rfl
  | W, s :: ss, s' :: ss', htop, .cons h hss => by
    intro m m' hm
    have hkeeps : ∀ n, KeepsAt Appends host n := steadyAt steady_appends hhost.appends
    have hout := execute_simulates hhost hp hallows htop.stands h hm
    rw [executeProgram_cons, executeProgram_cons]
    generalize execute host n s m = out, execute host k s' m' = out' at hout
    cases hout with
    | ok hW _ hm =>
      exact (executeProgram_simulates hhost hp hallows (htop.mono hW) hss hm).after hW
    | error stop hW hm => exact .error stop hW (hm.atTop (htop.mono hW))
    | leftShort hmore =>
      refine .leftShort ?_
      cases out' with
      | ok _ m' => exact steady_appends.trans hmore (keeps_executeProgram (hkeeps k).execute ss' m')
      | error stop m' => exact hmore
    | rightShort hmore =>
      refine .rightShort ?_
      cases out with
      | ok _ m => exact steady_appends.trans hmore (keeps_executeProgram (hkeeps n).execute ss m)
      | error stop m => exact hmore

end LoxLang.Loops
