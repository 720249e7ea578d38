import Mathlib
import LoxLang.Proofs.Alike.Tree
import LoxLang.Proofs.Scope.Sites

/-!
# Proofs/Loops/Tree — programs with `while` in place of `for`

    for (init; cond; inc) body  ──▸  { init while (cond) { body inc; } }

`Stmt.desugared` does this to every `for` of a statement, at any depth. The body and the increment
then stand in one more scope, which declares nothing. So a name that is `d` scopes out in the one
program is further out in the other, by the number of such idle scopes on the way: a `Mask` marks
the scopes that both programs have, and `Mask.shift` counts the others in.

Two trees are related (`Stmt.Unrolls`) if the second is the first with any of its `for` loops
written as `while` loops, up to node ids: `uses` says which ids may stand for each other, depending
on the scopes around them.
-/

namespace LoxLang

/-! ## Writing `for` as `while` -/

/-- A `while` loop with the clauses of a `for`. -/
def Stmt.whileBlock (initial : Option Stmt) (condition : Expr) (increment : Option Expr)
    (body : Stmt) : Stmt :=
  .block (initial.toList ++
    [.whileStmt condition (.block (body :: (increment.map Stmt.exprStmt).toList))])

/-- The condition of a loop, which always holds if it is left out. -/
def Expr.conditionOf (condition : Option Expr) : Expr :=
  condition.getD (.constant (.bool true))

mutual

/-- The statement with each `for` in it written as a `while`. -/
def Stmt.desugared : Stmt → Stmt
  | .exprStmt e => .exprStmt e
  | .printStmt e => .printStmt e
  | .varDecl name initial => .varDecl name initial
  | .block body => .block (Stmt.desugaredAll body)
  | .ifStmt condition onTrue onFalse =>
    .ifStmt condition onTrue.desugared (Stmt.desugaredOption onFalse)
  | .whileStmt condition body => .whileStmt condition body.desugared
  | .forStmt initial condition increment body =>
    .whileBlock (Stmt.desugaredOption initial) (.conditionOf condition) increment body.desugared
  | .returnStmt keyword value => .returnStmt keyword value
  | .funDecl routine => .funDecl routine.desugared
  | .classDecl name methods => .classDecl name (Routine.desugaredAll methods)

def Stmt.desugaredAll : List Stmt → List Stmt
  | [] => []
  | s :: ss => s.desugared :: Stmt.desugaredAll ss

def Stmt.desugaredOption : Option Stmt → Option Stmt
  | none => none
  | some s => some s.desugared

def Routine.desugared : Routine → Routine
  | ⟨name, parameters, body⟩ => ⟨name, parameters, Stmt.desugaredAll body⟩

def Routine.desugaredAll : List Routine → List Routine
  | [] => []
  | r :: rs => r.desugared :: Routine.desugaredAll rs

end

/-! ### Node ids -/

/-- The ids of a `for` loop as a `while` loop: those of its clauses, with the increment behind the
body. -/
theorem Stmt.ids_whileBlock (o : Option Stmt) (c : Expr) (b : Option Expr) (s : Stmt) :
    (Stmt.whileBlock o c b s).ids =
      Stmt.idsOption o ++ (c.ids ++ (s.ids ++ Expr.idsOption b)) := by
  cases o <;> cases b <;>
    simp [Stmt.whileBlock, Stmt.ids, Stmt.idsAll, Stmt.idsOption, Expr.idsOption]

theorem Expr.ids_conditionOf (a : Option Expr) : (Expr.conditionOf a).ids = Expr.idsOption a := by
  cases a <;> rfl

mutual

/-- Each use of a name stands in the program with `while` once, if in another place. -/
theorem Stmt.ids_desugared : ∀ s : Stmt, s.desugared.ids.Perm s.ids
  | .exprStmt _ | .printStmt _ | .varDecl _ _ | .returnStmt _ _ => .refl _
  | .block body => Stmt.idsAll_desugaredAll body
  | .ifStmt _ onTrue onFalse =>
    (onTrue.ids_desugared.append (Stmt.idsOption_desugaredOption onFalse)).append_left _
  | .whileStmt _ body => body.ids_desugared.append_left _
  | .forStmt initial condition increment body => by
    rw [Stmt.desugared, Stmt.ids_whileBlock, Expr.ids_conditionOf, Stmt.ids]
    exact (Stmt.idsOption_desugaredOption initial).append
      (((body.ids_desugared.append_right _).trans List.perm_append_comm).append_left _)
  | .funDecl routine => routine.ids_desugared
  | .classDecl _ methods => Routine.idsAll_desugaredAll methods

/-- **Unrolling the loops of a program only moves ids around**: none is lost and none is new. -/
theorem Stmt.idsAll_desugaredAll : ∀ ss : List Stmt,
    (Stmt.idsAll (Stmt.desugaredAll ss)).Perm (Stmt.idsAll ss)
  | [] => .refl _
  | s :: ss => s.ids_desugared.append (Stmt.idsAll_desugaredAll ss)

theorem Stmt.idsOption_desugaredOption : ∀ o : Option Stmt,
    (Stmt.idsOption (Stmt.desugaredOption o)).Perm (Stmt.idsOption o)
  | none => .refl _
  | some s => s.ids_desugared

theorem Routine.ids_desugared : ∀ r : Routine, r.desugared.ids.Perm r.ids
  | ⟨_, _, body⟩ => Stmt.idsAll_desugaredAll body

theorem Routine.idsAll_desugaredAll : ∀ rs : List Routine,
    (Routine.idsAll (Routine.desugaredAll rs)).Perm (Routine.idsAll rs)
  | [] => .refl _
  | r :: rs => r.ids_desugared.append (Routine.idsAll_desugaredAll rs)

end

/-! ## Idle scopes -/

/-- The scopes around a place in the second program, innermost first, up to some scope: `true` for
one that the first program has as well, `false` for one that is idle. All further out are in
both. -/
abbrev Mask := List Bool

/-- The distance in the second program of what is `d` scopes out in the first. -/
def Mask.shift : Mask → Nat → Nat
  | [], d => d
  | true :: _, 0 => 0
  | true :: mask, d + 1 => Mask.shift mask d + 1
  | false :: mask, d => Mask.shift mask d + 1

/-- No scope is idle. -/
def Mask.Straight (mask : Mask) : Prop :=
  ∀ b ∈ mask, b = true

namespace Mask

@[simp] theorem shift_nil (d : Nat) : shift [] d = d := rfl

@[simp] theorem shift_true_succ (mask : Mask) (d : Nat) :
    shift (true :: mask) (d + 1) = shift mask d + 1 := rfl

/-- An idle scope makes everything one step further away. -/
@[simp] theorem shift_false (mask : Mask) (d : Nat) :
    shift (false :: mask) d = shift mask d + 1 := by
  cases d <;> rfl

namespace Straight

variable {mask : Mask}

theorem nil : Straight [] := nofun

theorem cons (h : Straight mask) : Straight (true :: mask) :=
  List.forall_mem_cons.mpr ⟨rfl, h⟩

/-- Where no scope is idle the distances are the same. -/
theorem shift_eq : ∀ {mask : Mask}, Straight mask → ∀ d, mask.shift d = d
  | [], _, _ => rfl
  | true :: _, _, 0 => rfl
  | true :: _, h, d + 1 => congrArg (· + 1) ((shift_eq (List.forall_mem_cons.mp h).2) d)
  | false :: _, h, _ => absurd (h false (.head _)) Bool.false_ne_true

end Straight

end Mask

/-! ## Trees with some loops unrolled -/

/-- A condition, and the condition of the `while` loop that it becomes. -/
inductive Expr.ConditionAlike (uses : Ids) : Option Expr → Expr → Prop
  | none : ConditionAlike uses none (.constant (.bool true))
  | some {e e' : Expr} (h : e.Alike Eq uses e') : ConditionAlike uses (some e) e'

section

variable (loops : Prop) (uses : Mask → Ids)

mutual

/-- The second statement is the first one, with `for` loops in it written as `while` loops as far as
`loops` allows for it. Names are declared in scopes that both have. -/
inductive Stmt.Unrolls : Mask → Stmt → Stmt → Prop
  | exprStmt {mask : Mask} {e e' : Expr} (h : e.Alike Eq (uses mask) e') :
      Stmt.Unrolls mask (.exprStmt e) (.exprStmt e')
  | printStmt {mask : Mask} {e e' : Expr} (h : e.Alike Eq (uses mask) e') :
      Stmt.Unrolls mask (.printStmt e) (.printStmt e')
  | varDecl {mask : Mask} {t : Token} {e e' : Option Expr} (hmask : mask.shift 0 = 0)
      (h : Expr.OptionAlike Eq (uses mask) e e') : Stmt.Unrolls mask (.varDecl t e) (.varDecl t e')
  | block {mask : Mask} {ss ss' : List Stmt} (h : Stmt.AllUnrolls (true :: mask) ss ss') :
      Stmt.Unrolls mask (.block ss) (.block ss')
  | ifStmt {mask : Mask} {e e' : Expr} {s s' : Stmt} {o o' : Option Stmt}
      (h : e.Alike Eq (uses mask) e') (hs : Stmt.Unrolls mask s s')
      (ho : Stmt.OptionUnrolls mask o o') : Stmt.Unrolls mask (.ifStmt e s o) (.ifStmt e' s' o')
  | whileStmt {mask : Mask} {e e' : Expr} {s s' : Stmt} (h : e.Alike Eq (uses mask) e')
      (hs : Stmt.Unrolls mask s s') : Stmt.Unrolls mask (.whileStmt e s) (.whileStmt e' s')
  | forStmt {mask : Mask} {o o' : Option Stmt} {a a' b b' : Option Expr} {s s' : Stmt}
      (ho : Stmt.OptionUnrolls (true :: mask) o o')
      (ha : Expr.OptionAlike Eq (uses (true :: mask)) a a')
      (hb : Expr.OptionAlike Eq (uses (true :: mask)) b b')
      (hs : Stmt.Unrolls (true :: mask) s s') :
      Stmt.Unrolls mask (.forStmt o a b s) (.forStmt o' a' b' s')
  /-- The body and the increment stand in an idle scope. -/
  | unrolled {mask : Mask} {o o' : Option Stmt} {a b b' : Option Expr} {c' : Expr} {s s' : Stmt}
      (hloops : loops) (hclause : ∀ i ∈ o, i.isClause = true)
      (ho : Stmt.OptionUnrolls (true :: mask) o o')
      (ha : Expr.ConditionAlike (uses (true :: mask)) a c')
      (hb : Expr.OptionAlike Eq (uses (false :: true :: mask)) b b')
      (hs : Stmt.Unrolls (false :: true :: mask) s s') :
      Stmt.Unrolls mask (.forStmt o a b s) (.whileBlock o' c' b' s')
  | returnStmt {mask : Mask} {t : Token} {e e' : Option Expr}
      (h : Expr.OptionAlike Eq (uses mask) e e') :
      Stmt.Unrolls mask (.returnStmt t e) (.returnStmt t e')
  | funDecl {mask : Mask} {r r' : Routine} (hmask : mask.shift 0 = 0)
      (h : Routine.Unrolls mask r r') : Stmt.Unrolls mask (.funDecl r) (.funDecl r')
  | classDecl {mask : Mask} {t : Token} {rs rs' : List Routine} (hmask : mask.shift 0 = 0)
      (h : Routine.AllUnrolls (true :: mask) rs rs') :
      Stmt.Unrolls mask (.classDecl t rs) (.classDecl t rs')

inductive Stmt.AllUnrolls : Mask → List Stmt → List Stmt → Prop
  | nil {mask : Mask} : Stmt.AllUnrolls mask [] []
  | cons {mask : Mask} {s s' : Stmt} {ss ss' : List Stmt} (h : Stmt.Unrolls mask s s')
      (hss : Stmt.AllUnrolls mask ss ss') : Stmt.AllUnrolls mask (s :: ss) (s' :: ss')

inductive Stmt.OptionUnrolls : Mask → Option Stmt → Option Stmt → Prop
  | none {mask : Mask} : Stmt.OptionUnrolls mask none none
  | some {mask : Mask} {s s' : Stmt} (h : Stmt.Unrolls mask s s') :
      Stmt.OptionUnrolls mask (some s) (some s')

/-- The same for routines; `mask` is for the scopes around the routine. -/
inductive Routine.Unrolls : Mask → Routine → Routine → Prop
  | mk {mask : Mask} {t : Token} {ps : List Token} {ss ss' : List Stmt}
      (hss : Stmt.AllUnrolls (true :: mask) ss ss') :
      Routine.Unrolls mask ⟨t, ps, ss⟩ ⟨t, ps, ss'⟩

inductive Routine.AllUnrolls : Mask → List Routine → List Routine → Prop
  | nil {mask : Mask} : Routine.AllUnrolls mask [] []
  | cons {mask : Mask} {r r' : Routine} {rs rs' : List Routine} (h : Routine.Unrolls mask r r')
      (hrs : Routine.AllUnrolls mask rs rs') : Routine.AllUnrolls mask (r :: rs) (r' :: rs')

end

end

namespace Routine.Unrolls

variable {loops : Prop} {uses : Mask → Ids} {mask : Mask} {r r' : Routine}

theorem name_eq (h : r.Unrolls loops uses mask r') : r.name = r'.name := by
  cases h
  rfl

theorem parameters_eq (h : r.Unrolls loops uses mask r') : r.parameters = r'.parameters := by
  cases h
  rfl

/-- The body of a routine stands in the scope of its parameters, which both programs have. -/
theorem body (h : r.Unrolls loops uses mask r') :
    Stmt.AllUnrolls loops uses (true :: mask) r.body r'.body := by
  cases h with
  | mk hss => exact hss

end Routine.Unrolls

section

variable {loops loops' : Prop} {uses uses' : Mask → Ids}

/-- Statements that are related declare the same name, or none. -/
theorem Stmt.Unrolls.isDeclaration_eq {mask : Mask} {s s' : Stmt}
    (h : s.Unrolls loops uses mask s') : s.isDeclaration = s'.isDeclaration := by
  cases h <;> rfl

/-- An unrolled loop leaves the same scopes behind as the loop. -/
theorem Stmt.Unrolls.after_eq {mask : Mask} {s s' : Stmt} (h : s.Unrolls loops uses mask s')
    (Γ : Scopes) : s.after Γ = s'.after Γ := by
  cases h with
  | funDecl _ h => simp [Stmt.after, h.name_eq]
  | _ => rfl

/-- Unrolling keeps the names that statements declare. -/
theorem Stmt.Unrolls.declared?_eq {mask : Mask} {s s' : Stmt} (h : s.Unrolls loops uses mask s') :
    s.declared? = s'.declared? := by
  cases h with
  | funDecl _ h => exact congrArg some h.name_eq
  | _ => rfl

theorem Stmt.OptionUnrolls.declared?_eq {mask : Mask} {o o' : Option Stmt}
    (h : Stmt.OptionUnrolls loops uses mask o o') :
    o.bind Stmt.declared? = o'.bind Stmt.declared? := by
  cases h with
  | none => rfl
  | some h => exact h.declared?_eq

theorem Stmt.Unrolls.isClause_eq {mask : Mask} {s s' : Stmt} (h : s.Unrolls loops uses mask s') :
    s.isClause = s'.isClause := by
  cases h <;> rfl

/-! ### More ids that stand for each other -/

/-- Where more ids may stand for each other, more conditions are alike. -/
theorem Expr.ConditionAlike.mono {uses uses' : Ids} (huses : ∀ {i j}, uses i j → uses' i j)
    {a : Option Expr} {c' : Expr} (h : Expr.ConditionAlike uses a c') :
    Expr.ConditionAlike uses' a c' := by
  cases h with
  | none => exact .none
  | some h => exact .some (h.mono id huses)

mutual

/-- Where more ids may stand for each other, and loops may be unrolled, more programs are related.
-/
theorem Stmt.Unrolls.mono (hloops : loops → loops')
    (huses : ∀ {mask i j}, uses mask i j → uses' mask i j) : ∀ {mask : Mask} {s s' : Stmt},
    s.Unrolls loops uses mask s' → s.Unrolls loops' uses' mask s'
  | _, _, _, .exprStmt h => .exprStmt (h.mono id huses)
  | _, _, _, .printStmt h => .printStmt (h.mono id huses)
  | _, _, _, .varDecl hmask h => .varDecl hmask (Expr.OptionAlike.mono id huses h)
  | _, _, _, .block h => .block (h.mono hloops huses)
  | _, _, _, .ifStmt h hs ho =>
    .ifStmt (h.mono id huses) (hs.mono hloops huses) (ho.mono hloops huses)
  | _, _, _, .whileStmt h hs => .whileStmt (h.mono id huses) (hs.mono hloops huses)
  | _, _, _, .forStmt ho ha hb hs =>
    .forStmt (ho.mono hloops huses) (Expr.OptionAlike.mono id huses ha)
      (Expr.OptionAlike.mono id huses hb) (hs.mono hloops huses)
  | _, _, _, .unrolled h hclause ho ha hb hs =>
    .unrolled (hloops h) hclause (ho.mono hloops huses) (ha.mono huses)
      (Expr.OptionAlike.mono id huses hb) (hs.mono hloops huses)
  | _, _, _, .returnStmt h => .returnStmt (Expr.OptionAlike.mono id huses h)
  | _, _, _, .funDecl hmask h => .funDecl hmask (h.mono hloops huses)
  | _, _, _, .classDecl hmask h => .classDecl hmask (h.mono hloops huses)

theorem Stmt.AllUnrolls.mono (hloops : loops → loops')
    (huses : ∀ {mask i j}, uses mask i j → uses' mask i j) : ∀ {mask : Mask} {ss ss' : List Stmt},
    Stmt.AllUnrolls loops uses mask ss ss' → Stmt.AllUnrolls loops' uses' mask ss ss'
  | _, _, _, .nil => .nil
  | _, _, _, .cons h hss => .cons (h.mono hloops huses) (hss.mono hloops huses)

theorem Stmt.OptionUnrolls.mono (hloops : loops → loops')
    (huses : ∀ {mask i j}, uses mask i j → uses' mask i j) :
    ∀ {mask : Mask} {o o' : Option Stmt},
    Stmt.OptionUnrolls loops uses mask o o' → Stmt.OptionUnrolls loops' uses' mask o o'
  | _, _, _, .none => .none
  | _, _, _, .some h => .some (h.mono hloops huses)

theorem Routine.Unrolls.mono (hloops : loops → loops')
    (huses : ∀ {mask i j}, uses mask i j → uses' mask i j) : ∀ {mask : Mask} {r r' : Routine},
    r.Unrolls loops uses mask r' → r.Unrolls loops' uses' mask r'
  | _, _, _, .mk hss => .mk (hss.mono hloops huses)

theorem Routine.AllUnrolls.mono (hloops : loops → loops')
    (huses : ∀ {mask i j}, uses mask i j → uses' mask i j) :
    ∀ {mask : Mask} {rs rs' : List Routine},
    Routine.AllUnrolls loops uses mask rs rs' → Routine.AllUnrolls loops' uses' mask rs rs'
  | _, _, _, .nil => .nil
  | _, _, _, .cons h hrs => .cons (h.mono hloops huses) (hrs.mono hloops huses)

end

/-! ### Trees without unrolled loops -/

mutual

/-- Trees that are alike are related, where no scope is idle. -/
theorem Stmt.Alike.unrolls {same : Ids}
    (huses : ∀ {mask i j}, Mask.Straight mask → same i j → uses mask i j) :
    ∀ {mask : Mask} {s s' : Stmt}, mask.Straight → s.Alike Eq same s' →
    s.Unrolls loops uses mask s'
  | _, _, _, hm, .exprStmt h => .exprStmt (h.mono id (huses hm))
  | _, _, _, hm, .printStmt h => .printStmt (h.mono id (huses hm))
  | _, _, _, hm, .varDecl ht h =>
    ht.eq ▸ .varDecl (hm.shift_eq 0) (Expr.OptionAlike.mono id (huses hm) h)
  | _, _, _, hm, .block h => .block (h.unrolls huses hm.cons)
  | _, _, _, hm, .ifStmt h hs ho =>
    .ifStmt (h.mono id (huses hm)) (hs.unrolls huses hm) (ho.unrolls huses hm)
  | _, _, _, hm, .whileStmt h hs => .whileStmt (h.mono id (huses hm)) (hs.unrolls huses hm)
  | _, _, _, hm, .forStmt ho ha hb hs =>
    .forStmt (ho.unrolls huses hm.cons) (Expr.OptionAlike.mono id (huses hm.cons) ha)
      (Expr.OptionAlike.mono id (huses hm.cons) hb) (hs.unrolls huses hm.cons)
  | _, _, _, hm, .returnStmt ht h =>
    ht.eq ▸ .returnStmt (Expr.OptionAlike.mono id (huses hm) h)
  | _, _, _, hm, .funDecl h => .funDecl (hm.shift_eq 0) (h.unrolls huses hm)
  | _, _, _, hm, .classDecl ht h =>
    ht.eq ▸ .classDecl (hm.shift_eq 0) (h.unrolls huses hm.cons)

/-- Programs that are alike are related with no loop unrolled. -/
theorem Stmt.AllAlike.unrolls {same : Ids}
    (huses : ∀ {mask i j}, Mask.Straight mask → same i j → uses mask i j) :
    ∀ {mask : Mask} {ss ss' : List Stmt}, mask.Straight → Stmt.AllAlike Eq same ss ss' →
    Stmt.AllUnrolls loops uses mask ss ss'
  | _, _, _, _, .nil => .nil
  | _, _, _, hm, .cons h hss => .cons (h.unrolls huses hm) (hss.unrolls huses hm)

theorem Stmt.OptionAlike.unrolls {same : Ids}
    (huses : ∀ {mask i j}, Mask.Straight mask → same i j → uses mask i j) :
    ∀ {mask : Mask} {o o' : Option Stmt}, mask.Straight → Stmt.OptionAlike Eq same o o' →
    Stmt.OptionUnrolls loops uses mask o o'
  | _, _, _, _, .none => .none
  | _, _, _, hm, .some h => .some (h.unrolls huses hm)

theorem Routine.Alike.unrolls {same : Ids}
    (huses : ∀ {mask i j}, Mask.Straight mask → same i j → uses mask i j) :
    ∀ {mask : Mask} {r r' : Routine}, mask.Straight → r.Alike Eq same r' →
    r.Unrolls loops uses mask r'
  | _, _, _, hm, .mk ht hps hss =>
    ht.eq ▸ forall₂_eq Token.Alike.eq hps ▸ .mk (hss.unrolls huses hm.cons)

theorem Routine.AllAlike.unrolls {same : Ids}
    (huses : ∀ {mask i j}, Mask.Straight mask → same i j → uses mask i j) :
    ∀ {mask : Mask} {rs rs' : List Routine}, mask.Straight → Routine.AllAlike Eq same rs rs' →
    Routine.AllUnrolls loops uses mask rs rs'
  | _, _, _, _, .nil => .nil
  | _, _, _, hm, .cons h hrs => .cons (h.unrolls huses hm) (hrs.unrolls huses hm)

end

end

/-! ### Trees with all loops unrolled -/

/-- Any ids may stand for each other, anywhere. -/
def Mask.any : Mask → Ids := fun _ => .any

/-- A list that is alike to a clause and what follows falls apart alike. -/
theorem Stmt.AllAlike.of_toList {uses : Ids} {o : Option Stmt} {ss us : List Stmt}
    (h : Stmt.AllAlike Eq uses (o.toList ++ ss) us) : ∃ o' ss', us = o'.toList ++ ss' ∧
      Stmt.OptionAlike Eq uses o o' ∧ Stmt.AllAlike Eq uses ss ss' := by
  cases o with
  | none => exact ⟨none, us, rfl, .none, h⟩
  | some s =>
    cases h with
    | @cons _ s' _ ss' h hss => exact ⟨some s', ss', rfl, .some h, hss⟩

/-- The increment of a loop, as the last statement of a block. -/
theorem Stmt.AllAlike.of_map_exprStmt {uses : Ids} {b : Option Expr} {us : List Stmt}
    (h : Stmt.AllAlike Eq uses (b.map Stmt.exprStmt).toList us) : ∃ b',
      us = (b'.map Stmt.exprStmt).toList ∧ Expr.OptionAlike Eq uses b b' := by
  cases b with
  | none =>
    cases h
    exact ⟨none, rfl, .none⟩
  | some e =>
    cases h with
    | cons h hnil =>
      cases hnil
      cases h with
      | @exprStmt _ e' h => exact ⟨some e', rfl, .some h⟩

/-- The parts of a block with a `while` loop. -/
theorem Stmt.Alike.of_whileBlock {uses : Ids} {o : Option Stmt} {c : Expr} {b : Option Expr}
    {s u : Stmt} (h : (Stmt.whileBlock o c b s).Alike Eq uses u) :
    ∃ o' c' b' s', u = .whileBlock o' c' b' s' ∧ Stmt.OptionAlike Eq uses o o' ∧
      c.Alike Eq uses c' ∧ Expr.OptionAlike Eq uses b b' ∧ s.Alike Eq uses s' := by
  cases h with
  | block h =>
    obtain ⟨o', _, rfl, ho, hwhile⟩ := h.of_toList
    cases hwhile with
    | cons hwhile hnil =>
      cases hnil
      cases hwhile with
      | whileStmt hc hbody =>
        cases hbody with
        | block hbody =>
          cases hbody with
          | cons hs hincrement =>
            obtain ⟨b', rfl, hb⟩ := hincrement.of_map_exprStmt
            exact ⟨o', _, b', _, rfl, ho, hc, hb, hs⟩

/-- A condition that is left out becomes `true`. -/
theorem Expr.conditionAlike_of_alike : ∀ {a : Option Expr} {c' : Expr},
    (Expr.conditionOf a).Alike Eq .any c' → Expr.ConditionAlike .any a c'
  | none, _, .constant _ => .none
  | some _, _, h => .some h

section

variable {loops : Prop}

mutual

/-- **A statement is related to what it is with `while` in place of `for`**, whatever the ids are
there. -/
theorem Stmt.unrolls_desugared (hloops : loops) : ∀ {mask : Mask} {s s' : Stmt}, s.Shaped →
    (s.isDeclaration = true → mask.shift 0 = 0) → s.desugared.Alike Eq .any s' →
    s.Unrolls loops Mask.any mask s'
  | _, .exprStmt _, _, _, _, .exprStmt h => .exprStmt h
  | _, .printStmt _, _, _, _, .printStmt h => .printStmt h
  | _, .varDecl _ _, _, _, hm, .varDecl ht h => ht.eq ▸ .varDecl (hm rfl) h
  | _, .block _, _, hs, _, .block h => .block (Stmt.allUnrolls_desugared hloops hs rfl h)
  | _, .ifStmt _ _ _, _, ⟨hs, hs'⟩, _, .ifStmt h ht ho =>
    .ifStmt h (Stmt.unrolls_desugared hloops hs.2 (fun hd => nomatch hs.1 ▸ hd) ht)
      (Stmt.optionUnrolls_desugared hloops hs'.2 (fun s hmem hd => nomatch hs'.1 s hmem ▸ hd) ho)
  | _, .whileStmt _ _, _, hs, _, .whileStmt h hbody =>
    .whileStmt h (Stmt.unrolls_desugared hloops hs.2 (fun hd => nomatch hs.1 ▸ hd) hbody)
  | _, .forStmt _ _ _ _, _, hs, _, h => by
    obtain ⟨o', c', b', s', rfl, ho, hc, hb, hbody⟩ := h.of_whileBlock
    exact .unrolled hloops hs.1.1
      (Stmt.optionUnrolls_desugared hloops hs.1.2 (fun _ _ _ => rfl) ho)
      (Expr.conditionAlike_of_alike hc) hb
      (Stmt.unrolls_desugared hloops hs.2.2 (fun hd => nomatch hs.2.1 ▸ hd) hbody)
  | _, .returnStmt _ _, _, _, _, .returnStmt ht h => ht.eq ▸ .returnStmt h
  | _, .funDecl _, _, hs, hm, .funDecl h =>
    .funDecl (hm rfl) (Routine.unrolls_desugared hloops hs h)
  | _, .classDecl _ _, _, hs, hm, .classDecl ht h =>
    ht.eq ▸ .classDecl (hm rfl) (Routine.allUnrolls_desugared hloops hs h)

/-- **A program is related to itself with its loops unrolled**, whatever ids that has. -/
theorem Stmt.allUnrolls_desugared (hloops : loops) : ∀ {mask : Mask} {ss ss' : List Stmt},
    Stmt.AllShaped ss → mask.shift 0 = 0 → Stmt.AllAlike Eq .any (Stmt.desugaredAll ss) ss' →
    Stmt.AllUnrolls loops Mask.any mask ss ss'
  | _, [], _, _, _, .nil => .nil
  | _, _ :: _, _, hs, hm, .cons h hss =>
    .cons (Stmt.unrolls_desugared hloops hs.1 (fun _ => hm) h)
      (Stmt.allUnrolls_desugared hloops hs.2 hm hss)

theorem Stmt.optionUnrolls_desugared (hloops : loops) : ∀ {mask : Mask} {o o' : Option Stmt},
    Stmt.OptionShaped o → (∀ s ∈ o, s.isDeclaration = true → mask.shift 0 = 0) →
    Stmt.OptionAlike Eq .any (Stmt.desugaredOption o) o' →
    Stmt.OptionUnrolls loops Mask.any mask o o'
  | _, none, _, _, _, .none => .none
  | _, some _, _, hs, hm, .some h => .some (Stmt.unrolls_desugared hloops hs (hm _ rfl) h)

theorem Routine.unrolls_desugared (hloops : loops) : ∀ {mask : Mask} {r r' : Routine},
    r.Shaped → r.desugared.Alike Eq .any r' → r.Unrolls loops Mask.any mask r'
  | _, ⟨_, _, _⟩, _, hr, .mk ht hps hss =>
    ht.eq ▸ forall₂_eq Token.Alike.eq hps ▸ .mk (Stmt.allUnrolls_desugared hloops hr rfl hss)

theorem Routine.allUnrolls_desugared (hloops : loops) : ∀ {mask : Mask} {rs rs' : List Routine},
    Routine.AllShaped rs → Routine.AllAlike Eq .any (Routine.desugaredAll rs) rs' →
    Routine.AllUnrolls loops Mask.any mask rs rs'
  | _, [], _, _, .nil => .nil
  | _, _ :: _, _, hrs, .cons h hrest =>
    .cons (Routine.unrolls_desugared hloops hrs.1 h)
      (Routine.allUnrolls_desugared hloops hrs.2 hrest)

end

end

/-! ### Shape -/

section

variable {loops : Prop} {uses : Mask → Ids}

/-- Clauses that declare nothing are related to clauses that declare nothing. -/
theorem Stmt.OptionUnrolls.forall_isDeclaration {mask : Mask} {o o' : Option Stmt}
    (h : Stmt.OptionUnrolls loops uses mask o o') (ho : ∀ s ∈ o, s.isDeclaration = false) :
    ∀ s ∈ o', s.isDeclaration = false := by
  cases h with
  | none => exact nofun
  | some h => simpa [h.isDeclaration_eq] using ho

theorem Stmt.OptionUnrolls.forall_isClause {mask : Mask} {o o' : Option Stmt}
    (h : Stmt.OptionUnrolls loops uses mask o o') (ho : ∀ s ∈ o, s.isClause = true) :
    ∀ s ∈ o', s.isClause = true := by
  cases h with
  | none => exact nofun
  | some h => simpa [h.isClause_eq] using ho

/-- The block that a loop becomes has its statements in the places where statements may stand. -/
theorem Stmt.shaped_whileBlock {o : Option Stmt} {c : Expr} {b : Option Expr} {s : Stmt}
    (ho : Stmt.OptionShaped o) (hs : s.Shaped) : (Stmt.whileBlock o c b s).Shaped := by
  have hbody : Stmt.AllShaped (s :: (b.map Stmt.exprStmt).toList) :=
    ⟨hs, by cases b <;> simp [Stmt.AllShaped, Stmt.Shaped]⟩
  exact Stmt.allShaped_toList_append ho ⟨⟨rfl, hbody⟩, trivial⟩

mutual

/-- Declarations stand where the grammar has them in the second tree as well. -/
theorem Stmt.Unrolls.shaped : ∀ {mask : Mask} {s s' : Stmt}, s.Unrolls loops uses mask s' →
    s.Shaped → s'.Shaped
  | _, _, _, .exprStmt _, _ | _, _, _, .printStmt _, _ | _, _, _, .varDecl _ _, _
  | _, _, _, .returnStmt _, _ => trivial
  | _, _, _, .block h, hs => h.shaped hs
  | _, _, _, .ifStmt _ ht ho, hs =>
    ⟨⟨ht.isDeclaration_eq ▸ hs.1.1, ht.shaped hs.1.2⟩, ho.forall_isDeclaration hs.2.1,
      ho.shaped hs.2.2⟩
  | _, _, _, .whileStmt _ h, hs => ⟨h.isDeclaration_eq ▸ hs.1, h.shaped hs.2⟩
  | _, _, _, .forStmt ho _ _ h, hs =>
    ⟨⟨ho.forall_isClause hs.1.1, ho.shaped hs.1.2⟩, h.isDeclaration_eq ▸ hs.2.1, h.shaped hs.2.2⟩
  | _, _, _, .unrolled _ _ ho _ _ h, hs =>
    Stmt.shaped_whileBlock (ho.shaped hs.1.2) (h.shaped hs.2.2)
  | _, _, _, .funDecl _ h, hs => h.shaped hs
  | _, _, _, .classDecl _ h, hs => h.shaped hs

/-- Unrolling keeps declarations out of places where they may not stand. -/
theorem Stmt.AllUnrolls.shaped : ∀ {mask : Mask} {ss ss' : List Stmt},
    Stmt.AllUnrolls loops uses mask ss ss' → Stmt.AllShaped ss → Stmt.AllShaped ss'
  | _, _, _, .nil, _ => trivial
  | _, _, _, .cons h hss, hs => ⟨h.shaped hs.1, hss.shaped hs.2⟩

theorem Stmt.OptionUnrolls.shaped : ∀ {mask : Mask} {o o' : Option Stmt},
    Stmt.OptionUnrolls loops uses mask o o' → Stmt.OptionShaped o → Stmt.OptionShaped o'
  | _, _, _, .none, _ => trivial
  | _, _, _, .some h, hs => h.shaped hs

theorem Routine.Unrolls.shaped : ∀ {mask : Mask} {r r' : Routine},
    r.Unrolls loops uses mask r' → r.Shaped → r'.Shaped
  | _, _, _, .mk h, hr => h.shaped hr

theorem Routine.AllUnrolls.shaped : ∀ {mask : Mask} {rs rs' : List Routine},
    Routine.AllUnrolls loops uses mask rs rs' → Routine.AllShaped rs → Routine.AllShaped rs'
  | _, _, _, .nil, _ => trivial
  | _, _, _, .cons h hrs, hr => ⟨h.shaped hr.1, hrs.shaped hr.2⟩

end

end

end LoxLang
