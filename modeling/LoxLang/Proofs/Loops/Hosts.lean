import Mathlib
import LoxLang.Proofs.Loops.Execution

/-!
# Proofs/Loops/Hosts — the library sees no frames and no distances

The functions of the library do the same on machines that correspond, all but `locals`, which counts
the distances that are recorded. So the library without that function is `Blind`.
-/

namespace LoxLang.Loops

open Machine (Appends steady_appends)

/-- Names that got their ids only now are recorded on neither side. -/
theorem use_of_unrecorded {C : Comparison} {W : World} {e e' : Expr} (h : e.Alike Eq .any e')
    (hids : ∀ id ∈ e.ids, C.leftLimit ≤ id) (hids' : ∀ id ∈ e'.ids, C.rightLimit ≤ id) :
    e.Alike Eq (C.Use W) e' := by
  refine h.of_ids (fun {i j} hi hj => ?_) hids hids'
  rw [Comparison.Use, C.left_fresh i hi, C.right_fresh j hj]
  exact .none

end LoxLang.Loops

namespace LoxLang.Library

open Loops
open Machine (Appends steady_appends)

variable {readings : Nat → Float}

/-! ## Machines that correspond -/

section

variable {p : Pace} {C : Comparison} {W : World} {evaluate evaluate' : Expr → Eval Value}

/-- A text is read alike on both sides, since its names are new on both; only messages of faults
come out. -/
theorem evaluateSource_simulates (hevaluate : Loops.EvaluatesAlike p C evaluate evaluate')
    (source : String) : Simulates p C W (SameResult C) (evaluateSource evaluate source)
      (evaluateSource evaluate' source) := by
  intro m m' hm
  have htokens : List.Forall₂ (Token.Alike Eq) (tokensOf (scan source)) (tokensOf (scan source)) :=
    List.forall₂_same.mpr fun t _ => .refl (fun _ => rfl) t
  have hread := parseExpression_alike (fun _ => rfl) htokens m.nextId m'.nextId
  have htaken := hm.takeIds (le_parseExpression (tokensOf (scan source)) m.nextId)
    (le_parseExpression (tokensOf (scan source)) m'.nextId)
  rcases hleft : parseExpression (tokensOf (scan source)) m.nextId with ⟨out, nextId⟩
  rcases hright : parseExpression (tokensOf (scan source)) m'.nextId with ⟨out', nextId'⟩
  rw [hleft, hright] at hread htaken
  cases hread with
  | error hd =>
    rw [evaluateSource_of_error hleft, evaluateSource_of_error hright, hd.eq]
    exact .ok (.refl W) (.error rfl) htaken
  | @ok e e' he =>
    have hids := numbered_parseExpression (congrArg Prod.fst hleft)
    have hids' := numbered_parseExpression (congrArg Prod.fst hright)
    have hout := hevaluate (use_of_unrecorded he
      (fun id hid => Nat.le_trans hm.leftLimit (hids.bounds id hid).1)
      fun id hid => Nat.le_trans hm.rightLimit (hids'.bounds id hid).1) htaken
    rw [evaluateSource_of_ok hleft, evaluateSource_of_ok hright]
    generalize evaluate e { m with nextId } = out, evaluate' e' { m' with nextId := nextId' } = out'
      at hout
    cases hout with
    | ok hW hv hm => exact .ok hW (.ok hv) hm
    | error stop hW hm =>
      cases stop with
      | outOfFuel => exact .error .outOfFuel hW hm
      | fault d => exact .ok hW (.error rfl) hm
    | leftShort hmore =>
      refine .leftShort ?_
      rcases out' with _ | ⟨_ | _, _⟩ <;> exact hmore
    | rightShort hmore =>
      refine .rightShort ?_
      rcases out with _ | ⟨_ | _, _⟩ <;> exact hmore

/-- What the functions of the library see is the same on machines that correspond, all but the
table. -/
theorem relates_simulates (hevaluate : Loops.EvaluatesAlike p C evaluate evaluate') :
    Relates readings (Same C W) (Simulates p C W (SameResult C)) evaluate evaluate' where
  pure h := .pure h
  constant := .constant
  core_eq := Value.Paired.core_eq
  clock := by
    refine .map (Simulates.modifyGet fun hm => ?_) .ok
    rw [hm.clockReads]
    exact ⟨W, .refl W, .constant (.number _), { hm with clockReads := rfl }⟩
  text {v v'} hv entry hentry := by
    simp only [List.mem_cons, List.not_mem_nil, or_false] at hentry
    rcases hentry with rfl | rfl | rfl
    · refine .get_bind fun hm => ?_
      rw [hm.store.text_eq hv]
      exact .pure (.ok (.constant (.string _)))
    · refine (Simulates.modify fun hm => ?_).andThen fun _ _ => .pure (.ok (.constant .nil))
      rw [hm.store.text_eq hv]
      exact hm.defineHost _ 0 "fail"
    · refine .get_bind fun hm => ?_
      rw [hm.store.text_eq hv]
      exact evaluateSource_simulates hevaluate _

end

/-! ## Output -/

section

variable {evaluate : Expr → Eval Value} (hevaluate : ∀ e, (evaluate e).Keeps Appends)

include hevaluate

/-- Evaluating a text only adds output if evaluation does. -/
theorem keeps_evaluateSource (source : String) :
    (evaluateSource evaluate source).Keeps Appends := by
  intro m
  rcases hread : parseExpression (tokensOf (scan source)) m.nextId with ⟨_ | e, nextId⟩
  · rw [evaluateSource_of_error hread]
    exact steady_appends.refl m
  · have hmore : m.Appends (endOf (evaluate e { m with nextId })) := hevaluate e { m with nextId }
    rw [evaluateSource_of_ok hread]
    generalize evaluate e { m with nextId } = out at hmore
    rcases out with _ | ⟨_ | _, _⟩ <;> exact hmore

/-- The functions of the library add no output of their own. -/
theorem relates_keeps :
    Relates readings Eq (fun x _ => x.Keeps Appends) evaluate evaluate where
  pure _ := .pure steady_appends _
  constant _ := rfl
  core_eq h := congrArg Value.core h
  clock := steady_appends.refl
  text {v _} _ entry hentry := by
    simp only [List.mem_cons, List.not_mem_nil, or_false] at hentry
    rcases hentry with rfl | rfl | rfl
    · exact .get_bind fun m => .pure steady_appends _
    · exact (Eval.Keeps.of_writes steady_appends fun m => ⟨_, _, rfl⟩).bind steady_appends
        fun _ => .pure steady_appends _
    · exact .get_bind fun m => keeps_evaluateSource hevaluate _

end

/-! ## The library without `locals` -/

/-- **The library without `locals` is blind.** -/
theorem blind (readings : Nat → Float) : Blind (withoutLocals readings) where
  code entry _ _ _ _ hevaluate _ _ _ _ _ harguments :=
    (relates_simulates hevaluate).host_entry _ (fun h => absurd h (other_ne_locals entry))
      harguments
  appends entry _ _ hevaluate :=
    (relates_keeps hevaluate).host_entry _ (fun h => absurd h (other_ne_locals entry))
      (List.forall₂_same.mpr fun _ _ => rfl)

end LoxLang.Library
