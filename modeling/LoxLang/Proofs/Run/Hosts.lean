import Mathlib
import LoxLang.Eval.Basic
import LoxLang.Host.Library
import LoxLang.Proofs.Grammar.Numbering

/-!
# Proofs/Run/Hosts — host functions that leave the scopes alone

A host function is any computation on the machine. What it must not do is change the names that a
frame has, the current frame or the recorded distances, or make a closure of its own. What it may
do is said by single steps (`HostStep`): it looks at values and passes them on, writes to variables
and fields that are there, defines globals, takes node ids, and evaluates expressions in which it
gave every name such an id. The library is such a host (`Library.leavesScopes`).
-/

namespace LoxLang

open EStateM (Result)

/-- What a host function has in hand: values that it was given or found, and node ids that it took
for expressions of its own. -/
structure Hand where
  values : List Value
  ids : List NodeId

namespace Hand

def hold (hand : Hand) (v : Value) : Hand :=
  { hand with values := v :: hand.values }

/-- Takes the ids from `first` up to `limit`. -/
def takeIds (hand : Hand) (first limit : NodeId) : Hand :=
  { hand with ids := List.range' first (limit - first) ++ hand.ids }

/-- All names of the expression have ids that are in hand. -/
def Owns (hand : Hand) (e : Expr) : Prop :=
  ∀ id ∈ e.ids, id ∈ hand.ids

end Hand

/-- One step of a host function that may use `evaluate`. -/
inductive HostStep (evaluate : Expr → Eval Value) : Hand → Machine → Hand → Machine → Prop
  | constant {hand : Hand} {m : Machine} (c : Constant) :
      HostStep evaluate hand m (hand.hold c.value) m
  | host {hand : Hand} {m : Machine} (id : ObjectId) (f : HostFunction) :
      HostStep evaluate hand m (hand.hold (.host id f)) m
  | read {hand : Hand} {m : Machine} {r : FrameRef} {x : String} {v : Value}
      (h : m.store.local? r x = some v) : HostStep evaluate hand m (hand.hold v) m
  | readField {hand : Hand} {m : Machine} {r : InstanceRef} {x : String} {v : Value}
      (h : m.store.field? r x = some v) : HostStep evaluate hand m (hand.hold v) m
  | print {hand : Hand} {m : Machine} (sink : Sink) : HostStep evaluate hand m hand { m with sink }
  | clock {hand : Hand} {m : Machine} (clockReads : Nat) :
      HostStep evaluate hand m hand { m with clockReads }
  | takeObjects {hand : Hand} {m : Machine} {nextObject : ObjectId} (h : m.nextObject ≤ nextObject) :
      HostStep evaluate hand m hand { m with nextObject }
  | takeIds {hand : Hand} {m : Machine} {nextId : NodeId} (h : m.nextId ≤ nextId) :
      HostStep evaluate hand m (hand.takeIds m.nextId nextId) { m with nextId }
  | defineGlobal {hand : Hand} {m : Machine} {v : Value} (x : String) (h : v ∈ hand.values) :
      HostStep evaluate hand m hand { m with store := m.store.define m.globals x v }
  | write {hand : Hand} {m : Machine} {r : FrameRef} {x : String} {u v : Value}
      (hbound : m.store.local? r x = some u) (h : v ∈ hand.values) :
      HostStep evaluate hand m hand { m with store := m.store.define r x v }
  | writeField {hand : Hand} {m : Machine} {v : Value} (r : InstanceRef) (x : String)
      (h : v ∈ hand.values) :
      HostStep evaluate hand m hand { m with store := m.store.setField r x v }
  | evaluated {hand : Hand} {m m' : Machine} {e : Expr} {v : Value} (howns : hand.Owns e)
      (h : evaluate e m = .ok v m') : HostStep evaluate hand m (hand.hold v) m'
  /-- A stop of an evaluation does not have to stop the host function. -/
  | caught {hand : Hand} {m m' : Machine} {e : Expr} {stop : Stop} (howns : hand.Owns e)
      (h : evaluate e m = .error stop m') : HostStep evaluate hand m hand m'

/-- Steps of a host function, one after the other. -/
inductive HostPath (evaluate : Expr → Eval Value) (hand : Hand) (m : Machine) :
    Hand → Machine → Prop
  | refl : HostPath evaluate hand m hand m
  | step {hand₁ hand₂ : Hand} {m₁ m₂ : Machine} (h : HostPath evaluate hand m hand₁ m₁)
      (hstep : HostStep evaluate hand₁ m₁ hand₂ m₂) : HostPath evaluate hand m hand₂ m₂

/-- A call of a host function goes on by steps to its end. -/
inductive HostEnds (evaluate : Expr → Eval Value) (hand : Hand) (m : Machine) :
    Result Stop Machine (Except String Value) → Prop
  | gives {hand' : Hand} {m' : Machine} {v : Value} (h : HostPath evaluate hand m hand' m')
      (hv : v ∈ hand'.values) : HostEnds evaluate hand m (.ok (.ok v) m')
  | refuses {hand' : Hand} {m' : Machine} (h : HostPath evaluate hand m hand' m')
      (message : String) : HostEnds evaluate hand m (.ok (.error message) m')
  | stops {hand' : Hand} {m' m'' : Machine} {e : Expr} {stop : Stop}
      (h : HostPath evaluate hand m hand' m') (howns : hand'.Owns e)
      (hstop : evaluate e m' = .error stop m'') : HostEnds evaluate hand m (.error stop m'')

/-- **The functions of the host leave the scopes alone**: all they do is take such steps. -/
def Host.LeavesScopes (host : Host) : Prop :=
  ∀ entry evaluate arguments m,
    HostEnds evaluate ⟨arguments, []⟩ m (host entry evaluate arguments m)

/-! ## The library -/

namespace Library

variable {evaluate : Expr → Eval Value} {hand : Hand} {m m' : Machine}

/-- A text that cannot be read gives a message, and has taken ids. -/
theorem evaluateSource_of_error {source : String} {d : Diagnostic} {nextId : NodeId}
    (h : parseExpression (tokensOf (scan source)) m.nextId = (.error d, nextId)) :
    evaluateSource evaluate source m = .ok (.error d.message) { m with nextId } := by
  unfold evaluateSource
  change EStateM.bind EStateM.get _ m = _
  simp only [EStateM.bind, EStateM.get, h]
  rfl

/-- A text that can be read is evaluated; only running out of fuel goes through. -/
theorem evaluateSource_of_ok {source : String} {e : Expr} {nextId : NodeId}
    (h : parseExpression (tokensOf (scan source)) m.nextId = (.ok e, nextId)) :
    evaluateSource evaluate source m = match evaluate e { m with nextId } with
      | .ok v m' => .ok (.ok v) m'
      | .error (.fault d) m' => .ok (.error d.message) m'
      | .error .outOfFuel m' => .error .outOfFuel m' := by
  unfold evaluateSource
  change EStateM.bind EStateM.get _ m = _
  simp only [EStateM.bind, EStateM.get, h]
  change EStateM.bind (EStateM.tryCatch (EStateM.bind (evaluate e) _) _) _ { m with nextId } = _
  simp only [EStateM.bind, EStateM.tryCatch]
  cases evaluate e { m with nextId } with
  | ok v m' => rfl
  | error stop m' => cases stop <;> rfl

/-- Reading the source takes the ids of its names. -/
theorem ends_evaluateSource (source : String) :
    HostEnds evaluate hand m (evaluateSource evaluate source m) := by
  have hpath : HostPath evaluate hand m _ _ :=
    .step .refl (.takeIds (le_parseExpression (tokensOf (scan source)) m.nextId))
  rcases hread : parseExpression (tokensOf (scan source)) m.nextId with ⟨_ | e, nextId⟩
  · rw [evaluateSource_of_error hread]
    rw [hread] at hpath
    exact .refuses hpath _
  · have hids := numbered_parseExpression (congrArg Prod.fst hread)
    rw [hread] at hpath hids
    have howns : (hand.takeIds m.nextId nextId).Owns e := by
      intro id hid
      obtain ⟨hle, hlt⟩ := hids.bounds id hid
      refine List.mem_append_left _ (List.mem_range'_1.mpr ⟨hle, ?_⟩)
      rwa [Nat.add_sub_cancel' hids.le]
    rw [evaluateSource_of_ok hread]
    cases hvalue : evaluate e { m with nextId } with
    | ok v m' => exact .gives (hpath.step (.evaluated howns hvalue)) (.head _)
    | error stop m' =>
      cases stop with
      | fault d => exact .refuses (hpath.step (.caught howns hvalue)) d.message
      | outOfFuel => exact .stops hpath howns hvalue

theorem gives_constant (c : Constant) (m : Machine) :
    HostEnds evaluate hand m (.ok (.ok c.value) m) :=
  .gives (.step .refl (.constant c)) (.head _)

/-- **The library leaves the scopes alone.** -/
theorem leavesScopes (readings : Nat → Float) : (host readings).LeavesScopes := by
  intro entry evaluate arguments m
  unfold host
  split
  · exact .gives (.step (.step .refl (.clock _)) (.constant (.number _))) (.head _)
  · exact gives_constant (.number _) m
  · exact .refuses .refl _
  · exact .refuses .refl _
  · exact gives_constant (.string _) m
  · exact gives_constant (.bool _) m
  · refine .gives .refl ?_
    split <;> simp
  · exact gives_constant (.number _) m
  · next v =>
    have hmade : HostPath evaluate ⟨[v], []⟩ m _ m :=
      .step .refl (.host m.nextObject ⟨v.text m.store, 0, "fail"⟩)
    have hdefined := hmade.step (.defineGlobal (v.text m.store) (.head _))
    exact .gives ((hdefined.step (.takeObjects (Nat.le_succ _))).step (.constant .nil)) (.head _)
  · next v =>
    have hget : ∀ f : Machine → Eval (Except String Value), (get >>= f) m = f m m := fun _ => rfl
    rw [hget]
    exact ends_evaluateSource (v.text m.store)
  · exact .refuses .refl _

end Library

end LoxLang
