import Mathlib
import LoxLang.Proofs.Run.Keeping
import LoxLang.Proofs.Run.Session

/-!
# Proofs/Run/Quiet — hosts that write nothing but globals, and the moments of a run

A *quiet* host leaves the scopes alone, and local variables and fields too: its functions look at
values, define globals and evaluate expressions (`QuietStep`), so that local variables and fields
change only by what programs do. The library is quiet (`Library.quiet`).

What such a host evaluates in a call is known from how the call ends (`HostEvaluates`). The calls
that are really made in a run (`Makes`), and those that they make, are its moments
(`Session.During`, `Session.Moment`); among the points of a session there are also those that a host
could have come to, had it gone on otherwise.
-/

namespace LoxLang

open EStateM (Result)

/-! ## Quiet hosts -/

/-- The values that a host function can come by without evaluating anything. -/
inductive Machine.Offers (m : Machine) : Value → Prop
  | constant (c : Constant) : m.Offers c.value
  | host (id : ObjectId) (f : HostFunction) : m.Offers (.host id f)
  | name {r : FrameRef} {x : String} {v : Value} (h : m.store.local? r x = some v) : m.Offers v
  | field {r : InstanceRef} {x : String} {v : Value} (h : m.store.field? r x = some v) : m.Offers v

/-- One step of a host function that writes nothing but globals. -/
inductive QuietStep (evaluate : Expr → Eval Value) : Hand → Machine → Hand → Machine → Prop
  | hold {hand : Hand} {m : Machine} {v : Value} (h : m.Offers v) :
      QuietStep evaluate hand m (hand.hold v) m
  | idle {hand : Hand} {m : Machine} {nextObject : ObjectId} (sink : Sink) (clockReads : Nat)
      (h : m.nextObject ≤ nextObject) :
      QuietStep evaluate hand m hand { m with sink, clockReads, nextObject }
  | takeIds {hand : Hand} {m : Machine} {nextId : NodeId} (h : m.nextId ≤ nextId) :
      QuietStep evaluate hand m (hand.takeIds m.nextId nextId) { m with nextId }
  | defineGlobal {hand : Hand} {m : Machine} {v : Value} (x : String) (h : v ∈ hand.values) :
      QuietStep evaluate hand m hand { m with store := m.store.define m.globals x v }
  | evaluated {hand : Hand} {m m' : Machine} {e : Expr} {v : Value} (howns : hand.Owns e)
      (h : evaluate e m = .ok v m') : QuietStep evaluate hand m (hand.hold v) m'
  /-- A stop of an evaluation does not have to stop the host function. -/
  | caught {hand : Hand} {m m' : Machine} {e : Expr} {stop : Stop} (howns : hand.Owns e)
      (h : evaluate e m = .error stop m') : QuietStep evaluate hand m hand m'

/-- A call of a host function goes on by quiet steps to its end. -/
inductive QuietEnds (evaluate : Expr → Eval Value) :
    Hand → Machine → Result Stop Machine (Except String Value) → Prop
  | gives {hand : Hand} {m : Machine} {v : Value} (hv : v ∈ hand.values) :
      QuietEnds evaluate hand m (.ok (.ok v) m)
  | refuses {hand : Hand} {m : Machine} (message : String) :
      QuietEnds evaluate hand m (.ok (.error message) m)
  | stops {hand : Hand} {m m' : Machine} {e : Expr} {stop : Stop} (howns : hand.Owns e)
      (hstop : evaluate e m = .error stop m') : QuietEnds evaluate hand m (.error stop m')
  | step {hand hand' : Hand} {m m' : Machine} {out : Result Stop Machine (Except String Value)}
      (hstep : QuietStep evaluate hand m hand' m') (hrest : QuietEnds evaluate hand' m' out) :
      QuietEnds evaluate hand m out

/-- **The functions of the host are quiet.** -/
def Host.Quiet (host : Host) : Prop :=
  ∀ entry evaluate arguments m,
    QuietEnds evaluate ⟨arguments, []⟩ m (host entry evaluate arguments m)

section

variable {evaluate : Expr → Eval Value} {hand hand' hand'' : Hand} {m m' m'' : Machine}

theorem HostPath.trans (h : HostPath evaluate hand m hand' m')
    (h' : HostPath evaluate hand' m' hand'' m'') : HostPath evaluate hand m hand'' m'' := by
  induction h' with
  | refl => exact h
  | step _ hstep ih => exact ih.step hstep

/-- What a host function can come by it comes by in one step. -/
theorem Machine.Offers.hostStep {v : Value} (h : m.Offers v) :
    HostStep evaluate hand m (hand.hold v) m := by
  cases h with
  | constant c => exact .constant c
  | host id f => exact .host id f
  | name h => exact .read h
  | field h => exact .readField h

/-- A quiet step is one that leaves the scopes alone, or a few of them. -/
theorem QuietStep.hostPath (h : QuietStep evaluate hand m hand' m') :
    HostPath evaluate hand m hand' m' := by
  cases h with
  | hold h => exact .step .refl h.hostStep
  | idle sink clockReads hle =>
    exact ((HostPath.refl.step (.print sink)).step (.clock clockReads)).step (.takeObjects hle)
  | takeIds hle => exact .step .refl (.takeIds hle)
  | defineGlobal x hv => exact .step .refl (.defineGlobal x hv)
  | evaluated howns h => exact .step .refl (.evaluated howns h)
  | caught howns h => exact .step .refl (.caught howns h)

/-- A quiet host goes on like any host that leaves the scopes alone. -/
theorem QuietEnds.hostEnds {out : Result Stop Machine (Except String Value)}
    (h : QuietEnds evaluate hand m out) : HostEnds evaluate hand m out := by
  induction h with
  | gives hv => exact .gives .refl hv
  | refuses message => exact .refuses .refl message
  | stops howns hstop => exact .stops .refl howns hstop
  | step hstep _ ih =>
    cases ih with
    | gives hpath hv => exact .gives (hstep.hostPath.trans hpath) hv
    | refuses hpath message => exact .refuses (hstep.hostPath.trans hpath) message
    | stops hpath howns hstop => exact .stops (hstep.hostPath.trans hpath) howns hstop

/-- **A quiet host leaves the scopes alone.** -/
theorem Host.Quiet.leavesScopes {host : Host} (h : host.Quiet) : host.LeavesScopes :=
  fun entry evaluate arguments m => (h entry evaluate arguments m).hostEnds

end

namespace Library

variable {evaluate : Expr → Eval Value} {hand : Hand} {m : Machine}

/-- Reading the source takes the ids of its names. -/
theorem quietEnds_evaluateSource (source : String) :
    QuietEnds evaluate hand m (evaluateSource evaluate source m) := by
  have htake := le_parseExpression (tokensOf (scan source)) m.nextId
  rcases hread : parseExpression (tokensOf (scan source)) m.nextId with ⟨_ | e, nextId⟩
  · rw [evaluateSource_of_error hread]
    rw [hread] at htake
    exact .step (.takeIds htake) (.refuses _)
  · have hids := numbered_parseExpression (congrArg Prod.fst hread)
    rw [hread] at htake hids
    have howns : (hand.takeIds m.nextId nextId).Owns e := by
      intro id hid
      obtain ⟨hle, hlt⟩ := hids.bounds id hid
      refine List.mem_append_left _ (List.mem_range'_1.mpr ⟨hle, ?_⟩)
      rwa [Nat.add_sub_cancel' hids.le]
    rw [evaluateSource_of_ok hread]
    refine .step (.takeIds htake) ?_
    cases hvalue : evaluate e { m with nextId } with
    | ok v m' => exact .step (.evaluated howns hvalue) (.gives (.head _))
    | error stop m' =>
      cases stop with
      | fault d => exact .step (.caught howns hvalue) (.refuses d.message)
      | outOfFuel => exact .stops howns hvalue

theorem quietEnds_constant (c : Constant) (m : Machine) :
    QuietEnds evaluate hand m (.ok (.ok c.value) m) :=
  .step (.hold (.constant c)) (.gives (.head _))

/-- **The library is quiet.** -/
theorem quiet (readings : Nat → Float) : (host readings).Quiet := by
  intro entry evaluate arguments m
  unfold host
  split
  · exact .step (.idle m.sink (m.clockReads + 1) (Nat.le_refl _)) (quietEnds_constant (.number _) _)
  · exact quietEnds_constant (.number _) m
  · exact .refuses _
  · exact .refuses _
  · exact quietEnds_constant (.string _) m
  · exact quietEnds_constant (.bool _) m
  · refine .gives ?_
    split <;> simp
  · exact quietEnds_constant (.number _) m
  · next v =>
    refine .step (.hold (.host m.nextObject ⟨v.text m.store, 0, "fail"⟩)) ?_
    refine .step (.defineGlobal (v.text m.store) (.head _)) ?_
    exact .step (.idle m.sink m.clockReads (Nat.le_succ _)) (quietEnds_constant .nil _)
  · next v =>
    have hget : ∀ f : Machine → Eval (Except String Value), (get >>= f) m = f m m := fun _ => rfl
    rw [hget]
    exact quietEnds_evaluateSource (v.text m.store)
  · exact .refuses _

end Library

/-! ## The moments of a run -/

/-- In a call of a host function that ends so, `e` is evaluated on the machine `m₁`. -/
inductive HostEvaluates (evaluate : Expr → Eval Value) (e : Expr) (m₁ : Machine) :
    Hand → Machine → Result Stop Machine (Except String Value) → Prop
  | evaluated {hand : Hand} {m : Machine} {v : Value}
      {out : Result Stop Machine (Except String Value)} (howns : hand.Owns e)
      (h : evaluate e m₁ = .ok v m) (hrest : QuietEnds evaluate (hand.hold v) m out) :
      HostEvaluates evaluate e m₁ hand m₁ out
  | caught {hand : Hand} {m : Machine} {stop : Stop}
      {out : Result Stop Machine (Except String Value)} (howns : hand.Owns e)
      (h : evaluate e m₁ = .error stop m) (hrest : QuietEnds evaluate hand m out) :
      HostEvaluates evaluate e m₁ hand m₁ out
  | stops {hand : Hand} {m : Machine} {stop : Stop} (howns : hand.Owns e)
      (h : evaluate e m₁ = .error stop m) : HostEvaluates evaluate e m₁ hand m₁ (.error stop m)
  | later {hand hand' : Hand} {m m' : Machine} {out : Result Stop Machine (Except String Value)}
      (hstep : QuietStep evaluate hand m hand' m')
      (h : HostEvaluates evaluate e m₁ hand' m' out) : HostEvaluates evaluate e m₁ hand m out

/-- **The calls that a call really makes.** -/
inductive Makes (host : Host) (n : Nat) : Task → Machine → Task → Machine → Prop
  | plain {task task' : Task} {m m' : Machine} (htask : task.isHost = false)
      (h : Calls host n task m task' m') : Makes host n task m task' m'
  | host {id : ObjectId} {f : HostFunction} {line : Nat} {arguments : List Value} {e : Expr}
      {m m' : Machine} (hlength : arguments.length = f.arity)
      (h : HostEvaluates (evaluate host n) e m' ⟨arguments, []⟩ m
        (host f.entry (evaluate host n) arguments m)) :
      Makes host n (.invoke (.host id f) line arguments) m (.evaluate e) m'

/-- The calls that a call makes, those that they make, and so on. -/
inductive Arrives (host : Host) (fuel : Nat) (task : Task) (m : Machine) :
    Nat → Task → Machine → Prop
  | refl : Arrives host fuel task m fuel task m
  | step {n : Nat} {task₁ task₂ : Task} {m₁ m₂ : Machine}
      (h : Arrives host fuel task m (n + 1) task₁ m₁) (hmakes : Makes host n task₁ m₁ task₂ m₂) :
      Arrives host fuel task m n task₂ m₂

/-- A call that is made first. -/
theorem Arrives.after {host : Host} {fuel n : Nat} {task task₁ task₂ : Task}
    {m m₁ m₂ : Machine} (hmakes : Makes host fuel task m task₁ m₁)
    (h : Arrives host fuel task₁ m₁ n task₂ m₂) :
    Arrives host (fuel + 1) task m n task₂ m₂ := by
  induction h with
  | refl => exact .step .refl hmakes
  | step _ hnext ih => exact .step ih hnext

/-- **The calls that are made in an action.** -/
inductive Session.During (host : Host) (s : Session) : Action → Nat → Task → Machine → Prop
  | run {source : String} {fuel n : Nat} {t : Stmt} {task : Task} {m m' : Machine}
      (h : s.Executes source)
      (hreaches : Reaches host fuel (s.read source).statements (s.prepared source) t m)
      (harrives : Arrives host fuel (.execute t) m n task m') :
      During host s (.run fuel source) n task m'
  | evaluate {source : String} {fuel n : Nat} {e : Expr} {task : Task} {m' : Machine}
      (h : s.expression? source = some e)
      (harrives : Arrives host fuel (.evaluate e) (s.reading source) n task m') :
      During host s (.evaluate fuel source) n task m'

/-- **The moments of a session**: the calls that are made while it runs a text as a program, or
evaluates it as an expression. -/
def Session.Moment (host : Host) (s : Session) (source : String) (fuel n : Nat) (task : Task)
    (m : Machine) : Prop :=
  s.During host (.run fuel source) n task m ∨ s.During host (.evaluate fuel source) n task m

end LoxLang
