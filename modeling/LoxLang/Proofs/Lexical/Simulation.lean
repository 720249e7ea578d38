import Mathlib
import LoxLang.Proofs.Lexical.Steps
import LoxLang.Proofs.Run.Calls

/-!
# Proofs/Lexical/Simulation — computations that correspond

A computation of the machine simulates one of the state if from corresponding beginnings the two
come to corresponding ends: the same value or the same stop, and a world that extends the one before
(`Simulates`). Each operation of the machine simulates one of the state.

All but one: an assignment to a variable in the variable's own initial value stops the machine,
while the state goes on. The machine keeps to corresponding states all the same, and that is worth
knowing. So whole computations are followed (`Follows`): the end of the machine corresponds to some
end, and to that of the state as long as nothing of this kind happens.
-/

namespace LoxLang

/-- The computation stopped since a frame that it looked for was not there. -/
def Stop.MissesScope : Stop → Prop
  | .fault (.runtime _ (.scopeMissing _)) => True
  | _ => False

namespace Lexical

open EStateM (Result)

variable {α β γ δ : Type}

/-- Two ends that correspond in a world that extends `W`. -/
inductive Agrees (tidy : Bool) (o : Option FrameRef) (W : World) (Q : World → α → β → Prop) :
    Result Stop Machine α → Result Stop State β → Prop
  | ok {W' : World} {a : α} {b : β} {m : Machine} {s : State} (hW : W.Extends o W')
      (hrel : Related tidy W' m s) (hQ : Q W' a b) : Agrees tidy o W Q (.ok a m) (.ok b s)
  | error {W' : World} {stop : Stop} {m : Machine} {s : State} (hstop : ¬ stop.MissesScope)
      (hW : W.Extends o W') (hrel : Related tidy W' m s) :
      Agrees tidy o W Q (.error stop m) (.error stop s)

/-- **From corresponding beginnings to corresponding ends.** -/
def Simulates (tidy : Bool) (o : Option FrameRef) (W : World) (Q : World → α → β → Prop)
    (x : Eval α) (y : Run β) : Prop :=
  ∀ ⦃m : Machine⦄ ⦃s : State⦄, Related tidy W m s → Agrees tidy o W Q (x m) (y s)

/-- **The machine can be followed**: its end corresponds to some end, which is that of the state if
`exact` holds. -/
def Follows (exact : Prop) (tidy : Bool) (o : Option FrameRef) (W : World)
    (Q : World → α → β → Prop) (x : Eval α) (m : Machine) (y : Run β) (s : State) : Prop :=
  ∃ out, (exact → y s = out) ∧ Agrees tidy o W Q (x m) out

variable {tidy : Bool} {o : Option FrameRef} {W W' : World}

namespace Agrees

variable {Q : World → α → β → Prop} {out : Result Stop Machine α} {out' : Result Stop State β}

/-- Ends that correspond still do where less is asked of them. -/
theorem imp {o' : Option FrameRef} {Q' : World → α → β → Prop} (h : Agrees tidy o W Q out out')
    (hW : ∀ {V}, W.Extends o V → W'.Extends o' V)
    (hQ : ∀ {V a b}, W.Extends o V → Q V a b → Q' V a b) : Agrees tidy o' W' Q' out out' := by
  cases h with
  | ok hV hrel hq => exact .ok (hW hV) hrel (hQ hV hq)
  | error hstop hV hrel => exact .error hstop (hW hV) hrel

/-- Where the machine gets to, a state gets to as well. -/
theorem of_ok (h : Agrees tidy o W Q out out') {m' : Machine} {a : α} (hout : out = .ok a m') :
    ∃ W' s' b, W.Extends o W' ∧ Related tidy W' m' s' ∧ Q W' a b := by
  subst hout
  cases h with
  | ok hW hrel' hq => exact ⟨_, _, _, hW, hrel', hq⟩

/-- A stop of the machine is never for want of a frame, and its machine has a counterpart. -/
theorem of_error (h : Agrees tidy o W Q out out') {m' : Machine} {stop : Stop}
    (hout : out = .error stop m') :
    ¬ stop.MissesScope ∧ ∃ W' s', W.Extends o W' ∧ Related tidy W' m' s' := by
  subst hout
  cases h with
  | error hstop hW hrel' => exact ⟨hstop, _, _, hW, hrel'⟩

end Agrees

namespace Simulates

variable {Q : World → α → β → Prop} {Q' : World → γ → δ → Prop} {x : Eval α} {y : Run β}

theorem pure {a : α} {b : β} (h : Q W a b) :
    Simulates tidy o W Q (Pure.pure a) (Pure.pure b) :=
  fun _ _ hrel => .ok (.refl o W) hrel h

/-- **Simulations compose.** -/
theorem bind {f : α → Eval γ} {g : β → Run δ} (hx : Simulates tidy o W Q x y)
    (hf : ∀ {W' a b}, W.Extends o W' → Q W' a b → Simulates tidy o W' Q' (f a) (g b)) :
    Simulates tidy o W Q' (x >>= f) (y >>= g) := by
  intro m s hrel
  have hagrees := hx hrel
  change Agrees tidy o W Q' (EStateM.bind x f m) (EStateM.bind y g s)
  unfold EStateM.bind
  generalize x m = outm, y s = outs at hagrees
  cases hagrees with
  | ok hW hrel' hq => exact (hf hW hq hrel').imp hW.trans fun _ hq => hq
  | error hstop hW hrel' => exact .error hstop hW hrel'

end Simulates

namespace Follows

variable {exact exact' : Prop} {Q : World → α → β → Prop} {Q' : World → γ → δ → Prop}
  {x : Eval α} {y : Run β} {m : Machine} {s : State}

theorem of_simulates (h : Simulates tidy o W Q x y) (hrel : Related tidy W m s) :
    Follows exact tidy o W Q x m y s :=
  ⟨y s, fun _ => rfl, h hrel⟩

theorem pure {a : α} {b : β} (hrel : Related tidy W m s) (h : Q W a b) :
    Follows exact tidy o W Q (Pure.pure a) m (Pure.pure b) s :=
  of_simulates (.pure h) hrel

/-- A call that is all that another does. -/
theorem mono (h : Follows exact' tidy o W Q x m y s) (hexact : exact → exact') :
    Follows exact tidy o W Q x m y s := by
  obtain ⟨out, hy, hagrees⟩ := h
  exact ⟨out, fun he => hy (hexact he), hagrees⟩

/-- Less may be asked of the values. -/
theorem imp {Q' : World → α → β → Prop} (h : Follows exact tidy o W Q x m y s)
    (hQ : ∀ {W' a b}, W.Extends o W' → Q W' a b → Q' W' a b) :
    Follows exact tidy o W Q' x m y s := by
  obtain ⟨out, hy, hagrees⟩ := h
  exact ⟨out, hy, hagrees.imp id hQ⟩

/-- What leaves all frames alone leaves all but one alone. -/
theorem weaken (h : Follows exact tidy none W Q x m y s) (o : Option FrameRef) :
    Follows exact tidy o W (fun W' a b => W.Extends none W' ∧ Q W' a b) x m y s := by
  obtain ⟨out, hy, hagrees⟩ := h
  exact ⟨out, hy, hagrees.imp (fun hV => hV.weaken o) fun hV hq => ⟨hV, hq⟩⟩

/-- **What can be followed one behind the other can be followed together.** -/
theorem bind {f : α → Eval γ} {g : β → Run δ} (hx : Follows exact' tidy o W Q x m y s)
    (hexact : exact → exact')
    (hf : ∀ {W' a b m' s'}, x m = .ok a m' → W.Extends o W' → Related tidy W' m' s' → Q W' a b →
      Follows exact tidy o W' Q' (f a) m' (g b) s') :
    Follows exact tidy o W Q' (x >>= f) m (y >>= g) s := by
  obtain ⟨out, hy, hagrees⟩ := hx
  change ∃ out, (exact → EStateM.bind y g s = out) ∧ Agrees tidy o W Q' (EStateM.bind x f m) out
  unfold EStateM.bind
  generalize x m = outm at hagrees hf
  cases hagrees with
  | ok hW hrel hq =>
    obtain ⟨out', hy', hagrees'⟩ := hf rfl hW hrel hq
    refine ⟨out', fun he => ?_, hagrees'.imp hW.trans fun _ hq => hq⟩
    rw [hy (hexact he)]
    exact hy' he
  | error hstop hW hrel => exact ⟨_, fun he => by rw [hy (hexact he)], .error hstop hW hrel⟩

theorem map {f : α → γ} {g : β → δ} (hx : Follows exact tidy o W Q x m y s)
    (hf : ∀ {W' a b}, Q W' a b → Q' W' (f a) (g b)) :
    Follows exact tidy o W Q' (f <$> x) m (g <$> y) s := by
  rw [← bind_pure_comp, ← bind_pure_comp]
  exact hx.bind id fun _ _ hrel hq => .pure hrel (hf hq)

theorem discard (hx : Follows exact tidy o W Q x m y s) :
    Follows exact tidy o W (fun _ _ _ => True) (Functor.discard x) m (Functor.discard y) s :=
  hx.map fun _ => trivial

/-- The state's side goes on to say where the next statement stands. -/
theorem andThen {g : β → δ} {Q' : World → α → δ → Prop} (hx : Follows exact tidy o W Q x m y s)
    (hg : ∀ {W' a b}, W.Extends o W' → Q W' a b → Q' W' a (g b)) :
    Follows exact tidy o W Q' x m (y >>= fun b => Pure.pure (g b)) s := by
  rw [← bind_pure x]
  exact hx.bind id fun _ hW hrel hq => .pure hrel (hg hW hq)

/-- Where the machine comes to an end, there is a state that corresponds. -/
theorem of_ok (h : Follows exact tidy o W Q x m y s) {m' : Machine} {a : α}
    (hx : x m = .ok a m') :
    ∃ W' s' b, W.Extends o W' ∧ Related tidy W' m' s' ∧ Q W' a b := by
  obtain ⟨out, -, hagrees⟩ := h
  exact hagrees.of_ok hx

/-- Where the machine stops, there is one too, and no frame was missing. -/
theorem of_error (h : Follows exact tidy o W Q x m y s) {m' : Machine} {stop : Stop}
    (hx : x m = .error stop m') :
    ¬ stop.MissesScope ∧ ∃ W' s', W.Extends o W' ∧ Related tidy W' m' s' := by
  obtain ⟨out, -, hagrees⟩ := h
  exact hagrees.of_error hx

end Follows

/-! ## Faults -/

theorem simulates_outOfFuel {Q : World → α → β → Prop} :
    Simulates tidy o W Q (throw .outOfFuel) (throw .outOfFuel) :=
  fun _ _ hrel => .error not_false (.refl o W) hrel

/-- A fault is raised on both sides, unless it is for want of a frame. -/
theorem simulates_raise {Q : World → α → β → Prop} {line : Nat} {fault : RuntimeFault}
    (h : ¬ (Stop.fault (.runtime line fault)).MissesScope) :
    Simulates tidy o W Q (Eval.raise line fault) (Run.raise line fault) :=
  fun _ _ hrel => .error h (.refl o W) hrel

/-- Whether a store operation or an operator succeeds with corresponding values or fails on both
sides alike. -/
theorem simulates_ofExcept {line : Nat} {e : Except RuntimeFault Value}
    (hok : ∀ {v}, e = .ok v → ∃ c : Constant, v = c.value)
    (herror : ∀ {fault}, e = .error fault → ¬ (Stop.fault (.runtime line fault)).MissesScope) :
    Simulates tidy o W (Same tidy) (Eval.ofExcept line e) (Run.ofExcept line e) := by
  cases e with
  | ok v =>
    obtain ⟨c, rfl⟩ := hok rfl
    exact .pure (.constant c)
  | error fault => exact simulates_raise (herror rfl)

/-- No operator fails for want of a frame. -/
theorem applyUnary_fault {operator : Kind} {v : Value} {line : Nat} {fault : RuntimeFault}
    (h : applyUnary operator v = .error fault) :
    ¬ (Stop.fault (.runtime line fault)).MissesScope := by
  unfold applyUnary at h
  split at h
  · split at h <;> cases h
    exact not_false
  · cases h
  · cases h
    exact not_false

theorem applyBinary_fault {operator : Kind} {v u : Value} {line : Nat} {fault : RuntimeFault}
    (h : applyBinary operator v u = .error fault) :
    ¬ (Stop.fault (.runtime line fault)).MissesScope := by
  have honNumbers : ∀ {f : Float → Float → Value}, v.onNumbers f u = .error fault →
      ¬ (Stop.fault (.runtime line fault)).MissesScope := by
    intro f h
    unfold Value.onNumbers at h
    split at h <;> cases h
    exact not_false
  unfold applyBinary at h
  split at h
  case h_1 =>
    unfold add at h
    split at h <;> cases h
    exact not_false
  case h_4 =>
    unfold divide at h
    split at h
    · split at h <;> cases h
      exact not_false
    · cases h
      exact not_false
  case h_11 =>
    cases h
    exact not_false
  all_goals first | exact honNumbers h | cases h

/-- An operator gives corresponding values for corresponding operands. -/
theorem simulates_applyUnary {v v' : Value} (hv : Same tidy W v v') (operator : Token) :
    Simulates tidy o W (Same tidy) (Eval.ofExcept operator.line (applyUnary operator.kind v))
      (Run.ofExcept operator.line (applyUnary operator.kind v')) := by
  rw [hv.applyUnary_eq]
  exact simulates_ofExcept applyUnary_constant applyUnary_fault

theorem simulates_applyBinary {v v' u u' : Value} (hv : Same tidy W v v') (hu : Same tidy W u u')
    (operator : Token) :
    Simulates tidy o W (Same tidy) (Eval.ofExcept operator.line (applyBinary operator.kind v u))
      (Run.ofExcept operator.line (applyBinary operator.kind v' u')) := by
  rw [hv.applyBinary_eq hu]
  exact simulates_ofExcept applyBinary_constant applyBinary_fault

/-! ## Names -/

/-- An expression stands in the scopes `Γ`, where `names` are known. A pending variable is not in
the current frame yet. -/
structure Sees (W : World) (Γ : Scopes) (own : Option String) (names : Names) : Prop where
  frames : Scoped W Γ W.scope names
  pending : ∀ x ∈ own, (W.scope < W.size ∧ W.scope ≠ W.globals) ∧ W.loc W.scope x = none

section Names

variable {Γ : Scopes} {own : Option String} {names : Names} {id : NodeId} {name : Token}

/-- What an expression sees it sees in every later world. -/
theorem Sees.mono (hW : W.Extends none W') (h : Sees W Γ own names) : Sees W' Γ own names where
  frames := hW.scope.symm ▸ h.frames.mono hW.toGrows
  pending x hx := by
    obtain ⟨⟨hlt, hne⟩, hfree⟩ := h.pending x hx
    refine ⟨⟨?_, ?_⟩, ?_⟩
    · exact hW.scope.symm ▸ Nat.lt_of_lt_of_le hlt hW.size
    · exact hW.scope.symm ▸ hW.globals.symm ▸ hne
    · rw [hW.scope, hW.closed W.scope hlt nofun]
      exact hfree

/-- An expression without local names can stand anywhere. -/
theorem Sees.global (W : World) : Sees W [] none [] :=
  ⟨.nil W W.scope, fun _ h => (Option.not_mem_none _ h).elim⟩

/-- **At its recorded distance a use of a name finds it.** -/
theorem Sees.found (hsees : Sees W Γ own names)
    (hfits : own ≠ some name.lexeme ∧ W.Records id (Γ.seen own name.lexeme)) {m : Machine}
    {s : State} (hrel : Related tidy W m s) {n : Nat} (hn : W.distance id = some n) :
    ∃ r l v v', m.store.up? n W.scope = some r ∧ m.store.local? r name.lexeme = some v ∧
      names.lookup name.lexeme = some l ∧ s.cells[l]? = some v' ∧ Same tidy W v v' := by
  rw [hfits.2.2, Scopes.seen_of_ne hfits.1] at hn
  obtain ⟨r, l, hclimb, hloc, hlookup⟩ := hsees.frames.found hn
  obtain ⟨v, v', hlocal, hcell, hsame⟩ := hrel.local_some hloc
  exact ⟨r, l, v, v', hrel.up? hclimb, hlocal, hlookup, hcell, hsame⟩

/-- The frames that a use of a name reads from. -/
theorem lookUp_eq {m : Machine} {s : State} (hrel : Related tidy W m s) {d : Option Nat}
    (hdist : W.distance id = d) :
    Eval.lookUp id name m = Eval.ofExcept name.line (match d with
      | some n => m.store.getAt W.scope n name.lexeme
      | none => m.store.get W.globals name.lexeme) m := by
  rw [← hdist, ← hrel.distances id, ← hrel.scope, ← hrel.globals]
  rfl

/-- The value that the names around a use give it. -/
theorem run_lookUp_eq (names : Names) (name : Token) (s : State) :
    Run.lookUp names name s = (match s.value? names name.lexeme with
      | some v => pure v
      | none => Run.raise name.line (.undefinedVariable name.lexeme) : Run Value) s :=
  rfl

/-- **A use of a name finds the same value at its distance and in the names.** -/
theorem simulates_lookUp (hsees : Sees W Γ own names)
    (hfits : own ≠ some name.lexeme ∧ W.Records id (Γ.seen own name.lexeme)) :
    Simulates tidy o W (Same tidy) (Eval.lookUp id name) (Run.lookUp names name) := by
  intro m s hrel
  rw [lookUp_eq hrel rfl, run_lookUp_eq, State.value?]
  cases hd : W.distance id with
  | none =>
    rw [hfits.2.2, Scopes.seen_of_ne hfits.1] at hd
    rw [hsees.frames.unknown hd]
    simp only [hrel.get_globals]
    have hglobal := hrel.globalNames name.lexeme
    generalize m.store.local? W.globals name.lexeme = v, s.globals[name.lexeme]? = v' at hglobal
    cases hglobal with
    | none => exact .error not_false (.refl o W) hrel
    | some hsame => exact .ok (.refl o W) hrel hsame
  | some n =>
    obtain ⟨r, l, v, v', hup, hlocal, hlookup, hcell, hsame⟩ := hsees.found hfits hrel hd
    simp only [hlookup, hcell, Store.getAt_eq_ok _ _ _ _ hup hlocal]
    exact .ok (.refl o W) hrel hsame

/-- The frame that a use of a name writes to. -/
theorem assign_eq {m : Machine} {s : State} (hrel : Related tidy W m s) {d : Option Nat}
    (hdist : W.distance id = d) (v : Value) :
    Eval.assign id name v m = (Eval.ofExcept name.line (match d with
      | some n => m.store.locateAt W.scope n name.lexeme
      | none => m.store.locate W.globals name.lexeme) >>= fun holder =>
        Eval.bindIn holder name.lexeme v) m := by
  rw [← hdist, ← hrel.distances id, ← hrel.scope, ← hrel.globals]
  rfl

/-- An assignment writes the same variable on both sides. -/
theorem simulates_assign (hsees : Sees W Γ own names) (hown : own ≠ some name.lexeme)
    (hrecords : W.Records id (Γ.seen own name.lexeme)) {v v' : Value} (hv : Same tidy W v v') :
    Simulates tidy o W (fun _ _ _ => True) (Eval.assign id name v) (Run.assign names name v') := by
  intro m s hrel
  have hdist : W.distance id = Γ.distance? name.lexeme := by
    rw [hrecords.2, Scopes.seen_of_ne hown]
  have hstate : Run.assign names name v' s =
      if (s.value? names name.lexeme).isSome then .ok () (s.write names name.lexeme v')
      else .error (.fault (.runtime name.line (.undefinedVariable name.lexeme))) s := by
    unfold Run.assign
    change (if (s.value? names name.lexeme).isSome then _ else _ : Run Unit) s = _
    split <;> rfl
  rw [assign_eq hrel hdist, hstate]
  cases hd : Γ.distance? name.lexeme with
  | none =>
    have hlookup := hsees.frames.unknown hd
    simp only [State.value?, State.write, hlookup, hrel.locate_globals]
    have hglobal := hrel.globalNames name.lexeme
    generalize m.store.local? W.globals name.lexeme = u, s.globals[name.lexeme]? = u' at hglobal
    cases hglobal with
    | none => exact .error not_false (.refl o W) hrel
    | some _ => exact .ok (.refl o W) (hrel.writeGlobal name.lexeme hv) trivial
  | some n =>
    obtain ⟨r, l, hclimb, hloc, hlookup⟩ := hsees.frames.found hd
    obtain ⟨u, u', hlocal, hcell, -⟩ := hrel.local_some hloc
    simp only [State.value?, State.write, hlookup, hcell,
      Store.locateAt_eq_ok _ _ _ _ (hrel.up? hclimb) hlocal]
    exact .ok (.refl o W) (hrel.writeLocal hloc hv) trivial

/-- **An assignment to the pending variable finds the frame, but not the variable.** -/
theorem assign_pending (hsees : Sees W Γ (some name.lexeme) names)
    (hrecords : W.Records id (Γ.seen (some name.lexeme) name.lexeme)) {m : Machine} {s : State}
    (hrel : Related tidy W m s) (v : Value) :
    m.distances[id]? = some 0 ∧ Eval.assign id name v m =
      .error (.fault (.runtime name.line (.undefinedVariable name.lexeme))) m := by
  obtain ⟨⟨-, hscope⟩, hfree⟩ := hsees.pending _ rfl
  have hdist : W.distance id = some 0 := by
    rw [hrecords.2, Scopes.seen, if_pos rfl]
  have hup : m.store.up? 0 W.scope = some W.scope := rfl
  refine ⟨(hrel.distances id).trans hdist, ?_⟩
  rw [assign_eq hrel hdist]
  simp only [Store.locateAt_eq_error _ _ _ hup (hrel.local_none hscope hfree)]
  rfl

end Names

/-! ## Objects and output -/

/-- Both sides count objects alike. -/
theorem simulates_freshObject :
    Simulates tidy o W (fun W' a b => W' = W ∧ b = a) Eval.freshObject Run.freshObject :=
  fun _ _ hrel => .ok (.refl o W)
    { hrel with nextObject := congrArg (· + 1) hrel.nextObject } ⟨rfl, hrel.nextObject.symm⟩

/-- Both sides print the same. -/
theorem simulates_printLine (line : String) :
    Simulates tidy o W (fun W' _ _ => W' = W) (Eval.printLine line) (Run.printLine line) := by
  intro m s hrel
  have hrel' : Related tidy W { m with sink := m.sink.write (line ++ "\n").toUTF8 }
      { s with sink := s.sink.write (line ++ "\n").toUTF8 } :=
    { hrel with sink := congrArg (Sink.write · _) hrel.sink }
  simp only [Eval.printLine, Run.printLine, ← hrel.sink] at hrel' ⊢
  split
  · exact .ok (.refl o W) hrel' rfl
  · exact .error not_false (.refl o W) hrel'

/-- What is done with the machine and with the state themselves. -/
theorem simulates_get {Q : World → α → β → Prop} {f : Machine → Eval α} {g : State → Run β}
    (h : ∀ {m s}, Related tidy W m s → Agrees tidy o W Q (f m m) (g s s)) :
    Simulates tidy o W Q (get >>= f) (get >>= g) :=
  fun _ _ hrel => h hrel

/-- Both sides make an instance at the same place. -/
theorem simulates_newInstance {c c' : Class} (hc : SameClass tidy W c c') :
    Simulates tidy o W (fun _ a b => b = a) (Eval.newInstance c) (Run.newInstance c') :=
  fun _ _ hrel => .ok (.refl o W) (hrel.newInstance hc).1 (hrel.newInstance hc).2.symm

/-- Both sides write the same field. -/
theorem simulates_setField (r : InstanceRef) (x : String) {v v' : Value} (hv : Same tidy W v v') :
    Simulates tidy o W (fun _ _ _ => True)
      (modify fun m => { m with store := m.store.setField r x v } : Eval Unit)
      (Run.setField r x v') :=
  fun _ _ hrel => .ok (.refl o W) (hrel.setField r x hv) trivial

/-- A method that is bound to an instance knows it in both. -/
theorem simulates_bindMethod {f f' : Closure} (hf : SameMethod tidy W f f') (r : InstanceRef) :
    Simulates tidy none W
      (fun W' g g' => SameFunction tidy W' g g' ∧ g.routine = f.routine)
      (Eval.bindMethod f r) (Run.bindMethod f' r) := by
  obtain ⟨Γ, ⟨hroutine, hinit, names, hkept, hscoped⟩, hfits⟩ := hf
  intro m s hrel
  have hsize := hrel.shape.size
  have hnames := hrel.getD_kept hkept
  -- the new frame, its name, and what the bound method keeps
  have hrel₁ := hrel.push f.scope
  have hfree : (W.push f.scope).loc W.size thisName = none := by
    by_contra hsome
    obtain ⟨l, hl⟩ := Option.ne_none_iff_exists'.mp hsome
    exact Nat.lt_irrefl _ (hrel.located.bounds hl).1.1
  have hframe : W.size < (W.push f.scope).size ∧ W.size ≠ (W.push f.scope).globals :=
    ⟨Nat.lt_succ_self _, (Nat.ne_of_lt hrel.shape.inside).symm⟩
  have hrel₂ := hrel₁.bind hframe hfree (.object r)
  have hrel₃ := hrel₂.keep ((thisName, s.cells.size) :: names)
  have hW₂ : W.Extends none ((W.push f.scope).bind W.size thisName s.cells.size) :=
    (World.extends_push none W f.scope).fresh (Nat.le_refl _) (World.extends_bind hfree _)
  have hunkept : ((W.push f.scope).bind W.size thisName s.cells.size).kept s.kept.size = none := by
    rw [← hrel₂.kept]
    exact Array.getElem?_eq_none (Nat.le_refl _)
  have hW₃ := World.extends_keep none hunkept ((thisName, s.cells.size) :: names)
  have hstate : Run.bindMethod f' r s = .ok { f' with scope := s.kept.size }
      { s with cells := s.cells.push (.object r)
               kept := s.kept.push ((thisName, s.cells.size) :: names) } := by
    rw [← hnames]
    rfl
  have hmachine : Eval.bindMethod f r m = .ok { f with scope := W.size } { m with
      store := (m.store.newFrame ∅ (some f.scope)).2.define W.size thisName (.object r) } := by
    rw [← hsize, ← Store.newFrame_insert]
    rfl
  rw [hstate, hmachine]
  refine .ok (hW₂.trans hW₃) hrel₃ ⟨⟨[thisName] :: Γ, ⟨hroutine, hinit, _, if_pos rfl, ?_⟩,
    hfits.mono (hW₂.trans hW₃).records, fun _ => ⟨Γ, rfl⟩⟩, rfl⟩
  exact ((hscoped.push hrel.shape.inside).declare hfree _).mono hW₃.toGrows

/-- A property is the same field or the same method. -/
theorem simulates_property (r : InstanceRef) (name : Token) :
    Simulates tidy none W (Same tidy) (Eval.property r name) (Run.property r name) := by
  refine simulates_get fun {m s} hrel => ?_
  have hfield := hrel.field? r name.lexeme
  have hmethod := hrel.method? r name.lexeme
  generalize m.store.field? r name.lexeme = u, s.heap.field? r name.lexeme = u' at hfield
  generalize m.store.method? r name.lexeme = f, s.heap.method? r name.lexeme = f' at hmethod
  cases hfield with
  | some hsame => exact Simulates.pure (o := none) (Q := Same tidy) hsame hrel
  | none =>
    cases hmethod with
    | none =>
      have hraise : Simulates tidy none W (Same tidy)
          (Eval.raise name.line (.undefinedProperty name.lexeme))
          (Run.raise name.line (.undefinedProperty name.lexeme)) := simulates_raise not_false
      exact hraise hrel
    | some hf =>
      refine ((simulates_bindMethod hf r).bind fun _ hbound => ?_) hrel
      refine simulates_freshObject.bind ?_
      rintro _ _ id _ ⟨rfl, rfl⟩
      exact .pure (.function id hbound.1)

/-! ## Calls -/

/-- Two ways in which a statement may end alike. -/
abbrev SameFlow (tidy : Bool) (W : World) : Flow → Flow → Prop :=
  Flow.Paired (Same tidy W)

theorem SameFlow.mono (hW : W.Grows W') {flow flow' : Flow} (h : SameFlow tidy W flow flow') :
    SameFlow tidy W' flow flow' :=
  h.imp (Same.mono hW)

/-- An initializer finds its instance, whatever its body did. -/
theorem simulates_callResult {f f' : Closure} (hf : SameFunction tidy W f f') {flow flow' : Flow}
    (hflow : SameFlow tidy W flow flow') :
    Simulates tidy o W (Same tidy) (Eval.callResult f flow) (Run.callResult f' flow') := by
  obtain ⟨Γ, ⟨hroutine, hinit, names, hkept, hscoped⟩, -, hthis⟩ := hf
  unfold Eval.callResult Run.callResult
  rw [hinit, hroutine]
  cases hi : f.isInitializer with
  | false =>
    cases hflow with
    | normal => exact .pure (.constant .nil)
    | returned h => exact .pure h
  | true =>
    obtain ⟨outer, rfl⟩ := hthis hi
    intro m s hrel
    obtain ⟨l, hloc, hlookup⟩ := hscoped.2.1 thisName (.head _)
    obtain ⟨v, v', hlocal, hcell, hsame⟩ := hrel.local_some hloc
    have hup : m.store.up? 0 f.scope = some f.scope := rfl
    have hvalue : s.value? (s.kept.getD f'.scope []) thisName = some v' := by
      rw [hrel.getD_kept hkept, State.value?, hlookup]
      exact hcell
    have hstate := run_lookUp_eq (s.kept.getD f'.scope [])
      { f.routine.name with lexeme := thisName } s
    rw [hvalue] at hstate
    change Agrees tidy o W (Same tidy) (Eval.ofExcept f.routine.name.line
      (m.store.getAt f.scope 0 thisName) m) (Run.lookUp (s.kept.getD f'.scope [])
        { f.routine.name with lexeme := thisName } s)
    rw [Store.getAt_eq_ok _ _ _ _ hup hlocal, hstate]
    exact .ok (.refl o W) hrel hsame

/-! ## Declarations -/

/-- A statement stands in the scopes `Γ`: at the top, or in a frame that has just the names of the
innermost scope. -/
inductive Standing (W : World) : Scopes → Place → Prop
  | top (h : W.AtTop) : Standing W [] .top
  | inside {scope : List String} {Γ : Scopes} {names : Names}
      (h : Scoped W (scope :: Γ) W.scope names) (hholds : Holds W W.scope scope) :
      Standing W (scope :: Γ) (.inside names)

namespace Standing

variable {Γ : Scopes} {place place' : Place} {x : String}

/-- The frames of a statement are the scopes that it stands in. -/
theorem toScoped (h : Standing W Γ place) : Scoped W Γ W.scope place.names := by
  cases h with
  | top => exact .nil W W.scope
  | inside h => exact h

/-- Nothing but the statements of a frame gives it names. -/
theorem mono (hW : W.Extends none W') (h : Standing W Γ place) : Standing W' Γ place := by
  cases h with
  | top h => exact .top (h.mono hW.toGrows hW.scope)
  | inside h hholds =>
    refine .inside (hW.scope.symm ▸ h.mono hW.toGrows) fun x l hl => hholds x l ?_
    rw [hW.scope, hW.closed W.scope h.1.1 nofun] at hl
    exact hl

/-- Back from a statement that declared nothing. -/
theorem rejoin (hW : W.Grows W') (hscope : W'.scope = W.scope) (h : Standing W Γ place)
    (h' : Standing W' Γ place') : Standing W' Γ place := by
  cases h with
  | top h => exact .top (h.mono hW hscope)
  | inside h _ =>
    cases h' with
    | inside _ hholds => exact .inside (hscope.symm ▸ h.mono hW) hholds

theorem sees (h : Standing W Γ place) : Sees W Γ none place.names :=
  ⟨h.toScoped, fun _ h => (Option.not_mem_none _ h).elim⟩

/-- The initial value of a variable stands where the variable is not in the frame yet. -/
theorem sees_initial (h : Standing W Γ place) (hlacks : Γ.Lacks x) :
    Sees W Γ (Γ.pending x) place.names := by
  refine ⟨h.toScoped, ?_⟩
  cases h with
  | top => exact nofun
  | inside h hholds =>
    intro y hy
    cases hy
    exact ⟨h.1, hholds.free (hlacks _ rfl)⟩

end Standing

section Declarations

variable {Γ : Scopes} {place : Place} {x : String}

/-- A variable is declared in the current frame and in the names that follow. -/
theorem simulates_declare (hstanding : Standing W Γ place) (hlacks : Γ.Lacks x) {v v' : Value}
    (hv : Same tidy W v v') :
    Simulates tidy (some W.scope) W (fun W' _ place' => Standing W' (Γ.declare x) place')
      (Eval.define x v) (Run.declare place x v') := by
  intro m s hrel
  cases hstanding with
  | top htop =>
    have hmachine : Eval.define x v m =
        .ok () { m with store := m.store.define W.globals x v } := by
      rw [← htop, ← hrel.scope]
      rfl
    rw [hmachine]
    exact .ok (.refl _ W) (hrel.writeGlobal x hv) (.top htop)
  | inside hscoped hholds =>
    have hfree := hholds.free (hlacks _ rfl)
    have hW := World.extends_bind hfree s.cells.size
    have hmachine : Eval.define x v m =
        .ok () { m with store := m.store.define W.scope x v } := by
      rw [← hrel.scope]
      rfl
    rw [hmachine]
    exact .ok hW (hrel.bind hscoped.1 hfree (hv.mono hW.toGrows))
      (.inside (hscoped.declare hfree _) (hholds.bind x _))

/-- A function or a class is declared, and knows itself. -/
theorem simulates_declareKeeping (hstanding : Standing W Γ place) (hlacks : Γ.Lacks x)
    (value value' : Nat → Value)
    (hvalue : ∀ {W' names k}, W.Grows W' → W'.kept k = some names →
      Scoped W' (Γ.declare x) W.scope names → Same tidy W' (value W.scope) (value' k)) :
    Simulates tidy (some W.scope) W (fun W' _ place' => Standing W' (Γ.declare x) place')
      (do Eval.define x (value (← get).scope)) (Run.declareKeeping place x value') := by
  intro m s hrel
  have hunkept : W.kept s.kept.size = none := by
    rw [← hrel.kept]
    exact Array.getElem?_eq_none (Nat.le_refl _)
  cases hstanding with
  | top htop =>
    have hW := World.extends_keep (some W.scope) hunkept []
    have hmachine : (do Eval.define x (value (← get).scope) : Eval Unit) m =
        .ok () { m with store := m.store.define W.globals x (value W.scope) } := by
      rw [← htop, ← hrel.scope]
      rfl
    rw [hmachine]
    exact .ok hW ((hrel.keep []).writeGlobal x
      (hvalue hW.toGrows (if_pos rfl) (.nil _ _))) (.top htop)
  | inside hscoped hholds =>
    rename_i scope Γ names
    have hfree : (W.keep s.kept.size ((x, s.cells.size) :: names)).loc W.scope x = none :=
      hholds.free (hlacks _ rfl)
    have hkeep := World.extends_keep (some W.scope) hunkept ((x, s.cells.size) :: names)
    have hbind := World.extends_bind hfree s.cells.size
    have hscoped' := (hscoped.mono hkeep.toGrows).declare hfree s.cells.size
    have hmachine : (do Eval.define x (value (← get).scope) : Eval Unit) m =
        .ok () { m with store := m.store.define W.scope x (value W.scope) } := by
      rw [← hrel.scope]
      rfl
    rw [hmachine]
    exact .ok (hkeep.trans hbind) ((hrel.keep _).bind hscoped.1 hfree
      (hvalue (hkeep.trans hbind).toGrows (if_pos rfl) hscoped')) (.inside hscoped' (hholds.bind x _))

/-- **A function is declared on both sides**: its name is bound first, so its body sees it. -/
theorem simulates_declareFunction {r : Routine} (hstanding : Standing W Γ place)
    (hlacks : Γ.Lacks r.name.lexeme) (hfits : r.Fits W.Records tidy (Γ.declare r.name.lexeme)) :
    Simulates tidy (some W.scope) W
      (fun W' _ place' => Standing W' (Γ.declare r.name.lexeme) place')
      (Eval.declareFunction r) (Run.declareFunction place r) := by
  refine simulates_freshObject.bind ?_
  rintro _ _ id _ ⟨rfl, rfl⟩
  refine simulates_declareKeeping hstanding hlacks (fun k => .function id (r.closure k)) _
    fun hW hkept hscoped => ?_
  exact .function id ⟨_, ⟨rfl, rfl, _, hkept, hscoped⟩, hfits.mono hW.records, nofun⟩

/-- Tables of the same methods. -/
theorem methodTable_rel {k k' : Nat} : ∀ {methods : List Routine},
    (∀ r ∈ methods, ∀ b, SameMethod tidy W ⟨r, k, b⟩ ⟨r, k', b⟩) → ∀ x : String,
    Option.Rel (SameMethod tidy W) (methodTable methods k)[x]? (methodTable methods k')[x]? := by
  have hall : ∀ (methods : List Routine) (t t' : Std.TreeMap String Closure),
      (∀ r ∈ methods, ∀ b, SameMethod tidy W ⟨r, k, b⟩ ⟨r, k', b⟩) →
      (∀ x : String, Option.Rel (SameMethod tidy W) t[x]? t'[x]?) → ∀ x : String,
      Option.Rel (SameMethod tidy W)
        (t.insertMany (methods.map fun r =>
          (r.name.lexeme, Closure.mk r k (r.name.lexeme = initializerName))))[x]?
        (t'.insertMany (methods.map fun r =>
          (r.name.lexeme, Closure.mk r k' (r.name.lexeme = initializerName))))[x]? := by
    intro methods
    induction methods with
    | nil => exact fun t t' _ ht => ht
    | cons r methods ih =>
      intro t t' hmethods ht
      rw [List.map_cons, List.map_cons, Std.TreeMap.insertMany_cons, Std.TreeMap.insertMany_cons]
      refine ih _ _ (fun f hf => hmethods f (.tail _ hf)) fun x => ?_
      rw [Std.TreeMap.getElem?_insert, Std.TreeMap.getElem?_insert]
      split
      · exact .some (hmethods r (.head _) _)
      · exact ht x
  intro methods hmethods
  unfold methodTable
  rw [Std.TreeMap.ofList_eq_insertMany_empty, Std.TreeMap.ofList_eq_insertMany_empty]
  exact hall methods ∅ ∅ hmethods fun x => by simp

/-- **A class is declared on both sides.** Its methods see the class, and `this` around their
parameters. -/
theorem simulates_declareClass {name : Token} {methods : List Routine}
    (hstanding : Standing W Γ place) (hlacks : Γ.Lacks name.lexeme)
    (hfits : Routine.AllFits W.Records tidy methods ([thisName] :: Γ.declare name.lexeme)) :
    Simulates tidy (some W.scope) W
      (fun W' _ place' => Standing W' (Γ.declare name.lexeme) place')
      (Eval.declareClass name methods) (Run.declareClass place name methods) := by
  refine simulates_freshObject.bind ?_
  rintro _ _ id _ ⟨rfl, rfl⟩
  refine simulates_declareKeeping hstanding hlacks
    (fun k => .cls ⟨id, name.lexeme, methodTable methods k⟩) _ fun hW hkept hscoped => ?_
  refine .cls ⟨rfl, rfl, methodTable_rel fun r hr b => ?_⟩
  exact ⟨_, ⟨rfl, rfl, _, hkept, hscoped⟩, (hfits.of_mem hr).mono hW.records⟩

end Declarations

/-! ## Frames -/

section Frames

variable {exact : Prop} {Q : World → α → β → Prop} {x : Eval α} {y : Run β} {m : Machine}
  {s : State}

/-- A computation inside a new frame, seen from outside. -/
theorem Follows.inFrame {W₁ : World} {e : FrameRef}
    (h : Follows exact tidy (some W.size) W₁ Q x { m with scope := W.size } y s)
    (hQ : ∀ {V a b} r, Q V a b → Q (World.enter V r) a b)
    (hW : ((W.push e).enter W.size).Extends (some W.size) W₁) (hscope : m.scope = W.scope) :
    Follows exact tidy none W Q (Eval.inFrame W.size x) m y s := by
  obtain ⟨out, hy, hagrees⟩ := h
  refine ⟨out, hy, ?_⟩
  unfold Eval.inFrame
  generalize x { m with scope := W.size } = res at hagrees
  rw [hscope]
  cases hagrees with
  | ok hV hrel' hq => exact .ok (hW.trans hV).leave (hrel'.enter W.scope) (hQ _ hq)
  | error hstop hV hrel' => exact .error hstop (hW.trans hV).leave (hrel'.enter W.scope)

/-- A block is entered. -/
theorem Related.inside (hrel : Related tidy W m s) :
    Related tidy ((W.push W.scope).enter W.size) (m.inside ∅ m.scope) s := by
  have hrel' := (hrel.push W.scope).enter W.size
  rw [← hrel.scope, ← hrel.shape.size] at hrel'
  rw [← hrel.scope, ← hrel.shape.size]
  exact hrel'

/-- **A new frame has no counterpart in the state**: it is empty, so it gives no name a location. -/
theorem follows_inNewFrame (hrel : Related tidy W m s)
    (h : Follows exact tidy (some W.size) ((W.push W.scope).enter W.size) Q x
      (m.inside ∅ m.scope) y s)
    (hQ : ∀ {V a b} r, Q V a b → Q (World.enter V r) a b) :
    Follows exact tidy none W Q (Eval.inNewFrame x) m y s := by
  rw [Machine.inside, hrel.shape.size] at h
  obtain ⟨out, hy, hagrees⟩ := Follows.inFrame
    (m := { m with store := (m.store.newFrame ∅ (some m.scope)).2 }) h hQ (.refl _ _) hrel.scope
  refine ⟨out, hy, ?_⟩
  rw [← hrel.shape.size] at hagrees
  exact hagrees

/-- The frame of a call has just the parameters. -/
theorem Related.callFrame (hrel : Related tidy W m s) {Γ : Scopes} {e : FrameRef} {names : Names}
    (hscoped : Scoped W Γ e names) {parameters : List Token}
    (hnodup : (parameters.map Token.lexeme).Nodup) {arguments arguments' : List Value}
    (harguments : List.Forall₂ (Same tidy W) arguments arguments')
    (hlength : arguments.length = parameters.length) :
    ∃ W₁ names₁ s₁, Run.bindAll parameters arguments' names s = .ok names₁ s₁ ∧
      W.Grows W₁ ∧ ((W.push e).enter W.size).Extends (some W.size) W₁ ∧
      Related tidy W₁ (m.inside (argumentNames parameters arguments) e) s₁ ∧
      Standing W₁ (parameters.map Token.lexeme :: Γ) (.inside names₁) := by
  have hgrows : W.Grows ((W.push e).enter W.size) :=
    (World.extends_push none W e).toGrows.trans (World.grows_enter _ _)
  have hinner : Scoped ((W.push e).enter W.size) ([] :: Γ) W.size names :=
    (hscoped.push hrel.shape.inside).mono (World.grows_enter _ _)
  have hholds : Holds ((W.push e).enter W.size) W.size [] := fun x l hl =>
    absurd (hrel.located.bounds hl).1.1 (Nat.lt_irrefl _)
  obtain ⟨W₁, names₁, s₁, hrun, hW₁, hrel₁, hscoped₁, hholds₁⟩ :=
    ((hrel.push e).enter W.size).bindAll hinner hholds
      (harguments.imp fun _ _ hv => hv.mono hgrows) hlength hnodup fun _ _ => nofun
  have hframe : (m.store.newFrame (argumentNames parameters arguments) (some e)).2 =
      Related.defineAll (m.store.newFrame ∅ (some e)).2 W.size
        ((parameters.map Token.lexeme).zip arguments) := by
    rw [← hrel.shape.size, ← Related.newFrame_insertMany]
    rfl
  have hmem : ∀ x, x ∈ (parameters.map Token.lexeme).reverse ++ [] ↔
      x ∈ parameters.map Token.lexeme := by simp
  have hscope : W₁.scope = W.size := hW₁.scope
  have hinside : Related tidy W₁ (m.inside (argumentNames parameters arguments) e) s₁ := by
    rw [Machine.inside, hrel.shape.size, hframe]
    exact hrel₁
  refine ⟨W₁, names₁, s₁, hrun, hgrows.trans hW₁.toGrows, hW₁, hinside, ?_⟩
  refine .inside (hscope.symm ▸ hscoped₁.permuted hmem) fun x l hl => ?_
  exact (hmem x).mp (hholds₁ x l (hscope ▸ hl))

/-- The body of a call runs in the frame of the call. -/
theorem follows_inCallFrame (hrel : Related tidy W m s) {Γ : Scopes} {e : FrameRef} {names : Names}
    (hscoped : Scoped W Γ e names) {parameters : List Token}
    (hnodup : (parameters.map Token.lexeme).Nodup) {arguments arguments' : List Value}
    (harguments : List.Forall₂ (Same tidy W) arguments arguments')
    (hlength : arguments.length = parameters.length) {y : Names → Run β}
    (h : ∀ {W₁ names₁ s₁}, W.Grows W₁ → W₁.scope = W.size →
      Related tidy W₁ (m.inside (argumentNames parameters arguments) e) s₁ →
      Standing W₁ (parameters.map Token.lexeme :: Γ) (.inside names₁) →
      Follows exact tidy (some W.size) W₁ Q x
        (m.inside (argumentNames parameters arguments) e) (y names₁) s₁)
    (hQ : ∀ {V a b} r, Q V a b → Q (World.enter V r) a b) :
    Follows exact tidy none W Q
      (Eval.newFrame (argumentNames parameters arguments) e >>= fun r => Eval.inFrame r x) m
      (Run.bindAll parameters arguments' names >>= y) s := by
  obtain ⟨W₁, names₁, s₁, hrun, hgrows, hW₁, hrel₁, hstanding⟩ :=
    hrel.callFrame hscoped hnodup harguments hlength
  have hbody := h hgrows hW₁.scope hrel₁ hstanding
  rw [Machine.inside, hrel.shape.size] at hbody
  obtain ⟨out, hy, hagrees⟩ := Follows.inFrame (m := { m with
    store := (m.store.newFrame (argumentNames parameters arguments) (some e)).2 }) hbody hQ hW₁
    hrel.scope
  have hstate : (Run.bindAll parameters arguments' names >>= y) s = y names₁ s₁ := by
    change EStateM.bind _ _ s = _
    rw [EStateM.bind, hrun]
  refine ⟨out, fun he => hstate.trans (hy he), ?_⟩
  rw [← hrel.shape.size] at hagrees
  exact hagrees

/-- A block stands in a frame without names. -/
theorem Standing.block {Γ : Scopes} {place : Place} (hrel : Related tidy W m s)
    (h : Standing W Γ place) :
    Standing ((W.push W.scope).enter W.size) ([] :: Γ) (.inside place.names) :=
  .inside ((h.toScoped.push hrel.shape.inside).mono (World.grows_enter _ _)) fun _ _ hl =>
    absurd (hrel.located.bounds hl).1.1 (Nat.lt_irrefl _)

end Frames

/-! ## Host functions -/

/-- Two answers of a host function that correspond. -/
inductive SameResult (tidy : Bool) (W : World) :
    Except String Value → Except String Value → Prop
  | ok {v v' : Value} (h : Same tidy W v v') : SameResult tidy W (.ok v) (.ok v')
  | error (message : String) : SameResult tidy W (.error message) (.error message)

/-- A host function answers on both sides alike. -/
theorem Answer.sameResult {arguments arguments' : List Value}
    (h : List.Forall₂ (Same tidy W) arguments arguments') : ∀ a : Answer,
    SameResult tidy W (a.result arguments) (a.result arguments')
  | refusal message => .error message
  | constant c => .ok (.constant c)
  | argument i => by
    refine .ok ?_
    rw [List.getD_eq_getElem?_getD, List.getD_eq_getElem?_getD]
    induction h generalizing i with
    | nil => exact .constant .nil
    | cons hv _ ih =>
      cases i with
      | zero => exact hv
      | succ i => exact ih i

/-- A host function that answers by what it sees answers alike on both sides. -/
theorem simulates_native (natives : Natives) (entry : String) (evaluate : Expr → Eval Value)
    {arguments arguments' : List Value} (h : List.Forall₂ (Same tidy W) arguments arguments') :
    Simulates tidy o W (SameResult tidy) (natives.host entry evaluate arguments)
      (Run.native natives entry arguments') := by
  intro m s hrel
  have hfaces : arguments'.map (Value.face s.heap) = arguments.map (Value.face m.store) := by
    induction h with
    | nil => rfl
    | cons hv _ ih => rw [List.map_cons, List.map_cons, hrel.face_eq hv, ih]
  unfold Natives.host Run.native
  rw [hfaces, ← hrel.clockReads]
  exact .ok (.refl o W) { hrel with clockReads := rfl } (Answer.sameResult h _)

end Lexical

end LoxLang
