import Mathlib
import LoxLang.Proofs.Lexical.World

/-!
# Proofs/Lexical/Steps — a machine and a state step by step

What corresponding machines and states have in common (`Related.local_some`, `Related.text_eq`), and
that they still correspond after each step that changes one of them: a new frame, a new name, a
write, a new instance.
-/

namespace LoxLang.Lexical.Related

variable {tidy : Bool} {W : World} {m : Machine} {s : State} {r : FrameRef} {x : String}
  {v v' : Value}

/-! ## What they have in common -/

/-- Climbing the world is climbing the frames. -/
theorem up? (h : Related tidy W m s) : ∀ {n : Nat} {r r' : FrameRef}, Climbs W n r r' →
    m.store.up? n r = some r'
  | 0, _, _, hclimb => congrArg some hclimb
  | n + 1, r, r', ⟨hr, hclimb⟩ => by
    rw [Store.up?, h.shape.enclosing hr.1 hr.2]
    exact h.up? hclimb

/-- A name with a location has corresponding values. -/
theorem local_some (h : Related tidy W m s) {l : Location} (hl : W.loc r x = some l) :
    ∃ v v', m.store.local? r x = some v ∧ s.cells[l]? = some v' ∧ Same tidy W v v' := by
  obtain ⟨⟨_, hr⟩, hlt⟩ := h.located.bounds hl
  have hrel := h.locals r x hr
  rw [hl, Option.bind_some, Array.getElem?_eq_getElem hlt] at hrel
  generalize m.store.local? r x = o at hrel
  cases hrel with
  | some hsame => exact ⟨_, _, rfl, Array.getElem?_eq_getElem hlt, hsame⟩

/-- A frame has no name without a location. -/
theorem local_none (h : Related tidy W m s) (hr : r ≠ W.globals) (hl : W.loc r x = none) :
    m.store.local? r x = none := by
  have hrel := h.locals r x hr
  rw [hl, Option.bind_none] at hrel
  generalize m.store.local? r x = o at hrel
  cases hrel with
  | none => rfl

/-- The value that a name has in a frame has a counterpart. -/
theorem exists_same (h : Related tidy W m s) (hlocal : m.store.local? r x = some v) :
    ∃ v', Same tidy W v v' := by
  by_cases hr : r = W.globals
  · have hrel := h.globalNames x
    rw [← hr, hlocal] at hrel
    generalize s.globals[x]? = o at hrel
    cases hrel with
    | some hsame => exact ⟨_, hsame⟩
  · have hrel := h.locals r x hr
    rw [hlocal] at hrel
    generalize (W.loc r x).bind (s.cells[·]?) = o at hrel
    cases hrel with
    | some hsame => exact ⟨_, hsame⟩

/-- Outside all scopes a name is looked up in the globals. -/
theorem get_globals (h : Related tidy W m s) (x : String) :
    m.store.get W.globals x = match m.store.local? W.globals x with
      | some v => .ok v
      | none => .error (.undefinedVariable x) := by
  rw [Store.get_of_root x (h.shape.size.symm ▸ h.shape.inside) h.shape.outermost]
  cases m.store.local? W.globals x <;> rfl

/-- A global is assigned if it is there. -/
theorem locate_globals (h : Related tidy W m s) (x : String) :
    m.store.locate W.globals x = if (m.store.local? W.globals x).isSome then .ok W.globals
      else .error (.undefinedVariable x) :=
  Store.locate_of_root x (h.shape.size.symm ▸ h.shape.inside) h.shape.outermost

/-- The names that a closure keeps. -/
theorem getD_kept (h : Related tidy W m s) {k : Nat} {names : Names} (hk : W.kept k = some names) :
    s.kept.getD k [] = names := by
  rw [Array.getD_eq_getD_getElem?, h.kept, hk]
  rfl

/-- Corresponding instances are of corresponding classes. -/
theorem classOf? (h : Related tidy W m s) (i : InstanceRef) :
    Option.Rel (SameClass tidy W) (m.store.classOf? i) (s.heap.classOf? i) := by
  have hrel := h.instances i
  unfold Store.classOf? State.heap
  generalize m.store.instances[i]? = o, s.instances[i]? = o' at hrel
  cases hrel with
  | none => exact .none
  | some hsame => exact .some hsame.cls

/-- Corresponding instances have corresponding fields. -/
theorem field? (h : Related tidy W m s) (i : InstanceRef) (x : String) :
    Option.Rel (Same tidy W) (m.store.field? i x) (s.heap.field? i x) := by
  have hrel := h.instances i
  unfold Store.field? State.heap
  generalize m.store.instances[i]? = o, s.instances[i]? = o' at hrel
  cases hrel with
  | none => exact .none
  | some hsame => exact hsame.fields x

theorem method? (h : Related tidy W m s) (i : InstanceRef) (x : String) :
    Option.Rel (SameMethod tidy W) (m.store.method? i x) (s.heap.method? i x) :=
  Store.method?_paired h.classOf? i x

theorem routine_eq {f f' : Closure} (hsame : SameFunction tidy W f f') : f'.routine = f.routine := by
  obtain ⟨_, hclosure, _⟩ := hsame
  exact hclosure.routine

/-- Corresponding values print alike. -/
theorem text_eq (h : Related tidy W m s) (hv : Same tidy W v v') : v.text m.store = v'.text s.heap :=
  hv.text_eq h.classOf? fun hf => by rw [Closure.name, Closure.name, routine_eq hf]

/-- A host sees no difference between corresponding values. -/
theorem face_eq (h : Related tidy W m s) (hv : Same tidy W v v') :
    v.face m.store = v'.face s.heap := by
  cases hv with
  | constant c => cases c <;> rfl
  | host => rfl
  | function id hf => simp only [Value.face, routine_eq hf]
  | cls hc => simp only [Value.face, hc.id, hc.name]
  | object i => simp only [Value.face, Store.instanceName_paired h.classOf?]

/-! ## Frames and names -/

/-- Another frame becomes the current one. -/
theorem enter (h : Related tidy W m s) (r : FrameRef) :
    Related tidy (W.enter r) { m with scope := r } s where
  globals := h.globals
  scope := rfl
  distances := h.distances
  nextId := h.nextId
  unrecorded := h.unrecorded
  shape := ⟨h.shape.size, h.shape.inside, h.shape.outermost, h.shape.enclosing⟩
  located := ⟨h.located.bounds, h.located.apart⟩
  kept := h.kept
  locals r' x hr := optionRel_mono (Same.mono (W.grows_enter r)) (h.locals r' x hr)
  globalNames x := optionRel_mono (Same.mono (W.grows_enter r)) (h.globalNames x)
  instances i := optionRel_mono (SameInstance.mono (W.grows_enter r)) (h.instances i)
  sink := h.sink
  nextObject := h.nextObject
  clockReads := h.clockReads

/-- Ids are given out, and distances are recorded. -/
theorem note (h : Related tidy W m s) {limit : NodeId} {D : Std.TreeMap NodeId Nat}
    (hle : m.nextId ≤ limit) (holder : ∀ id, id < m.nextId → D[id]? = m.distances[id]?)
    (hnewer : ∀ id, limit ≤ id → D[id]? = none) :
    Related tidy (W.note limit (D[·]?)) { m with nextId := limit, distances := D } s := by
  have hgrows : W.Grows (W.note limit (D[·]?)) := by
    refine World.grows_note (h.nextId ▸ hle) fun id hid => ?_
    exact (holder id (h.nextId.symm ▸ hid)).trans (h.distances id)
  exact { h with
    distances := fun _ => rfl
    nextId := rfl
    unrecorded := hnewer
    shape := ⟨h.shape.size, h.shape.inside, h.shape.outermost, h.shape.enclosing⟩
    located := ⟨h.located.bounds, h.located.apart⟩
    locals := fun r x hr => optionRel_mono (Same.mono hgrows) (h.locals r x hr)
    globalNames := fun x => optionRel_mono (Same.mono hgrows) (h.globalNames x)
    instances := fun i => optionRel_mono (SameInstance.mono hgrows) (h.instances i) }

/-- Ids are given out. -/
theorem skipIds (h : Related tidy W m s) {limit : NodeId} (hle : m.nextId ≤ limit) :
    Related tidy (W.note limit W.distance) { m with nextId := limit } s := by
  rw [← funext h.distances]
  refine h.note hle (fun _ _ => rfl) fun id hid => ?_
  rw [h.distances]
  exact h.unrecorded id (h.nextId ▸ Nat.le_trans hle hid)

/-- An expression with ids that were just given out takes all its names as globals. -/
theorem fits_skipIds (h : Related tidy W m s) {limit : NodeId} {e : Expr}
    (hids : ∀ id ∈ e.ids, m.nextId ≤ id ∧ id < limit) :
    e.Fits (W.note limit W.distance).Records tidy [] none :=
  Expr.fits_nil fun id hid => ⟨(hids id hid).2, h.unrecorded id (h.nextId ▸ (hids id hid).1)⟩

/-- A new frame. -/
theorem push (h : Related tidy W m s) (e : FrameRef) :
    Related tidy (W.push e) { m with store := (m.store.newFrame ∅ (some e)).2 } s := by
  have hgrows := (World.extends_push none W e).toGrows
  have hsize := h.shape.size
  refine { h with
    shape := ?shape, located := ?located, locals := ?locals, globalNames := ?globalNames,
    instances := fun i => optionRel_mono (SameInstance.mono hgrows) (h.instances i) }
  case shape =>
    refine ⟨by simp [World.push, hsize], Nat.lt_succ_of_lt h.shape.inside, ?_, fun {r} hr hne => ?_⟩
    · rw [← h.shape.outermost]
      exact Store.enclosing?_newFrame_of_lt _ _ _ _ (hsize ▸ h.shape.inside)
    · rcases Nat.lt_succ_iff_lt_or_eq.mp hr with hlt | rfl
      · have hup : (W.push e).up r = W.up r := if_neg (Nat.ne_of_lt hlt)
        rw [hup, ← h.shape.enclosing hlt hne]
        exact Store.enclosing?_newFrame_of_lt _ _ _ _ (hsize ▸ hlt)
      · have hup : (W.push e).up W.size = e := if_pos rfl
        rw [hup, ← hsize]
        exact Store.enclosing?_newFrame_self _ _ _
  case located =>
    refine ⟨fun hl => ?_, h.located.apart⟩
    obtain ⟨⟨hr, hne⟩, hlt⟩ := h.located.bounds hl
    exact ⟨⟨Nat.lt_succ_of_lt hr, hne⟩, hlt⟩
  case locals =>
    intro r x hr
    rw [Store.local?_newFrame_empty]
    exact optionRel_mono (Same.mono hgrows) (h.locals r x hr)
  case globalNames =>
    intro x
    rw [Store.local?_newFrame_empty]
    exact optionRel_mono (Same.mono hgrows) (h.globalNames x)

/-- A new name in a frame, with a fresh location. Its value may know the name already. -/
theorem bind (h : Related tidy W m s) (hr : r < W.size ∧ r ≠ W.globals) (hfree : W.loc r x = none)
    (hv : Same tidy (W.bind r x s.cells.size) v v') :
    Related tidy (W.bind r x s.cells.size) { m with store := m.store.define r x v }
      { s with cells := s.cells.push v' } := by
  have hgrows := (World.extends_bind hfree s.cells.size).toGrows
  have hsame : ∀ {v v' : Value}, Same tidy W v v' → Same tidy (W.bind r x s.cells.size) v v' :=
    Same.mono hgrows
  refine { h with
    shape := ?shape, located := ?located, locals := ?locals, globalNames := ?globalNames,
    instances := fun i => optionRel_mono (SameInstance.mono hgrows) (h.instances i) }
  case shape =>
    refine ⟨(Store.frames_size_define ..).trans h.shape.size, h.shape.inside, ?_,
      fun hlt hne => ?_⟩
    · exact (Store.enclosing?_define ..).trans h.shape.outermost
    · exact (Store.enclosing?_define ..).trans (h.shape.enclosing hlt hne)
  case located =>
    -- The new location is one behind all others, so no other name has it.
    have hold : ∀ {r' x' l}, (W.bind r x s.cells.size).loc r' x' = some l →
        (r' = r ∧ x' = x ∧ l = s.cells.size) ∨ W.loc r' x' = some l := by
      intro r' x' l hl
      by_cases heq : r' = r ∧ x' = x
      · have hloc : (W.bind r x s.cells.size).loc r' x' = some s.cells.size := if_pos heq
        exact .inl ⟨heq.1, heq.2, Option.some.inj (hl.symm.trans hloc)⟩
      · have hloc : (W.bind r x s.cells.size).loc r' x' = W.loc r' x' := if_neg heq
        exact .inr (hloc.symm.trans hl)
    refine ⟨fun hl => ?_, fun hl hl' => ?_⟩
    · rw [Array.size_push]
      rcases hold hl with ⟨rfl, rfl, rfl⟩ | hloc
      · exact ⟨hr, Nat.lt_succ_self _⟩
      · exact ⟨(h.located.bounds hloc).1, Nat.lt_succ_of_lt (h.located.bounds hloc).2⟩
    · rcases hold hl with ⟨rfl, rfl, rfl⟩ | hloc <;> rcases hold hl' with ⟨rfl, rfl, hcount⟩ | hloc'
      · exact ⟨rfl, rfl⟩
      · exact absurd (h.located.bounds hloc').2 (Nat.lt_irrefl _)
      · exact absurd (hcount ▸ (h.located.bounds hloc).2) (Nat.lt_irrefl _)
      · exact h.located.apart hloc hloc'
  case locals =>
    intro r' x' hr'
    by_cases heq : r' = r ∧ x' = x
    · obtain ⟨rfl, rfl⟩ := heq
      have hloc : (W.bind r' x' s.cells.size).loc r' x' = some s.cells.size := if_pos ⟨rfl, rfl⟩
      rw [hloc, Store.local?_define_self _ _ _ _ (h.shape.size ▸ hr.1)]
      simpa using Option.Rel.some hv
    · have hloc : (W.bind r x s.cells.size).loc r' x' = W.loc r' x' := if_neg heq
      have hne : r ≠ r' ∨ x ≠ x' := by
        by_contra hboth
        simp only [not_or, not_not] at hboth
        exact heq ⟨hboth.1.symm, hboth.2.symm⟩
      rw [hloc, Store.local?_define_of_ne _ _ _ _ _ _ hne]
      have hcells : (W.loc r' x').bind ((s.cells.push v')[·]?) =
          (W.loc r' x').bind (s.cells[·]?) := by
        cases hl : W.loc r' x' with
        | none => rfl
        | some l =>
          have hlt := (h.located.bounds hl).2
          simp [Array.getElem?_push, Nat.ne_of_lt hlt]
      rw [hcells]
      exact optionRel_mono hsame (h.locals r' x' hr')
  case globalNames =>
    intro y
    rw [show (W.bind r x s.cells.size).globals = W.globals from rfl,
      Store.local?_define_of_ne _ _ _ _ _ _ (.inl hr.2)]
    exact optionRel_mono hsame (h.globalNames y)

/-- Names are kept for a closure. -/
theorem keep (h : Related tidy W m s) (names : Names) :
    Related tidy (W.keep s.kept.size names) m { s with kept := s.kept.push names } := by
  have hfree : W.kept s.kept.size = none := by
    rw [← h.kept]
    exact Array.getElem?_eq_none (Nat.le_refl _)
  have hgrows := (World.extends_keep none hfree names).toGrows
  refine { h with
    shape := ⟨h.shape.size, h.shape.inside, h.shape.outermost, h.shape.enclosing⟩
    located := ⟨h.located.bounds, h.located.apart⟩
    kept := fun k => ?_
    locals := fun r x hr => optionRel_mono (Same.mono hgrows) (h.locals r x hr)
    globalNames := fun x => optionRel_mono (Same.mono hgrows) (h.globalNames x)
    instances := fun i => optionRel_mono (SameInstance.mono hgrows) (h.instances i) }
  rw [Array.getElem?_push, h.kept]
  rfl

/-! ## Arguments -/

/-- Binds names in a frame, one after the other. -/
def defineAll (store : Store) (r : FrameRef) : List (String × Value) → Store
  | [] => store
  | (x, v) :: pairs => defineAll (store.define r x v) r pairs

/-- A frame that is made with names is one that gets them afterwards. -/
theorem newFrame_insertMany (store : Store) (e : Option FrameRef) :
    ∀ (pairs : List (String × Value)) (names : Std.TreeMap String Value),
    (store.newFrame (names.insertMany pairs) e).2 =
      defineAll (store.newFrame names e).2 store.frames.size pairs
  | [], _ => rfl
  | (x, v) :: pairs, names => by
    rw [Std.TreeMap.insertMany_cons, newFrame_insertMany store e pairs, Store.newFrame_insert]
    rfl

/-- The arguments of a call: names of its frame, and fresh locations. -/
theorem bindAll {Γ : Scopes} {r : FrameRef} : ∀ {parameters : List Token}
    {arguments arguments' : List Value} {W : World} {m : Machine} {s : State}
    {scope : List String} {names : Names}, Related tidy W m s →
    Scoped W (scope :: Γ) r names → Holds W r scope →
    List.Forall₂ (Same tidy W) arguments arguments' → arguments.length = parameters.length →
    (parameters.map Token.lexeme).Nodup → (∀ x ∈ parameters.map Token.lexeme, x ∉ scope) →
    ∃ W' names' s', Run.bindAll parameters arguments' names s = .ok names' s' ∧
      W.Extends (some r) W' ∧
      Related tidy W'
        { m with store := defineAll m.store r ((parameters.map Token.lexeme).zip arguments) } s' ∧
      Scoped W' (((parameters.map Token.lexeme).reverse ++ scope) :: Γ) r names' ∧
      Holds W' r ((parameters.map Token.lexeme).reverse ++ scope)
  | [], arguments, _, W, _, s, _, names, hrel, hscoped, hholds, _, hlength, _, _ => by
    cases List.length_eq_zero_iff.mp hlength
    exact ⟨W, names, s, rfl, .refl _ W, hrel, hscoped, hholds⟩
  | p :: ps, v :: vs, _ :: _, W, m, s, scope, names, hrel, hscoped, hholds, .cons hv hvs, hlength,
      hnodup, hfresh => by
    have hfree := hholds.free (hfresh p.lexeme (.head _))
    have hW := World.extends_bind hfree s.cells.size
    have hrel' := hrel.bind hscoped.1 hfree (hv.mono hW.toGrows)
    obtain ⟨hnot, hnodup⟩ := List.nodup_cons.mp hnodup
    have hfresh' : ∀ x ∈ ps.map Token.lexeme, x ∉ p.lexeme :: scope := by
      intro x hx hmem
      rcases List.mem_cons.mp hmem with rfl | hmem
      · exact hnot hx
      · exact hfresh x (.tail _ hx) hmem
    obtain ⟨W', names', s', hrun, hW', hrel'', hscoped', hholds'⟩ :=
      bindAll hrel' (hscoped.declare hfree s.cells.size) (hholds.bind p.lexeme s.cells.size)
        (hvs.imp fun _ _ h => h.mono hW.toGrows) (Nat.succ.inj hlength) hnodup hfresh'
    refine ⟨W', names', s', hrun, hW.trans hW', hrel'', ?_, ?_⟩
    · simpa using hscoped'
    · simpa using hholds'

/-! ## Writes -/

/-- A name that has a location gets a new value. -/
theorem writeLocal (h : Related tidy W m s) {l : Location} (hl : W.loc r x = some l)
    (hv : Same tidy W v v') :
    Related tidy W { m with store := m.store.define r x v }
      { s with cells := s.cells.setIfInBounds l v' } := by
  obtain ⟨hr, hlt⟩ := h.located.bounds hl
  refine { h with
    shape := ?shape, located := ?located, locals := ?locals, globalNames := ?globalNames }
  case shape =>
    refine ⟨(Store.frames_size_define ..).trans h.shape.size, h.shape.inside, ?_,
      fun hlt hne => ?_⟩
    · exact (Store.enclosing?_define ..).trans h.shape.outermost
    · exact (Store.enclosing?_define ..).trans (h.shape.enclosing hlt hne)
  case located =>
    refine ⟨fun hloc => ?_, h.located.apart⟩
    rw [Array.size_setIfInBounds]
    exact h.located.bounds hloc
  case locals =>
    intro r' x' hr'
    by_cases heq : r = r' ∧ x = x'
    · obtain ⟨rfl, rfl⟩ := heq
      rw [hl, Store.local?_define_self _ _ _ _ (h.shape.size ▸ hr.1)]
      simpa [hlt] using Option.Rel.some hv
    · rw [Store.local?_define_of_ne _ _ _ _ _ _ (not_and_or.mp heq)]
      -- Each location belongs to one name, so the other names keep their values.
      have hcells : (W.loc r' x').bind ((s.cells.setIfInBounds l v')[·]?) =
          (W.loc r' x').bind (s.cells[·]?) := by
        cases hloc : W.loc r' x' with
        | none => rfl
        | some l' =>
          have hne : l ≠ l' := by
            rintro rfl
            exact heq (h.located.apart hl hloc)
          simp [Array.getElem?_setIfInBounds, hne]
      rw [hcells]
      exact h.locals r' x' hr'
  case globalNames =>
    intro y
    rw [Store.local?_define_of_ne _ _ _ _ _ _ (.inl hr.2)]
    exact h.globalNames y

/-- A global gets a new value. -/
theorem writeGlobal (h : Related tidy W m s) (x : String) (hv : Same tidy W v v') :
    Related tidy W { m with store := m.store.define W.globals x v }
      { s with globals := s.globals.insert x v' } := by
  refine { h with shape := ?shape, locals := ?locals, globalNames := ?globalNames }
  case shape =>
    refine ⟨(Store.frames_size_define ..).trans h.shape.size, h.shape.inside, ?_,
      fun hlt hne => ?_⟩
    · exact (Store.enclosing?_define ..).trans h.shape.outermost
    · exact (Store.enclosing?_define ..).trans (h.shape.enclosing hlt hne)
  case locals =>
    intro r y hr
    rw [Store.local?_define_of_ne _ _ _ _ _ _ (.inl hr.symm)]
    exact h.locals r y hr
  case globalNames =>
    intro y
    by_cases hxy : x = y
    · subst hxy
      rw [Store.local?_define_self _ _ _ _ (h.shape.size ▸ h.shape.inside),
        Std.TreeMap.getElem?_insert_self]
      exact .some hv
    · rw [Store.local?_define_of_ne _ _ _ _ _ _ (.inr hxy), Std.TreeMap.getElem?_insert,
        if_neg (by simpa using hxy)]
      exact h.globalNames y

/-- A name that has a value in a frame gets a new one. -/
theorem write (h : Related tidy W m s) {u : Value} (hbound : m.store.local? r x = some u)
    (hv : Same tidy W v v') :
    ∃ s', Related tidy W { m with store := m.store.define r x v } s' := by
  by_cases hr : r = W.globals
  · exact hr ▸ ⟨_, h.writeGlobal x hv⟩
  · cases hl : W.loc r x with
    | none => exact absurd hbound (by simp [h.local_none hr hl])
    | some l => exact ⟨_, h.writeLocal hl hv⟩

/-- There are as many instances on both sides. -/
theorem size_instances (h : Related tidy W m s) : m.store.instances.size = s.instances.size := by
  have hiff : ∀ i, m.store.instances.size ≤ i ↔ s.instances.size ≤ i := by
    intro i
    have hrel := h.instances i
    rw [← Array.getElem?_eq_none_iff, ← Array.getElem?_eq_none_iff]
    generalize m.store.instances[i]? = o, s.instances[i]? = o' at hrel
    cases hrel <;> simp
  exact Nat.le_antisymm ((hiff _).mpr (Nat.le_refl _)) ((hiff _).mp (Nat.le_refl _))

/-- A global is bound to a host function. -/
theorem defineHost (h : Related tidy W m s) (name : String) (arity : Nat) (entry : String) :
    Related tidy W (m.defineHost name arity entry) (s.defineHost name arity entry) := by
  have hbound := h.writeGlobal name (.host m.nextObject ⟨name, arity, entry⟩)
  rw [← h.globals] at hbound
  unfold State.defineHost
  rw [← h.nextObject]
  exact { hbound with nextObject := rfl }

/-- A new instance. -/
theorem newInstance (h : Related tidy W m s) {c c' : Class} (hc : SameClass tidy W c c') :
    Related tidy W { m with store := (m.store.newInstance c).2 }
      { s with instances := s.instances.push ⟨c', ∅⟩ } ∧
    (m.store.newInstance c).1 = s.instances.size := by
  have hsize := h.size_instances
  refine ⟨{ h with
    shape := ⟨h.shape.size, h.shape.inside, h.shape.outermost, h.shape.enclosing⟩
    instances := fun i => ?_ }, hsize⟩
  simp only [Store.newInstance, Array.getElem?_push, hsize]
  split
  · exact .some ⟨hc, fun x => by simp⟩
  · exact h.instances i

/-- A field gets a value. -/
theorem setField (h : Related tidy W m s) (i : InstanceRef) (x : String) (hv : Same tidy W v v') :
    Related tidy W { m with store := m.store.setField i x v }
      { s with instances := (s.heap.setField i x v').instances } := by
  refine { h with
    shape := ⟨h.shape.size, h.shape.inside, h.shape.outermost, h.shape.enclosing⟩
    instances := fun j => ?_ }
  have hrel := h.instances j
  simp only [Store.setField, State.heap, Array.getElem?_modify]
  generalize m.store.instances[j]? = o, s.instances[j]? = o' at hrel
  split
  · cases hrel with
    | none => exact .none
    | some hsame =>
      refine .some ⟨hsame.cls, fun y => ?_⟩
      simp only [Std.TreeMap.getElem?_insert]
      split
      · exact .some hv
      · exact hsame.fields y
  · exact hrel

end LoxLang.Lexical.Related
