import Mathlib
import LoxLang.Host.Library
import LoxLang.Proofs.Lexical.Semantics
import LoxLang.Proofs.Scope.Fitting
import LoxLang.Proofs.Scope.Walk
import LoxLang.Proofs.Store.Pairs
import LoxLang.Session
import LoxLang.Store.Lemmas

/-!
# Proofs/Lexical/World — frames against locations

A `World` says which location each name of each frame has, and which names each closure keeps. It
only ever grows (`World.Grows`), so what holds of a value in one world holds in every later one.

In a world the values of a machine and those of a state correspond (`Same`): they differ only in the
places where closures stand, and a closure's frames give every name that its body uses the location
that its kept names give it (`Scoped`). A machine and a state correspond (`Related`) if all their
bindings do.
-/

namespace LoxLang.Lexical

/-- The shape of a machine and how its frames correspond to locations. -/
structure World where
  globals : FrameRef
  scope : FrameRef
  /-- The distances that are recorded. -/
  distance : NodeId → Option Nat
  /-- The next free node id. -/
  limit : NodeId
  /-- The number of frames. -/
  size : Nat
  /-- The frame around a frame. -/
  up : FrameRef → FrameRef
  /-- The location of a name that a frame binds. -/
  loc : FrameRef → String → Option Location
  /-- The names that closures keep. -/
  kept : Nat → Option Names

namespace World

/-- A use of a name with an id is recorded with a distance, or recorded as global. -/
def Records (W : World) : Recorded :=
  fun id d => id < W.limit ∧ W.distance id = d

/-- The later world knows all that the earlier one does. -/
structure Grows (W W' : World) : Prop where
  globals : W'.globals = W.globals
  records : ∀ id d, W.Records id d → W'.Records id d
  size : W.size ≤ W'.size
  up : ∀ r, r < W.size → W'.up r = W.up r
  loc : ∀ {r x l}, W.loc r x = some l → W'.loc r x = some l
  kept : ∀ {k names}, W.kept k = some names → W'.kept k = some names

/-- The later world has the same current frame, and no frame of the earlier one but `o` has got new
names. -/
structure Extends (o : Option FrameRef) (W W' : World) : Prop extends Grows W W' where
  scope : W'.scope = W.scope
  closed : ∀ r, r < W.size → some r ≠ o → W'.loc r = W.loc r

variable {W W' W'' : World} {o : Option FrameRef}

theorem Grows.refl (W : World) : Grows W W :=
  ⟨rfl, fun _ _ => id, Nat.le_refl _, fun _ _ => rfl, id, id⟩

/-- Worlds grow on and on. -/
theorem Grows.trans (h : Grows W W') (h' : Grows W' W'') : Grows W W'' where
  globals := h'.globals.trans h.globals
  records id d hd := h'.records id d (h.records id d hd)
  size := Nat.le_trans h.size h'.size
  up r hr := (h'.up r (Nat.lt_of_lt_of_le hr h.size)).trans (h.up r hr)
  loc hl := h'.loc (h.loc hl)
  kept hk := h'.kept (h.kept hk)

theorem Extends.refl (o : Option FrameRef) (W : World) : Extends o W W :=
  ⟨.refl W, rfl, fun _ _ _ => rfl⟩

theorem Extends.trans (h : Extends o W W') (h' : Extends o W' W'') : Extends o W W'' where
  toGrows := h.toGrows.trans h'.toGrows
  scope := h'.scope.trans h.scope
  closed r hr ho := (h'.closed r (Nat.lt_of_lt_of_le hr h.size) ho).trans (h.closed r hr ho)

/-- A world that leaves all frames alone leaves all but one alone. -/
theorem Extends.weaken (h : Extends none W W') (o : Option FrameRef) : Extends o W W' :=
  ⟨h.toGrows, h.scope, fun r hr _ => h.closed r hr nofun⟩

/-! ### Steps of a world -/

/-- One more frame, inside of `e`. -/
def push (W : World) (e : FrameRef) : World :=
  { W with size := W.size + 1, up := fun r => if r = W.size then e else W.up r }

/-- One more name in a frame. -/
def bind (W : World) (r : FrameRef) (x : String) (l : Location) : World :=
  { W with loc := fun r' x' => if r' = r ∧ x' = x then some l else W.loc r' x' }

/-- More names that are kept. -/
def keep (W : World) (k : Nat) (names : Names) : World :=
  { W with kept := fun k' => if k' = k then some names else W.kept k' }

/-- Another frame is the current one. -/
def enter (W : World) (r : FrameRef) : World :=
  { W with scope := r }

/-- A new frame changes no other. -/
theorem extends_push (o : Option FrameRef) (W : World) (e : FrameRef) : Extends o W (W.push e) where
  globals := rfl
  records _ _ := id
  size := Nat.le_succ _
  up _ hr := if_neg (Nat.ne_of_lt hr)
  loc := id
  kept := id
  scope := rfl
  closed _ _ _ := rfl

/-- A new name changes the frame that it is bound in. -/
theorem extends_bind {r : FrameRef} {x : String} (hfree : W.loc r x = none) (l : Location) :
    Extends (some r) W (W.bind r x l) where
  globals := rfl
  records _ _ := id
  size := Nat.le_refl _
  up _ _ := rfl
  loc {r' x' l'} hl := by
    have hne : ¬ (r' = r ∧ x' = x) := by
      rintro ⟨rfl, rfl⟩
      rw [hfree] at hl
      cases hl
    exact (if_neg hne).trans hl
  kept := id
  scope := rfl
  closed r' _ ho := by
    funext x'
    exact if_neg fun h => ho (congrArg some h.1)

/-- What a new closure keeps is nobody else's. -/
theorem extends_keep (o : Option FrameRef) {k : Nat} (hfree : W.kept k = none) (names : Names) :
    Extends o W (W.keep k names) where
  globals := rfl
  records _ _ := id
  size := Nat.le_refl _
  up _ _ := rfl
  loc := id
  kept {k' names'} hk := by
    have hne : k' ≠ k := by
      rintro rfl
      rw [hfree] at hk
      cases hk
    exact (if_neg hne).trans hk
  scope := rfl
  closed _ _ _ := rfl

theorem grows_enter (W : World) (r : FrameRef) : Grows W (W.enter r) :=
  ⟨rfl, fun _ _ => id, Nat.le_refl _, fun _ _ => rfl, id, id⟩

/-- New ids are given out, and distances are recorded for some of them. -/
def note (W : World) (limit : NodeId) (distance : NodeId → Option Nat) : World :=
  { W with limit, distance }

/-- New ids are recorded without a change to those that are known. -/
theorem grows_note {limit : NodeId} {distance : NodeId → Option Nat} (hle : W.limit ≤ limit)
    (h : ∀ id, id < W.limit → distance id = W.distance id) : Grows W (W.note limit distance) where
  globals := rfl
  records id _ hd := ⟨Nat.lt_of_lt_of_le hd.1 hle, (h id hd.1).trans hd.2⟩
  size := Nat.le_refl _
  up _ _ := rfl
  loc := id
  kept := id

/-- The frame of the globals is current. -/
def AtTop (W : World) : Prop :=
  W.scope = W.globals

theorem AtTop.note (h : W.AtTop) (limit : NodeId) (distance : NodeId → Option Nat) :
    (W.note limit distance).AtTop :=
  h

/-- At the top of a later world is the top of the earlier one. -/
theorem AtTop.mono (h : W.AtTop) (hW : W.Grows W') (hscope : W'.scope = W.scope) : W'.AtTop :=
  hscope.trans (h.trans hW.globals.symm)

/-- New names in a new frame. -/
theorem Extends.fresh {r : FrameRef} (h : Extends none W W') (hr : W.size ≤ r)
    (h' : Extends (some r) W' W'') : Extends none W W'' where
  toGrows := h.toGrows.trans h'.toGrows
  scope := h'.scope.trans h.scope
  closed r' hr' _ := by
    have hne : some r' ≠ some r := fun heq =>
      Nat.ne_of_lt (Nat.lt_of_lt_of_le hr' hr) (Option.some.inj heq)
    exact (h'.closed r' (Nat.lt_of_lt_of_le hr' h.size) hne).trans (h.closed r' hr' nofun)

/-- What happened inside a new frame, seen from outside. -/
theorem Extends.leave {e : FrameRef}
    (h : Extends (some W.size) ((W.push e).enter W.size) W') : Extends none W (W'.enter W.scope) where
  toGrows := ((extends_push none W e).toGrows.trans (grows_enter _ _)).trans
    (h.toGrows.trans (grows_enter _ _))
  scope := rfl
  closed r hr _ :=
    h.closed r (Nat.lt_succ_of_lt hr) fun heq => Nat.ne_of_lt hr (Option.some.inj heq)

end World

/-! ## Names and frames -/

/-- The scopes `Γ` are the frames from `r` upwards, and `names` gives every name of theirs the
location that it has there. -/
def Scoped (W : World) : Scopes → FrameRef → Names → Prop
  | [], _, names => ∀ x, names.lookup x = none
  | scope :: Γ, r, names =>
    (r < W.size ∧ r ≠ W.globals) ∧
      (∀ x ∈ scope, ∃ l, W.loc r x = some l ∧ names.lookup x = some l) ∧
      ∃ outer, Scoped W Γ (W.up r) outer ∧ ∀ x, x ∉ scope → names.lookup x = outer.lookup x

/-- The frame `n` steps up from `r`. -/
def Climbs (W : World) : Nat → FrameRef → FrameRef → Prop
  | 0, r, r' => r = r'
  | n + 1, r, r' => (r < W.size ∧ r ≠ W.globals) ∧ Climbs W n (W.up r) r'

namespace Scoped

variable {W W' : World} {Γ : Scopes} {r : FrameRef} {names : Names}

theorem nil (W : World) (r : FrameRef) : Scoped W [] r [] := fun _ => rfl

/-- **Scopes that are the frames of a world are those of every later one.** -/
theorem mono (hW : W.Grows W') : ∀ {Γ : Scopes} {r : FrameRef} {names : Names},
    Scoped W Γ r names → Scoped W' Γ r names
  | [], _, _, h => h
  | scope :: Γ, r, names, ⟨hr, hscope, outer, houter, hrest⟩ => by
    refine ⟨⟨Nat.lt_of_lt_of_le hr.1 hW.size, hW.globals.symm ▸ hr.2⟩, fun x hx => ?_, outer, ?_,
      hrest⟩
    · obtain ⟨l, hloc, hlookup⟩ := hscope x hx
      exact ⟨l, hW.loc hloc, hlookup⟩
    · rw [hW.up r hr.1]
      exact houter.mono hW

/-- A name at a distance has its location in the frame that far up. -/
theorem found : ∀ {Γ : Scopes} {r : FrameRef} {names : Names} {x : String} {n : Nat},
    Scoped W Γ r names → Γ.distance? x = some n →
    ∃ r' l, Climbs W n r r' ∧ W.loc r' x = some l ∧ names.lookup x = some l
  | scope :: Γ, r, names, x, n, ⟨hr, hscope, outer, houter, hrest⟩, hd => by
    by_cases hx : x ∈ scope
    · rw [Scopes.distance?_cons_of_mem hx] at hd
      cases hd
      obtain ⟨l, hloc, hlookup⟩ := hscope x hx
      exact ⟨r, l, rfl, hloc, hlookup⟩
    · rw [Scopes.distance?_cons_of_not_mem hx] at hd
      obtain ⟨n, hn, rfl⟩ := Option.map_eq_some_iff.mp hd
      obtain ⟨r', l, hclimb, hloc, hlookup⟩ := houter.found hn
      exact ⟨r', l, ⟨hr, hclimb⟩, hloc, (hrest x hx).trans hlookup⟩

/-- A name without a distance is no local name. -/
theorem unknown : ∀ {Γ : Scopes} {r : FrameRef} {names : Names} {x : String},
    Scoped W Γ r names → Γ.distance? x = none → names.lookup x = none
  | [], _, _, x, h, _ => h x
  | scope :: Γ, _, _, x, ⟨_, _, _, houter, hrest⟩, hd => by
    have hx : x ∉ scope := fun hx => by
      rw [Scopes.distance?_cons_of_mem hx] at hd
      cases hd
    rw [Scopes.distance?_cons_of_not_mem hx, Option.map_eq_none_iff] at hd
    exact (hrest x hx).trans (houter.unknown hd)

/-- A new frame without names. -/
theorem push (h : Scoped W Γ r names) (hinside : W.globals < W.size) :
    Scoped (W.push r) ([] :: Γ) W.size names := by
  refine ⟨⟨Nat.lt_succ_self _, (Nat.ne_of_lt hinside).symm⟩, nofun, names, ?_, fun _ _ => rfl⟩
  have hup : (W.push r).up W.size = r := if_pos rfl
  rw [hup]
  exact h.mono (World.extends_push none W r).toGrows

/-- A new name in the innermost scope. -/
theorem declare {scope : List String} {x : String} (h : Scoped W (scope :: Γ) r names)
    (hfree : W.loc r x = none) (l : Location) :
    Scoped (W.bind r x l) ((x :: scope) :: Γ) r ((x, l) :: names) := by
  have hgrows := (World.extends_bind hfree l).toGrows
  obtain ⟨hr, hscope, outer, houter, hrest⟩ := h
  refine ⟨hr, fun y hy => ?_, outer, houter.mono hgrows, fun y hy => ?_⟩
  · by_cases hyx : y = x
    · subst hyx
      exact ⟨l, if_pos ⟨rfl, rfl⟩, by simp⟩
    · obtain ⟨l', hloc, hlookup⟩ := hscope y ((List.mem_cons.mp hy).resolve_left hyx)
      refine ⟨l', hgrows.loc hloc, ?_⟩
      rw [List.lookup_cons, beq_false_of_ne hyx]
      exact hlookup
  · obtain ⟨hyx, hy⟩ := not_or.mp (List.mem_cons.not.mp hy)
    rw [List.lookup_cons, beq_false_of_ne hyx]
    exact hrest y hy

/-- The order of the names in a scope does not matter. -/
theorem permuted {scope scope' : List String} (hmem : ∀ x, x ∈ scope ↔ x ∈ scope')
    (h : Scoped W (scope :: Γ) r names) : Scoped W (scope' :: Γ) r names := by
  obtain ⟨hr, hscope, outer, houter, hrest⟩ := h
  exact ⟨hr, fun x hx => hscope x ((hmem x).mpr hx), outer, houter,
    fun x hx => hrest x fun h => hx ((hmem x).mp h)⟩

end Scoped

/-- The frame binds no names but these. -/
def Holds (W : World) (r : FrameRef) (scope : List String) : Prop :=
  ∀ x l, W.loc r x = some l → x ∈ scope

namespace Holds

variable {W : World} {r : FrameRef} {scope : List String} {x : String}

/-- A frame that holds no other names has room for them. -/
theorem free (h : Holds W r scope) (hx : x ∉ scope) : W.loc r x = none := by
  by_contra hsome
  obtain ⟨l, hl⟩ := Option.ne_none_iff_exists'.mp hsome
  exact hx (h x l hl)

/-- A frame that gets a name holds one more. -/
theorem bind (h : Holds W r scope) (x : String) (l : Location) :
    Holds (W.bind r x l) r (x :: scope) := by
  intro y l' hl
  by_cases hyx : y = x
  · exact hyx ▸ .head _
  · exact .tail _ (h y l' ((if_neg fun heq => hyx heq.2).symm.trans hl))

end Holds

/-! ## Values -/

section Values

variable (tidy : Bool) (W : World)

/-- Two closures of one routine; the frames of the first are the scopes `Γ` to the kept names of the
second. -/
structure SameClosure (Γ : Scopes) (f f' : Closure) : Prop where
  routine : f'.routine = f.routine
  isInitializer : f'.isInitializer = f.isInitializer
  names : ∃ names, W.kept f'.scope = some names ∧ Scoped W Γ f.scope names

/-- Two functions that do the same. An initializer knows its instance in the innermost scope. -/
def SameFunction (f f' : Closure) : Prop :=
  ∃ Γ, SameClosure W Γ f f' ∧ f.routine.Fits W.Records tidy Γ ∧
    (f.isInitializer = true → ∃ outer, Γ = [thisName] :: outer)

/-- Two methods that do the same once they know their instance. -/
def SameMethod (f f' : Closure) : Prop :=
  ∃ Γ, SameClosure W Γ f f' ∧ f.routine.Fits W.Records tidy ([thisName] :: Γ)

/-- Two classes with the same methods. -/
abbrev SameClass : Class → Class → Prop :=
  Class.Paired (SameMethod tidy W)

/-- Two values that correspond. -/
abbrev Same : Value → Value → Prop :=
  Value.Paired (SameFunction tidy W) (SameMethod tidy W)

/-- Two instances of the same class with the same fields. -/
structure SameInstance (i i' : Instance) : Prop where
  cls : SameClass tidy W i.cls i'.cls
  fields : ∀ x : String, Option.Rel (Same tidy W) i.fields[x]? i'.fields[x]?

end Values

section Values

variable {tidy : Bool} {W W' : World}

/-- What two closures have in common they keep in every later world, and so on for each sort of
value. -/
theorem SameClosure.mono (hW : W.Grows W') {Γ : Scopes} {f f' : Closure}
    (h : SameClosure W Γ f f') : SameClosure W' Γ f f' := by
  obtain ⟨hroutine, hinit, names, hkept, hscoped⟩ := h
  exact ⟨hroutine, hinit, names, hW.kept hkept, hscoped.mono hW⟩

theorem SameFunction.mono (hW : W.Grows W') {f f' : Closure} (h : SameFunction tidy W f f') :
    SameFunction tidy W' f f' := by
  obtain ⟨Γ, hsame, hfits, hinit⟩ := h
  exact ⟨Γ, hsame.mono hW, hfits.mono hW.records, hinit⟩

theorem SameMethod.mono (hW : W.Grows W') {f f' : Closure} (h : SameMethod tidy W f f') :
    SameMethod tidy W' f f' := by
  obtain ⟨Γ, hsame, hfits⟩ := h
  exact ⟨Γ, hsame.mono hW, hfits.mono hW.records⟩

theorem SameClass.mono (hW : W.Grows W') {c c' : Class} (h : SameClass tidy W c c') :
    SameClass tidy W' c c' :=
  h.imp (SameMethod.mono hW)

/-- **Values that correspond in a world do so in every later one.** -/
theorem Same.mono (hW : W.Grows W') {v v' : Value} (h : Same tidy W v v') : Same tidy W' v v' :=
  h.imp (SameFunction.mono hW) (SameMethod.mono hW)

theorem SameInstance.mono (hW : W.Grows W') {i i' : Instance} (h : SameInstance tidy W i i') :
    SameInstance tidy W' i i' :=
  ⟨SameClass.mono hW h.cls, fun x => optionRel_mono (Same.mono hW) (h.fields x)⟩

end Values

/-! ## Machines and states -/

/-- The frames of a store are those of the world. -/
structure Shape (W : World) (store : Store) : Prop where
  size : store.frames.size = W.size
  inside : W.globals < W.size
  outermost : store.enclosing? W.globals = none
  enclosing : ∀ {r}, r < W.size → r ≠ W.globals → store.enclosing? r = some (W.up r)

/-- Every location belongs to one name of one frame. -/
structure Located (W : World) (count : Nat) : Prop where
  bounds : ∀ {r x l}, W.loc r x = some l → (r < W.size ∧ r ≠ W.globals) ∧ l < count
  apart : ∀ {r x r' x' l}, W.loc r x = some l → W.loc r' x' = some l → r = r' ∧ x = x'

/-- **A machine and a state that correspond.** -/
structure Related (tidy : Bool) (W : World) (m : Machine) (s : State) : Prop where
  globals : m.globals = W.globals
  scope : m.scope = W.scope
  distances : ∀ id, m.distances[id]? = W.distance id
  nextId : m.nextId = W.limit
  unrecorded : ∀ id, W.limit ≤ id → W.distance id = none
  shape : Shape W m.store
  located : Located W s.cells.size
  kept : ∀ k, s.kept[k]? = W.kept k
  locals : ∀ r x, r ≠ W.globals →
    Option.Rel (Same tidy W) (m.store.local? r x) ((W.loc r x).bind (s.cells[·]?))
  globalNames : ∀ x : String, Option.Rel (Same tidy W) (m.store.local? W.globals x) s.globals[x]?
  instances : ∀ i : Nat,
    Option.Rel (SameInstance tidy W) m.store.instances[i]? s.instances[i]?
  sink : m.sink = s.sink
  nextObject : m.nextObject = s.nextObject
  clockReads : m.clockReads = s.clockReads

end LoxLang.Lexical
