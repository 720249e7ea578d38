import Mathlib
import LoxLang.Proofs.Scope.Sites

/-!
# Proofs/Scope/Rules — the walk over the scopes does what the rules say

The walk keeps tables of names; a site keeps the text around it. At every step the tables show just
the names that the text declares (`opened`, `visible`), so the walk finds for each use the distance
of the construct that declares it, and notes at each site what the rules say about it and nothing
else (`Scope.Traces`). A fault changes nothing about what is found and noted elsewhere: a stretch of
the walk traces its own sites, whatever was noted before.
-/

namespace LoxLang

/-! ## Names around a place -/

/-- The names that a scope has from the start. -/
def Construct.given : Construct → List String
  | .classBody => [thisName]
  | _ => []

namespace Enclosing

/-- The names declared in the scope before the statement that holds the place. -/
def earlier (c : Enclosing) : List String :=
  (c.before.filterMap Stmt.declared?).map Token.lexeme ++
    (c.parameters.map Token.lexeme ++ c.construct.given)

/-- The names declared in the scope, that of the statement that holds the place included. -/
def names (c : Enclosing) : List String :=
  ((c.here.bind Stmt.declared?).map Token.lexeme).toList ++ c.earlier

/-- Only a class gives its scope a name from the start. -/
theorem mem_given {k : Construct} {x : String} : x ∈ k.given ↔ k = .classBody ∧ x = thisName := by
  cases k <;> simp [Construct.given]

/-- The names before a place are those that are declared before it. -/
theorem mem_earlier {c : Enclosing} {x : String} : x ∈ c.earlier ↔ c.DeclaresBefore x := by
  simp only [earlier, DeclaresBefore, List.mem_append, List.mem_map, List.mem_filterMap, mem_given,
    Option.mem_def]
  constructor
  · rintro (⟨t, ⟨s, hs, ht⟩, hx⟩ | ht | hgiven)
    · exact .inr (.inr ⟨s, hs, t, ht, hx⟩)
    · exact .inr (.inl ht)
    · exact .inl hgiven
  · rintro (hgiven | ht | ⟨s, hs, t, ht, hx⟩)
    · exact .inr (.inr hgiven)
    · exact .inr (.inl ht)
    · exact .inl ⟨t, ⟨s, hs, ht⟩, hx⟩

theorem mem_names {c : Enclosing} {x : String} : x ∈ c.names ↔ c.Declares x := by
  simp [names, Declares, mem_earlier, or_comm, Option.bind_eq_some_iff]

end Enclosing

/-- The names of the scopes around a place. -/
def visible (scopes : List Enclosing) : Scopes :=
  scopes.map Enclosing.names

/-- The names of the scopes before the statement that holds the place. -/
def opened : List Enclosing → Scopes
  | [] => []
  | c :: outer => c.earlier :: visible outer

/-- A statement that declares a name declares it in the innermost scope. -/
theorem Stmt.after_cons (s : Stmt) (scope : List String) (Γ : Scopes) :
    s.after (scope :: Γ) = ((s.declared?.map Token.lexeme).toList ++ scope) :: Γ := by
  cases s <;> rfl

/-- The statement that holds a place declares nothing before it. -/
theorem opened_holding (s : Stmt) (scopes : List Enclosing) :
    opened (holding s scopes) = opened scopes := by
  cases scopes <;> rfl

/-- Inside of a statement its own declaration is visible. -/
theorem visible_holding (s : Stmt) : ∀ scopes : List Enclosing,
    visible (holding s scopes) = s.after (opened scopes)
  | [] => s.after_nil.symm
  | c :: outer => (s.after_cons c.earlier (visible outer)).symm

/-- Behind a statement its declaration is there. -/
theorem opened_behind (s : Stmt) : ∀ scopes : List Enclosing,
    opened (behind s scopes) = s.after (opened scopes)
  | [] => s.after_nil.symm
  | c :: outer => by
    rw [opened, s.after_cons]
    cases h : s.declared? <;> simp [behind, opened, Enclosing.earlier, h]

/-- Behind the first clause of a loop. -/
theorem opened_clause (initial : Option Stmt) (scopes : List Enclosing) :
    opened (⟨.loop, [], initial.toList, none⟩ :: scopes) =
      Stmt.afterOption ([] :: visible scopes) initial := by
  cases initial with
  | none => rfl
  | some s => exact opened_behind s (⟨.loop, [], [], none⟩ :: scopes)

/-- The clause of a `for` is visible in the loop. -/
theorem visible_clause (initial : Option Stmt) (scopes : List Enclosing) :
    visible (⟨.loop, [], [], initial⟩ :: scopes) =
      Stmt.afterOption ([] :: visible scopes) initial := by
  cases initial with
  | none => rfl
  | some s => exact visible_holding s (⟨.loop, [], [], none⟩ :: scopes)

/-- What a variable is declared as does not matter to the distances from its initial value. -/
theorem Scopes.seen_pending (Γ : Scopes) (name x : String) :
    Γ.seen (Γ.pending name) x = (Γ.declare name).distance? x := by
  cases Γ with
  | nil => rfl
  | cons scope Γ =>
    by_cases hx : name = x
    · subst hx
      simp [Scopes.seen, Scopes.pending, Scopes.declare, Scopes.distance?_cons_of_mem]
    · have hmem : x ∈ name :: scope ↔ x ∈ scope := by simp [Ne.symm hx]
      simp [Scopes.seen, Scopes.pending, Scopes.declare, hx, Scopes.distance?, List.findIdx?_cons,
        Ne.symm hx]

/-! ## What the walk knows of the text -/

namespace Scope

/-- The kind of a routine, by what its scope belongs to. -/
def kindOf? : Construct → Option RoutineKind
  | .function => some .function
  | .method name => some (if name.lexeme = initializerName then .initializer else .method)
  | .block | .loop | .classBody => none

/-- What encloses a place, as the walk sees it. -/
def contextOf (scopes : List Enclosing) : Context where
  routine := scopes.findSome? fun c => kindOf? c.construct
  inClass := scopes.any fun c => c.construct matches .classBody

/-- Inside of a routine. -/
theorem contextOf_routine {construct : Construct} {kind : RoutineKind}
    (hkind : kindOf? construct = some kind) (parameters : List Token) (scopes : List Enclosing) :
    contextOf (⟨construct, parameters, [], none⟩ :: scopes) =
      { contextOf scopes with routine := some kind } := by
  cases construct with
  | function | method _ =>
    cases hkind
    rfl
  | block | loop | classBody => cases hkind

/-- A routine has no names but its own. -/
theorem opened_routine {construct : Construct} {kind : RoutineKind}
    (hkind : kindOf? construct = some kind) (scopes : List Enclosing) :
    opened (⟨construct, [], [], none⟩ :: scopes) = [] :: visible scopes := by
  cases construct with
  | function | method _ | block | loop => rfl
  | classBody => cases hkind

/-- What encloses a place does not depend on the statement that holds it. -/
theorem contextOf_holding (s : Stmt) (scopes : List Enclosing) :
    contextOf (holding s scopes) = contextOf scopes := by
  cases scopes <;> rfl

theorem contextOf_behind (s : Stmt) (scopes : List Enclosing) :
    contextOf (behind s scopes) = contextOf scopes := by
  cases scopes <;> rfl

end Scope

/-- The local variable whose initial value holds the place. -/
def Position.pending? (p : Position) : Option String :=
  if p.scopes.isEmpty then none else p.initialOf?.map Token.lexeme

open Scope in
/-- What is reported about a site. -/
def Site.violation? (site : Site) : Option Diagnostic :=
  match site.item with
  | .declaration name =>
    if name.lexeme ∈ (opened site.place.scopes).headD [] then some (.resolve name .alreadyDeclared)
    else none
  | .returning keyword value =>
    match (contextOf site.place.scopes).routine with
    | none => some (.resolve keyword .returnAtTopLevel)
    | some .initializer =>
      if value.isSome then some (.resolve keyword .returnFromInitializer) else none
    | some .function | some .method => none
  | .read _ name =>
    if site.place.pending? = some name.lexeme then some (.resolve name .ownInitializer) else none
  | .write _ _ => none
  | .this _ keyword =>
    if (contextOf site.place.scopes).inClass then none
    else some (.resolve keyword .thisOutsideClass)

open Scope in
/-- The use of a name at a site, with its distance. A `this` outside of every class has none. -/
def Site.use? (site : Site) : Option Use :=
  match site.item with
  | .declaration _ | .returning _ _ => none
  | .read id name | .write id name =>
    some (id, (visible site.place.scopes).distance? name.lexeme)
  | .this id keyword =>
    some (id, if (contextOf site.place.scopes).inClass then
      (visible site.place.scopes).distance? keyword.lexeme else none)

/-! ### The rules, decided -/

namespace Scope

theorem kindOf?_eq_none {k : Construct} : kindOf? k = none ↔ k.isRoutine = false := by
  cases k <;> simp [kindOf?, Construct.isRoutine]

theorem kindOf?_eq_initializer {k : Construct} :
    kindOf? k = some .initializer ↔ ∃ name, k = .method name ∧ name.lexeme = initializerName := by
  cases k <;> simp [kindOf?]

/-- **Outside every routine no kind is known.** -/
theorem routine_eq_none {scopes : List Enclosing} :
    (contextOf scopes).routine = none ↔ ∀ c ∈ scopes, c.construct.isRoutine = false := by
  simp [contextOf, List.findSome?_eq_none_iff, kindOf?_eq_none]

/-- **In an initializer: the innermost routine around the place is a method of that name.** -/
theorem routine_eq_initializer {scopes : List Enclosing} :
    (contextOf scopes).routine = some .initializer ↔ ∃ inner c outer name,
      scopes = inner ++ c :: outer ∧ (∀ i ∈ inner, i.construct.isRoutine = false) ∧
        c.construct = .method name ∧ name.lexeme = initializerName := by
  simp only [contextOf, List.findSome?_eq_some_iff, kindOf?_eq_none, kindOf?_eq_initializer]
  constructor
  · rintro ⟨inner, c, outer, hscopes, ⟨name, hc, hname⟩, hinner⟩
    exact ⟨inner, c, outer, name, hscopes, hinner, hc, hname⟩
  · rintro ⟨inner, c, outer, name, hscopes, hinner, hc, hname⟩
    exact ⟨inner, c, outer, hscopes, ⟨name, hc, hname⟩, hinner⟩

/-- Outside every class there is no `this`. -/
theorem inClass_eq_false {scopes : List Enclosing} :
    (contextOf scopes).inClass = false ↔ ∀ c ∈ scopes, c.construct ≠ .classBody := by
  simp only [contextOf, List.any_eq_false]
  refine forall₂_congr fun c _ => ?_
  cases c.construct <;> simp

end Scope

/-- A name is pending in its own initial value, unless the variable is global. -/
theorem Position.pending?_eq_some {p : Position} {name : String} :
    p.pending? = some name ↔ p.scopes ≠ [] ∧ ∃ x, p.initialOf? = some x ∧ x.lexeme = name := by
  cases h : p.scopes <;> simp [Position.pending?, h]

/-- The innermost scope has the names that are declared in it before. -/
theorem mem_headD_opened {scopes : List Enclosing} {name : String} :
    name ∈ (opened scopes).headD [] ↔ ∃ c outer, scopes = c :: outer ∧ c.DeclaresBefore name := by
  cases scopes <;> simp [opened, Enclosing.mem_earlier]

/-- **What is reported about a site is the rule that it violates.** -/
theorem Site.violation?_eq_some {site : Site} {d : Diagnostic} :
    site.violation? = some d ↔ site.Violates d := by
  obtain ⟨p, item⟩ := site
  constructor
  · intro h
    cases item with
    | declaration name =>
      obtain ⟨hmem, ⟨⟩⟩ := Option.ite_none_right_eq_some.mp h
      obtain ⟨c, outer, hscopes, hbefore⟩ := mem_headD_opened.mp hmem
      exact .alreadyDeclared hscopes hbefore
    | returning keyword value =>
      simp only [Site.violation?] at h
      split at h
      · cases h
        exact .returnAtTop (Scope.routine_eq_none.mp ‹_›)
      · obtain ⟨hvalue, ⟨⟩⟩ := Option.ite_none_right_eq_some.mp h
        obtain ⟨value, rfl⟩ := Option.isSome_iff_exists.mp hvalue
        obtain ⟨inner, c, outer, name, hscopes, hinner, hc, hname⟩ :=
          Scope.routine_eq_initializer.mp ‹_›
        exact .returnFromInitializer hscopes hinner hc hname
      · cases h
      · cases h
    | read id name =>
      obtain ⟨hpending, ⟨⟩⟩ := Option.ite_none_right_eq_some.mp h
      obtain ⟨hlocal, x, hx, hname⟩ := Position.pending?_eq_some.mp hpending
      exact .ownInitializer hlocal hx hname
    | write id name => cases h
    | this id keyword =>
      obtain ⟨hclass, ⟨⟩⟩ := Option.ite_none_left_eq_some.mp h
      exact .thisOutsideClass (Scope.inClass_eq_false.mp (Bool.eq_false_iff.mpr hclass))
  · intro h
    cases h with
    | returnAtTop h => simp [Site.violation?, Scope.routine_eq_none.mpr h]
    | returnFromInitializer hscopes hinner hc hname =>
      simp [Site.violation?,
        Scope.routine_eq_initializer.mpr ⟨_, _, _, _, hscopes, hinner, hc, hname⟩]
    | thisOutsideClass h => simp [Site.violation?, Scope.inClass_eq_false.mpr h]
    | alreadyDeclared hscopes h =>
      exact if_pos (mem_headD_opened.mpr ⟨_, _, hscopes, h⟩)
    | ownInitializer hlocal hx hname =>
      exact if_pos (Position.pending?_eq_some.mpr ⟨hlocal, _, hx, hname⟩)

/-- The innermost scope that declares a name, by its distance. -/
theorem Position.binds_iff {p : Position} {name : String} {d : Nat} :
    p.Binds name d ↔ (visible p.scopes).distance? name = some d := by
  simp only [Position.Binds, Scopes.distance?, visible, List.findIdx?_map, List.findIdx?_eq_some_iff_getElem,
    Function.comp_apply, decide_eq_true_eq, Enclosing.mem_names]
  constructor
  · rintro ⟨inner, c, outer, hscopes, rfl, hc, hinner⟩
    simp only [hscopes]
    refine ⟨by simp, by simpa using hc, fun i hi => ?_⟩
    rw [List.getElem_append_left hi]
    exact hinner _ (List.getElem_mem hi)
  · rintro ⟨hd, hc, hinner⟩
    refine ⟨p.scopes.take d, p.scopes[d], p.scopes.drop (d + 1), ?_, by simp; omega, hc, ?_⟩
    · rw [List.getElem_cons_drop, List.take_append_drop]
    · intro c hmem
      obtain ⟨i, hi, rfl⟩ := List.mem_take_iff_getElem.mp hmem
      exact hinner i (by omega)

/-- A name is bound just if some scope around declares it. -/
theorem Position.exists_binds_iff {p : Position} {name : String} :
    (∃ d, p.Binds name d) ↔ ∃ c ∈ p.scopes, c.Declares name := by
  simp only [Position.binds_iff, ← Option.isSome_iff_exists, Scopes.distance?, visible,
    List.findIdx?_isSome, List.any_map, List.any_eq_true, Function.comp_apply, decide_eq_true_eq,
    Enclosing.mem_names]

/-! ## Tracing the walk -/

namespace Scope

/-- The stretch goes from one place to another, finds the given distances and notes the given
faults; what was found and noted before stays. -/
structure Traces (x : Walker Unit) (Γ : Scopes) (own : Option String) (Γ' : Scopes)
    (own' : Option String) (found : List (NodeId × Nat)) (faults : List Diagnostic) : Prop where
  scopes : ∀ {w : Walk}, ShowsAll w.scopes Γ own → ShowsAll (w.after x).scopes Γ' own'
  found : ∀ {w : Walk}, ShowsAll w.scopes Γ own → (w.after x).found = found.reverse ++ w.found
  faults : ∀ {w : Walk}, ShowsAll w.scopes Γ own → (w.after x).faults = w.faults ++ faults

variable {x y : Walker Unit} {Γ Γ' Γ'' : Scopes} {own own' own'' : Option String}
  {found found' : List (NodeId × Nat)} {faults faults' : List Diagnostic}

namespace Traces

/-- Stretches of the walk trace their sites one after the other. -/
theorem bind (hx : Traces x Γ own Γ' own' found faults)
    (hy : Traces y Γ' own' Γ'' own'' found' faults') :
    Traces (x >>= fun _ => y) Γ own Γ'' own'' (found ++ found') (faults ++ faults') where
  scopes h := hy.scopes (hx.scopes h)
  found h := by
    refine (hy.found (hx.scopes h)).trans ?_
    rw [hx.found h, List.reverse_append, List.append_assoc]
  faults h := by
    refine (hy.faults (hx.scopes h)).trans ?_
    rw [hx.faults h, List.append_assoc]

/-- A stretch that only changes the scopes. -/
theorem of_covers (h : Covers x Γ own Γ' own' [] True)
    (hfaults : ∀ w : Walk, (w.after x).faults = w.faults) : Traces x Γ own Γ' own' [] [] where
  scopes := h.scopes
  found {w} hs := by
    obtain ⟨new, hnew, hclean⟩ := h.clean hs
    rw [hfaults w] at hnew
    exact (hclean (List.self_eq_append_right.mp hnew)).1
  faults {w} _ := by rw [hfaults w, List.append_nil]

theorem pure : Traces (Pure.pure ()) Γ own Γ own [] [] :=
  of_covers covers_pure fun _ => rfl

theorem note (token : Token) (fault : ScopeFault) :
    Traces (Scope.note token fault) Γ own Γ own [] [.resolve token fault] :=
  ⟨fun h => h, fun _ => rfl, fun _ => rfl⟩

/-- A use is found at its distance. -/
theorem locate (id : NodeId) (name : Token) :
    Traces (Scope.locate id name) Γ own Γ own (recorded [(id, Γ.seen own name.lexeme)]) [] where
  scopes := (covers_locate id name).scopes
  found {w} h := by
    rw [after_locate, h.distance? name.lexeme]
    cases Γ.seen own name.lexeme <;> rfl
  faults {w} h := by
    rw [after_locate, h.distance? name.lexeme, List.append_nil]
    cases Γ.seen own name.lexeme <;> rfl

/-- To mark a name notes no fault. -/
theorem faults_mark (name : Token) (m : Mark) (w : Walk) :
    (w.after (mark name m)).faults = w.faults := by
  obtain ⟨scopes, found, faults⟩ := w
  cases scopes <;> rfl

theorem define (name : Token) :
    Traces (Scope.define name) Γ (Γ.pending name.lexeme) (Γ.declare name.lexeme) none [] [] :=
  of_covers (covers_define name) (faults_mark name .defined)

/-- A stretch that begins with a check. -/
theorem checked {c : Prop} [Decidable c] (token : Token) (fault : ScopeFault)
    (hx : Traces x Γ own Γ' own' found faults) :
    Traces (do
      if c then Scope.note token fault
      x) Γ own Γ' own' found ((if c then [.resolve token fault] else []) ++ faults) := by
  by_cases hc : c
  · rw [if_pos hc, if_pos hc]
    exact (note token fault).bind hx
  · rw [if_neg hc, if_neg hc]
    exact hx

/-- A stretch that begins with a check of the innermost scope. -/
theorem guarded (name : Token) (fault : ScopeFault) (test : Option Mark → Prop)
    [DecidablePred test] (hx : Traces x Γ own Γ' own' found faults) :
    Traces (do
      if test (← innermost? name) then Scope.note name fault
      x) Γ own Γ' own' found
      ((if test (entry Γ own name.lexeme) then [.resolve name fault] else []) ++ faults) := by
  have hunless := hx.checked (c := test (entry Γ own name.lexeme)) name fault
  have hafter : ∀ w : Walk, ShowsAll w.scopes Γ own →
      (w.after do
        if test (← innermost? name) then Scope.note name fault
        x) =
      w.after (do
        if test (entry Γ own name.lexeme) then Scope.note name fault
        x) := by
    intro w h
    simp only [Walk.after, StateT.run_bind, h.innermost? name]
    rfl
  refine ⟨fun h => ?_, fun h => ?_, fun h => ?_⟩
  · rw [hafter _ h]
    exact hunless.scopes h
  · rw [hafter _ h]
    exact hunless.found h
  · rw [hafter _ h]
    exact hunless.faults h

/-- **A name that its scope has already is reported, and declared once more.** -/
theorem declare (name : Token) :
    Traces (Scope.declare name) Γ none Γ (Γ.pending name.lexeme) []
      ((if (entry Γ none name.lexeme).isSome then [.resolve name .alreadyDeclared] else []) ++ []) :=
  guarded name .alreadyDeclared (fun o => o.isSome)
    (of_covers (covers_markDeclared name) (faults_mark name .declared))

/-- A scope of its own is left behind. -/
theorem within {names : Names} {scope : List String} (hnames : Shows names scope none)
    (hx : Traces x (scope :: Γ) none Γ' none found faults) (htail : Γ'.tail = Γ) :
    Traces (Scope.within names x) Γ none Γ none found faults where
  scopes {w} h := htail ▸ (hx.scopes (w := { w with scopes := names :: w.scopes }) ⟨hnames, h⟩).tail
  found {w} h := hx.found (w := { w with scopes := names :: w.scopes }) ⟨hnames, h⟩
  faults {w} h := hx.faults (w := { w with scopes := names :: w.scopes }) ⟨hnames, h⟩

end Traces

/-! ### Sites -/

/-- The distances of the uses at sites. -/
def foundAt (sites : List Site) : List (NodeId × Nat) :=
  recorded (sites.filterMap Site.use?)

/-- The faults of sites. -/
def faultsAt (sites : List Site) : List Diagnostic :=
  sites.filterMap Site.violation?

/-- The stretch finds and notes what the rules say about the sites. -/
def TracesAt (x : Walker Unit) (Γ : Scopes) (own : Option String) (Γ' : Scopes)
    (own' : Option String) (sites : List Site) : Prop :=
  Traces x Γ own Γ' own' (foundAt sites) (faultsAt sites)

variable {sites sites' : List Site}

theorem TracesAt.bind (hx : TracesAt x Γ own Γ' own' sites)
    (hy : TracesAt y Γ' own' Γ'' own'' sites') :
    TracesAt (x >>= fun _ => y) Γ own Γ'' own'' (sites ++ sites') := by
  unfold TracesAt foundAt faultsAt
  rw [List.filterMap_append, List.filterMap_append, recorded_append]
  exact Traces.bind hx hy

/-- A stretch traces the sites whose distances and faults are what it finds and notes. -/
theorem Traces.at (h : Traces x Γ own Γ' own' found faults) (hfound : foundAt sites = found)
    (hfaults : faultsAt sites = faults) : TracesAt x Γ own Γ' own' sites := by
  subst hfound hfaults
  exact h

theorem tracesAt_pure : TracesAt (pure ()) Γ own Γ own [] :=
  Traces.pure

/-- The scopes of the walk are those around a place. -/
structure Agrees (Γ : Scopes) (own : Option String) (p : Position) : Prop where
  seen : ∀ name, Γ.seen own name = (visible p.scopes).distance? name
  own : own = p.pending?

/-- At a place without a pending name the walk has what is visible. -/
theorem Agrees.of_visible (scopes : List Enclosing) :
    Agrees (visible scopes) none ⟨scopes, none⟩ where
  seen _ := Scopes.seen_of_ne nofun
  own := by simp [Position.pending?]

/-- A site at which one thing can be wrong. -/
theorem faultsAt_singleton {p : Position} {item : Item} {c : Prop} [Decidable c] {d : Diagnostic}
    (h : Site.violation? ⟨p, item⟩ = if c then some d else none) :
    faultsAt [⟨p, item⟩] = if c then [d] else [] := by
  by_cases hc : c <;> simp [faultsAt, h, hc]

/-- Declared and not defined is only what is pending. -/
theorem entry_eq_declared {name : String} :
    entry Γ own name = some .declared ↔ own = some name := by
  unfold entry
  split
  · simp [*]
  · split <;> simp [*]

/-- What the innermost scope tells of is a name in it. -/
theorem isSome_entry {name : String} :
    (entry Γ none name).isSome ↔ name ∈ Γ.headD [] := by
  unfold entry
  rw [if_neg nofun]
  split
  · exact iff_of_true rfl ‹_›
  · exact iff_of_false nofun ‹_›

/-- A use of a name: it is reported if the name is pending. -/
theorem tracesAt_read {p : Position} (h : Agrees Γ own p) (ctx : Context) (id : NodeId)
    (name : Token) :
    TracesAt (Scope.expr ctx (.var id name)) Γ own Γ own (p.sites [.read id name]) := by
  refine ((Traces.locate id name).guarded name .ownInitializer (· = some .declared)).at ?_ ?_
  · simp [foundAt, Position.sites, Site.use?, h.seen]
  · simp only [entry_eq_declared, h.own, List.append_nil]
    exact faultsAt_singleton rfl

/-- A `this` is reported outside every class, and is not looked up then. -/
theorem tracesAt_this {p : Position} (h : Agrees Γ own p) (id : NodeId) (keyword : Token) :
    TracesAt (Scope.expr (contextOf p.scopes) (.this id keyword)) Γ own Γ own
      (p.sites [.this id keyword]) := by
  rw [Scope.expr]
  cases hclass : (contextOf p.scopes).inClass with
  | true =>
    rw [if_pos rfl]
    refine (Traces.locate id keyword).at ?_ ?_
    · simp [foundAt, Position.sites, Site.use?, h.seen, hclass]
    · simp [faultsAt, Position.sites, Site.violation?, hclass]
  | false =>
    rw [if_neg Bool.false_ne_true]
    refine (Traces.note keyword .thisOutsideClass).at ?_ ?_
    · simp [foundAt, Position.sites, Site.use?, hclass, recorded]
    · simp [faultsAt, Position.sites, Site.violation?, hclass]

theorem Position.sites_append (p : Position) (xs ys : List Item) :
    p.sites (xs ++ ys) = p.sites xs ++ p.sites ys :=
  List.map_append

mutual

/-- **The walk over an expression does at each site what the rules say.** -/
theorem tracesAt_expr {p : Position} (h : Agrees Γ own p) : ∀ e : Expr,
    TracesAt (Scope.expr (contextOf p.scopes) e) Γ own Γ own (p.sites e.items)
  | .constant _ => tracesAt_pure
  | .grouping inner | .unary _ inner | .get inner _ => tracesAt_expr h inner
  | .binary left _ right | .logical left _ right | .set left _ right => by
    rw [Expr.items, Position.sites_append]
    exact (tracesAt_expr h left).bind (tracesAt_expr h right)
  | .conditional condition onTrue onFalse => by
    rw [Expr.items, Position.sites_append, Position.sites_append]
    exact (tracesAt_expr h condition).bind
      ((tracesAt_expr h onTrue).bind (tracesAt_expr h onFalse))
  | .var id name => tracesAt_read h _ id name
  | .this id keyword => tracesAt_this h id keyword
  | .assign id name value => by
    rw [Expr.items, Position.sites_append]
    refine (tracesAt_expr h value).bind ((Traces.locate id name).at ?_ rfl)
    simp [foundAt, Position.sites, Site.use?, h.seen]
  | .call callee _ arguments => by
    rw [Expr.items, Position.sites_append]
    exact (tracesAt_expr h callee).bind (tracesAt_exprs h arguments)

theorem tracesAt_exprs {p : Position} (h : Agrees Γ own p) : ∀ es : List Expr,
    TracesAt (Scope.exprs (contextOf p.scopes) es) Γ own Γ own (p.sites (Expr.itemsAll es))
  | [] => tracesAt_pure
  | e :: es => by
    rw [Expr.itemsAll, Position.sites_append]
    exact (tracesAt_expr h e).bind (tracesAt_exprs h es)

end

theorem tracesAt_optional {p : Position} (h : Agrees Γ own p) : ∀ o : Option Expr,
    TracesAt (Scope.optional (contextOf p.scopes) o) Γ own Γ own (p.sites (Expr.itemsOption o))
  | none => tracesAt_pure
  | some e => tracesAt_expr h e

/-! ### Statements -/

/-- Declaring a name is a site of its own. -/
theorem tracesAt_declare (scopes : List Enclosing) (name : Token) :
    TracesAt (Scope.declare name) (opened scopes) none (opened scopes)
      ((opened scopes).pending name.lexeme) [⟨⟨scopes, none⟩, .declaration name⟩] := by
  refine (Traces.declare name).at rfl ?_
  simp only [isSome_entry, List.append_nil]
  exact faultsAt_singleton rfl

theorem tracesAt_define (name : Token) :
    TracesAt (Scope.define name) Γ (Γ.pending name.lexeme) (Γ.declare name.lexeme) none [] :=
  Traces.define name

/-- A variable: its declaration is a site, and so is what its initial value uses. -/
theorem tracesAt_var (scopes : List Enclosing) (name : Token) (initial : Option Expr)
    (hafter : (opened scopes).declare name.lexeme = visible scopes) :
    TracesAt (Scope.stmt (contextOf scopes) (.varDecl name initial)) (opened scopes) none
      (visible scopes) none (Stmt.sites scopes (.varDecl name initial)) := by
  have hagrees : Agrees (opened scopes) ((opened scopes).pending name.lexeme)
      ⟨scopes, some name⟩ := by
    refine ⟨fun x => ?_, ?_⟩
    · rw [Scopes.seen_pending, hafter]
    · cases scopes <;> rfl
  have hall := (tracesAt_declare scopes name).bind
    ((tracesAt_optional hagrees initial).bind (tracesAt_define name))
  rw [List.append_nil, hafter] at hall
  exact hall

/-- A declaration enters its name before what it binds the name to. -/
theorem TracesAt.named {scopes : List Enclosing} (name : Token)
    (hafter : (opened scopes).declare name.lexeme = visible scopes)
    (hx : TracesAt x (visible scopes) none (visible scopes) none sites) :
    TracesAt (do
      Scope.declare name
      Scope.define name
      x) (opened scopes) none (visible scopes) none
      (⟨⟨scopes, none⟩, .declaration name⟩ :: sites) := by
  rw [← hafter] at hx ⊢
  exact (tracesAt_declare scopes name).bind ((tracesAt_define name).bind hx)

/-- A `return` is a site; with a value it may be out of place in an initializer. -/
theorem tracesAt_return (scopes : List Enclosing) (keyword : Token) (value : Option Expr) :
    TracesAt (Scope.stmt (contextOf scopes) (.returnStmt keyword value)) (visible scopes) none
      (visible scopes) none (Stmt.sites scopes (.returnStmt keyword value)) := by
  have hvalue : Traces (Scope.optional (contextOf scopes) value) _ _ _ _ _ _ :=
    tracesAt_optional (.of_visible scopes) value
  refine ((hvalue.checked keyword .returnFromInitializer).checked keyword .returnAtTopLevel).at rfl ?_
  rw [← List.append_assoc]
  simp only [Stmt.sites, faultsAt, List.filterMap_cons, Site.violation?]
  rcases (contextOf scopes).routine with _ | _ | _ | _ <;> cases value <;> rfl

/-- Parameters are declared one after the other. -/
theorem tracesAt_parameters (scopes : List Enclosing) (construct : Construct) :
    ∀ ts earlier : List Token,
    TracesAt (parameters ts) (opened (⟨construct, earlier, [], none⟩ :: scopes)) none
      (opened (⟨construct, ts.reverse ++ earlier, [], none⟩ :: scopes)) none
      (parameterSites construct scopes earlier ts)
  | [], _ => tracesAt_pure
  | t :: ts, earlier => by
    have hrest := tracesAt_parameters scopes construct ts (t :: earlier)
    rw [List.reverse_cons, List.append_assoc]
    exact (tracesAt_declare _ t).bind ((tracesAt_define t).bind hrest)

mutual

/-- **The walk over a statement does at each site what the rules say**, one case for each sort of
statement. -/
theorem tracesAt_stmt : ∀ (s : Stmt) (scopes : List Enclosing), s.Shaped →
    s.after (opened scopes) = visible scopes →
    TracesAt (Scope.stmt (contextOf scopes) s) (opened scopes) none (visible scopes) none
      (s.sites scopes)
  | .exprStmt e, scopes, _, hafter | .printStmt e, scopes, _, hafter => by
    have hopened : opened scopes = visible scopes := hafter
    rw [hopened]
    exact tracesAt_expr (.of_visible scopes) e
  | .varDecl name initial, scopes, _, hafter => tracesAt_var scopes name initial hafter
  | .block body, scopes, h, hafter => by
    have hopened : opened scopes = visible scopes := hafter
    rw [hopened]
    exact (tracesAt_stmts body (⟨.block, [], [], none⟩ :: scopes) h).within shows_empty
      (Stmt.tail_afterAll body _)
  | .ifStmt condition onTrue onFalse, scopes, h, hafter => by
    have hopened : opened scopes = visible scopes := hafter
    have htrue := tracesAt_stmt onTrue scopes h.1.2 ((Stmt.after_eq h.1.1).trans hafter)
    have hfalse := tracesAt_optionalStmt onFalse scopes h.2.2
      ((Stmt.afterOption_eq h.2.1).trans hafter)
    rw [hopened] at htrue hfalse ⊢
    exact (tracesAt_expr (.of_visible scopes) condition).bind (htrue.bind hfalse)
  | .whileStmt condition body, scopes, h, hafter => by
    have hopened : opened scopes = visible scopes := hafter
    have hbody := tracesAt_stmt body scopes h.2 ((Stmt.after_eq h.1).trans hafter)
    rw [hopened] at hbody ⊢
    exact (tracesAt_expr (.of_visible scopes) condition).bind hbody
  | .forStmt initial condition increment body, scopes, h, hafter => by
    have hopened : opened scopes = visible scopes := hafter
    have hinitial := tracesAt_optionalStmt initial (⟨.loop, [], [], initial⟩ :: scopes) h.1.2
      (visible_clause initial scopes).symm
    have hbody := tracesAt_stmt body (⟨.loop, [], initial.toList, none⟩ :: scopes) h.2.2
      (Stmt.after_eq h.2.1)
    have hinner := Agrees.of_visible (⟨.loop, [], initial.toList, none⟩ :: scopes)
    -- While its own clause is walked over, a loop holds it; behind the clause it is one that came
    -- before. Both ways the same names are there.
    have hclause : visible (⟨.loop, [], [], initial⟩ :: scopes) =
        visible (⟨.loop, [], initial.toList, none⟩ :: scopes) :=
      (visible_clause initial scopes).trans (opened_clause initial scopes).symm
    rw [hclause] at hinitial
    rw [hopened]
    exact (hinitial.bind ((tracesAt_optional hinner condition).bind
      ((tracesAt_optional hinner increment).bind hbody))).within shows_empty rfl
  | .returnStmt keyword value, scopes, _, hafter => by
    have hopened : opened scopes = visible scopes := hafter
    rw [hopened]
    exact tracesAt_return scopes keyword value
  | .funDecl r, scopes, h, hafter =>
    (tracesAt_routine r scopes .function rfl h).named r.name hafter
  | .classDecl name methods, scopes, h, hafter =>
    (TracesAt.named name hafter
      ((tracesAt_methods methods (⟨.classBody, [], [], none⟩ :: scopes) h).within shows_this rfl))

theorem tracesAt_stmts : ∀ (ss : List Stmt) (scopes : List Enclosing), Stmt.AllShaped ss →
    TracesAt (Scope.stmts (contextOf scopes) ss) (opened scopes) none
      (Stmt.afterAll (opened scopes) ss) none (Stmt.sitesAll scopes ss)
  | [], _, _ => tracesAt_pure
  | s :: ss, scopes, h => by
    have hs := tracesAt_stmt s (holding s scopes) h.1
      ((congrArg s.after (opened_holding s scopes)).trans (visible_holding s scopes).symm)
    have hss := tracesAt_stmts ss (behind s scopes) h.2
    rw [contextOf_holding, opened_holding, visible_holding] at hs
    rw [contextOf_behind, opened_behind] at hss
    exact hs.bind hss

theorem tracesAt_optionalStmt : ∀ (o : Option Stmt) (scopes : List Enclosing),
    Stmt.OptionShaped o → Stmt.afterOption (opened scopes) o = visible scopes →
    TracesAt (Scope.optionalStmt (contextOf scopes) o) (opened scopes) none (visible scopes) none
      (Stmt.sitesOption scopes o)
  | none, _, _, hafter => hafter ▸ tracesAt_pure
  | some s, scopes, h, hafter => tracesAt_stmt s scopes h hafter

/-- A routine: its parameters, and then its body. -/
theorem tracesAt_routine : ∀ (r : Routine) (scopes : List Enclosing) (construct : Construct)
    {kind : RoutineKind}, kindOf? construct = some kind → r.Shaped →
    TracesAt (Scope.routine (contextOf scopes) kind r) (visible scopes) none (visible scopes) none
      (r.sites construct scopes)
  | ⟨_, ts, body⟩, scopes, construct, kind, hkind, h => by
    have hbody := tracesAt_stmts body (⟨construct, ts.reverse, [], none⟩ :: scopes) h
    have hts := tracesAt_parameters scopes construct ts []
    rw [List.append_nil] at hts
    rw [contextOf_routine hkind] at hbody
    have hall := hts.bind hbody
    rw [opened_routine hkind] at hall
    exact Traces.within shows_empty hall (Stmt.tail_afterAll body _)

theorem tracesAt_methods : ∀ (rs : List Routine) (scopes : List Enclosing),
    Routine.AllShaped rs →
    TracesAt (Scope.methods (contextOf scopes) rs) (visible scopes) none (visible scopes) none
      (Routine.methodSites scopes rs)
  | [], _, _ => tracesAt_pure
  | r :: rs, scopes, h =>
    (tracesAt_routine r scopes (.method r.name) rfl h.1).bind (tracesAt_methods rs scopes h.2)

end

/-- **The walk over a program finds and notes what the rules say about its sites.** -/
theorem tracesAt_program {ss : List Stmt} (h : Stmt.AllShaped ss) :
    (resolve ss).distances = foundAt (programSites ss) ∧
      (resolve ss).faults = faultsAt (programSites ss) := by
  have hwalk := tracesAt_stmts ss [] h
  have hstart : ShowsAll (Walk.mk [] [] []).scopes (opened []) none := rfl
  have hfound := hwalk.found hstart
  rw [List.append_nil] at hfound
  exact ⟨(congrArg List.reverse hfound).trans (List.reverse_reverse _), hwalk.faults hstart⟩

/-- No fault is noted if and only if no site is out of place. -/
theorem faultsAt_eq_nil {sites : List Site} :
    faultsAt sites = [] ↔ ∀ site ∈ sites, ∀ d, ¬ site.Violates d := by
  simp only [faultsAt, List.filterMap_eq_nil_iff, Option.eq_none_iff_forall_ne_some, ne_eq,
    Site.violation?_eq_some]

end Scope

/-! ## Programs -/

open Scope

/-- **Resolving reports the violations of the rules**: for whatever was read of a program, the
faults are those of its sites, one for each site that violates a rule and in their order, whatever
else is wrong; and there are none just if no site violates a rule. -/
theorem faults_resolve_eq_violations (tokens : List Token) (nextId : NodeId) :
    (resolve (parse tokens nextId).statements).faults =
        (programSites (parse tokens nextId).statements).filterMap Site.violation? ∧
      (∀ site d, Site.violation? site = some d ↔ site.Violates d) ∧
      ((resolve (parse tokens nextId).statements).faults = [] ↔
        ∀ site ∈ programSites (parse tokens nextId).statements, ∀ d, ¬ site.Violates d) := by
  have hfaults := (tracesAt_program (shaped_parse tokens nextId)).2
  refine ⟨hfaults, fun _ _ => Site.violation?_eq_some, ?_⟩
  rw [hfaults]
  exact faultsAt_eq_nil

/-- Where no rule is violated, every use has the distance of the scope that declares its name. -/
theorem Site.use?_of_violation?_eq_none {site : Site} (h : site.violation? = none) :
    site.use? = site.item.use?.map fun use =>
      (use.1, (visible site.place.scopes).distance? use.2.lexeme) := by
  obtain ⟨p, item⟩ := site
  cases item with
  | declaration _ | returning _ _ | read _ _ | write _ _ => rfl
  | this id keyword =>
    have hclass : (contextOf p.scopes).inClass = true := by
      by_contra hclass
      simp [Site.violation?, hclass] at h
    simp [Site.use?, Item.use?, hclass]

/-- Where no rule is violated, the uses have the ids of the sites, in order. -/
theorem map_fst_uses_of_clean {sites : List Site} (h : faultsAt sites = []) :
    (sites.filterMap Site.use?).map Prod.fst = Site.ids sites := by
  rw [Site.ids, Item.ids, List.filterMap_map, List.map_filterMap]
  refine List.filterMap_congr fun site hsite => ?_
  rw [Site.use?_of_violation?_eq_none (List.filterMap_eq_nil_iff.mp h site hsite), Option.map_map]
  rfl

/-- Sites with ids of their own that violate no rule are entered into a table with the distances of
the scopes that declare them. -/
theorem getElem?_insertMany_foundAt {sites : List Site} (hclean : faultsAt sites = [])
    (hids : (Site.ids sites).Nodup) {table : Std.TreeMap NodeId Nat}
    (hnew : ∀ id ∈ Site.ids sites, table[id]? = none) {site : Site} (hsite : site ∈ sites)
    {id : NodeId} {name : Token} (huse : site.item.use? = some (id, name)) (d : Nat) :
    (table.insertMany (foundAt sites))[id]? = some d ↔ site.place.Binds name.lexeme d := by
  have hmap := map_fst_uses_of_clean hclean
  have hmem : (id, (visible site.place.scopes).distance? name.lexeme) ∈
      sites.filterMap Site.use? := by
    refine List.mem_filterMap.mpr ⟨site, hsite, ?_⟩
    rw [Site.use?_of_violation?_eq_none (List.filterMap_eq_nil_iff.mp hclean site hsite), huse]
    rfl
  have hfresh : ∀ u ∈ sites.filterMap Site.use?, table[u.1]? = none := fun u hu =>
    hnew _ (hmap ▸ List.mem_map_of_mem hu)
  rw [Position.binds_iff]
  exact (getElem?_insertMany_recorded (hmap ▸ hids) hfresh hmem).congr_left

/-- **The table of distances is the one that the text gives.** Where resolving what was read of a
program finds no fault, entering its distances into a table without its ids gives each use of a name
the distance of the innermost construct around it that declares the name, and none if no construct
does; it enters nothing else. The nodes of the program are these uses, and no two have the same
id. -/
theorem table_resolve_eq_declarations {tokens : List Token} {nextId : NodeId} {ss : List Stmt}
    (hread : (parse tokens nextId).statements = ss) (hclean : (resolve ss).faults = [])
    {table table' : Std.TreeMap NodeId Nat} (hnew : ∀ id, nextId ≤ id → table[id]? = none)
    (htable : table' = table.insertMany (resolve ss).distances) :
    (Site.ids (programSites ss) = Stmt.idsAll ss ∧ (Stmt.idsAll ss).Nodup) ∧
      (∀ site ∈ programSites ss, ∀ id name, site.item.use? = some (id, name) →
        ((∃ d, table'[id]? = some d) ↔ ∃ c ∈ site.place.scopes, c.Declares name.lexeme) ∧
          ∀ d, table'[id]? = some d ↔ site.place.Binds name.lexeme d) ∧
      ∀ id, id ∉ Stmt.idsAll ss → table'[id]? = table[id]? := by
  subst hread htable
  obtain ⟨hfound, hfaults⟩ := tracesAt_program (shaped_parse tokens nextId)
  have hids := ids_programSites (parse tokens nextId).statements
  have hnumbered := numbered_parse tokens nextId
  rw [hfaults] at hclean
  rw [hfound]
  have hbinds : ∀ site ∈ programSites (parse tokens nextId).statements, ∀ id name,
      site.item.use? = some (id, name) → ∀ d,
      (table.insertMany (foundAt (programSites (parse tokens nextId).statements)))[id]? = some d ↔
        site.place.Binds name.lexeme d := fun site hsite id name huse =>
    getElem?_insertMany_foundAt hclean (hids ▸ hnumbered.nodup)
      (fun id hid => hnew id (hnumbered.bounds id (hids ▸ hid)).1) hsite huse
  refine ⟨⟨hids, hnumbered.nodup⟩, fun site hsite id name huse => ⟨?_, ?_⟩, fun id hid => ?_⟩
  · exact (exists_congr (hbinds site hsite id name huse)).trans Position.exists_binds_iff
  · exact hbinds site hsite id name huse
  · exact getElem?_insertMany_recorded_of_not_mem
      (((map_fst_uses_of_clean hclean).trans hids).symm ▸ hid)

/-- Uses of names from scopes further in, and of a variable in its own initial value. -/
def nestedUses : String :=
  "class C { m(b) { { var a = a = b; fun f() { this.x = a; g(); } } } }"

/-- The use with the id `3` is `this`, which is out of the function, the block and the method; that
with the id `5` is the global `g`. -/
theorem table_nestedUses_eq_declarations :
    (resolve (parse (tokensOf (scan nestedUses)) 0).statements).distances =
        [(1, 1), (2, 0), (3, 3), (4, 1)] ∧
      ∀ site ∈ programSites (parse (tokensOf (scan nestedUses)) 0).statements, ∀ name : Token,
        (site.item.use? = some (3, name) → site.place.Binds name.lexeme 3) ∧
          (site.item.use? = some (5, name) → ∀ c ∈ site.place.scopes, ¬ c.Declares name.lexeme) := by
  have hdistances : (resolve (parse (tokensOf (scan nestedUses)) 0).statements).distances =
      [(1, 1), (2, 0), (3, 3), (4, 1)] := by decide +kernel
  have hclean : (resolve (parse (tokensOf (scan nestedUses)) 0).statements).faults = [] := by
    decide +kernel
  have hempty : ∀ id, 0 ≤ id → (∅ : Std.TreeMap NodeId Nat)[id]? = none := fun id _ => by simp
  obtain ⟨-, hsites, -⟩ := table_resolve_eq_declarations rfl hclean hempty rfl
  rw [hdistances] at hsites
  refine ⟨hdistances, fun site hsite name => ⟨fun huse => ?_, fun huse c hc hdeclares => ?_⟩⟩
  · exact ((hsites site hsite 3 name huse).2 3).mp (by decide +kernel)
  · obtain ⟨d, hd⟩ := (hsites site hsite 5 name huse).1.mpr ⟨c, hc, hdeclares⟩
    have hnone : ((∅ : Std.TreeMap NodeId Nat).insertMany
        [(1, 1), (2, 0), (3, 3), (4, 1)])[5]? = none := by decide +kernel
    rw [hnone] at hd
    cases hd

end LoxLang
