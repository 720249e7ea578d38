import Mathlib
import LoxLang.Proofs.Run.Obedience

/-!
# Proofs/Run/Origins — where classes come from

Only a class declaration makes a class. So whatever property the classes have that are made on the
way of a call, every class has it that an instance is of (`origins`); and behind an action of a
session each instance is of a class that was declared in that action or in an earlier one
(`Session.During.knows`).
-/

namespace LoxLang

/-- **The calls in the past of a session**: those that were made in the actions that led to it. -/
inductive Session.Past (host : Host) : Session → Nat → Task → Machine → Prop
  | now {s : Session} {a : Action} {n : Nat} {task : Task} {m : Machine}
      (h : s.During host a n task m) : Past host (s.act host a) n task m
  | earlier {s : Session} {n : Nat} {task : Task} {m : Machine} (a : Action)
      (h : Past host s n task m) : Past host (s.act host a) n task m

/-- **The class was made in the past of the session**, when this declaration was executed on the
machine `m`. -/
structure Session.Declared (host : Host) (s : Session) (c : Class) (name : Token)
    (methods : List Routine) (m : Machine) : Prop where
  past : ∃ n, s.Past host (n + 1) (.execute (.classDecl name methods)) m
  made : c = m.declaredClass name methods

/-- All classes are such, and so are those that are made on the way of a call. -/
def origins (host : Host) (Made : Class → Prop) : Discipline where
  Shape m := ∀ {r c}, m.store.classOf? r = some c → Made c
  Later _ _ := True
  Fine _ v := ∀ c, v = .cls c → Made c
  Home _ _ := True
  Name _ := True
  Owned _ _ := True
  Code n task m := ∀ {k name methods m'},
    Arrives host n task m (k + 1) (.execute (.classDecl name methods)) m' →
      Made (m'.declaredClass name methods)

section

variable {host : Host} {Made Made' : Class → Prop} {s : Session} {n : Nat} {task : Task}
  {m : Machine}

/-- Only a declaration that is executed makes a class, so no other step brings a class of another
origin. -/
theorem lawful_origins (hhost : host.Quiet) : (origins host Made).Lawful host where
  quiet := hhost
  refl _ := trivial
  trans _ _ := trivial
  fine _ hv := hv
  home _ _ := trivial
  owned _ _ := trivial
  idle hidles hm := ⟨fun hc => hm (hidles.store ▸ hc), trivial⟩
  taken _ _ _ := trivial
  framed _ hm _ := ⟨hm, trivial, trivial⟩
  instanced {m c} hm hc := by
    refine ⟨fun {r c'} hr => ?_, trivial, fun _ heq => by cases heq⟩
    change (m.store.newInstance c).2.classOf? r = some c' at hr
    rw [Store.classOf?_newInstance] at hr
    split at hr
    · cases hr
      exact hc c rfl
    · exact hm hr
  defining _ hm _ := ⟨hm, trivial⟩
  setting _ _ _ hm := ⟨fun hr => hm ((Store.classOf?_setField ..).symm.trans hr), trivial⟩
  constant _ c _ heq := by cases c <;> cases heq
  hostFunction _ _ _ _ heq := by cases heq
  closure _ _ _ _ heq := by cases heq
  cls hcode _ _ heq := by
    cases heq
    exact hcode .refl
  calledHome _ := trivial
  methodHome _ _ _ := trivial
  bound _ _ _ _ heq := by cases heq
  declares _ _ := trivial
  assigns _ _ _ := .inl trivial
  code hmakes _ _ _ hcode _ _ _ _ harrives := hcode (.after hmakes harrives)

/-- With more classes allowed for, a machine is still in order. -/
theorem Discipline.Ok.origins_mono (h : ∀ c, Made c → Made' c) (hok : (origins host Made).Ok m) :
    (origins host Made').Ok m where
  shape hc := h _ (hok.shape hc)
  names hv c heq := h c (hok.names hv c heq)
  fields hv c heq := h c (hok.fields hv c heq)

/-- The class was made in the past of the session. -/
def Session.Knows (host : Host) (s : Session) (c : Class) : Prop :=
  ∃ name methods m, s.Declared host c name methods m

/-- The discipline that each class was made in the past of the session. -/
abbrev Session.origins (host : Host) (s : Session) : Discipline :=
  LoxLang.origins host (s.Knows host)

/-- What is declared stays so. -/
theorem Session.Knows.act {c : Class} (h : s.Knows host c) (a : Action) :
    (s.act host a).Knows host c := by
  obtain ⟨name, methods, m, ⟨k, hpast⟩, hmade⟩ := h
  exact ⟨name, methods, m, ⟨k, .earlier a hpast⟩, hmade⟩

/-- What is made in an action was made in the past of the session behind it. -/
theorem Session.knows_of_during {a : Action} {name : Token} {methods : List Routine}
    (h : s.During host a (n + 1) (.execute (.classDecl name methods)) m) :
    (s.act host a).Knows host (m.declaredClass name methods) :=
  ⟨name, methods, m, ⟨n, .now h⟩, rfl⟩

/-- An action is allowed the classes that its own declarations make. -/
theorem Session.admits_origins {a : Action} (hok : ((s.act host a).origins host).Ok s.machine) :
    ((s.act host a).origins host).Admits host s a := by
  cases a with
  | run fuel source =>
    refine fun hexecutes => ⟨fun hc => ?_, trivial, fun hreaches _ => ?_⟩
    · exact hok.shape (s.store_prepared source ▸ hc)
    · exact fun harrives => knows_of_during (.run hexecutes hreaches harrives)
  | evaluate fuel source =>
    exact fun hread _ _ _ _ harrives => knows_of_during (.evaluate hread harrives)
  | defineHost => trivial

/-- Between actions each class was made in the past. -/
theorem Session.Reached.ok_origins (hhost : host.Quiet) (h : s.Reached host) :
    (s.origins host).Ok s.machine := by
  have hact : ∀ {s : Session} (a : Action), (s.origins host).Ok s.machine →
      ((s.act host a).origins host).Ok (s.act host a).machine := fun a hok =>
    have hok' := hok.origins_mono fun _ hc => hc.act a
    ((lawful_origins hhost).act hok' trivial (admits_origins hok')).1
  induction h with
  | start recover capacity =>
    refine (lawful_origins hhost).ok_start (fun capacity r c hc => ?_) recover capacity
    change (Store.empty.newFrame ∅ none).2.classOf? r = some c at hc
    simp [Store.empty, Store.newFrame, Store.classOf?] at hc
  | defineHost _ name arity entry ih => exact hact (.defineHost name arity entry) ih
  | run _ fuel source ih => exact hact (.run fuel source) ih
  | evaluate _ fuel source ih => exact hact (.evaluate fuel source) ih

/-- **Each instance is of a class that was declared**, in the action that is going on or before it. -/
theorem Session.During.knows (hhost : host.Quiet) (h : s.Reached host) {a : Action}
    (hduring : s.During host a n task m) {r : InstanceRef} {c : Class}
    (hc : m.store.classOf? r = some c) : (s.act host a).Knows host c := by
  have hok := (h.ok_origins hhost).origins_mono fun _ hc => hc.act a
  exact ((lawful_origins hhost).during hok trivial (admits_origins hok) hduring).ok.shape hc

end

end LoxLang
