import Mathlib
import LoxLang.Eval.Basic

/-!
# Proofs/Store/Pairs — values that correspond

Machines are compared in several ways: with lexical scoping, with machines that have other node ids,
and with machines that have other frames. In all of them values correspond that differ at most in
their closures (`Value.Paired`); when closures correspond is what the comparisons differ in.

Operators look at the *core* of a value, in which closures are left out (`Value.core`), and what
they give is a constant. So they give the same for values that correspond, and so do texts, if
functions that correspond have one name.
-/

namespace LoxLang

/-! ## Options, results and tables -/

section

variable {α β : Type} {P Q : α → β → Prop} {o : Option α} {o' : Option β}

theorem optionRel_mono (h : ∀ {a b}, P a b → Q a b) :
    ∀ {o : Option α} {o' : Option β}, Option.Rel P o o' → Option.Rel Q o o'
  | _, _, .none => .none
  | _, _, .some hP => .some (h hP)

/-- What is there on the one side has a counterpart on the other. -/
theorem optionRel_some {a : α} (h : Option.Rel P o o') (ho : o = some a) :
    ∃ b, o' = some b ∧ P a b := by
  subst ho
  cases h with
  | some hP => exact ⟨_, rfl, hP⟩

theorem isSome_eq_of_optionRel (h : Option.Rel P o o') : o.isSome = o'.isSome := by
  cases h <;> rfl

/-- Both are values that correspond, or both are errors that do. -/
inductive ExceptRel {ε : Type} (errors : ε → ε → Prop) (values : α → β → Prop) :
    Except ε α → Except ε β → Prop
  | ok {a : α} {b : β} (h : values a b) : ExceptRel errors values (.ok a) (.ok b)
  | error {e e' : ε} (h : errors e e') : ExceptRel errors values (.error e) (.error e')

/-- Tables that are made of pairs that correspond correspond. -/
theorem insertMany_rel {l : List (String × α)} {l' : List (String × β)}
    (h : List.Forall₂ (fun a b => a.1 = b.1 ∧ P a.2 b.2) l l') :
    ∀ {t : Std.TreeMap String α} {t' : Std.TreeMap String β},
      (∀ x : String, Option.Rel P t[x]? t'[x]?) →
      ∀ x : String, Option.Rel P (t.insertMany l)[x]? (t'.insertMany l')[x]? := by
  induction h with
  | nil => exact fun ht => ht
  | @cons a b l l' hab _ ih =>
    intro t t' ht
    rw [Std.TreeMap.insertMany_cons, Std.TreeMap.insertMany_cons]
    refine ih fun x => ?_
    rw [Std.TreeMap.getElem?_insert, Std.TreeMap.getElem?_insert, hab.1]
    split
    · exact .some hab.2
    · exact ht x

/-- **Tables made from paired lists are paired**, entry by entry. -/
theorem ofList_rel {l : List (String × α)} {l' : List (String × β)}
    (h : List.Forall₂ (fun a b => a.1 = b.1 ∧ P a.2 b.2) l l') (x : String) :
    Option.Rel P (Std.TreeMap.ofList l)[x]? (Std.TreeMap.ofList l')[x]? := by
  rw [Std.TreeMap.ofList_eq_insertMany_empty, Std.TreeMap.ofList_eq_insertMany_empty]
  exact insertMany_rel h (fun x => by simp) x

end

/-! ## Operators give constants -/

section

variable {operator : Kind} {v u w : Value}

/-- What an operator gives is no object. -/
theorem applyUnary_constant (h : applyUnary operator v = .ok w) : ∃ c : Constant, w = c.value := by
  unfold applyUnary at h
  split at h
  · split at h
    · cases h
      exact ⟨.number _, rfl⟩
    · cases h
  · cases h
    exact ⟨.bool _, rfl⟩
  · cases h

/-- What comes of numbers is a constant. -/
theorem onNumbers_constant {f : Float → Float → Value} (hf : ∀ a b, ∃ c : Constant, f a b = c.value)
    (h : v.onNumbers f u = .ok w) : ∃ c : Constant, w = c.value := by
  unfold Value.onNumbers at h
  split at h
  · cases h
    exact hf _ _
  · cases h

/-- A sum or a joined text is a constant. -/
theorem add_constant (h : add v u = .ok w) : ∃ c : Constant, w = c.value := by
  unfold add at h
  split at h
  · cases h
    exact ⟨.number _, rfl⟩
  · cases h
    exact ⟨.string _, rfl⟩
  · cases h

theorem divide_constant (h : divide v u = .ok w) : ∃ c : Constant, w = c.value := by
  unfold divide at h
  split at h
  · split at h
    · cases h
    · cases h
      exact ⟨.number _, rfl⟩
  · cases h

/-- What an operator between two operands gives is no object. -/
theorem applyBinary_constant (h : applyBinary operator v u = .ok w) :
    ∃ c : Constant, w = c.value := by
  have hnumber : ∀ g : Float → Float → Float, ∀ a b : Float,
      ∃ c : Constant, Value.number (g a b) = c.value := fun _ _ _ => ⟨.number _, rfl⟩
  have hbool : ∀ g : Float → Float → Bool, ∀ a b : Float,
      ∃ c : Constant, Value.bool (g a b) = c.value := fun _ _ _ => ⟨.bool _, rfl⟩
  unfold applyBinary at h
  split at h
  · exact add_constant h
  · exact onNumbers_constant (hnumber _) h
  · exact onNumbers_constant (hnumber _) h
  · exact divide_constant h
  · exact onNumbers_constant (hbool _) h
  · exact onNumbers_constant (hbool _) h
  · exact onNumbers_constant (hbool _) h
  · exact onNumbers_constant (hbool _) h
  · cases h
    exact ⟨.bool _, rfl⟩
  · cases h
    exact ⟨.bool _, rfl⟩
  · cases h

end

/-! ## Operators do not look at closures -/

namespace Value

/-- What is left of a value where its closures are left out. -/
def core : Value → Value
  | .function id _ => .function id ⟨⟨⟨.eof, "", none, 0⟩, [], []⟩, 0, false⟩
  | .cls c => .cls ⟨c.id, "", ∅⟩
  | v => v

variable (v u : Value)

/-- Whether a value counts as true does not depend on what a function closes over. -/
theorem isTruthy_core : v.core.isTruthy = v.isTruthy := by
  cases v <;> rfl

theorem equals_core : v.core.equals u.core = v.equals u := by
  cases v <;> cases u <;> rfl

/-- Operators do not look at what a function closes over. -/
theorem applyUnary_core (operator : Kind) : applyUnary operator v.core = applyUnary operator v := by
  unfold applyUnary
  rw [isTruthy_core]
  cases v <;> rfl

theorem onNumbers_core (f : Float → Float → Value) :
    v.core.onNumbers f u.core = v.onNumbers f u := by
  cases v <;> cases u <;> rfl

theorem add_core : add v.core u.core = add v u := by
  cases v <;> cases u <;> rfl

theorem divide_core : divide v.core u.core = divide v u := by
  cases v <;> cases u <;> rfl

/-- The same holds of all binary operators. -/
theorem applyBinary_core (operator : Kind) :
    applyBinary operator v.core u.core = applyBinary operator v u := by
  unfold applyBinary
  simp only [add_core, divide_core, equals_core, onNumbers_core]

variable {v u} {v' u' : Value}

theorem isTruthy_of_core (h : v.core = v'.core) : v.isTruthy = v'.isTruthy := by
  rw [← v.isTruthy_core, h, isTruthy_core]

/-- Values with one core are equal to the same values. -/
theorem equals_of_core (hv : v.core = v'.core) (hu : u.core = u'.core) :
    v.equals u = v'.equals u' := by
  rw [← v.equals_core, hv, hu, equals_core]

end Value

/-! ## Values that correspond -/

/-- Classes with methods that correspond. -/
structure Class.Paired (methods : Closure → Closure → Prop) (c c' : Class) : Prop where
  id : c.id = c'.id
  name : c.name = c'.name
  methods : ∀ x : String, Option.Rel methods c.methods[x]? c'.methods[x]?

/-- **Values that differ at most in their closures**, and functions and methods that correspond. -/
inductive Value.Paired (functions methods : Closure → Closure → Prop) : Value → Value → Prop
  | constant (c : Constant) : Paired functions methods c.value c.value
  | host (id : ObjectId) (f : HostFunction) : Paired functions methods (.host id f) (.host id f)
  | function (id : ObjectId) {f f' : Closure} (h : functions f f') :
      Paired functions methods (.function id f) (.function id f')
  | cls {c c' : Class} (h : c.Paired methods c') : Paired functions methods (.cls c) (.cls c')
  | object (r : InstanceRef) : Paired functions methods (.object r) (.object r)

/-- Ends of statements that correspond. -/
inductive Flow.Paired (values : Value → Value → Prop) : Flow → Flow → Prop
  | normal : Paired values .normal .normal
  | returned {v v' : Value} (h : values v v') : Paired values (.returned v) (.returned v')

section

variable {functions functions' methods methods' : Closure → Closure → Prop} {c c' : Class}

theorem Class.Paired.imp (hmethods : ∀ {f f'}, methods f f' → methods' f f')
    (h : c.Paired methods c') : c.Paired methods' c' :=
  ⟨h.id, h.name, fun x => optionRel_mono hmethods (h.methods x)⟩

/-- Classes that correspond are called with as many arguments. -/
theorem Class.Paired.arity_eq (hmethods : ∀ {f f'}, methods f f' → f.arity = f'.arity)
    (h : c.Paired methods c') : c.arity = c'.arity := by
  have hinit := h.methods initializerName
  unfold Class.arity
  generalize c.methods[initializerName]? = o, c'.methods[initializerName]? = o' at hinit
  cases hinit with
  | none => rfl
  | some hf => exact hmethods hf

theorem Flow.Paired.imp {values values' : Value → Value → Prop} {flow flow' : Flow}
    (hvalues : ∀ {v v'}, values v v' → values' v v') (h : flow.Paired values flow') :
    flow.Paired values' flow' := by
  cases h with
  | normal => exact .normal
  | returned h => exact .returned (hvalues h)

namespace Value.Paired

variable {v v' u u' : Value}

/-- Values stay paired when less is asked of their functions. -/
theorem imp (hfunctions : ∀ {f f'}, functions f f' → functions' f f')
    (hmethods : ∀ {f f'}, methods f f' → methods' f f') (h : v.Paired functions methods v') :
    v.Paired functions' methods' v' := by
  cases h with
  | constant c => exact .constant c
  | host id f => exact .host id f
  | function id h => exact .function id (hfunctions h)
  | cls h => exact .cls (h.imp hmethods)
  | object r => exact .object r

/-- A function corresponds to functions only. -/
theorem of_function {id : ObjectId} {f : Closure} (h : Paired functions methods (.function id f) v) :
    ∃ f', functions f f' := by
  generalize hu : Value.function id f = u at h
  cases h with
  | constant c => cases c <;> cases hu
  | function _ hf =>
    cases hu
    exact ⟨_, hf⟩
  | _ => cases hu

/-- A class corresponds to classes only. -/
theorem of_cls (h : Paired functions methods (.cls c) v) : ∃ c', c.Paired methods c' := by
  generalize hu : Value.cls c = u at h
  cases h with
  | constant c => cases c <;> cases hu
  | cls hc =>
    cases hu
    exact ⟨_, hc⟩
  | _ => cases hu

/-- **Paired values differ only in what their functions close over.** -/
theorem core_eq (h : v.Paired functions methods v') : v.core = v'.core := by
  cases h with
  | cls h => rw [Value.core, Value.core, h.id]
  | _ => rfl

theorem isTruthy_eq (h : v.Paired functions methods v') : v.isTruthy = v'.isTruthy :=
  isTruthy_of_core h.core_eq

theorem truth (h : v.Paired functions methods v') :
    Paired functions methods (.bool v.isTruthy) (.bool v'.isTruthy) := by
  rw [h.isTruthy_eq]
  exact .constant (.bool _)

/-- Conditions that correspond hold or fail on both sides, also those that are left out. -/
theorem all_isTruthy_eq {o o' : Option Value} (h : Option.Rel (Paired functions methods) o o') :
    o.all Value.isTruthy = o'.all Value.isTruthy := by
  cases h with
  | none => rfl
  | some h => exact h.isTruthy_eq

theorem applyUnary_eq (h : v.Paired functions methods v') (operator : Kind) :
    applyUnary operator v = applyUnary operator v' := by
  rw [← v.applyUnary_core, h.core_eq, applyUnary_core]

/-- Operators give the same for paired operands, or the same fault. -/
theorem applyBinary_eq (hv : v.Paired functions methods v') (hu : u.Paired functions methods u')
    (operator : Kind) : applyBinary operator v u = applyBinary operator v' u' := by
  rw [← v.applyBinary_core, hv.core_eq, hu.core_eq, applyBinary_core]

/-- What operators give is no object, so it is the same on both sides. -/
theorem applyUnary (h : v.Paired functions methods v') (operator : Kind) :
    ExceptRel Eq (Paired functions methods) (applyUnary operator v) (applyUnary operator v') := by
  rw [h.applyUnary_eq]
  cases hout : LoxLang.applyUnary operator v' with
  | error fault => exact .error rfl
  | ok w =>
    obtain ⟨c, rfl⟩ := applyUnary_constant hout
    exact .ok (.constant c)

theorem applyBinary (hv : v.Paired functions methods v') (hu : u.Paired functions methods u')
    (operator : Kind) : ExceptRel Eq (Paired functions methods) (applyBinary operator v u)
      (applyBinary operator v' u') := by
  rw [hv.applyBinary_eq hu]
  cases hout : LoxLang.applyBinary operator v' u' with
  | error fault => exact .error rfl
  | ok w =>
    obtain ⟨c, rfl⟩ := applyBinary_constant hout
    exact .ok (.constant c)

end Value.Paired

/-! ## Stores whose instances are of classes that correspond -/

section

variable {s s' : Store}
  (hclasses : ∀ r, Option.Rel (Class.Paired methods) (s.classOf? r) (s'.classOf? r))

include hclasses

/-- Paired instances have paired methods. -/
theorem Store.method?_paired (r : InstanceRef) (x : String) :
    Option.Rel methods (s.method? r x) (s'.method? r x) := by
  have hclass := hclasses r
  unfold Store.method?
  generalize s.classOf? r = o, s'.classOf? r = o' at hclass
  cases hclass with
  | none => exact .none
  | some hc => exact hc.methods x

/-- Paired instances have the same name. -/
theorem Store.instanceName_paired (r : InstanceRef) :
    Value.instanceName s r = Value.instanceName s' r := by
  have hclass := hclasses r
  unfold Value.instanceName
  generalize s.classOf? r = o, s'.classOf? r = o' at hclass
  cases hclass with
  | none => rfl
  | some hc => exact hc.name

variable {v v' : Value} (hnames : ∀ {f f'}, functions f f' → f.name = f'.name)

include hnames

/-- **Values that correspond print alike.** -/
theorem Value.Paired.text_eq (h : v.Paired functions methods v') : v.text s = v'.text s' := by
  cases h with
  | constant c => rcases c with _ | (_ | _) | _ | _ <;> rfl
  | host => rfl
  | function id hf => simp only [Value.text, hnames hf]
  | cls hc => exact hc.name
  | object r => simp only [Value.text, Store.instanceName_paired hclasses]

/-- Values that correspond look alike to someone who inspects them. -/
theorem Value.Paired.inspection?_eq (h : v.Paired functions methods v') :
    v.inspection? s = v'.inspection? s' := by
  cases h with
  | constant c => cases c <;> rfl
  | host => rfl
  | function id hf => simp only [Value.inspection?, hnames hf]
  | cls hc => simp only [Value.inspection?, hc.name]
  | object r => simp only [Value.inspection?, Store.instanceName_paired hclasses]

end

end

end LoxLang
