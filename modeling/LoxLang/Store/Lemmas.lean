import LoxLang.Store.Basic

/-!
# Store/Lemmas — what each operation does to the bindings

A store is read through `local?`, `enclosing?`, `classOf?` and `field?`. The lemmas say what becomes
of these when a frame or an instance is made and when a name or a field is written.
-/

namespace LoxLang.Store

variable (s : Store) (r r' : FrameRef) (name name' : String) (v : Value)

/-! ## Making frames -/

@[simp] theorem frames_size_newFrame (names : Std.TreeMap String Value) (e : Option FrameRef) :
    (s.newFrame names e).2.frames.size = s.frames.size + 1 := by
  simp [newFrame]

/-- A new frame has the names that it was given. -/
@[simp] theorem local?_newFrame_self (names : Std.TreeMap String Value) (e : Option FrameRef) :
    (s.newFrame names e).2.local? (s.newFrame names e).1 name = names[name]? := by
  simp [newFrame, local?]

/-- A new frame changes no name of another. -/
theorem local?_newFrame_of_lt (names : Std.TreeMap String Value) (e : Option FrameRef)
    (h : r < s.frames.size) : (s.newFrame names e).2.local? r name = s.local? r name := by
  simp [newFrame, local?, Array.getElem?_push, Nat.ne_of_lt h]

@[simp] theorem enclosing?_newFrame_self (names : Std.TreeMap String Value)
    (e : Option FrameRef) :
    (s.newFrame names e).2.enclosing? (s.newFrame names e).1 = e := by
  simp [newFrame, enclosing?]

theorem enclosing?_newFrame_of_lt (names : Std.TreeMap String Value) (e : Option FrameRef)
    (h : r < s.frames.size) : (s.newFrame names e).2.enclosing? r = s.enclosing? r := by
  simp [newFrame, enclosing?, Array.getElem?_push, Nat.ne_of_lt h]

/-- An empty frame has no names. -/
@[simp] theorem local?_newFrame_empty (e : Option FrameRef) :
    (s.newFrame ∅ e).2.local? r name = s.local? r name := by
  simp only [newFrame, local?, Array.getElem?_push]
  split
  · next hr => simp [hr]
  · rfl

/-- A frame that is made with a name is one that gets the name afterwards. -/
theorem newFrame_insert (names : Std.TreeMap String Value) (e : Option FrameRef) :
    (s.newFrame (names.insert name v) e).2 =
      (s.newFrame names e).2.define s.frames.size name v := by
  simp only [newFrame, define, mk.injEq, and_true]
  refine Array.ext_getElem? fun i => ?_
  simp only [Array.getElem?_modify, Array.getElem?_push]
  by_cases hi : i = s.frames.size
  · simp [hi]
  · simp [hi, Ne.symm hi]

@[simp] theorem instances_newFrame (names : Std.TreeMap String Value) (e : Option FrameRef) :
    (s.newFrame names e).2.instances = s.instances := rfl

/-! ## Writing names -/

@[simp] theorem instances_define : (s.define r name v).instances = s.instances := rfl

@[simp] theorem frames_size_define : (s.define r name v).frames.size = s.frames.size := by
  simp [define]

@[simp] theorem enclosing?_define : (s.define r name v).enclosing? r' = s.enclosing? r' := by
  simp only [define, enclosing?, Array.getElem?_modify]
  split
  · cases s.frames[r']? <;> rfl
  · rfl

/-- A name that is defined is there. -/
theorem local?_define_self (h : r < s.frames.size) :
    (s.define r name v).local? r name = some v := by
  simp [define, local?, Array.getElem?_modify, Array.getElem?_eq_getElem h]

/-- A definition changes no other name. -/
theorem local?_define_of_ne (h : r ≠ r' ∨ name ≠ name') :
    (s.define r name v).local? r' name' = s.local? r' name' := by
  simp only [define, local?, Array.getElem?_modify]
  split
  · next hr =>
    have hname : name ≠ name' := h.resolve_left (· hr)
    cases s.frames[r']? <;> simp [Std.TreeMap.getElem?_insert, hname]
  · rfl

/-! ## At a distance -/

/-- A name that is bound at its distance is read there. -/
theorem getAt_eq_ok {n : Nat} {holder : FrameRef} (hup : s.up? n r = some holder)
    (hlocal : s.local? holder name = some v) : s.getAt r n name = .ok v := by
  simp only [getAt, ancestor, hup, bind, Except.bind, hlocal]
  rfl

theorem locateAt_eq_ok {n : Nat} {holder : FrameRef} (hup : s.up? n r = some holder)
    (hlocal : s.local? holder name = some v) : s.locateAt r n name = .ok holder := by
  simp only [locateAt, ancestor, hup, bind, Except.bind, hlocal]
  rfl

/-- A name that is not bound at its distance is not looked for elsewhere. -/
theorem locateAt_eq_error {n : Nat} {holder : FrameRef} (hup : s.up? n r = some holder)
    (hlocal : s.local? holder name = none) :
    s.locateAt r n name = .error (.undefinedVariable name) := by
  simp only [locateAt, ancestor, hup, bind, Except.bind, hlocal]
  rfl

/-! ## From the outermost frame -/

section

variable {s r} (hr : r < s.frames.size) (hroot : s.enclosing? r = none)

include hr hroot

/-- Without an enclosing frame the search ends at once. -/
theorem holder?_of_root :
    s.holder? r name = if (s.local? r name).isSome then some r else none := by
  obtain ⟨n, hn⟩ := Nat.exists_eq_add_one_of_ne_zero (Nat.ne_zero_of_lt hr)
  rw [holder?, hn, holderWithin, hroot]
  rfl

theorem locate_of_root : s.locate r name =
    if (s.local? r name).isSome then .ok r else .error (.undefinedVariable name) := by
  rw [locate, holder?_of_root name hr hroot]
  cases (s.local? r name).isSome <;> rfl

theorem get_of_root :
    s.get r name = (s.local? r name).elim (.error (.undefinedVariable name)) .ok := by
  rw [get, holder?_of_root name hr hroot]
  cases hlocal : s.local? r name with
  | none => rfl
  | some v => simp [hlocal]

end

/-! ## Instances -/

@[simp] theorem classOf?_newInstance_self (c : Class) :
    (s.newInstance c).2.classOf? (s.newInstance c).1 = some c := by
  simp [newInstance, classOf?]

/-- A new instance has no fields. -/
@[simp] theorem field?_newInstance_self (c : Class) :
    (s.newInstance c).2.field? (s.newInstance c).1 name = none := by
  simp [newInstance, field?]

@[simp] theorem classOf?_setField (i j : InstanceRef) :
    (s.setField i name v).classOf? j = s.classOf? j := by
  simp only [setField, classOf?, Array.getElem?_modify]
  split
  · cases s.instances[j]? <;> rfl
  · rfl

/-- A field that is set is there. -/
theorem field?_setField_self (i : InstanceRef) (h : i < s.instances.size) :
    (s.setField i name v).field? i name = some v := by
  simp [setField, field?, Array.getElem?_modify, Array.getElem?_eq_getElem h]

/-- Setting a field changes no other. -/
theorem field?_setField_of_ne (i j : InstanceRef) (h : i ≠ j ∨ name ≠ name') :
    (s.setField i name v).field? j name' = s.field? j name' := by
  simp only [setField, field?, Array.getElem?_modify]
  split
  · next hi =>
    have hname : name ≠ name' := h.resolve_left (· hi)
    cases s.instances[j]? <;> simp [Std.TreeMap.getElem?_insert, hname]
  · rfl

/-! ## At each place -/

theorem local?_newFrame (names : Std.TreeMap String Value) (e : Option FrameRef) :
    (s.newFrame names e).2.local? r name =
      if r = s.frames.size then names[name]? else s.local? r name := by
  simp only [newFrame, local?, Array.getElem?_push]
  split <;> rfl

theorem enclosing?_newFrame (names : Std.TreeMap String Value) (e : Option FrameRef) :
    (s.newFrame names e).2.enclosing? r = if r = s.frames.size then e else s.enclosing? r := by
  simp only [newFrame, enclosing?, Array.getElem?_push]
  split <;> rfl

theorem local?_define :
    (s.define r name v).local? r' name' =
      if r = r' ∧ name = name' ∧ r < s.frames.size then some v else s.local? r' name' := by
  by_cases hplace : r = r' ∧ name = name'
  · obtain ⟨rfl, rfl⟩ := hplace
    by_cases hr : r < s.frames.size
    · rw [if_pos ⟨rfl, rfl, hr⟩, local?_define_self _ _ _ _ hr]
    · have hnone : s.frames[r]? = none := Array.getElem?_eq_none (Nat.le_of_not_lt hr)
      rw [if_neg fun h => hr h.2.2]
      simp [define, local?, Array.getElem?_modify, hnone]
  · rw [if_neg fun h => hplace ⟨h.1, h.2.1⟩]
    exact local?_define_of_ne _ _ _ _ _ _ (Decidable.not_and_iff_or_not.mp hplace)

theorem classOf?_newInstance (c : Class) (i : InstanceRef) :
    (s.newInstance c).2.classOf? i = if i = s.instances.size then some c else s.classOf? i := by
  simp only [newInstance, classOf?, Array.getElem?_push]
  split <;> rfl

theorem field?_newInstance (c : Class) (i : InstanceRef) :
    (s.newInstance c).2.field? i name = if i = s.instances.size then none else s.field? i name := by
  simp only [newInstance, field?, Array.getElem?_push]
  split <;> simp

theorem field?_setField (i j : InstanceRef) :
    (s.setField i name v).field? j name' =
      if i = j ∧ name = name' ∧ i < s.instances.size then some v else s.field? j name' := by
  by_cases hplace : i = j ∧ name = name'
  · obtain ⟨rfl, rfl⟩ := hplace
    by_cases hi : i < s.instances.size
    · rw [if_pos ⟨rfl, rfl, hi⟩, field?_setField_self _ _ _ _ hi]
    · have hnone : s.instances[i]? = none := Array.getElem?_eq_none (Nat.le_of_not_lt hi)
      rw [if_neg fun h => hi h.2.2]
      simp [setField, field?, Array.getElem?_modify, hnone]
  · rw [if_neg fun h => hplace ⟨h.1, h.2.1⟩]
    exact field?_setField_of_ne _ _ _ _ _ _ (Decidable.not_and_iff_or_not.mp hplace)

end LoxLang.Store
