import Mathlib
import LoxLang.Store.Lemmas

/-!
# Proofs/Store/Search — searching a name and going straight to its frame

The frames around a frame are its chain (`Store.Chain`). A frame is only ever made inside one that is
there already, so every frame is younger than the one around it (`Store.Younger`): chains end, and a
search that may pass as many frames as there are (`Store.holder?`) sees all of its chain.

Frames are shared, so a write in one of them shows from every frame whose chain leads there
first, and from no other (`get_define_of_bound`).

The main result is `search_eq_direct`: in a store that was built by any operations on frames, the
search for a name and the access at the distance of its nearest binding read the same, write the
same and fail alike.
-/

namespace LoxLang.Store

/-! ## Chains -/

/-- The frames around a frame, from the inside out. -/
inductive Chain (s : Store) : FrameRef → List FrameRef → Prop
  | outermost {r : FrameRef} (h : s.enclosing? r = none) : Chain s r []
  | inside {r e : FrameRef} {rs : List FrameRef} (h : s.enclosing? r = some e)
      (houter : Chain s e rs) : Chain s r (e :: rs)

/-- Every frame is younger than the frame around it. -/
def Younger (s : Store) : Prop :=
  ∀ r e : FrameRef, s.enclosing? r = some e → e < r

variable {s : Store} {r : FrameRef} {rs : List FrameRef} {name : String}

/-- Where enclosing frames are older, the frames around one are finitely many. -/
theorem Younger.exists_chain (h : s.Younger) (r : FrameRef) :
    ∃ rs, s.Chain r rs ∧ rs.length ≤ r := by
  induction r using Nat.strong_induction_on with
  | _ r ih =>
    cases he : s.enclosing? r with
    | none => exact ⟨[], .outermost he, Nat.zero_le r⟩
    | some e =>
      have hlt : e < r := h r e he
      obtain ⟨rs, hchain, hlength⟩ := ih e hlt
      exact ⟨e :: rs, .inside he hchain, Nat.lt_of_le_of_lt hlength hlt⟩

/-- There is one chain of frames around a frame. -/
theorem Chain.unique (h : s.Chain r rs) {rs' : List FrameRef} (h' : s.Chain r rs') : rs = rs' := by
  induction h generalizing rs' with
  | outermost he =>
    cases h' with
    | outermost => rfl
    | inside he' => cases he.symm.trans he'
  | inside he _ ih =>
    cases h' with
    | outermost he' => cases he.symm.trans he'
    | inside he' houter' =>
      cases Option.some.inj (he.symm.trans he')
      rw [ih houter']

/-- Steps up the frames are steps along the chain. -/
theorem Chain.up?_eq (h : s.Chain r rs) (d : Nat) : s.up? d r = (r :: rs)[d]? := by
  induction h generalizing d with
  | outermost he =>
    cases d with
    | zero => rfl
    | succ d => simp [up?, he]
  | inside he _ ih =>
    cases d with
    | zero => rfl
    | succ d => simp [up?, he, ih d]

/-- A search with enough steps finds the first frame of the chain that has the name. -/
theorem Chain.holderWithin_eq (h : s.Chain r rs) {n : Nat} (hn : rs.length < n) :
    s.holderWithin name n r = (r :: rs).find? fun e => (s.local? e name).isSome := by
  induction h generalizing n with
  | @outermost r he =>
    obtain ⟨n, rfl⟩ := Nat.exists_eq_add_one_of_ne_zero (Nat.ne_zero_of_lt hn)
    rw [holderWithin, he]
    cases hr : (s.local? r name).isSome <;> simp [List.find?, hr]
  | @inside r e rs he _ ih =>
    obtain ⟨n, rfl⟩ := Nat.exists_eq_add_one_of_ne_zero (Nat.ne_zero_of_lt hn)
    have houter := ih (Nat.lt_of_succ_lt_succ hn)
    rw [holderWithin, he, Option.bind_some, houter]
    cases hr : (s.local? r name).isSome <;> simp [List.find?, hr]

theorem lt_size_of_local? {v : Value} (h : s.local? r name = some v) : r < s.frames.size := by
  by_contra hge
  simp [local?, Array.getElem?_eq_none (Nat.le_of_not_lt hge)] at h

theorem lt_size_of_enclosing? {e : FrameRef} (h : s.enclosing? r = some e) :
    r < s.frames.size := by
  by_contra hge
  simp [enclosing?, Array.getElem?_eq_none (Nat.le_of_not_lt hge)] at h

/-- **A search sees the whole chain.** -/
theorem Younger.holder?_eq (h : s.Younger) (hchain : s.Chain r rs) :
    s.holder? r name = (r :: rs).find? fun e => (s.local? e name).isSome := by
  by_cases hr : r < s.frames.size
  · obtain ⟨rs', hchain', hlength⟩ := h.exists_chain r
    cases hchain.unique hchain'
    exact hchain.holderWithin_eq (Nat.lt_of_le_of_lt hlength hr)
  · -- a place without a frame has neither names nor a frame around it
    have hlocal : s.local? r name = none := by
      by_contra hsome
      obtain ⟨v, hv⟩ := Option.ne_none_iff_exists'.mp hsome
      exact hr (lt_size_of_local? hv)
    cases hchain with
    | inside he => exact absurd (lt_size_of_enclosing? he) hr
    | outermost he =>
      rw [holder?]
      cases s.frames.size <;> simp [holderWithin, hlocal, he]

/-! ## The nearest binding -/

/-- The nearest of some frames that binds the name is `holder`, with `d` others before it. -/
structure Nearest (s : Store) (name : String) (frames : List FrameRef) (d : Nat)
    (holder : FrameRef) : Prop where
  at_distance : frames[d]? = some holder
  binds : (s.local? holder name).isSome = true
  free : ∀ k < d, ∀ e, frames[k]? = some e → s.local? e name = none

/-- The search finds the nearest frame that has the name. -/
theorem Nearest.find?_eq {frames : List FrameRef} {d : Nat} {holder : FrameRef}
    (h : s.Nearest name frames d holder) :
    (frames.find? fun e => (s.local? e name).isSome) = some holder := by
  induction frames generalizing d with
  | nil => cases h.at_distance
  | cons r rs ih =>
    cases d with
    | zero =>
      cases h.at_distance
      exact List.find?_cons_of_pos h.binds
    | succ d =>
      have hr : s.local? r name = none := h.free 0 (Nat.succ_pos d) r rfl
      rw [List.find?_cons_of_neg (by simp [hr])]
      exact ih ⟨h.at_distance, h.binds, fun k hk e he => h.free (k + 1) (Nat.succ_lt_succ hk) e he⟩

/-- What the search finds is the nearest one. -/
theorem exists_nearest_of_find? {frames : List FrameRef} {holder : FrameRef}
    (h : (frames.find? fun e => (s.local? e name).isSome) = some holder) :
    ∃ d, s.Nearest name frames d holder := by
  obtain ⟨hbinds, d, hd, hholder, hfree⟩ := List.find?_eq_some_iff_getElem.mp h
  refine ⟨d, ?_, hbinds, fun k hk e he => ?_⟩
  · rw [List.getElem?_eq_getElem hd, hholder]
  · have hk' : k < frames.length := Nat.lt_trans hk hd
    rw [List.getElem?_eq_getElem hk'] at he
    cases he
    simpa using hfree k hk

/-- What the search finds is the nearest binding. -/
theorem Younger.holder?_eq_some_iff (h : s.Younger) (hchain : s.Chain r rs) {holder : FrameRef} :
    s.holder? r name = some holder ↔ ∃ d, s.Nearest name (r :: rs) d holder := by
  rw [h.holder?_eq hchain]
  exact ⟨exists_nearest_of_find?, fun ⟨_, hnearest⟩ => hnearest.find?_eq⟩

/-! ## Writing a name that is bound -/

section

variable {holder : FrameRef} (hbound : (s.local? holder name).isSome = true) (v : Value)

include hbound

/-- A name that is bound stays so, and no other gets bound. -/
theorem isSome_local?_define (r : FrameRef) (x : String) :
    ((s.define holder name v).local? r x).isSome = (s.local? r x).isSome := by
  by_cases heq : holder = r ∧ name = x
  · obtain ⟨rfl, rfl⟩ := heq
    obtain ⟨u, hu⟩ := Option.isSome_iff_exists.mp hbound
    rw [local?_define_self _ _ _ _ (lt_size_of_local? hu), hbound]
    rfl
  · rw [local?_define_of_ne _ _ _ _ _ _ (not_and_or.mp heq)]

/-- A definition of a name that a frame has does not move any name. -/
theorem holderWithin_define (x : String) : ∀ (n : Nat) (r : FrameRef),
    (s.define holder name v).holderWithin x n r = s.holderWithin x n r
  | 0, _ => rfl
  | n + 1, r => by
    rw [holderWithin, holderWithin, isSome_local?_define hbound, enclosing?_define]
    simp only [holderWithin_define x n]

/-- A search finds the same frames as before. -/
theorem holder?_define (r : FrameRef) (x : String) :
    (s.define holder name v).holder? r x = s.holder? r x := by
  rw [holder?, holder?, frames_size_define, holderWithin_define hbound]

/-- **A write is seen from just the frames whose search finds the frame that is written.** -/
theorem get_define_of_bound (r : FrameRef) (x : String) :
    (s.define holder name v).get r x =
      if x = name ∧ s.holder? r name = some holder then .ok v else s.get r x := by
  obtain ⟨u, hu⟩ := Option.isSome_iff_exists.mp hbound
  rw [get, holder?_define hbound]
  by_cases heq : x = name ∧ s.holder? r name = some holder
  · rw [if_pos heq]
    obtain ⟨rfl, hholder⟩ := heq
    rw [hholder, Option.bind_some, local?_define_self _ _ _ _ (lt_size_of_local? hu)]
  · rw [if_neg heq, get]
    cases hholder : s.holder? r x with
    | none => rfl
    | some e =>
      have hother : holder ≠ e ∨ name ≠ x := by
        by_contra hsame
        simp only [not_or, not_not] at hsame
        obtain ⟨rfl, rfl⟩ := hsame
        exact heq ⟨rfl, hholder⟩
      rw [Option.bind_some, Option.bind_some, local?_define_of_ne _ _ _ _ _ _ hother]

end

/-! ## Stores that are built -/

/-- An operation on frames. -/
inductive FrameOp where
  | new
  /-- A frame inside of another. -/
  | child (e : FrameRef)
  | define (r : FrameRef) (name : String) (v : Value)
  | assign (r : FrameRef) (name : String) (v : Value)
  | assignAt (r : FrameRef) (d : Nat) (name : String) (v : Value)

/-- The store behind an operation. One that fails leaves the store as it is. -/
def perform (s : Store) : FrameOp → Store
  | .new => (s.newFrame ∅ none).2
  | .child e => (s.newFrame ∅ (some e)).2
  | .define r name v => s.define r name v
  | .assign r name v => (s.assign r name v).toOption.getD s
  | .assignAt r d name v => (s.assignAt r d name v).toOption.getD s

/-- The frame that an operation is about. -/
def FrameOp.frame? : FrameOp → Option FrameRef
  | .new => none
  | .child r | .define r _ _ | .assign r _ _ | .assignAt r _ _ _ => some r

/-- **The stores that come about by operations on frames**, each on a frame that was made before. -/
inductive Built : Store → Prop
  | empty : Built .empty
  | perform {s : Store} (h : Built s) (op : FrameOp) (hop : ∀ r ∈ op.frame?, r < s.frames.size) :
      Built (s.perform op)

/-- A definition encloses no frame. -/
theorem Younger.define (h : s.Younger) (r : FrameRef) (name : String) (v : Value) :
    (s.define r name v).Younger := by
  intro r' e he
  rw [enclosing?_define] at he
  exact h r' e he

/-- A new frame is younger than the one around it. -/
theorem Younger.newFrame (h : s.Younger) {e : Option FrameRef}
    (he : ∀ r ∈ e, r < s.frames.size) (names : Std.TreeMap String Value) :
    (s.newFrame names e).2.Younger := by
  intro r e' hr
  have hlt := lt_size_of_enclosing? hr
  rw [frames_size_newFrame] at hlt
  rcases Nat.lt_succ_iff_lt_or_eq.mp hlt with hold | rfl
  · rw [enclosing?_newFrame_of_lt _ _ _ _ hold] at hr
    exact h r e' hr
  · exact he e' ((enclosing?_newFrame_self s names e).symm.trans hr)

/-- A write that is tried. -/
theorem Younger.map_define (h : s.Younger) (holder : Except RuntimeFault FrameRef) (name : String)
    (v : Value) : ((holder.map (s.define · name v)).toOption.getD s).Younger := by
  cases holder with
  | error fault => exact h
  | ok r => exact h.define r name v

/-- **In a store that was built, enclosing frames are older.** -/
theorem Built.younger (h : Built s) : s.Younger := by
  induction h with
  | empty =>
    intro r e he
    cases lt_size_of_enclosing? he
  | perform _ op hop ih =>
    cases op with
    | new => exact ih.newFrame (by simp) ∅
    | child e => exact ih.newFrame hop ∅
    | define r name v => exact ih.define r name v
    | assign r name v => exact ih.map_define (locate _ r name) name v
    | assignAt r d name v => exact ih.map_define (locateAt _ r d name) name v

/-! ## Search and access at a distance -/

/-- A name is read where it is held. -/
theorem get_of_holder? {holder : FrameRef} {u : Value} (h : s.holder? r name = some holder)
    (hu : s.local? holder name = some u) : s.get r name = .ok u := by
  rw [get, h, Option.bind_some, hu]

/-- A name is assigned where it is held. -/
theorem assign_of_holder? {holder : FrameRef} (h : s.holder? r name = some holder) (v : Value) :
    s.assign r name v = .ok (s.define holder name v) := by
  rw [assign, locate, h]
  rfl

theorem get_of_none (h : s.holder? r name = none) : s.get r name = .error (.undefinedVariable name) := by
  rw [get, h]
  rfl

theorem assign_of_none (h : s.holder? r name = none) (v : Value) :
    s.assign r name v = .error (.undefinedVariable name) := by
  rw [assign, locate, h]
  rfl

/-- An ancestor is missing if and only if the chain is too short. -/
theorem Chain.ancestor_eq_error_iff (h : s.Chain r rs) (d : Nat) :
    (∃ fault, s.ancestor r d name = .error fault) ↔ rs.length < d := by
  have hup : s.up? d r = none ↔ rs.length < d := by
    rw [h.up?_eq, List.getElem?_eq_none_iff, List.length_cons]
    exact Nat.succ_le_iff
  rw [← hup, ancestor]
  cases s.up? d r <;> simp

/-- **Searching a name and going straight to its frame come to the same.** In a store that was built
by operations on frames every chain ends. Where a frame of the chain binds the name, the search and
the access at the distance of the nearest such frame read the same value; both can write it, with
the same store, in which the new value shows from just the frames whose nearest binding of the name
is that one. Where no frame of the chain binds it, reading and writing fail, and nothing is
changed. An access at a distance misses its frame just if the chain is shorter. -/
theorem search_eq_direct (h : Built s) (r : FrameRef) (name : String) :
    ∃ rs, s.Chain r rs ∧
    (∀ d holder, s.Nearest name (r :: rs) d holder →
      (∃ u, s.get r name = .ok u ∧ s.getAt r d name = .ok u) ∧
      ∀ v, ∃ s', s.assign r name v = .ok s' ∧ s.assignAt r d name v = .ok s' ∧
        ∀ g gs x, s.Chain g gs →
          (x = name ∧ (∃ k, s.Nearest name (g :: gs) k holder) → s'.get g x = .ok v) ∧
          (¬ (x = name ∧ ∃ k, s.Nearest name (g :: gs) k holder) → s'.get g x = s.get g x)) ∧
    ((∀ e ∈ r :: rs, s.local? e name = none) →
      s.get r name = .error (.undefinedVariable name) ∧
      ∀ v, s.assign r name v = .error (.undefinedVariable name) ∧
        s.perform (.assign r name v) = s) ∧
    ∀ d, (∃ fault, s.ancestor r d name = .error fault) ↔ rs.length < d := by
  have hyounger := h.younger
  obtain ⟨rs, hchain, -⟩ := hyounger.exists_chain r
  refine ⟨rs, hchain, fun d holder hnearest => ?_, fun hfree => ?_, hchain.ancestor_eq_error_iff⟩
  · obtain ⟨u, hu⟩ := Option.isSome_iff_exists.mp hnearest.binds
    have hholder := (hyounger.holder?_eq_some_iff hchain).mpr ⟨d, hnearest⟩
    have hup : s.up? d r = some holder := (hchain.up?_eq d).trans hnearest.at_distance
    refine ⟨⟨u, get_of_holder? hholder hu, getAt_eq_ok s r name u hup hu⟩, fun v => ?_⟩
    refine ⟨s.define holder name v, assign_of_holder? hholder v, ?_, fun g gs x hg => ?_⟩
    · rw [assignAt, locateAt_eq_ok s r name u hup hu]
      rfl
    · rw [← hyounger.holder?_eq_some_iff hg, get_define_of_bound hnearest.binds]
      exact ⟨fun heq => if_pos heq, fun hne => if_neg hne⟩
  · have hnone : s.holder? r name = none := by
      rw [hyounger.holder?_eq hchain, List.find?_eq_none]
      intro e he
      simp [hfree e he]
    refine ⟨get_of_none hnone, fun v => ⟨assign_of_none hnone v, ?_⟩⟩
    rw [perform, assign_of_none hnone]
    rfl

/-- Two frames inside one that has its own `x`. -/
def forked : Store :=
  [.new, .define 0 "x" .nil, .child 0, .define 1 "x" (.bool false), .child 1, .child 1].foldl
    perform .empty

/-- A write from one of two frames that share their outer one shows from the other, and not behind
the binding that it hits. -/
theorem search_eq_direct_forked : forked.Built ∧
    ∃ s', forked.assign 2 "x" (.bool true) = .ok s' ∧
      forked.assignAt 2 1 "x" (.bool true) = .ok s' ∧
      s'.get 3 "x" = .ok (.bool true) ∧ s'.get 0 "x" = forked.get 0 "x" := by
  have hbuilt : forked.Built :=
    .perform (.perform (.perform (.perform (.perform (.perform .empty .new (by decide))
      (.define 0 "x" .nil) (by decide)) (.child 0) (by decide)) (.define 1 "x" (.bool false))
      (by decide)) (.child 1) (by decide)) (.child 1) (by decide)
  have hchain (r : FrameRef) (hr : forked.enclosing? r = some 1) : forked.Chain r [1, 0] :=
    .inside hr (.inside rfl (.outermost rfl))
  have hnearest (r : FrameRef) (hr : forked.local? r "x" = none) :
      forked.Nearest "x" [r, 1, 0] 1 1 := by
    refine ⟨rfl, by decide +kernel, fun k hk e he => ?_⟩
    cases Nat.lt_one_iff.mp hk
    cases he
    exact hr
  obtain ⟨rs, hrs, hbound, -⟩ := search_eq_direct hbuilt 2 "x"
  cases hrs.unique (hchain 2 rfl)
  obtain ⟨-, hwrite⟩ := hbound 1 1 (hnearest 2 (by decide +kernel))
  obtain ⟨s', hassign, hassignAt, hseen⟩ := hwrite (.bool true)
  refine ⟨hbuilt, s', hassign, hassignAt, ?_, ?_⟩
  · exact (hseen 3 [1, 0] "x" (hchain 3 rfl)).1 ⟨rfl, 1, hnearest 3 (by decide +kernel)⟩
  · refine (hseen 0 [] "x" (.outermost rfl)).2 ?_
    rintro ⟨-, k, hk⟩
    have hat := hk.at_distance
    cases k <;> simp at hat

end LoxLang.Store
