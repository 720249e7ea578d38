import Mathlib
import LoxLang.Proofs.Alike.Execution
import LoxLang.Proofs.Run.Table

/-!
# Proofs/Alike/Session — a submission that fails before it runs leaves no trace

Two sessions are alike if their machines are. A run of the same text, or of texts that differ in
their lines, makes the same report in both and leaves them alike (`Session.Alike.run`), and so does
an evaluation: the ids that each gives out differ, and so do the places in the tables where the
distances are entered, but nothing that is shown depends on them.

Every session is alike itself. A submission that fails before it runs takes node ids and does
nothing else, so the session after it is alike the session before, and what is asked later shows the
same in both. The main result is `static_failure_leaves_no_trace`.
-/

namespace LoxLang

/-! ## Later tables -/

/-- A later table: distances were entered for ids from `limit` up to `limit'` only. -/
structure LaterTable (limit limit' : NodeId) (D D' : Std.TreeMap NodeId Nat) : Prop where
  le : limit ≤ limit'
  older : ∀ id, id < limit → D'[id]? = D[id]?
  newer : ∀ id, limit' ≤ id → D'[id]? = none

/-- A table is later than itself, if nothing is recorded beyond its limit. -/
theorem LaterTable.refl {limit : NodeId} {D : Std.TreeMap NodeId Nat}
    (h : ∀ id, limit ≤ id → D[id]? = none) : LaterTable limit limit D D :=
  ⟨Nat.le_refl _, fun _ _ => rfl, h⟩

/-- All uses of names in the program have their distances in the table. -/
def Stmt.Noted (D : Std.TreeMap NodeId Nat) (limit : NodeId) (ss : List Stmt) : Prop :=
  ∀ u ∈ Stmt.usesAll ss [], u.1 < limit ∧ D[u.1]? = u.2

/-- A program that was read, with ids from `first` up to `limit`, and that has no fault. -/
structure Stmt.Sound (first limit : NodeId) (ss : List Stmt) : Prop where
  proper : Stmt.AllProper ss
  clean : (resolve ss).faults = []
  numbered : Numbered first limit (Stmt.idsAll ss)

namespace Stmt.Sound

variable {first limit limit' : NodeId} {ss : List Stmt} {D : Std.TreeMap NodeId Nat}

/-- The distances of a program are entered without a change to those before. -/
theorem laterTable (h : Stmt.Sound first limit' ss) (hfresh : ∀ id, limit ≤ id → D[id]? = none)
    (hle : limit ≤ first) : LaterTable limit limit' D (D.insertMany (resolve ss).distances) := by
  have henters := enters_resolve h.proper h.clean h.numbered fun id hid =>
    hfresh id (Nat.le_trans hle hid)
  exact ⟨Nat.le_trans hle h.numbered.le,
    fun id hid => henters.older id (Nat.lt_of_lt_of_le hid hle), henters.newer⟩

/-- Each use of the program is recorded with its distance, or not at all. -/
theorem noted (h : Stmt.Sound first limit' ss) (hfresh : ∀ id, limit ≤ id → D[id]? = none)
    (hle : limit ≤ first) : Stmt.Noted (D.insertMany (resolve ss).distances) limit' ss :=
  uses_entered h.proper h.clean h.numbered fun id hid => hfresh id (Nat.le_trans hle hid)

/-- **The table grows by the number of local uses.** -/
theorem size (h : Stmt.Sound first limit' ss) (hfresh : ∀ id, limit ≤ id → D[id]? = none)
    (hle : limit ≤ first) :
    (D.insertMany (resolve ss).distances).size = D.size + Stmt.localUses ss :=
  size_insertMany_resolve h.proper h.clean h.numbered fun id hid =>
    hfresh id (Nat.le_trans hle hid)

end Stmt.Sound

/-- Programs that are alike have as many uses of local names. -/
theorem Stmt.AllAlike.localUses_eq {lines : Lines} {any : Ids} {ss ss' : List Stmt}
    (h : Stmt.AllAlike lines any ss ss') : Stmt.localUses ss = Stmt.localUses ss' := by
  have hcount : ∀ us : List Use, us.countP (·.2.isSome) = (us.map Prod.snd).countP Option.isSome :=
    fun us => (List.countP_map (p := Option.isSome) (f := Prod.snd) (l := us)).symm
  unfold Stmt.localUses
  rw [hcount, hcount, h.map_snd_uses]

namespace Pairing

variable {P : Pairing} {left right : Std.TreeMap NodeId Nat} {leftLimit rightLimit : NodeId}

/-- The pairing of later tables. -/
def later (P : Pairing) (hl : LaterTable P.leftLimit leftLimit P.left left)
    (hr : LaterTable P.rightLimit rightLimit P.right right) : Pairing where
  left
  right
  leftLimit
  rightLimit
  lines := P.lines
  lines_refl := P.lines_refl
  left_fresh := hl.newer
  right_fresh := hr.newer

theorem grows_later (hl : LaterTable P.leftLimit leftLimit P.left left)
    (hr : LaterTable P.rightLimit rightLimit P.right right) : P.Grows (P.later hl hr) :=
  ⟨id, hl.le, hr.le, hl.older, hr.older⟩

/-- Ids that are recorded in both tables with the same distance are kept together. -/
theorem joins_kept (P : Pairing) :
    P.Kept.Joins (fun i d => i < P.leftLimit ∧ P.left[i]? = d)
      (fun j d => j < P.rightLimit ∧ P.right[j]? = d) :=
  fun _ _ _ hi hj => ⟨hi.1, hj.1, hi.2.trans hj.2.symm⟩

end Pairing

/-- Machines stay alike under later tables. -/
theorem Machine.Alike.later {P : Pairing} {m m' : Machine} (h : m.Alike P m')
    {left right : Std.TreeMap NodeId Nat} {leftLimit rightLimit : NodeId}
    (hl : LaterTable P.leftLimit leftLimit P.left left)
    (hr : LaterTable P.rightLimit rightLimit P.right right)
    {distances distances' : Std.TreeMap NodeId Nat} (hleft : distances = left)
    (hright : distances' = right) {nextId nextId' : NodeId} (hle : leftLimit ≤ nextId)
    (hle' : rightLimit ≤ nextId') :
    Machine.Alike (P.later hl hr) { m with distances, nextId }
      { m' with distances := distances', nextId := nextId' } :=
  { h with
    store := h.store.mono (Pairing.grows_later hl hr)
    left := hleft
    right := hright
    leftLimit := hle
    rightLimit := hle' }

/-- Programs that are alike have the same distances, where these are noted for both. -/
theorem Stmt.AllAlike.kept {P : Pairing} {ss ss' : List Stmt}
    (h : Stmt.AllAlike P.lines .any ss ss') (hl : Stmt.Noted P.left P.leftLimit ss)
    (hr : Stmt.Noted P.right P.rightLimit ss') : Stmt.AllAlike P.lines P.Kept ss ss' :=
  h.recorded P.joins_kept hl hr

/-- **Machines with later tables are alike**, and programs that are noted in these are kept
together. -/
theorem Machine.Alike.note {P : Pairing} {m m' : Machine} (h : m.Alike P m')
    {left right : Std.TreeMap NodeId Nat} {leftLimit rightLimit : NodeId}
    (hl : LaterTable P.leftLimit leftLimit P.left left)
    (hr : LaterTable P.rightLimit rightLimit P.right right)
    {distances distances' : Std.TreeMap NodeId Nat} (hleft : distances = left)
    (hright : distances' = right) {nextId nextId' : NodeId} (hle : leftLimit ≤ nextId)
    (hle' : rightLimit ≤ nextId') :
    ∃ Q : Pairing, P.Grows Q ∧ Q.lines = P.lines ∧ Q.left = left ∧ Q.right = right ∧
      Q.leftLimit = leftLimit ∧
      Machine.Alike Q { m with distances, nextId }
        { m' with distances := distances', nextId := nextId' } ∧
      ∀ {ss ss'}, Stmt.AllAlike P.lines .any ss ss' → Stmt.Noted left leftLimit ss →
        Stmt.Noted right rightLimit ss' → Stmt.AllAlike Q.lines Q.Kept ss ss' :=
  ⟨P.later hl hr, Pairing.grows_later hl hr, rfl, rfl, rfl, rfl,
    h.later hl hr hleft hright hle hle',
    fun hss hnoted hnoted' => Stmt.AllAlike.kept (P := P.later hl hr) hss hnoted hnoted'⟩

/-! ## Sessions -/

/-- Texts with the same tokens and faults up to their lines. -/
structure TextAlike (lines : Lines) (source source' : String) : Prop where
  tokens : List.Forall₂ (Token.Alike lines) (tokensOf (scan source)) (tokensOf (scan source'))
  faults : List.Forall₂ (Diagnostic.Alike lines) (faultsOf (scan source)) (faultsOf (scan source'))

/-- Reports that differ at most in lines. -/
structure Report.Alike (lines : Lines) (r r' : Report) : Prop where
  status : r.status = r'.status
  diagnostics : List.Forall₂ (Diagnostic.Alike lines) r.diagnostics r'.diagnostics

/-- Sessions with machines that are alike. -/
structure Session.Alike (P : Pairing) (s s' : Session) : Prop where
  recover : s.recover = s'.recover
  machine : s.machine.Alike P s'.machine

/-- A pairing that a run or an evaluation may lead to: as many distances were entered on both
sides. -/
structure Pairing.Follows (P Q : Pairing) : Prop extends P.Grows Q where
  lines_eq : Q.lines = P.lines
  size : P.left.size = P.right.size → Q.left.size = Q.right.size

theorem Pairing.Follows.refl (P : Pairing) : P.Follows P where
  lines := id
  leftLimit := Nat.le_refl _
  rightLimit := Nat.le_refl _
  left _ _ := rfl
  right _ _ := rfl
  lines_eq := rfl
  size := id

/-- A text is like itself. -/
theorem TextAlike.refl {lines : Lines} (hlines : ∀ l, lines l l) (source : String) :
    TextAlike lines source source where
  tokens := List.forall₂_same.mpr fun t _ => .refl hlines t
  faults := List.forall₂_same.mpr fun d _ => .refl hlines d

/-- Reports on the same lines are the same. -/
theorem Report.Alike.eq {r r' : Report} (h : r.Alike Eq r') : r = r' := by
  obtain ⟨hstatus, hdiagnostics⟩ := h
  rw [show r = ⟨r.status, r.diagnostics⟩ from rfl, hstatus,
    forall₂_eq Diagnostic.Alike.eq hdiagnostics]

theorem eq_nil_iff_of_forall₂ {α β : Type} {rel : α → β → Prop} {l : List α} {l' : List β}
    (h : List.Forall₂ rel l l') : l = [] ↔ l' = [] := by
  cases h <;> simp

/-- The diagnostics of a run that does not execute anything. -/
theorem Session.diagnostics_of_not_executes {s : Session} {source : String} (host : Host)
    (fuel : Nat) (h : ¬ s.Executes source) :
    (s.run host fuel source).1.diagnostics = s.found source ++
      if s.found source ≠ [] ∧ s.recover = false then []
      else (resolve (s.read source).statements).faults := by
  unfold run
  dsimp only
  split
  · next hread =>
    have hfound : s.found source ≠ [] ∧ s.recover = false := by simpa [found, read] using hread
    rw [if_pos hfound, List.append_nil]
    rfl
  · next hread =>
    have hfound : ¬ (s.found source ≠ [] ∧ s.recover = false) := by
      simpa [found, read] using hread
    rw [if_neg hfound]
    split
    · rfl
    · next hresolve =>
      refine absurd ⟨?_, ?_⟩ h
      · simpa [found, read, Decidable.or_iff_not_imp_left] using hread
      · simpa [read] using hresolve

/-- **Alike texts are read to alike trees.** -/
theorem Session.read_alike {lines : Lines} (hlines : ∀ l, lines l l) {source source' : String}
    (htext : TextAlike lines source source') (s s' : Session) :
    (s.read source).Alike lines (s'.read source') :=
  parse_alike hlines htext.tokens _ _

/-- Alike texts have alike faults. -/
theorem Session.found_alike {lines : Lines} (hlines : ∀ l, lines l l) {source source' : String}
    (htext : TextAlike lines source source') (s s' : Session) :
    List.Forall₂ (Diagnostic.Alike lines) (s.found source) (s'.found source') :=
  List.rel_append htext.faults (read_alike hlines htext s s').faults

/-- A program that is read in a session and has no fault in its scopes. -/
theorem Session.sound_read {s : Session} {source : String}
    (h : (resolve (s.read source).statements).faults = []) :
    Stmt.Sound s.machine.nextId (s.read source).nextId (s.read source).statements :=
  ⟨proper_parse (spelled_scan source) s.machine.nextId, h, numbered_parse _ _⟩

namespace Session.Alike

variable {P : Pairing} {s s' : Session} {source source' : String} {host : Host}

theorem defineHost (h : s.Alike P s') (name : String) (arity : Nat) (entry : String) :
    (s.defineHost name arity entry).Alike P (s'.defineHost name arity entry) :=
  ⟨h.recover, h.machine.defineHost name arity entry⟩

/-- A text is executed on both sides, or on none. -/
theorem executes_iff (h : s.Alike P s') (htext : TextAlike P.lines source source') :
    s.Executes source ↔ s'.Executes source' := by
  have hfaults := resolve_alike (read_alike P.lines_refl htext s s').statements
  unfold Session.Executes
  rw [eq_nil_iff_of_forall₂ (found_alike P.lines_refl htext s s'), eq_nil_iff_of_forall₂ hfaults,
    h.recover]

/-- Both machines note the distances of the program that they are going to execute. -/
theorem prepared (h : s.Alike P s') (htext : TextAlike P.lines source source')
    (hclean : (resolve (s.read source).statements).faults = [])
    (hclean' : (resolve (s'.read source').statements).faults = []) :
    ∃ Q, P.Follows Q ∧ (s.prepared source).Alike Q (s'.prepared source') ∧
      Stmt.AllAlike Q.lines Q.Kept (s.read source).statements (s'.read source').statements := by
  have hread := (read_alike P.lines_refl htext s s').statements
  have hsound := sound_read hclean
  have hsound' := sound_read hclean'
  have hl := hsound.laterTable P.left_fresh h.machine.leftLimit
  have hr := hsound'.laterTable P.right_fresh h.machine.rightLimit
  obtain ⟨Q, hgrows, hlines, hleft, hright, -, hm, hkept⟩ := h.machine.note hl hr
    (congrArg (Std.TreeMap.insertMany · _) h.machine.left)
    (congrArg (Std.TreeMap.insertMany · _) h.machine.right) (Nat.le_refl _) (Nat.le_refl _)
  refine ⟨Q, ⟨hgrows, hlines, fun hsize => ?_⟩, hm,
    hkept hread (hsound.noted P.left_fresh h.machine.leftLimit)
      (hsound'.noted P.right_fresh h.machine.rightLimit)⟩
  rw [hleft, hright, hsound.size P.left_fresh h.machine.leftLimit,
    hsound'.size P.right_fresh h.machine.rightLimit, hsize, hread.localUses_eq]

/-- **Texts that are alike run alike in sessions that are alike.** -/
theorem run (h : s.Alike P s') (htext : TextAlike P.lines source source')
    (hhost : ∀ Q, P.Follows Q → host.Respects Q) (fuel : Nat) :
    ∃ Q, P.Follows Q ∧ (s.run host fuel source).2.Alike Q (s'.run host fuel source').2 ∧
      (s.run host fuel source).1.Alike P.lines (s'.run host fuel source').1 := by
  have hfound := found_alike P.lines_refl htext s s'
  have hread := read_alike P.lines_refl htext s s'
  by_cases hexecutes : s.Executes source
  · have hexecutes' := (h.executes_iff htext).mp hexecutes
    obtain ⟨Q, hfollows, hm, hss⟩ := h.prepared htext hexecutes.2 hexecutes'.2
    have hout := executeProgram_alike (hhost Q hfollows) fuel hss hm
    refine ⟨Q, hfollows, ?_⟩
    rw [run_of_executes host fuel hexecutes, run_of_executes host fuel hexecutes']
    generalize executeProgram host fuel (s.read source).statements (s.prepared source) = out,
      executeProgram host fuel (s'.read source').statements (s'.prepared source') = out' at hout
    cases hout with
    | ok _ hm =>
      refine ⟨⟨h.recover, hm⟩, ?_, hfound⟩
      simp only [List.isEmpty_iff, eq_nil_iff_of_forall₂ hfound]
    | error hstop hm =>
      cases hstop with
      | outOfFuel => exact ⟨⟨h.recover, hm⟩, rfl, hfound⟩
      | fault hd =>
        -- Only the table of distances has grown: lines stand for each other as before.
        rw [hfollows.lines_eq] at hd
        exact ⟨⟨h.recover, hm⟩, rfl, List.rel_append hfound (.cons hd .nil)⟩
  · have hexecutes' := mt (h.executes_iff htext).mpr hexecutes
    obtain ⟨hstatus, hsession⟩ := run_of_not_executes host fuel hexecutes
    obtain ⟨hstatus', hsession'⟩ := run_of_not_executes host fuel hexecutes'
    refine ⟨P, .refl P, ?_, hstatus.trans hstatus'.symm, ?_⟩
    · rw [hsession, hsession']
      have hids : Numbered s.machine.nextId (s.read source).nextId _ := numbered_parse _ _
      have hids' : Numbered s'.machine.nextId (s'.read source').nextId _ := numbered_parse _ _
      exact ⟨h.recover, h.machine.takeIds hids.le hids'.le⟩
    · rw [diagnostics_of_not_executes host fuel hexecutes,
        diagnostics_of_not_executes host fuel hexecutes', ← h.recover]
      simp only [ne_eq, eq_nil_iff_of_forall₂ hfound]
      refine List.rel_append hfound ?_
      split
      · exact .nil
      · exact resolve_alike hread.statements

/-- A stop is reported on both sides alike, and leaves alike sessions. -/
theorem stopped (hrecover : s.recover = s'.recover) {m m' : Machine} (hm : m.Alike P m')
    {stop stop' : Stop} (hstop : stop.Alike P.lines stop') :
    (s.stopped [] stop m).1.Alike P.lines (s'.stopped [] stop' m').1 ∧
      (s.stopped [] stop m).2.Alike P (s'.stopped [] stop' m').2 := by
  cases hstop with
  | outOfFuel => exact ⟨⟨rfl, .nil⟩, hrecover, hm⟩
  | fault hd => exact ⟨⟨rfl, .cons hd .nil⟩, hrecover, hm⟩

/-- An expression has the same value in sessions that are alike. -/
theorem evaluate (h : s.Alike P s') (hhost : host.Respects P) (fuel : Nat) (source : String) :
    Option.Rel (Value.Alike P) (s.evaluate host fuel source).1 (s'.evaluate host fuel source).1 ∧
      (s.evaluate host fuel source).2.1.Alike P.lines (s'.evaluate host fuel source).2.1 ∧
      (s.evaluate host fuel source).2.2.Alike P (s'.evaluate host fuel source).2.2 := by
  have htext : TextAlike P.lines source source := .refl P.lines_refl source
  have hread := parseExpression_alike P.lines_refl htext.tokens s.machine.nextId s'.machine.nextId
  have htaken := h.machine.takeIds (le_parseExpression (tokensOf (scan source)) s.machine.nextId)
    (le_parseExpression (tokensOf (scan source)) s'.machine.nextId)
  unfold Session.evaluate
  dsimp only
  cases faultsOf (scan source) with
  | cons d ds =>
    exact ⟨.none, ⟨rfl, List.forall₂_same.mpr fun d _ => .refl P.lines_refl d⟩, h⟩
  | nil =>
    rcases hleft : parseExpression (tokensOf (scan source)) s.machine.nextId with ⟨out, nextId⟩
    rcases hright : parseExpression (tokensOf (scan source)) s'.machine.nextId with ⟨out', nextId'⟩
    rw [hleft, hright] at hread htaken
    cases hread with
    | error hd => exact ⟨.none, ⟨rfl, .cons hd .nil⟩, h.recover, htaken⟩
    | @ok e e' he =>
      have hids := numbered_parseExpression (congrArg Prod.fst hleft)
      have hids' := numbered_parseExpression (congrArg Prod.fst hright)
      have hused := he.unrecorded
        (fun id hid => Nat.le_trans h.machine.leftLimit (hids.bounds id hid).1)
        fun id hid => Nat.le_trans h.machine.rightLimit (hids'.bounds id hid).1
      have hout := evaluate_alike hhost fuel hused htaken
      dsimp only
      generalize LoxLang.evaluate host fuel e { s.machine with nextId } = out,
        LoxLang.evaluate host fuel e' { s'.machine with nextId := nextId' } = out' at hout
      cases hout with
      | ok hv hm => exact ⟨.some hv, ⟨rfl, .nil⟩, h.recover, hm⟩
      | error hstop hm => exact ⟨.none, stopped h.recover hm hstop⟩

/-- Alike values are shown as the same text. -/
theorem rendered_eq (h : s.Alike P s') {v v' : Value} (hv : v.Alike P v') :
    s.rendered v = s'.rendered v' := by
  unfold Session.rendered
  rw [h.machine.store.text_eq hv, h.machine.store.inspection?_eq hv]

end Session.Alike

/-! ## What sessions that are alike show -/

/-- A pairing in which lines are the same, and as many distances are recorded on both sides. -/
structure Pairing.Exact (P : Pairing) : Prop where
  lines : P.lines = Eq
  size : P.left.size = P.right.size

/-- What stays on its lines does so in every later pairing. -/
theorem Pairing.Follows.exact {P Q : Pairing} (h : P.Follows Q) (hP : P.Exact) : Q.Exact :=
  ⟨h.lines_eq.trans hP.lines, h.size hP.size⟩

/-- What the functions of the host do does not depend on node ids. -/
def Host.IgnoresIds (host : Host) : Prop :=
  ∀ P : Pairing, P.Exact → host.Respects P

/-- The library never looks at node ids. -/
theorem Library.ignoresIds (readings : Nat → Float) : (host readings).IgnoresIds :=
  fun _ hP => respects readings hP.size

/-- Sessions that nobody can tell apart. -/
def Session.Indistinguishable (s s' : Session) : Prop :=
  ∃ P : Pairing, P.Exact ∧ s.Alike P s'

namespace Session

variable {P : Pairing} {s s' : Session} {host : Host}

/-- Alike sessions show the same. -/
theorem Alike.shows_eq (h : s.Alike P s') (hP : P.Exact) {r r' : Report}
    (hreport : r.Alike P.lines r') {v v' : Option Value}
    (hv : Option.Rel (Value.Alike P) v v') : s.shows r v = s'.shows r' v' := by
  have hoctets : s.output = s'.output := congrArg Sink.written h.machine.sink
  have hcount : s.localCount = s'.localCount := by
    unfold Session.localCount
    rw [h.machine.left, h.machine.right, hP.size]
  have hvalue : v.map s.rendered = v'.map s'.rendered := by
    cases hv with
    | none => rfl
    | some hv => exact congrArg some (h.rendered_eq hv)
  rw [hP.lines] at hreport
  unfold Session.shows
  rw [hreport.eq, hoctets, hvalue, hcount]

/-- **One action**: it shows the same in both sessions, and they still cannot be told apart. -/
theorem Indistinguishable.act (hhost : host.IgnoresIds) (h : s.Indistinguishable s') (a : Action) :
    s.observe host a = s'.observe host a ∧ (s.act host a).Indistinguishable (s'.act host a) := by
  obtain ⟨P, hP, halike⟩ := h
  cases a with
  | run fuel source =>
    obtain ⟨Q, hfollows, hrun, hreport⟩ := halike.run (.refl P.lines_refl source)
      (fun Q hQ => hhost Q (hQ.exact hP)) fuel
    rw [← hfollows.lines_eq] at hreport
    exact ⟨hrun.shows_eq (hfollows.exact hP) hreport .none, Q, hfollows.exact hP, hrun⟩
  | evaluate fuel source =>
    obtain ⟨hv, hreport, hevaluate⟩ := halike.evaluate (hhost P hP) fuel source
    exact ⟨hevaluate.shows_eq hP hreport hv, P, hP, hevaluate⟩
  | defineHost name arity entry =>
    have hdefined := halike.defineHost name arity entry
    exact ⟨hdefined.shows_eq hP ⟨rfl, .nil⟩ .none, P, hP, hdefined⟩

/-- **All later actions** show the same. -/
theorem Indistinguishable.observations_eq (hhost : host.IgnoresIds) (h : s.Indistinguishable s')
    (later : List Action) : s.observations host later = s'.observations host later := by
  induction later generalizing s s' with
  | nil => rfl
  | cons a rest ih =>
    obtain ⟨hobserve, hact⟩ := h.act hhost a
    rw [observations, observations, hobserve, ih hact]

end Session

/-! ### Every session is alike itself -/

/-- The pairing of tables in which nothing is recorded. -/
def Pairing.empty : Pairing where
  left := ∅
  right := ∅
  leftLimit := 0
  rightLimit := 0
  lines := Eq
  lines_refl _ := rfl
  left_fresh _ _ := Std.TreeMap.getElem?_emptyc
  right_fresh _ _ := Std.TreeMap.getElem?_emptyc

theorem Store.alike_empty (P : Pairing) : Store.empty.Alike P Store.empty where
  frames := rfl
  instances := rfl
  enclosing? _ := rfl
  local? _ _ := .none
  classOf? _ := .none
  field? _ _ := .none

/-- Before anything ran both machines are alike. -/
theorem Machine.alike_fresh (capacity : Option Nat) :
    (Machine.fresh capacity).Alike .empty (Machine.fresh capacity) where
  store := (Store.alike_empty _).newFrame (fun x => by simp) none
  globals := rfl
  scope := rfl
  sink := rfl
  nextObject := rfl
  clockReads := rfl
  left := rfl
  right := rfl
  leftLimit := Nat.le_refl _
  rightLimit := Nat.le_refl _

namespace Session

variable {s : Session} {host : Host}

/-- **A session that was reached cannot be told from itself**, whatever node ids it gives out next.
-/
theorem Reached.indistinguishable_self (hhost : host.IgnoresIds) (h : s.Reached host) :
    s.Indistinguishable s := by
  induction h with
  | start recover capacity =>
    exact ⟨.empty, ⟨rfl, rfl⟩, rfl, (Machine.alike_fresh capacity).defineHost _ _ _⟩
  | defineHost _ name arity entry ih => exact (ih.act hhost (.defineHost name arity entry)).2
  | run _ fuel source ih => exact (ih.act hhost (.run fuel source)).2
  | evaluate _ fuel source ih => exact (ih.act hhost (.evaluate fuel source)).2

/-- Taking node ids cannot be told. -/
theorem Indistinguishable.takeIds (h : s.Indistinguishable s) {limit : NodeId}
    (hle : s.machine.nextId ≤ limit) :
    Indistinguishable { s with machine := { s.machine with nextId := limit } } s := by
  obtain ⟨P, hP, halike⟩ := h
  exact ⟨P, hP, rfl, halike.machine.takeIds hle (Nat.le_refl _)⟩

/-! ### Submissions that fail before they run -/

/-- The action stops before anything is executed: a run at a fault in reading its text, unless the
session recovers from these, or at a fault in its scopes; an evaluation with a static error. -/
def FailsStatically (host : Host) (s : Session) : Action → Prop
  | .run _ source => (s.found source ≠ [] ∧ s.recover = false) ∨
      (resolve (s.read source).statements).faults ≠ []
  | .evaluate fuel source => (s.evaluate host fuel source).2.1.status = some .staticError
  | .defineHost .. => False

/-- An expression that could be read does not end in a static error. -/
theorem expression?_of_staticError {fuel : Nat} {source : String}
    (h : (s.evaluate host fuel source).2.1.status = some .staticError) :
    s.expression? source = none := by
  by_contra hsome
  obtain ⟨e, he⟩ := Option.ne_none_iff_exists'.mp hsome
  obtain ⟨hfaults, hread⟩ := expression?_eq_some.mp he
  unfold evaluate at h
  simp only [hfaults, hread] at h
  generalize LoxLang.evaluate host fuel e _ = out at h
  cases out with
  | ok v m => cases h
  | error stop m => cases stop <;> cases h

/-- An action that fails statically takes node ids, and does nothing else. -/
theorem FailsStatically.act {a : Action} (h : s.FailsStatically host a) :
    ∃ limit, s.machine.nextId ≤ limit ∧
      s.act host a = { s with machine := { s.machine with nextId := limit } } := by
  cases a with
  | run fuel source =>
    have hids : Numbered s.machine.nextId (s.read source).nextId _ := numbered_parse _ _
    have hstops : ¬ s.Executes source := by
      rintro ⟨hfound, hresolve⟩
      rcases h with ⟨hfaults, hrecover⟩ | hfaults
      · rcases hfound with hfound | hfound
        · exact hfaults hfound
        · rw [hrecover] at hfound
          cases hfound
      · exact hfaults hresolve
    exact ⟨_, hids.le, (run_of_not_executes host fuel hstops).2⟩
  | evaluate fuel source => exact evaluate_of_none host fuel (expression?_of_staticError h)
  | defineHost name arity entry => exact h.elim

/-- **A submission that fails before it runs leaves no trace.** It writes nothing, and whatever is
asked later shows the same reports, output, values and numbers of recorded distances as if it had
not been made. -/
theorem static_failure_leaves_no_trace (hhost : host.IgnoresIds) (h : s.Reached host) {a : Action}
    (hfails : s.FailsStatically host a) (later : List Action) :
    (s.act host a).output = s.output ∧
      (s.act host a).observations host later = s.observations host later := by
  obtain ⟨limit, hle, hact⟩ := hfails.act
  have hsame : (s.act host a).Indistinguishable s := by
    rw [hact]
    exact (h.indistinguishable_self hhost).takeIds hle
  refine ⟨?_, hsame.observations_eq hhost later⟩
  rw [hact]
  rfl

/-- A session with the library and a closure from before, at a fault in the scopes of a text with
local names; the closure and new local names are used later. -/
theorem static_failure_leaves_no_trace_between_closures :
    let host := Library.host fun _ => 0
    let s := ((Session.start true none).run host 30
      "fun make(x) { fun get() { return x; } return get; } var held = make(true);").2
    let failing := Action.run 30 "{ var a; a = a; print this; }"
    let later := [Action.run 30 "{ var b = held(); print b; }", .evaluate 30 "make(held)()"]
    host.IgnoresIds ∧ s.Reached host ∧ s.FailsStatically host failing ∧
      (s.act host failing).output = s.output ∧
      (s.act host failing).observations host later = s.observations host later := by
  intro host s failing later
  have hhost : host.IgnoresIds := Library.ignoresIds _
  have hreached : s.Reached host := .run (.start true none) 30 _
  have hfails : s.FailsStatically host failing := .inr (by decide +kernel)
  exact ⟨hhost, hreached, hfails, static_failure_leaves_no_trace hhost hreached hfails later⟩

end Session

end LoxLang
