import Mathlib
import LoxLang.Proofs.Alike.Session
import LoxLang.Proofs.Lexis.Joining

/-!
# Proofs/Alike/Joining — a program that is submitted in parts

Two texts without faults, joined by a line break, are read as the statements of the first and then
those of the second (`Session.read_join`): no statement of the first takes tokens of the second. The
names in both parts are resolved independently, so the joined text runs as the two parts do one
after the other, up to what the machine knows of the second part while the first one runs.

The main result is `run_joined`.
-/

namespace LoxLang

open EStateM (Result)
open Lexis (items_moved)

/-! ## Reading -/

namespace Grammar

/-- What becomes of declarations when others follow. -/
def Precedes : (r : StmtRule) → List Token → r.Tree → Prop
  | .declarations, u, ss => ∀ {w ts}, Forms True .declarations w ts →
      Forms True .declarations (u ++ w) (ss ++ ts)
  | _, _, _ => True

/-- **Declarations may follow declarations.** -/
theorem Forms.precedes {r : StmtRule} {u : List Token} {t : r.Tree} (h : Forms True r u t) :
    Precedes r u t := by
  induction h with
  | noDeclaration => exact fun hw => hw
  | moreDeclarations hs _ _ ih =>
    intro w ts hw
    rw [List.append_assoc, List.cons_append]
    exact .moreDeclarations hs (ih hw)
  | _ => trivial

end Grammar

/-! ## Texts without faults -/

/-- A text without faults in its tokens, its statements and its scopes. -/
def Clean (source : String) : Prop :=
  faultsOf (scan source) = [] ∧ (parse (tokensOf (scan source)) 0).faults = [] ∧
    (resolve (parse (tokensOf (scan source)) 0).statements).faults = []

instance (source : String) : Decidable (Clean source) :=
  inferInstanceAs (Decidable (_ ∧ _))

/-- Lines that are the same, or that are `j` and `k` lines below the same line. -/
def Moved (j k : Nat) : Lines := fun l l' =>
  l = l' ∨ ∃ a, l = a + j ∧ l' = a + k

theorem Moved.refl (j k l : Nat) : Moved j k l l := .inl rfl

/-- Where both move by the same, lines are the same. -/
theorem Moved.self_eq (k : Nat) : Moved k k = Eq := by
  ext l l'
  constructor
  · rintro (h | ⟨a, rfl, rfl⟩)
    · exact h
    · rfl
  · exact .inl

theorem blankLines_zero_append (source : String) : blankLines 0 ++ source = source := by
  simp [blankLines]

/-- A text behind blank lines is the same but for its lines. -/
theorem textAlike_moved (j k : Nat) (source : String) :
    TextAlike (Moved j k) (blankLines j ++ source) (blankLines k ++ source) := by
  have hlines : ∀ a, Moved j k (a + j) (a + k) := fun a => .inr ⟨a, rfl, rfl⟩
  have hitems := items_moved hlines 1 (Lexis.pieces source.toList)
  rw [← scan_blankLines, ← scan_blankLines] at hitems
  refine ⟨List.rel_filterMap ?_ hitems, List.rel_filterMap ?_ hitems⟩
  · rintro _ _ (h | h)
    · exact .some h
    · exact .none
  · rintro _ _ (h | h)
    · exact .none
    · exact .some h

namespace Clean

variable {source : String}

/-- A text without faults has none in any session and on any line. -/
theorem read (h : Clean source) (s : Session) (k : Nat) :
    s.found (blankLines k ++ source) = [] ∧
      (resolve (s.read (blankLines k ++ source)).statements).faults = [] := by
  obtain ⟨hscan, hparse, hresolve⟩ := h
  have htext := textAlike_moved 0 k source
  rw [blankLines_zero_append] at htext
  have hread : (parse (tokensOf (scan source)) 0).Alike (Moved 0 k)
      (s.read (blankLines k ++ source)) := parse_alike (Moved.refl 0 k) htext.tokens _ _
  refine ⟨?_, (eq_nil_iff_of_forall₂ (resolve_alike hread.statements)).mp hresolve⟩
  rw [Session.found, (eq_nil_iff_of_forall₂ htext.faults).mp hscan,
    (eq_nil_iff_of_forall₂ hread.faults).mp hparse]
  rfl

/-- A clean text is read without faults in every session. -/
theorem read_self (h : Clean source) (s : Session) :
    s.found source = [] ∧ (resolve (s.read source).statements).faults = [] := by
  have hread := h.read s 0
  rwa [blankLines_zero_append] at hread

end Clean

variable {p q : String}

/-- **The statements of a joined text** are those of its parts, ids apart, with the second part on
its place behind the first. -/
theorem Session.read_join_placed (hp : Clean p) (hq : Clean q) (s t : Session) :
    (s.read (p ++ "\n" ++ q)).faults = [] ∧
    Stmt.AllAlike Eq .any (s.read (p ++ "\n" ++ q)).statements ((s.read p).statements ++
      (t.read (blankLines (lineBreaks p + 1) ++ q)).statements) := by
  have hfirst := Parser.forms_of_parse (List.append_eq_nil_iff.mp (hp.read_self s).1).2
  have hsecond := Parser.forms_of_parse
    (List.append_eq_nil_iff.mp (hq.read t (lineBreaks p + 1)).1).2
  rw [takeWhile_tokensOf_scan] at hfirst
  have htokens : tokensOf (scan (p ++ "\n" ++ q)) =
      innerTokens p ++ tokensOf (scan (blankLines (lineBreaks p + 1) ++ q)) := by
    rw [scan_join hp.1, tokensOf, List.filterMap_append]
    rfl
  have hjoined := hfirst.precedes hsecond
  rw [← takeWhile_innerTokens, ← htokens, ← Stmt.bareAll_append] at hjoined
  obtain ⟨hfaults, hbare⟩ := Parser.parse_of_forms hjoined s.machine.nextId
  exact ⟨hfaults, Stmt.allAlike_of_bare hbare⟩

/-- **Two clean texts are read together as they are one by one**, but for lines. -/
theorem Session.read_join (hp : Clean p) (hq : Clean q) (s t : Session) (k : Nat) :
    Stmt.AllAlike (Moved (lineBreaks p + 1) k) .any (s.read (p ++ "\n" ++ q)).statements
      ((s.read p).statements ++ (t.read (blankLines k ++ q)).statements) := by
  have hmoved := read_alike (Moved.refl _ k) (textAlike_moved (lineBreaks p + 1) k q) t t
  have hfirst : Stmt.AllAlike (Moved (lineBreaks p + 1) k) .any (s.read p).statements
      (s.read p).statements :=
    (Stmt.allAlike_of_bare rfl).mono (fun h => h ▸ Moved.refl _ _ _) id
  refine (read_join_placed hp hq s t).2.trans ?_ (fun _ _ _ _ _ => trivial)
    (hfirst.append hmoved.statements)
  rintro l _ l' rfl hl
  exact hl

/-- The joined text has no fault. -/
theorem Clean.join (hp : Clean p) (hq : Clean q) (s : Session) :
    s.found (p ++ "\n" ++ q) = [] ∧
      (resolve (s.read (p ++ "\n" ++ q)).statements).faults = [] := by
  obtain ⟨hfaults, halike⟩ := Session.read_join_placed hp hq s s
  have hscan : faultsOf (scan (p ++ "\n" ++ q)) = [] := by
    have hsecond := (List.append_eq_nil_iff.mp (hq.read s (lineBreaks p + 1)).1).1
    rw [scan_join hp.1, faultsOf, List.filterMap_append, List.append_eq_nil_iff]
    exact ⟨faultsOf_dropLast hp.1, hsecond⟩
  refine ⟨?_, (eq_nil_iff_of_forall₂ (resolve_alike halike)).mpr ?_⟩
  · rw [Session.found, hscan, hfaults]
    rfl
  · exact resolve_append (proper_parse (spelled_scan p) s.machine.nextId) (hp.read_self s).2
      (hq.read s (lineBreaks p + 1)).2

/-! ## Noting the parts -/

/-- At the top, uses of one text do not depend on the texts before it. -/
theorem Stmt.usesAll_append (ts : List Stmt) : ∀ ss : List Stmt,
    Stmt.usesAll (ss ++ ts) [] = Stmt.usesAll ss [] ++ Stmt.usesAll ts []
  | [] => rfl
  | s :: ss => by
    rw [List.cons_append, Stmt.usesAll, Stmt.usesAll, s.after_nil, Stmt.usesAll_append ts ss,
      List.append_assoc]

/-- Local uses are counted text by text. -/
theorem Stmt.localUses_append (ss ts : List Stmt) :
    Stmt.localUses (ss ++ ts) = Stmt.localUses ss + Stmt.localUses ts := by
  rw [Stmt.localUses, Stmt.usesAll_append, List.countP_append]
  rfl

/-- The program `ss ++ ts` is noted on the left, but on the right only the first part `ss'`; the
second part `ts'` is still to come. -/
structure HalfNoted (P Q : Pairing) (ss ts ss' ts' : List Stmt) : Prop where
  lines : Q.lines = P.lines
  first : Stmt.AllAlike Q.lines Q.Kept ss ss'
  second : Stmt.AllAlike Q.lines .any ts ts'
  noted : Stmt.Noted Q.left Q.leftLimit ts
  left_size : Q.left.size = P.left.size + Stmt.localUses ss' + Stmt.localUses ts'
  right_size : Q.right.size = P.right.size + Stmt.localUses ss'

variable {P : Pairing} {s t : Session} {k : Nat}

/-- One machine is going to run the joined text, the other its first part. -/
theorem Session.Alike.prepared_joined (h : s.Alike P s)
    (hlines : P.lines = Moved (lineBreaks p + 1) k) (hp : Clean p) (hq : Clean q) (t : Session) :
    ∃ Q ss ts, (s.prepared (p ++ "\n" ++ q)).Alike Q (s.prepared p) ∧
      (s.read (p ++ "\n" ++ q)).statements = ss ++ ts ∧
      HalfNoted P Q ss ts (s.read p).statements (t.read (blankLines k ++ q)).statements := by
  have hsound := sound_read (hp.join hq s).2
  have hsound' := sound_read (hp.read_self s).2
  have hl := hsound.laterTable P.left_fresh h.machine.leftLimit
  have hr := hsound'.laterTable P.right_fresh h.machine.rightLimit
  obtain ⟨ss, ts, hread, hss, hts⟩ := (read_join hp hq s t k).exists_append
  have huses : Stmt.usesAll (s.read (p ++ "\n" ++ q)).statements [] =
      Stmt.usesAll ss [] ++ Stmt.usesAll ts [] := by rw [hread, Stmt.usesAll_append]
  have hcount : Stmt.localUses (s.read (p ++ "\n" ++ q)).statements =
      Stmt.localUses (s.read p).statements +
        Stmt.localUses (t.read (blankLines k ++ q)).statements := by
    rw [hread, Stmt.localUses_append, hss.localUses_eq, hts.localUses_eq]
  have hall := hsound.noted P.left_fresh h.machine.leftLimit
  rw [Stmt.Noted, huses] at hall
  obtain ⟨hnoted, hnoted'⟩ := List.forall_mem_append.mp hall
  rw [← hlines] at hss hts
  obtain ⟨Q, -, hQ, hleft, hright, hlimit, hm, hkept⟩ := h.machine.note hl hr
    (congrArg (Std.TreeMap.insertMany · _) h.machine.left)
    (congrArg (Std.TreeMap.insertMany · _) h.machine.right) (Nat.le_refl _) (Nat.le_refl _)
  refine ⟨Q, ss, ts, hm, hread, hQ,
    hkept hss hnoted (hsound'.noted P.right_fresh h.machine.rightLimit), ?_, ?_, ?_, ?_⟩
  · rw [hQ]
    exact hts
  · rw [hleft, hlimit]
    exact hnoted'
  · rw [hleft, hsound.size P.left_fresh h.machine.leftLimit, hcount, Nat.add_assoc]
  · rw [hright, hsound'.size P.right_fresh h.machine.rightLimit]

/-- The machine on the right notes its second part. -/
theorem Machine.Alike.prepared_second {Q : Pairing} {m : Machine} (hm : m.Alike Q t.machine)
    {ts : List Stmt} {source : String} (hclean : (resolve (t.read source).statements).faults = [])
    (hts : Stmt.AllAlike Q.lines .any ts (t.read source).statements)
    (hnoted : Stmt.Noted Q.left Q.leftLimit ts) :
    ∃ R : Pairing, R.lines = Q.lines ∧ R.left = Q.left ∧
      R.right.size = Q.right.size + Stmt.localUses (t.read source).statements ∧
      m.Alike R (t.prepared source) ∧
      Stmt.AllAlike R.lines R.Kept ts (t.read source).statements := by
  have hsound := Session.sound_read hclean
  have hl : LaterTable Q.leftLimit Q.leftLimit Q.left Q.left := .refl Q.left_fresh
  have hr := hsound.laterTable Q.right_fresh hm.rightLimit
  obtain ⟨R, -, hR, hleft, hright, -, hm', hkept⟩ := hm.note hl hr hm.left
    (congrArg (Std.TreeMap.insertMany · _) hm.right) hm.leftLimit (Nat.le_refl _)
  refine ⟨R, hR, hleft, ?_, hm', hkept hts hnoted (hsound.noted Q.right_fresh hm.rightLimit)⟩
  rw [hright, hsound.size Q.right_fresh hm.rightLimit]

/-! ## Running the parts -/

/-- A program goes on behind its first part where that ends. -/
theorem executeProgram_append (host : Host) (fuel : Nat) (ts : List Stmt) :
    ∀ (ss : List Stmt) (m : Machine), executeProgram host fuel (ss ++ ts) m =
      match executeProgram host fuel ss m with
      | .ok _ m' => executeProgram host fuel ts m'
      | .error stop m' => .error stop m'
  | [], _ => rfl
  | s :: ss, m => by
    rw [List.cons_append, executeProgram_cons, executeProgram_cons]
    cases execute host fuel s m with
    | ok _ m' => exact executeProgram_append host fuel ts ss m'
    | error stop m' => rfl

namespace Session

variable {host : Host} {fuel : Nat} {source : String}

/-- What a run of a text without faults comes to. -/
def ended (s : Session) : Result Stop Machine Unit → Report × Session
  | .ok _ m => (⟨some .ok, []⟩, { s with machine := m })
  | .error stop m => s.stopped [] stop m

/-- A run of a clean text is its execution. -/
theorem run_of_clean (h : s.found source = [] ∧ (resolve (s.read source).statements).faults = []) :
    s.run host fuel source =
      s.ended (executeProgram host fuel (s.read source).statements (s.prepared source)) := by
  rw [run_of_executes host fuel ⟨.inl h.1, h.2⟩, h.1]
  rfl

/-- Alike ends of an execution are reported alike. -/
theorem ended_alike (hrecover : s.recover = t.recover) {out out' : Result Stop Machine Unit}
    (h : Matches (Stop.Alike P.lines) (Machine.Alike P) Eq out out') :
    (s.ended out).1.Alike P.lines (t.ended out').1 ∧ (s.ended out).2.Alike P (t.ended out').2 := by
  cases h with
  | ok _ hm => exact ⟨⟨rfl, .nil⟩, hrecover, hm⟩
  | error hstop hm => exact Alike.stopped hrecover hm hstop

/-- Every session is alike itself, whatever lines stand for each other. -/
theorem Reached.alike_self (hhost : host.IgnoresIds) (h : s.Reached host) (lines : Lines)
    (hlines : ∀ l, lines l l) :
    ∃ P : Pairing, P.lines = lines ∧ P.left.size = P.right.size ∧ s.Alike P s := by
  obtain ⟨P, hP, halike⟩ := h.indistinguishable_self hhost
  have hgrows : P.Grows { P with lines, lines_refl := hlines } :=
    ⟨fun hl => by rw [hP.lines] at hl; exact hl ▸ hlines _, Nat.le_refl _, Nat.le_refl _,
      fun _ _ => rfl, fun _ _ => rfl⟩
  exact ⟨{ P with lines, lines_refl := hlines }, rfl, hP.size, rfl,
    { halike.machine with store := halike.machine.store.mono hgrows }⟩

/-- **Behind a first part that ends, the joined text runs as the second part does.** -/
theorem run_joined_of_ok (hhost : ∀ P, host.Respects P) (h : s.Reached host) (hp : Clean p)
    (hq : Clean q) (hok : (s.run host fuel p).1.status = some .ok) (k : Nat) :
    ∃ P : Pairing, P.lines = Moved (lineBreaks p + 1) k ∧ P.left.size = P.right.size ∧
      (s.run host fuel (p ++ "\n" ++ q)).1.Alike P.lines
        ((s.run host fuel p).2.run host fuel (blankLines k ++ q)).1 ∧
      (s.run host fuel (p ++ "\n" ++ q)).2.Alike P
        ((s.run host fuel p).2.run host fuel (blankLines k ++ q)).2 := by
  obtain ⟨P, hlines, hsize, hself⟩ := h.alike_self (fun P _ => hhost P) _
    (Moved.refl (lineBreaks p + 1) k)
  have hfirst : s.run host fuel p = s.ended (executeProgram host fuel (s.read p).statements
      (s.prepared p)) := run_of_clean (hp.read_self s)
  generalize ht : (s.run host fuel p).2 = t
  obtain ⟨Q, ss, ts, hm, hread, hhalf⟩ := hself.prepared_joined hlines hp hq t
  have hout := executeProgram_alike (hhost Q) fuel hhalf.first hm
  rw [run_of_clean (hp.join hq s), hread, executeProgram_append]
  generalize executeProgram host fuel (s.read p).statements (s.prepared p) = out' at hfirst hout
  generalize executeProgram host fuel ss (s.prepared (p ++ "\n" ++ q)) = out at hout
  cases hout with
  | error hstop hm =>
    rw [hfirst] at hok
    cases hstop <;> cases hok
  | @ok _ _ m m' _ hm =>
    have hsession : t = { s with machine := m' } := ht.symm.trans (congrArg Prod.snd hfirst)
    have hclean := hq.read t k
    have hmachine : m.Alike Q t.machine := by rwa [hsession]
    obtain ⟨R, hR, hleft, hright, hm, hts⟩ :=
      hmachine.prepared_second hclean.2 hhalf.second hhalf.noted
    have hrecover : s.recover = t.recover := by rw [hsession]
    have hout := executeProgram_alike (hhost R) fuel hts hm
    refine ⟨R, hR.trans (hhalf.lines.trans hlines), ?_, ?_⟩
    · rw [hleft, hhalf.left_size, hright, hhalf.right_size, hsize]
    · rw [run_of_clean hclean]
      exact ended_alike hrecover hout

/-- **A first part that does not end** stops the joined text as well. -/
theorem run_joined_of_not_ok (hhost : ∀ P, host.Respects P) (h : s.Reached host) (hp : Clean p)
    (hq : Clean q) (hstops : (s.run host fuel p).1.status ≠ some .ok) :
    (s.run host fuel (p ++ "\n" ++ q)).1 = (s.run host fuel p).1 ∧
    ∃ P : Pairing, P.lines = Eq ∧
      P.left.size = P.right.size + Stmt.localUses ((s.run host fuel p).2.read q).statements ∧
      (s.run host fuel (p ++ "\n" ++ q)).2.Alike P (s.run host fuel p).2 := by
  obtain ⟨P, hlines, hsize, hself⟩ := h.alike_self (fun P _ => hhost P) _
    (Moved.refl (lineBreaks p + 1) (lineBreaks p + 1))
  generalize ht : (s.run host fuel p).2.read q = second
  obtain ⟨Q, ss, ts, hm, hread, hhalf⟩ := hself.prepared_joined hlines hp hq (s.run host fuel p).2
  have hQ : Q.lines = Eq := hhalf.lines.trans (hlines.trans (Moved.self_eq _))
  have hplaced := read_alike (Moved.refl _ 0) (textAlike_moved (lineBreaks p + 1) 0 q)
    (s.run host fuel p).2 (s.run host fuel p).2
  rw [blankLines_zero_append, ht] at hplaced
  have hcount : Q.left.size = Q.right.size + Stmt.localUses second.statements := by
    rw [hhalf.left_size, hhalf.right_size, hsize, hplaced.statements.localUses_eq]
  have hout := executeProgram_alike (hhost Q) fuel hhalf.first hm
  rw [run_of_clean (hp.read_self s)] at hstops ⊢
  rw [run_of_clean (hp.join hq s), hread, executeProgram_append]
  generalize executeProgram host fuel (s.read p).statements (s.prepared p) = out' at hstops hout ⊢
  generalize executeProgram host fuel ss (s.prepared (p ++ "\n" ++ q)) = out at hout ⊢
  cases hout with
  | ok _ hm => exact absurd rfl hstops
  | error hstop hm =>
    obtain ⟨hreport, hsession⟩ := ended_alike (s := s) (t := s) rfl (.error hstop hm)
    rw [hQ] at hreport
    exact ⟨hreport.eq, Q, hQ, hcount, hsession⟩

end Session

/-! ## Lines that move along -/

/-- A diagnostic `k` lines further down; the one about output has no line. -/
def Diagnostic.moved (k : Nat) : Diagnostic → Diagnostic
  | .lex line fault => .lex (line + k) fault
  | .parse t fault => .parse { t with line := t.line + k } fault
  | .resolve t fault => .resolve { t with line := t.line + k } fault
  | .runtime line fault => .runtime (line + k) fault
  | .output => .output

namespace Diagnostic

variable {lines : Lines} {d d' : Diagnostic}

/-- Alike diagnostics have lines that correspond. -/
theorem Alike.line (hlines : ∀ l, lines l l) (h : d.Alike lines d') : lines d.line d'.line := by
  cases h with
  | lex h | runtime h => exact h
  | parse h | resolve h => exact h.line
  | output => exact hlines 0

theorem moved_zero (d : Diagnostic) : d.moved 0 = d := by
  cases d <;> rfl

/-- A diagnostic with another line is one that was moved. -/
theorem Alike.eq_moved (h : d.Alike lines d') (hline : d'.line = d.line + k) : d' = d.moved k := by
  cases h with
  | lex _ fault => exact congrArg (Diagnostic.lex · fault) hline
  | runtime _ fault => exact congrArg (Diagnostic.runtime · fault) hline
  | output => rfl
  | @parse t t' h fault =>
    obtain ⟨kind, lexeme, literal, line⟩ := t'
    obtain ⟨rfl, rfl, rfl, -⟩ := h
    exact congrArg (fun l => Diagnostic.parse { t with line := l } fault) hline
  | @resolve t t' h fault =>
    obtain ⟨kind, lexeme, literal, line⟩ := t'
    obtain ⟨rfl, rfl, rfl, -⟩ := h
    exact congrArg (fun l => Diagnostic.resolve { t with line := l } fault) hline

end Diagnostic

/-- Either a line moves along with the text, or it is always the same. -/
theorem moves_or_stays {l : Nat → Nat} (h : ∀ j k, Moved j k (l j) (l k)) :
    (∀ k, l k = l 0 + k) ∨ ∀ k, l k = l 0 := by
  rcases h 0 1 with hstays | ⟨a, ha, hmoves⟩
  · refine .inr fun k => ?_
    rcases h 0 k with h₀ | ⟨a, ha, hk⟩
    · exact h₀.symm
    · rcases h 1 k with h₁ | ⟨b, hb, hk'⟩ <;> omega
  · refine .inl fun k => ?_
    rcases h 0 k with h₀ | ⟨b, hb, hk⟩
    · rcases h 1 k with h₁ | ⟨b, hb, hk'⟩ <;> omega
    · omega

/-- **A single diagnostic moves with the text, or stays where it is.** -/
theorem diagnostics_move_or_stay {ds : Nat → List Diagnostic} (hone : (ds 0).length ≤ 1)
    (h : ∀ j k, List.Forall₂ (Diagnostic.Alike (Moved j k)) (ds j) (ds k)) :
    (∀ k, ds k = (ds 0).map (·.moved k)) ∨ ∀ k, ds k = ds 0 := by
  have hlength : ∀ k, (ds k).length = (ds 0).length := fun k => (h k 0).length_eq
  rcases Nat.le_one_iff_eq_zero_or_eq_one.mp hone with hnone | hsingle
  · have hnil : ∀ k, ds k = [] := fun k => List.length_eq_zero_iff.mp ((hlength k).trans hnone)
    exact .inr fun k => (hnil k).trans (hnil 0).symm
  · choose d hd using fun k => List.length_eq_one_iff.mp ((hlength k).trans hsingle)
    have halike : ∀ j k, (d j).Alike (Moved j k) (d k) := by
      intro j k
      have hjk := h j k
      rw [hd j, hd k] at hjk
      exact (List.forall₂_cons.mp hjk).1
    rcases moves_or_stays fun j k => (halike j k).line (Moved.refl j k) with hmoves | hstays
    · refine .inl fun k => ?_
      rw [hd k, hd 0, (halike 0 k).eq_moved (hmoves k)]
      rfl
    · refine .inr fun k => ?_
      rw [hd k, hd 0, (halike 0 k).eq_moved (k := 0) (hstays k), Diagnostic.moved_zero]

namespace Session

variable {host : Host}

/-- A run of a clean text reports one fault at most. -/
theorem length_diagnostics_le {source : String} (fuel : Nat)
    (h : s.found source = [] ∧ (resolve (s.read source).statements).faults = []) :
    (s.run host fuel source).1.diagnostics.length ≤ 1 := by
  rw [run_of_clean h]
  cases executeProgram host fuel (s.read source).statements (s.prepared source) with
  | ok _ m => exact Nat.zero_le 1
  | error stop m => cases stop <;> simp [ended, stopped]

/-- The diagnostic of a text that is run behind blank lines. -/
theorem Reached.diagnostics_moved (hhost : ∀ P, host.Respects P) (h : s.Reached host)
    (hq : Clean q) (fuel : Nat) :
    (∀ k, (s.run host fuel (blankLines k ++ q)).1.diagnostics =
      (s.run host fuel q).1.diagnostics.map (·.moved k)) ∨
    ∀ k, (s.run host fuel (blankLines k ++ q)).1.diagnostics =
      (s.run host fuel q).1.diagnostics := by
  have halike : ∀ j k, List.Forall₂ (Diagnostic.Alike (Moved j k))
      (s.run host fuel (blankLines j ++ q)).1.diagnostics
      (s.run host fuel (blankLines k ++ q)).1.diagnostics := by
    intro j k
    obtain ⟨P, hlines, -, hself⟩ := h.alike_self (fun P _ => hhost P) _ (Moved.refl j k)
    have htext := textAlike_moved j k q
    rw [← hlines] at htext
    obtain ⟨Q, -, -, hreport⟩ := hself.run htext (fun Q _ => hhost Q) fuel
    rw [hlines] at hreport
    exact hreport.diagnostics
  have hone : (s.run host fuel (blankLines 0 ++ q)).1.diagnostics.length ≤ 1 :=
    length_diagnostics_le fuel (hq.read s 0)
  have hmoves := @diagnostics_move_or_stay
    (fun k => (s.run host fuel (blankLines k ++ q)).1.diagnostics) hone halike
  simp only [blankLines_zero_append] at hmoves
  exact hmoves

/-! ## The joined text -/

/-- **A program may be submitted in parts.** Let `p` and `q` be texts without faults, and let the
functions of the host see neither node ids nor lines nor the table of distances.

If `p` ends, the joined text comes to the status of `q`, the output of both and as many recorded
distances, and leaves the session as both do, up to node ids and to the lines in functions. Its
diagnostic is that of `q` on its place in the joined text. That is the one of `q` alone, moved down
by the line breaks before `q`, if it moves along when `q` is moved down; it is just the one of `q`
alone if it does not, which is so for faults in functions from before and for output.

If `p` does not end, the joined text comes to what `p` does, and leaves the session as `p` does.
Only the distances in `q` are recorded as well. -/
theorem run_joined (hhost : ∀ P, host.Respects P) (h : s.Reached host) (hp : Clean p)
    (hq : Clean q) (fuel : Nat) :
    let first := s.run host fuel p
    let second := first.2.run host fuel q
    let joined := s.run host fuel (p ++ "\n" ++ q)
    (first.1.status = some .ok →
      joined.1.status = second.1.status ∧ joined.2.output = second.2.output ∧
      joined.2.localCount = second.2.localCount ∧
      (∃ P : Pairing, P.lines = Moved (lineBreaks p + 1) 0 ∧ joined.2.Alike P second.2) ∧
      joined.1.diagnostics =
        (first.2.run host fuel (blankLines (lineBreaks p + 1) ++ q)).1.diagnostics ∧
      ((∀ k, (first.2.run host fuel (blankLines k ++ q)).1.diagnostics =
          second.1.diagnostics.map (·.moved k)) ∨
        ∀ k, (first.2.run host fuel (blankLines k ++ q)).1.diagnostics =
          second.1.diagnostics)) ∧
    (first.1.status ≠ some .ok →
      joined.1 = first.1 ∧ joined.2.output = first.2.output ∧
      joined.2.localCount = first.2.localCount + first.2.localsNoted (.run fuel q) ∧
      ∃ P : Pairing, P.lines = Eq ∧ joined.2.Alike P first.2) := by
  intro first second joined
  constructor
  · intro hok
    obtain ⟨P, hlines, hsize, hreport, hsession⟩ := run_joined_of_ok hhost h hp hq hok 0
    rw [blankLines_zero_append] at hreport hsession
    -- Behind as many blank lines as `p` and the break have, `q` is on its lines of the joined text.
    obtain ⟨Q, hQ, -, hplaced, -⟩ := run_joined_of_ok hhost h hp hq hok (lineBreaks p + 1)
    rw [hQ, Moved.self_eq] at hplaced
    refine ⟨hreport.status, congrArg Sink.written hsession.machine.sink, ?_, ⟨P, hlines, hsession⟩,
      congrArg Report.diagnostics hplaced.eq, ?_⟩
    · change Std.TreeMap.size _ = Std.TreeMap.size _
      rw [hsession.machine.left, hsession.machine.right, hsize]
    · exact (h.run fuel p).diagnostics_moved hhost hq fuel
  · intro hstops
    obtain ⟨hreport, P, hlines, hsize, hsession⟩ := run_joined_of_not_ok hhost h hp hq hstops
    obtain ⟨hfound, hresolve⟩ := hq.read_self first.2
    refine ⟨hreport, congrArg Sink.written hsession.machine.sink, ?_, P, hlines, hsession⟩
    have hnoted : first.2.localsNoted (.run fuel q) =
        Stmt.localUses (first.2.read q).statements := if_pos ⟨.inl hfound, hresolve⟩
    rw [hnoted]
    change Std.TreeMap.size _ = Std.TreeMap.size _ + _
    rw [hsession.machine.left, hsession.machine.right, hsize]

/-- A first part that ends in a comment and declares a function; the fault is in a block of the
second part. It is on line 1 of the second part and on line 3 of the joined text. -/
theorem run_joined_at_own_fault :
    let host := Library.withoutLocals fun _ => 0
    let s := ((Session.start false none).run host 30 "var word = \"a\";").2
    let p := "fun f(x) { print x; }\n//"
    let q := "f(word); { var x = clock; x.y; }"
    (∀ P, host.Respects P) ∧ s.Reached host ∧ Clean p ∧ Clean q ∧
      (s.run host 30 p).1.status = some .ok ∧
      ((s.run host 30 p).2.run host 30 q).1.diagnostics = [.runtime 1 .noProperties] ∧
      (s.run host 30 (p ++ "\n" ++ q)).1 = ⟨some .runtimeError, [.runtime 3 .noProperties]⟩ := by
  intro host s p q
  have hhost : ∀ P, host.Respects P := Library.withoutLocals_respects _
  have hreached : s.Reached host := .run (.start false none) 30 _
  have hp : Clean p := by decide +kernel
  have hq : Clean q := by decide +kernel
  have hok : (s.run host 30 p).1.status = some .ok := by decide +kernel
  have hstops : ((s.run host 30 p).2.run host 30 q).1.status = some .runtimeError := by
    decide +kernel
  have hfault : ((s.run host 30 p).2.run host 30 q).1.diagnostics = [.runtime 1 .noProperties] := by
    decide +kernel
  have hbelow : ((s.run host 30 p).2.run host 30 (blankLines (lineBreaks p + 1) ++ q)).1.diagnostics =
      [.runtime 3 .noProperties] := by
    decide +kernel
  -- nothing is evaluated from here on
  clear_value q p s host
  obtain ⟨hstatus, -, -, -, hplaced, -⟩ := (run_joined hhost hreached hp hq 30).1 hok
  exact ⟨hhost, hreached, hp, hq, hok, hfault,
    congrArg₂ Report.mk (hstatus.trans hstops) (hplaced.trans hbelow)⟩

/-- **Where the joined text differs from its parts.** A fault in a function of the first part is not
moved by joining: it stays on its line, although there is a line break before the second part. And
where the first part fails, the distances in the second one are recorded all the same. -/
theorem run_joined_at_earlier_fault :
    let host := Library.withoutLocals fun _ => 0
    let s := Session.start false none
    (let p := "fun f() { x; }"
      let q := "f();"
      Clean p ∧ Clean q ∧ (s.run host 20 p).1.status = some .ok ∧ lineBreaks p + 1 = 1 ∧
        ((s.run host 20 p).2.run host 20 q).1.diagnostics = [.runtime 1 (.undefinedVariable "x")] ∧
        (s.run host 20 (p ++ "\n" ++ q)).1.diagnostics ≠
          ((s.run host 20 p).2.run host 20 q).1.diagnostics.map (·.moved 1)) ∧
    (let p := "x;"
      let q := "{ var y; y; }"
      Clean p ∧ Clean q ∧ (s.run host 20 p).1.status = some .runtimeError ∧
        (s.run host 20 p).2.localCount = 0 ∧ (s.run host 20 (p ++ "\n" ++ q)).2.localCount = 1) := by
  intro host s
  constructor
  · intro p q
    have hsecond : ((s.run host 20 p).2.run host 20 q).1.diagnostics =
        [.runtime 1 (.undefinedVariable "x")] := by decide +kernel
    have hjoined : (s.run host 20 (p ++ "\n" ++ q)).1.diagnostics =
        [.runtime 1 (.undefinedVariable "x")] := by
      have htext : p ++ "\n" ++ q = "fun f() { x; }\nf();" := by simp [p, q]
      rw [htext]
      decide +kernel
    refine ⟨by decide +kernel, by decide +kernel, by decide +kernel, by decide +kernel, hsecond, ?_⟩
    rw [hjoined, hsecond]
    decide
  · intro p q
    have htext : p ++ "\n" ++ q = "x;\n{ var y; y; }" := by simp [p, q]
    rw [htext]
    exact ⟨by decide +kernel, by decide +kernel, by decide +kernel, by decide +kernel,
      by decide +kernel⟩

end Session

end LoxLang
