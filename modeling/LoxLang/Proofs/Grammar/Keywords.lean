import Mathlib
import LoxLang.Proofs.Alike.Tree
import LoxLang.Proofs.Grammar.Depth
import LoxLang.Proofs.Grammar.Script

/-!
# Proofs/Grammar/Keywords — the keywords of a program can be counted in its tree

Each word that starts a declaration or a statement stands for one node. So what is read has no more
such nodes than such words were passed (`Parser.counts_program`), and a program read without a fault
has as many (`keywords_parse`).
-/

namespace LoxLang

/-- The number of tokens that a declaration is likely to start with. -/
def starts (ts : List Token) : Nat :=
  ts.countP (·.kind.startsDeclaration)

@[simp] theorem starts_append (ts us : List Token) : starts (ts ++ us) = starts ts + starts us :=
  List.countP_append

theorem starts_cons (t : Token) (ts : List Token) :
    starts (t :: ts) = (if t.kind.startsDeclaration then 1 else 0) + starts ts := by
  rw [starts, List.countP_cons, Nat.add_comm]
  rfl

/-- A last part of the tokens has no more keywords than all of them. -/
theorem starts_le_of_suffix {ts us : List Token} (h : ts <:+ us) : starts ts ≤ starts us :=
  h.sublist.countP_le

mutual

/-- The number of words in a tree that start a declaration. -/
def Stmt.keywords : Stmt → Nat
  | .exprStmt _ => 0
  | .printStmt _ => 1
  | .varDecl _ _ => 1
  | .block ss => Stmt.keywordsAll ss
  | .ifStmt _ s o => 1 + s.keywords + Stmt.keywordsOption o
  | .whileStmt _ s => 1 + s.keywords
  | .forStmt o _ _ s => 1 + Stmt.keywordsOption o + s.keywords
  | .returnStmt _ _ => 1
  | .funDecl r => 1 + r.keywords
  | .classDecl _ rs => 1 + Routine.keywordsAll rs

def Stmt.keywordsAll : List Stmt → Nat
  | [] => 0
  | s :: ss => s.keywords + Stmt.keywordsAll ss

def Stmt.keywordsOption : Option Stmt → Nat
  | none => 0
  | some s => s.keywords

def Routine.keywords : Routine → Nat
  | ⟨_, _, ss⟩ => Stmt.keywordsAll ss

def Routine.keywordsAll : List Routine → Nat
  | [] => 0
  | r :: rs => r.keywords + Routine.keywordsAll rs

end

/-- A declaration that failed has no keywords. -/
theorem Stmt.keywordsAll_toList (o : Option Stmt) (ss : List Stmt) :
    keywordsAll (o.toList ++ ss) = keywordsOption o + keywordsAll ss := by
  cases o with
  | none => simp [keywordsOption]
  | some s => rfl

/-! ## Trees that are alike -/

section

variable {lines : Lines} {uses : Ids}

mutual

/-- Alike statements have as many keywords, and so do the lists of them. -/
theorem Stmt.Alike.keywords_eq : ∀ {s s' : Stmt}, s.Alike lines uses s' → s.keywords = s'.keywords
  | _, _, .exprStmt _ | _, _, .printStmt _ | _, _, .varDecl _ _ | _, _, .returnStmt _ _ => rfl
  | _, _, .block h => h.keywords_eq
  | _, _, .ifStmt _ hs ho => by simp only [Stmt.keywords, hs.keywords_eq, ho.keywords_eq]
  | _, _, .whileStmt _ hs => by simp only [Stmt.keywords, hs.keywords_eq]
  | _, _, .forStmt ho _ _ hs => by simp only [Stmt.keywords, ho.keywords_eq, hs.keywords_eq]
  | _, _, .funDecl h => by simp only [Stmt.keywords, h.keywords_eq]
  | _, _, .classDecl _ h => by simp only [Stmt.keywords, h.keywords_eq]

theorem Stmt.AllAlike.keywords_eq : ∀ {ss ss' : List Stmt}, Stmt.AllAlike lines uses ss ss' →
    Stmt.keywordsAll ss = Stmt.keywordsAll ss'
  | _, _, .nil => rfl
  | _, _, .cons h hss => by simp only [Stmt.keywordsAll, h.keywords_eq, hss.keywords_eq]

theorem Stmt.OptionAlike.keywords_eq : ∀ {o o' : Option Stmt}, Stmt.OptionAlike lines uses o o' →
    Stmt.keywordsOption o = Stmt.keywordsOption o'
  | _, _, .none => rfl
  | _, _, .some h => h.keywords_eq

theorem Routine.Alike.keywords_eq : ∀ {r r' : Routine}, r.Alike lines uses r' →
    r.keywords = r'.keywords
  | _, _, .mk _ _ hss => hss.keywords_eq

theorem Routine.AllAlike.keywords_eq : ∀ {rs rs' : List Routine},
    Routine.AllAlike lines uses rs rs' → Routine.keywordsAll rs = Routine.keywordsAll rs'
  | _, _, .nil => rfl
  | _, _, .cons h hrs => by simp only [Routine.keywordsAll, h.keywords_eq, hrs.keywords_eq]

end

end

namespace Parser

/-! ## Counting while reading -/

/-- What is read has at most as many keywords as were passed, together with `before` that were
passed before; exactly as many if no fault was noted. -/
structure Counts {α : Type} (before : Nat) (p : Parser α) (keywords : α → Nat) : Prop where
  steady : Steady p
  le : ∀ {c a c'}, p c = .ok a c' → keywords a + starts c'.rest ≤ before + starts c.rest
  eq : ∀ {c a c'}, p c = .ok a c' → c'.faults = c.faults →
    keywords a + starts c'.rest = before + starts c.rest

/-- The tokens that a parser passes are of the kinds that it looks for. -/
theorem Script.passed {kinds : List Kind} {ahead : Bool} {α : Type} {p : Parser α}
    (script : Script kinds ahead p) : ∀ {c a c'}, p c = .ok a c' →
      ∃ w, c.rest = w ++ c'.rest ∧ ∀ t ∈ w, t.kind ∈ kinds := by
  have hself : ∀ c : Cursor, ∃ w, c.rest = w ++ c.rest ∧ ∀ t ∈ w, t.kind ∈ kinds :=
    fun c => ⟨[], rfl, nofun⟩
  induction script with
  | pure a =>
    intro c b c' h
    obtain ⟨-, rfl⟩ := pure_ok.mp h
    exact hself c
  | refuse fault => exact fun h => absurd h refuse_ok
  | fail t fault => exact fun h => nomatch h
  | note t fault | noteHere fault | freshId | looksAt _ =>
    intro c b c' h
    cases h
    exact hself c
  | @acceptAny _ accepted haccepted =>
    intro c o c' h
    rcases acceptAny_ok h with ⟨t, -, hk, hr, -⟩ | ⟨-, rfl, -⟩
    · exact ⟨[t], hr, fun t' ht' => List.mem_singleton.mp ht' ▸ haccepted hk⟩
    · exact hself c
  | bind _ _ ihp ihf =>
    intro c b c' h
    obtain ⟨a, c₁, h₁, h₂⟩ := bind_ok h
    obtain ⟨u, hu, hku⟩ := ihp h₁
    obtain ⟨w, hw, hkw⟩ := ihf a h₂
    refine ⟨u ++ w, by rw [hu, hw, List.append_assoc], fun t ht => ?_⟩
    exact (List.mem_append.mp ht).elim (hku t) (hkw t)
  | atEnd _ _ _ ihclosed ihgoing =>
    intro c b c' h
    obtain ⟨closed, c₁, h₁, h₂⟩ := bind_ok h
    cases h₁
    cases hrest : c.rest.isEmpty with
    | true => exact ihclosed (hrest ▸ h₂)
    | false => exact ihgoing (hrest ▸ h₂)
  -- Recovery may skip any token, so a script that recovers looks for all kinds.
  | recovering hk _ body =>
    intro c b c' h
    obtain ⟨w, hw⟩ := (body.steady.recovering.ok h).rest
    exact ⟨w, hw.symm, fun t _ => hk _⟩
  | anywhere _ ih => exact ih

namespace Counts

variable {α β : Type} {before : Nat} {p : Parser α} {keywords : α → Nat}

/-- What is read without a token has the keywords that were passed before. -/
theorem pure {a : α} (h : keywords a = before) : Counts before (Pure.pure a) keywords where
  steady := .pure a
  le h' := by
    obtain ⟨rfl, rfl⟩ := pure_ok.mp h'
    rw [h]
  eq h' _ := by
    obtain ⟨rfl, rfl⟩ := pure_ok.mp h'
    rw [h]

/-- A refusal reads nothing. -/
theorem refuse (fault : ParseFault) : Counts before (Parser.refuse fault) keywords where
  steady := .refuse fault
  le h := absurd h refuse_ok
  eq h := absurd h refuse_ok

/-- A parser that looks for no keyword passes none. -/
theorem ofScript {kinds : List Kind} {ahead : Bool} (script : Script kinds ahead p)
    (hkinds : ∀ kind ∈ kinds, kind.startsDeclaration = false) : Counts 0 p fun _ => 0 := by
  have hsame : ∀ {c a c'}, p c = .ok a c' → starts c'.rest = starts c.rest := by
    intro c a c' h
    obtain ⟨w, hw, hk⟩ := script.passed h
    have hnone : starts w = 0 := List.countP_eq_zero.mpr fun t ht => by simp [hkinds _ (hk t ht)]
    rw [hw, starts_append, hnone, Nat.zero_add]
  exact ⟨script.steady, fun h => by rw [hsame h], fun h _ => by rw [hsame h]⟩

/-- Keywords of two parts are counted one after the other. -/
theorem bind {keywords' : β → Nat} {f : α → Parser β} (hp : Counts 0 p keywords)
    (hf : ∀ a, Counts (before + keywords a) (f a) keywords') :
    Counts before (p >>= f) keywords' where
  steady := hp.steady.bind fun a => (hf a).steady
  le h := by
    obtain ⟨a, c₁, h₁, h₂⟩ := bind_ok h
    have hle₁ := hp.le h₁
    have hle₂ := (hf a).le h₂
    omega
  eq {c b c'} h hfaults := by
    obtain ⟨a, c₁, h₁, h₂⟩ := bind_ok h
    -- Faults are only added, so none was noted on the way.
    have hnone : c₁.faults = c.faults := by
      have hafter := ((hf a).steady.ok h₂).faults
      rw [hfaults] at hafter
      exact (hp.steady.ok h₁).faults.eq_of_length_le hafter.length_le |>.symm
    have heq₁ := hp.eq h₁ hnone
    have heq₂ := (hf a).eq h₂ (hfaults.trans hnone.symm)
    omega

theorem map (hp : Counts before p keywords) {keywords' : β → Nat} {f : α → β}
    (hf : ∀ a, keywords' (f a) = keywords a) : Counts before (f <$> p) keywords' where
  steady := hp.steady.map f
  le h := by
    obtain ⟨a, ha, rfl⟩ := map_ok h
    rw [hf]
    exact hp.le ha
  eq h hfaults := by
    obtain ⟨a, ha, rfl⟩ := map_ok h
    rw [hf]
    exact hp.eq ha hfaults

theorem ite {b : Prop} [Decidable b] {p q : Parser α} (hp : Counts before p keywords)
    (hq : Counts before q keywords) : Counts before (if b then p else q) keywords := by
  split
  · exact hp
  · exact hq

/-- A token is accepted, which may be a keyword, or none is. -/
theorem accept {kinds : List Kind} {f : Option Token → Parser α}
    (hnone : Counts before (f none) keywords)
    (hsome : ∀ t, t.kind ∈ kinds →
      Counts (before + if t.kind.startsDeclaration then 1 else 0) (f (some t)) keywords) :
    Counts before (acceptAny kinds >>= f) keywords where
  steady := by
    have hsteady : ∀ {c o c₁}, acceptAny kinds c = .ok o c₁ → Steady (f o) := by
      intro c o c₁ h
      rcases acceptAny_ok h with ⟨t, rfl, hk, -, -⟩ | ⟨rfl, -, -⟩
      · exact (hsome t hk).steady
      · exact hnone.steady
    refine ⟨fun h => ?_, fun h => ?_⟩
    · obtain ⟨o, c₁, h₁, h₂⟩ := bind_ok h
      exact ((Steady.acceptAny kinds).ok h₁).trans ((hsteady h₁).ok h₂)
    · rcases bind_error h with h | ⟨o, c₁, h₁, h₂⟩
      · exact (Steady.acceptAny kinds).error h
      · exact ((Steady.acceptAny kinds).ok h₁).trans ((hsteady h₁).error h₂)
  le h := by
    obtain ⟨o, c₁, h₁, h₂⟩ := bind_ok h
    rcases acceptAny_ok h₁ with ⟨t, rfl, hk, hr, -⟩ | ⟨rfl, rfl, -⟩
    · rw [hr, starts_cons, ← Nat.add_assoc]
      exact (hsome t hk).le h₂
    · exact hnone.le h₂
  eq h hfaults := by
    obtain ⟨o, c₁, h₁, h₂⟩ := bind_ok h
    rcases acceptAny_ok h₁ with ⟨t, rfl, hk, hr, hc₁⟩ | ⟨rfl, rfl, -⟩
    · rw [hr, starts_cons, ← Nat.add_assoc]
      exact (hsome t hk).eq h₂ (by rw [hfaults, hc₁])
    · exact hnone.eq h₂ hfaults

theorem expect {kind : Kind} (h : kind.startsDeclaration = false) (fault : ParseFault) :
    Counts 0 (Parser.expect kind fault) fun _ => 0 :=
  ofScript (.expect (List.mem_singleton_self kind) fault : Script [kind] false _) (by simpa using h)

/-- No keyword stands in an expression. -/
theorem expression (n : Nat) : Counts 0 (expression n) fun _ => 0 :=
  ofScript (exprScript (List.Subset.refl exprKinds) n).expression (by decide)

/-- A declaration that is given up has no keywords, but its fault was noted. -/
theorem recovering {p : Parser Stmt} (hp : Counts 0 p Stmt.keywords) :
    Counts 0 (Parser.recovering p) Stmt.keywordsOption where
  steady := hp.steady.recovering
  le h := by
    rcases recovering_ok h with ⟨s, rfl, hs⟩ | ⟨d, c₁, rfl, -, -⟩
    · exact hp.le hs
    · simpa [Stmt.keywordsOption] using starts_le_of_suffix (hp.steady.recovering.ok h).rest
  eq {c _ _} h hfaults := by
    rcases recovering_ok h with ⟨s, rfl, hs⟩ | ⟨d, c₁, rfl, hd, rfl⟩
    · exact hp.eq hs hfaults
    · have hle := (hp.steady.error hd).faults.length_le
      have hlength := congrArg List.length hfaults
      simp only [List.length_append, List.length_singleton] at hlength
      omega

theorem expressionUpTo (n : Nat) {kind : Kind} (h : kind.startsDeclaration = false)
    (fault : ParseFault) : Counts 0 (expressionUpTo n kind fault) fun _ => 0 :=
  (expression n).bind fun _ => (expect h fault).bind fun _ => .pure rfl

theorem looksAt {kind : Kind} (h : kind.startsDeclaration = false) :
    Counts 0 (Parser.looksAt kind) fun _ => 0 :=
  ofScript (.looksAt (List.mem_singleton_self kind) : Script [kind] false _) (by simpa using h)

theorem atEnd : Counts 0 Parser.atEnd fun _ => 0 where
  steady := .atEnd
  le h := by
    cases h
    rfl
  eq h _ := by
    cases h
    rfl

theorem optionalUpTo (n : Nat) {kind : Kind} (h : kind.startsDeclaration = false)
    (fault : ParseFault) : Counts 0 (optionalUpTo n kind fault) fun _ => 0 := by
  refine (looksAt h).bind fun b => ?_
  have hclose : ∀ e : Option Expr, Counts 0
      (do
        let _ ← Parser.expect kind fault
        return e) (fun _ => 0) := fun e => (expect h fault).bind fun _ => .pure rfl
  cases b with
  | true => exact hclose none
  | false =>
    have hsome : Counts 0 (some <$> Parser.expression n) fun _ => 0 :=
      (expression n).map fun _ => rfl
    exact hsome.bind hclose

/-- The keyword of a variable was passed before its declaration. -/
theorem varDecl (n : Nat) : Counts 1 (varDecl n) Stmt.keywords := by
  rw [varDecl_eq]
  have hhead : Counts 0 (varHead n) fun _ => 0 :=
    ofScript (varHeadScript (List.Subset.refl exprKinds) n) (by decide)
  exact hhead.bind fun _ => (expect (by decide) _).bind fun _ => .pure rfl

/-- A clause of a `for` that declares a variable has a keyword. -/
theorem forInitial (n : Nat) : Counts 0 (forInitial n) Stmt.keywordsOption := by
  refine .accept ((expressionUpTo n (by decide) _).bind fun _ => .pure rfl) fun t ht => ?_
  rcases List.mem_pair.mp ht with ht | ht
  · simp only [ht]
    exact .pure rfl
  · simp only [ht]
    exact (varDecl n).map fun _ => rfl

theorem routineHead (n : Nat) (form : RoutineForm) : Counts 0 (routineHead n form) fun _ => 0 :=
  ofScript (routineHeadScript (List.Subset.refl headKinds) n form) (by decide)

end Counts

/-- The rules for statements count keywords. -/
structure StmtCounts (n : Nat) : Prop where
  declaration : Counts 0 (declaration n) Stmt.keywordsOption
  methods : Counts 0 (methods n) Routine.keywordsAll
  routine : ∀ form, Counts 0 (routine n form) Routine.keywords
  statement : Counts 0 (statement n) Stmt.keywords
  block : Counts 0 (block n) Stmt.keywordsAll

variable {n : Nat}

/-- A declaration has its own keyword and those of its parts. -/
theorem counts_declarationBody (ih : StmtCounts n) :
    Counts 0 (declarationBody n) Stmt.keywords := by
  refine .accept ih.statement fun t ht => ?_
  have hkinds : t.kind = .classWord ∨ t.kind = .funWord ∨ t.kind = .varWord := by simpa using ht
  rcases hkinds with ht | ht | ht
  · simp only [ht]
    exact (Counts.expect rfl _).bind fun _ => (Counts.expect rfl _).bind fun _ =>
      ih.methods.bind fun _ => (Counts.expect rfl _).bind fun _ => .pure rfl
  · simp only [ht]
    exact (ih.routine _).bind fun _ => .pure rfl
  · simp only [ht]
    exact .varDecl n

/-- A statement has the keywords of its parts. -/
theorem counts_statement (ih : StmtCounts n) : Counts 0 (statement (n + 1)) Stmt.keywords := by
  refine .accept ((Counts.expressionUpTo n rfl _).bind fun _ => .pure rfl) fun t ht => ?_
  have hkinds : t.kind = .forWord ∨ t.kind = .ifWord ∨ t.kind = .whileWord ∨
      t.kind = .returnWord ∨ t.kind = .leftBrace ∨ t.kind = .printWord := by simpa using ht
  rcases hkinds with ht | ht | ht | ht | ht | ht
  · simp only [ht]
    exact (Counts.expect rfl _).bind fun _ => (Counts.forInitial n).bind fun _ =>
      (Counts.optionalUpTo n rfl _).bind fun _ => (Counts.optionalUpTo n rfl _).bind fun _ =>
      ih.statement.bind fun _ => .pure rfl
  · simp only [ht]
    refine (Counts.expect rfl _).bind fun _ => (Counts.expressionUpTo n rfl _).bind fun _ =>
      ih.statement.bind fun _ => .accept (.pure rfl) fun t' ht' => ?_
    simp only [List.mem_singleton.mp ht']
    exact ih.statement.bind fun _ => .pure rfl
  · simp only [ht]
    exact (Counts.expect rfl _).bind fun _ => (Counts.expressionUpTo n rfl _).bind fun _ =>
      ih.statement.bind fun _ => .pure rfl
  · simp only [ht]
    exact (Counts.optionalUpTo n rfl _).bind fun _ => .pure rfl
  · simp only [ht]
    exact ih.block.bind fun _ => .pure (Nat.zero_add _).symm
  · simp only [ht]
    exact (Counts.expressionUpTo n rfl _).bind fun _ => .pure rfl

/-- A loop up to a closing brace or the end. -/
theorem Counts.untilBrace {α : Type} {p q : Parser α} {keywords : α → Nat}
    (hclosed : Counts 0 p keywords) (hgoing : Counts 0 q keywords) :
    Counts 0 (do if (← Parser.looksAt .rightBrace) || (← Parser.atEnd) then p else q) keywords :=
  (Counts.looksAt rfl).bind fun _ => Counts.atEnd.bind fun _ => .ite hclosed hgoing

/-- **The rules for statements count keywords**, by induction on the depth. -/
theorem stmtCounts : ∀ n, StmtCounts n
  | 0 =>
    { declaration := .refuse _
      methods := .refuse _
      routine := fun _ => .refuse _
      statement := .refuse _
      block := .refuse _ }
  | n + 1 =>
    have ih := stmtCounts n
    { declaration := (counts_declarationBody ih).recovering
      methods := by
        refine .untilBrace (.pure rfl) ?_
        exact (ih.routine _).bind fun r => ih.methods.bind fun rs =>
          .pure (by rw [Routine.keywordsAll, Nat.zero_add])
      routine := fun form =>
        (Counts.routineHead n form).bind fun _ => ih.block.bind fun _ => .pure (Nat.zero_add _).symm
      statement := counts_statement ih
      block := by
        refine .untilBrace ((Counts.expect rfl _).bind fun _ => .pure rfl) ?_
        exact ih.declaration.bind fun o => ih.block.bind fun ss =>
          .pure (by rw [Stmt.keywordsAll_toList, Nat.zero_add]) }

/-- **A program has no more keywords in its tree than were passed.** -/
theorem counts_program : ∀ n, Counts 0 (program n) Stmt.keywordsAll
  | 0 => .refuse _
  | n + 1 => by
    refine Counts.atEnd.bind fun _ => .ite (.pure rfl) ?_
    exact (stmtCounts n).declaration.bind fun o => (counts_program n).bind fun ss =>
      .pure (by rw [Stmt.keywordsAll_toList, Nat.zero_add])

end Parser

/-! ## Whole programs -/

/-- **Every keyword is in the tree** of a program that is read without a fault. -/
theorem keywords_parse {tokens : List Token} {nextId : NodeId}
    (h : (parse tokens nextId).faults = []) :
    Stmt.keywordsAll (parse tokens nextId).statements =
      starts (tokens.takeWhile (·.kind ≠ .eof)) := by
  obtain ⟨ss, c', hprogram, hparse, hrest, -⟩ := parse_eq tokens nextId
  rw [hparse] at h
  have heq := (Parser.counts_program _).eq hprogram h
  rw [hrest, Nat.zero_add] at heq
  rw [hparse]
  exact heq

end LoxLang
