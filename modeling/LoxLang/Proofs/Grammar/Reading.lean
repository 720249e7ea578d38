import Mathlib
import LoxLang.Grammar.Program
import LoxLang.Proofs.Grammar.Derivation

/-!
# Proofs/Grammar/Reading — what every parser does to its cursor

Parsers are taken apart at their binds (`bind_ok`, `bind_error`) and at the few steps that touch the
cursor. `Steady` is what holds of all of them, whether they succeed or fail: the tokens ahead only
lose a front part, the faults and the node ids only grow. `Cursor.Passes` is the exact account of a
success without faults — which tokens were passed.
-/

namespace LoxLang

/-- The token at the front, if there is one, is of none of the given kinds. -/
def Avoids (kinds : List Kind) (ts : List Token) : Prop :=
  ∀ t ∈ ts.head?, t.kind ∉ kinds

theorem Avoids.nil (kinds : List Kind) : Avoids kinds [] := nofun

theorem Avoids.cons {kinds : List Kind} {t : Token} (h : t.kind ∉ kinds) (ts : List Token) :
    Avoids kinds (t :: ts) := by
  rintro t' ht'
  cases ht'
  exact h

theorem Avoids.mono {kinds kinds' : List Kind} {ts : List Token} (h : Avoids kinds ts)
    (hsub : kinds' ⊆ kinds) : Avoids kinds' ts :=
  fun t ht hk => h t ht (hsub hk)

/-- `c'` is behind `c`: a front part of the tokens is gone, faults and ids may have come in. -/
structure Cursor.Forward (c c' : Cursor) : Prop where
  rest : c'.rest <:+ c.rest
  last : c'.last = c.last
  faults : c.faults <+: c'.faults
  nextId : c.nextId ≤ c'.nextId

/-- From `c` to `c'` exactly the tokens `w` were passed, without a fault. -/
structure Cursor.Passes (c : Cursor) (w : List Token) (c' : Cursor) : Prop where
  rest : c.rest = w ++ c'.rest
  last : c'.last = c.last
  faults : c'.faults = c.faults

namespace Cursor

variable {c c' c'' : Cursor}

@[refl] theorem Forward.refl (c : Cursor) : c.Forward c :=
  ⟨List.suffix_refl _, rfl, List.prefix_refl _, Nat.le_refl _⟩

theorem Forward.trans (h : c.Forward c') (h' : c'.Forward c'') : c.Forward c'' :=
  ⟨h'.rest.trans h.rest, h'.last.trans h.last, h.faults.trans h'.faults,
    Nat.le_trans h.nextId h'.nextId⟩

theorem Passes.nil (c : Cursor) : c.Passes [] c := ⟨rfl, rfl, rfl⟩

theorem Passes.head {t : Token} {rest : List Token} (h : c.rest = t :: rest) :
    c.Passes [t] { c with rest } :=
  ⟨h, rfl, rfl⟩

theorem Passes.trans {u w : List Token} (h : c.Passes u c') (h' : c'.Passes w c'') :
    c.Passes (u ++ w) c'' :=
  ⟨by rw [h.rest, h'.rest, List.append_assoc], h'.last.trans h.last, h'.faults.trans h.faults⟩

/-- What is left behind the passed tokens is determined by what was ahead of them. -/
theorem Passes.rest_eq {w rest : List Token} (h : c.Passes w c') (hc : c.rest = w ++ rest) :
    c'.rest = rest :=
  List.append_cancel_left (h.rest.symm.trans hc)

end Cursor

namespace Parser

variable {α β : Type} {c c' c'' : Cursor}

/-! ## Taking parsers apart -/

/-- **What succeeds in two steps succeeds in each of them.** -/
theorem bind_ok {p : Parser α} {f : α → Parser β} {b : β} (h : (p >>= f) c = .ok b c'') :
    ∃ a c', p c = .ok a c' ∧ f a c' = .ok b c'' := by
  change EStateM.bind p f c = _ at h
  unfold EStateM.bind at h
  split at h
  · next a c' hp => exact ⟨a, c', hp, h⟩
  · cases h

/-- What fails in two steps fails in the first, or in the second behind the first. -/
theorem bind_error {p : Parser α} {f : α → Parser β} {d : Diagnostic}
    (h : (p >>= f) c = .error d c'') :
    p c = .error d c'' ∨ ∃ a c', p c = .ok a c' ∧ f a c' = .error d c'' := by
  change EStateM.bind p f c = _ at h
  unfold EStateM.bind at h
  split at h
  · next a c' hp => exact .inr ⟨a, c', hp, h⟩
  · next e c' hp =>
    cases h
    exact .inl hp

/-- A parser whose first part succeeds goes on with the second. -/
theorem bind_eq {p : Parser α} {a : α} (h : p c = .ok a c') (f : α → Parser β) :
    (p >>= f) c = f a c' := by
  change EStateM.bind p f c = _
  unfold EStateM.bind
  rw [h]

@[simp] theorem pure_ok {a b : α} : (pure a : Parser α) c = .ok b c' ↔ a = b ∧ c = c' := by
  change EStateM.Result.ok a c = .ok b c' ↔ _
  simp

theorem map_ok {p : Parser α} {f : α → β} {b : β} (h : (f <$> p) c = .ok b c') :
    ∃ a, p c = .ok a c' ∧ f a = b := by
  rw [← bind_pure_comp] at h
  obtain ⟨a, c₁, hp, hb⟩ := bind_ok h
  obtain ⟨rfl, rfl⟩ := pure_ok.mp hb
  exact ⟨a, hp, rfl⟩

@[simp] theorem refuse_ok {fault : ParseFault} {a : α} : refuse fault c ≠ .ok a c' := by
  simp [refuse]

/-- An accepted token was at the front; nothing accepted means that no such token was there. -/
theorem acceptAny_ok {kinds : List Kind} {o : Option Token} (h : acceptAny kinds c = .ok o c') :
    (∃ t, o = some t ∧ t.kind ∈ kinds ∧ c.rest = t :: c'.rest ∧ c' = { c with rest := c'.rest }) ∨
      (o = none ∧ c = c' ∧ Avoids kinds c.rest) := by
  unfold acceptAny at h
  split at h
  · next hr =>
    cases h
    exact .inr ⟨rfl, rfl, hr ▸ Avoids.nil kinds⟩
  · next t rest hr =>
    split at h
    · next hk =>
      cases h
      exact .inl ⟨t, rfl, hk, hr, rfl⟩
    · next hk =>
      cases h
      exact .inr ⟨rfl, rfl, hr ▸ Avoids.cons hk rest⟩

/-- A token of an expected kind is taken. -/
theorem acceptAny_cons {kinds : List Kind} {t : Token} {rest : List Token}
    (hr : c.rest = t :: rest) (hk : t.kind ∈ kinds) :
    acceptAny kinds c = .ok (some t) { c with rest } := by
  simp [acceptAny, hr, hk]

/-- Where no such token is ahead, nothing is taken. -/
theorem acceptAny_none {kinds : List Kind} (h : Avoids kinds c.rest) :
    acceptAny kinds c = .ok none c := by
  unfold acceptAny
  split
  · rfl
  · next t rest hr =>
    rw [if_neg (h t (by simp [hr]))]

/-- A token that was asked for was there, and only it was passed. -/
theorem expect_ok {kind : Kind} {fault : ParseFault} {t : Token}
    (h : expect kind fault c = .ok t c') :
    t.kind = kind ∧ c.rest = t :: c'.rest ∧ c' = { c with rest := c'.rest } := by
  obtain ⟨o, c₁, ha, ho⟩ := bind_ok h
  rcases acceptAny_ok ha with ⟨t', rfl, hk, hr, hc⟩ | ⟨rfl, -, -⟩
  · obtain ⟨rfl, rfl⟩ := pure_ok.mp ho
    exact ⟨by simpa using hk, hr, hc⟩
  · exact absurd ho refuse_ok

/-- A token that is asked for and there is taken, whatever fault was to be reported. -/
theorem expect_cons {kind : Kind} {t : Token} {rest : List Token} (hr : c.rest = t :: rest)
    (hk : t.kind = kind) (fault : ParseFault) :
    expect kind fault c = .ok t { c with rest } := by
  unfold expect accept
  rw [bind_eq (acceptAny_cons hr (by simp [hk]))]
  rfl

/-- To look at the next token does not move the cursor. -/
theorem looksAt_eq (kind : Kind) (c : Cursor) :
    looksAt kind c = .ok (decide (∃ t ∈ c.rest.head?, t.kind = kind)) c := by
  unfold looksAt
  split
  · next h => simp [h]
  · next h => simp [h]

/-! ## Every parser is steady -/

/-- The parser only moves forward, also when it fails. -/
structure Steady (p : Parser α) : Prop where
  ok : ∀ {c a c'}, p c = .ok a c' → c.Forward c'
  error : ∀ {c d c'}, p c = .error d c' → c.Forward c'

namespace Steady

theorem noted_le {p : Parser α} {a : α} (hp : Steady p) (h : p c = .ok a c') :
    c.faults.length ≤ c'.faults.length :=
  (hp.ok h).faults.length_le

/-- Steady parsers may stand one behind the other. -/
theorem bind {p : Parser α} {f : α → Parser β} (hp : Steady p) (hf : ∀ a, Steady (f a)) :
    Steady (p >>= f) where
  ok h := by
    obtain ⟨a, c', h₁, h₂⟩ := bind_ok h
    exact (hp.ok h₁).trans ((hf a).ok h₂)
  error h := by
    rcases bind_error h with h₁ | ⟨a, c', h₁, h₂⟩
    · exact hp.error h₁
    · exact (hp.ok h₁).trans ((hf a).error h₂)

theorem get_bind {f : Cursor → Parser α} (hf : ∀ c, Steady (f c)) : Steady (get >>= f) where
  ok {c _ _} h := (hf c).ok h
  error {c _ _} h := (hf c).error h

theorem pure (a : α) : Steady (Pure.pure a : Parser α) where
  ok h := by
    obtain ⟨-, rfl⟩ := pure_ok.mp h
    rfl
  error h := nomatch h

theorem map {p : Parser α} (hp : Steady p) (f : α → β) : Steady (f <$> p) := by
  rw [← bind_pure_comp]
  exact hp.bind fun a => .pure (f a)

theorem refuse (fault : ParseFault) : Steady (Parser.refuse fault : Parser α) where
  ok h := absurd h refuse_ok
  error h := by
    cases h
    rfl

theorem throw (d : Diagnostic) : Steady (MonadExcept.throw d : Parser α) where
  ok h := nomatch h
  error h := by
    cases h
    rfl

/-- Noting a fault only adds to the faults. -/
theorem note (token : Token) (fault : ParseFault) : Steady (Parser.note token fault) where
  ok h := by
    cases h
    exact ⟨List.suffix_refl _, rfl, List.prefix_append _ _, Nat.le_refl _⟩
  error h := nomatch h

theorem noteHere (fault : ParseFault) : Steady (Parser.noteHere fault) where
  ok h := (Steady.note _ fault).ok h
  error h := (Steady.note _ fault).error h

/-- A fault that was noted stays, whatever comes behind it. -/
theorem noted_lt_of_noteHere {p : Parser α} {fault : ParseFault} {a : α} (hp : Steady p)
    (h : (Parser.noteHere fault >>= fun _ => p) c = .ok a c') :
    c.faults.length < c'.faults.length := by
  obtain ⟨_, c₁, h₁, h₂⟩ := bind_ok h
  have hle := hp.noted_le h₂
  cases h₁
  simp only [List.length_append, List.length_singleton] at hle
  omega

theorem freshId : Steady Parser.freshId where
  ok h := by
    cases h
    exact ⟨List.suffix_refl _, rfl, List.prefix_refl _, Nat.le_succ _⟩
  error h := nomatch h

theorem atEnd : Steady Parser.atEnd where
  ok h := by
    cases h
    rfl
  error h := nomatch h

theorem looksAt (kind : Kind) : Steady (Parser.looksAt kind) where
  ok h := by
    cases h
    rfl
  error h := nomatch h

theorem acceptAny (kinds : List Kind) : Steady (Parser.acceptAny kinds) where
  ok h := by
    rcases acceptAny_ok h with ⟨t, -, -, hr, hc⟩ | ⟨-, rfl, -⟩
    · rw [hc]
      exact ⟨hr ▸ List.suffix_cons t _, rfl, List.prefix_refl _, Nat.le_refl _⟩
    · rfl
  error h := by
    unfold Parser.acceptAny at h
    split at h
    · cases h
    · split at h <;> cases h

/-- A token that is asked for is passed, or the cursor stays where it is. -/
theorem expect (kind : Kind) (fault : ParseFault) : Steady (Parser.expect kind fault) := by
  refine (acceptAny [kind]).bind fun o => ?_
  cases o with
  | none => exact .refuse fault
  | some t => exact .pure t

theorem ite {b : Prop} [Decidable b] {p q : Parser α} (hp : Steady p) (hq : Steady q) :
    Steady (if b then p else q) := by
  split
  · exact hp
  · exact hq

/-- The value of a literal is taken from its token, without further reading. -/
theorem constantOf (t : Token) : Steady (Parser.constantOf t) := by
  unfold Parser.constantOf
  split
  · exact .pure _
  · exact .pure _
  · exact .throw _

/-- A target that cannot be assigned to is noted, and the reading goes on. -/
theorem assignTo (target : Expr) (equal : Token) (value : Expr) :
    Steady (Parser.assignTo target equal value) := by
  unfold Parser.assignTo
  split
  · exact freshId.bind fun _ => .pure _
  · exact .pure _
  · exact (note _ _).bind fun _ => .pure _

end Steady

/-- One argument and the arguments behind it. -/
theorem Steady.argumentsTail {n : Nat} (hfirst : Steady (Parser.expression n))
    (hmore : ∀ count, Steady (Parser.arguments n count)) (count : Nat) :
    Steady (do
      let argument ← Parser.expression n
      match ← accept .comma with
        | none => return [argument]
        | some _ => return argument :: (← Parser.arguments n (count + 1))) := by
  refine hfirst.bind fun argument => (acceptAny _).bind fun o => ?_
  cases o with
  | none => exact .pure _
  | some _ => exact (hmore _).bind fun _ => .pure _

/-- The rules for expressions are steady. -/
structure ExprSteady (n : Nat) : Prop where
  expression : Steady (expression n)
  conditional : Steady (conditional n)
  operation : ∀ o, Steady (operation n o)
  operations : ∀ level left, Steady (operations n level left)
  unary : Steady (unary n)
  suffixes : ∀ object, Steady (suffixes n object)
  arguments : ∀ count, Steady (arguments n count)
  primary : Steady (primary n)

/-- **Every rule for expressions only moves the cursor forward**, by induction on the depth. -/
theorem exprSteady : ∀ n, ExprSteady n
  | 0 =>
    { expression := .refuse _
      conditional := .refuse _
      operation := fun _ => .refuse _
      operations := fun _ _ => .refuse _
      unary := .refuse _
      suffixes := fun _ => .refuse _
      arguments := fun _ => .refuse _
      primary := .refuse _ }
  | n + 1 =>
    have ih := exprSteady n
    { expression := by
        refine ih.conditional.bind fun target => (Steady.acceptAny _).bind fun o => ?_
        cases o with
        | none => exact .pure target
        | some equal => exact ih.expression.bind fun value => .assignTo target equal value
      conditional := by
        refine (ih.operation _).bind fun condition => (Steady.acceptAny _).bind fun o => ?_
        cases o with
        | none => exact .pure condition
        | some _ =>
          exact ih.expression.bind fun _ => (Steady.expect _ _).bind fun _ =>
            ih.expression.bind fun _ => .pure _
      operation := fun o => by
        cases o with
        | none => exact ih.unary
        | some level => exact (ih.operation _).bind fun left => ih.operations level left
      operations := fun level left => by
        refine (Steady.acceptAny _).bind fun o => ?_
        cases o with
        | none => exact .pure left
        | some operator => exact (ih.operation _).bind fun right => ih.operations level _
      unary := by
        refine (Steady.acceptAny _).bind fun o => ?_
        cases o with
        | none => exact ih.primary.bind fun e => ih.suffixes e
        | some operator => exact ih.unary.bind fun _ => .pure _
      suffixes := fun object => by
        refine (Steady.acceptAny _).bind fun o => ?_
        cases o with
        | none => exact .pure object
        | some t =>
          dsimp only
          split
          · refine (Steady.looksAt _).bind fun b => ?_
            cases b
            · exact (ih.arguments 0).bind fun _ => (Steady.expect _ _).bind fun _ => ih.suffixes _
            · exact (Steady.pure _).bind fun _ => (Steady.expect _ _).bind fun _ => ih.suffixes _
          · exact (Steady.expect _ _).bind fun name => ih.suffixes _
      arguments := fun count => by
        simp only [Parser.arguments]
        have htail := Steady.argumentsTail ih.expression ih.arguments count
        split
        · exact (Steady.noteHere _).bind fun _ => htail
        · exact htail
      primary := by
        refine (Steady.acceptAny _).bind fun o => ?_
        cases o with
        | none => exact .refuse _
        | some t =>
          dsimp only
          split
          · exact .pure _
          · exact .pure _
          · exact .pure _
          · exact Steady.freshId.bind fun _ => .pure _
          · exact Steady.freshId.bind fun _ => .pure _
          · exact ih.expression.bind fun _ => (Steady.expect _ _).bind fun _ => .pure _
          · exact .constantOf t }

/-- Skipping leaves a last part of the tokens. -/
theorem skipFrom_suffix : ∀ (previous : Token) (ts : List Token), skipFrom previous ts <:+ ts
  | _, [] => List.suffix_refl _
  | previous, t :: rest => by
      unfold skipFrom
      split
      · exact List.suffix_refl _
      · exact (skipFrom_suffix t rest).trans (List.suffix_cons t rest)

/-- Resynchronising leaves a last part of the tokens. -/
theorem resynchronize_suffix (ts : List Token) : resynchronize ts <:+ ts := by
  cases ts with
  | nil => exact List.suffix_refl _
  | cons t rest => exact (skipFrom_suffix t rest).trans (List.suffix_cons t rest)

/-- A declaration that was recovered from left the faults that it had noted, and its own. -/
theorem recovering_ok {p : Parser Stmt} {c c' : Cursor} {o : Option Stmt}
    (h : recovering p c = .ok o c') :
    (∃ s, o = some s ∧ p c = .ok s c') ∨
      ∃ d c₁, o = none ∧ p c = .error d c₁ ∧
        c' = { c₁ with rest := resynchronize c₁.rest, faults := c₁.faults ++ [d] } := by
  unfold recovering at h
  split at h
  · next s c₁ hp =>
    cases h
    exact .inl ⟨s, rfl, hp⟩
  · next d c₁ hp =>
    cases h
    exact .inr ⟨d, c₁, rfl, hp, rfl⟩

namespace Steady

/-- A reading that recovers from a failure is steady. -/
theorem recovering {p : Parser Stmt} (hp : Steady p) : Steady (recovering p) where
  ok h := by
    rcases recovering_ok h with ⟨s, -, hs⟩ | ⟨d, c₁, -, hd, rfl⟩
    · exact hp.ok hs
    · have h₁ := hp.error hd
      exact ⟨(resynchronize_suffix _).trans h₁.rest, h₁.last,
        h₁.faults.trans (List.prefix_append _ _), h₁.nextId⟩
  error h := by
    unfold Parser.recovering at h
    split at h <;> cases h

theorem expressionUpTo (n : Nat) (kind : Kind) (fault : ParseFault) :
    Steady (expressionUpTo n kind fault) :=
  (exprSteady n).expression.bind fun _ => (expect _ _).bind fun _ => .pure _

theorem optionalUpTo (n : Nat) (kind : Kind) (fault : ParseFault) :
    Steady (optionalUpTo n kind fault) := by
  refine (looksAt _).bind fun b => ?_
  cases b
  · exact ((exprSteady n).expression.map some).bind fun _ => (expect _ _).bind fun _ => .pure _
  · exact (Steady.pure none).bind fun _ => (expect _ _).bind fun _ => .pure _

theorem varDecl (n : Nat) : Steady (varDecl n) := by
  refine (expect _ _).bind fun name => (acceptAny _).bind fun o => ?_
  cases o with
  | none => exact (Steady.pure none).bind fun _ => (expect _ _).bind fun _ => .pure _
  | some _ =>
    exact ((exprSteady n).expression.map some).bind fun _ => (expect _ _).bind fun _ => .pure _

/-- One parameter and the parameters behind it. -/
theorem parametersTail {n : Nat} (hmore : ∀ count, Steady (Parser.parameters n count))
    (count : Nat) :
    Steady (do
      let parameter ← Parser.expect .identifier .parameterName
      match ← accept .comma with
        | none => return [parameter]
        | some _ => return parameter :: (← Parser.parameters n (count + 1))) := by
  refine (expect _ _).bind fun _ => (acceptAny _).bind fun o => ?_
  cases o with
  | none => exact .pure _
  | some _ => exact (hmore _).bind fun _ => .pure _

theorem parameters : ∀ n count, Steady (parameters n count)
  | 0, _ => .refuse _
  | n + 1, count => by
      simp only [Parser.parameters]
      have htail := parametersTail (parameters n) count
      split
      · exact (noteHere _).bind fun _ => htail
      · exact htail

theorem routineHead (n : Nat) (form : RoutineForm) : Steady (routineHead n form) := by
  refine (expect _ _).bind fun _ => (expect _ _).bind fun _ => (looksAt _).bind fun b => ?_
  cases b
  · exact (parameters n 0).bind fun _ => (expect _ _).bind fun _ => (expect _ _).bind fun _ =>
      .pure _
  · exact (Steady.pure []).bind fun _ => (expect _ _).bind fun _ => (expect _ _).bind fun _ =>
      .pure _

theorem forInitial (n : Nat) : Steady (forInitial n) := by
  refine (acceptAny _).bind fun o => ?_
  cases o with
  | none => exact (expressionUpTo n _ _).bind fun _ => .pure _
  | some t =>
    dsimp only
    split
    · exact .pure none
    · exact (varDecl n).map some

end Steady

/-- The rules for statements are steady. -/
structure StmtSteady (n : Nat) : Prop where
  declaration : Steady (declaration n)
  methods : Steady (methods n)
  routine : ∀ form, Steady (routine n form)
  statement : Steady (statement n)
  block : Steady (block n)

/-- What a declaration reads, unless it fails. -/
def declarationBody (n : Nat) : Parser Stmt := do
  match ← acceptAny [.classWord, .funWord, .varWord] with
  | none => statement n
  | some t =>
    match t.kind with
    | .classWord =>
      let name ← expect .identifier .className
      let _ ← expect .leftBrace .classBodyOpening
      let methods ← methods n
      let _ ← expect .rightBrace .classBodyClosing
      return .classDecl name methods
    | .funWord => return .funDecl (← routine n .function)
    | _ => varDecl n

/-- A declaration is its body, with failures noted. -/
theorem declaration_succ (n : Nat) : declaration (n + 1) = recovering (declarationBody n) := rfl

theorem StmtSteady.declarationBody {n : Nat} (h : StmtSteady n) :
    Steady (Parser.declarationBody n) := by
  refine (Steady.acceptAny _).bind fun o => ?_
  cases o with
  | none => exact h.statement
  | some t =>
    dsimp only
    split
    · exact (Steady.expect _ _).bind fun _ => (Steady.expect _ _).bind fun _ =>
        h.methods.bind fun _ => (Steady.expect _ _).bind fun _ => .pure _
    · exact (h.routine _).bind fun _ => .pure _
    · exact .varDecl n

/-- **Every rule for statements only moves the cursor forward.** -/
theorem stmtSteady : ∀ n, StmtSteady n
  | 0 =>
    { declaration := .refuse _
      methods := .refuse _
      routine := fun _ => .refuse _
      statement := .refuse _
      block := .refuse _ }
  | n + 1 =>
    have ih := stmtSteady n
    { declaration := ih.declarationBody.recovering
      methods := by
        refine (Steady.looksAt _).bind fun _ => Steady.atEnd.bind fun _ => ?_
        refine .ite (.pure _) ?_
        exact (ih.routine _).bind fun _ => ih.methods.bind fun _ => .pure _
      routine := fun form => (Steady.routineHead n form).bind fun _ => ih.block.bind fun _ => .pure _
      statement := by
        refine (Steady.acceptAny _).bind fun o => ?_
        cases o with
        | none => exact (Steady.expressionUpTo n _ _).bind fun _ => .pure _
        | some t =>
          dsimp only
          split
          · exact (Steady.expect _ _).bind fun _ => (Steady.forInitial n).bind fun _ =>
              (Steady.optionalUpTo n _ _).bind fun _ => (Steady.optionalUpTo n _ _).bind fun _ =>
              ih.statement.bind fun _ => .pure _
          · refine (Steady.expect _ _).bind fun _ => (Steady.expressionUpTo n _ _).bind fun _ =>
              ih.statement.bind fun _ => (Steady.acceptAny _).bind fun o => ?_
            cases o with
            | none => exact .pure _
            | some _ => exact ih.statement.bind fun _ => .pure _
          · exact (Steady.expect _ _).bind fun _ => (Steady.expressionUpTo n _ _).bind fun _ =>
              ih.statement.bind fun _ => .pure _
          · exact (Steady.optionalUpTo n _ _).bind fun _ => .pure _
          · exact ih.block.bind fun _ => .pure _
          · exact (Steady.expressionUpTo n _ _).bind fun _ => .pure _
      block := by
        refine (Steady.looksAt _).bind fun _ => Steady.atEnd.bind fun _ => ?_
        refine .ite ((Steady.expect _ _).bind fun _ => .pure _) ?_
        exact ih.declaration.bind fun _ => ih.block.bind fun _ => .pure _ }

/-- A declaration that yields nothing has noted why. -/
theorem noted_lt_of_declaration_none {n : Nat} {c c' : Cursor}
    (h : declaration n c = .ok none c') : c.faults.length < c'.faults.length := by
  cases n with
  | zero => exact absurd h refuse_ok
  | succ n =>
    rw [declaration_succ] at h
    rcases recovering_ok h with ⟨s, hs, -⟩ | ⟨d, c₁, -, hd, rfl⟩
    · cases hs
    · have hle := ((stmtSteady n).declarationBody.error hd).faults.length_le
      simp only [List.length_append, List.length_singleton]
      omega

/-- A program is read forward. -/
theorem Steady.program : ∀ n, Steady (program n)
  | 0 => .refuse _
  | n + 1 => by
      refine Steady.atEnd.bind fun _ => .ite (.pure _) ?_
      exact (stmtSteady n).declaration.bind fun _ => (Steady.program n).bind fun _ => .pure _

/-! ## Expressions alone -/

/-- An expression stands alone if it is read without a fault and nothing is left behind it. -/
theorem expressionAlone_ok {c c' : Cursor} {e : Expr} :
    expressionAlone c = .ok e c' ↔
      expression c.depth c = .ok e c' ∧ c'.rest = [] ∧ c'.faults = [] := by
  constructor
  · intro h
    obtain ⟨_, c₁, h₁, h⟩ := bind_ok h
    cases h₁
    obtain ⟨e', c₁, h₁, h⟩ := bind_ok h
    obtain ⟨b, c₂, h₂, h⟩ := bind_ok h
    cases h₂
    cases hr : c₁.rest.isEmpty with
    | false =>
      simp only [hr] at h
      exact absurd h refuse_ok
    | true =>
      simp only [hr] at h
      obtain ⟨_, c₂, h₂, h⟩ := bind_ok h
      cases h₂
      cases hf : c₁.faults with
      | nil =>
        simp only [hf] at h
        obtain ⟨rfl, rfl⟩ := pure_ok.mp h
        exact ⟨h₁, List.isEmpty_iff.mp hr, hf⟩
      | cons d ds =>
        simp only [hf] at h
        cases h
  · rintro ⟨h, hr, hf⟩
    have hend : atEnd c' = .ok true c' := by simp [atEnd, hr]
    rw [expressionAlone, bind_eq (rfl : (get : Parser _) c = .ok c c), bind_eq h, bind_eq hend]
    simp only [Bool.not_true, Bool.false_eq_true, if_false]
    refine (bind_eq (rfl : (get : Parser _) c' = .ok c' c') _).trans ?_
    simp only [hf]
    rfl

/-- To report the first fault that was noted does not move the cursor. -/
theorem Steady.firstFault (e : Expr) : Steady (do
    match (← get).faults with
    | [] => return e
    | fault :: _ => MonadExcept.throw fault) :=
  .get_bind fun c => by
    cases c.faults with
    | nil => exact .pure e
    | cons fault _ => exact .throw fault

/-- A lone expression is read forward. -/
theorem Steady.expressionAlone : Steady expressionAlone := by
  refine .get_bind fun c => (exprSteady _).expression.bind fun e => Steady.atEnd.bind fun b => ?_
  cases b with
  | false => exact (Steady.refuse _).bind fun _ => .firstFault e
  | true => exact .firstFault e

/-- An expression is parsed if and only if it is read to the end of the tokens. -/
theorem parseExpression_ok {tokens : List Token} {nextId : NodeId} {e : Expr} :
    (parseExpression tokens nextId).1 = .ok e ↔
      ∃ c', expressionAlone (.start tokens nextId) = .ok e c' := by
  unfold parseExpression
  split
  · next e' c' h =>
    constructor
    · rintro ⟨⟩
      exact ⟨c', h⟩
    · rintro ⟨c₁, h₁⟩
      rw [h] at h₁
      cases h₁
      rfl
  · next d c' h => simp [h]

end Parser

end LoxLang
