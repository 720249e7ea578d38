import Mathlib
import LoxLang.Proofs.Grammar.Derivation
import LoxLang.Proofs.Grammar.Reading

/-!
# Proofs/Grammar/Completeness — what is derived is read

Tokens that derive from a rule are read by its function, to the same tree and without a fault,
provided that the token behind them does not go on with the phrase. The induction is on the
derivation. A left-recursive rule is read by a loop, so its case does not say that the loop is done
but where it stands: reading the tokens brings it to the state in which it goes on with what follows
(`Chained`, `Suffixed`).

The depth that a phrase needs is sixteen for each of its tokens and a little more for the rules
between the phrase and its first token.
-/

namespace LoxLang

namespace Grammar

/-! ## First tokens -/

/-- The kinds of token that an expression starts with. -/
def exprStarters : List Kind :=
  .bang :: .minus :: Parser.primaryKinds

/-- The first token of a phrase is of one of the given kinds. -/
def StartsIn (kinds : List Kind) (w : List Token) : Prop :=
  ∃ t rest, w = t :: rest ∧ t.kind ∈ kinds

/-- More tokens behind a phrase do not change how it starts. -/
theorem StartsIn.append {kinds : List Kind} {u : List Token} (h : StartsIn kinds u)
    (w : List Token) : StartsIn kinds (u ++ w) := by
  obtain ⟨t, rest, rfl, hk⟩ := h
  exact ⟨t, rest ++ w, rfl, hk⟩

theorem StartsIn.mono {kinds kinds' : List Kind} {w : List Token} (h : StartsIn kinds w)
    (hsub : kinds ⊆ kinds') : StartsIn kinds' w := by
  obtain ⟨t, rest, rfl, hk⟩ := h
  exact ⟨t, rest, rfl, hsub hk⟩

/-- A phrase that starts with a token is not empty. -/
theorem StartsIn.length_pos {kinds : List Kind} {w : List Token} (h : StartsIn kinds w) :
    0 < w.length := by
  obtain ⟨t, rest, rfl, -⟩ := h
  simp

/-- Where a phrase is ahead the cursor is not at its end. -/
theorem StartsIn.isEmpty_eq {kinds : List Kind} {w rest ts : List Token}
    (h : StartsIn kinds w) (hts : ts = w ++ rest) : ts.isEmpty = false := by
  obtain ⟨t, w', rfl, -⟩ := h
  rw [hts]
  rfl

/-- A phrase that starts otherwise avoids the given kinds. -/
theorem StartsIn.avoids {kinds kinds' : List Kind} {w : List Token} (h : StartsIn kinds w)
    (hdisjoint : ∀ k ∈ kinds, k ∉ kinds') (rest : List Token) : Avoids kinds' (w ++ rest) := by
  obtain ⟨t, w', rfl, ht⟩ := h
  exact .cons (hdisjoint t.kind ht) _

/-- The kinds of token that a rule starts with. -/
def ExprRule.starters : ExprRule → List Kind
  | .call | .primary => Parser.primaryKinds
  | _ => exprStarters

theorem primaryKinds_subset : Parser.primaryKinds ⊆ exprStarters :=
  fun _ h => List.mem_cons_of_mem _ (List.mem_cons_of_mem _ h)

/-- **Every rule starts with one of its starters**, by induction on the derivation. -/
theorem Derives.startsIn {r : ExprRule} {w : List Token} {t : r.Tree} (h : Derives r w t) :
    StartsIn r.starters w := by
  induction h with
  | assign hn => exact ⟨_, _, rfl, by rw [hn]; decide⟩
  | set _ _ _ _ _ ih => exact (ih.append _).mono primaryKinds_subset
  | ofConditional _ ih | ofOperation _ ih | ofPrimary _ ih | argument _ ih => exact ih
  | choose _ _ _ _ _ ih | join _ _ _ ih | moreArguments _ _ _ ih => exact ih.append _
  | ofTighter _ ih => exact ih
  | unary ho => exact ⟨_, _, rfl, by rcases ho with h | h <;> rw [h] <;> decide⟩
  | ofCall _ ih => exact ih.mono primaryKinds_subset
  | callEmpty _ _ _ ih | call _ _ _ _ _ ih | get _ _ _ ih => exact ih.append _
  | falseWord h | trueWord h | nilWord h | this h | use h | grouping h =>
    exact ⟨_, _, rfl, by rw [h]; decide⟩
  | number h | string h => exact ⟨_, _, rfl, by rcases h with h | h <;> rw [h] <;> decide⟩

/-! ## Tokens that go on with a phrase -/

/-- The kinds of token that would go on with an operation. -/
def extenders : Option Level → List Kind
  | none => [.leftParen, .dot]
  | some .factor => Level.factor.operators ++ [.leftParen, .dot]
  | some .term => Level.term.operators ++ (Level.factor.operators ++ [.leftParen, .dot])
  | some .comparison => Level.comparison.operators ++
      (Level.term.operators ++ (Level.factor.operators ++ [.leftParen, .dot]))
  | some .equality => Level.equality.operators ++ (Level.comparison.operators ++
      (Level.term.operators ++ (Level.factor.operators ++ [.leftParen, .dot])))
  | some .conjunction => Level.conjunction.operators ++ (Level.equality.operators ++
      (Level.comparison.operators ++
        (Level.term.operators ++ (Level.factor.operators ++ [.leftParen, .dot]))))
  | some .disjunction => Level.disjunction.operators ++ (Level.conjunction.operators ++
      (Level.equality.operators ++ (Level.comparison.operators ++
        (Level.term.operators ++ (Level.factor.operators ++ [.leftParen, .dot])))))

/-- An operation may be continued by its own operators and by the tighter ones. -/
theorem extenders_some (level : Level) :
    extenders (some level) = level.operators ++ extenders level.tighter? := by
  cases level <;> rfl

/-- The kinds of token that would go on with an expression. -/
def exprExtenders : List Kind :=
  .equal :: .question :: extenders (some .disjunction)

/-- An operator of a level does not go on with the operand before it. -/
theorem operators_not_mem_extenders (level : Level) {kind : Kind} (h : kind ∈ level.operators) :
    kind ∉ extenders level.tighter? := by
  cases level <;> revert kind <;> decide

end Grammar

/-! ## Expressions -/

namespace Parser

open Grammar

variable {n : Nat} {c : Cursor} {u w rest : List Token}

/-- The parser reads exactly the tokens `w`, to something that satisfies `P`. -/
def ReadsAs {α : Type} (p : Parser α) (c : Cursor) (w : List Token) (P : α → Prop) : Prop :=
  ∃ a c', p c = .ok a c' ∧ c.Passes w c' ∧ P a

/-- How many rules lie between an operation and its first token. -/
def levelDepth : Option Level → Nat
  | none => 3
  | some .factor => 4
  | some .term => 5
  | some .comparison => 6
  | some .equality => 7
  | some .conjunction => 8
  | some .disjunction => 9

theorem levelDepth_tighter (level : Level) :
    levelDepth (some level) = levelDepth level.tighter? + 1 := by
  cases level <;> rfl

/-- Reading `w` brings the loop over suffixes behind the expression `t`. -/
def Suffixed (w : List Token) (t : Expr) : Prop :=
  ∀ ⦃n c rest⦄, 16 * w.length ≤ n → c.rest = w ++ rest →
    ∃ k e c', (primary n >>= suffixes n) c = suffixes k e c' ∧ n ≤ k + w.length ∧
      c.Passes w c' ∧ e.bare = t

/-- Reading `w` brings the loop over the operators of a level behind the expression `t`. -/
def Chained (level : Level) (w : List Token) (t : Expr) : Prop :=
  ∀ ⦃n c rest⦄, 16 * w.length + levelDepth (some level) ≤ n → c.rest = w ++ rest →
    Avoids (extenders level.tighter?) rest →
    ∃ k e c', operation n (some level) c = operations k level e c' ∧ n ≤ k + w.length ∧
      c.Passes w c' ∧ e.bare = t

/-- The tokens `w` are read as the operand `t`. -/
def Operand (o : Option Level) (w : List Token) (t : Expr) : Prop :=
  ∀ ⦃n c rest⦄, 16 * w.length + levelDepth o ≤ n → c.rest = w ++ rest →
    Avoids (extenders o) rest → ReadsAs (operation n o) c w (·.bare = t)

/-- What reading the tokens of a rule comes to. -/
def Complete : (r : ExprRule) → List Token → r.Tree → Prop
  | .primary, w, t => ∀ ⦃n c rest⦄, 16 * w.length ≤ n → c.rest = w ++ rest →
      ReadsAs (primary n) c w (·.bare = t)
  | .call, w, t => Suffixed w t
  | .operation none, w, t => ∀ ⦃n c rest⦄, 16 * w.length + 2 ≤ n → c.rest = w ++ rest →
      Avoids (extenders none) rest → ReadsAs (unary n) c w (·.bare = t)
  | .operation (some level), w, t => Chained level w t
  | .conditional, w, t => ∀ ⦃n c rest⦄, 16 * w.length + 10 ≤ n → c.rest = w ++ rest →
      Avoids exprExtenders rest → ReadsAs (conditional n) c w (·.bare = t)
  | .expression, w, t => ∀ ⦃n c rest⦄, 16 * w.length + 11 ≤ n → c.rest = w ++ rest →
      Avoids exprExtenders rest → ReadsAs (expression n) c w (·.bare = t)
  | .arguments, w, ts => ∀ ⦃n count c rest⦄, 16 * w.length + 12 ≤ n → c.rest = w ++ rest →
      Avoids (.comma :: exprExtenders) rest → count + ts.length ≤ maxArity →
      ReadsAs (arguments n count) c w (Expr.bareAll · = ts)

/-! ### Operations -/

/-- A call is read as an operand of the tightest level. -/
theorem Suffixed.unary {t : Expr} (h : Suffixed w t) (hw : StartsIn primaryKinds w) :
    Complete (.operation none) w t := by
  intro n c rest hn hr hrest
  obtain ⟨m, rfl⟩ : ∃ m, n = m + 1 := ⟨n - 1, by omega⟩
  have hno : Avoids [.bang, .minus] c.rest := hr ▸ hw.avoids (by decide) rest
  obtain ⟨k, e, c', heq, hk, hp, he⟩ := h (n := m) (by omega) hr
  obtain ⟨j, rfl⟩ : ∃ j, k = j + 1 := ⟨k - 1, by omega⟩
  refine ⟨e, c', ?_, hp, he⟩
  rw [Parser.unary, bind_eq (acceptAny_none hno)]
  refine heq.trans ?_
  rw [suffixes, bind_eq (acceptAny_none (by rw [hp.rest_eq hr]; exact hrest))]
  rfl

theorem Operand.of_unary {t : Expr} (h : Complete (.operation none) w t) : Operand none w t := by
  intro n c rest hn hr hrest
  obtain ⟨m, rfl⟩ : ∃ m, n = m + 1 := ⟨n - 1, by simp only [levelDepth] at hn; omega⟩
  exact h (by simp only [levelDepth] at hn; omega) hr hrest

/-- A loop that is not gone on with is done. -/
theorem Operand.of_chained {level : Level} {t : Expr} (h : Chained level w t) :
    Operand (some level) w t := by
  intro n c rest hn hr hrest
  rw [extenders_some] at hrest
  have hops : Avoids level.operators rest := hrest.mono (List.subset_append_left _ _)
  obtain ⟨k, e, c', heq, hk, hp, he⟩ := h hn hr (hrest.mono (List.subset_append_right _ _))
  obtain ⟨j, rfl⟩ : ∃ j, k = j + 1 :=
    ⟨k - 1, by have := levelDepth_tighter level; omega⟩
  refine ⟨e, c', ?_, hp, he⟩
  rw [heq, operations, bind_eq (acceptAny_none (by rw [hp.rest_eq hr]; exact hops))]
  rfl

/-- A loop over operators starts behind its first operand. -/
theorem Chained.of_operand {level : Level} {t : Expr} (h : Operand level.tighter? w t)
    (hw : 0 < w.length) : Chained level w t := by
  intro n c rest hn hr hrest
  rw [levelDepth_tighter] at hn
  obtain ⟨m, rfl⟩ : ∃ m, n = m + 1 := ⟨n - 1, by omega⟩
  obtain ⟨e, c', heq, hp, he⟩ := h (n := m) (by omega) hr hrest
  exact ⟨m, e, c', by rw [operation, bind_eq heq], by omega, hp, he⟩

/-- The loop over operators goes on over an operator and one more operand. -/
theorem Chained.join {level : Level} {left right : Expr} {operator : Token}
    (hu : Chained level u left) (ho : operator.kind ∈ level.operators)
    (hw : Operand level.tighter? w right) :
    Chained level (u ++ operator :: w) (level.join left operator right) := by
  intro n c rest hn hr hrest
  have hlen : (u ++ operator :: w).length = u.length + w.length + 1 := by simp; omega
  rw [hlen, levelDepth_tighter] at hn
  rw [List.append_assoc, List.cons_append] at hr
  obtain ⟨k, e, c₁, heq, hk, hp, he⟩ := hu (n := n) (by rw [levelDepth_tighter]; omega) hr
    (.cons (operators_not_mem_extenders level ho) _)
  have hr₁ := hp.rest_eq hr
  obtain ⟨j, rfl⟩ : ∃ j, k = j + 1 := ⟨k - 1, by omega⟩
  obtain ⟨e', c₂, heq₂, hp₂, he₂⟩ := hw (n := j) (c := { c₁ with rest := w ++ rest }) (by omega)
    rfl hrest
  refine ⟨j, level.join e operator e', c₂, ?_, by rw [hlen]; omega, ?_, ?_⟩
  · rw [heq, operations, bind_eq (acceptAny_cons hr₁ ho)]
    exact bind_eq heq₂ _
  · have hop : c₁.Passes [operator] { c₁ with rest := w ++ rest } := ⟨hr₁, rfl, rfl⟩
    exact hp.trans (hop.trans hp₂)
  · rw [Level.bare_join, he, he₂]

/-- Nothing that starts with the first tokens of an expression looks like another token. -/
theorem looksAt_startsIn {kinds : List Kind} {kind : Kind} (hw : StartsIn kinds w)
    (hk : kind ∉ kinds) (hr : c.rest = w ++ rest) : looksAt kind c = .ok false c := by
  obtain ⟨t, w', rfl, ht⟩ := hw
  have hne : t.kind ≠ kind := fun h => hk (h ▸ ht)
  rw [looksAt_eq, hr]
  simp [hne]

/-- The next token is looked at. -/
theorem looksAt_cons {kind : Kind} {t : Token} (hr : c.rest = t :: rest) (hk : t.kind = kind) :
    looksAt kind c = .ok true c := by
  rw [looksAt_eq, hr]
  simp [hk]

/-! ### Calls -/

/-- A loop over suffixes starts behind a primary. -/
theorem Suffixed.ofPrimary {t : Expr} (h : Complete .primary w t) : Suffixed w t := by
  intro n c rest hn hr
  obtain ⟨e, c', heq, hp, he⟩ := h hn hr
  exact ⟨n, e, c', bind_eq heq _, by omega, hp, he⟩

/-- The loop over suffixes goes on over a property. -/
theorem Suffixed.get {object : Expr} {dot name : Token} (h : Suffixed u object)
    (hd : dot.kind = .dot) (hn : name.kind = .identifier) :
    Suffixed (u ++ [dot, name]) (.get object name) := by
  intro n c rest hfuel hr
  rw [List.length_append, List.length_cons, List.length_singleton] at hfuel
  rw [List.append_assoc] at hr
  obtain ⟨k, e, c₁, heq, hk, hp, he⟩ := h (n := n) (by omega) hr
  have hr₁ : c₁.rest = dot :: name :: rest := hp.rest_eq hr
  obtain ⟨j, rfl⟩ : ∃ j, k = j + 1 := ⟨k - 1, by omega⟩
  refine ⟨j, .get e name, { c₁ with rest }, ?_, by simp; omega, hp.trans ⟨hr₁, rfl, rfl⟩, ?_⟩
  · rw [heq, suffixes, bind_eq (acceptAny_cons hr₁ (by simp [hd]))]
    simp only [hd, reduceCtorEq, if_false]
    rw [bind_eq (expect_cons rfl hn _)]
  · rw [Expr.bare, he]

/-- The loop over suffixes goes on over a call without arguments. -/
theorem Suffixed.callEmpty {callee : Expr} {opening closing : Token} (h : Suffixed u callee)
    (ho : opening.kind = .leftParen) (hc : closing.kind = .rightParen) :
    Suffixed (u ++ [opening, closing]) (.call callee closing []) := by
  intro n c rest hfuel hr
  rw [List.length_append, List.length_cons, List.length_singleton] at hfuel
  rw [List.append_assoc] at hr
  obtain ⟨k, e, c₁, heq, hk, hp, he⟩ := h (n := n) (by omega) hr
  have hr₁ : c₁.rest = opening :: closing :: rest := hp.rest_eq hr
  obtain ⟨j, rfl⟩ : ∃ j, k = j + 1 := ⟨k - 1, by omega⟩
  refine ⟨j, .call e closing [], { c₁ with rest }, ?_, by simp; omega,
    hp.trans ⟨hr₁, rfl, rfl⟩, ?_⟩
  · rw [heq, suffixes, bind_eq (acceptAny_cons hr₁ (by simp [ho]))]
    simp only [ho, if_true]
    rw [bind_eq (looksAt_cons rfl hc)]
    simp only [if_true, pure_bind]
    rw [bind_eq (expect_cons rfl hc _)]
  · rw [Expr.bare, he, Expr.bareAll]

/-- The loop over suffixes goes on over a call, if it has not too many arguments. -/
theorem Suffixed.call {callee : Expr} {es : List Expr} {opening closing : Token}
    (h : Suffixed u callee) (ho : opening.kind = .leftParen) (hw : Complete .arguments w es)
    (hstart : StartsIn exprStarters w) (hn : es.length ≤ maxArity)
    (hc : closing.kind = .rightParen) :
    Suffixed (u ++ opening :: (w ++ [closing])) (.call callee closing es) := by
  intro n c rest hfuel hr
  have hlen : (u ++ opening :: (w ++ [closing])).length = u.length + w.length + 2 := by
    simp; omega
  rw [hlen] at hfuel
  rw [List.append_assoc] at hr
  obtain ⟨k, e, c₁, heq, hk, hp, he⟩ := h (n := n) (by omega) hr
  have hr₁ : c₁.rest = opening :: (w ++ closing :: rest) := by
    simpa using hp.rest_eq hr
  obtain ⟨j, rfl⟩ : ∃ j, k = j + 1 := ⟨k - 1, by omega⟩
  obtain ⟨es', c₂, heq₂, hp₂, hes⟩ := @hw j 0
    { c₁ with rest := w ++ closing :: rest } (closing :: rest) (by omega) rfl
    (.cons (by rw [hc]; decide) _) (by omega)
  have hr₂ : c₂.rest = closing :: rest := hp₂.rest_eq rfl
  refine ⟨j, .call e closing es', { c₂ with rest }, ?_, by rw [hlen]; omega, ?_, ?_⟩
  · rw [heq, suffixes, bind_eq (acceptAny_cons hr₁ (by simp [ho]))]
    simp only [ho, if_true]
    rw [bind_eq (looksAt_startsIn hstart (by decide) rfl)]
    refine (bind_eq heq₂ _).trans ?_
    rw [bind_eq (expect_cons hr₂ hc _)]
  · exact hp.trans ((Cursor.Passes.head hr₁).trans (hp₂.trans (Cursor.Passes.head hr₂)))
  · rw [Expr.bare, he, hes]

/-! ### Primary expressions -/

/-- A primary expression of one token. -/
theorem complete_token {t : Token} {e : Expr}
    (h : ∀ n c rest, c.rest = t :: rest →
      ∃ e' id, primary (n + 1) c = .ok e' { c with rest, nextId := id } ∧ e'.bare = e) :
    Complete .primary [t] e := by
  intro n c rest hn hr
  obtain ⟨m, rfl⟩ : ∃ m, n = m + 1 := ⟨n - 1, by simp at hn; omega⟩
  obtain ⟨e', id, heq, he⟩ := h m c rest hr
  exact ⟨e', { c with rest, nextId := id }, heq, ⟨hr, rfl, rfl⟩, he⟩

/-- A name is read as a variable. -/
theorem complete_use {t : Token} (ht : t.kind = .identifier) :
    Complete .primary [t] (.var 0 t) := by
  refine complete_token fun n c rest hr => ?_
  rw [primary, bind_eq (acceptAny_cons hr (by rw [ht]; decide))]
  simp only [ht]
  exact ⟨_, _, rfl, rfl⟩

/-- A literal is read as its value. -/
theorem complete_literal {t : Token} {e : Expr} (ht : t.kind = .number ∨ t.kind = .string)
    (he : e.bare = e) (h : ∀ c, constantOf t c = .ok e c) : Complete .primary [t] e := by
  refine complete_token fun n c rest hr => ⟨e, c.nextId, ?_, he⟩
  rcases ht with ht | ht
  · rw [primary, bind_eq (acceptAny_cons hr (by rw [ht]; decide))]
    simp only [ht]
    exact h _
  · rw [primary, bind_eq (acceptAny_cons hr (by rw [ht]; decide))]
    simp only [ht]
    exact h _

/-- An expression in parentheses is read as a grouping. -/
theorem complete_grouping {inner : Expr} {opening closing : Token}
    (ho : opening.kind = .leftParen) (h : Complete .expression w inner)
    (hc : closing.kind = .rightParen) :
    Complete .primary (opening :: (w ++ [closing])) (.grouping inner) := by
  intro n c rest hn hr
  simp only [List.length_cons, List.length_append, List.length_nil] at hn
  obtain ⟨m, rfl⟩ : ∃ m, n = m + 1 := ⟨n - 1, by omega⟩
  have hr₁ : c.rest = opening :: (w ++ closing :: rest) := by simpa using hr
  obtain ⟨e, c₂, heq₂, hp₂, he⟩ := h (n := m) (c := { c with rest := w ++ closing :: rest })
    (by omega) rfl (.cons (by rw [hc]; decide) _)
  have hr₂ : c₂.rest = closing :: rest := hp₂.rest_eq rfl
  refine ⟨.grouping e, { c₂ with rest }, ?_, ?_, ?_⟩
  · rw [primary, bind_eq (acceptAny_cons hr₁ (by rw [ho]; decide))]
    simp only [ho]
    rw [bind_eq heq₂, bind_eq (expect_cons hr₂ hc _)]
    rfl
  · exact (Cursor.Passes.head hr₁).trans (hp₂.trans (Cursor.Passes.head hr₂))
  · simp [he]

/-! ### Conditionals and assignments -/

/-- A condition ends before anything but a question mark, also before an equals sign. -/
def Condition (w : List Token) (t : Expr) : Prop :=
  ∀ ⦃n c rest⦄, 16 * w.length + 10 ≤ n → c.rest = w ++ rest →
    Avoids (.question :: extenders (some .disjunction)) rest →
    ReadsAs (conditional n) c w (·.bare = t)

/-- A disjunction is a condition, where no question mark follows it. -/
theorem Condition.of_operand {t : Expr} (h : Operand (some .disjunction) w t) : Condition w t := by
  intro n c rest hn hr hrest
  obtain ⟨m, rfl⟩ : ∃ m, n = m + 1 := ⟨n - 1, by omega⟩
  obtain ⟨e, c', heq, hp, he⟩ := h (n := m) (by simp only [levelDepth]; omega) hr
    (hrest.mono (List.subset_cons_self _ _))
  have hno : Avoids [.question] c'.rest := by
    rw [hp.rest_eq hr]
    exact hrest.mono (by simp)
  refine ⟨e, c', ?_, hp, he⟩
  rw [conditional, bind_eq heq, accept, bind_eq (acceptAny_none hno)]
  rfl

/-- An operand of a tighter level is one of the looser level. -/
theorem Operand.loosen {level : Level} {t : Expr} (h : Operand level.tighter? w t)
    (hw : 0 < w.length) : Operand (some level) w t :=
  .of_chained (.of_operand h hw)

/-- A call stands as a condition, and so as the target of an assignment. -/
theorem Condition.of_suffixed {t : Expr} (h : Suffixed w t) (hw : StartsIn primaryKinds w) :
    Condition w t := by
  have hpos := hw.length_pos
  have hunary : Operand none w t := .of_unary (h.unary hw)
  have hfactor : Operand (some .factor) w t := .loosen hunary hpos
  have hterm : Operand (some .term) w t := .loosen hfactor hpos
  have hcomparison : Operand (some .comparison) w t := .loosen hterm hpos
  have hequality : Operand (some .equality) w t := .loosen hcomparison hpos
  have hconjunction : Operand (some .conjunction) w t := .loosen hequality hpos
  exact .of_operand (.loosen hconjunction hpos)

/-- A choice is read as its three parts. -/
theorem complete_choose {v : List Token} {condition onTrue onFalse : Expr} {question colon : Token}
    (hu : Operand (some .disjunction) u condition) (hq : question.kind = .question)
    (hv : Complete .expression v onTrue) (hk : colon.kind = .colon)
    (hw : Complete .expression w onFalse) :
    Complete .conditional (u ++ question :: (v ++ colon :: w))
      (.conditional condition onTrue onFalse) := by
  intro n c rest hn hr hrest
  simp only [List.length_append, List.length_cons] at hn
  obtain ⟨m, rfl⟩ : ∃ m, n = m + 1 := ⟨n - 1, by omega⟩
  simp only [List.append_assoc, List.cons_append] at hr
  obtain ⟨e, c₁, heq, hp, he⟩ := hu (n := m) (by simp only [levelDepth]; omega) hr
    (.cons (by rw [hq]; decide) _)
  have hr₁ := hp.rest_eq hr
  obtain ⟨e₂, c₂, heq₂, hp₂, he₂⟩ := hv (n := m) (c := { c₁ with rest := v ++ colon :: (w ++ rest) })
    (by omega) rfl (.cons (by rw [hk]; decide) _)
  have hr₂ : c₂.rest = colon :: (w ++ rest) := hp₂.rest_eq rfl
  obtain ⟨e₃, c₃, heq₃, hp₃, he₃⟩ := hw (n := m) (c := { c₂ with rest := w ++ rest })
    (by omega) rfl hrest
  refine ⟨.conditional e e₂ e₃, c₃, ?_, ?_, ?_⟩
  · rw [conditional, bind_eq heq, accept, bind_eq (acceptAny_cons hr₁ (by simp [hq]))]
    dsimp only
    rw [bind_eq heq₂, bind_eq (expect_cons hr₂ hk _), bind_eq heq₃]
    rfl
  · exact hp.trans ((Cursor.Passes.head hr₁).trans (hp₂.trans ((Cursor.Passes.head hr₂).trans hp₃)))
  · simp [he, he₂, he₃]

/-- A conditional without an equals sign behind it is an expression. -/
theorem complete_ofConditional {t : Expr} (h : Complete .conditional w t) :
    Complete .expression w t := by
  intro n c rest hn hr hrest
  obtain ⟨m, rfl⟩ : ∃ m, n = m + 1 := ⟨n - 1, by omega⟩
  obtain ⟨e, c', heq, hp, he⟩ := h (n := m) (by omega) hr hrest
  have hno : Avoids [.equal] c'.rest := by
    rw [hp.rest_eq hr]
    exact hrest.mono (by simp [exprExtenders])
  refine ⟨e, c', ?_, hp, he⟩
  rw [expression, bind_eq heq, accept, bind_eq (acceptAny_none hno)]
  rfl

/-- An assignment is read as its target, an equals sign and its value. -/
theorem complete_assignment {target value result : Expr} {equal : Token}
    (hu : Condition u target) (he : equal.kind = .equal) (hw : Complete .expression w value)
    (h : ∀ t v c, t.bare = target → v.bare = value →
      ∃ e id, assignTo t equal v c = .ok e { c with nextId := id } ∧ e.bare = result) :
    Complete .expression (u ++ equal :: w) result := by
  intro n c rest hn hr hrest
  simp only [List.length_append, List.length_cons] at hn
  obtain ⟨m, rfl⟩ : ∃ m, n = m + 1 := ⟨n - 1, by omega⟩
  rw [List.append_assoc, List.cons_append] at hr
  obtain ⟨t, c₁, heq, hp, ht⟩ := hu (n := m) (by omega) hr (.cons (by rw [he]; decide) _)
  have hr₁ := hp.rest_eq hr
  obtain ⟨v, c₂, heq₂, hp₂, hv⟩ := hw (n := m) (c := { c₁ with rest := w ++ rest }) (by omega) rfl
    hrest
  obtain ⟨e, id, heq₃, hbare⟩ := h t v c₂ ht hv
  refine ⟨e, { c₂ with nextId := id }, ?_, ?_, hbare⟩
  · rw [expression, bind_eq heq, accept, bind_eq (acceptAny_cons hr₁ (by simp [he]))]
    dsimp only
    rw [bind_eq heq₂, heq₃]
  · exact hp.trans ((Cursor.Passes.head hr₁).trans ⟨hp₂.rest, hp₂.last, hp₂.faults⟩)

/-- Only a variable becomes a variable without ids. -/
theorem bare_eq_var {e : Expr} {id : NodeId} {name : Token} (h : e.bare = .var id name) :
    ∃ id', e = .var id' name := by
  cases e <;> simp only [Expr.bare, reduceCtorEq, Expr.var.injEq] at h
  exact ⟨_, by rw [h.2]⟩

/-- Only a property becomes a property without ids. -/
theorem bare_eq_get {e object : Expr} {name : Token} (h : e.bare = .get object name) :
    ∃ object', e = .get object' name ∧ object'.bare = object := by
  cases e <;> simp only [Expr.bare, reduceCtorEq, Expr.get.injEq] at h
  exact ⟨_, by rw [h.2], h.1⟩

/-! ### Arguments -/

/-- An allowed argument is read as an expression and the arguments behind its comma. -/
theorem arguments_eq {count : Nat} (h : count < maxArity) :
    arguments (n + 1) count = (do
      let argument ← expression n
      match ← accept .comma with
        | none => return [argument]
        | some _ => return argument :: (← arguments n (count + 1))) := by
  rw [arguments]
  exact if_neg (Nat.not_le.mpr h)

/-- A single argument is read as a list. -/
theorem complete_argument {e : Expr} (h : Complete .expression w e) :
    Complete .arguments w [e] := by
  intro n count c rest hn hr hrest hcount
  obtain ⟨m, rfl⟩ : ∃ m, n = m + 1 := ⟨n - 1, by omega⟩
  obtain ⟨e', c', heq, hp, he⟩ := h (n := m) (by omega) hr (hrest.mono (List.subset_cons_self _ _))
  have hno : Avoids [.comma] c'.rest := by
    rw [hp.rest_eq hr]
    exact hrest.mono (by simp)
  refine ⟨[e'], c', ?_, hp, by simp [he]⟩
  rw [arguments_eq hcount, bind_eq heq, accept, bind_eq (acceptAny_none hno)]
  rfl

/-- An argument before others is read in front of them. -/
theorem complete_moreArguments {e : Expr} {es : List Expr} {comma : Token}
    (hu : Complete .expression u e) (hk : comma.kind = .comma) (hw : Complete .arguments w es) :
    Complete .arguments (u ++ comma :: w) (e :: es) := by
  intro n count c rest hn hr hrest hcount
  simp only [List.length_append, List.length_cons] at hn hcount
  obtain ⟨m, rfl⟩ : ∃ m, n = m + 1 := ⟨n - 1, by omega⟩
  rw [List.append_assoc, List.cons_append] at hr
  obtain ⟨e', c₁, heq, hp, he⟩ := hu (n := m) (by omega) hr (.cons (by rw [hk]; decide) _)
  have hr₁ := hp.rest_eq hr
  obtain ⟨es', c₂, heq₂, hp₂, hes⟩ := @hw m (count + 1) { c₁ with rest := w ++ rest } rest
    (by omega) rfl hrest (by omega)
  refine ⟨e' :: es', c₂, ?_, hp.trans ((Cursor.Passes.head hr₁).trans hp₂), by simp [he, hes]⟩
  rw [arguments_eq (by omega), bind_eq heq, accept, bind_eq (acceptAny_cons hr₁ (by simp [hk]))]
  exact bind_eq heq₂ _

/-! ### All rules -/

theorem Operand.of_complete {o : Option Level} {t : Expr} (h : Complete (.operation o) w t) :
    Operand o w t := by
  cases o with
  | none => exact .of_unary h
  | some level => exact .of_chained h

/-- An operator is read in front of its operand. -/
theorem complete_unary {operand : Expr} {operator : Token}
    (ho : operator.kind = .bang ∨ operator.kind = .minus)
    (h : Complete (.operation none) w operand) :
    Complete (.operation none) (operator :: w) (.unary operator operand) := by
  intro n c rest hn hr hrest
  rw [List.length_cons] at hn
  obtain ⟨m, rfl⟩ : ∃ m, n = m + 1 := ⟨n - 1, by omega⟩
  obtain ⟨e, c₁, heq, hp, he⟩ := h (n := m) (c := { c with rest := w ++ rest }) (by omega) rfl hrest
  refine ⟨.unary operator e, c₁, ?_, (Cursor.Passes.head hr).trans hp, by simp [he]⟩
  rw [unary, bind_eq (acceptAny_cons hr (by simpa using ho))]
  exact bind_eq heq _

/-- **Derived tokens are read, to the tree of the derivation.** -/
theorem complete {r : ExprRule} {t : r.Tree} (h : Derives r w t) : Complete r w t := by
  induction h with
  | @assign name equal w value hn he _ ih =>
    have hname : Suffixed [name] (.var 0 name) := .ofPrimary (complete_use hn)
    have hstart : StartsIn primaryKinds [name] := ⟨name, [], rfl, by rw [hn]; decide⟩
    refine complete_assignment (.of_suffixed hname hstart) he ih ?_
    rintro t v c ht rfl
    obtain ⟨id, rfl⟩ := bare_eq_var ht
    exact ⟨_, _, rfl, rfl⟩
  | @set u w object value dot name equal hu hd hn he _ ihu ihw =>
    have htarget : Suffixed (u ++ [dot, name]) (.get object name) := ihu.get hd hn
    have hset : Complete .expression ((u ++ [dot, name]) ++ equal :: w) (.set object name value) := by
      refine complete_assignment (.of_suffixed htarget (hu.startsIn.append _)) he ihw ?_
      rintro t v c ht rfl
      obtain ⟨object', rfl, rfl⟩ := bare_eq_get ht
      exact ⟨_, _, rfl, rfl⟩
    simpa using hset
  | ofConditional _ ih => exact complete_ofConditional ih
  | choose _ hq _ hk _ ihu ihv ihw => exact complete_choose (.of_complete ihu) hq ihv hk ihw
  | ofOperation _ ih =>
    intro n c rest hn hr hrest
    exact Condition.of_operand (.of_complete ih) hn hr (hrest.mono (List.subset_cons_self _ _))
  -- The loops over operators and suffixes go on from what is read before them, so the induction
  -- carries `Chained` and `Suffixed` there instead of a reading from the start.
  | join _ ho _ ihu ihw => exact .join ihu ho (.of_complete ihw)
  | ofTighter hw ih => exact .of_operand (.of_complete ih) hw.startsIn.length_pos
  | unary ho _ ih => exact complete_unary ho ih
  | ofCall hw ih => exact ih.unary hw.startsIn
  | callEmpty _ ho hc ih => exact ih.callEmpty ho hc
  | call _ ho hw hn hc ihu ihw => exact ihu.call ho ihw hw.startsIn hn hc
  | get _ hd hn ih => exact ih.get hd hn
  | ofPrimary _ ih => exact .ofPrimary ih
  | argument _ ih => exact complete_argument ih
  | moreArguments _ hk _ ihu ihw => exact complete_moreArguments ihu hk ihw
  | falseWord ht | trueWord ht | nilWord ht | this ht =>
    refine complete_token fun n c rest hr => ?_
    rw [primary, bind_eq (acceptAny_cons hr (by rw [ht]; decide))]
    simp only [ht]
    exact ⟨_, _, rfl, rfl⟩
  | use ht => exact complete_use ht
  | number ht hl | string ht hl => exact complete_literal ht rfl fun c => by simp [constantOf, hl]
  | grouping ho _ hc ih => exact complete_grouping ho ih hc

end Parser

end LoxLang
