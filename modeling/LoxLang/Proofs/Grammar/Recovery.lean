import Mathlib
import LoxLang.Proofs.Grammar.Fragment
import LoxLang.Proofs.Grammar.Keywords

/-!
# Proofs/Grammar/Recovery — where reading goes on behind a malformed statement

Behind a fragment and its semicolon reading goes on with the next token, as if it began there,
whether the fragment was a statement or not (`recovery_behind_semicolon`).

Behind a fragment without a semicolon reading goes on with the keyword that follows if the failure
was found inside the fragment. If it was found at the keyword, then the keyword is skipped, and
what it starts is lost (`recovery_before_keyword`).
-/

namespace LoxLang

namespace Parser

variable {c : Cursor}

/-! ## Skipping to the next statement -/

/-- Skipping ends behind a semicolon. -/
theorem skipFrom_semicolon {t : Token} (ht : t.kind = .semicolon) (ts : List Token) :
    skipFrom t ts = ts := by
  cases ts with
  | nil => rfl
  | cons u ts => simp [skipFrom, ht]

/-- Tokens that neither end a statement nor start one are skipped. -/
theorem skipFrom_append {v : List Token} : ∀ {previous : Token} {ts : List Token},
    previous.kind ≠ .semicolon →
    (∀ t ∈ ts, t.kind ≠ .semicolon ∧ t.kind.startsDeclaration = false) →
    ∃ last, last.kind ≠ .semicolon ∧ skipFrom previous (ts ++ v) = skipFrom last v
  | previous, [], hprevious, _ => ⟨previous, hprevious, rfl⟩
  | previous, t :: ts, hprevious, hts => by
    obtain ⟨⟨ht, hstarts⟩, hts⟩ := List.forall_mem_cons.mp hts
    obtain ⟨last, hlast, hskip⟩ := skipFrom_append (v := v) ht hts
    exact ⟨last, hlast, by simpa [skipFrom, hprevious, hstarts] using hskip⟩

variable {ts us : List Token}

/-- A failure inside a fragment skips the rest of it. -/
theorem resynchronize_append (hts : Fragment ts) {t : Token} (hus : t :: us <:+ ts) (v : List Token) :
    ∃ last, last.kind ≠ .semicolon ∧ resynchronize (t :: us ++ v) = skipFrom last v := by
  have hsemicolon : ∀ u ∈ t :: us, u.kind ≠ .semicolon := fun u hu hk =>
    hts.inside u (hus.mem hu) (by simp [hk])
  have htail : us <:+ ts.tail := by
    obtain ⟨front, hfront⟩ := hus
    cases front with
    | nil => rw [← hfront]; exact List.suffix_refl _
    | cons u front => rw [← hfront]; exact (List.suffix_cons t us).trans (List.suffix_append _ _)
  obtain ⟨ht, hrest⟩ := List.forall_mem_cons.mp hsemicolon
  exact skipFrom_append ht fun u hu => ⟨hrest u hu, hts.tail u (htail.mem hu)⟩

/-- Recovery from a failure in a fragment, or at its semicolon, stops behind the semicolon. -/
theorem resynchronize_semicolon (hts : Fragment ts) (hus : us <:+ ts) {t : Token}
    (ht : t.kind = .semicolon) (v : List Token) : resynchronize (us ++ t :: v) = v := by
  cases us with
  | nil => exact skipFrom_semicolon ht v
  | cons u us =>
    obtain ⟨last, hlast, hskip⟩ := resynchronize_append hts hus (t :: v)
    rw [hskip]
    simp [skipFrom, hlast, ht, Kind.startsDeclaration, skipFrom_semicolon ht]

/-- Recovery from a failure inside a fragment stops before the keyword behind it. -/
theorem resynchronize_keyword (hts : Fragment ts) (hus : us <:+ ts) (hne : us ≠ []) {t : Token}
    (ht : t.kind.startsDeclaration = true) (v : List Token) :
    resynchronize (us ++ t :: v) = t :: v := by
  obtain ⟨u, us, rfl⟩ := List.exists_cons_of_ne_nil hne
  obtain ⟨last, hlast, hskip⟩ := resynchronize_append hts hus (t :: v)
  rw [hskip]
  simp [skipFrom, ht]

end Parser

/-! ## Going on -/

/-- **Reading goes on as if it began there**: nothing that was read or noted before makes a
difference to what is read of the rest. -/
theorem program_resume {c : Cursor} {tokens : List Token} {n : Nat}
    (hrest : c.rest = tokens.takeWhile (·.kind ≠ .eof))
    (hlast : c.rest ≠ [] → c.last = Cursor.endOf tokens)
    (hn : (Cursor.start tokens c.nextId).depth ≤ n) :
    ∃ c', Parser.program n c = .ok (parse tokens c.nextId).statements c' ∧
      c'.faults = c.faults ++ (parse tokens c.nextId).faults ∧
      c'.nextId = (parse tokens c.nextId).nextId := by
  obtain ⟨ss, c₁, hprogram, hparse, -, -⟩ := parse_eq tokens c.nextId
  rw [((Cursor.Ample.start tokens c.nextId).program hn).1] at hprogram
  rw [hparse]
  by_cases hc : c.rest = []
  · obtain ⟨m, rfl⟩ : ∃ m, n = m + 1 := ⟨n - 1, by unfold Cursor.depth at hn; omega⟩
    have hstart : (Cursor.start tokens c.nextId).rest = [] := hrest.symm.trans hc
    rw [Parser.program_nil hstart] at hprogram
    cases hprogram
    exact ⟨c, Parser.program_nil hc, (List.append_nil _).symm, rfl⟩
  · let F := Fork.notedBefore c.rest c.faults
    have hF : F.Unseen Kind.all := ⟨.nil _, .nil _, fun _ => ⟨rfl, rfl⟩⟩
    have hbeside : (Cursor.start tokens c.nextId).Beside F c :=
      ⟨⟨c.rest, List.suffix_refl _, by rw [hrest]; simp [F, Fork.notedBefore, Cursor.start],
        (List.append_nil _).symm⟩, (hlast hc).symm, ⟨[], (List.append_nil _).symm, .nil⟩, rfl⟩
    have hout := (Parser.programScript n).beside hF hbeside
    rw [hprogram] at hout
    generalize Parser.program n c = out at hout
    cases hout with
    | @ok _ _ _ c' hss h =>
      obtain ⟨ds, hds, hfaults⟩ := h.faults
      refine ⟨c', hss ▸ rfl, ?_, h.nextId.symm⟩
      rw [hds, ← forall₂_eq (fun hd => Fork.Faults.eq rfl hd) hfaults]
      rfl

/-- Tokens before others do not change where those end. -/
theorem Cursor.endOf_append {ts us : List Token} (hts : ∀ t ∈ ts, t.kind ≠ .eof) (hus : us ≠ []) :
    endOf (ts ++ us) = endOf us := by
  have hfind : ts.find? (·.kind = .eof) = none := by simpa using hts
  unfold endOf
  rw [List.find?_append, hfind, Option.none_or, List.getLast?_append_of_ne_nil _ hus]

/-- What is read behind the first declaration is what is read of the rest. -/
theorem parse_of_declaration {tokens rest : List Token} {nextId : NodeId} {n : Nat}
    {o : Option Stmt} {c₁ : Cursor} (hn : (Cursor.start tokens nextId).depth ≤ n + 2)
    (hne : (Cursor.start tokens nextId).rest ≠ [])
    (h₁ : Parser.declaration (n + 1) (.start tokens nextId) = .ok o c₁)
    (hrest : c₁.rest = rest.takeWhile (·.kind ≠ .eof))
    (hlast : c₁.rest ≠ [] → Cursor.endOf tokens = Cursor.endOf rest) :
    parse tokens nextId =
      ⟨o.toList ++ (parse rest c₁.nextId).statements, c₁.faults ++ (parse rest c₁.nextId).faults,
        (parse rest c₁.nextId).nextId⟩ := by
  have hforward := (Parser.stmtSteady (n + 1)).declaration.ok h₁
  have hdepth : (Cursor.start rest c₁.nextId).depth ≤ n + 1 := by
    have hlt := Parser.lt_of_declaration h₁ hne
    have hlength : (Cursor.start rest c₁.nextId).rest.length = c₁.rest.length := by
      rw [hrest]
      rfl
    unfold Cursor.depth at hn ⊢
    omega
  obtain ⟨c₂, h₂, hfaults, hnextId⟩ :=
    program_resume hrest (fun hc₁ => hforward.last.trans (hlast hc₁)) hdepth
  rw [parse_of_program hn (Parser.program_cons hne h₁ h₂), hfaults, hnextId]

/-- Which ids are in stock makes no other difference. -/
theorem parse_alike_self (tokens : List Token) (nextId nextId' : NodeId) :
    Stmt.AllAlike Eq .any (parse tokens nextId).statements (parse tokens nextId').statements ∧
      (parse tokens nextId).faults = (parse tokens nextId').faults := by
  have htokens : List.Forall₂ (Token.Alike Eq) tokens tokens :=
    List.forall₂_same.mpr fun t _ => .refl (fun _ => rfl) t
  have halike := parse_alike (fun _ => rfl) htokens nextId nextId'
  exact ⟨halike.statements, forall₂_eq (fun hd => hd.eq) halike.faults⟩

/-! ## Behind a semicolon -/

section

variable {ts rest : List Token} {semicolon : Token}

theorem Fragment.not_eof (hts : Fragment ts) : ∀ t ∈ ts, t.kind ≠ .eof :=
  fun t ht hk => hts.inside t ht (by simp [hk])

/-- The tokens of a fragment are ahead of what comes behind it. -/
theorem Fragment.takeWhile_append (hts : Fragment ts) (us : List Token) :
    (ts ++ us).takeWhile (·.kind ≠ .eof) = ts ++ us.takeWhile (·.kind ≠ .eof) :=
  List.takeWhile_append_of_pos (by simpa using hts.not_eof)

/-- A fragment with its semicolon, with and without what comes behind it. -/
def Fork.atSemicolon (ts : List Token) (semicolon : Token) (rest : List Token) : Fork where
  shared := ts
  left := semicolon :: rest
  right := [semicolon]
  noted := []
  places := Eq
  places_refl _ := rfl

/-- A fragment with a semicolon behind it. -/
theorem Fork.Splits.atSemicolon (hts : Fragment ts) (hsemicolon : semicolon.kind = .semicolon) :
    (Fork.atSemicolon ts semicolon rest).Splits where
  fragment := hts
  unseen := ⟨.cons (by rw [hsemicolon]; decide) _, .cons (by rw [hsemicolon]; decide) _,
    fun heof => absurd heof (by decide)⟩
  ends := .semicolon rfl rfl hsemicolon hsemicolon

/-- A fragment and its semicolon are read, or given up, in the same way with and without what comes
behind them; reading goes on right behind the semicolon. -/
theorem declaration_atSemicolon (hts : Fragment ts) (hsemicolon : semicolon.kind = .semicolon)
    {c c' : Cursor} (h : c.Beside (.atSemicolon ts semicolon rest) c')
    (hrest : c.rest = ts ++ semicolon :: rest) (n : Nat) :
    ∃ o c₁ c₁', Parser.declaration (n + 1) c = .ok o c₁ ∧
      Parser.declaration (n + 1) c' = .ok o c₁' ∧ c₁.rest = rest ∧ c₁'.rest = [] ∧
      c₁.faults = c₁'.faults ∧ c₁.nextId = c₁'.nextId := by
  have hF : (Fork.atSemicolon ts semicolon rest).Splits := .atSemicolon hts hsemicolon
  have hout := Parser.declarationBody_fragment hF h hrest n
  have hfaults : ∀ {c c' : Cursor}, c.Beside (.atSemicolon ts semicolon rest) c' →
      c.faults = c'.faults := by
    intro c c' h
    obtain ⟨ds, hds, hrel⟩ := h.faults
    rw [hds, forall₂_eq (fun hd => Fork.Faults.eq rfl hd) hrel]
    rfl
  rw [Parser.declaration_succ]
  unfold Parser.recovering
  generalize Parser.declarationBody n c = out, Parser.declarationBody n c' = out' at hout
  cases hout with
  | @closes s c₁ c₁' _ _ _ _ h₁ hleft hright _ _ =>
    cases hleft
    cases hright
    have hsame := hfaults h₁
    exact ⟨some s, _, _, rfl, rfl, rfl, rfl, hsame, h₁.nextId⟩
  | fails hfails =>
    cases hfails with
    | @error d d' c₁ c₁' hd h₁ =>
      obtain ⟨w, hw, hl, hr⟩ := h₁.rest
      refine ⟨none, _, _, rfl, rfl, ?_, ?_, ?_, h₁.nextId⟩
      · rw [hl]
        exact Parser.resynchronize_semicolon hts hw hsemicolon rest
      · rw [hr]
        exact Parser.resynchronize_semicolon hts hw hsemicolon []
      · rw [hfaults h₁, Fork.Faults.eq rfl hd]

/-- A fragment and its semicolon by themselves are one statement, or none and a fault. Behind them
reading goes on as if it began there. -/
theorem parse_atSemicolon (hts : Fragment ts) (hsemicolon : semicolon.kind = .semicolon)
    (rest : List Token) (nextId : NodeId) :
    ∃ o ds nextId', parse (ts ++ [semicolon]) nextId = ⟨o.toList, ds, nextId'⟩ ∧
      (o = none → ds ≠ []) ∧ parse (ts ++ semicolon :: rest) nextId =
        ⟨o.toList ++ (parse rest nextId').statements, ds ++ (parse rest nextId').faults,
          (parse rest nextId').nextId⟩ := by
  have hinside : ∀ t ∈ ts ++ [semicolon], t.kind ≠ .eof := by
    intro t ht
    rcases List.mem_append.mp ht with ht | ht
    · exact hts.not_eof t ht
    · simp [List.mem_singleton.mp ht, hsemicolon]
  let c := Cursor.start (ts ++ semicolon :: rest) nextId
  let c' := Cursor.start (ts ++ [semicolon]) nextId
  have hc : c.rest = ts ++ semicolon :: rest.takeWhile (·.kind ≠ .eof) := by
    refine (hts.takeWhile_append _).trans ?_
    rw [List.takeWhile_cons_of_pos (by simp [hsemicolon])]
  have hc' : c'.rest = ts ++ [semicolon] := List.takeWhile_eq_self_iff.mpr (by simpa using hinside)
  -- The fragment is read once, at two cursors beside each other: with the rest behind it and
  -- without.
  have hbeside : c.Beside (.atSemicolon ts semicolon (rest.takeWhile (·.kind ≠ .eof))) c' :=
    ⟨⟨ts, List.suffix_refl _, hc, hc'⟩, rfl, ⟨[], rfl, .nil⟩, rfl⟩
  obtain ⟨n, hn⟩ : ∃ n, c.depth = n + 2 := ⟨c.depth - 2, by unfold Cursor.depth; omega⟩
  have hn' : c'.depth ≤ n + 2 := by
    rw [← hn]
    unfold Cursor.depth
    rw [hc, hc']
    simp
  obtain ⟨o, c₁, c₁', h₁, h₁', hrest₁, hrest₁', hfaults, hnextId⟩ :=
    declaration_atSemicolon hts hsemicolon hbeside hc n
  have hwhole := parse_of_declaration (Nat.le_of_eq hn) (by simp [c, hc]) h₁ hrest₁ fun hne => by
    have hrest : rest ≠ [] := fun hnil => hne (by rw [hrest₁, hnil]; rfl)
    rw [← Cursor.endOf_append hinside hrest, List.append_assoc, List.singleton_append]
  have hfirst : parse (ts ++ [semicolon]) nextId = ⟨o.toList, c₁'.faults, c₁'.nextId⟩ := by
    have hprogram := Parser.program_cons (by simp [c', hc']) h₁' (Parser.program_nil hrest₁')
    rw [List.append_nil] at hprogram
    exact parse_of_program hn' hprogram
  refine ⟨o, c₁'.faults, c₁'.nextId, hfirst, fun ho hnil => ?_, ?_⟩
  · have hlt := Parser.noted_lt_of_declaration_none (ho ▸ h₁')
    rw [hnil] at hlt
    exact absurd hlt (Nat.not_lt_zero _)
  · rw [← hnextId, ← hfaults]
    exact hwhole

/-- **Recovery resumes behind the semicolon.** What is read of a fragment with its semicolon and more
tokens behind it is what is read of the fragment with its semicolon, and then what is read of
those tokens, up to node ids; so are the faults. The fragment gives one statement, or none and a
fault. -/
theorem recovery_behind_semicolon (hts : Fragment ts) (hsemicolon : semicolon.kind = .semicolon)
    (rest : List Token) (nextId nextId₁ nextId₂ : NodeId) :
    let whole := parse (ts ++ semicolon :: rest) nextId
    let first := parse (ts ++ [semicolon]) nextId₁
    let second := parse rest nextId₂
    Stmt.AllAlike Eq .any whole.statements (first.statements ++ second.statements) ∧
      whole.faults = first.faults ++ second.faults ∧
      (first.statements.length = 1 ∨ first.statements = [] ∧ first.faults ≠ []) := by
  intro whole first second
  obtain ⟨o, ds, nextId', hfirst, -, hwhole⟩ := parse_atSemicolon hts hsemicolon rest nextId
  obtain ⟨hss, hds⟩ := parse_alike_self (ts ++ [semicolon]) nextId nextId₁
  obtain ⟨hss', hds'⟩ := parse_alike_self rest nextId' nextId₂
  rw [hfirst] at hss hds
  refine ⟨?_, ?_, ?_⟩
  · rw [show whole = _ from hwhole]
    exact hss.append hss'
  · rw [show whole = _ from hwhole]
    exact congrArg₂ (· ++ ·) hds hds'
  · obtain ⟨o, ds, nextId', hfirst, ho, -⟩ := parse_atSemicolon hts hsemicolon rest nextId₁
    rw [show first = _ from hfirst]
    cases o with
    | none => exact .inr ⟨rfl, ho rfl⟩
    | some s => exact .inl rfl

/-- `var x = f(y z` -/
def unclosedCall : List Token :=
  [⟨.varWord, "var", none, 1⟩, ⟨.identifier, "x", none, 1⟩, ⟨.equal, "=", none, 1⟩,
    ⟨.identifier, "f", none, 1⟩, ⟨.leftParen, "(", none, 1⟩, ⟨.identifier, "y", none, 1⟩,
    ⟨.identifier, "z", none, 1⟩]

/-- `print x;` -/
def printX : List Token :=
  [⟨.printWord, "print", none, 2⟩, ⟨.identifier, "x", none, 2⟩, ⟨.semicolon, ";", none, 2⟩]

theorem fragment_unclosedCall : Fragment unclosedCall :=
  ⟨by decide, by decide, by decide, by decide⟩

/-- `var x = f(y z; print x;` -/
theorem recovery_behind_unclosedCall :
    let whole := parse (unclosedCall ++ ⟨.semicolon, ";", none, 1⟩ :: printX) 7
    let first := parse (unclosedCall ++ [⟨.semicolon, ";", none, 1⟩]) 0
    Fragment unclosedCall ∧ first.faults.length = 1 ∧
      Stmt.AllAlike Eq .any whole.statements
        (first.statements ++ [.printStmt (.var 0 ⟨.identifier, "x", none, 2⟩)]) ∧
      whole.faults = first.faults ∧
      (first.statements.length = 1 ∨ first.statements = [] ∧ first.faults ≠ []) := by
  have hprint : parse printX 0 = ⟨[.printStmt (.var 0 ⟨.identifier, "x", none, 2⟩)], [], 1⟩ := by cbv
  obtain ⟨hss, hds, hfirst⟩ := recovery_behind_semicolon fragment_unclosedCall
    (rfl : Token.kind ⟨.semicolon, ";", none, 1⟩ = _) printX 7 0 0
  rw [hprint] at hss hds
  rw [List.append_nil] at hds
  exact ⟨fragment_unclosedCall, by decide +kernel, hss, hds, hfirst⟩

/-! ## Before a keyword -/

/-- Reading the tokens as a declaration fails while one of them is still ahead. -/
def failsInside (ts : List Token) (nextId : NodeId) : Bool :=
  let c := Cursor.start ts nextId
  match Parser.declarationBody c.depth c with
  | .ok _ _ => false
  | .error _ c' => !c'.rest.isEmpty

/-- A word that starts a declaration cannot continue a fragment. -/
theorem Kind.not_mem_of_startsDeclaration {k : Kind} (h : k.startsDeclaration = true) :
    k ∉ Parser.exprKinds ++ Parser.headKinds ++ [.semicolon, .eof] := by
  revert h
  cases k <;> decide

/-- A fragment with the next declaration behind it. -/
theorem Fork.Splits.atKeyword (hts : Fragment ts) {t : Token} (ht : t.kind.startsDeclaration = true) :
    (Fork.withRest ts (t :: rest)).Splits where
  fragment := hts
  unseen :=
    ⟨.cons (fun hk => Kind.not_mem_of_startsDeclaration ht (List.mem_append_left _ hk)) _, .nil _,
      fun heof => absurd heof (by decide)⟩
  ends := .other (.cons (fun hk => Kind.not_mem_of_startsDeclaration ht (by simp_all)) _) (.nil _)

/-- Without its semicolon a fragment is given up at the place where it is given up by itself. -/
theorem declaration_atKeyword (hts : Fragment ts) {t : Token}
    (ht : t.kind.startsDeclaration = true) {c : Cursor} {n : Nat}
    (hc : c.rest = ts ++ t :: rest) (hfaults : c.faults = []) (hn : c.depth = n + 2) :
    ∃ us c₁, Parser.declaration (n + 1) c = .ok none c₁ ∧ us <:+ ts ∧
      c₁.rest = Parser.resynchronize (us ++ t :: rest) ∧
      failsInside ts c.nextId = !us.isEmpty := by
  let c' := Cursor.start ts c.nextId
  have hc' : c'.rest = ts := List.takeWhile_eq_self_iff.mpr (by simpa using hts.not_eof)
  have hbeside : c.Beside (.withRest ts (t :: rest)) c' :=
    ⟨⟨ts, List.suffix_refl _, hc, hc'.trans (List.append_nil ts).symm⟩, trivial,
      ⟨[], rfl, by rw [hfaults]; exact .nil⟩, rfl⟩
  have hout := Parser.declarationBody_fragment (.atKeyword hts ht) hbeside hc n
  -- By itself the fragment is read with less depth.
  have hdepth : Parser.declarationBody c'.depth c' = Parser.declarationBody n c' := by
    have hle : c'.depth ≤ n := by
      unfold Cursor.depth at hn ⊢
      rw [hc, List.length_append, List.length_cons] at hn
      rw [hc']
      omega
    have hfirst : 16 * c'.rest.length + 12 ≤ c'.depth := Cursor.depth_le (by decide)
    generalize c'.depth = m at hle hfirst
    exact (Parser.settled_declarationBody (Parser.stmtSettled m) hle hfirst (Nat.le_refl _)
      (.start ts c.nextId)).1
  unfold failsInside
  dsimp only
  rw [show Parser.declarationBody (Cursor.start ts c.nextId).depth (.start ts c.nextId) = _ from
    hdepth, Parser.declaration_succ]
  unfold Parser.recovering
  generalize Parser.declarationBody n c = out, Parser.declarationBody n c' = out' at hout
  cases hout with
  | closes _ _ hright => cases hright
  | fails hfails =>
    cases hfails with
    | error hd h₁ =>
      obtain ⟨us, hus, hl, hr⟩ := h₁.rest
      refine ⟨us, _, rfl, hus, congrArg Parser.resynchronize hl, ?_⟩
      exact congrArg (fun us => !us.isEmpty) (hr.trans (List.append_nil us))

/-- **A statement that lacks its semicolon does not hide the next one if it fails inside.** Let a
fragment be followed by a keyword and a program that is read without a fault. A fault is reported,
and the statements are those of the program if and only if the fragment by itself fails while one of
its tokens is still ahead. Otherwise the failure is found at the keyword, and the keyword is skipped. -/
theorem recovery_before_keyword (hts : Fragment ts) {t : Token}
    (ht : t.kind.startsDeclaration = true) (nextId nextId' : NodeId)
    (hrest : (parse (t :: rest) nextId').faults = []) :
    let whole := parse (ts ++ t :: rest) nextId
    whole.faults ≠ [] ∧
      (Stmt.AllAlike Eq .any whole.statements (parse (t :: rest) nextId').statements ↔
        failsInside ts nextId = true) := by
  intro whole
  have heof : t.kind ≠ .eof := fun hk =>
    Kind.not_mem_of_startsDeclaration ht (by simp [hk])
  let ahead := rest.takeWhile (·.kind ≠ .eof)
  have hahead : (t :: rest).takeWhile (·.kind ≠ .eof) = t :: ahead :=
    List.takeWhile_cons_of_pos (by simpa using heof)
  let c := Cursor.start (ts ++ t :: rest) nextId
  have hc : c.rest = ts ++ t :: ahead := (hts.takeWhile_append _).trans (by rw [hahead])
  obtain ⟨n, hn⟩ : ∃ n, c.depth = n + 2 := ⟨c.depth - 2, by unfold Cursor.depth; omega⟩
  obtain ⟨us, c₁, h₁, hus, hrest₁, hinside⟩ :=
    declaration_atKeyword hts ht hc rfl hn
  have hne : c.rest ≠ [] := by simp [hc]
  have hfaults₁ : c₁.faults ≠ [] :=
    List.ne_nil_of_length_pos (Nat.zero_lt_of_lt (Parser.noted_lt_of_declaration_none h₁))
  rw [show failsInside ts nextId = _ from hinside]
  cases us with
  -- `us` is what was still ahead of the fragment when it was given up.
  | cons u us =>
    have hresume : c₁.rest = (t :: rest).takeWhile (·.kind ≠ .eof) := by
      rw [hrest₁, hahead]
      exact Parser.resynchronize_keyword hts hus (List.cons_ne_nil u us) ht ahead
    have hwhole := parse_of_declaration (Nat.le_of_eq hn) hne h₁ hresume fun _ =>
      Cursor.endOf_append hts.not_eof (List.cons_ne_nil t rest)
    rw [show whole = _ from hwhole]
    obtain ⟨hss, -⟩ := parse_alike_self (t :: rest) c₁.nextId nextId'
    exact ⟨List.append_ne_nil_of_left_ne_nil hfaults₁ _, by simpa using hss⟩
  | nil =>
    obtain ⟨ss, c₂, hprogram, hparse, -, -⟩ := parse_eq (ts ++ t :: rest) nextId
    rw [show (Cursor.start (ts ++ t :: rest) nextId).depth = n + 2 from hn] at hprogram
    obtain ⟨o, c₁', ss', h₁', h₂, rfl⟩ := Parser.program_ok hne hprogram
    rw [h₁] at h₁'
    cases h₁'
    rw [show whole = _ from hparse]
    refine ⟨fun hnil => ?_, iff_of_false (fun halike => ?_) (by simp)⟩
    · have hkept := ((Parser.Steady.program _).ok h₂).faults
      exact hfaults₁ (List.prefix_nil.mp (hnil ▸ hkept))
    · -- The keyword is missing from what was read.
      have hread := (Parser.counts_program _).le h₂
      have hskipped : starts c₁.rest ≤ starts ahead := by
        rw [hrest₁]
        exact starts_le_of_suffix (Parser.skipFrom_suffix t ahead)
      have hall := keywords_parse hrest
      rw [hahead, starts_cons, if_pos ht, ← halike.keywords_eq] at hall
      simp only [Option.toList_none, List.nil_append] at hall
      omega

/-- `var x = f(y z print x;` fails inside the call, and the `print` is read. -/
theorem recovery_before_printX :
    failsInside unclosedCall 7 = true ∧ (parse printX 0).faults = [] ∧
      (parse (unclosedCall ++ printX) 7).faults ≠ [] ∧
      Stmt.AllAlike Eq .any (parse (unclosedCall ++ printX) 7).statements
        (parse printX 0).statements := by
  have hinside : failsInside unclosedCall 7 = true := by decide +kernel
  have hprint : (parse printX 0).faults = [] := by decide +kernel
  obtain ⟨hfaults, hiff⟩ := recovery_before_keyword fragment_unclosedCall
    (rfl : Kind.startsDeclaration (Token.kind ⟨.printWord, "print", none, 2⟩) = true) 7 0 hprint
  exact ⟨hinside, hprint, hfaults, hiff.mpr hinside⟩

/-- `1 print 2;` fails at the `print`, which is skipped: nothing is read, though `print 2;` by itself
is a statement. -/
theorem keyword_skipped_at_missing_semicolon :
    let one : List Token := [⟨.number, "1", some (.number 1), 1⟩]
    let printTwo : List Token := [⟨.printWord, "print", none, 1⟩,
      ⟨.number, "2", some (.number 2), 1⟩, ⟨.semicolon, ";", none, 1⟩, ⟨.eof, "", none, 1⟩]
    Fragment one ∧ (parse printTwo 0).faults = [] ∧ (parse printTwo 0).statements.length = 1 ∧
      (parse (one ++ printTwo) 0).statements = [] ∧ (parse (one ++ printTwo) 0).faults =
        [.parse ⟨.printWord, "print", none, 1⟩ .expressionEnd] := by
  refine ⟨⟨by decide, by decide, by decide, by decide⟩, ?_, ?_, ?_, ?_⟩
  · cbv
  · cbv
  · cbv
  · cbv

end

end LoxLang
