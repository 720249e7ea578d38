import Mathlib
import LoxLang.Proofs.Grammar.Depth
import LoxLang.Proofs.Grammar.Script

/-!
# Proofs/Grammar/Buffer — reading tokens by their index

A cursor holds the tokens that are ahead. A `Buffer` holds all tokens, behind the first end token
too, and the index of the current one. Every access to it is by index, and checked: reading halts
at an index where there is no token or that is behind the first end token, in a search that does
not end, and behind a declaration that has not moved on although there was a token.

The script of a parser says how it reads a buffer (`Script.indexed`). It never halts, and comes to
what the parser comes to (`Script.follows`).
-/

namespace LoxLang

open EStateM (Result)

/-- All tokens of a text and a place in them. -/
structure Buffer where
  tokens : List Token
  /-- The index of the current token. -/
  current : Nat
  /-- The faults noted so far. -/
  faults : List Diagnostic
  /-- The next free node id. -/
  nextId : NodeId

/-- Tokens that end with an end token. -/
def closed (tokens : List Token) : List Token :=
  if tokens.getLast?.map Token.kind = some .eof then tokens
  else tokens ++ [⟨.eof, "", none, (tokens.getLast?.map Token.line).getD 1⟩]

/-- The buffer before the first of `tokens`. -/
def Buffer.start (tokens : List Token) (nextId : NodeId) : Buffer where
  tokens := closed tokens
  current := 0
  faults := []
  nextId

/-- Why the reading of a buffer stops. -/
inductive Halt
  /-- The tokens are not what the grammar asks for. -/
  | refused (d : Diagnostic)
  /-- There is no token at an index. -/
  | outOfRange
  /-- There is an end token before an index. -/
  | behindEnd
  /-- A search for a token goes on for longer than there are tokens. -/
  | endless
  /-- A declaration has not moved on. -/
  | idle

/-- A computation that reads a buffer. -/
abbrev Indexed := EStateM Halt Buffer

namespace Indexed

/-- The token at an index. -/
def token (i : Nat) : Indexed Token := fun b =>
  match b.tokens[i]? with
  | none => .error .outOfRange b
  | some t => if ∀ t ∈ b.tokens.take i, t.kind ≠ .eof then .ok t b else .error .behindEnd b

/-- The current token. -/
def peek : Indexed Token := do
  token (← get).current

/-- The token before the current one. -/
def previous : Indexed Token := do
  match (← get).current with
  | 0 => throw .outOfRange
  | i + 1 => token i

def isAtEnd : Indexed Bool := do
  return (← peek).kind = .eof

/-- The current token is of the given kind, and not the end token. -/
def check (kind : Kind) : Indexed Bool := do
  if ← isAtEnd then return false
  return (← peek).kind = kind

/-- Steps over the current token, unless it is the end token. -/
def advance : Indexed Token := do
  if !(← isAtEnd) then
    modify fun b => { b with current := b.current + 1 }
  previous

/-- Steps over the current token if it is of one of the given kinds, which are tried in order. -/
def matchAny : List Kind → Indexed (Option Token)
  | [] => return none
  | kind :: kinds => do
    if ← check kind then return some (← advance)
    matchAny kinds

def refuse {α : Type} (fault : ParseFault) : Indexed α := do
  throw (.refused (.parse (← peek) fault))

def note (token : Token) (fault : ParseFault) : Indexed Unit :=
  modify fun b => { b with faults := b.faults ++ [.parse token fault] }

def noteHere (fault : ParseFault) : Indexed Unit := do
  note (← peek) fault

def freshId : Indexed NodeId := fun b =>
  .ok b.nextId { b with nextId := b.nextId + 1 }

/-- Steps on to the end of a statement or the start of a declaration. -/
def skip : Nat → Indexed Unit
  | 0 => throw .endless
  | n + 1 => do
    if ← isAtEnd then return
    if (← previous).kind = .semicolon then return
    if (← peek).kind.startsDeclaration then return
    let _ ← advance
    skip n

/-- Steps over the token of a failure, and on to where the next declaration is likely to start. -/
def synchronize : Indexed Unit := do
  let _ ← advance
  skip (← get).tokens.length

/-- Reads a statement; a failure is noted and yields none. -/
def recovering (x : Indexed Stmt) : Indexed (Option Stmt) := fun b =>
  match x b with
  | .ok s b => .ok (some s) b
  | .error (.refused d) b => (do synchronize; return none) { b with faults := b.faults ++ [d] }
  | .error halt b => .error halt b

/-- Reads a declaration; one that finds a token has to move on. -/
def declaration (x : Indexed Stmt) : Indexed (Option Stmt) := do
  let start := (← get).current
  let nothing ← isAtEnd
  let o ← recovering x
  if !nothing && (← get).current ≤ start then
    throw .idle
  return o

end Indexed

namespace Parser

/-- How a parser reads a buffer. -/
def Script.indexed {kinds : List Kind} {ahead : Bool} {α : Type} {p : Parser α} :
    Script kinds ahead p → Indexed α
  | .pure a => Pure.pure a
  | .refuse fault => Indexed.refuse fault
  | .fail t fault => throw (.refused (.parse t fault))
  | .note t fault => Indexed.note t fault
  | .noteHere fault => Indexed.noteHere fault
  | .freshId => Indexed.freshId
  | @Script.looksAt _ _ kind _ => Indexed.check kind
  | @Script.acceptAny _ _ accepted _ => Indexed.matchAny accepted
  | .bind first next => first.indexed >>= fun a => (next a).indexed
  | .atEnd _ closed going => do if ← Indexed.isAtEnd then closed.indexed else going.indexed
  | .recovering _ _ body => Indexed.declaration body.indexed
  | .anywhere script => script.indexed

end Parser

/-- How an expression and nothing behind it is read from a buffer. -/
def Indexed.expressionAlone (n : Nat) : Indexed Expr := do
  let e ← (Parser.expressionScript n).indexed
  if !(← isAtEnd) then
    refuse .endOfExpression
  match (← get).faults with
  | [] => return e
  | fault :: _ => throw (.refused fault)

/-! ## Buffers and cursors -/

/-- The buffer of the given tokens shows what the cursor sees: the tokens ahead, the first end token
behind them, and the same faults and ids. -/
structure Buffer.Shows (tokens : List Token) (b : Buffer) (c : Cursor) : Prop where
  tokens_eq : b.tokens = tokens
  place : ∃ front back, tokens = front ++ (c.rest ++ c.last :: back) ∧ b.current = front.length ∧
    ∀ t ∈ front ++ c.rest, t.kind ≠ .eof
  last : c.last.kind = .eof
  faults : b.faults = c.faults
  nextId : b.nextId = c.nextId

/-- The token before the current one. -/
def Buffer.Behind (b : Buffer) (t : Token) : Prop :=
  ∃ front back, b.tokens = front ++ t :: back ∧ b.current = front.length + 1 ∧
    ∀ t ∈ front, t.kind ≠ .eof

namespace Buffer.Shows

variable {tokens : List Token} {b : Buffer} {c : Cursor}

/-- The current token is passed, and is then the one before the current one. -/
theorem pass (h : b.Shows tokens c) {t : Token} {rest : List Token} (hrest : c.rest = t :: rest) :
    Shows tokens { b with current := b.current + 1 } { c with rest } ∧
      Behind { b with current := b.current + 1 } t := by
  obtain ⟨front, back, htokens, hcurrent, hfront⟩ := h.place
  rw [hrest] at htokens hfront
  refine ⟨⟨h.tokens_eq, ⟨front ++ [t], back, ?_, ?_, ?_⟩, h.last, h.faults, h.nextId⟩, ?_⟩
  · simpa using htokens
  · simp [hcurrent]
  · simpa using hfront
  · exact ⟨front, rest ++ c.last :: back, h.tokens_eq.trans htokens, by rw [hcurrent],
      fun t' ht' => hfront t' (List.mem_append_left _ ht')⟩

/-- Behind the first token there is a token before the current one. -/
theorem behind (h : b.Shows tokens c) (hcurrent : 0 < b.current) : ∃ t, b.Behind t := by
  obtain ⟨front, back, htokens, hlength, hfront⟩ := h.place
  rcases front.eq_nil_or_concat with rfl | ⟨front, t, rfl⟩
  · rw [hlength] at hcurrent
    exact absurd hcurrent (Nat.lt_irrefl 0)
  · refine ⟨t, front, c.rest ++ c.last :: back, ?_, by simpa using hlength, ?_⟩
    · simpa [h.tokens_eq] using htokens
    · exact fun t' ht' => hfront t' (by simp [ht'])

/-- What is shown depends on the tokens ahead only. -/
theorem of_rest (h : b.Shows tokens c) {rest : List Token} (hrest : rest = c.rest) :
    b.Shows tokens { c with rest } := by
  subst hrest
  exact h

/-- How far the current token is from the first end token. -/
theorem current_add (h : b.Shows tokens c) :
    b.current + c.rest.length = (tokens.takeWhile (·.kind ≠ .eof)).length := by
  obtain ⟨front, back, htokens, hcurrent, hfront⟩ := h.place
  rw [htokens, ← List.append_assoc, List.takeWhile_append_of_pos (by simpa using hfront)]
  simp [hcurrent, h.last]

end Buffer.Shows

/-- The buffer was read as the cursor was moved, and reading has not halted. -/
inductive Indexed.Follows (tokens : List Token) {α : Type} :
    Result Halt Buffer α → Result Diagnostic Cursor α → Prop
  | ok {a : α} {b : Buffer} {c : Cursor} (h : b.Shows tokens c) : Follows tokens (.ok a b) (.ok a c)
  | error {d : Diagnostic} {b : Buffer} {c : Cursor} (h : b.Shows tokens c) :
      Follows tokens (.error (.refused d) b) (.error d c)

namespace Indexed

variable {α β : Type} {tokens : List Token} {b b' : Buffer} {c : Cursor}

theorem bind_eq {x : Indexed α} {a : α} (h : x b = .ok a b') (f : α → Indexed β) :
    (x >>= f) b = f a b' := by
  change EStateM.bind x f b = _
  unfold EStateM.bind
  rw [h]

/-- Readings that follow a parser may stand one behind the other. -/
theorem Follows.bind {x : Indexed α} {p : Parser α} {f : α → Indexed β} {g : α → Parser β}
    (h : Follows tokens (x b) (p c))
    (hf : ∀ a b' c', b'.Shows tokens c' → Follows tokens (f a b') (g a c')) :
    Follows tokens ((x >>= f) b) ((p >>= g) c) := by
  change Follows tokens (EStateM.bind x f b) (EStateM.bind p g c)
  unfold EStateM.bind
  generalize x b = out, p c = out' at h
  cases h with
  | ok h => exact hf _ _ _ h
  | error h => exact .error h

/-- There is a token at an index behind tokens that are no end tokens. -/
theorem token_eq {front back : List Token} {t : Token} (h : b.tokens = front ++ t :: back)
    (hfront : ∀ t ∈ front, t.kind ≠ .eof) : token front.length b = .ok t b := by
  unfold token
  have hget : b.tokens[front.length]? = some t := by simp [h]
  have htake : b.tokens.take front.length = front := by simp [h]
  rw [hget, htake]
  exact if_pos hfront

/-- The current token of the buffer is the one that the cursor sees. -/
theorem peek_eq (h : b.Shows tokens c) : peek b = .ok c.current b := by
  obtain ⟨front, back, htokens, hcurrent, hfront⟩ := h.place
  have hfront' : ∀ t ∈ front, t.kind ≠ .eof := fun t ht => hfront t (List.mem_append_left _ ht)
  change token b.current b = _
  rw [hcurrent]
  unfold Cursor.current
  rw [← h.tokens_eq] at htokens
  cases hrest : c.rest with
  | nil =>
    rw [hrest] at htokens
    exact token_eq htokens hfront'
  | cons t rest =>
    rw [hrest] at htokens
    exact token_eq htokens hfront'

/-- The buffer is at its end where the cursor is. -/
theorem isAtEnd_eq (h : b.Shows tokens c) : isAtEnd b = .ok c.rest.isEmpty b := by
  obtain ⟨front, _, -, -, hfront⟩ := h.place
  unfold isAtEnd
  rw [bind_eq (peek_eq h)]
  unfold Cursor.current
  cases hrest : c.rest with
  | nil => simp [pure, EStateM.pure, h.last]
  | cons t rest =>
    have ht : t.kind ≠ .eof := hfront t (by simp [hrest])
    simp [pure, EStateM.pure, ht]

/-- To check the next token is to look at it. -/
theorem check_eq (h : b.Shows tokens c) (kind : Kind) :
    check kind b = .ok (decide (∃ t ∈ c.rest.head?, t.kind = kind)) b := by
  unfold check
  rw [bind_eq (isAtEnd_eq h)]
  cases hrest : c.rest with
  | nil => simp [pure, EStateM.pure]
  | cons t rest =>
    have hcurrent : c.current = t := by simp [Cursor.current, hrest]
    simp only [List.isEmpty_cons, Bool.false_eq_true, if_false]
    rw [bind_eq (peek_eq h), hcurrent]
    simp [pure, EStateM.pure]

/-- The token before the current one is read. -/
theorem previous_eq {t : Token} (h : b.Behind t) : previous b = .ok t b := by
  obtain ⟨front, rest, htokens, hcurrent, hfront⟩ := h
  unfold previous
  rw [bind_eq (rfl : (get : Indexed _) b = .ok b b), hcurrent]
  exact token_eq htokens hfront

/-- To advance over a token is to pass it. -/
theorem advance_cons (h : b.Shows tokens c) {t : Token} {rest : List Token}
    (hrest : c.rest = t :: rest) : advance b = .ok t { b with current := b.current + 1 } := by
  unfold advance
  rw [bind_eq (isAtEnd_eq h), hrest]
  exact previous_eq (h.pass hrest).2

/-- At the end nothing is stepped over, but there has to be a token before it. -/
theorem advance_end (h : b.Shows tokens c) (hrest : c.rest = []) (hcurrent : 0 < b.current) :
    ∃ t, advance b = .ok t b := by
  obtain ⟨t, ht⟩ := h.behind hcurrent
  refine ⟨t, ?_⟩
  unfold advance
  rw [bind_eq (isAtEnd_eq h), hrest]
  exact previous_eq ht

/-- Trying kinds one by one accepts what accepting any of them does. -/
theorem matchAny_follows (h : b.Shows tokens c) :
    ∀ kinds, Follows tokens (matchAny kinds b) (Parser.acceptAny kinds c)
  | [] => by
    rw [Parser.acceptAny_none fun _ _ => List.not_mem_nil]
    exact .ok h
  | kind :: kinds => by
    have ih := matchAny_follows h kinds
    unfold matchAny
    rw [bind_eq (check_eq h kind)]
    cases hrest : c.rest with
    | nil =>
      simpa [Parser.acceptAny, hrest] using ih
    | cons t rest =>
      by_cases hk : t.kind = kind
      · rw [Parser.acceptAny_cons hrest (by simp [hk])]
        simp only [List.head?_cons, Option.mem_some_iff, exists_eq_left', hk, decide_true, if_true]
        rw [bind_eq (advance_cons h hrest)]
        exact .ok (h.pass hrest).1
      · simpa [Parser.acceptAny, hrest, hk] using ih

/-! ## Recovery -/

/-- The search for the next declaration stops where the cursor goes on. -/
theorem skip_eq : ∀ {n : Nat} {b : Buffer} {c : Cursor} {last : Token}, b.Shows tokens c →
    b.Behind last → c.rest.length < n →
    ∃ b', skip n b = .ok () b' ∧ b'.Shows tokens { c with rest := Parser.skipFrom last c.rest }
  | 0, _, _, _, _, _, hn => absurd hn (Nat.not_lt_zero _)
  | n + 1, b, c, last, h, hlast, hn => by
    unfold skip
    rw [bind_eq (isAtEnd_eq h)]
    cases hrest : c.rest with
    | nil => exact ⟨b, rfl, h.of_rest hrest.symm⟩
    | cons t rest =>
      have hcurrent : c.current = t := by simp [Cursor.current, hrest]
      simp only [List.isEmpty_cons, Bool.false_eq_true, if_false, Parser.skipFrom]
      rw [bind_eq (previous_eq hlast)]
      by_cases hsemicolon : last.kind = .semicolon
      · exact ⟨b, by rw [if_pos hsemicolon]; rfl, h.of_rest (by simp [hsemicolon, hrest])⟩
      rw [if_neg hsemicolon, bind_eq (peek_eq h), hcurrent]
      by_cases hstarts : t.kind.startsDeclaration
      · exact ⟨b, by rw [if_pos hstarts]; rfl, h.of_rest (by simp [hstarts, hrest])⟩
      rw [if_neg hstarts, bind_eq (advance_cons h hrest)]
      obtain ⟨hpass, hbehind⟩ := h.pass hrest
      have hlt : rest.length < n := by
        rw [hrest, List.length_cons] at hn
        exact Nat.lt_of_succ_lt_succ hn
      simpa [hsemicolon, hstarts] using skip_eq hpass hbehind hlt

/-- Behind a failure the buffer goes on where the cursor does, if there was a token to skip or one
was passed before. -/
theorem synchronize_eq (h : b.Shows tokens c) (hc : c.rest ≠ [] ∨ 0 < b.current) :
    ∃ b', synchronize b = .ok () b' ∧
      b'.Shows tokens { c with rest := Parser.resynchronize c.rest } := by
  have hlength : b.current + c.rest.length < b.tokens.length := by
    obtain ⟨front, back, htokens, hcurrent, -⟩ := h.place
    rw [h.tokens_eq, htokens, hcurrent]
    simp
  unfold synchronize
  cases hrest : c.rest with
  | nil =>
    have hcurrent : 0 < b.current := hc.resolve_left (· hrest)
    obtain ⟨last, hlast⟩ := h.behind hcurrent
    obtain ⟨t, hadvance⟩ := advance_end h hrest hcurrent
    rw [bind_eq hadvance]
    have hskip := skip_eq (n := b.tokens.length) h hlast (by omega)
    rwa [hrest] at hskip
  | cons t rest =>
    obtain ⟨hpass, hbehind⟩ := h.pass hrest
    rw [bind_eq (advance_cons h hrest)]
    rw [hrest, List.length_cons] at hlength
    exact skip_eq hpass hbehind (by dsimp only; omega)

/-- Both recover from a failure at the same place. -/
theorem recovering_follows {x : Indexed Stmt} {p : Parser Stmt} (h : b.Shows tokens c)
    (hc : c.rest ≠ []) (hx : Follows tokens (x b) (p c)) :
    Follows tokens (recovering x b) (Parser.recovering p c) := by
  unfold recovering Parser.recovering
  cases hpc : p c with
  | ok s c' =>
    generalize x b = out at hx
    rw [hpc] at hx
    cases hx with
    | ok h' => exact .ok h'
  | error d c' =>
    generalize x b = out at hx
    rw [hpc] at hx
    cases hx with
    | @error _ b' _ h' =>
      have hmoved : c'.rest ≠ [] ∨ 0 < b'.current := by
        by_cases hrest : c'.rest = []
        · have hbefore := h.current_add
          have hafter := h'.current_add
          have hpos := List.length_pos_of_ne_nil hc
          rw [hrest, List.length_nil] at hafter
          exact .inr (by omega)
        · exact .inl hrest
      have hnoted : Buffer.Shows tokens { b' with faults := b'.faults ++ [d] }
          { c' with faults := c'.faults ++ [d] } :=
        ⟨h'.tokens_eq, h'.place, h'.last, by rw [h'.faults], h'.nextId⟩
      obtain ⟨b'', hsync, hshows⟩ := synchronize_eq hnoted hmoved
      dsimp only
      rw [bind_eq hsync]
      exact .ok hshows

/-- A declaration is read, or given up, as the cursor says, and it has moved on. -/
theorem declaration_follows {x : Indexed Stmt} {p : Parser Stmt} (hp : Parser.Steady p)
    (hadvances : Parser.Advances p) (h : b.Shows tokens c) (hc : c.rest ≠ [])
    (hx : Follows tokens (x b) (p c)) :
    Follows tokens (declaration x b) (Parser.recovering p c) := by
  have hrecovering := recovering_follows h hc hx
  cases hpc : Parser.recovering p c with
  | error d c' => exact absurd hpc (by unfold Parser.recovering; split <;> simp)
  | ok o c' =>
    have hlt := Parser.lt_of_recovering hp hadvances hpc hc
    rw [hpc] at hrecovering
    cases hxb : recovering x b with
    | error halt b' =>
      rw [hxb] at hrecovering
      cases hrecovering
    | ok o' b' =>
      rw [hxb] at hrecovering
      cases hrecovering with
      | ok h' =>
        have hmoved : ¬ b'.current ≤ b.current := by
          have hbefore := h.current_add
          have hafter := h'.current_add
          omega
        unfold declaration
        rw [bind_eq (rfl : (get : Indexed _) b = .ok b b), bind_eq (isAtEnd_eq h), bind_eq hxb,
          bind_eq (rfl : (get : Indexed _) b' = .ok b' b')]
        simp only [hmoved, decide_false, Bool.and_false, Bool.false_eq_true, if_false]
        exact .ok h'

end Indexed

namespace Parser

/-- **A parser reads a buffer without halting**, and comes to what it comes to at the cursor. -/
theorem Script.follows {kinds : List Kind} {ahead : Bool} {α : Type} {p : Parser α}
    (script : Script kinds ahead p) {tokens : List Token} :
    ∀ {b : Buffer} {c : Cursor}, b.Shows tokens c → (ahead = true → c.rest ≠ []) →
      Indexed.Follows tokens (script.indexed b) (p c) := by
  induction script with
  | pure a => exact fun h _ => .ok h
  | refuse fault =>
    intro b c h _
    unfold Script.indexed Indexed.refuse
    rw [Indexed.bind_eq (Indexed.peek_eq h)]
    exact .error h
  | fail t fault => exact fun h _ => .error h
  | note t fault =>
    exact fun h _ => .ok ⟨h.tokens_eq, h.place, h.last, by simp only [h.faults], h.nextId⟩
  | noteHere fault =>
    intro b c h _
    unfold Script.indexed Indexed.noteHere
    rw [Indexed.bind_eq (Indexed.peek_eq h)]
    exact .ok ⟨h.tokens_eq, h.place, h.last, by simp only [h.faults], h.nextId⟩
  | freshId =>
    intro b c h _
    unfold Script.indexed Indexed.freshId Parser.freshId
    rw [h.nextId]
    exact .ok ⟨h.tokens_eq, h.place, h.last, h.faults, rfl⟩
  | looksAt _ =>
    intro b c h _
    unfold Script.indexed
    rw [Indexed.check_eq h, looksAt_eq]
    exact .ok h
  | acceptAny _ => exact fun h _ => Indexed.matchAny_follows h _
  | bind _ _ ihp ihf =>
    exact fun h hahead => (ihp h hahead).bind fun a _ _ h' => ihf a h' nofun
  | @atEnd _ _ f _ _ _ ihclosed ihgoing =>
    intro b c h _
    unfold Script.indexed
    rw [Indexed.bind_eq (Indexed.isAtEnd_eq h)]
    change Indexed.Follows tokens _ (f c.rest.isEmpty c)
    cases hrest : c.rest.isEmpty with
    | true => exact ihclosed h nofun
    | false => exact ihgoing h fun _ => List.isEmpty_eq_false_iff.mp hrest
  | recovering _ hadvances body ih =>
    exact fun h hahead =>
      Indexed.declaration_follows body.steady hadvances h (hahead rfl) (ih h nofun)
  | anywhere _ ih => exact fun h _ => ih h nofun

end Parser

/-! ## Whole texts -/

/-- The first end token is where a cursor sees it. -/
theorem closed_eq (tokens : List Token) :
    ∃ back, closed tokens = tokens.takeWhile (·.kind ≠ .eof) ++ Cursor.endOf tokens :: back := by
  unfold Cursor.endOf
  cases hfind : tokens.find? (·.kind = .eof) with
  | some t =>
    obtain ⟨ht, front, back, htokens, hfront⟩ := List.find?_eq_some_iff_append.mp hfind
    have htake : tokens.takeWhile (·.kind ≠ .eof) = front := by
      rw [htokens, List.takeWhile_append_of_pos (by simpa using hfront)]
      simpa using ht
    obtain ⟨more, hmore⟩ : ∃ more, closed tokens = tokens ++ more := by
      unfold closed
      split
      · exact ⟨[], (List.append_nil _).symm⟩
      · exact ⟨_, rfl⟩
    refine ⟨back ++ more, ?_⟩
    rw [hmore, htake, htokens, List.append_assoc, List.cons_append]
  | none =>
    have hnone : ∀ t ∈ tokens, t.kind ≠ .eof := by simpa using hfind
    have hlast : tokens.getLast?.map Token.kind ≠ some .eof := by
      intro h
      obtain ⟨t, ht, hk⟩ := Option.map_eq_some_iff.mp h
      exact hnone t (List.mem_of_getLast? ht) hk
    have htake : tokens.takeWhile (·.kind ≠ .eof) = tokens := by simpa using hnone
    rw [htake]
    exact ⟨[], if_neg hlast⟩

/-- At its start the buffer shows all the tokens. -/
theorem Buffer.Shows.start (tokens : List Token) (nextId : NodeId) :
    (Buffer.start tokens nextId).Shows (closed tokens) (Cursor.start tokens nextId) where
  tokens_eq := rfl
  place := by
    obtain ⟨back, hback⟩ := closed_eq tokens
    refine ⟨[], back, hback, rfl, fun t ht => ?_⟩
    simpa using List.mem_takeWhile_imp ht
  last := by
    change (Cursor.endOf tokens).kind = .eof
    unfold Cursor.endOf
    split
    · next t ht => simpa using List.find?_some ht
    · rfl
  faults := rfl
  nextId := rfl

namespace Indexed

variable {tokens : List Token} {b : Buffer} {c : Cursor}

/-- Both report the first fault that was noted. -/
theorem firstFault_follows (h : b.Shows tokens c) (e : Expr) : Follows tokens
    ((do
      match (← get).faults with
      | [] => return e
      | fault :: _ => throw (.refused fault) : Indexed Expr) b)
    ((do
      match (← get).faults with
      | [] => return e
      | fault :: _ => throw fault : Parser Expr) c) := by
  rw [bind_eq (rfl : (get : Indexed _) b = .ok b b),
    Parser.bind_eq (rfl : (get : Parser _) c = .ok c c), h.faults]
  cases c.faults with
  | nil => exact .ok h
  | cons fault _ => exact .error h

/-- An expression alone is read as the cursor says. -/
theorem expressionAlone_follows (h : b.Shows tokens c) (hc : c.Ample) {n : Nat} (hn : c.depth ≤ n) :
    Follows tokens (expressionAlone n b) (Parser.expressionAlone c) := by
  have hexpression := (Parser.expressionScript n).follows h nofun
  rw [← (hc.expression hn).1] at hexpression
  refine hexpression.bind fun e b' c' h' => ?_
  rw [bind_eq (isAtEnd_eq h'), Parser.bind_eq (rfl : Parser.atEnd c' = .ok c'.rest.isEmpty c')]
  cases c'.rest.isEmpty with
  | true => exact firstFault_follows h' e
  | false =>
    simp only [Bool.not_false, if_true]
    refine Follows.bind ?_ fun _ _ _ h'' => firstFault_follows h'' e
    unfold refuse
    rw [bind_eq (peek_eq h')]
    exact .error h'

end Indexed

/-- How far the current token is from the first end token. -/
theorem Buffer.Shows.current_add_start {tokens : List Token} {b : Buffer} {c : Cursor}
    (h : b.Shows (closed tokens) c) :
    b.current + c.rest.length = (tokens.takeWhile (·.kind ≠ .eof)).length :=
  calc b.current + c.rest.length
    _ = ((closed tokens).takeWhile (·.kind ≠ .eof)).length := h.current_add
    _ = 0 + (tokens.takeWhile (·.kind ≠ .eof)).length := (Shows.start tokens 0).current_add.symm
    _ = (tokens.takeWhile (·.kind ≠ .eof)).length := Nat.zero_add _

/-- A program is read up to the first end token. -/
theorem Buffer.program_eq (tokens : List Token) (nextId : NodeId) {n : Nat}
    (hn : (Cursor.start tokens nextId).depth ≤ n) :
    ∃ b, (Parser.programScript n).indexed (.start tokens nextId) =
        .ok (parse tokens nextId).statements b ∧
      b.current = (tokens.takeWhile (·.kind ≠ .eof)).length ∧
      b.faults = (parse tokens nextId).faults ∧ b.nextId = (parse tokens nextId).nextId := by
  obtain ⟨ss, c', hprogram, hparse, hrest, -⟩ := parse_eq tokens nextId
  have hfollows := (Parser.programScript n).follows (Shows.start tokens nextId) nofun
  rw [← ((Cursor.Ample.start tokens nextId).program hn).1, hprogram] at hfollows
  generalize (Parser.programScript n).indexed (start tokens nextId) = out at hfollows
  cases hfollows with
  | @ok _ b _ h =>
    have hcurrent := h.current_add_start
    rw [hrest] at hcurrent
    rw [hparse]
    exact ⟨b, rfl, hcurrent, h.faults, h.nextId⟩

/-- An expression alone is read inside the same bounds. -/
theorem Buffer.expressionAlone_eq (tokens : List Token) (nextId : NodeId) {n : Nat}
    (hn : (Cursor.start tokens nextId).depth ≤ n) :
    ∃ b, Indexed.expressionAlone n (.start tokens nextId) =
        (match (parseExpression tokens nextId).1 with
          | .ok e => .ok e b
          | .error d => .error (.refused d) b) ∧
      b.current ≤ (tokens.takeWhile (·.kind ≠ .eof)).length ∧
      b.nextId = (parseExpression tokens nextId).2 := by
  have hfollows := Indexed.expressionAlone_follows (Shows.start tokens nextId)
    (Cursor.Ample.start tokens nextId) hn
  unfold parseExpression
  generalize Indexed.expressionAlone n (start tokens nextId) = out,
    Parser.expressionAlone (.start tokens nextId) = out' at hfollows
  cases hfollows with
  | ok h => exact ⟨_, rfl, Nat.le.intro h.current_add_start, h.nextId⟩
  | error h => exact ⟨_, rfl, Nat.le.intro h.current_add_start, h.nextId⟩

/-- **Reading stays in bounds.** On any tokens, and with any depth from the one that is used on,
a program is read from the buffer of the tokens without halting: no index is out of range or behind
the first end token, and every declaration that finds a token moves on. Reading comes to what `parse`
gives, at the first end token, and never to a want of depth. The same holds of an expression
alone. At any cursor a declaration that finds a token moves on, whether it is read or given up. -/
theorem Buffer.reading_stays_in_bounds (tokens : List Token) (nextId : NodeId) (extra : Nat) :
    let n := (Cursor.start tokens nextId).depth + extra
    let last := (tokens.takeWhile (·.kind ≠ .eof)).length
    ((∃ b, (Parser.programScript n).indexed (.start tokens nextId) =
          .ok (parse tokens nextId).statements b ∧
        b.current = last ∧ b.faults = (parse tokens nextId).faults ∧
        b.nextId = (parse tokens nextId).nextId) ∧
      ∀ d ∈ (parse tokens nextId).faults, ¬ d.IsNesting) ∧
    ((∃ b, Indexed.expressionAlone n (.start tokens nextId) =
          (match (parseExpression tokens nextId).1 with
            | .ok e => .ok e b
            | .error d => .error (.refused d) b) ∧
        b.current ≤ last ∧ b.nextId = (parseExpression tokens nextId).2) ∧
      ∀ d, (parseExpression tokens nextId).1 = .error d → ¬ d.IsNesting) ∧
    ∀ (m : Nat) (c c' : Cursor) (o : Option Stmt), Parser.declaration m c = .ok o c' →
      c.rest ≠ [] → c'.rest.length < c.rest.length := by
  have hn := Nat.le_add_right (Cursor.start tokens nextId).depth extra
  refine ⟨⟨program_eq tokens nextId hn, ?_⟩, ⟨expressionAlone_eq tokens nextId hn, ?_⟩,
    fun _ _ _ _ => Parser.lt_of_declaration⟩
  · obtain ⟨ss, c', -, hparse, -, hample⟩ := parse_eq tokens nextId
    rw [hparse]
    exact hample
  · intro d hd
    have hample := (Cursor.Ample.start tokens nextId).expressionAlone
    unfold parseExpression at hd
    split at hd
    · cases hd
    · next d' c' herror =>
      cases hd
      rw [herror] at hample
      exact hample.1

end LoxLang
