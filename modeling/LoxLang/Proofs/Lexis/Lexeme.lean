import Mathlib
import LoxLang.Lexis.Scan

/-!
# Proofs/Lexis/Lexeme — the pieces of a text, described

`IsLexeme` lists the texts of tokens, with the kind and the literal of each; `Piece.StandsBefore`
says of every piece what it looks like and how it ends. A lexeme in its place is the longest one
there. Two theorems:

* `splits_pieces` — the pieces that a text is cut into are all of this form;
* `pieces_of_splits` — no other split of the text is.
-/

namespace LoxLang

namespace Lexis

/-- **The lexemes**: the texts of tokens, each with its kind and its literal. -/
inductive IsLexeme : Kind → Option Literal → List Char → Prop
  | mark {c : Char} {kind : Kind} (h : mark? c = some kind) : IsLexeme kind none [c]
  | alone {c : Char} {kind kind' : Kind} (h : comparison? c = some (kind, kind')) :
    IsLexeme kind none [c]
  | withEqual {c : Char} {kind kind' : Kind} (h : comparison? c = some (kind, kind')) :
    IsLexeme kind' none [c, '=']
  | slash : IsLexeme .slash none ['/']
  | string {body : List Char} (h : '"' ∉ body) :
    IsLexeme .string (some (.string (String.ofList body))) ('"' :: body ++ ['"'])
  | whole {d : Char} {ds : List Char} (h : ∀ c ∈ d :: ds, c.isDigit) :
    IsLexeme .number (some (.number (nearest (digitsValue (d :: ds)) 1))) (d :: ds)
  | fraction {d e : Char} {ds es : List Char} (h : ∀ c ∈ d :: ds, c.isDigit)
    (h' : ∀ c ∈ e :: es, c.isDigit) :
    IsLexeme .number
      (some (.number
        (nearest (digitsValue (d :: ds ++ e :: es)) (Nat.pow 10 (e :: es).length))))
      (d :: ds ++ '.' :: e :: es)
  | word {c : Char} {cs : List Char} (hc : isWordStart c) (h : ∀ c ∈ cs, isWordChar c) :
    IsLexeme (Kind.ofWord (String.ofList (c :: cs)))
      (wordLiteral (Kind.ofWord (String.ofList (c :: cs)))) (c :: cs)

/-! ## The piece at the front, class by class -/

section

variable {c : Char} (cs : List Char)

/-- What is cut off depends on the first character: a blank is cut off alone. -/
theorem cut_of_isBlank (h : isBlank c) : cut c cs = .blank c := by
  simp [cut, h]

/-- A mark is cut off alone. -/
theorem cut_of_mark? {kind : Kind} (h : mark? c = some kind) :
    cut c cs = .lexeme kind none [c] := by
  unfold mark? at h
  split at h <;> cases h <;> rfl

/-- A comparison is cut off with the equals sign behind it, if there is one. -/
theorem cut_of_comparison? {kind kind' : Kind} (h : comparison? c = some (kind, kind')) :
    cut c cs =
      if cs.head? = some '=' then .lexeme kind' none [c, '='] else .lexeme kind none [c] := by
  unfold comparison? at h
  split at h <;> cases h <;> rfl

theorem cut_slash : cut '/' cs =
    if cs.head? = some '/' then .comment (cs.tail.takeWhile (· ≠ '\n'))
    else .lexeme .slash none ['/'] := rfl

theorem cut_quote : cut '"' cs = stringPiece cs := rfl

/-- A character that opens no blank, no mark, no comment and no string. -/
structure Unmarked (c : Char) : Prop where
  blank : isBlank c = false
  mark : mark? c = none
  comparison : comparison? c = none
  slash : c ≠ '/'
  quote : c ≠ '"'

/-- The characters of a class are unmarked if it holds none of these. -/
theorem unmarked_of_class {f : Char → Bool} (h : f c)
    (hf : [' ', '\r', '\t', '\n', '(', ')', '\x7b', '\x7d', ',', '.', '-', '+', ';', '*', '?', ':',
      '!', '=', '>', '<', '/', '"'].any f = false) : Unmarked c := by
  have hne : ∀ d, f d = false → c ≠ d := by
    rintro d hd rfl
    rw [hd] at h
    cases h
  simp only [List.any_cons, Bool.or_eq_false_iff] at hf
  refine ⟨by simp [isBlank, hne, hf], ?_, ?_, by simp [hne, hf], by simp [hne, hf]⟩
  · unfold mark?
    split <;> simp_all
  · unfold comparison?
    split <;> simp_all

/-- A digit opens a number and nothing else. -/
theorem unmarked_of_isDigit (h : c.isDigit) : Unmarked c :=
  unmarked_of_class h rfl

/-- The first character of a word opens the word and nothing else. -/
theorem unmarked_of_isWordStart (h : isWordStart c) : Unmarked c :=
  unmarked_of_class h rfl

/-- An unmarked character opens a number or a word, or it is stray. -/
theorem Unmarked.cut_eq (h : Unmarked c) : cut c cs = if c.isDigit then numberPiece c cs
    else if isWordStart c then wordPiece c cs else .stray c := by
  simp [cut, h.blank, h.mark, h.comparison, h.slash, h.quote]

theorem cut_of_isDigit (h : c.isDigit) : cut c cs = numberPiece c cs := by
  rw [(unmarked_of_isDigit h).cut_eq, if_pos h]

/-- No digit starts a word. -/
theorem isDigit_of_isWordStart (h : isWordStart c) : c.isDigit = false := by
  rcases Bool.or_eq_true_iff.mp h with halpha | hunderscore
  · simp only [Char.isAlpha, Char.isUpper, Char.isLower, Char.isDigit] at halpha ⊢
    grind
  · rw [of_decide_eq_true hunderscore]
    rfl

theorem cut_of_isWordStart (h : isWordStart c) : cut c cs = wordPiece c cs := by
  rw [(unmarked_of_isWordStart h).cut_eq, isDigit_of_isWordStart h, if_pos h]
  rfl

/-- A character that opens nothing. -/
def IsStray (c : Char) : Prop :=
  Unmarked c ∧ c.isDigit = false ∧ isWordStart c = false

theorem IsStray.cut_eq (h : IsStray c) : cut c cs = .stray c := by
  simp [h.1.cut_eq, h.2.1, h.2.2]

/-- **What a character opens.** -/
theorem opening_cases (c : Char) : isBlank c ∨ (∃ kind, mark? c = some kind) ∨
    (∃ kind kind', comparison? c = some (kind, kind')) ∨ c = '/' ∨ c = '"' ∨ c.isDigit ∨
    isWordStart c ∨ IsStray c := by
  cases hmark : mark? c with
  | some kind => exact .inr (.inl ⟨kind, rfl⟩)
  | none =>
    cases hcomparison : comparison? c with
    | some kinds => exact .inr (.inr (.inl ⟨_, _, rfl⟩))
    | none =>
      have hunmarked (hblank : isBlank c = false) (hslash : c ≠ '/') (hquote : c ≠ '"') :
          Unmarked c := ⟨hblank, hmark, hcomparison, hslash, hquote⟩
      simp only [IsStray]
      grind

end

/-! ## Where a class of characters ends -/

section

variable {f : Char → Bool} {body rest : List Char}

/-- The first character of a text, if it has one, is not in the class. -/
def Ends (f : Char → Bool) (rest : List Char) : Prop :=
  ∀ c, rest.head? = some c → f c = false

theorem ends_nil (f : Char → Bool) : Ends f [] := by
  simp [Ends]

/-- What ends a wider class ends a narrower one. -/
theorem Ends.mono {g : Char → Bool} (hrest : Ends g rest) (h : ∀ c, f c → g c) : Ends f rest := by
  intro c hc
  by_contra hf
  exact Bool.false_ne_true ((hrest c hc).symm.trans (h c (by simpa using hf)))

/-- Behind the longest stretch of a class the class has ended. -/
theorem ends_dropWhile (cs : List Char) : Ends f (cs.dropWhile f) := by
  intro c hc
  have hhead := List.head?_dropWhile_not f cs
  rwa [hc] at hhead

/-- A stretch of a class that ends there is the longest one. -/
theorem Ends.takeWhile_append (hrest : Ends f rest) (hbody : ∀ c ∈ body, f c) :
    (body ++ rest).takeWhile f = body := by
  rw [List.takeWhile_append_of_pos hbody]
  cases rest with
  | nil => simp
  | cons c rest => simp [hrest c rfl]

theorem Ends.dropWhile_append (hrest : Ends f rest) (hbody : ∀ c ∈ body, f c) :
    (body ++ rest).dropWhile f = rest := by
  rw [List.dropWhile_append_of_pos hbody]
  cases rest with
  | nil => rfl
  | cons c rest => simp [hrest c rfl]

/-- What a class takes off a text is no shorter than any other text of the class at its front. -/
theorem length_le_takeWhile {cs : List Char} (hbody : ∀ c ∈ body, f c) (h : body <+: cs) :
    body.length ≤ (cs.takeWhile f).length := by
  obtain ⟨rest, rfl⟩ := h
  rw [List.takeWhile_append_of_pos hbody, List.length_append]
  exact Nat.le_add_right _ _

end

/-! ## Each class of lexemes in its place -/

section

variable {c d e : Char} {cs ds es rest : List Char}

theorem ne_quote_of_notMem {body : List Char} (h : '"' ∉ body) :
    ∀ c ∈ body, decide (c ≠ '"') = true :=
  fun _ hc => decide_eq_true fun heq => h (heq ▸ hc)

/-- A string ends with the first quote behind its own. -/
theorem stringPiece_closed {body : List Char} (h : '"' ∉ body) :
    stringPiece (body ++ '"' :: rest) =
      .lexeme .string (some (.string (String.ofList body))) ('"' :: body ++ ['"']) := by
  have hquote : Ends (· ≠ '"') ('"' :: rest) := by simp [Ends]
  have hbody := ne_quote_of_notMem h
  simp only [stringPiece, hquote.dropWhile_append hbody, hquote.takeWhile_append hbody]

/-- A string without a quote is not terminated. -/
theorem stringPiece_open {body : List Char} (h : '"' ∉ body) :
    stringPiece body = .unterminated body := by
  have hnil : body.dropWhile (· ≠ '"') = [] :=
    List.dropWhile_eq_nil_iff.mpr (ne_quote_of_notMem h)
  simp only [stringPiece, hnil]

/-- Places are there if a digit follows the point. -/
theorem fraction_places (h : ∀ c ∈ e :: es, c.isDigit) (hrest : Ends Char.isDigit rest) :
    fraction ('.' :: e :: es ++ rest) = e :: es := by
  rw [List.forall_mem_cons] at h
  simp [fraction, h.1, hrest.takeWhile_append h.2]

/-- A number ends with its digits, unless a point and more of them follow. -/
theorem numberPiece_whole (h : ∀ c ∈ ds, c.isDigit) (hrest : Ends Char.isDigit rest)
    (hplaces : fraction rest = []) : numberPiece d (ds ++ rest) =
      .lexeme .number (some (.number (nearest (digitsValue (d :: ds)) 1))) (d :: ds) := by
  simp [numberPiece, hrest.takeWhile_append h, hrest.dropWhile_append h, hplaces]

/-- A number with places is cut off whole. -/
theorem numberPiece_fraction (h : ∀ c ∈ ds, c.isDigit) (h' : ∀ c ∈ e :: es, c.isDigit)
    (hrest : Ends Char.isDigit rest) : numberPiece d (ds ++ '.' :: e :: es ++ rest) =
      .lexeme .number
        (some (.number
          (nearest (digitsValue (d :: ds ++ e :: es)) (Nat.pow 10 (e :: es).length))))
        (d :: ds ++ '.' :: e :: es) := by
  have hpoint : Ends Char.isDigit ('.' :: e :: es ++ rest) := by simp [Ends]
  rw [List.append_assoc]
  simp only [numberPiece, hpoint.takeWhile_append h, hpoint.dropWhile_append h,
    fraction_places h' hrest]
  rfl

/-- A word is cut off whole. -/
theorem wordPiece_exact (h : ∀ c ∈ cs, isWordChar c) (hrest : Ends isWordChar rest) :
    wordPiece c (cs ++ rest) = .lexeme (Kind.ofWord (String.ofList (c :: cs)))
      (wordLiteral (Kind.ofWord (String.ofList (c :: cs)))) (c :: cs) := by
  simp only [wordPiece, hrest.takeWhile_append h]

end

/-! ## The longest lexeme -/

section

variable {kind : Kind} {literal : Option Literal} {text : List Char} {c : Char} {cs : List Char}

/-- Every text is a stretch of a class and what is behind it. -/
theorem exists_ends (f : Char → Bool) (cs : List Char) :
    ∃ body rest, cs = body ++ rest ∧ (∀ c ∈ body, f c) ∧ Ends f rest :=
  ⟨_, _, List.takeWhile_append_dropWhile.symm, fun _ => List.mem_takeWhile_imp, ends_dropWhile cs⟩

/-- What follows the whole digits of a number. -/
theorem fraction_cases (cs : List Char) : fraction cs = [] ∨ ∃ e es rest,
    cs = '.' :: e :: es ++ rest ∧ (∀ c ∈ e :: es, c.isDigit) ∧ Ends Char.isDigit rest := by
  by_cases hnil : fraction cs = []
  · exact .inl hnil
  · unfold fraction at hnil
    split at hnil
    · next e cs' =>
      by_cases he : e.isDigit
      · obtain ⟨es, rest, rfl, hes, hrest⟩ := exists_ends Char.isDigit cs'
        exact .inr ⟨e, es, rest, rfl, List.forall_mem_cons.mpr ⟨he, hes⟩, hrest⟩
      · simp [he] at hnil
    · exact absurd rfl hnil

/-- The number at a digit, with the text behind it. -/
theorem isLexeme_numberPiece (hc : c.isDigit) (cs : List Char) :
    ∃ literal text, numberPiece c cs = .lexeme .number literal text ∧
      IsLexeme .number literal text ∧ (cs.takeWhile Char.isDigit).length < text.length := by
  obtain ⟨ds, rest, rfl, hds, hrest⟩ := exists_ends Char.isDigit cs
  have hall : ∀ d ∈ c :: ds, d.isDigit := List.forall_mem_cons.mpr ⟨hc, hds⟩
  rw [hrest.takeWhile_append hds]
  rcases fraction_cases rest with hnil | ⟨e, es, rest, rfl, hes, hrest⟩
  · exact ⟨_, _, numberPiece_whole hds hrest hnil, .whole hall, Nat.lt_succ_self _⟩
  · rw [← List.append_assoc, numberPiece_fraction hds hes hrest]
    exact ⟨_, _, rfl, .fraction hall hes, by simp⟩

/-- **The longest lexeme is cut off**: where a lexeme stands at the front of a text, the piece there
is a lexeme at least as long, or a comment. -/
theorem IsLexeme.length_le_cut (h : IsLexeme kind literal text) (hfront : text <+: c :: cs) :
    (∃ kind' literal' text', cut c cs = .lexeme kind' literal' text' ∧
      text.length ≤ text'.length) ∨ ∃ body, cut c cs = .comment body := by
  obtain ⟨rest, htext⟩ := hfront
  cases h with
  | mark h =>
    obtain ⟨rfl, -⟩ := List.cons.inj htext
    exact .inl ⟨_, _, _, cut_of_mark? cs h, le_rfl⟩
  | alone h =>
    obtain ⟨rfl, -⟩ := List.cons.inj htext
    rw [cut_of_comparison? cs h]
    split
    · exact .inl ⟨_, _, _, rfl, by simp⟩
    · exact .inl ⟨_, _, _, rfl, le_rfl⟩
  | withEqual h =>
    obtain ⟨rfl, rfl⟩ := List.cons.inj htext
    exact .inl ⟨_, _, _, cut_of_comparison? _ h, le_rfl⟩
  | slash =>
    obtain ⟨rfl, -⟩ := List.cons.inj htext
    rw [cut_slash]
    split
    · exact .inr ⟨_, rfl⟩
    · exact .inl ⟨_, _, _, rfl, le_rfl⟩
  | @string body h =>
    obtain ⟨rfl, rfl⟩ : '"' = c ∧ body ++ '"' :: rest = cs := by simpa using htext
    exact .inl ⟨_, _, _, (cut_quote _).trans (stringPiece_closed h), le_rfl⟩
  | @whole d ds h =>
    obtain ⟨rfl, rfl⟩ := List.cons.inj htext
    obtain ⟨hd, hds⟩ := List.forall_mem_cons.mp h
    obtain ⟨_, _, hcut, -, hlength⟩ := isLexeme_numberPiece hd (ds ++ rest)
    have hle := length_le_takeWhile hds (List.prefix_append ds rest)
    rw [cut_of_isDigit _ hd]
    exact .inl ⟨_, _, _, hcut, by rw [List.length_cons]; omega⟩
  | @fraction d e ds es h h' =>
    obtain ⟨rfl, rfl⟩ : d = c ∧ ds ++ '.' :: e :: (es ++ rest) = cs := by simpa using htext
    obtain ⟨hd, hds⟩ := List.forall_mem_cons.mp h
    obtain ⟨he, hes⟩ := List.forall_mem_cons.mp h'
    -- more digits may follow the places of this lexeme
    obtain ⟨more, rest, rfl, hmore, hrest⟩ := exists_ends Char.isDigit rest
    have hall : ∀ c ∈ e :: (es ++ more), c.isDigit :=
      List.forall_mem_cons.mpr ⟨he, List.forall_mem_append.mpr ⟨hes, hmore⟩⟩
    have hcut := numberPiece_fraction (d := d) hds hall hrest
    rw [cut_of_isDigit _ hd]
    exact .inl ⟨_, _, _, by simpa using hcut, by simp⟩
  | @word d ds hd h =>
    obtain ⟨rfl, rfl⟩ := List.cons.inj htext
    rw [cut_of_isWordStart _ hd]
    exact .inl ⟨_, _, _, rfl,
      Nat.succ_le_succ (length_le_takeWhile h (List.prefix_append ds rest))⟩

end

/-! ## Splits -/

/-- **A piece in its place** before the rest of a text: what it looks like, and why it ends there. A
lexeme is the longest one; a slash does not open a comment. -/
def StandsBefore (rest : List Char) : Piece → Prop
  | .blank c => c = ' ' ∨ c = '\r' ∨ c = '\t' ∨ c = '\n'
  | .comment body => '\n' ∉ body ∧ (rest = [] ∨ rest.head? = some '\n')
  | .lexeme kind literal text =>
    IsLexeme kind literal text ∧
      (∀ kind' literal' text', IsLexeme kind' literal' text' → text' <+: text ++ rest →
        text'.length ≤ text.length) ∧
      (text = ['/'] → rest.head? ≠ some '/')
  | .unterminated body => '"' ∉ body ∧ rest = []
  | .stray c => isBlank c = false ∧ c ≠ '"' ∧
    ∀ kind literal text, IsLexeme kind literal text → ¬ text <+: c :: rest

/-- The lexeme that is cut off a text is in its place, if it is one and no comment. -/
theorem standsBefore_lexeme {c : Char} {cs rest text : List Char} {kind : Kind}
    {literal : Option Literal} (hcut : cut c cs = .lexeme kind literal text)
    (hrest : text ++ rest = c :: cs) (h : IsLexeme kind literal text)
    (hslash : text = ['/'] → rest.head? ≠ some '/') :
    StandsBefore rest (.lexeme kind literal text) := by
  refine ⟨h, fun kind' literal' text' h' hfront => ?_, hslash⟩
  rw [hrest] at hfront
  obtain ⟨_, _, _, hcut', hle⟩ | ⟨_, hcut'⟩ := h'.length_le_cut hfront
  all_goals cases hcut.symm.trans hcut'
  exact hle

/-- **Every piece that is cut off stands in its place.** -/
theorem standsBefore_cut {c : Char} {cs rest : List Char}
    (hrest : (cut c cs).text ++ rest = c :: cs) : StandsBefore rest (cut c cs) := by
  obtain hblank | ⟨kind, hmark⟩ | ⟨kind, kind', hcomparison⟩ | rfl | rfl | hdigit | hword |
    hstray := opening_cases c
  · rw [cut_of_isBlank cs hblank]
    simpa [StandsBefore, isBlank, or_assoc] using hblank
  · have hcut := cut_of_mark? cs hmark
    rw [hcut] at hrest ⊢
    refine standsBefore_lexeme hcut hrest (.mark hmark) fun hslash => ?_
    cases hslash
    cases hmark
  · have hcut := cut_of_comparison? cs hcomparison
    split at hcut
    · rw [hcut] at hrest ⊢
      exact standsBefore_lexeme hcut hrest (.withEqual hcomparison) (by simp)
    · rw [hcut] at hrest ⊢
      refine standsBefore_lexeme hcut hrest (.alone hcomparison) fun hslash => ?_
      cases hslash
      cases hcomparison
  · have hcut := cut_slash cs
    split at hcut
    · next hhead =>
      rw [hcut] at hrest ⊢
      obtain ⟨cs, rfl⟩ := List.head?_eq_some_iff.mp hhead
      have hrest : cs.takeWhile (· ≠ '\n') ++ rest = cs := by simpa [Piece.text] using hrest
      have hends : rest = cs.dropWhile (· ≠ '\n') :=
        List.append_cancel_left (hrest.trans List.takeWhile_append_dropWhile.symm)
      refine ⟨fun hmem => by simpa using List.mem_takeWhile_imp hmem, ?_⟩
      cases rest with
      | nil => exact .inl rfl
      | cons d rest =>
        have hd := ends_dropWhile (f := (· ≠ '\n')) cs d (by rw [← hends]; rfl)
        exact .inr (congrArg some (by simpa using hd))
    · next hhead =>
      rw [hcut] at hrest ⊢
      obtain ⟨-, rfl⟩ := List.cons.inj hrest
      exact standsBefore_lexeme hcut hrest .slash fun _ => hhead
  · by_cases hmem : '"' ∈ cs
    · obtain ⟨body, after, rfl, hbody⟩ := List.eq_append_cons_of_mem hmem
      have hcut := (cut_quote (body ++ '"' :: after)).trans (stringPiece_closed hbody)
      rw [hcut] at hrest ⊢
      exact standsBefore_lexeme hcut hrest (.string hbody) (by simp)
    · have hcut := (cut_quote cs).trans (stringPiece_open hmem)
      rw [hcut] at hrest ⊢
      exact ⟨hmem, by simpa [Piece.text] using hrest⟩
  · obtain ⟨literal, text, hcut, hlexeme, -⟩ := isLexeme_numberPiece hdigit cs
    rw [← cut_of_isDigit cs hdigit] at hcut
    rw [hcut] at hrest ⊢
    refine standsBefore_lexeme hcut hrest hlexeme fun hslash => ?_
    subst hslash
    obtain ⟨rfl, -⟩ := List.cons.inj hrest
    cases hdigit
  · have hcut := cut_of_isWordStart cs hword
    rw [hcut] at hrest ⊢
    have hlexeme := IsLexeme.word hword fun _ => List.mem_takeWhile_imp (l := cs)
    refine standsBefore_lexeme hcut hrest hlexeme fun hslash => ?_
    obtain ⟨rfl, -⟩ := List.cons.inj hslash
    cases hword
  · rw [hstray.cut_eq] at hrest ⊢
    obtain ⟨-, rfl⟩ := List.cons.inj hrest
    -- If a lexeme began here, the cut would be as long as it.
    refine ⟨hstray.1.blank, hstray.1.quote, fun kind literal text h hfront => ?_⟩
    obtain ⟨_, _, _, hcut, -⟩ | ⟨_, hcut⟩ := h.length_le_cut hfront
    all_goals cases (hstray.cut_eq rest).symm.trans hcut

/-- A lexeme is cut off whole if a blank follows it, or nothing. -/
theorem IsLexeme.cut_append {kind : Kind} {literal : Option Literal} {c : Char}
    {cs rest : List Char} (h : IsLexeme kind literal (c :: cs)) (hrest : Ends (!isBlank ·) rest) :
    cut c (cs ++ rest) = .lexeme kind literal (c :: cs) := by
  have hhead (d : Char) (hd : isBlank d = false) : rest.head? ≠ some d := by
    intro hhead
    have hblank := hrest d hhead
    simp [hd] at hblank
  have hclass {f : Char → Bool} (hf : ∀ d, f d → Unmarked d) : Ends f rest :=
    hrest.mono fun d hd => by simp [(hf d hd).blank]
  generalize htext : c :: cs = text at h
  cases h with
  | mark h =>
    cases htext
    exact cut_of_mark? _ h
  | alone h =>
    cases htext
    exact (cut_of_comparison? _ h).trans (if_neg (hhead '=' rfl))
  | withEqual h =>
    cases htext
    exact cut_of_comparison? _ h
  | slash =>
    cases htext
    exact (cut_slash _).trans (if_neg (hhead '/' rfl))
  | @string body h =>
    obtain ⟨rfl, rfl⟩ : c = '"' ∧ cs = body ++ ['"'] := by simpa using htext
    rw [cut_quote, List.append_assoc]
    exact stringPiece_closed h
  | whole h =>
    cases htext
    obtain ⟨hd, hds⟩ := List.forall_mem_cons.mp h
    have hplaces : Lexis.fraction rest = [] := by
      rcases fraction_cases rest with hnil | ⟨e, es, after, rfl, -⟩
      · exact hnil
      · exact absurd rfl (hhead '.' rfl)
    rw [cut_of_isDigit _ hd]
    exact numberPiece_whole hds (hclass fun _ => unmarked_of_isDigit) hplaces
  | fraction h h' =>
    cases htext
    obtain ⟨hd, hds⟩ := List.forall_mem_cons.mp h
    rw [cut_of_isDigit _ hd]
    exact numberPiece_fraction hds h' (hclass fun _ => unmarked_of_isDigit)
  | word hc h =>
    cases htext
    rw [cut_of_isWordStart _ hc]
    exact wordPiece_exact h (hclass fun _ h => unmarked_of_class h rfl)

/-- A lexeme that is the whole of a text is cut off whole. -/
theorem IsLexeme.cut_eq {kind : Kind} {literal : Option Literal} {c : Char} {cs : List Char}
    (h : IsLexeme kind literal (c :: cs)) : cut c cs = .lexeme kind literal (c :: cs) := by
  simpa using h.cut_append (ends_nil _)

/-- No lexeme is empty. -/
theorem IsLexeme.exists_cons {kind : Kind} {literal : Option Literal} {text : List Char}
    (h : IsLexeme kind literal text) : ∃ c cs, text = c :: cs := by
  cases h <;> exact ⟨_, _, rfl⟩

/-- **The text of a token determines its kind and its literal.** -/
theorem IsLexeme.unique {kind kind' : Kind} {literal literal' : Option Literal} {text : List Char}
    (h : IsLexeme kind literal text) (h' : IsLexeme kind' literal' text) :
    kind = kind' ∧ literal = literal' := by
  obtain ⟨c, cs, rfl⟩ := h.exists_cons
  cases h.cut_eq.symm.trans h'.cut_eq
  exact ⟨rfl, rfl⟩

/-- No longer lexeme starts with a slash. -/
theorem IsLexeme.eq_slash {kind : Kind} {literal : Option Literal} {cs : List Char}
    (h : IsLexeme kind literal ('/' :: cs)) : cs = [] := by
  have hcut := h.cut_eq
  rw [cut_slash] at hcut
  split at hcut <;> cases hcut
  rfl

/-- **A piece in its place is cut off there.** -/
theorem cut_of_standsBefore {p : Piece} {rest : List Char} (h : StandsBefore rest p) :
    ∃ c cs, p.text = c :: cs ∧ cut c (cs ++ rest) = p := by
  cases p with
  | blank c =>
    refine ⟨c, [], rfl, cut_of_isBlank _ ?_⟩
    simpa [StandsBefore, isBlank, or_assoc] using h
  | comment body =>
    obtain ⟨hbody, hends⟩ := h
    have hends : Ends (· ≠ '\n') rest := by
      rcases hends with rfl | hhead
      · exact ends_nil _
      · intro c hc
        cases hhead.symm.trans hc
        rfl
    have htake : (body ++ rest).takeWhile (· ≠ '\n') = body :=
      hends.takeWhile_append fun c hc => decide_eq_true fun heq => hbody (heq ▸ hc)
    exact ⟨'/', '/' :: body, rfl, congrArg Piece.comment htake⟩
  | lexeme kind literal text =>
    obtain ⟨hlexeme, hmax, hslash⟩ := h
    obtain ⟨c, cs, rfl⟩ := hlexeme.exists_cons
    refine ⟨c, cs, rfl, ?_⟩
    -- What is cut off here stands in its place too. Both are the longest lexeme, so they are the
    -- same.
    obtain ⟨rest', hrest'⟩ := cut_isPrefix c (cs ++ rest)
    have hstands := standsBefore_cut hrest'
    have hfront : c :: cs <+: c :: (cs ++ rest) := ⟨rest, rfl⟩
    obtain ⟨kind', literal', text', hcut, hle⟩ | ⟨body, hcut⟩ := hlexeme.length_le_cut hfront
    · rw [hcut] at hrest' hstands ⊢
      have hlength := le_antisymm (hmax _ _ _ hstands.1 ⟨rest', hrest'⟩) hle
      obtain rfl := (List.append_inj hrest' hlength).1
      obtain ⟨rfl, rfl⟩ := hlexeme.unique hstands.1
      rfl
    · rw [hcut] at hrest'
      obtain ⟨rfl, hbody⟩ := List.cons.inj hrest'
      obtain rfl := hlexeme.eq_slash
      have hsecond : '/' :: (body ++ rest') = rest := hbody
      subst hsecond
      exact absurd rfl (hslash rfl)
  | unterminated body =>
    obtain ⟨hbody, rfl⟩ := h
    refine ⟨'"', body, rfl, ?_⟩
    rw [List.append_nil, cut_quote]
    exact stringPiece_open hbody
  | stray c =>
    obtain ⟨hblank, hquote, hnone⟩ := h
    refine ⟨c, [], rfl, ?_⟩
    have hone : [c] <+: c :: rest := ⟨rest, rfl⟩
    obtain h | ⟨kind, h⟩ | ⟨kind, kind', h⟩ | rfl | rfl | h | h | hstray :=
      opening_cases c
    · simp [h] at hblank
    · exact absurd hone (hnone _ _ _ (.mark h))
    · exact absurd hone (hnone _ _ _ (.alone h))
    · exact absurd hone (hnone _ _ _ .slash)
    · contradiction
    · exact absurd hone (hnone _ _ _ (.whole (by simpa using h)))
    · exact absurd hone (hnone _ _ _ (.word h (by simp)))
    · exact hstray.cut_eq _

/-- **A split of a text**: pieces that stand in their places, one before the other. -/
def Splits : List Piece → Prop
  | [] => True
  | p :: ps => StandsBefore (ps.flatMap Piece.text) p ∧ Splits ps

/-- **The pieces that a text is cut into stand in their places.** -/
theorem splits_pieces (cs : List Char) : Splits (pieces cs) := by
  match cs with
  | [] => trivial
  | c :: cs =>
    have hpos : 0 < (cut c cs).text.length := List.length_pos_iff.mpr (cut_text_ne_nil c cs)
    have hsplit := flatten_pieces (c :: cs)
    rw [pieces_cons, List.flatMap_cons] at hsplit
    rw [pieces_cons]
    exact ⟨standsBefore_cut hsplit, splits_pieces _⟩
termination_by cs.length
decreasing_by
  simp only [List.length_drop, List.length_cons]
  omega

/-- **There is one split of a text.** -/
theorem pieces_of_splits : ∀ {ps : List Piece}, Splits ps → pieces (ps.flatMap Piece.text) = ps
  | [], _ => rfl
  | p :: ps, ⟨hp, hps⟩ => by
    obtain ⟨c, cs, htext, hcut⟩ := cut_of_standsBefore hp
    rw [List.flatMap_cons, htext, List.cons_append, pieces_cons, hcut, htext, ← List.cons_append,
      List.drop_left, pieces_of_splits hps]

/-- Among the pieces of a split there are only lexemes. -/
theorem isLexeme_of_mem_splits {ps : List Piece} (h : Splits ps) {kind : Kind}
    {literal : Option Literal} {text : List Char} (hmem : .lexeme kind literal text ∈ ps) :
    IsLexeme kind literal text := by
  induction ps with
  | nil => cases hmem
  | cons p ps ih =>
    rcases List.mem_cons.mp hmem with rfl | hmem
    · exact h.1.1
    · exact ih h.2 hmem

end Lexis

end LoxLang
