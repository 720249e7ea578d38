import Mathlib
import LoxLang.Proofs.Lexis.Joining
import LoxLang.Proofs.Lexis.Lexeme

/-!
# Proofs/Lexis/Rescanning — tokens written out and scanned again

Every token of a text but the end token is a lexeme (`isLexeme_of_mem_scan`), and a lexeme is cut off
whole where a blank follows it. So the lexemes of any tokens, written with blanks between them, are
scanned back to these tokens (`scan_spaced`).
-/

namespace LoxLang

namespace Lexis

/-- A token of some pieces is a lexeme among them, or the end token. -/
theorem exists_lexeme_of_mem_items {t : Token} (ht : t.kind ≠ .eof) {ps : List Piece} {line : Nat}
    (h : .ok t ∈ items line ps) :
    ∃ text, .lexeme t.kind t.literal text ∈ ps ∧ t.lexeme = String.ofList text := by
  induction ps generalizing line with
  | nil =>
    cases List.mem_singleton.mp h
    exact absurd rfl ht
  | cons p ps ih =>
    rcases List.mem_append.mp h with hitem | hrest
    · cases p with
      | lexeme kind literal text =>
        cases Option.mem_toList.mp hitem
        exact ⟨text, List.mem_cons_self, rfl⟩
      | blank | comment | unterminated | stray => cases Option.mem_toList.mp hitem
    · obtain ⟨text, hmem, htext⟩ := ih hrest
      exact ⟨text, List.mem_cons_of_mem _ hmem, htext⟩

/-- **Every token that is scanned, but the end token, is a lexeme.** -/
theorem isLexeme_of_mem_scan {t : Token} (ht : t.kind ≠ .eof) {source : String}
    (h : .ok t ∈ scan source) : IsLexeme t.kind t.literal t.lexeme.toList := by
  obtain ⟨text, hmem, htext⟩ := exists_lexeme_of_mem_items ht h
  rw [htext, String.toList_ofList]
  exact isLexeme_of_mem_splits (splits_pieces _) hmem

/-- **Texts that spell tokens**: blanks may stand before each lexeme, and what follows a lexeme starts
with a blank or is empty. -/
inductive Spaced : List Token → List Char → Prop
  | nil {blanks : List Char} (hblanks : ∀ c ∈ blanks, isBlank c) : Spaced [] blanks
  | cons {t : Token} {ts : List Token} {blanks rest : List Char} (hblanks : ∀ c ∈ blanks, isBlank c)
    (hrest : Ends (!isBlank ·) rest) (h : Spaced ts rest) :
    Spaced (t :: ts) (blanks ++ (t.lexeme.toList ++ rest))

/-- A blank more does not matter. -/
theorem Spaced.blank {c : Char} {ts : List Token} {cs : List Char} (hc : isBlank c)
    (h : Spaced ts cs) : Spaced ts (c :: cs) := by
  cases h with
  | nil hblanks => exact .nil (List.forall_mem_cons.mpr ⟨hc, hblanks⟩)
  | cons hblanks hrest h =>
    rw [← List.cons_append]
    exact .cons (List.forall_mem_cons.mpr ⟨hc, hblanks⟩) hrest h

/-- Lexemes with a space between them. -/
theorem spaced_intercalate : ∀ ts : List Token,
    Spaced ts (" ".intercalate (ts.map Token.lexeme)).toList
  | [] => .nil (by simp)
  | [t] => by
    have h : Spaced [t] ([] ++ (t.lexeme.toList ++ [])) :=
      .cons (by simp) (ends_nil _) (.nil (by simp))
    simpa using h
  | t :: u :: ts => by
    have hrest : Spaced (u :: ts) (' ' :: (" ".intercalate ((u :: ts).map Token.lexeme)).toList) :=
      (spaced_intercalate (u :: ts)).blank rfl
    have h : Spaced (t :: u :: ts) ([] ++ (t.lexeme.toList ++
        ' ' :: (" ".intercalate ((u :: ts).map Token.lexeme)).toList)) :=
      .cons (by simp) (by simp [Ends, isBlank]) hrest
    simpa [String.intercalate_cons_cons] using h

/-! ## Pieces and items of spaced texts -/

/-- Blanks are cut off one by one. -/
theorem pieces_blanks {blanks : List Char} (h : ∀ c ∈ blanks, isBlank c) (cs : List Char) :
    pieces (blanks ++ cs) = blanks.map .blank ++ pieces cs := by
  induction blanks with
  | nil => rfl
  | cons c blanks ih =>
    obtain ⟨hc, hblanks⟩ := List.forall_mem_cons.mp h
    rw [List.cons_append, pieces_cons, cut_of_isBlank _ hc]
    exact congrArg (_ :: ·) (ih hblanks)

/-- **A lexeme with a blank behind it is cut off whole.** -/
theorem IsLexeme.pieces_append {kind : Kind} {literal : Option Literal} {text rest : List Char}
    (h : IsLexeme kind literal text) (hrest : Ends (!isBlank ·) rest) :
    pieces (text ++ rest) = .lexeme kind literal text :: pieces rest := by
  obtain ⟨c, cs, rfl⟩ := h.exists_cons
  rw [List.cons_append, pieces_cons, h.cut_append hrest, ← List.cons_append]
  exact congrArg (_ :: pieces ·) List.drop_left

/-- Blanks leave no items. -/
theorem items_blanks (blanks : List Char) (ps : List Piece) (line : Nat) :
    ∃ line', items line (blanks.map .blank ++ ps) = items line' ps := by
  induction blanks generalizing line with
  | nil => exact ⟨line, rfl⟩
  | cons c blanks ih => exact ih _

end Lexis

open Lexis

/-- What a token is apart from its line. -/
def Token.content (t : Token) : Kind × String × Option Literal :=
  (t.kind, t.lexeme, t.literal)

/-- A text is scanned to these tokens without a fault, on whatever lines. -/
def ScansTo (source : String) (ts : List Token) : Prop :=
  ∃ (ts' : List Token) (line : Nat), scan source = ts'.map .ok ++ [.ok (endToken line)] ∧
    ts'.map Token.content = ts.map Token.content

/-- The lexemes that a text spells leave their tokens, on whatever lines. -/
theorem Lexis.Spaced.items_pieces {ts : List Token} {cs : List Char} (h : Spaced ts cs)
    (hts : ∀ t ∈ ts, IsLexeme t.kind t.literal t.lexeme.toList) (line : Nat) :
    ∃ (ts' : List Token) (line' : Nat),
      items line (pieces cs) = ts'.map .ok ++ [.ok (endToken line')] ∧
      ts'.map Token.content = ts.map Token.content := by
  induction h generalizing line with
  | @nil blanks hblanks =>
    have hpieces := pieces_blanks hblanks []
    obtain ⟨line', hitems⟩ := items_blanks blanks (pieces []) line
    rw [List.append_nil] at hpieces
    exact ⟨[], line', by rw [hpieces, hitems]; rfl, rfl⟩
  | @cons t ts blanks rest hblanks hrest h ih =>
    obtain ⟨ht, hts⟩ := List.forall_mem_cons.mp hts
    let p : Piece := .lexeme t.kind t.literal t.lexeme.toList
    obtain ⟨line', hblank⟩ := items_blanks blanks (p :: pieces rest) line
    obtain ⟨ts', line'', hitems, hcontent⟩ := ih hts (line' + p.lineBreaks)
    refine ⟨{ t with line := line' + p.lineBreaks } :: ts', line'', ?_, ?_⟩
    · rw [pieces_blanks hblanks, ht.pieces_append hrest, hblank, items, hitems, item?,
        String.ofList_toList]
      rfl
    · rw [List.map_cons, List.map_cons, hcontent]
      rfl

/-- **Tokens survive rescanning.** Whatever texts they come from, their lexemes with single spaces
between them, or with any other blanks, are scanned to tokens of the same kinds, lexemes and literals,
and the end token; there is no fault. -/
theorem scan_spaced {ts : List Token} (hts : ∀ t ∈ ts, t.kind ≠ .eof ∧ ∃ s, .ok t ∈ scan s) :
    ScansTo (" ".intercalate (ts.map Token.lexeme)) ts ∧
    ∀ source : String, Spaced ts source.toList → ScansTo source ts := by
  have hlexemes : ∀ t ∈ ts, IsLexeme t.kind t.literal t.lexeme.toList := by
    intro t ht
    obtain ⟨hkind, s, hs⟩ := hts t ht
    exact isLexeme_of_mem_scan hkind hs
  have hscans (source : String) (h : Spaced ts source.toList) : ScansTo source ts :=
    h.items_pieces hlexemes 1
  exact ⟨hscans _ (spaced_intercalate ts), hscans⟩

/-- Tokens whose lexemes would be read as a comment, a number and a comparison if they stood side by
side. -/
def clashingTokens : List Token :=
  [⟨.slash, "/", none, 1⟩, ⟨.slash, "/", none, 1⟩, ⟨.number, "1", some (.number (nearest 1 1)), 1⟩,
    ⟨.dot, ".", none, 1⟩, ⟨.number, "2", some (.number (nearest 2 1)), 1⟩, ⟨.bang, "!", none, 1⟩,
    ⟨.equal, "=", none, 1⟩]

theorem scan_spaced_clashingTokens :
    (∀ t ∈ clashingTokens, t.kind ≠ .eof ∧ ∃ s, .ok t ∈ scan s) ∧
    ScansTo "/ / 1 . 2 ! =" clashingTokens ∧ Spaced clashingTokens "/\n/\t1  .\r2 !\n\n=".toList ∧
    ScansTo "/\n/\t1  .\r2 !\n\n=" clashingTokens := by
  have hscan : ∀ t ∈ clashingTokens, t.kind ≠ .eof ∧ .ok t ∈ scan t.lexeme := by
    decide +kernel
  have hts : ∀ t ∈ clashingTokens, t.kind ≠ .eof ∧ ∃ s, .ok t ∈ scan s :=
    fun t ht => ⟨(hscan t ht).1, t.lexeme, (hscan t ht).2⟩
  have htext : "/\n/\t1  .\r2 !\n\n=".toList =
      [] ++ (['/'] ++ (['\n'] ++ (['/'] ++ (['\t'] ++ (['1'] ++ ([' ', ' '] ++ (['.'] ++
        (['\r'] ++ (['2'] ++ ([' '] ++ (['!'] ++ (['\n', '\n'] ++ (['='] ++ []))))))))))))) := by
    decide +kernel
  have hspaced : Spaced clashingTokens "/\n/\t1  .\r2 !\n\n=".toList := by
    rw [htext]
    refine .cons ?_ ?_ (.cons ?_ ?_ (.cons ?_ ?_ (.cons ?_ ?_ (.cons ?_ ?_ (.cons ?_ ?_ (.cons ?_ ?_
      (.nil ?_))))))) <;> simp [Ends, isBlank]
  obtain ⟨hspace, hblanks⟩ := scan_spaced hts
  exact ⟨hts, hspace, hspaced, hblanks _ hspaced⟩

end LoxLang
