import Mathlib
import LoxLang.Proofs.Alike.Reading
import LoxLang.Proofs.Lexis.Spelling

/-!
# Proofs/Lexis/Joining — texts joined by a line break

A line break ends every piece, except a string that goes on behind it. So the pieces of a text, a
line break and another text are those of the first, the break, and those of the second, if every
string in the first has its end there (`pieces_break`). The items of the second text come out on
lines further down, just as if the text stood behind blank lines (`scan_join`), and are otherwise
the same (`items_moved`).
-/

namespace LoxLang

namespace Lexis

/-! ## Pieces -/

section

variable {f : Char → Bool} (hf : f '\n' = false) (cs q : List Char)

include hf

/-- A stretch of characters other than line breaks ends before the break. -/
theorem takeWhile_break : (cs ++ '\n' :: q).takeWhile f = cs.takeWhile f := by
  induction cs with
  | nil => simp [hf]
  | cons c cs ih => simp [List.takeWhile_cons, ih]

theorem dropWhile_break : (cs ++ '\n' :: q).dropWhile f = cs.dropWhile f ++ '\n' :: q := by
  induction cs with
  | nil => simp [hf]
  | cons c cs ih =>
    simp only [List.cons_append, List.dropWhile_cons, ih]
    split <;> rfl

end

variable (c : Char) (cs q : List Char)

/-- Another character is looked at only before the break. -/
theorem head?_break (hc : c ≠ '\n') : (cs ++ '\n' :: q).head? = some c ↔ cs.head? = some c := by
  cases cs with
  | nil => simp [hc.symm]
  | cons d cs => rfl

/-- A number does not go over a break. -/
theorem fraction_break : fraction (cs ++ '\n' :: q) = fraction cs := by
  have htail := takeWhile_break (f := Char.isDigit) (by decide)
  rcases cs with _ | ⟨d, _ | ⟨e, cs⟩⟩
  · rfl
  · by_cases hd : d = '.'
    · subst hd
      rfl
    · simp [fraction, hd]
  · by_cases hd : d = '.'
    · subst hd
      simp only [fraction, List.cons_append, htail]
    · simp [fraction, hd]

theorem numberPiece_break : numberPiece c (cs ++ '\n' :: q) = numberPiece c cs := by
  simp only [numberPiece, takeWhile_break (f := Char.isDigit) (by decide),
    dropWhile_break (f := Char.isDigit) (by decide), fraction_break]

theorem wordPiece_break : wordPiece c (cs ++ '\n' :: q) = wordPiece c cs := by
  simp only [wordPiece, takeWhile_break (f := isWordChar) (by decide)]

variable {c cs}

/-- A string that has its end is cut off before what follows it. -/
theorem stringPiece_append (h : ∀ body, stringPiece cs ≠ .unterminated body) (rest : List Char) :
    stringPiece (cs ++ rest) = stringPiece cs := by
  have hends : cs.dropWhile (· ≠ '"') ≠ [] := by
    intro hnil
    refine h cs ?_
    unfold stringPiece
    rw [hnil]
  have hbody : (cs ++ rest).takeWhile (· ≠ '"') = cs.takeWhile (· ≠ '"') := by
    rw [List.takeWhile_append, if_neg]
    intro hlength
    have hsplit := congrArg List.length (List.takeWhile_append_dropWhile (p := (· ≠ '"')) (l := cs))
    rw [List.length_append, hlength] at hsplit
    exact hends (List.length_eq_zero_iff.mp (by omega))
  unfold stringPiece
  rw [hbody, List.dropWhile_append, if_neg (by simpa using hends)]
  cases hrest : cs.dropWhile (· ≠ '"') with
  | nil => exact absurd hrest hends
  | cons _ _ => rfl

/-- A line break ends every other piece. -/
theorem cut_break (h : ∀ body, cut c cs ≠ .unterminated body) :
    cut c (cs ++ '\n' :: q) = cut c cs := by
  have hequal := head?_break '=' cs q (by decide)
  have hslash := head?_break '/' cs q (by decide)
  have hcomment : cs.head? = some '/' →
      (cs ++ '\n' :: q).tail.takeWhile (· ≠ '\n') = cs.tail.takeWhile (· ≠ '\n') := by
    intro hhead
    obtain ⟨cs', rfl⟩ := List.head?_eq_some_iff.mp hhead
    exact takeWhile_break (by decide) cs' q
  have hstring : c = '"' → stringPiece (cs ++ '\n' :: q) = stringPiece cs := by
    rintro rfl
    exact stringPiece_append h _
  unfold cut
  simp only [hequal, hslash, numberPiece_break, wordPiece_break]
  split
  · rfl
  · split
    · rfl
    · split
      · rfl
      · split
        · split
          · next hhead => rw [hcomment hhead]
          · rfl
        · split
          · next hquote => exact hstring hquote
          · rfl

/-- **The pieces of a text without an open string are the same before a break.** The induction
follows the cuts. -/
theorem piecesAfter_break : ∀ (k : Nat) (cs : List Char), k ≤ cs.length →
    (∀ body, .unterminated body ∉ piecesAfter k cs) →
    piecesAfter k (cs ++ '\n' :: q) = piecesAfter k cs ++ .blank '\n' :: pieces q
  | 0, [], _, _ => rfl
  | k + 1, _ :: cs, hk, h => piecesAfter_break k cs (Nat.le_of_succ_le_succ hk) h
  | 0, c :: cs, _, h => by
    simp only [piecesAfter, List.mem_cons, not_or] at h
    have hcut : cut c (cs ++ '\n' :: q) = cut c cs := cut_break q fun body => (h body).1 ∘ .symm
    have hlength : (cut c cs).text.length ≤ (c :: cs).length := (cut_isPrefix c cs).length_le
    have hrest := piecesAfter_break ((cut c cs).text.length - 1) cs
      (Nat.sub_le_of_le_add hlength) fun body => (h body).2
    simp only [List.cons_append, piecesAfter, hcut, hrest]

/-- **The pieces of a text, a line break and another text.** -/
theorem pieces_break (h : ∀ body, .unterminated body ∉ pieces cs) :
    pieces (cs ++ '\n' :: q) = pieces cs ++ .blank '\n' :: pieces q :=
  piecesAfter_break q 0 cs (Nat.zero_le _) h

/-! ## Items -/

/-- There is an item at least: the end token. -/
theorem items_ne_nil (line : Nat) (ps : List Piece) : items line ps ≠ [] := by
  cases ps with
  | nil => exact List.cons_ne_nil _ _
  | cons p ps => exact List.append_ne_nil_of_right_ne_nil _ (items_ne_nil _ ps)

/-- The items of pieces that follow others take the place of the end token. -/
theorem items_append (qs : List Piece) : ∀ (line : Nat) (ps : List Piece), items line (ps ++ qs) =
    (items line ps).dropLast ++ items (line + (ps.map Piece.lineBreaks).sum) qs
  | _, [] => rfl
  | line, p :: ps => by
    simp only [List.cons_append, items, List.map_cons, List.sum_cons,
      List.dropLast_append_of_ne_nil (items_ne_nil _ ps), List.append_assoc, ← Nat.add_assoc]
    rw [items_append qs _ ps]

/-- A text has as many line breaks as its pieces. -/
theorem sum_lineBreaks_pieces (cs : List Char) :
    ((pieces cs).map Piece.lineBreaks).sum = cs.count '\n' := by
  conv_rhs => rw [← flatten_pieces cs, List.count_flatMap]
  rfl

/-- A string without an end leaves a fault. -/
theorem unterminated_notMem (body : List Char) : ∀ {line : Nat} {ps : List Piece},
    faultsOf (items line ps) = [] → .unterminated body ∉ ps
  | _, [], _ => List.not_mem_nil
  | line, p :: ps, h => by
    simp only [items, faultsOf, List.filterMap_append, List.append_eq_nil_iff] at h
    rintro (_ | ⟨_, hmem⟩)
    · cases h.1
    · exact unterminated_notMem body h.2 hmem

/-- The items of pieces that start on another line. -/
theorem items_moved {lines : Lines} {j k : Nat} (hlines : ∀ a, lines (a + j) (a + k)) :
    ∀ (line : Nat) (ps : List Piece), List.Forall₂
      (ExceptRel (Diagnostic.Alike lines) (Token.Alike lines)) (items (line + j) ps)
      (items (line + k) ps)
  | line, [] => .cons (.ok ⟨rfl, rfl, rfl, hlines line⟩) .nil
  | line, p :: ps => by
    simp only [items, Nat.add_right_comm _ _ p.lineBreaks]
    refine List.rel_append ?_ (items_moved hlines (line + p.lineBreaks) ps)
    have hline := hlines (line + p.lineBreaks)
    cases p with
    | blank | comment => exact .nil
    | lexeme kind literal text => exact .cons (.ok ⟨rfl, rfl, rfl, hline⟩) .nil
    | unterminated | stray => exact .cons (.error (.lex hline _)) .nil

/-! ## The end token -/

/-- No word has the kind of the end token. -/
theorem ofWord_ne_eof (word : String) : Kind.ofWord word ≠ .eof := by
  unfold Kind.ofWord
  cases hl : Kind.reserved.lookup word with
  | none => decide
  | some kind =>
    obtain ⟨l₁, l₂, hsplit, -⟩ := List.lookup_eq_some_iff.mp hl
    have hmem : (word, kind) ∈ Kind.reserved := by
      rw [hsplit]
      simp
    rintro rfl
    simp [Kind.reserved] at hmem

/-- No lexeme of a text is an end token. -/
theorem kind_cut_ne_eof {c : Char} {rest : List Char} {kind : Kind} {literal : Option Literal}
    {text : List Char} (h : cut c rest = .lexeme kind literal text) : kind ≠ .eof := by
  rcases kind_cut h with hmark | rfl
  · exact hmark.2.2
  · exact ofWord_ne_eof _

/-- The end token is the last item, and no item before it is one. -/
theorem kind_items_ne_eof : ∀ (line : Nat) (ps : List Piece), (∀ p ∈ ps, ∃ c rest, p = cut c rest) →
    ∀ t, .ok t ∈ (items line ps).dropLast → t.kind ≠ .eof
  | _, [], _, _, ht => by cases ht
  | line, p :: ps, hps, t, ht => by
    simp only [items, List.dropLast_append_of_ne_nil (items_ne_nil _ ps), List.mem_append,
      Option.mem_toList] at ht
    rcases ht with ht | ht
    · obtain ⟨c, rest, hp⟩ := hps p List.mem_cons_self
      cases p with
      | lexeme kind literal text =>
        simp only [item?, Option.some.injEq, Except.ok.injEq] at ht
        subst ht
        exact kind_cut_ne_eof hp.symm
      | blank | comment | unterminated | stray => simp [item?] at ht
    · exact kind_items_ne_eof _ ps (fun p hp => hps p (List.mem_cons_of_mem _ hp)) t ht

end Lexis

open Lexis

/-! ## Texts -/

/-- The number of line breaks in a text. -/
def lineBreaks (source : String) : Nat :=
  source.toList.count '\n'

/-- A text of line breaks. -/
def blankLines (k : Nat) : String :=
  String.ofList (List.replicate k '\n')

/-- Line breaks are cut off one by one. -/
theorem pieces_replicate_break (cs : List Char) : ∀ k : Nat,
    pieces (List.replicate k '\n' ++ cs) = List.replicate k (.blank '\n') ++ pieces cs
  | 0 => rfl
  | k + 1 => by
    have hcut : ∀ cs, pieces ('\n' :: cs) = .blank '\n' :: pieces cs := fun _ => rfl
    rw [List.replicate_succ, List.cons_append, hcut, pieces_replicate_break cs k]
    rfl

/-- Blank lines leave no items, but move the others down. -/
theorem items_replicate_blank (line k : Nat) (ps : List Piece) :
    items line (List.replicate k (.blank '\n') ++ ps) = items (line + k) ps := by
  induction k generalizing line with
  | zero => rfl
  | succ k ih =>
    have hblank : (Piece.blank '\n').lineBreaks = 1 := by decide
    rw [List.replicate_succ, List.cons_append, items, hblank, ih, Nat.add_assoc, Nat.add_comm 1 k]
    rfl

/-- A text behind blank lines. -/
theorem scan_blankLines (k : Nat) (source : String) :
    scan (blankLines k ++ source) = items (1 + k) (pieces source.toList) := by
  rw [scan, String.toList_append, blankLines, String.toList_ofList, pieces_replicate_break,
    items_replicate_blank]

/-- **A text, a line break and another text**: the items are those of the first, and those that the
second has behind as many blank lines as there are line breaks before it. -/
theorem scan_join {p : String} (hp : faultsOf (scan p) = []) (q : String) :
    scan (p ++ "\n" ++ q) = (scan p).dropLast ++ scan (blankLines (lineBreaks p + 1) ++ q) := by
  have hbreak : pieces (p ++ "\n" ++ q).toList =
      pieces p.toList ++ .blank '\n' :: pieces q.toList := by
    rw [String.toList_append, String.toList_append, List.append_assoc]
    exact pieces_break _ fun body => unterminated_notMem body hp
  have hblank : (Piece.blank '\n').lineBreaks = 1 := by decide
  rw [scan_blankLines, scan, hbreak, items_append, sum_lineBreaks_pieces, items, hblank,
    Nat.add_assoc 1]
  rfl

/-- The end token closes the items. -/
theorem scan_eq_dropLast (source : String) :
    ∃ line, scan source = (scan source).dropLast ++ [.ok (endToken line)] := by
  have hitems := items_append [] 1 (pieces source.toList)
  rw [List.append_nil] at hitems
  exact ⟨_, hitems⟩

/-- The end token is no fault. -/
theorem faultsOf_dropLast {source : String} (h : faultsOf (scan source) = []) :
    faultsOf (scan source).dropLast = [] := by
  obtain ⟨line, hscan⟩ := scan_eq_dropLast source
  rw [hscan, faultsOf, List.filterMap_append, List.append_eq_nil_iff] at h
  exact h.1

/-- The tokens of a text, without the end token. -/
def innerTokens (source : String) : List Token :=
  tokensOf (scan source).dropLast

/-- The tokens of a text are all before the end. -/
theorem takeWhile_innerTokens (source : String) (ts : List Token) :
    (innerTokens source ++ ts).takeWhile (·.kind ≠ .eof) =
      innerTokens source ++ ts.takeWhile (·.kind ≠ .eof) := by
  refine List.takeWhile_append_of_pos fun t ht => ?_
  obtain ⟨item, hitem, ht⟩ := List.mem_filterMap.mp ht
  cases item with
  | error d => cases ht
  | ok t' =>
    cases ht
    exact decide_eq_true (kind_items_ne_eof 1 _ (mem_piecesAfter 0 _) t hitem)

theorem takeWhile_tokensOf_scan (source : String) :
    (tokensOf (scan source)).takeWhile (·.kind ≠ .eof) = innerTokens source := by
  obtain ⟨line, hscan⟩ := scan_eq_dropLast source
  have htokens : tokensOf (scan source) = innerTokens source ++ [endToken line] := by
    conv_lhs => rw [hscan, tokensOf, List.filterMap_append]
    rfl
  rw [htokens, takeWhile_innerTokens]
  exact List.append_nil _

end LoxLang
