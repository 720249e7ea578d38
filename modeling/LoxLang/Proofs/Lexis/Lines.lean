import Mathlib
import LoxLang.Proofs.Lexis.Reading

/-!
# Proofs/Lexis/Lines — the lines of items

An item has the line on which it ends (`scan_lines_exact`): the reader that gives it stands then at
the end of its lexeme, and has counted the line breaks before that place. A line break starts the
count anew, so a text with another one below it is scanned as each of the two is, and only the lines
of the second are moved (`scan_lines_add`).
-/

namespace LoxLang

/-- The line of an item. -/
def ScanItem.line : ScanItem → Nat
  | .ok t => t.line
  | .error d => d.line

/-- An item some lines further down. -/
def ScanItem.moved (k : Nat) : ScanItem → ScanItem
  | .ok t => .ok { t with line := t.line + k }
  | .error (.lex line fault) => .error (.lex (line + k) fault)
  | .error d => .error d

namespace Lexis

/-- An item has the line that was counted. -/
theorem line_item? {line : Nat} {p : Piece} {item : ScanItem} (h : item? line p = some item) :
    ScanItem.line item = line := by
  cases p <;> cases h <;> rfl

/-- To count from another line moves the item. -/
theorem moved_item? (line k : Nat) (p : Piece) :
    item? (line + k) p = (item? line p).map (ScanItem.moved k) := by
  cases p <;> rfl

/-- No item stands above the line that its pieces start on. -/
theorem le_line_items (ps : List Piece) (line : Nat) :
    ∀ item ∈ items line ps, line ≤ ScanItem.line item := by
  induction ps generalizing line with
  | nil =>
    intro item hitem
    rw [List.mem_singleton.mp hitem]
    exact le_rfl
  | cons p ps ih =>
    intro item hitem
    rcases List.mem_append.mp hitem with hitem | hitem
    · rw [line_item? (Option.mem_toList.mp hitem)]
      exact Nat.le_add_right _ _
    · exact (Nat.le_add_right _ _).trans (ih _ item hitem)

/-- The lines of items never go back. -/
theorem pairwise_line_items (ps : List Piece) (line : Nat) :
    ((items line ps).map ScanItem.line).Pairwise (· ≤ ·) := by
  induction ps generalizing line with
  | nil => exact List.pairwise_singleton _ _
  | cons p ps ih =>
    rw [items_cons]
    split
    · exact ih _
    · next item hitem =>
      refine List.pairwise_cons.mpr ⟨?_, ih _⟩
      intro line' hline'
      obtain ⟨item', hmem, rfl⟩ := List.mem_map.mp hline'
      rw [line_item? hitem]
      exact le_line_items ps _ item' hmem

/-- The items of pieces that start further down. -/
theorem items_add (ps : List Piece) (line k : Nat) :
    items (line + k) ps = (items line ps).map (ScanItem.moved k) := by
  induction ps generalizing line with
  | nil => rfl
  | cons p ps ih =>
    rw [items, items, Nat.add_right_comm, ih, moved_item?, List.map_append]
    cases item? (line + p.lineBreaks) p <;> rfl

/-- A string without an end leaves its fault. -/
theorem mem_items_of_unterminated {body : List Char} {ps : List Piece}
    (h : .unterminated body ∈ ps) (line : Nat) :
    ∃ line', .error (.lex line' .unterminatedString) ∈ items line ps := by
  induction ps generalizing line with
  | nil => cases h
  | cons p ps ih =>
    rcases List.mem_cons.mp h with rfl | h
    · exact ⟨_, List.mem_append_left _ (List.mem_singleton.mpr rfl)⟩
    · obtain ⟨line', hmem⟩ := ih h (line + p.lineBreaks)
      exact ⟨line', List.mem_append_right _ hmem⟩

end Lexis

open Lexis

/-- **Lines are exact.** After the call that gives an item, the reader stands where the item ends: a
token at the end of its lexeme, a character that opens nothing behind that character, a string without
an end and the end token at the end of the text. The line of the item is one more than the number of
line breaks before that place. So lines never decrease along the items. -/
theorem scan_lines_exact (source : String) :
    (∀ n item, (scan source)[n]? = some item →
      (Reader.start source).nth n = some (some item) ∧
      ∃ r, (Reader.start source).after (n + 1) = some r ∧ EndsAt source item r.position) ∧
    ((scan source).map ScanItem.line).Pairwise (· ≤ ·) := by
  have hyields := Reader.yields_start source
  refine ⟨fun n item hitem => ⟨?_, hyields.endsAt hitem⟩, pairwise_line_items _ _⟩
  rw [hyields.nth_eq, hitem]

/-- **Scanning goes line by line.** The items of a text, a line break and another text are those of
the first without its end token, and those of the second on lines further down, if every string of the
first has its end there. -/
theorem scan_lines_add {s : String} (t : String)
    (h : ∀ line, .error (.lex line .unterminatedString) ∉ scan s) : ∃ its line,
      scan s = its ++ [.ok (endToken line)] ∧
      scan (s ++ "\n" ++ t) = its ++ (scan t).map (ScanItem.moved (1 + lineBreaks s)) := by
  have hends (body : List Char) : .unterminated body ∉ pieces s.toList := by
    intro hmem
    obtain ⟨line, hitem⟩ := mem_items_of_unterminated hmem 1
    exact h line hitem
  have hpieces : pieces (s ++ "\n" ++ t).toList =
      pieces s.toList ++ .blank '\n' :: pieces t.toList := by
    rw [String.toList_append, String.toList_append, List.append_assoc]
    exact pieces_break _ hends
  obtain ⟨line, hs⟩ := scan_eq_dropLast s
  refine ⟨(scan s).dropLast, line, hs, ?_⟩
  have hblank : (Piece.blank '\n').lineBreaks = 1 := by decide
  calc scan (s ++ "\n" ++ t)
      = (scan s).dropLast ++ items (1 + lineBreaks s) (.blank '\n' :: pieces t.toList) := by
        rw [scan, hpieces, items_append, sum_lineBreaks_pieces]
        rfl
    _ = (scan s).dropLast ++ items (1 + (1 + lineBreaks s)) (pieces t.toList) := by
        rw [items, hblank, Nat.add_right_comm, Nat.add_assoc]
        rfl
    _ = (scan s).dropLast ++ (scan t).map (ScanItem.moved (1 + lineBreaks s)) := by
        rw [items_add]
        rfl

/-- A string over two lines, a comment that reaches up to the break, and a mark that would join the
next one if no break stood between them. The second text starts on line 4. -/
theorem scan_lines_add_comparison :
    (∀ line, .error (.lex line .unterminatedString) ∉ scan "é \"a\nb\" // \"\n<") ∧
    scan ("é \"a\nb\" // \"\n<" ++ "\n" ++ "= \"c\n") =
      [.error (.lex 1 (.unexpectedCharacter 'é')), .ok ⟨.string, "\"a\nb\"", some (.string "a\nb"), 2⟩,
        .ok ⟨.less, "<", none, 3⟩, .ok ⟨.equal, "=", none, 4⟩, .error (.lex 5 .unterminatedString),
        .ok (endToken 5)] := by
  have hfirst : scan "é \"a\nb\" // \"\n<" =
      [.error (.lex 1 (.unexpectedCharacter 'é')), .ok ⟨.string, "\"a\nb\"", some (.string "a\nb"), 2⟩,
        .ok ⟨.less, "<", none, 3⟩, .ok (endToken 3)] := by
    decide +kernel
  have hsecond : scan "= \"c\n" =
      [.ok ⟨.equal, "=", none, 1⟩, .error (.lex 2 .unterminatedString), .ok (endToken 2)] := by
    decide +kernel
  have hbreaks : lineBreaks "é \"a\nb\" // \"\n<" = 2 := by decide +kernel
  have hends : ∀ line, .error (.lex line .unterminatedString) ∉ scan "é \"a\nb\" // \"\n<" := by
    intro line
    simp [hfirst]
  obtain ⟨its, line, hits, hjoined⟩ := scan_lines_add "= \"c\n" hends
  have hits : its = (scan "é \"a\nb\" // \"\n<").dropLast := by rw [hits, List.dropLast_concat]
  refine ⟨hends, ?_⟩
  rw [hjoined, hits, hfirst, hsecond, hbreaks]
  rfl

end LoxLang
