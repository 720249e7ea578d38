import Mathlib
import LoxLang.Proofs.Decimal.ReadBack
import LoxLang.Proofs.Lexis.Rescanning
import LoxLang.Session
import LoxLang.Host.Library

/-!
# Proofs/Run/Literals — printed literals read back

The text of a finite number is a literal behind its sign, and the literal is read as the number
without the sign (`exists_isLexeme_numberText`). So the text is scanned to one token or two, which are
an expression with the number as its value: a constant, or a constant behind a minus. A text between
double quotes is one token too, over however many lines, if it has no double quote itself.

The main result is `Session.evaluate_literal`.
-/

namespace LoxLang

open Lexis

/-! ## Scanning -/

/-- A lexeme alone is scanned to one token. -/
theorem scan_lexeme {source : String} {kind : Kind} {literal : Option Literal}
    (h : IsLexeme kind literal source.toList) :
    ∃ line, scan source = [.ok ⟨kind, source, literal, line⟩, .ok (endToken line)] := by
  have hpieces := h.pieces_append (ends_nil _)
  rw [List.append_nil] at hpieces
  refine ⟨1 + source.toList.count '\n', ?_⟩
  rw [scan, hpieces, items, item?, String.ofList_toList]
  rfl

/-- A number behind a minus is scanned to two tokens. -/
theorem scan_minus {ds : List Char} {literal : Option Literal} (h : IsLexeme .number literal ds) :
    ∃ line line', scan (String.ofList ('-' :: ds)) =
      [.ok ⟨.minus, "-", none, line⟩, .ok ⟨.number, String.ofList ds, literal, line'⟩,
        .ok (endToken line')] := by
  have hpieces := h.pieces_append (ends_nil _)
  rw [List.append_nil] at hpieces
  refine ⟨1, 1 + ds.count '\n', ?_⟩
  rw [scan, String.toList_ofList, pieces_cons, cut_of_mark? ds (rfl : mark? '-' = some .minus)]
  change items 1 (.lexeme .minus none ['-'] :: pieces ds) = _
  rw [hpieces]
  rfl

/-! ## Evaluating -/

namespace Session

variable {host : Host} {fuel : Nat} {s : Session} {source : String} {line line' : Nat}

/-- A number is evaluated to itself, and the session stays as it is. -/
theorem evaluate_number {lexeme : String} {x : Float}
    (h : scan source = [.ok ⟨.number, lexeme, some (.number x), line⟩, .ok (endToken line)]) :
    s.evaluate host (fuel + 2) source = (some (.number x), ⟨some .ok, []⟩, s) := by
  rw [evaluate, h]
  rfl

/-- A number behind a minus is evaluated to its negative. -/
theorem evaluate_minus {lexeme lexeme' : String} {x : Float}
    (h : scan source = [.ok ⟨.minus, lexeme, none, line⟩,
      .ok ⟨.number, lexeme', some (.number x), line'⟩, .ok (endToken line')]) :
    s.evaluate host (fuel + 2) source = (some (.number (-x)), ⟨some .ok, []⟩, s) := by
  rw [evaluate, h]
  rfl

/-- A string is evaluated to itself, and the session stays as it is. -/
theorem evaluate_string {lexeme t : String}
    (h : scan source = [.ok ⟨.string, lexeme, some (.string t), line⟩, .ok (endToken line)]) :
    s.evaluate host (fuel + 2) source = (some (.string t), ⟨some .ok, []⟩, s) := by
  rw [evaluate, h]
  rfl

/-- **Printed literals read back.** In every session, the text of a finite number is evaluated to that
number, bit for bit, and a text between double quotes to the string of that text; nothing is reported,
and the session is as it was. -/
theorem evaluate_literal (host : Host) (fuel : Nat) (s : Session) :
    (∀ x : Float, x.isFinite = true →
      s.evaluate host (fuel + 2) ((Value.number x).text s.machine.store) =
        (some (.number x), ⟨some .ok, []⟩, s)) ∧
    ∀ t : String, '"' ∉ t.toList →
      s.evaluate host (fuel + 2) ("\"" ++ t ++ "\"") = (some (.string t), ⟨some .ok, []⟩, s) := by
  refine ⟨fun x hx => ?_, fun t ht => ?_⟩
  · obtain ⟨ds, htext, hlexeme⟩ := exists_isLexeme_numberText hx
    change s.evaluate host (fuel + 2) (Value.numberText x) = _
    cases hsign : isNegative x with
    | false =>
      rw [unsigned_of_not_isNegative hsign] at hlexeme
      have hdigits : (Value.numberText x).toList = ds := by simpa [signText, hsign] using htext
      obtain ⟨line, hscan⟩ := scan_lexeme (hdigits ▸ hlexeme)
      exact evaluate_number hscan
    | true =>
      have hminus : Value.numberText x = String.ofList ('-' :: ds) := by
        rw [← String.ofList_toList (s := Value.numberText x), htext]
        simp [signText, hsign]
      obtain ⟨line, line', hscan⟩ := scan_minus hlexeme
      rw [hminus, evaluate_minus hscan, neg_unsigned hx hsign]
  · have hquoted : ("\"" ++ t ++ "\"").toList = '"' :: t.toList ++ ['"'] := by simp
    obtain ⟨line, hscan⟩ := scan_lexeme (hquoted ▸ IsLexeme.string ht)
    rw [String.ofList_toList] at hscan
    exact evaluate_string hscan

/-- A negative number with a fraction and the negative zero, and a string over two lines. -/
theorem evaluate_literal_negative :
    let host := Library.host fun _ => 0
    let s := Session.start false none
    let tenth := Float.ofBits 0xbfb999999999999a
    let zero := Float.ofBits 0x8000000000000000
    (tenth.isFinite = true ∧ (Value.number tenth).text s.machine.store = "-0.1" ∧
        s.evaluate host 2 "-0.1" = (some (.number tenth), ⟨some .ok, []⟩, s)) ∧
      (zero.isFinite = true ∧ (Value.number zero).text s.machine.store = "-0" ∧
        s.evaluate host 2 "-0" = (some (.number zero), ⟨some .ok, []⟩, s)) ∧
      '"' ∉ "é\n//".toList ∧
        s.evaluate host 2 "\"é\n//\"" = (some (.string "é\n//"), ⟨some .ok, []⟩, s) := by
  intro host s tenth zero
  have htenth : tenth.isFinite = true := by decide +kernel
  have hzero : zero.isFinite = true := by decide +kernel
  have htext : (Value.number tenth).text s.machine.store = "-0.1" := by decide +kernel
  have htext' : (Value.number zero).text s.machine.store = "-0" := by decide +kernel
  have hquote : '"' ∉ "é\n//".toList := by decide
  have hquoted : "\"" ++ "é\n//" ++ "\"" = "\"é\n//\"" := by decide +kernel
  -- nothing is evaluated from here on
  clear_value zero tenth s host
  obtain ⟨hnumbers, hstrings⟩ := evaluate_literal host 0 s
  have hevaluate := hnumbers tenth htenth
  have hevaluate' := hnumbers zero hzero
  rw [htext] at hevaluate
  rw [htext'] at hevaluate'
  exact ⟨⟨htenth, htext, hevaluate⟩, ⟨hzero, htext', hevaluate'⟩, hquote,
    hquoted ▸ hstrings _ hquote⟩

end Session

end LoxLang
