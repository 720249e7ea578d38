import Mathlib
import LoxLang.Proofs.Lexis.Lexeme
import LoxLang.Tree.Parenthesized

/-!
# Proofs/Tree/Form — the structure of a parenthesised text

The text of an expression is made of words, spaces and parentheses. A `Form` is its structure, and a
text has one structure at most if the words have no space and no parenthesis in them
(`Form.chars_append_inj`). Lexemes are such words, but for the parentheses and for strings
(`IsLexeme.isPlain`).
-/

namespace LoxLang

open Lexis

/-! ## Forms -/

/-- The structure of a parenthesised text: a word, or a word and its parts in parentheses. -/
inductive Form where
  | word (text : List Char)
  | list (head : List Char) (parts : List Form)

namespace Form

/-- A character that words are made of. -/
def isPlain (c : Char) : Bool :=
  c ≠ ' ' && c ≠ '(' && c ≠ ')'

mutual

/-- The text of a form. -/
def chars : Form → List Char
  | .word text => text
  | .list head parts => '(' :: head ++ charsAll parts ++ [')']

/-- The texts of forms, a space before each. -/
def charsAll : List Form → List Char
  | [] => []
  | f :: fs => ' ' :: f.chars ++ charsAll fs

end

mutual

/-- The words of the form are made of plain characters, and none stands for nothing. -/
def Proper : Form → Prop
  | .word text => text ≠ [] ∧ ∀ c ∈ text, isPlain c
  | .list head parts => (∀ c ∈ head, isPlain c) ∧ AllProper parts

def AllProper : List Form → Prop
  | [] => True
  | f :: fs => f.Proper ∧ AllProper fs

end

/-- What follows a word is not part of it. -/
theorem word_append_inj {u v r s : List Char} (hu : ∀ c ∈ u, isPlain c) (hv : ∀ c ∈ v, isPlain c)
    (hr : Ends isPlain r) (hs : Ends isPlain s) (h : u ++ r = v ++ s) : u = v ∧ r = s := by
  have htake := congrArg (List.takeWhile isPlain) h
  have hdrop := congrArg (List.dropWhile isPlain) h
  rw [hr.takeWhile_append hu, hs.takeWhile_append hv] at htake
  rw [hr.dropWhile_append hu, hs.dropWhile_append hv] at hdrop
  exact ⟨htake, hdrop⟩

/-- What follows the parts of a list ends the word before it. -/
theorem ends_charsAll (fs : List Form) (r : List Char) :
    Ends isPlain (charsAll fs ++ ')' :: r) := by
  cases fs <;> simp [Ends, charsAll, isPlain]

/-- A word does not open a parenthesis. -/
theorem word_ne_list {u v r s : List Char} (hne : u ≠ []) (hu : ∀ c ∈ u, isPlain c) :
    u ++ r ≠ '(' :: v ++ s := by
  obtain ⟨c, cs, rfl⟩ := List.exists_cons_of_ne_nil hne
  intro h
  obtain rfl : c = '(' := (List.cons.inj h).1
  exact Bool.false_ne_true (hu '(' List.mem_cons_self)

mutual

/-- **A text has one form**, which ends where the text stops being plain. -/
theorem chars_append_inj : ∀ {f g : Form} {r s : List Char}, f.Proper → g.Proper →
    Ends isPlain r → Ends isPlain s → f.chars ++ r = g.chars ++ s → f = g ∧ r = s
  | .word u, .word v, r, s, hf, hg, hr, hs, h => by
    obtain ⟨rfl, rfl⟩ := word_append_inj hf.2 hg.2 hr hs h
    exact ⟨rfl, rfl⟩
  | .word u, .list head parts, r, s, hf, _, _, _, h => by
    simp only [chars, List.append_assoc] at h
    exact absurd h (word_ne_list hf.1 hf.2)
  | .list head parts, .word v, r, s, _, hg, _, _, h => by
    simp only [chars, List.append_assoc] at h
    exact absurd h.symm (word_ne_list hg.1 hg.2)
  | .list head parts, .list head' parts', r, s, hf, hg, _, _, h => by
    simp only [chars, List.cons_append, List.append_assoc, List.nil_append, List.cons.injEq,
      true_and] at h
    obtain ⟨rfl, hparts⟩ :=
      word_append_inj hf.1 hg.1 (ends_charsAll parts r) (ends_charsAll parts' s) h
    obtain ⟨rfl, rfl⟩ := charsAll_append_inj hf.2 hg.2 hparts
    exact ⟨rfl, rfl⟩

/-- The parts up to a closing parenthesis are determined by their text. -/
theorem charsAll_append_inj : ∀ {fs gs : List Form} {r s : List Char}, AllProper fs →
    AllProper gs → charsAll fs ++ ')' :: r = charsAll gs ++ ')' :: s → fs = gs ∧ r = s
  | [], [], r, s, _, _, h => ⟨rfl, (List.cons.inj h).2⟩
  | [], g :: gs, r, s, _, _, h => by simp [charsAll] at h
  | f :: fs, [], r, s, _, _, h => by simp [charsAll] at h
  | f :: fs, g :: gs, r, s, hf, hg, h => by
    simp only [charsAll, List.cons_append, List.append_assoc, List.cons.injEq, true_and] at h
    obtain ⟨rfl, hrest⟩ := chars_append_inj hf.1 hg.1 (ends_charsAll fs r) (ends_charsAll gs s) h
    obtain ⟨rfl, rfl⟩ := charsAll_append_inj hf.2 hg.2 hrest
    exact ⟨rfl, rfl⟩

end

end Form


/-! ## Lexemes as words -/

/-- A class without a space and a parenthesis has only plain characters. -/
theorem Form.isPlain_of_class {f : Char → Bool} (hf : [' ', '(', ')'].any f = false) {c : Char}
    (h : f c) : isPlain c := by
  have hne : ∀ d, f d = false → c ≠ d := by
    rintro d hd rfl
    exact Bool.false_ne_true (hd.symm.trans h)
  simp only [List.any_cons, List.any_nil, Bool.or_false, Bool.or_eq_false_iff] at hf
  simp [isPlain, hne _ hf.1, hne _ hf.2.1, hne _ hf.2.2]

/-- A word of another kind than an identifier is reserved. -/
theorem Kind.mem_reserved_of_ofWord {word : String} {kind : Kind} (h : ofWord word = kind)
    (hkind : kind ≠ .identifier) : (word, kind) ∈ reserved := by
  unfold ofWord at h
  cases hlookup : reserved.lookup word with
  | none => exact absurd (by simpa [hlookup] using h.symm) hkind
  | some kind' =>
    obtain ⟨before, behind, hsplit, -⟩ := List.lookup_eq_some_iff.mp hlookup
    obtain rfl : kind' = kind := by simpa [hlookup] using h
    simp [hsplit]

namespace Lexis.IsLexeme

variable {kind : Kind} {literal : Option Literal} {text : List Char}

/-- `this` and a closing parenthesis are written in one way each. -/
theorem text_of_kind (h : IsLexeme kind literal text) :
    (kind = .thisWord → text = thisName.toList) ∧ (kind = .rightParen → text = [')']) := by
  cases h with
  | mark h =>
    unfold mark? at h
    split at h <;> cases h <;> simp
  | alone h | withEqual h =>
    unfold comparison? at h
    split at h <;> cases h <;> simp
  | @word c cs _ _ =>
    refine ⟨fun hkind => ?_, fun hkind => ?_⟩
    · have hmem := Kind.mem_reserved_of_ofWord hkind nofun
      have hword : String.ofList (c :: cs) = thisName := by
        simpa [Kind.reserved, thisName] using hmem
      rw [← hword, String.toList_ofList]
    · have hmem := Kind.mem_reserved_of_ofWord hkind nofun
      simp [Kind.reserved] at hmem
  | slash | string | whole | fraction => simp

/-- Only parentheses and strings have characters that are not plain. -/
theorem isPlain (h : IsLexeme kind literal text)
    (hkind : kind ∉ [Kind.leftParen, .rightParen, .string]) : ∀ c ∈ text, Form.isPlain c := by
  cases h with
  | mark h =>
    unfold mark? at h
    split at h <;> cases h <;> simp_all <;> rfl
  | alone h | withEqual h =>
    unfold comparison? at h
    split at h <;> cases h <;> simp <;> decide
  | slash =>
    rw [List.forall_mem_singleton]
    rfl
  | string => simp at hkind
  | whole h => exact fun c hc => Form.isPlain_of_class rfl (h c hc)
  | fraction h h' =>
    have hpoint : Form.isPlain '.' := rfl
    exact List.forall_mem_append.mpr ⟨fun c hc => Form.isPlain_of_class rfl (h c hc),
      List.forall_mem_cons.mpr ⟨hpoint, fun c hc => Form.isPlain_of_class rfl (h' c hc)⟩⟩
  | word hc h =>
    rw [List.forall_mem_cons]
    exact ⟨Form.isPlain_of_class rfl hc, fun c hc => Form.isPlain_of_class rfl (h c hc)⟩

/-- A lexeme is a proper word. -/
theorem proper (h : IsLexeme kind literal text)
    (hkind : kind ∉ [Kind.leftParen, .rightParen, .string]) : (Form.word text).Proper := by
  obtain ⟨c, cs, rfl⟩ := h.exists_cons
  exact ⟨nofun, h.isPlain hkind⟩

end Lexis.IsLexeme

/-! ## The form of an expression -/

namespace Expr

mutual

/-- The structure of the text of an expression. -/
def form : Expr → Form
  | .constant c => .word c.treeText.toList
  | .grouping inner => .list "group".toList [inner.form]
  | .unary operator operand => .list operator.lexeme.toList [operand.form]
  | .binary left operator right => .list operator.lexeme.toList [left.form, right.form]
  | .logical left operator right => .list operator.lexeme.toList [left.form, right.form]
  | .conditional condition onTrue onFalse =>
    .list "?:".toList [condition.form, onTrue.form, onFalse.form]
  | .var _ name => .word name.lexeme.toList
  | .assign _ name value => .list "=".toList [.word name.lexeme.toList, value.form]
  | .call callee _ arguments => .list "call".toList (callee.form :: forms arguments)
  | .get object name => .list ".".toList [object.form, .word name.lexeme.toList]
  | .set object name value =>
    .list "=".toList [.list ".".toList [object.form, .word name.lexeme.toList], value.form]
  | .this _ _ => .word thisName.toList

def forms : List Expr → List Form
  | [] => []
  | e :: es => e.form :: forms es

end

theorem toList_spaced_nil : (spaced []).toList = Form.charsAll [] := rfl

/-- Parts are written with a space before each. -/
theorem toList_spaced_cons {part : String} {parts : List String} {f : Form} {fs : List Form}
    (h : part.toList = f.chars) (hs : (spaced parts).toList = Form.charsAll fs) :
    (spaced (part :: parts)).toList = Form.charsAll (f :: fs) := by
  simp [spaced, Form.charsAll, h, hs]

/-- A list is written as its form says. -/
theorem toList_parenthesize {head : String} {parts : List String} {fs : List Form}
    (h : (spaced parts).toList = Form.charsAll fs) :
    (parenthesize head parts).toList = (Form.list head.toList fs).chars := by
  simp [parenthesize, Form.chars, h]

mutual

/-- The text of an expression is that of its form. -/
theorem toList_text : ∀ e : Expr, e.text.toList = e.form.chars
  | .constant _ => rfl
  | .grouping inner =>
    toList_parenthesize (toList_spaced_cons (toList_text inner) toList_spaced_nil)
  | .unary _ operand =>
    toList_parenthesize (toList_spaced_cons (toList_text operand) toList_spaced_nil)
  | .binary left _ right | .logical left _ right =>
    toList_parenthesize (toList_spaced_cons (toList_text left)
      (toList_spaced_cons (toList_text right) toList_spaced_nil))
  | .conditional condition onTrue onFalse =>
    toList_parenthesize (toList_spaced_cons (toList_text condition)
      (toList_spaced_cons (toList_text onTrue)
        (toList_spaced_cons (toList_text onFalse) toList_spaced_nil)))
  | .var _ _ | .this _ _ => rfl
  | .assign _ name value =>
    toList_parenthesize (@toList_spaced_cons _ _ (.word name.lexeme.toList) _ rfl
      (toList_spaced_cons (toList_text value) toList_spaced_nil))
  | .call callee _ arguments =>
    toList_parenthesize (toList_spaced_cons (toList_text callee) (toList_texts arguments))
  | .get object name =>
    toList_parenthesize (toList_spaced_cons (toList_text object)
      (@toList_spaced_cons _ _ (.word name.lexeme.toList) _ rfl toList_spaced_nil))
  | .set object name value =>
    toList_parenthesize (toList_spaced_cons
      (toList_parenthesize (toList_spaced_cons (toList_text object)
        (@toList_spaced_cons _ _ (.word name.lexeme.toList) _ rfl toList_spaced_nil)))
      (toList_spaced_cons (toList_text value) toList_spaced_nil))

theorem toList_texts : ∀ es : List Expr, (spaced (texts es)).toList = Form.charsAll (forms es)
  | [] => rfl
  | e :: es => toList_spaced_cons (toList_text e) (toList_texts es)

end

end Expr


end LoxLang
