import Mathlib
import LoxLang.Proofs.Lexis.Joining
import LoxLang.Proofs.Lexis.Reader

/-!
# Proofs/Lexis/Reading — what a reader of bytes reads

A reader finds at its place the piece that is cut off there, whatever character stands there
(`finds`): no slice that it takes is missing. So its calls give the items of `scan`, one after the
other, and each ends where the reader then stands (`yields_start`).
-/

namespace LoxLang

namespace Lexis

namespace Reader

/-! ## What is found is what is cut off -/

/-- The value of digits is that of the number they spell. -/
theorem decimalValue_whole {ds : List Char} (h : ∀ c ∈ ds, c.isDigit) :
    decimalValue ds = nearest (digitsValue ds) 1 := by
  have htake := (ends_nil Char.isDigit).takeWhile_append h
  have hdrop := (ends_nil Char.isDigit).dropWhile_append h
  rw [List.append_nil] at htake hdrop
  simp [decimalValue, htake, hdrop]

/-- Places divide it by a power of ten. -/
theorem decimalValue_fraction {ds : List Char} (h : ∀ c ∈ ds, c.isDigit) (es : List Char) :
    decimalValue (ds ++ '.' :: es) = nearest (digitsValue (ds ++ es)) (Nat.pow 10 es.length) := by
  have hpoint : Ends Char.isDigit ('.' :: es) := by simp [Ends]
  simp only [decimalValue, hpoint.takeWhile_append h, hpoint.dropWhile_append h, List.tail_cons]

section

variable {c : Char} (pre cs rest : List Char) (line : Nat)

theorem find_between (hc : c.toNat < 128) : (between pre (c :: cs) line).find =
    (between (pre ++ [c]) cs line).opened c (bytesOf pre).length := by
  rw [find, peek_between pre cs line hc, advance_between pre cs line hc, position_between]

/-- What an unmarked character opens. -/
theorem opened_of_unmarked (h : Unmarked c) (r : Reader) (start : Nat) : r.opened c start =
    if c.isDigit then r.number start else if isWordStart c then r.word start
    else r.stray start := by
  obtain ⟨⟨⟨hspace, hreturn⟩, htab⟩, hbreak⟩ : ((c ≠ ' ' ∧ c ≠ '\r') ∧ c ≠ '\t') ∧ c ≠ '\n' := by
    simpa [isBlank] using h.blank
  simp [opened, hspace, hreturn, htab, hbreak, h.mark, h.comparison, h.slash, h.quote]

/-- A string is read up to its quote. -/
theorem string_closed {body : List Char} (h : '"' ∉ body) :
    (between (pre ++ ['"']) (body ++ '"' :: rest) line).string (bytesOf pre).length =
      some (.token .string (some (.string (String.ofList body))),
        between (pre ++ ('"' :: body ++ ['"'])) rest (line + body.count '\n')) := by
  have hquote : Ends (· ≠ '"') ('"' :: rest) := by simp [Ends]
  have hbody := ne_quote_of_notMem h
  have hcontents := slice?_between (pre ++ ['"']) body ('"' :: rest) (line + body.count '\n')
  have hlength : (bytesOf ['"']).length = 1 := rfl
  simp only [string, skipString_between, hquote.takeWhile_append hbody,
    hquote.dropWhile_append hbody, position_lt_size, if_true]
  rw [bytesOf_append, List.length_append, hlength] at hcontents
  have hend : (bytesOf (pre ++ ['"'] ++ body ++ ['"'])).length - 1 =
      (bytesOf (pre ++ ['"'] ++ body)).length := by
    rw [bytesOf_append, List.length_append, hlength, Nat.add_sub_cancel]
  simp only [advance_between (c := '"') _ _ _ (by decide), position_between, hend, hcontents,
    Option.map_some]
  simp only [List.append_assoc, List.cons_append, List.nil_append]

/-- Without a quote the reader stops at the end of the text. -/
theorem string_open {body : List Char} (h : '"' ∉ body) :
    (between (pre ++ ['"']) body line).string (bytesOf pre).length =
      some (.fault .unterminatedString,
        between (pre ++ '"' :: body) [] (line + body.count '\n')) := by
  have hbody := ne_quote_of_notMem h
  have htake := (ends_nil (· ≠ '"')).takeWhile_append hbody
  have hdrop := (ends_nil (· ≠ '"')).dropWhile_append hbody
  rw [List.append_nil] at htake hdrop
  simp only [string, skipString_between, htake, hdrop, position_eq_size, lt_irrefl, if_false,
    List.append_assoc, List.singleton_append]

/-- A number without places is read up to its last digit. -/
theorem number_whole {d : Char} {ds : List Char} (h : ∀ c ∈ d :: ds, c.isDigit)
    (hrest : Ends Char.isDigit rest) (hplaces : fraction rest = []) :
    (between (pre ++ [d]) (ds ++ rest) line).number (bytesOf pre).length =
      some (.token .number (some (.number (nearest (digitsValue (d :: ds)) 1))),
        between (pre ++ d :: ds) rest line) := by
  have hds := (List.forall_mem_cons.mp h).2
  have hpoint : ¬ ((between (pre ++ d :: ds) rest line).peek = '.' &&
      (between (pre ++ d :: ds) rest line).peekNext.isDigit) := by
    rw [Bool.and_eq_true, decide_eq_true_eq, peek_eq_iff _ _ _ (by decide) (by decide)]
    rintro ⟨hhead, hdigit⟩
    obtain ⟨rest, rfl⟩ := List.head?_eq_some_iff.mp hhead
    rw [peekNext_eq, advance_between _ _ _ (by decide),
      peek_plain _ _ _ plain_isDigit isDigit_nul] at hdigit
    cases rest with
    | nil => cases hdigit
    | cons e es =>
      have he : e.isDigit := hdigit
      simp [fraction, he] at hplaces
  have hskip : (between (pre ++ [d]) (ds ++ rest) line).skipWhile Char.isDigit isDigit_nul =
      between (pre ++ d :: ds) rest line := by
    rw [skipWhile_between _ _ _ plain_isDigit, hrest.takeWhile_append hds,
      hrest.dropWhile_append hds, List.append_assoc, List.singleton_append]
  simp only [number, hskip, if_neg hpoint, position_between, slice?_between, Option.map_some,
    String.toList_ofList, decimalValue_whole h]

/-- A number with places is read up to the last of them. -/
theorem number_fraction {d e : Char} {ds es : List Char} (h : ∀ c ∈ d :: ds, c.isDigit)
    (h' : ∀ c ∈ e :: es, c.isDigit) (hrest : Ends Char.isDigit rest) :
    (between (pre ++ [d]) (ds ++ '.' :: e :: es ++ rest) line).number (bytesOf pre).length =
      some (.token .number (some (.number
          (nearest (digitsValue (d :: ds ++ e :: es)) (Nat.pow 10 (e :: es).length)))),
        between (pre ++ (d :: ds ++ '.' :: e :: es)) rest line) := by
  have hds := (List.forall_mem_cons.mp h).2
  have hends : Ends Char.isDigit ('.' :: e :: es ++ rest) := by simp [Ends]
  have hskip : (between (pre ++ [d]) (ds ++ '.' :: e :: es ++ rest) line).skipWhile Char.isDigit
      isDigit_nul = between (pre ++ d :: ds) ('.' :: (e :: es ++ rest)) line := by
    rw [List.append_assoc, skipWhile_between _ _ _ plain_isDigit, hends.takeWhile_append hds,
      hends.dropWhile_append hds, List.append_assoc, List.singleton_append, List.cons_append]
  have hadvance : (between (pre ++ d :: ds) ('.' :: (e :: es ++ rest)) line).advance =
      between (pre ++ d :: ds ++ ['.']) (e :: es ++ rest) line :=
    advance_between _ _ _ (by decide)
  have hpoint : ((between (pre ++ d :: ds) ('.' :: (e :: es ++ rest)) line).peek = '.' &&
      (between (pre ++ d :: ds) ('.' :: (e :: es ++ rest)) line).peekNext.isDigit) := by
    rw [Bool.and_eq_true, decide_eq_true_eq, peek_eq_iff _ _ _ (by decide) (by decide),
      peekNext_eq, hadvance, peek_plain _ _ _ plain_isDigit isDigit_nul]
    exact ⟨rfl, h' e List.mem_cons_self⟩
  have hplaces : (between (pre ++ d :: ds ++ ['.']) (e :: es ++ rest) line).skipWhile Char.isDigit
      isDigit_nul = between (pre ++ (d :: ds ++ '.' :: e :: es)) rest line := by
    rw [skipWhile_between _ _ _ plain_isDigit, hrest.takeWhile_append h',
      hrest.dropWhile_append h']
    simp
  simp only [number, hskip, if_pos hpoint, hadvance, hplaces, position_between, slice?_between,
    Option.map_some, String.toList_ofList, decimalValue_fraction h]

/-- A word is read up to its last character. -/
theorem word_between {d : Char} {ds : List Char} (h : ∀ c ∈ ds, isWordChar c)
    (hrest : Ends isWordChar rest) :
    (between (pre ++ [d]) (ds ++ rest) line).word (bytesOf pre).length =
      some (.token (Kind.ofWord (String.ofList (d :: ds)))
          (wordLiteral (Kind.ofWord (String.ofList (d :: ds)))),
        between (pre ++ d :: ds) rest line) := by
  have hskip : (between (pre ++ [d]) (ds ++ rest) line).skipWhile isWordChar isWordChar_nul =
      between (pre ++ d :: ds) rest line := by
    rw [skipWhile_between _ _ _ plain_isWordChar, hrest.takeWhile_append h,
      hrest.dropWhile_append h, List.append_assoc, List.singleton_append]
  simp only [word, hskip, position_between, slice?_between, Option.map_some]

/-- A stray character is read whole, however wide it is. -/
theorem stray_between (c : Char) : (between pre (c :: cs) line).advance.stray (bytesOf pre).length =
    some (.fault (.unexpectedCharacter c), between (pre ++ [c]) cs line) := by
  have hslice := slice?_between pre (c :: cs) [] line
  rw [source_between, List.append_nil] at hslice
  have hsize : (between pre (c :: cs) line).advance.size = (bytesOf (pre ++ c :: cs)).length := by
    rw [bytesOf_append, List.length_append]
    exact size_between pre (c :: cs) line
  have hsource : (between pre (c :: cs) line).advance.source = String.ofList (pre ++ c :: cs) := rfl
  rw [stray, hsize, hsource, hslice]
  simp [advance, between]

end

end Reader

/-- What a reader makes of a piece. -/
def finding : Piece → Finding
  | .blank _ | .comment _ => .nothing
  | .lexeme kind literal _ => .token kind literal
  | .unterminated _ => .fault .unterminatedString
  | .stray c => .fault (.unexpectedCharacter c)

namespace Reader

/-- No line break stands in a text of a class without it. -/
theorem count_break {f : Char → Bool} (hf : f '\n' = false) {cs : List Char}
    (h : ∀ c ∈ cs, f c) : cs.count '\n' = 0 :=
  List.count_eq_zero.mpr fun hmem => Bool.false_ne_true (hf.symm.trans (h _ hmem))

/-- **A reader finds the piece that is cut off there** and stops behind it, if the text there starts
with `c`. -/
def Finds (c : Char) : Prop :=
  ∀ (pre cs rest : List Char) (line : Nat), (cut c cs).text ++ rest = c :: cs →
    (between pre (c :: cs) line).find = some (finding (cut c cs),
      between (pre ++ (cut c cs).text) rest (line + (cut c cs).lineBreaks))

variable {c : Char}

/-- At a blank the reader finds the piece that is cut off there, and so on for each sort of first
character. -/
theorem finds_of_isBlank (h : isBlank c) : Finds c := by
  intro pre cs rest line hrest
  rw [cut_of_isBlank cs h] at hrest ⊢
  obtain ⟨-, rfl⟩ := List.cons.inj hrest
  simp only [isBlank, Bool.or_eq_true, decide_eq_true_eq] at h
  rcases h with ((rfl | rfl) | rfl) | rfl <;> exact find_between pre _ line (by decide)

theorem finds_of_mark? {kind : Kind} (h : mark? c = some kind) : Finds c := by
  intro pre cs rest line hrest
  rw [cut_of_mark? cs h] at hrest ⊢
  obtain ⟨-, rfl⟩ := List.cons.inj hrest
  unfold mark? at h
  split at h <;> cases h <;> exact find_between pre _ line (by decide)

theorem finds_of_comparison? {kind kind' : Kind} (h : comparison? c = some (kind, kind')) :
    Finds c := by
  intro pre cs rest line hrest
  have hsees := sees_between (pre ++ [c]) cs line (c := '=') (by decide) (by decide)
  have hfind : (between pre (c :: cs) line).find =
      if (between (pre ++ [c]) cs line).sees '=' then
        some (.token kind' none, (between (pre ++ [c]) cs line).advance)
      else some (.token kind none, between (pre ++ [c]) cs line) := by
    unfold comparison? at h
    split at h <;> cases h <;> exact find_between pre cs line (by decide)
  have hc : c ≠ '\n' := by
    rintro rfl
    cases h
  rw [hfind]
  rw [cut_of_comparison? cs h] at hrest ⊢
  by_cases hhead : cs.head? = some '='
  · rw [if_pos hhead] at hrest ⊢
    obtain ⟨cs, rfl⟩ := List.head?_eq_some_iff.mp hhead
    have hrest : rest = cs := by simpa [Piece.text] using hrest
    rw [if_pos (hsees.mpr hhead), advance_between _ _ _ (by decide), hrest]
    simp [finding, Piece.lineBreaks, Piece.text, hc]
  · rw [if_neg hhead] at hrest ⊢
    obtain ⟨-, rfl⟩ := List.cons.inj hrest
    rw [if_neg (hhead ∘ hsees.mp)]
    simp [finding, Piece.lineBreaks, Piece.text, hc]

/-- A slash: a comment is leapt over. -/
theorem finds_slash : Finds '/' := by
  intro pre cs rest line hrest
  have hsees := sees_between (pre ++ ['/']) cs line (c := '/') (by decide) (by decide)
  have hfind : (between pre ('/' :: cs) line).find =
      if (between (pre ++ ['/']) cs line).sees '/' then
        some (.nothing, (between (pre ++ ['/']) cs line).advance.skipLine)
      else some (.token .slash none, between (pre ++ ['/']) cs line) :=
    find_between pre cs line (by decide)
  rw [hfind]
  rw [cut_slash] at hrest ⊢
  by_cases hhead : cs.head? = some '/'
  · rw [if_pos hhead] at hrest ⊢
    obtain ⟨cs, rfl⟩ := List.head?_eq_some_iff.mp hhead
    obtain ⟨body, after, rfl, hbody, hafter⟩ := exists_ends (· ≠ '\n') cs
    rw [List.tail_cons, hafter.takeWhile_append hbody] at hrest ⊢
    have hrest : rest = after := by simpa [Piece.text] using hrest
    rw [if_pos (hsees.mpr hhead), advance_between _ _ _ (by decide), skipLine_between,
      hafter.takeWhile_append hbody, hafter.dropWhile_append hbody, hrest]
    simp [finding, Piece.lineBreaks, Piece.text, count_break (f := (· ≠ '\n')) rfl hbody]
  · rw [if_neg hhead] at hrest ⊢
    obtain ⟨-, rfl⟩ := List.cons.inj hrest
    rw [if_neg (hhead ∘ hsees.mp)]
    rfl

theorem finds_quote : Finds '"' := by
  intro pre cs rest line hrest
  have hfind : (between pre ('"' :: cs) line).find =
      (between (pre ++ ['"']) cs line).string (bytesOf pre).length :=
    find_between pre cs line (by decide)
  rw [hfind]
  by_cases hmem : '"' ∈ cs
  · obtain ⟨body, after, rfl, hbody⟩ := List.eq_append_cons_of_mem hmem
    have hcut : cut '"' (body ++ '"' :: after) = _ := stringPiece_closed hbody
    rw [hcut] at hrest ⊢
    have hrest : rest = after := by simpa [Piece.text] using hrest
    rw [hrest, string_closed pre after line hbody]
    simp [finding, Piece.lineBreaks, Piece.text]
  · have hcut : cut '"' cs = .unterminated cs := stringPiece_open hmem
    rw [hcut] at hrest ⊢
    have hrest : rest = [] := by simpa [Piece.text] using hrest
    rw [hrest, string_open pre line hmem]
    simp [finding, Piece.lineBreaks, Piece.text]

theorem finds_of_isDigit (h : c.isDigit) : Finds c := by
  intro pre cs rest line hrest
  rw [find_between pre cs line (toNat_lt_of_isWordChar (isWordChar_of_isDigit h)),
    opened_of_unmarked (unmarked_of_isDigit h), if_pos h]
  rw [cut_of_isDigit cs h] at hrest ⊢
  obtain ⟨ds, after, rfl, hds, hafter⟩ := exists_ends Char.isDigit cs
  have hall : ∀ d ∈ c :: ds, d.isDigit := List.forall_mem_cons.mpr ⟨h, hds⟩
  have hbreaks := count_break (f := Char.isDigit) rfl hall
  rcases fraction_cases after with hnil | ⟨e, es, after, rfl, hes, hafter⟩
  · rw [numberPiece_whole hds hafter hnil] at hrest ⊢
    have hrest : rest = after := by simpa [Piece.text] using hrest
    rw [number_whole pre after line hall hafter hnil, hrest, Piece.lineBreaks, Piece.text, hbreaks]
    rfl
  · rw [← List.append_assoc] at hrest ⊢
    rw [numberPiece_fraction hds hes hafter] at hrest ⊢
    have hrest : rest = after := by simpa [Piece.text] using hrest
    have hbreaks' := count_break (f := Char.isDigit) rfl hes
    rw [number_fraction pre after line hall hes hafter, hrest, Piece.lineBreaks, Piece.text,
      List.count_append, hbreaks, List.count_cons_of_ne (by decide), hbreaks']
    rfl

theorem finds_of_isWordStart (h : isWordStart c) : Finds c := by
  intro pre cs rest line hrest
  have hc := isWordChar_of_isWordStart h
  rw [find_between pre cs line (toNat_lt_of_isWordChar hc),
    opened_of_unmarked (unmarked_of_isWordStart h), if_neg (by simp [isDigit_of_isWordStart h]),
    if_pos h]
  rw [cut_of_isWordStart cs h] at hrest ⊢
  obtain ⟨ds, after, rfl, hds, hafter⟩ := exists_ends isWordChar cs
  rw [wordPiece_exact hds hafter] at hrest ⊢
  have hrest : rest = after := by simpa [Piece.text] using hrest
  have hbreaks := count_break (f := isWordChar) rfl (List.forall_mem_cons.mpr ⟨hc, hds⟩)
  rw [word_between pre after line hds hafter, hrest, Piece.lineBreaks, Piece.text, hbreaks]
  rfl

/-- Beyond ASCII no character opens anything. -/
theorem isStray_of_le (h : 128 ≤ c.toNat) : IsStray c := by
  have hword : isWordChar c = false := by
    by_contra hword
    exact absurd (toNat_lt_of_isWordChar (by simpa using hword)) (by omega)
  refine ⟨unmarked_of_class (f := fun c => 128 ≤ c.toNat) (by simpa using h) rfl, ?_, ?_⟩
  · by_contra hdigit
    simp [isWordChar_of_isDigit (by simpa using hdigit)] at hword
  · by_contra hstart
    simp [isWordChar_of_isWordStart (by simpa using hstart)] at hword

/-- A stray character is found as a fault. -/
theorem finds_of_isStray (h : IsStray c) : Finds c := by
  intro pre cs rest line hrest
  -- the next byte need not be the character, but opens nothing either
  have hpeek : IsStray (between pre (c :: cs) line).peek := by
    rcases Nat.lt_or_ge c.toNat 128 with hc | hc
    · rwa [peek_between pre cs line hc]
    · have hplain : Plain fun c => 128 ≤ c.toNat := fun c d hc hd => by simp [hc, hd]
      have hwide := peek_plain pre (c :: cs) line hplain rfl
      exact isStray_of_le (of_decide_eq_true (hwide.trans (decide_eq_true hc)))
  have hc : c ≠ '\n' := by
    rintro rfl
    cases h.1.blank
  rw [find, opened_of_unmarked hpeek.1, if_neg (by simp [hpeek.2.1]), if_neg (by simp [hpeek.2.2]),
    position_between, stray_between]
  rw [h.cut_eq] at hrest ⊢
  have hrest : rest = cs := by simpa [Piece.text] using hrest
  simp [finding, Piece.lineBreaks, Piece.text, hc, hrest]

/-- **Whatever character comes next, the reader finds the piece that is cut off there.** -/
theorem finds (c : Char) : Finds c := by
  obtain h | ⟨kind, h⟩ | ⟨kind, kind', h⟩ | rfl | rfl | h | h | h := opening_cases c
  · exact finds_of_isBlank h
  · exact finds_of_mark? h
  · exact finds_of_comparison? h
  · exact finds_slash
  · exact finds_quote
  · exact finds_of_isDigit h
  · exact finds_of_isWordStart h
  · exact finds_of_isStray h

/-! ## The items of a text -/

section

variable (pre rest : List Char) (line : Nat)

/-- At the end of the text the end token comes. -/
theorem next_nil : (between pre [] line).next =
    some (some (.ok (endToken line)), (between pre [] line).advance) := by
  rw [next, if_neg (position_eq_size pre line).not_lt, if_pos (position_eq_size pre line)]
  rfl

/-- Behind the end token there is nothing. -/
theorem next_end : (between pre [] line).advance.next =
    some (none, (between pre [] line).advance) := by
  have hposition : (between pre [] line).advance.position =
      (between pre [] line).advance.size + 1 :=
    congrArg Nat.succ (position_eq_size pre line)
  rw [next, if_neg (by omega), if_neg (by omega)]

/-- The next item is that of the piece at the front, if it leaves one. -/
theorem next_cons {c : Char} {cs : List Char} (hrest : (cut c cs).text ++ rest = c :: cs) :
    (between pre (c :: cs) line).next =
      let r := between (pre ++ (cut c cs).text) rest (line + (cut c cs).lineBreaks)
      match item? (line + (cut c cs).lineBreaks) (cut c cs) with
      | none => r.next
      | some item => some (some item, r) := by
  have hfind := finds c pre cs rest line hrest
  have hslice := slice?_between pre (cut c cs).text rest (line + (cut c cs).lineBreaks)
  rw [next, if_pos (position_lt_size pre cs line c)]
  generalize cut c cs = p at hfind hslice ⊢
  split
  · next h => cases hfind.symm.trans h
  · next r' h => cases p <;> cases hfind.symm.trans h <;> rfl
  · next fault r' h => cases p <;> cases hfind.symm.trans h <;> rfl
  · next kind literal r' h =>
    cases p <;> cases hfind.symm.trans h
    simp only [position_between]
    rw [hslice]
    rfl

end

end Reader

/-- What a piece leaves before the items of others. -/
theorem items_cons (line : Nat) (p : Piece) (ps : List Piece) : items line (p :: ps) =
    match item? (line + p.lineBreaks) p with
    | none => items (line + p.lineBreaks) ps
    | some item => item :: items (line + p.lineBreaks) ps := by
  rw [items]
  cases item? (line + p.lineBreaks) p <;> rfl

/-- **Where an item ends**, counted in bytes, **and the line that it has**: one more than there are
line breaks before that place. A string without an end and the end token are on the last line. -/
inductive EndsAt (source : String) : ScanItem → Nat → Prop
  | token {t : Token} {before after : List Char} (hkind : t.kind ≠ .eof)
    (hsource : source.toList = before ++ t.lexeme.toList ++ after)
    (hline : t.line = 1 + (before ++ t.lexeme.toList).count '\n') :
    EndsAt source (.ok t) (bytesOf (before ++ t.lexeme.toList)).length
  | stray {c : Char} {before after : List Char} (hsource : source.toList = before ++ c :: after) :
    EndsAt source (.error (.lex (1 + before.count '\n') (.unexpectedCharacter c)))
      (bytesOf (before ++ [c])).length
  | unterminated {before body : List Char} (hsource : source.toList = before ++ '"' :: body)
    (hbody : '"' ∉ body) :
    EndsAt source (.error (.lex (1 + lineBreaks source) .unterminatedString)) (bytes source).length
  | eof : EndsAt source (.ok (endToken (1 + lineBreaks source))) ((bytes source).length + 1)

/-- No lexeme has the kind of the end token. -/
theorem IsLexeme.kind_ne_eof {kind : Kind} {literal : Option Literal} {text : List Char}
    (h : IsLexeme kind literal text) : kind ≠ .eof := by
  obtain ⟨c, cs, rfl⟩ := h.exists_cons
  exact kind_cut_ne_eof h.cut_eq

/-- The item of a piece ends where the piece does. -/
theorem endsAt_of_item? {source : String} {pre rest : List Char} {p : Piece} {item : ScanItem}
    (hsource : source.toList = pre ++ p.text ++ rest) (hp : StandsBefore rest p)
    (h : item? (1 + (pre ++ p.text).count '\n') p = some item) :
    EndsAt source item (bytesOf (pre ++ p.text)).length := by
  cases p with
  | blank | comment => cases h
  | lexeme kind literal text =>
    cases h
    have hend := @EndsAt.token source
      ⟨kind, String.ofList text, literal, 1 + (pre ++ text).count '\n'⟩ pre rest hp.1.kind_ne_eof
    simp only [String.toList_ofList] at hend
    exact hend hsource trivial
  | unterminated body =>
    cases h
    obtain ⟨hbody, rfl⟩ := hp
    rw [List.append_nil] at hsource
    have hend := EndsAt.unterminated hsource hbody
    rwa [lineBreaks, bytes_eq, hsource] at hend
  | stray c =>
    cases h
    have hc : c ≠ '\n' := by
      rintro rfl
      cases hp.1
    have hbreaks : (pre ++ [c]).count '\n' = pre.count '\n' := by
      simp [hc]
    rw [Piece.text, hbreaks]
    exact .stray (by simpa [Piece.text] using hsource)

namespace Reader

/-- **The items that the calls of a reader give**, each of which ends where the reader then stands.
Behind the last one there is nothing. -/
inductive Yields (source : String) : Reader → List ScanItem → Prop
  | nothing {r : Reader} (h : r.next = some (none, r)) : Yields source r []
  | item {r r' : Reader} {item : ScanItem} {rest : List ScanItem}
    (h : r.next = some (some item, r')) (hend : EndsAt source item r'.position)
    (hrest : Yields source r' rest) : Yields source r (item :: rest)

/-- **The calls of a reader give the items of the pieces ahead of it.** -/
theorem yields_between {source : String} (pre rest : List Char)
    (hsource : source.toList = pre ++ rest) :
    Yields source (between pre rest (1 + pre.count '\n'))
      (items (1 + pre.count '\n') (pieces rest)) := by
  match rest with
  | [] =>
    rw [List.append_nil] at hsource
    refine .item (next_nil ..) ?_ (.nothing (next_end ..))
    have hend := @EndsAt.eof source
    rwa [lineBreaks, bytes_eq, hsource] at hend
  | c :: cs =>
    obtain ⟨rest, hrest⟩ := cut_isPrefix c cs
    have hsplit : source.toList = pre ++ (cut c cs).text ++ rest := by
      rw [hsource, List.append_assoc, hrest]
    have hdrop : (c :: cs).drop (cut c cs).text.length = rest := by rw [← hrest, List.drop_left]
    have hline : 1 + pre.count '\n' + (cut c cs).lineBreaks =
        1 + (pre ++ (cut c cs).text).count '\n' := by
      rw [List.count_append, Nat.add_assoc, Piece.lineBreaks]
    have hnext := next_cons pre rest (1 + pre.count '\n') hrest
    have hitems := items_cons (1 + pre.count '\n') (cut c cs) (pieces rest)
    have ih := yields_between (pre ++ (cut c cs).text) rest hsplit
    rw [pieces_cons, hdrop, hitems]
    rw [hline] at hnext ⊢
    cases hitem : item? (1 + (pre ++ (cut c cs).text).count '\n') (cut c cs) with
    | some item =>
      rw [hitem] at hnext
      exact .item hnext (endsAt_of_item? hsplit (standsBefore_cut hrest) hitem) ih
    | none =>
      rw [hitem] at hnext
      -- The piece leaves no item: the call reads on, and gives what the next one would.
      generalize hits : items (1 + (pre ++ (cut c cs).text).count '\n') (pieces rest) = its at ih ⊢
      cases ih with
      | nothing => exact absurd hits (items_ne_nil _ _)
      | item h hend hlater => exact .item (hnext.trans h) hend hlater
termination_by rest.length
decreasing_by
  have hpos : 0 < (cut c cs).text.length := List.length_pos_iff.mpr (cut_text_ne_nil c cs)
  have hlength := congrArg List.length hrest
  rw [List.length_append] at hlength
  omega

/-- **The calls of a reader at the start of a text give the items of `scan`.** -/
theorem yields_start (source : String) : Yields source (start source) (scan source) := by
  rw [start_eq]
  exact yields_between [] source.toList rfl

variable {source : String} {r : Reader} {its : List ScanItem}

/-- A call gives the item of its number, or none behind the last. -/
theorem Yields.nth_eq (h : Yields source r its) (n : Nat) : r.nth n = some its[n]? := by
  induction h generalizing n with
  | nothing h =>
    induction n with
    | zero => rw [nth, after, Option.bind_some, h, Option.map_some, List.getElem?_nil]
    | succ n ih =>
      rw [nth] at ih ⊢
      rwa [after, h, Option.bind_some]
  | item h _ _ ih =>
    cases n with
    | zero => rw [nth, after, Option.bind_some, h, Option.map_some, List.getElem?_cons_zero]
    | succ n =>
      have ih := ih n
      rw [nth] at ih ⊢
      rwa [after, h, Option.bind_some, List.getElem?_cons_succ]

/-- The reader then stands where the item ends. -/
theorem Yields.endsAt (h : Yields source r its) {n : Nat} {item : ScanItem}
    (hitem : its[n]? = some item) :
    ∃ r', r.after (n + 1) = some r' ∧ EndsAt source item r'.position := by
  induction h generalizing n with
  | nothing => cases hitem
  | @item r r' _ _ h hend _ ih =>
    cases n with
    | zero =>
      cases hitem
      exact ⟨r', by rw [after, h]; rfl, hend⟩
    | succ n =>
      obtain ⟨r'', hafter, hend⟩ := ih hitem
      exact ⟨r'', by rw [after, h]; exact hafter, hend⟩

end Reader

/-! ## The split behind the items -/

/-- Whether a piece leaves no item. -/
def isSilent : Piece → Bool
  | .blank _ | .comment _ => true
  | .lexeme .. | .unterminated _ | .stray _ => false

/-- What a piece leaves, on whatever line. -/
inductive Leaves : Piece → ScanItem → Prop
  | token (kind : Kind) (literal : Option Literal) (text : List Char) (line : Nat) :
    Leaves (.lexeme kind literal text) (.ok ⟨kind, String.ofList text, literal, line⟩)
  | unterminated (body : List Char) (line : Nat) :
    Leaves (.unterminated body) (.error (.lex line .unterminatedString))
  | stray (c : Char) (line : Nat) :
    Leaves (.stray c) (.error (.lex line (.unexpectedCharacter c)))

/-- Each piece that is not silent leaves one item, in order. -/
theorem items_leaves (ps : List Piece) (line : Nat) : ∃ its line',
    items line ps = its ++ [.ok (endToken line')] ∧
      List.Forall₂ Leaves (ps.filter (!isSilent ·)) its := by
  induction ps generalizing line with
  | nil => exact ⟨[], line, rfl, .nil⟩
  | cons p ps ih =>
    obtain ⟨its, line', hitems, hleaves⟩ := ih (line + p.lineBreaks)
    rw [items, hitems]
    cases p with
    | blank | comment => exact ⟨its, line', rfl, hleaves⟩
    | lexeme => exact ⟨_, line', rfl, .cons (.token ..) hleaves⟩
    | unterminated => exact ⟨_, line', rfl, .cons (.unterminated ..) hleaves⟩
    | stray => exact ⟨_, line', rfl, .cons (.stray ..) hleaves⟩

end Lexis

open Lexis

/-- **Scanning loses nothing and takes the longest lexeme.** There is one split of a text into pieces
that stand in their places: blanks, comments up to the line break, lexemes that are the longest ones
there, strings without an end, and characters that open nothing. The items are what these pieces
leave, in order, and one end token behind them; the text of a lexeme determines the kind and the
literal of its token. Read byte by byte, each call gives the next item, and nothing from the end on;
none fails for a slice that does not lie between characters. -/
theorem scan_lossless (source : String) : ∃ (ps : List Piece) (its : List ScanItem) (line : Nat),
    (Splits ps ∧ ps.flatMap Piece.text = source.toList) ∧
    (∀ qs, Splits qs → qs.flatMap Piece.text = source.toList → qs = ps) ∧
    (∀ kind literal text, .lexeme kind literal text ∈ ps → ∀ kind' literal',
      IsLexeme kind' literal' text → kind' = kind ∧ literal' = literal) ∧
    List.Forall₂ Leaves (ps.filter (!isSilent ·)) its ∧
    (∀ t, .ok t ∈ its → t.kind ≠ .eof) ∧
    scan source = its ++ [.ok (endToken line)] ∧
    ∀ n, (Reader.start source).nth n = some (its ++ [.ok (endToken line)])[n]? := by
  have hsplits := splits_pieces source.toList
  obtain ⟨its, line, hitems, hleaves⟩ := items_leaves (pieces source.toList) 1
  have hscan : scan source = its ++ [.ok (endToken line)] := hitems
  refine ⟨pieces source.toList, its, line, ⟨hsplits, flatten_pieces _⟩, ?_, ?_, hleaves, ?_, hscan,
    ?_⟩
  · intro qs hqs htext
    rw [← htext, pieces_of_splits hqs]
  · intro kind literal text hmem kind' literal' h
    exact h.unique (isLexeme_of_mem_splits hsplits hmem)
  · intro t ht
    refine kind_items_ne_eof 1 (pieces source.toList) (mem_piecesAfter 0 _) t ?_
    rwa [hitems, List.dropLast_concat]
  · intro n
    rw [← hscan]
    exact (Reader.yields_start source).nth_eq n

end LoxLang
