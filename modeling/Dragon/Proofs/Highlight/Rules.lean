import Dragon.Proofs.Highlight.Turns
import Dragon.Proofs.Script.Lexicon

/-!
# What the rules of the highlighter take

Outside of strings the first character decides: blanks, comments, numbers, words and operators are
each taken in one quiet turn, in code as well as in an interpolation, where only braces have rules
of their own.
-/
namespace Dragon

/-! ### Classes of characters -/

namespace Text

/-- The code points of a table, one by one. -/
def Ranges.codes (table : Ranges) : List Nat :=
  table.flatMap fun range => List.range' range.1 (range.2 + 1 - range.1)

theorem Ranges.mem_codes {table : Ranges} {c : Char} (h : table.contains c = true) :
    c.toNat ∈ table.codes := by
  obtain ⟨range, hrange, hc⟩ := List.any_eq_true.1 h
  refine List.mem_flatMap.2 ⟨range, hrange, List.mem_range'_1.2 ?_⟩
  simp only [Bool.and_eq_true, decide_eq_true_eq] at hc
  omega

/-- The code points of all white space. -/
def blankCodes : List Nat := List.range' 9 5 ++ List.range' 28 5 ++ blanks.codes

theorem mem_blankCodes {c : Char} (h : isBlank c = true) : c.toNat ∈ blankCodes := by
  unfold isBlank at h
  dsimp only at h
  split at h
  next hascii =>
    refine List.mem_append_left _ (List.mem_append.2 ?_)
    simp only [Bool.or_eq_true, Bool.and_eq_true, decide_eq_true_eq, beq_iff_eq] at h
    simp only [List.mem_range'_1]
    omega
  next => exact List.mem_append_right _ (Ranges.mem_codes h)

theorem not_isWordChar_of_isBlank {c : Char} (h : isBlank c = true) : isWordChar c = false := by
  have hall : ∀ n ∈ blankCodes, isWordChar (Char.ofNat n) = false := by decide +kernel
  have hc := hall c.toNat (mem_blankCodes h)
  rwa [Char.ofNat_toNat] at hc

end Text

theorem isWordChar_of_isNumeral {c : Char} (h : isNumeral c = true) :
    Text.isWordChar c = true := by
  unfold isNumeral at h
  obtain hdigit | hunderscore := Bool.or_eq_true_iff.1 h
  · exact Text.isWordChar_of_isDigit hdigit
  · rw [beq_iff_eq.1 hunderscore]
    decide

namespace Highlight

variable {before : Option Char} {c : Char} {rest cs : List Char} {stack : List Mode}
  {texts : List String}

/-- The texts of the last rule of code. -/
def punctuation : List String := ["(", ")", ",", ";", "[", "]", "\x7b", "\x7d", ":"]

/-! ### Rules that take nothing -/

theorem run_eq_zero {test : Char → Bool} (h : test c = false) :
    run test before (c :: rest) = 0 := by
  simp [run, h]

/-- No text of the list starts with a character outside the class of their first characters. -/
theorem oneOf_eq_zero (test : Char → Bool)
    (htexts : (texts.all fun t => t.toList.head?.any test) = true) (hc : test c = false) :
    oneOf texts before (c :: rest) = 0 := by
  have hnone : (texts.find? fun t => t.toList.isPrefixOf (c :: rest)) = none := by
    refine List.find?_eq_none.2 fun t ht hstarts => ?_
    have hhead := List.all_eq_true.1 htexts t ht
    cases htext : t.toList with
    | nil => simp [htext] at hhead
    | cons d ds =>
      obtain ⟨rfl, -⟩ : d = c ∧ ds <+: rest := by simpa [htext] using hstarts
      simp [htext, hc] at hhead
  rw [oneOf, hnone]

theorem comment_eq_zero (h : (c == '/' && rest.head? == some '/') = false) :
    comment before (c :: rest) = 0 := by
  unfold comment
  split
  next heq =>
    cases heq
    simp at h
  next => rfl

theorem digits_eq_zero (h : c.isDigit = false) : digits (c :: rest) = 0 := by
  simp [digits, h]

theorem word_eq_zero {words : List String} (h : Text.isWordChar c = false) :
    word words before (c :: rest) = 0 := by
  simp [word, h]

theorem name_eq_zero (h : Text.isWordChar c = false) : name before (c :: rest) = 0 := by
  simp [name, h]

theorem calledName_eq_zero (h : Text.isWordChar c = false) :
    calledName before (c :: rest) = 0 := by
  unfold calledName
  rw [name_eq_zero h]
  dsimp only
  split <;> rfl

/-! ### Entries -/

/-- An entry that leaves the stack as it is and whose pieces put no mark. -/
def Entry.IsQuiet (e : Entry) : Prop :=
  e.action = .stay ∧ e.style ≠ .error ∧ e.style ≠ .interpolation

theorem takes_of_find {done text : List Char} {e : Entry} (hcs : text ++ rest = cs)
    (hne : text ≠ [])
    (hfind : ((rules (stack.headD .code)).find? fun e => e.rule done.getLast? cs != 0) = some e)
    (hlength : e.rule done.getLast? cs = text.length) :
    Takes done stack text rest e.style (e.action.apply stack) := by
  subst hcs
  exact ⟨hne, by rw [step, hfind, ← hlength]⟩

/-! ### Modes outside of strings -/

/-- The modes but that of strings share the rules of code. Before these only braces have rules. -/
theorem find?_rules (hmode : stack.headD .code ≠ .string)
    (hbrace : c = '\x7b' ∨ c = '\x7d' → stack.headD .code = .code) :
    ((rules (stack.headD .code)).find? fun e => e.rule before (c :: rest) != 0) =
      codeRules.find? fun e => e.rule before (c :: rest) != 0 := by
  by_cases hcode : stack.headD .code = .code
  · rw [hcode, rules]
  · have hopen : oneOf ["\x7b"] before (c :: rest) = 0 :=
      oneOf_eq_zero (· == '\x7b') (by decide) (by grind)
    have hclose : oneOf ["\x7d"] before (c :: rest) = 0 :=
      oneOf_eq_zero (· == '\x7d') (by decide) (by grind)
    cases hm : stack.headD .code with
    | code => exact absurd hm hcode
    | string => exact absurd hm hmode
    | hole => simp [rules, hopen, hclose]
    | brace => simp [rules, hopen, hclose]

/-- A character of a class without braces is no brace. -/
theorem not_brace {test : Char → Bool} (hopen : test '\x7b' = false) (hclose : test '\x7d' = false)
    (hc : test c = true) {P : Prop} : c = '\x7b' ∨ c = '\x7d' → P := by
  rintro (rfl | rfl)
  · simp [hopen] at hc
  · simp [hclose] at hc

/-- The first rules of code take no character of a word. -/
theorem find?_codeRules_of_word (hc : Text.isWordChar c = true) (rest : List Char)
    (before : Option Char) :
    (codeRules.find? fun e => e.rule before (c :: rest) != 0) =
      (codeRules.drop 3).find? fun e => e.rule before (c :: rest) != 0 := by
  have hne {d : Char} (hd : Text.isWordChar d = false) : c ≠ d := by
    rintro rfl
    simp [hc] at hd
  have hblank : run Text.isBlank before (c :: rest) = 0 := by
    refine run_eq_zero (Bool.eq_false_iff.2 fun h => ?_)
    simp [Text.not_isWordChar_of_isBlank h] at hc
  have hcomment : comment before (c :: rest) = 0 :=
    comment_eq_zero (by simp [hne (d := '/') (by decide)])
  have hquote : oneOf ["\""] before (c :: rest) = 0 :=
    oneOf_eq_zero (· == '"') (by decide) (by simpa using hne (by decide))
  simp [codeRules, hblank, hcomment, hquote]

/-- How far a number goes: digits, a fraction and an exponent. -/
def numberLength (cs : List Char) : Nat :=
  let whole := digits cs
  let part := fraction (cs.drop whole)
  whole + part + exponent (cs.drop (whole + part))

/-- Whichever of the three rules for numbers is the first to apply, it takes the whole number. -/
theorem find?_number (before : Option Char) (h : digits cs ≠ 0) :
    ∃ e, ((codeRules.drop 3).find? fun e => e.rule before cs != 0) = some e ∧
      e.rule before cs = numberLength cs ∧ e.IsQuiet := by
  by_cases hpower : exponent (cs.drop (digits cs + fraction (cs.drop (digits cs)))) = 0
  · have hscientific : scientific before cs = 0 := by simp [scientific, hpower]
    by_cases hpart : fraction (cs.drop (digits cs)) = 0
    · have hdecimal : decimal before cs = 0 := by simp [decimal, hpart]
      have hwhole : whole before cs = digits cs := rfl
      refine ⟨⟨whole, .integer, .stay⟩, ?_, ?_, rfl, by decide, by decide⟩
      · simp [codeRules, hscientific, hdecimal, hwhole, h]
      · simp_all [numberLength]
    · have hdecimal : decimal before cs = digits cs + fraction (cs.drop (digits cs)) := by
        simp [decimal, hpart, h]
      refine ⟨⟨decimal, .float, .stay⟩, ?_, ?_, rfl, by decide, by decide⟩
      · simp [codeRules, hscientific, hdecimal, h]
      · simp [numberLength, hdecimal, hpower]
  · have hscientific : scientific before cs = numberLength cs := by
      simp [scientific, numberLength, hpower, h]
    refine ⟨⟨scientific, .float, .stay⟩, ?_, hscientific, rfl, by decide, by decide⟩
    simp [codeRules, hscientific, numberLength, h]

theorem word_length {words : List String} (h : word words before cs ≠ 0) :
    word words before cs = (cs.takeWhile Text.isWordChar).length := by
  unfold word at h ⊢
  dsimp only at h ⊢
  split at h
  next hcond => rw [if_pos hcond]
  next => exact absurd rfl h

theorem calledName_length (h : calledName before cs ≠ 0) :
    calledName before cs = name before cs := by
  unfold calledName at h ⊢
  dsimp only at h ⊢
  split at h
  next => rfl
  next => exact absurd rfl h

/-- All rules that apply to a word take the whole of it, so their order does not matter. -/
theorem find?_word (hc : Text.isWordChar c = true) (hdecimal : Text.isDecimal c = false)
    (rest : List Char) (before : Option Char) :
    ∃ e, ((codeRules.drop 3).find? fun e => e.rule before (c :: rest) != 0) = some e ∧
      e.rule before (c :: rest) = ((c :: rest).takeWhile Text.isWordChar).length ∧
      e.IsQuiet := by
  have hdigits : digits (c :: rest) = 0 := by
    refine digits_eq_zero (Bool.eq_false_iff.2 fun h => ?_)
    simp [Text.isDecimal_of_isDigit h] at hdecimal
  have hscientific : scientific before (c :: rest) = 0 := by simp [scientific, hdigits]
  have hpoint : decimal before (c :: rest) = 0 := by simp [decimal, hdigits]
  have hoperator : oneOf operators before (c :: rest) = 0 :=
    oneOf_eq_zero (!Text.isWordChar ·) (by decide) (by simpa using hc)
  have hpunctuation : oneOf punctuation before (c :: rest) = 0 :=
    oneOf_eq_zero (!Text.isWordChar ·) (by decide) (by simpa using hc)
  have hname : name before (c :: rest) = ((c :: rest).takeWhile Text.isWordChar).length := by
    simp [name, hc, hdecimal]
  have hall : ∀ e ∈ codeRules.drop 3, e.rule before (c :: rest) ≠ 0 →
      e.rule before (c :: rest) = ((c :: rest).takeWhile Text.isWordChar).length ∧ e.IsQuiet := by
    simp only [codeRules, List.drop_succ_cons, List.drop_zero, List.forall_mem_cons]
    refine ⟨fun h => absurd hscientific h, fun h => absurd hpoint h, fun h => absurd hdigits h,
      fun h => ⟨word_length h, rfl, by decide, by decide⟩,
      fun h => ⟨word_length h, rfl, by decide, by decide⟩,
      fun h => ⟨word_length h, rfl, by decide, by decide⟩,
      fun h => ⟨word_length h, rfl, by decide, by decide⟩,
      fun h => ⟨word_length h, rfl, by decide, by decide⟩,
      fun h => absurd hoperator h,
      fun h => ⟨(calledName_length h).trans hname, rfl, by decide, by decide⟩,
      fun _ => ⟨hname, rfl, by decide, by decide⟩,
      fun h => absurd hpunctuation h, by simp⟩
  have hsome : ((codeRules.drop 3).find? fun e => e.rule before (c :: rest) != 0).isSome := by
    refine List.find?_isSome.2 ⟨⟨name, .name, .stay⟩, by simp [codeRules], ?_⟩
    simp [hname, hc]
  obtain ⟨e, hfind⟩ := Option.isSome_iff_exists.1 hsome
  have hpos : e.rule before (c :: rest) ≠ 0 := by simpa using List.find?_some hfind
  exact ⟨e, hfind, hall e (List.mem_of_find?_eq_some hfind) hpos⟩

/-! ### Operators -/

theorem head?_text {o : Operator} (h : o.text.toList <+: c :: cs) :
    o.text.toList.head? = some c := by
  obtain ⟨d, ds, htext⟩ := List.exists_cons_of_ne_nil o.text_ne_nil
  rw [htext, List.cons_prefix_cons] at h
  rw [htext, h.1, List.head?_cons]

/-- No blank, no quote and no character of a word starts an operator. -/
theorem operator_head {o : Operator} (h : o.text.toList <+: c :: cs) :
    Text.isBlank c = false ∧ Text.isWordChar c = false ∧ c ≠ '"' := by
  have hall : (o.text.toList.head?.all fun d =>
      !Text.isBlank d && !Text.isWordChar d && d != '"') = true := by
    cases o <;> decide
  rw [head?_text h] at hall
  simpa [and_assoc] using hall

/-- The lists of operators of the highlighter and the scanner differ in the order of two single
characters. -/
theorem oneOf_operators (before : Option Char) (cs : List Char) :
    oneOf operators before cs =
      match (Operator.all.take 21).find? fun o => o.text.toList.isPrefixOf cs with
      | some o => o.text.length
      | none => oneOf ["=", "."] before cs := by
  have happend : operators = (Operator.all.take 21).map (·.text) ++ ["=", "."] := rfl
  have hcomp : (fun t : String => t.toList.isPrefixOf cs) ∘ (fun o : Operator => o.text) =
      fun o => o.text.toList.isPrefixOf cs := rfl
  rw [oneOf, happend, List.find?_append, List.find?_map, hcomp]
  cases (Operator.all.take 21).find? fun o => o.text.toList.isPrefixOf cs <;> rfl

/-- The other operators are single characters, either signs or punctuation. -/
theorem oneOf_short {o : Operator} (hmem : o ∈ Operator.all.drop 21)
    (hstarts : o.text.toList <+: c :: cs) (before : Option Char) :
    oneOf ["=", "."] before (c :: cs) = o.text.length ∨
      oneOf ["=", "."] before (c :: cs) = 0 ∧
        oneOf punctuation before (c :: cs) = o.text.length := by
  simp only [Operator.all, List.drop_succ_cons, List.drop_zero, List.mem_cons, List.not_mem_nil,
    or_false] at hmem
  obtain rfl | rfl | rfl | rfl | rfl | rfl | rfl | rfl | rfl | rfl | rfl := hmem
  all_goals
    simp [Operator.text] at hstarts
    simp [Operator.text, oneOf, punctuation, ← hstarts]

/-- Where an operator stands, only the rules of operators and of punctuation apply. -/
theorem find?_codeRules_of_operator {o : Operator} (hstarts : o.text.toList <+: c :: cs)
    (hcomment : (c == '/' && cs.head? == some '/') = false) (before : Option Char) :
    (oneOf operators before (c :: cs) ≠ 0 →
      (codeRules.find? fun e => e.rule before (c :: cs) != 0) =
        some ⟨oneOf operators, .operator, .stay⟩) ∧
    (oneOf operators before (c :: cs) = 0 → oneOf punctuation before (c :: cs) ≠ 0 →
      (codeRules.find? fun e => e.rule before (c :: cs) != 0) =
        some ⟨oneOf punctuation, .punctuation, .stay⟩) := by
  obtain ⟨hblank, hword, hquote⟩ := operator_head hstarts
  have hdigits : digits (c :: cs) = 0 := by
    refine digits_eq_zero (Bool.eq_false_iff.2 fun h => ?_)
    simp [Script.isWordChar_of_isDigit h] at hword
  have hwhole : whole before (c :: cs) = 0 := hdigits
  have hquote' : oneOf ["\""] before (c :: cs) = 0 :=
    oneOf_eq_zero (· == '"') (by decide) (by simpa using hquote)
  constructor
  · intro h
    simp [codeRules, run_eq_zero hblank, comment_eq_zero hcomment, hquote', scientific, decimal,
      hdigits, hwhole, word_eq_zero hword, h]
  · intro h h'
    unfold punctuation at h' ⊢
    simp [codeRules, run_eq_zero hblank, comment_eq_zero hcomment, hquote', scientific, decimal,
      hdigits, hwhole, word_eq_zero hword, name_eq_zero hword, calledName_eq_zero hword, h, h']

/-- The highlighter takes the operator that the scanner takes. -/
theorem find?_operator {o : Operator} (hstart : Operator.atStart? (c :: cs) = some o)
    (hcomment : (c == '/' && cs.head? == some '/') = false) (before : Option Char) :
    ∃ e, (codeRules.find? fun e => e.rule before (c :: cs) != 0) = some e ∧
      e.rule before (c :: cs) = o.text.toList.length ∧ e.IsQuiet := by
  have hstarts : o.text.toList <+: c :: cs := by simpa using List.find?_some hstart
  obtain ⟨hoperator, hpunctuation⟩ := find?_codeRules_of_operator hstarts hcomment before
  have hpos : o.text.length ≠ 0 := by
    rw [← String.length_toList]
    exact (List.length_pos_iff.2 o.text_ne_nil).ne'
  unfold Operator.atStart? at hstart
  rw [← List.take_append_drop 21 Operator.all, List.find?_append] at hstart
  have hvalue := oneOf_operators before (c :: cs)
  rw [String.length_toList]
  cases hlong : (Operator.all.take 21).find? fun o => o.text.toList.isPrefixOf (c :: cs) with
  | some o' =>
    rw [hlong] at hstart hvalue
    obtain rfl : o' = o := by simpa using hstart
    exact ⟨_, hoperator (hvalue ▸ hpos), hvalue, rfl, by decide, by decide⟩
  | none =>
    rw [hlong] at hstart hvalue
    have hmem : o ∈ Operator.all.drop 21 := List.mem_of_find?_eq_some (by simpa using hstart)
    obtain hsign | ⟨hnone, hmark⟩ := oneOf_short hmem hstarts before
    · have hlength := hvalue.trans hsign
      exact ⟨_, hoperator (hlength ▸ hpos), hlength, rfl, by decide, by decide⟩
    · exact ⟨_, hpunctuation (hvalue.trans hnone) (hmark ▸ hpos), hmark, rfl, by decide,
        by decide⟩

section Code

variable {done text : List Char} (hmode : stack.headD .code ≠ .string)
include hmode

/-- A text is taken quietly when the first rule of code that applies takes it. -/
theorem quiet_of_find {e : Entry} (hbrace : c = '\x7b' ∨ c = '\x7d' → stack.headD .code = .code)
    (hcs : text ++ rest = c :: cs) (hne : text ≠ [])
    (hfind : (codeRules.find? fun e => e.rule done.getLast? (c :: cs) != 0) = some e)
    (hlength : e.rule done.getLast? (c :: cs) = text.length) (he : e.IsQuiet) :
    Quiet done stack text rest := by
  obtain ⟨haction, hstyle⟩ := he
  have htakes := takes_of_find hcs hne ((find?_rules hmode hbrace).trans hfind) hlength
  rw [haction] at htakes
  exact ⟨e.style, htakes, hstyle⟩

theorem quietAt_blank (done cs : List Char) : QuietAt done stack Text.isBlank cs := by
  intro c hhead hc
  obtain ⟨rest, rfl⟩ := List.head?_eq_some_iff.1 hhead
  have hne : (c :: rest).takeWhile Text.isBlank ≠ [] := by simp [hc]
  have hfind : (codeRules.find? fun e => e.rule done.getLast? (c :: rest) != 0) =
      some ⟨run Text.isBlank, .text, .stay⟩ := by
    simp [codeRules, run, hc]
  exact quiet_of_find hmode (not_brace (by decide) (by decide) hc)
    List.takeWhile_append_dropWhile hne hfind rfl ⟨rfl, by decide, by decide⟩

/-- A comment is taken as a whole. -/
theorem quiet_comment (done rest : List Char) :
    Quiet done stack ('/' :: '/' :: rest.takeWhile (· != '\n')) (rest.dropWhile (· != '\n')) := by
  have hcs : '/' :: '/' :: rest.takeWhile (· != '\n') ++ rest.dropWhile (· != '\n') =
      '/' :: '/' :: rest := by
    rw [List.cons_append, List.cons_append, List.takeWhile_append_dropWhile]
  have hblank : run Text.isBlank done.getLast? ('/' :: '/' :: rest) = 0 :=
    run_eq_zero (by decide)
  have hlength : comment done.getLast? ('/' :: '/' :: rest) =
      ('/' :: '/' :: rest.takeWhile (· != '\n')).length := by
    simp only [comment, List.length_cons]
    omega
  have hfind : (codeRules.find? fun e => e.rule done.getLast? ('/' :: '/' :: rest) != 0) =
      some ⟨comment, .comment, .stay⟩ := by
    simp [codeRules, hblank, hlength]
  exact quiet_of_find hmode (by simp) hcs (List.cons_ne_nil _ _) hfind hlength
    ⟨rfl, by decide, by decide⟩

theorem takes_quote (done rest : List Char) :
    Takes done stack ['"'] rest .string (.string :: stack) := by
  have hblank : run Text.isBlank done.getLast? ('"' :: rest) = 0 := run_eq_zero (by decide)
  have hcomment : comment done.getLast? ('"' :: rest) = 0 := comment_eq_zero (by simp)
  have hquote : oneOf ["\""] done.getLast? ('"' :: rest) = 1 := rfl
  have hfind : (codeRules.find? fun e => e.rule done.getLast? ('"' :: rest) != 0) =
      some ⟨oneOf ["\""], .string, .push .string⟩ := by
    simp [codeRules, hblank, hcomment, hquote]
  exact takes_of_find rfl (List.cons_ne_nil _ _)
    ((find?_rules hmode (c := '"') (by simp)).trans hfind) hquote

/-- A number is taken as far as it goes. -/
theorem quiet_number (hc : c.isDigit = true) (hcs : text ++ rest = c :: cs) (hne : text ≠ [])
    (hlength : numberLength (c :: cs) = text.length) : Quiet done stack text rest := by
  have hword : Text.isWordChar c = true := Script.isWordChar_of_isDigit hc
  have hdigits : digits (c :: cs) ≠ 0 := by simp [digits, hc]
  obtain ⟨e, hfind, hrule, he⟩ := find?_number done.getLast? hdigits
  rw [← find?_codeRules_of_word hword] at hfind
  exact quiet_of_find hmode (not_brace (by decide) (by decide) hword) hcs hne hfind
    (hrule.trans hlength) he

/-- A word that does not start with a decimal digit is taken whole. -/
theorem quietAt_word (done : List Char) (hdecimal : ∀ c ∈ cs.head?, Text.isDecimal c = false) :
    QuietAt done stack Text.isWordChar cs := by
  intro c hhead hc
  obtain ⟨rest, rfl⟩ := List.head?_eq_some_iff.1 hhead
  obtain ⟨e, hfind, hrule, he⟩ := find?_word hc (hdecimal c rfl) rest done.getLast?
  rw [← find?_codeRules_of_word hc] at hfind
  exact quiet_of_find hmode (not_brace (by decide) (by decide) hc)
    List.takeWhile_append_dropWhile (by simp [hc]) hfind hrule he

theorem quiet_operator {o : Operator} (hstart : Operator.atStart? (c :: cs) = some o)
    (hbrace : c = '\x7b' ∨ c = '\x7d' → stack.headD .code = .code)
    (hcomment : (c == '/' && cs.head? == some '/') = false) :
    Quiet done stack o.text.toList ((c :: cs).drop o.text.toList.length) := by
  have hstarts : o.text.toList <+: c :: cs := by simpa using List.find?_some hstart
  obtain ⟨e, hfind, hrule, he⟩ := find?_operator hstart hcomment done.getLast?
  exact quiet_of_find hmode hbrace (List.prefix_iff_eq_append.1 hstarts) o.text_ne_nil hfind
    hrule he

end Code

/-! ### Braces of interpolations -/

variable {done : List Char}

/-- An opening brace in an interpolation. -/
theorem takes_openingBrace {mode : Mode} (hmode : mode = .hole ∨ mode = .brace)
    (done rest : List Char) :
    Takes done (mode :: stack) ['\x7b'] rest .punctuation (.brace :: mode :: stack) := by
  obtain rfl | rfl := hmode <;> exact ⟨List.cons_ne_nil _ _, rfl⟩

theorem takes_closingBrace (done rest : List Char) :
    Takes done (.brace :: stack) ['\x7d'] rest .punctuation stack :=
  ⟨List.cons_ne_nil _ _, rfl⟩

/-- The brace that ends an interpolation. -/
theorem takes_interpEnd (done rest : List Char) :
    Takes done (.hole :: stack) ['\x7d'] rest .interpolation stack :=
  ⟨List.cons_ne_nil _ _, rfl⟩

/-! ### Text of strings -/

/-- The characters of strings that stand for themselves, dollars apart. -/
def isPlain (c : Char) : Bool := c != '"' && c != '\\' && c != '$'

theorem takes_interpStart (done rest : List Char) :
    Takes done (.string :: stack) interpOpen rest .interpolation (.hole :: .string :: stack) :=
  ⟨List.cons_ne_nil _ _, rfl⟩

theorem takes_closingQuote (done rest : List Char) :
    Takes done (.string :: stack) ['"'] rest .string stack :=
  ⟨List.cons_ne_nil _ _, rfl⟩

theorem quiet_escape {code value : Char} (h : escaped? code = some value) (rest : List Char) :
    Quiet done (.string :: stack) ['\\', code] rest := by
  refine ⟨.escape, ⟨List.cons_ne_nil _ _, ?_⟩, by decide, by decide⟩
  unfold escaped? at h
  split at h <;> cases h <;> rfl

/-- Only a backslash starts an escape. -/
theorem oneOf_escapes (hc : c ≠ '\\') (before : Option Char) (rest : List Char) :
    oneOf ["\\n", "\\t", "\\\\", "\\\"", "\\$", "\\0"] before (c :: rest) = 0 :=
  oneOf_eq_zero (· == '\\') (by decide) (by simpa using hc)

/-- A dollar sign without a brace is text. -/
theorem quiet_dollar (h : rest.head? ≠ some '\x7b') :
    Quiet done (.string :: stack) ['$'] rest := by
  have hinterp : oneOf ["$\x7b"] done.getLast? ('$' :: rest) = 0 := by
    cases rest with
    | nil => rfl
    | cons c rest =>
      have hc : '\x7b' ≠ c := by simpa using Ne.symm h
      simp [oneOf, hc]
  have hrun : run isPlain done.getLast? ('$' :: rest) = 0 := run_eq_zero (by decide)
  have hdollar : oneOf ["$"] done.getLast? ('$' :: rest) = 1 := rfl
  have hfind : ((rules .string).find? fun e => e.rule done.getLast? ('$' :: rest) != 0) =
      some ⟨oneOf ["$"], .string, .stay⟩ := by
    unfold isPlain at hrun
    simp [rules, stringRules, oneOf_escapes, hinterp, hrun, hdollar]
  have htakes : Takes done (.string :: stack) ['$'] rest .string (.string :: stack) :=
    takes_of_find (e := ⟨_, _, .stay⟩) rfl (List.cons_ne_nil _ _) hfind hdollar
  exact ⟨.string, htakes, by decide, by decide⟩

theorem quietAt_isPlain (done cs : List Char) (stack : List Mode) :
    QuietAt done (.string :: stack) isPlain cs := by
  intro c hhead hc
  obtain ⟨rest, rfl⟩ := List.head?_eq_some_iff.1 hhead
  obtain ⟨⟨-, hescape⟩, hdollar⟩ : (c ≠ '"' ∧ c ≠ '\\') ∧ c ≠ '$' := by
    simpa [isPlain] using hc
  have hinterp : oneOf ["$\x7b"] done.getLast? (c :: rest) = 0 :=
    oneOf_eq_zero (· == '$') (by decide) (by simpa using hdollar)
  have hrun : run isPlain done.getLast? (c :: rest) ≠ 0 := by simp [run, hc]
  have hfind : ((rules .string).find? fun e => e.rule done.getLast? (c :: rest) != 0) =
      some ⟨run isPlain, .string, .stay⟩ := by
    unfold isPlain at hrun ⊢
    simp [rules, stringRules, oneOf_escapes hescape, hinterp, hrun]
  have htakes : Takes done (.string :: stack) ((c :: rest).takeWhile isPlain)
      ((c :: rest).dropWhile isPlain) .string (.string :: stack) :=
    takes_of_find (e := ⟨_, _, .stay⟩) List.takeWhile_append_dropWhile (by simp [hc]) hfind rfl
  exact ⟨.string, htakes, by decide, by decide⟩

variable {last : List Mode} {marks : List Mark}

/-- The text of a string up to its end puts no mark. -/
theorem Finishes.of_stretch {follow : List Char} (hcs : cs = (stretch cs).text ++ follow)
    (h : Finishes (done ++ (stretch cs).text) (.string :: stack) follow marks last) :
    Finishes done (.string :: stack) cs marks last := by
  fun_induction stretch cs generalizing done with
  | case6 code rest value hcode ih =>
    have hrest : rest = (stretch rest).text ++ follow := by simpa [Stretch.cons] using hcs
    refine (quiet_escape hcode rest).finishes_iff.2 (ih hrest ?_)
    rwa [List.append_assoc]
  | case8 c rest hline hquote hinterp hend hescape ih =>
    have hrest : rest = (stretch rest).text ++ follow := by simpa [Stretch.cons] using hcs
    have hfinishes : Finishes (done ++ [c]) (.string :: stack) rest marks last := by
      refine ih hrest ?_
      rwa [List.append_assoc]
    by_cases hdollar : c = '$'
    · subst hdollar
      have hhead : rest.head? ≠ some '\x7b' := by
        intro hhead
        obtain ⟨tail, htail⟩ := List.head?_eq_some_iff.1 hhead
        exact hinterp tail rfl htail
      exact (quiet_dollar hhead).finishes_iff.2 hfinishes
    · have hslash : c ≠ '\\' := by
        rintro rfl
        cases rest with
        | nil => exact hend rfl rfl
        | cons code tail => exact hescape code tail rfl rfl
      have hplain : ∀ d ∈ [c], isPlain d = true := by
        simpa [isPlain, hdollar, hslash] using hquote
      exact hfinishes.of_quietAt (quietAt_isPlain done ([c] ++ rest) stack)
        (quietAt_isPlain _ rest stack) hplain
  | _ =>
    rw [List.nil_append] at hcs
    rwa [List.append_nil, ← hcs] at h

end Highlight

end Dragon
