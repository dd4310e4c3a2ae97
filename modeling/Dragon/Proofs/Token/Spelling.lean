import Dragon.Token.Stream
import Mathlib.Data.List.TakeWhile

/-!
# How a text is spelled

Gaps, the text of strings and the tokens are described here on their own, without the steps that cut
them. Every piece that a step takes is then a gap or the spelling of its token, and the pieces of a
text that is cut without a fault follow one another from its start to its end.
-/
namespace Dragon

/-! ### Gaps and the text of strings -/

/-- Blanks and comments in front of the text `follow`. A comment runs to the end of its line, so
after it comes a line feed or nothing. -/
inductive IsGap (follow : List Char) : List Char → Prop
  | nil : IsGap follow []
  | blank {c : Char} {rest : List Char} (hc : c ∈ [' ', '\t', '\r', '\n'])
      (hrest : IsGap follow rest) : IsGap follow (c :: rest)
  | comment {text rest : List Char} (htext : '\n' ∉ text)
      (hstop : ∀ c ∈ (rest ++ follow).head?, c = '\n') (hrest : IsGap follow rest) :
      IsGap follow ('/' :: '/' :: (text ++ rest))

theorem IsGap.append {follow first second : List Char} (hfirst : IsGap (second ++ follow) first)
    (hsecond : IsGap follow second) : IsGap follow (first ++ second) := by
  induction hfirst with
  | nil => exact hsecond
  | blank hc _ ih => exact .blank hc ih
  | @comment text rest htext hstop _ ih =>
    have hcomment : IsGap follow ('/' :: '/' :: (text ++ (rest ++ second))) :=
      .comment htext (by rwa [List.append_assoc]) ih
    rwa [← List.append_assoc text] at hcomment

/-- The written text of a string and the text that it stands for. -/
inductive Decodes : List Char → List Char → Prop
  | nil : Decodes [] []
  | plain {c : Char} {cs vs : List Char} (hc : c ≠ '\\' ∧ c ≠ '"' ∧ c ≠ '\n')
      (hrest : Decodes cs vs) : Decodes (c :: cs) (c :: vs)
  | escape {code value : Char} {cs vs : List Char} (hcode : escaped? code = some value)
      (hrest : Decodes cs vs) : Decodes ('\\' :: code :: cs) (value :: vs)

theorem Decodes.eq_nil_iff {cs vs : List Char} (h : Decodes cs vs) : vs = [] ↔ cs = [] := by
  cases h <;> simp

theorem Decodes.newline_notMem {cs vs : List Char} (h : Decodes cs vs) : '\n' ∉ cs := by
  induction h with
  | nil => simp
  | plain hc _ ih => simp [ih, hc.2.2.symm]
  | @escape code value cs vs hcode _ ih =>
    have hne : '\n' ≠ code := by
      rintro rfl
      cases hcode
    simp [ih, hne]

/-! ### Tokens -/

/-- A letter or an underscore, and word characters after it. -/
def IsIdentifier (cs : List Char) : Prop :=
  ∃ c rest, cs = c :: rest ∧ (Text.isLetter c = true ∨ c = '_') ∧
    ∀ d ∈ rest, Text.isWordChar d = true

instance (cs : List Char) : Decidable (IsIdentifier cs) :=
  match cs with
  | [] => isFalse fun ⟨_, _, h, _⟩ => nomatch h
  | c :: rest =>
    have : Decidable (∀ d ∈ rest, Text.isWordChar d = true) := List.decidableBAll _ rest
    decidable_of_iff ((Text.isLetter c = true ∨ c = '_') ∧ ∀ d ∈ rest, Text.isWordChar d = true)
      ⟨fun h => ⟨c, rest, rfl, h⟩, by rintro ⟨_, _, ⟨⟩, h⟩; exact h⟩

/-- A digit, and after it only characters that pass a test. -/
def IsNumber (test : Char → Prop) (cs : List Char) : Prop :=
  ∃ c rest, cs = c :: rest ∧ Text.isDigit c = true ∧ ∀ d ∈ rest, test d

/-- The characters of a number with a fraction or an exponent. -/
def IsFloatChar (c : Char) : Prop := isNumeral c = true ∨ c ∈ ['.', 'e', 'E', '+', '-']

/-- The text of a token and its value. The flag says whether the text stands inside a string. -/
inductive Spells : (inside : Bool) → Kind → (lexeme : List Char) → (value : String) → Prop
  | keyword (k : Keyword) : Spells false (.keyword k) k.text.toList k.text
  | operator (o : Operator) : Spells false (.operator o) o.text.toList o.text
  | boolean {word : String} (hword : word = "shall" ∨ word = "shant") :
      Spells false .boolean word.toList word
  | identifier {word : String} (hword : IsIdentifier word.toList) :
      Spells false .identifier word.toList word
  | integer {lexeme : List Char} (hlexeme : IsNumber (isNumeral · = true) lexeme) :
      Spells false .integer lexeme (String.ofList (lexeme.filter (· != '_')))
  | float {lexeme : List Char} (hlexeme : IsNumber IsFloatChar lexeme) :
      Spells false .float lexeme (String.ofList (lexeme.filter (· != '_')))
  | string {text value : List Char} (htext : Decodes text value) :
      Spells false .string ('"' :: text ++ ['"']) (String.ofList value)
  | chunk {text value : List Char} (htext : Decodes text value) (hne : text ≠ []) :
      Spells true .string text (String.ofList value)
  | stringStart : Spells false .stringStart ['"'] "\""
  | interpStart : Spells true .interpStart interpOpen (String.ofList interpOpen)
  | interpEnd : Spells false .interpEnd ['\x7d'] "\x7d"
  | stringEnd : Spells true .stringEnd ['"'] "\""

theorem isDigit_iff {c : Char} : c.isDigit = true ↔ 48 ≤ c.toNat ∧ c.toNat ≤ 57 := by
  simp only [Char.isDigit, Bool.and_eq_true, decide_eq_true_eq, ge_iff_le, UInt32.le_iff_toNat_le]
  exact Iff.rfl

theorem isAlpha_iff {c : Char} :
    c.isAlpha = true ↔ 65 ≤ c.toNat ∧ c.toNat ≤ 90 ∨ 97 ≤ c.toNat ∧ c.toNat ≤ 122 := by
  delta Char.isAlpha Char.isUpper Char.isLower
  simp only [Bool.or_eq_true, Bool.and_eq_true, decide_eq_true_eq, ge_iff_le,
    UInt32.le_iff_toNat_le]
  exact Iff.rfl

theorem not_isDigit_of_isLetter {c : Char} (h : Text.isLetter c = true) : c.isDigit = false := by
  unfold Text.isLetter at h
  refine Bool.eq_false_iff.2 fun hdigit => ?_
  rw [isDigit_iff] at hdigit
  split at h
  next hascii =>
    rw [isAlpha_iff] at h
    omega
  next hascii => omega

theorem Text.isDigit_of_isDecimal {c : Char} (h : isDecimal c = true) : isDigit c = true := by
  unfold isDigit
  split
  next hascii => simpa [isDecimal, decimalValue?, hascii] using h
  next => simp [h]

theorem Text.isDecimal_of_isDigit {c : Char} (h : c.isDigit = true) : isDecimal c = true := by
  have hrange := isDigit_iff.1 h
  have hascii : c.toNat < 128 := by omega
  simp [isDecimal, decimalValue?, hascii, h]

theorem Text.isWordChar_of_isDigit {c : Char} (h : isDigit c = true) : isWordChar c = true := by
  unfold isDigit at h
  unfold isWordChar isAlphanumeric isDigit
  split at h
  next hlow => simp [hlow, Char.isAlphanum, h]
  next hhigh => simp [hhigh, h]

theorem Text.isWordChar_of_isLetter {c : Char} (h : Text.isLetter c = true) :
    Text.isWordChar c = true := by
  unfold Text.isLetter at h
  unfold Text.isWordChar Text.isAlphanumeric
  split at h
  next hascii => simp [hascii, Char.isAlphanum, h]
  next hascii => simp [hascii, Text.isLetter, h]

theorem IsIdentifier.isWordChar {cs : List Char} (h : IsIdentifier cs) :
    ∀ c ∈ cs, Text.isWordChar c = true := by
  obtain ⟨c, rest, rfl, hc, hrest⟩ := h
  refine List.forall_mem_cons.2 ⟨?_, hrest⟩
  obtain hletter | rfl := hc
  · exact Text.isWordChar_of_isLetter hletter
  · decide

theorem IsNumber.newline_notMem {test : Char → Prop} {cs : List Char} (htest : ¬ test '\n')
    (h : IsNumber test cs) : '\n' ∉ cs := by
  obtain ⟨c, rest, rfl, hc, hrest⟩ := h
  intro hmem
  obtain rfl | hmem := List.mem_cons.1 hmem
  · exact absurd hc (by decide)
  · exact htest (hrest _ hmem)

theorem IsNumber.ne_nil {test : Char → Prop} {cs : List Char} (h : IsNumber test cs) :
    cs ≠ [] := by
  obtain ⟨c, rest, rfl, -, -⟩ := h
  exact List.cons_ne_nil c rest

theorem Keyword.text_ne_nil (k : Keyword) : k.text.toList ≠ [] := by
  cases k <;> decide

/-- No token is empty. -/
theorem Spells.ne_nil {inside : Bool} {kind : Kind} {lexeme : List Char} {value : String}
    (h : Spells inside kind lexeme value) : lexeme ≠ [] := by
  cases h with
  | keyword k => exact k.text_ne_nil
  | operator o => exact o.text_ne_nil
  | boolean hword => obtain rfl | rfl := hword <;> decide
  | identifier hword =>
    obtain ⟨c, rest, heq, -, -⟩ := hword
    rw [heq]
    exact List.cons_ne_nil c rest
  | integer hlexeme => exact hlexeme.ne_nil
  | float hlexeme => exact hlexeme.ne_nil
  | chunk _ hne => exact hne
  | string | stringStart | interpStart | interpEnd | stringEnd => simp [interpOpen]

/-- No token goes past the end of its line. -/
theorem Spells.newline_notMem {inside : Bool} {kind : Kind} {lexeme : List Char}
    {value : String} (h : Spells inside kind lexeme value) : '\n' ∉ lexeme := by
  cases h with
  | keyword k => cases k <;> decide
  | operator o => cases o <;> decide
  | boolean hword => obtain rfl | rfl := hword <;> decide
  | identifier hword => exact fun hmem => absurd (hword.isWordChar _ hmem) (by decide)
  | integer hlexeme => exact hlexeme.newline_notMem (by decide)
  | float hlexeme => exact hlexeme.newline_notMem (by unfold IsFloatChar; decide)
  | string htext => simp [htext.newline_notMem]
  | chunk htext _ => exact htext.newline_notMem
  | stringStart | interpStart | interpEnd | stringEnd => decide

/-! ### Pieces in a row -/

/-- Whether the text after a token stands inside a string, given whether the token does. -/
def Kind.inside (before : Bool) : Kind → Bool
  | .stringStart | .interpEnd => true
  | .interpStart | .stringEnd => false
  | _ => before

/-- A piece in front of the text `follow`: a gap, or a token that is recorded where it ends. -/
def Piece.Fits (inside : Bool) (follow : List Char) (p : Piece) : Prop :=
  match p.kind with
  | none => inside = false ∧ IsGap follow p.text
  | some kind => Spells inside kind p.text p.value ∧ (kind ≠ .stringStart → p.ahead = [])

def Piece.inside (before : Bool) (p : Piece) : Bool := (p.kind.map (·.inside before)).getD before

/-- The text of some pieces. -/
def Piece.texts (pieces : List Piece) : List Char := pieces.flatMap (·.text)

@[simp] theorem Piece.texts_nil : texts [] = [] := rfl

@[simp] theorem Piece.texts_cons (p : Piece) (rest : List Piece) :
    texts (p :: rest) = p.text ++ texts rest := List.flatMap_cons

@[simp] theorem Piece.texts_append (first second : List Piece) :
    texts (first ++ second) = texts first ++ texts second := List.flatMap_append

/-- Pieces in a row in front of the text `follow`. The row ends outside of strings. -/
def Row (follow : List Char) : (inside : Bool) → List Piece → Prop
  | inside, [] => inside = false
  | inside, p :: rest =>
    p.Fits inside (Piece.texts rest ++ follow) ∧ Row follow (p.inside inside) rest

theorem Row.append {inside : Bool} {follow : List Char} {first second : List Piece}
    (hfirst : Row (Piece.texts second ++ follow) inside first)
    (hsecond : Row follow false second) : Row follow inside (first ++ second) := by
  induction first generalizing inside with
  | nil =>
    obtain rfl : inside = false := hfirst
    exact hsecond
  | cons p rest ih =>
    obtain ⟨hp, hrest⟩ := hfirst
    constructor
    · show p.Fits inside (Piece.texts (rest ++ second) ++ follow)
      rwa [Piece.texts_append, List.append_assoc]
    · exact ih hrest

/-! ### What a step takes -/

/-- A text that begins with some pieces in a row, and the text after them. -/
def Begins (cs : List Char) (pieces : List Piece) (rest : List Char) : Prop :=
  cs = Piece.texts pieces ++ rest ∧ Row rest false pieces

variable {depths depths' : List Nat} {c : Char} {rest rest' : List Char} {pieces : List Piece}

theorem begins_gap {text : List Char} (rest : List Char) (hgap : IsGap rest text) :
    Begins (text ++ rest) [Piece.gap text] rest := by
  constructor
  · simp [Piece.gap]
  · exact ⟨⟨rfl, hgap⟩, rfl⟩

/-- A token that neither opens nor closes a string. -/
theorem begins_token {kind : Kind} {text : List Char} {value : String} (rest : List Char)
    (h : Spells false kind text value) (hinside : kind.inside false = false) :
    Begins (text ++ rest) [Piece.token kind text value] rest := by
  constructor
  · simp [Piece.token]
  · exact ⟨⟨h, fun _ => rfl⟩, hinside⟩

theorem isGap_of_blanks {follow cs : List Char} (h : ∀ c ∈ cs, isGapChar c = true) :
    IsGap follow cs := by
  induction cs with
  | nil => exact .nil
  | cons c rest ih =>
    obtain ⟨hc, hrest⟩ := List.forall_mem_cons.1 h
    exact .blank (by simpa [isGapChar, or_assoc] using hc) (ih hrest)

/-- A text that starts like a comment is one up to the end of its line. -/
theorem isGap_comment (rest : List Char) :
    IsGap (rest.dropWhile (· != '\n')) ('/' :: '/' :: rest.takeWhile (· != '\n')) := by
  have htext : '\n' ∉ rest.takeWhile (· != '\n') := by
    intro hmem
    simpa using List.mem_takeWhile_imp hmem
  have hstop : ∀ c ∈ ([] ++ rest.dropWhile (· != '\n')).head?, c = '\n' := by
    intro c hc
    have hnot := List.head?_dropWhile_not (· != '\n') rest
    rw [List.nil_append, Option.mem_def] at hc
    rw [hc] at hnot
    simpa using hnot
  have hcomment := IsGap.comment htext hstop .nil
  rwa [List.append_nil] at hcomment

/-- String text up to its end stands for its value. -/
theorem stretch_decodes (cs : List Char) :
    Decodes (stretch cs).text (stretch cs).value ∧
      (∀ rest, (stretch cs).stop = .quote rest → cs = (stretch cs).text ++ '"' :: rest) ∧
      ∀ rest, (stretch cs).stop = .interpolation rest →
        cs = (stretch cs).text ++ (interpOpen ++ rest) := by
  fun_induction stretch cs with
  | case1 => exact ⟨.nil, by simp, by simp⟩
  | case2 => exact ⟨.nil, by simp, by simp⟩
  | case3 => exact ⟨.nil, by simp, by simp⟩
  | case4 => exact ⟨.nil, by simp, by simp [interpOpen]⟩
  | case5 => exact ⟨.nil, by simp, by simp⟩
  | case6 code rest value hcode ih =>
    obtain ⟨htext, hquote, hinterp⟩ := ih
    refine ⟨.escape hcode htext, fun rest' h => ?_, fun rest' h => ?_⟩
    · exact congrArg ('\\' :: code :: ·) (hquote rest' h)
    · exact congrArg ('\\' :: code :: ·) (hinterp rest' h)
  | case7 => exact ⟨.nil, by simp, by simp⟩
  | case8 c rest hline hquote _ hescape hslash ih =>
    obtain ⟨htext, hq, hinterp⟩ := ih
    have hne : c ≠ '\\' := by
      rintro rfl
      cases rest with
      | nil => exact hescape rfl rfl
      | cons code rest => exact hslash code rest rfl rfl
    refine ⟨.plain ⟨hne, hquote, hline⟩ htext, fun rest' h => ?_, fun rest' h => ?_⟩
    · exact congrArg (c :: ·) (hq rest' h)
    · exact congrArg (c :: ·) (hinterp rest' h)

section Stretch

variable {s : Stretch} (hs : Decodes s.text s.value)
include hs

theorem Stretch.texts_chunk : Piece.texts s.chunk = s.text := by
  unfold chunk
  split
  next hempty => simp [hs.eq_nil_iff.1 (List.isEmpty_iff.1 hempty)]
  next => simp [Piece.token]

/-- The token of a stretch stands inside a string. -/
theorem Stretch.row_chunk {follow : List Char} {tail : List Piece} (htail : Row follow true tail) :
    Row follow true (s.chunk ++ tail) := by
  unfold chunk
  split
  next => exact htail
  next hne =>
    have htext : s.text ≠ [] := fun h => hne (List.isEmpty_iff.2 (hs.eq_nil_iff.2 h))
    exact ⟨⟨.chunk hs htext, fun _ => rfl⟩, htail⟩

end Stretch

theorem row_interpStart (follow : List Char) :
    Row follow true [Piece.verbatim .interpStart interpOpen] :=
  ⟨⟨.interpStart, fun _ => rfl⟩, rfl⟩

theorem row_stringEnd (follow : List Char) :
    Row follow true [Piece.verbatim .stringEnd ['"']] :=
  ⟨⟨.stringEnd, fun _ => rfl⟩, rfl⟩

theorem wordKind_cases (word : String) : (∃ k, wordKind word = .keyword k) ∨
    wordKind word = .boolean ∨ wordKind word = .identifier := by
  unfold wordKind
  split
  · exact .inl ⟨_, rfl⟩
  · split <;> simp

theorem wordKind_inside (word : String) : (wordKind word).inside false = false := by
  obtain ⟨k, h⟩ | h | h := wordKind_cases word <;> rw [h] <;> rfl

theorem isIdentifier_word {c : Char} (hc : (Text.isLetter c || c == '_') = true)
    (rest : List Char) :
    IsIdentifier (String.ofList (c :: rest.takeWhile Text.isWordChar)).toList := by
  rw [String.toList_ofList]
  exact ⟨c, _, rfl, by simpa using hc, fun d hd => List.mem_takeWhile_imp hd⟩

/-- A word spells a keyword or an identifier. -/
theorem spells_word {word : String} (hword : IsIdentifier word.toList) :
    Spells false (wordKind word) word.toList word := by
  unfold wordKind
  split
  next k hk =>
    have htext : k.text = word := by simpa using List.find?_some hk
    rw [← htext]
    exact .keyword k
  next =>
    split
    next hbool => exact .boolean (by simpa using hbool)
    next => exact .identifier hword

theorem fractionPart_isPrefix (cs : List Char) : fractionPart cs <+: cs := by
  unfold fractionPart
  split
  next rest =>
    split
    · exact List.cons_prefix_cons.2 ⟨rfl, List.takeWhile_prefix isNumeral⟩
    · exact List.nil_prefix
  next => exact List.nil_prefix

theorem signPart_isPrefix (cs : List Char) : signPart cs <+: cs := by
  unfold signPart
  split
  · exact List.cons_prefix_cons.2 ⟨rfl, List.nil_prefix⟩
  · exact List.cons_prefix_cons.2 ⟨rfl, List.nil_prefix⟩
  · exact List.nil_prefix

theorem append_isPrefix_of_drop {first second cs : List Char} (hfirst : first <+: cs)
    (hsecond : second <+: cs.drop first.length) : first ++ second <+: cs := by
  obtain ⟨rest, rfl⟩ := hfirst
  rw [List.drop_left] at hsecond
  exact (List.prefix_append_right_inj first).2 hsecond

theorem exponentPart_isPrefix (cs : List Char) : exponentPart cs <+: cs := by
  unfold exponentPart
  split
  next e rest =>
    extract_lets sign digits
    split
    · refine List.cons_prefix_cons.2 ⟨rfl, ?_⟩
      exact append_isPrefix_of_drop (signPart_isPrefix rest) (List.takeWhile_prefix isNumeral)
    · exact List.nil_prefix
  next => exact List.nil_prefix

theorem NumberTail.text_isPrefix (cs : List Char) : (atStart cs).text <+: cs := by
  refine append_isPrefix_of_drop (append_isPrefix_of_drop ?_ ?_) ?_
  · exact List.takeWhile_prefix isNumeral
  · exact fractionPart_isPrefix _
  · rw [List.length_append]
    exact exponentPart_isPrefix _

theorem isFloatChar_fractionPart (cs : List Char) : ∀ d ∈ fractionPart cs, IsFloatChar d := by
  intro d hd
  unfold fractionPart at hd
  split at hd
  next rest =>
    split at hd
    · obtain rfl | hd := List.mem_cons.1 hd
      · exact .inr (by decide)
      · exact .inl (List.mem_takeWhile_imp hd)
    · cases hd
  next => cases hd

theorem isFloatChar_exponentPart (cs : List Char) : ∀ d ∈ exponentPart cs, IsFloatChar d := by
  intro d hd
  unfold exponentPart at hd
  split at hd
  next e rest =>
    extract_lets sign digits at hd
    split at hd
    next he =>
      obtain hd | hd := List.mem_append.1 hd
      · obtain rfl | hd := List.mem_cons.1 hd
        · have hletter : d = 'e' ∨ d = 'E' := by simpa using (Bool.and_eq_true_iff.1 he).1
          exact .inr (by obtain rfl | rfl := hletter <;> decide)
        · refine .inr ?_
          unfold sign signPart at hd
          split at hd <;> simp_all
      · exact .inl (List.mem_takeWhile_imp hd)
    next => cases hd
  next => cases hd

theorem NumberTail.isNumeral_whole (cs : List Char) :
    ∀ d ∈ (atStart cs).whole, isNumeral d = true := fun _ hd => List.mem_takeWhile_imp hd

/-- A number is spelled by its text, and its value has no underscores. -/
theorem spells_number (hc : Text.isDigit c = true) (rest : List Char) :
    Spells false (NumberTail.atStart rest).kind (c :: (NumberTail.atStart rest).text)
      (String.ofList ((c :: (NumberTail.atStart rest).text).filter (· != '_'))) := by
  have hwhole := NumberTail.isNumeral_whole rest
  unfold NumberTail.kind
  split
  next hempty =>
    obtain ⟨hfraction, hexponent⟩ := Bool.and_eq_true_iff.1 hempty
    refine .integer ⟨c, _, rfl, hc, ?_⟩
    intro d hd
    rw [NumberTail.text, List.isEmpty_iff.1 hfraction, List.isEmpty_iff.1 hexponent,
      List.append_nil, List.append_nil] at hd
    exact hwhole d hd
  next =>
    refine .float ⟨c, _, rfl, hc, ?_⟩
    intro d hd
    obtain hd | hd := List.mem_append.1 hd
    · obtain hd | hd := List.mem_append.1 hd
      · exact .inl (hwhole d hd)
      · exact isFloatChar_fractionPart _ d hd
    · exact isFloatChar_exponentPart _ d hd

theorem NumberTail.kind_cases (t : NumberTail) : t.kind = .integer ∨ t.kind = .float := by
  unfold kind
  split <;> simp

theorem NumberTail.kind_inside (t : NumberTail) : t.kind.inside false = false := by
  obtain h | h := t.kind_cases <;> rw [h] <;> rfl

/-- The ways in which a step takes pieces from the start of a text. -/
inductive Takes : List Nat → List Char → List Piece → List Nat → List Char → Prop
  | blanks {depths : List Nat} {text rest : List Char} (h : ∀ d ∈ text, isGapChar d = true) :
      Takes depths (text ++ rest) [.gap text] depths rest
  | comment {depths : List Nat} (rest : List Char) :
      Takes depths ('/' :: '/' :: rest) [.gap ('/' :: '/' :: rest.takeWhile (· != '\n'))] depths
        (rest.dropWhile (· != '\n'))
  | string {depths : List Nat} (rest : List Char) {rest' : List Char}
      (h : (stretch rest).stop = .quote rest') :
      Takes depths ('"' :: rest) [.token .string ('"' :: (stretch rest).text ++ ['"'])
        (String.ofList (stretch rest).value)] depths rest'
  | opens {depths : List Nat} (rest : List Char) {rest' : List Char}
      (h : (stretch rest).stop = .interpolation rest') :
      Takes depths ('"' :: rest) (⟨some .stringStart, ['"'], "\"", (stretch rest).text⟩ ::
        (stretch rest).chunk ++ [.verbatim .interpStart interpOpen]) (0 :: depths) rest'
  | closes {depths : List Nat} (rest : List Char) {rest' : List Char}
      (h : (stretch rest).stop = .quote rest') :
      Takes (0 :: depths) ('\x7d' :: rest) (.verbatim .interpEnd ['\x7d'] ::
        (stretch rest).chunk ++ [.verbatim .stringEnd ['"']]) depths rest'
  | reopens {depths : List Nat} (rest : List Char) {rest' : List Char}
      (h : (stretch rest).stop = .interpolation rest') :
      Takes (0 :: depths) ('\x7d' :: rest) (.verbatim .interpEnd ['\x7d'] ::
        (stretch rest).chunk ++ [.verbatim .interpStart interpOpen]) (0 :: depths) rest'
  | number {depths : List Nat} {c : Char} (rest : List Char) (hc : Text.isDigit c = true) :
      Takes depths (c :: rest) [.token (NumberTail.atStart rest).kind
        (c :: (NumberTail.atStart rest).text)
        (String.ofList ((c :: (NumberTail.atStart rest).text).filter (· != '_')))] depths
        (rest.drop (NumberTail.atStart rest).text.length)
  | word {depths : List Nat} {c : Char} (rest : List Char)
      (hc : (Text.isLetter c || c == '_') = true) (hdigit : ¬ Text.isDigit c = true) :
      Takes depths (c :: rest) [.verbatim
        (wordKind (String.ofList (c :: rest.takeWhile Text.isWordChar)))
        (c :: rest.takeWhile Text.isWordChar)] depths (rest.dropWhile Text.isWordChar)
  | operator {depths : List Nat} {c : Char} {rest : List Char} {o : Operator}
      (ho : Operator.atStart? (c :: rest) = some o)
      (hcomment : ¬ (c == '/' && rest.head? == some '/') = true)
      (hclose : ¬ (c == '\x7d' && depths.head? == some 0) = true) :
      Takes depths (c :: rest) [.verbatim (.operator o) o.text.toList] (depthsAfter o depths)
        ((c :: rest).drop o.text.toList.length)

/-- Every step of the scanner takes what some token or gap is spelled by. -/
theorem takes_of_step (h : step depths c rest = .take pieces depths' rest') :
    Takes depths (c :: rest) pieces depths' rest' := by
  unfold step at h
  split at h
  next hblank =>
    cases h
    have htakes : Takes depths (c :: rest.takeWhile isGapChar ++ rest.dropWhile isGapChar) _ _ _ :=
      .blanks (List.forall_mem_cons.2 ⟨hblank, fun d hd => List.mem_takeWhile_imp hd⟩)
    rwa [List.cons_append, List.takeWhile_append_dropWhile] at htakes
  split at h
  next hcomment =>
    cases h
    obtain ⟨hc, hhead⟩ := Bool.and_eq_true_iff.1 hcomment
    obtain rfl : c = '/' := by simpa using hc
    obtain ⟨rest, rfl⟩ := List.head?_eq_some_iff.1 (by simpa using hhead)
    have htakes : Takes depths _ _ _ _ := .comment rest
    simpa using htakes
  next hcomment =>
  split at h
  next hquote =>
    obtain rfl : c = '"' := by simpa using hquote
    unfold stepString at h
    dsimp only at h
    split at h <;> cases h
    · exact .string rest ‹_›
    · exact .opens rest ‹_›
  split at h
  next hclose =>
    obtain ⟨hc, hhead⟩ := Bool.and_eq_true_iff.1 hclose
    obtain rfl : c = '\x7d' := by simpa using hc
    obtain ⟨ds, rfl⟩ := List.head?_eq_some_iff.1 (by simpa using hhead)
    unfold stepClose at h
    dsimp only at h
    split at h <;> cases h
    · exact .closes rest ‹_›
    · exact .reopens rest ‹_›
  next hclose =>
  split at h
  next hdigit =>
    unfold stepNumber at h
    dsimp only at h
    split at h <;> cases h
    exact .number rest hdigit
  next hdigit =>
  split at h
  next hletter =>
    cases h
    exact .word rest hletter hdigit
  next =>
    unfold stepOperator at h
    split at h <;> cases h
    exact .operator ‹_› hcomment hclose

/-- Every step takes a gap or the tokens that its text spells. -/
theorem Takes.begins {cs : List Char} (h : Takes depths cs pieces depths' rest') :
    Begins cs pieces rest' := by
  cases h with
  | blanks h => exact begins_gap _ (isGap_of_blanks h)
  | comment rest =>
    have hpiece := begins_gap _ (isGap_comment rest)
    rwa [List.cons_append, List.cons_append, List.takeWhile_append_dropWhile] at hpiece
  | string rest h =>
    obtain ⟨htext, hquote, -⟩ := stretch_decodes rest
    exact ⟨by simpa [Piece.token] using hquote _ h, ⟨.string htext, fun _ => rfl⟩, rfl⟩
  | opens rest h =>
    obtain ⟨htext, -, hinterp⟩ := stretch_decodes rest
    constructor
    · simpa [(stretch rest).texts_chunk htext, Piece.verbatim, Piece.token] using hinterp _ h
    · exact ⟨⟨.stringStart, fun hne => absurd rfl hne⟩,
        (stretch rest).row_chunk htext (row_interpStart rest')⟩
  | closes rest h =>
    obtain ⟨htext, hquote, -⟩ := stretch_decodes rest
    constructor
    · simpa [(stretch rest).texts_chunk htext, Piece.verbatim, Piece.token] using hquote _ h
    · exact ⟨⟨.interpEnd, fun _ => rfl⟩,
        (stretch rest).row_chunk htext (row_stringEnd rest')⟩
  | reopens rest h =>
    obtain ⟨htext, -, hinterp⟩ := stretch_decodes rest
    constructor
    · simpa [(stretch rest).texts_chunk htext, Piece.verbatim, Piece.token] using hinterp _ h
    · exact ⟨⟨.interpEnd, fun _ => rfl⟩,
        (stretch rest).row_chunk htext (row_interpStart rest')⟩
  | number rest hc =>
    have htoken := begins_token (rest.drop (NumberTail.atStart rest).text.length)
      (spells_number hc rest) (NumberTail.kind_inside _)
    rwa [List.cons_append, List.prefix_iff_eq_append.1 (NumberTail.text_isPrefix rest)] at htoken
  | word rest hc =>
    have htoken := begins_token (rest.dropWhile Text.isWordChar)
      (spells_word (isIdentifier_word hc rest)) (wordKind_inside _)
    rwa [String.toList_ofList, List.cons_append, List.takeWhile_append_dropWhile] at htoken
  | @operator _ c rest o ho =>
    have hstart : o.text.toList <+: c :: rest := by simpa using List.find?_some ho
    have htoken := begins_token ((c :: rest).drop o.text.toList.length) (Spells.operator o) rfl
    rw [List.prefix_iff_eq_append.1 hstart] at htoken
    rwa [Piece.verbatim, String.ofList_toList]

/-- A text that is cut without a fault is its pieces in a row. -/
theorem begins_of_cut (depths : List Nat) (cs : List Char) (h : (cut depths cs).fault = none) :
    Begins cs (cut depths cs).pieces [] := by
  fun_induction cut depths cs with
  | case1 => exact ⟨rfl, rfl⟩
  | case2 depths c rest pieces depths' rest' hstep tail ih =>
    obtain ⟨hpieces, hrow⟩ := (takes_of_step hstep).begins
    obtain ⟨htail, hrest⟩ := ih h
    rw [List.append_nil] at htail
    constructor
    · rw [hpieces, htail, Piece.texts_append, List.append_nil]
    · refine Row.append ?_ hrest
      rwa [List.append_nil, ← htail]
  | case3 => cases h

/-! ### Identifiers -/

/-- The pieces of a row are spelled each for itself. -/
theorem Row.spells {inside : Bool} {follow : List Char} {pieces : List Piece}
    (h : Row follow inside pieces) {p : Piece} (hp : p ∈ pieces) {kind : Kind}
    (hkind : p.kind = some kind) : ∃ inside, Spells inside kind p.text p.value := by
  induction pieces generalizing inside with
  | nil => cases hp
  | cons q rest ih =>
    obtain ⟨hq, hrest⟩ := h
    obtain rfl | hp := List.mem_cons.1 hp
    · rw [Piece.Fits, hkind] at hq
      exact ⟨inside, hq.1⟩
    · exact ih hrest hp

end Dragon
