import Dragon.Proofs.Token.Joined
import Dragon.Proofs.Token.Numbers

/-!
# Tokens written out

Each token is written by its value, text of strings with escapes, and a blank stands between two
tokens unless they belong to the same string there. What is written for the tokens of a source text
is cut into these tokens again.
-/
namespace Dragon

variable {depths depths' : List Nat} {c : Char} {cs rest rest' follow : List Char}
  {pieces : List Piece} {ts : List (Kind × String)}

/-! ### Texts and their tokens -/

/-- The kinds and values of the tokens among some pieces. -/
def Piece.contents (pieces : List Piece) : List (Kind × String) :=
  pieces.filterMap fun p => p.kind.map fun kind => (kind, p.value)

theorem Piece.contents_append (first second : List Piece) :
    contents (first ++ second) = contents first ++ contents second := List.filterMap_append

theorem Piece.map_place (file : String) (start : Pos) (pieces : List Piece) :
    (place file start pieces).map (fun t => (t.kind, t.value)) = contents pieces := by
  induction pieces generalizing start with
  | nil => rfl
  | cons p rest ih =>
    unfold place
    dsimp only
    split
    next hkind => rw [ih, contents, contents, List.filterMap_cons, hkind, Option.map_none]
    next kind hkind =>
      rw [List.map_cons, ih, contents, contents, List.filterMap_cons, hkind, Option.map_some]

/-- A text that stands inside the interpolations given by their depths is cut into tokens of the
given kinds and values. -/
def Lexes (depths : List Nat) (cs : List Char) (ts : List (Kind × String)) : Prop :=
  (cut depths cs).fault = none ∧ Piece.contents (cut depths cs).pieces = ts

theorem Lexes.nil : Lexes [] [] [] := by
  rw [Lexes, cut]
  exact ⟨rfl, rfl⟩

theorem Lexes.take (hstep : step depths c rest = .take pieces depths' rest')
    (h : Lexes depths' rest' ts) : Lexes depths (c :: rest) (Piece.contents pieces ++ ts) := by
  obtain ⟨hfault, rfl⟩ := h
  rw [Lexes, cut_take hstep]
  exact ⟨hfault, Piece.contents_append _ _⟩

/-- Blanks at the start of a text change no token. -/
theorem lexes_dropWhile_iff :
    Lexes depths (cs.dropWhile isGapChar) ts ↔ Lexes depths cs ts := by
  obtain ⟨hfault, hplace⟩ := cut_blanks depths cs
  have hcontents := congrArg (List.map fun t => (t.kind, t.value)) (hplace "" .origin)
  rw [Piece.map_place, Piece.map_place] at hcontents
  rw [Lexes, Lexes, hfault, hcontents]

theorem Lexes.blank (h : Lexes depths cs ts) : Lexes depths (' ' :: cs) ts := by
  rw [← lexes_dropWhile_iff] at h ⊢
  exact h

/-! ### Words and operators -/

/-- No letter is a digit. -/
theorem Text.isDigit_eq_false_of_isLetter (h : Text.isLetter c = true) :
    Text.isDigit c = false := by
  have hascii := not_isDigit_of_isLetter h
  unfold isLetter at h
  unfold isDigit
  split at h
  next hlow => rwa [if_pos hlow]
  next hhigh =>
    -- No range of letters meets a run of decimal digits or a range of other digits.
    have hapart : (letters.all fun r => zeros.all (fun z => r.2.blt z || (z + 9).blt r.1) &&
        otherDigits.all fun s => r.2.blt s.1 || s.2.blt r.1) = true := by decide +kernel
    obtain ⟨r, hr, hc⟩ := List.any_eq_true.1 h
    obtain ⟨hzeros, hothers⟩ := Bool.and_eq_true_iff.1 (List.all_eq_true.1 hapart r hr)
    simp only [Bool.and_eq_true, decide_eq_true_eq] at hc
    rw [if_neg hhigh, Bool.or_eq_false_iff]
    constructor
    · unfold isDecimal decimalValue?
      rw [if_neg hhigh, Option.isSome_map, Option.isSome_eq_false_iff, Option.isNone_iff_eq_none,
        List.find?_eq_none]
      intro z hz
      have hne := List.all_eq_true.1 hzeros z hz
      simp only [Bool.and_eq_true, Bool.or_eq_true, Nat.blt_eq, decide_eq_true_eq] at hne ⊢
      omega
    · refine Bool.eq_false_iff.2 fun hother => ?_
      obtain ⟨s, hs, hmem⟩ := List.any_eq_true.1 hother
      have hne := List.all_eq_true.1 hothers s hs
      simp only [Bool.and_eq_true, Bool.or_eq_true, Nat.blt_eq, decide_eq_true_eq] at hmem hne
      omega

/-- Neither gaps nor strings start with a character of a word. -/
theorem step_of_isWordChar (hc : Text.isWordChar c = true) (depths : List Nat)
    (rest : List Char) :
    step depths c rest = if Text.isDigit c then stepNumber depths c rest
      else if Text.isLetter c || c == '_' then stepWord depths c rest
      else stepOperator depths c rest := by
  have hne {d : Char} (hd : Text.isWordChar d = false) : (c == d) = false := by
    refine Bool.eq_false_iff.2 fun heq => ?_
    rw [beq_iff_eq.1 heq, hd] at hc
    cases hc
  simp only [step, isGapChar, hne (d := ' ') (by decide), hne (d := '\t') (by decide),
    hne (d := '\r') (by decide), hne (d := '\n') (by decide), hne (d := '/') (by decide),
    hne (d := '"') (by decide), hne (d := '\x7d') (by decide), Bool.or_self, Bool.false_and,
    Bool.false_eq_true, if_false]

/-- A word is read back before what does not continue it. -/
theorem Lexes.word {word : String} (hword : IsIdentifier word.toList)
    (hfollow : ∀ d ∈ follow.head?, Text.isWordChar d = false) (h : Lexes depths follow ts) :
    Lexes depths (word.toList ++ follow) ((wordKind word, word) :: ts) := by
  have hchar := hword.isWordChar
  obtain ⟨c, tail, hlist, hc, htail⟩ := hword
  have hdigit : Text.isDigit c = false := by
    obtain hletter | rfl := hc
    · exact Text.isDigit_eq_false_of_isLetter hletter
    · decide
  obtain ⟨htake, hdrop⟩ := Check.span_append htail hfollow
  have hletter : (Text.isLetter c || c == '_') = true := by simpa using hc
  have hstep : step depths c (tail ++ follow) =
      .take [Piece.verbatim (wordKind word) word.toList] depths follow := by
    rw [step_of_isWordChar (hchar c (by simp [hlist])), hdigit, hletter, stepWord, htake, hdrop,
      ← hlist, String.ofList_toList]
    rfl
  rw [hlist, List.cons_append]
  have htoken := Lexes.take hstep h
  rwa [Piece.verbatim, String.ofList_toList] at htoken

/-- An operator is cut before what does not make it longer. A slash must not start a comment, nor a
brace close an interpolation. -/
theorem Lexes.operator (o : Operator)
    (hstart : Operator.atStart? (o.text.toList ++ follow) = some o)
    (hcomment : o = .slash → follow.head? ≠ some '/')
    (hclose : o = .rbrace → depths.head? ≠ some 0) (h : Lexes (depthsAfter o depths) follow ts) :
    Lexes depths (o.text.toList ++ follow) ((.operator o, o.text) :: ts) := by
  have hfirst : ∃ c tail, o.text.toList = c :: tail ∧ isGapChar c = false ∧ c ≠ '"' ∧
      Text.isDigit c = false ∧ (Text.isLetter c || c == '_') = false ∧
      (c = '/' → o = .slash ∧ tail = []) ∧ (c = '\x7d' → o = .rbrace) := by
    cases o <;> exact ⟨_, _, rfl, by decide⟩
  obtain ⟨c, tail, hlist, hgap, hquote, hdigit, hletter, hslash, hbrace⟩ := hfirst
  have hstep : step depths c (tail ++ follow) =
      .take [Piece.verbatim (.operator o) o.text.toList] (depthsAfter o depths) follow := by
    have hslash' : (c == '/' && (tail ++ follow).head? == some '/') = false := by
      refine Bool.eq_false_iff.2 fun h => ?_
      obtain ⟨hc, hhead⟩ := Bool.and_eq_true_iff.1 h
      obtain ⟨ho, rfl⟩ := hslash (by simpa using hc)
      exact hcomment ho (by simpa using hhead)
    have hbrace' : (c == '\x7d' && depths.head? == some 0) = false := by
      refine Bool.eq_false_iff.2 fun h => ?_
      obtain ⟨hc, hhead⟩ := Bool.and_eq_true_iff.1 h
      exact hclose (hbrace (by simpa using hc)) (by simpa using hhead)
    rw [hlist] at hstart
    simp only [step, hgap, hslash', hquote, hbrace', hdigit, hletter, beq_eq_false_iff_ne.2,
      if_false, Bool.false_eq_true, ne_eq, not_false_eq_true]
    rw [stepOperator, ← List.cons_append, hstart]
    dsimp only
    rw [← hlist, List.drop_left]
  rw [hlist, List.cons_append]
  have htoken := Lexes.take hstep h
  rwa [Piece.verbatim, String.ofList_toList] at htoken

/-! ### Numbers -/

/-- Nothing follows, or a blank. -/
def Halted (follow : List Char) : Prop := ∀ c ∈ follow.head?, c = ' '

theorem halted_nil : Halted [] := by
  simp [Halted]

theorem Halted.cases (h : Halted follow) : follow = [] ∨ ∃ more, follow = ' ' :: more := by
  cases follow with
  | nil => exact .inl rfl
  | cons c more => exact .inr ⟨more, by rw [h c rfl]⟩

theorem isNumeral_of_isDigits {digits : List Char} (h : IsDigits digits) :
    ∀ d ∈ digits, isNumeral d = true := fun d hd => by simp [isNumeral, h.2 d hd]

theorem any_head?_of_isDigits {digits : List Char} (h : IsDigits digits) (rest : List Char) :
    (digits ++ rest).head?.any Text.isDigit = true := by
  obtain ⟨d, others, rfl⟩ := List.exists_cons_of_ne_nil h.1
  exact h.2 d List.mem_cons_self

/-- An exponent, or nothing, ends the digits before it. -/
theorem head?_exponent {exponent : List Char} (h : IsExponent exponent) (hfollow : Halted follow) :
    ∀ d ∈ (exponent ++ follow).head?, isNumeral d = false ∧ d ≠ '.' := by
  intro d hd
  cases h with
  | none =>
    obtain rfl := hfollow d hd
    decide
  | @some mark _ _ hmark =>
    obtain rfl : mark = d := by simpa using hd
    obtain rfl | rfl : mark = 'e' ∨ mark = 'E' := by simpa [Check.isExponentMark] using hmark
    · decide
    · decide

theorem exponentPart_append {exponent : List Char} (h : IsExponent exponent)
    (hfollow : Halted follow) : exponentPart (exponent ++ follow) = exponent := by
  have hend : ∀ d ∈ follow.head?, isNumeral d = false := fun d hd => by
    rw [hfollow d hd]
    decide
  cases h with
  | none =>
    obtain rfl | ⟨more, rfl⟩ := hfollow.cases
    · rfl
    · rfl
  | @some mark sign digits hmark hsign hdigits =>
    have hsigned : signPart (sign ++ digits ++ follow) = sign := by
      simp only [List.mem_cons, List.not_mem_nil, or_false] at hsign
      obtain rfl | rfl | rfl := hsign
      · obtain ⟨d, others, rfl⟩ := List.exists_cons_of_ne_nil hdigits.1
        have hd := hdigits.2 d List.mem_cons_self
        have hplus : d ≠ '+' := ne_of_isDigit hd (by decide)
        have hminus : d ≠ '-' := ne_of_isDigit hd (by decide)
        simp [signPart, hplus, hminus]
      · rfl
      · rfl
    have hdrop : (sign ++ digits ++ follow).drop sign.length = digits ++ follow := by
      rw [List.append_assoc, List.drop_left]
    obtain ⟨htake, -⟩ := Check.span_append (isNumeral_of_isDigits hdigits) hend
    have hmark' : (mark == 'e' || mark == 'E') = true := hmark
    rw [List.cons_append, exponentPart, hsigned, hdrop, hmark', any_head?_of_isDigits hdigits,
      htake]
    rfl

theorem fractionPart_append {fraction exponent : List Char} (hfraction : IsFraction fraction)
    (hexponent : IsExponent exponent) (hfollow : Halted follow) :
    fractionPart (fraction ++ (exponent ++ follow)) = fraction := by
  have hend := head?_exponent hexponent hfollow
  cases hfraction with
  | none =>
    unfold fractionPart
    split
    next rest heq =>
      rw [List.nil_append] at heq
      rw [heq] at hend
      exact absurd rfl (hend '.' rfl).2
    next => rfl
  | some hdigits =>
    obtain ⟨htake, -⟩ :=
      Check.span_append (isNumeral_of_isDigits hdigits) fun d hd => (hend d hd).1
    rw [List.cons_append, fractionPart, if_pos (any_head?_of_isDigits hdigits _), htake]

/-- The parts of a number without underscores are found again. -/
theorem NumberTail.atStart_append {whole fraction exponent : List Char}
    (hwhole : ∀ d ∈ whole, Text.isDigit d = true) (hfraction : IsFraction fraction)
    (hexponent : IsExponent exponent) (hfollow : Halted follow) :
    atStart (whole ++ (fraction ++ (exponent ++ follow))) = ⟨whole, fraction, exponent⟩ := by
  have hnumeral : ∀ d ∈ whole, isNumeral d = true := fun d hd => by simp [isNumeral, hwhole d hd]
  have hend : ∀ d ∈ (fraction ++ (exponent ++ follow)).head?, isNumeral d = false := by
    cases hfraction with
    | none => exact fun d hd => (head?_exponent hexponent hfollow d hd).1
    | some =>
      intro d hd
      obtain rfl : '.' = d := by simpa using hd
      decide
  obtain ⟨htake, -⟩ := Check.span_append hnumeral hend
  unfold atStart
  dsimp only
  rw [htake, List.drop_left, fractionPart_append hfraction hexponent hfollow, ← List.length_append,
    ← List.append_assoc, List.drop_left, exponentPart_append hexponent hfollow]

/-- A part of a number that does not start with an underscore is empty without underscores only if
it is empty. -/
theorem isEmpty_filter (h : ∀ d ∈ cs.head?, d ≠ '_') :
    (cs.filter (· != '_')).isEmpty = cs.isEmpty := by
  cases cs with
  | nil => rfl
  | cons d rest => simp [h d rfl]

theorem kind_filter (rest : List Char) :
    let tail := NumberTail.atStart rest
    NumberTail.kind ⟨tail.whole.filter (· != '_'), tail.fraction.filter (· != '_'),
      tail.exponent.filter (· != '_')⟩ = tail.kind := by
  intro tail
  have hfraction : ∀ d ∈ tail.fraction.head?, d ≠ '_' := by
    intro d hd
    dsimp only [tail, NumberTail.atStart, fractionPart] at hd
    split at hd
    · split at hd
      · obtain rfl : '.' = d := by simpa using hd
        decide
      · cases hd
    · cases hd
  have hexponent : ∀ d ∈ tail.exponent.head?, d ≠ '_' := by
    intro d hd
    dsimp only [tail, NumberTail.atStart, exponentPart] at hd
    split at hd
    · split at hd
      next hmark =>
        obtain rfl := Option.some.inj hd
        rintro rfl
        simp at hmark
      · cases hd
    · cases hd
  simp only [NumberTail.kind, isEmpty_filter hfraction, isEmpty_filter hexponent]

/-- A number is read back, without underscores, before what ends it. -/
theorem Lexes.number (hc : Text.isDigit c = true) (rest : List Char) (hfollow : Halted follow)
    (h : Lexes depths follow ts) :
    let tail := NumberTail.atStart rest
    let value := (c :: tail.text).filter (· != '_')
    Lexes depths ((String.ofList value).toList ++ follow)
      ((tail.kind, String.ofList value) :: ts) := by
  intro tail value
  have hne : c ≠ '_' := ne_of_isDigit hc (by decide)
  let bare : NumberTail := ⟨tail.whole.filter (· != '_'), tail.fraction.filter (· != '_'),
    tail.exponent.filter (· != '_')⟩
  have hvalue : value = c :: bare.text := by
    simp [value, bare, NumberTail.text, hne]
  have hwhole : ∀ d ∈ bare.whole, Text.isDigit d = true := by
    intro d hd
    obtain ⟨hmem, hd⟩ := List.mem_filter.1 hd
    have hnumeral := NumberTail.isNumeral_whole rest d hmem
    simp_all [isNumeral]
  have hstart : NumberTail.atStart (bare.text ++ follow) = bare := by
    rw [NumberTail.text, List.append_assoc, List.append_assoc]
    exact NumberTail.atStart_append hwhole (isFraction_filter _) (isExponent_filter _) hfollow
  have hbare : ∀ d ∈ value, d ≠ '_' := fun d hd => by simpa using (List.mem_filter.1 hd).2
  have hstep : step depths c (bare.text ++ follow) =
      .take [Piece.token tail.kind value (String.ofList value)] depths follow := by
    have hlast : (value.getLast? == some '_') = false := by
      refine Bool.eq_false_iff.2 fun hlast => ?_
      exact hbare '_' (List.mem_of_getLast? (by simpa using hlast)) rfl
    have hfilter : value.filter (· != '_') = value :=
      List.filter_eq_self.2 fun d hd => by simpa using hbare d hd
    rw [step_of_isWordChar (Text.isWordChar_of_isDigit hc), hc, stepNumber, hstart, ← hvalue, hlast,
      hfilter, List.drop_left, kind_filter]
    rfl
  rw [String.toList_ofList, hvalue, List.cons_append, ← hvalue]
  exact Lexes.take hstep h

/-! ### Strings -/

/-- A character of a string as it is written. -/
def escapeText : Char → List Char
  | '\\' => ['\\', '\\']
  | '"' => ['\\', '"']
  | '$' => ['\\', '$']
  | '\n' => ['\\', 'n']
  | '\t' => ['\\', 't']
  | '\x00' => ['\\', '0']
  | c => [c]

theorem stretch_escapeText (c : Char) (cs : List Char) :
    stretch (escapeText c ++ cs) = (stretch cs).cons (escapeText c) c := by
  unfold escapeText
  split
  iterate 6 rfl
  next hslash hquote hdollar hline _ _ =>
    rw [List.singleton_append, stretch]
    · exact hline
    · exact hquote
    · exact fun _ hc _ => hdollar hc
    · exact fun hc _ => hslash hc
    · exact fun _ _ hc _ => hslash hc

/-- Text that is written with escapes is read back up to its end. -/
theorem stretch_written (value cs : List Char) :
    stretch (value.flatMap escapeText ++ cs) =
      ⟨value.flatMap escapeText ++ (stretch cs).text, value ++ (stretch cs).value,
        (stretch cs).stop⟩ := by
  induction value with
  | nil => rfl
  | cons c value ih =>
    rw [List.flatMap_cons, List.append_assoc, stretch_escapeText, ih, Stretch.cons,
      List.append_assoc]
    rfl

theorem stretch_quote (value rest : List Char) :
    stretch (value.flatMap escapeText ++ '"' :: rest) =
      ⟨value.flatMap escapeText, value, .quote rest⟩ := by
  rw [stretch_written, stretch, List.append_nil, List.append_nil]

theorem stretch_interpolation (value rest : List Char) :
    stretch (value.flatMap escapeText ++ (interpOpen ++ rest)) =
      ⟨value.flatMap escapeText, value, .interpolation rest⟩ := by
  rw [stretch_written]
  show Stretch.mk (_ ++ []) (_ ++ []) _ = _
  rw [List.append_nil, List.append_nil]
  rfl

/-! ### Writing tokens -/

/-- A token by its kind and value as it is written, given whether it stands inside a string. -/
def spelled (inside : Bool) (kind : Kind) (value : String) : List Char :=
  if kind = .string then
    let text := value.toList.flatMap escapeText
    if inside then text else '"' :: (text ++ ['"'])
  else value.toList

/-- Tokens one after the other, with a blank between two unless that is inside a string. -/
def written : (inside : Bool) → List (Kind × String) → List Char
  | _, [] => []
  | inside, (kind, value) :: rest =>
    let gap := if kind.inside inside || rest.isEmpty then [] else [' ']
    spelled inside kind value ++ (gap ++ written (kind.inside inside) rest)

/-- What is written after a token that ends outside of strings. -/
def spaced (ts : List (Kind × String)) : List Char :=
  (if ts.isEmpty then [] else [' ']) ++ written false ts

theorem written_outside {inside : Bool} {kind : Kind} (h : kind.inside inside = false)
    (value : String) (ts : List (Kind × String)) :
    written inside ((kind, value) :: ts) = spelled inside kind value ++ spaced ts := by
  simp [written, spaced, h]

theorem written_inside {inside : Bool} {kind : Kind} (h : kind.inside inside = true)
    (value : String) (ts : List (Kind × String)) :
    written inside ((kind, value) :: ts) = spelled inside kind value ++ written true ts := by
  simp [written, h]

theorem halted_spaced (ts : List (Kind × String)) : Halted (spaced ts) := by
  cases ts with
  | nil => nofun
  | cons t ts => simp [Halted, spaced]

theorem Lexes.spaced (h : Lexes depths (written false ts) ts) : Lexes depths (spaced ts) ts := by
  cases ts with
  | nil => exact h
  | cons t ts => exact h.blank

/-! ### Steps over what is written -/

/-- What is written for pieces, and for tokens after them, is cut into all their tokens. The depths
are those before and after the pieces. -/
def Rewrites (depths : List Nat) (pieces : List Piece) (depths' : List Nat) : Prop :=
  ∀ ts, Lexes depths' (written false ts) ts →
    Lexes depths (written false (Piece.contents pieces ++ ts)) (Piece.contents pieces ++ ts)

/-- Text of a string with the token before it and the one that ends it. -/
theorem rewrites_stretch {first last : Piece} {kind kind' : Kind} {mark : Char}
    {closing : List Char} (s : Stretch) (first' : Piece) (hfirst : first.kind = some kind)
    (hfirst' : first'.kind = some kind) (hvalues : first'.value = first.value)
    (hlast : last.kind = some kind') (hinside : kind.inside false = true)
    (hinside' : kind'.inside true = false) (hmark : first.value.toList = [mark])
    (hclosing : last.value.toList = closing)
    (hstep : ∀ follow, step depths mark (s.value.flatMap escapeText ++ (closing ++ follow)) =
      .take (first' :: Stretch.chunk ⟨s.value.flatMap escapeText, s.value, s.stop⟩ ++ [last])
        depths' follow) :
    Rewrites depths (first :: s.chunk ++ [last]) depths' := by
  intro ts hts
  have hne : kind ≠ .string := by
    rintro rfl
    cases hinside
  have hne' : kind' ≠ .string := by
    rintro rfl
    cases hinside'
  have hend : written true ((kind', last.value) :: ts) = closing ++ spaced ts := by
    rw [written_outside hinside', spelled, if_neg hne', hclosing]
  have htake := Lexes.take (hstep (spaced ts)) hts.spaced
  have hwritten (chunk : List (Kind × String)) (hchunk : written true (chunk ++
      (kind', last.value) :: ts) = s.value.flatMap escapeText ++ (closing ++ spaced ts)) :
      written false ((kind, first.value) :: (chunk ++ (kind', last.value) :: ts)) =
        mark :: (s.value.flatMap escapeText ++ (closing ++ spaced ts)) := by
    rw [written_inside hinside, spelled, if_neg hne, hmark, hchunk]
    rfl
  unfold Stretch.chunk at htake ⊢
  -- Empty text is no token, and the marks around it meet.
  by_cases hempty : s.value = []
  · have hchunk := hwritten [] (by simpa [hempty] using hend)
    simp [Piece.contents, hfirst, hfirst', hlast, hvalues, hempty] at htake hchunk ⊢
    rwa [hchunk]
  · have hchunk := hwritten [(.string, String.ofList s.value)]
      (by rw [List.singleton_append, written_inside rfl, hend]; simp [spelled])
    simp [Piece.contents, hfirst, hfirst', hlast, hvalues, hempty, Piece.token] at htake hchunk ⊢
    rwa [hchunk]

/-- A token outside of strings that is written by its value. -/
theorem lexes_verbatim {kind : Kind} {value : String} (hkind : kind ≠ .string)
    (hinside : kind.inside false = false)
    (h : Lexes depths (value.toList ++ spaced ts) ((kind, value) :: ts)) :
    Lexes depths (written false ((kind, value) :: ts)) ((kind, value) :: ts) := by
  rwa [written_outside hinside, spelled, if_neg hkind]

/-- What is written for the tokens of a step, and for others after them, is cut into them. -/
theorem Takes.rewrites {cs : List Char} (h : Takes depths cs pieces depths' rest') :
    Rewrites depths pieces depths' := by
  cases h with
  | blanks | comment => exact fun _ hts => hts
  | string rest =>
    intro ts hts
    have hwritten (value : List Char) : written false ((.string, String.ofList value) :: ts) =
        '"' :: (value.flatMap escapeText ++ '"' :: spaced ts) := by
      rw [written_outside rfl]
      simp [spelled]
    have hstep (value : List Char) :
        step depths '"' (value.flatMap escapeText ++ '"' :: spaced ts) =
          .take [Piece.token .string ('"' :: value.flatMap escapeText ++ ['"'])
            (String.ofList value)] depths (spaced ts) := by
      show stepString depths _ = _
      rw [stepString, stretch_quote]
    have htake := Lexes.take (hstep (stretch rest).value) hts.spaced
    rw [← hwritten] at htake
    exact htake
  | opens rest =>
    have hmark : "\"".toList = ['"'] := by decide
    refine rewrites_stretch (stretch rest)
      ⟨Kind.stringStart, ['"'], "\"", (stretch rest).value.flatMap escapeText⟩
      rfl rfl rfl rfl rfl rfl hmark String.toList_ofList fun follow => ?_
    show stepString depths _ = _
    rw [stepString, stretch_interpolation]
    rfl
  | closes rest =>
    refine rewrites_stretch (stretch rest) (.verbatim .interpEnd ['\x7d']) rfl rfl rfl rfl rfl rfl
      String.toList_ofList String.toList_ofList fun follow => ?_
    show stepClose _ _ = _
    rw [stepClose, List.singleton_append, stretch_quote]
    rfl
  | reopens rest =>
    refine rewrites_stretch (stretch rest) (.verbatim .interpEnd ['\x7d']) rfl rfl rfl rfl rfl rfl
      String.toList_ofList String.toList_ofList fun follow => ?_
    show stepClose _ _ = _
    rw [stepClose, stretch_interpolation]
    rfl
  | number rest hc =>
    have hkind : (NumberTail.atStart rest).kind ≠ .string := by
      obtain h | h := (NumberTail.atStart rest).kind_cases <;> simp [h]
    exact fun ts hts => lexes_verbatim hkind (NumberTail.kind_inside _)
      (Lexes.number hc rest (halted_spaced ts) hts.spaced)
  | word rest hc =>
    intro ts hts
    have hfollow : ∀ d ∈ (spaced ts).head?, Text.isWordChar d = false := by
      intro d hd
      rw [halted_spaced ts d hd]
      decide
    have hkind (word : String) : wordKind word ≠ .string := by
      obtain ⟨k, h⟩ | h | h := wordKind_cases word <;> simp [h]
    exact lexes_verbatim (hkind _) (wordKind_inside _)
      (hts.spaced.word (isIdentifier_word hc rest) hfollow)
  | @operator _ c rest o ho _ hclose =>
    intro ts hts
    have hstart : o.text.toList <+: c :: rest := by simpa using List.find?_some ho
    have hbrace : o = .rbrace → depths.head? ≠ some 0 := by
      rintro rfl hdepths
      have hc : '\x7d' = c := (List.cons_prefix_cons.1 hstart).1
      exact hclose (by simp [← hc, hdepths])
    -- No operator has a blank in it, so a blank ends each of them.
    have halone : Operator.atStart? (o.text.toList ++ spaced ts) = some o := by
      obtain hnil | ⟨more, hmore⟩ := (halted_spaced ts).cases
      · rw [hnil]
        cases o <;> rfl
      · rw [hmore]
        cases o <;> rfl
    have hcomment : o = .slash → (spaced ts).head? ≠ some '/' := by
      intro _ hhead
      exact absurd (halted_spaced ts '/' hhead) (by decide)
    have hoperator := hts.spaced.operator o halone hcomment hbrace
    rw [Piece.verbatim, String.ofList_toList]
    exact lexes_verbatim (by simp) rfl hoperator

/-- Written out, the tokens of a text are cut again. -/
theorem lexes_written (depths : List Nat) (cs : List Char) (h : (cut depths cs).fault = none) :
    Lexes depths (written false (Piece.contents (cut depths cs).pieces))
      (Piece.contents (cut depths cs).pieces) := by
  fun_induction cut depths cs with
  | case1 depths =>
    have hdepths : depths = [] := by
      by_contra hne
      simp [hne] at h
    subst hdepths
    exact .nil
  | case2 depths c rest pieces depths' rest' hstep tail ih =>
    rw [Piece.contents_append]
    exact (takes_of_step hstep).rewrites _ (ih h)
  | case3 => cases h

/-! ### Source texts -/

namespace TokenStream

/-- The tokens of a stream written out. -/
def written (stream : TokenStream) : String :=
  String.ofList (Dragon.written false (stream.tokens.map fun t => (t.kind, t.value)))

/-- What is written for the tokens of a source text has the same tokens. -/
theorem ofSource_written {file source : String} {stream : TokenStream}
    (h : ofSource file source = .ok stream) (file' : String) :
    ∃ stream', ofSource file' stream.written = .ok stream' ∧
      stream'.tokens.map (fun t => (t.kind, t.value)) =
        stream.tokens.map (fun t => (t.kind, t.value)) ∧
      stream'.eof.kind = stream.eof.kind ∧ stream'.eof.value = stream.eof.value := by
  have hfault := fault_of_ofSource h
  rw [ofSource_of_cut hfault] at h
  cases h
  obtain ⟨hfault', hcontents⟩ := lexes_written [] source.toList hfault
  rw [written, Piece.map_place]
  refine ⟨_, ofSource_of_cut (by rwa [String.toList_ofList]), ?_, rfl, rfl⟩
  rw [Piece.map_place, String.toList_ofList]
  exact hcontents

/-- The text in lines, with underscores and comments, and what is written for it. -/
theorem ofSource_written_layered :
    ∃ stream, ofSource "" layered = .ok stream ∧
      stream.written = "x = 10.5 ; y = \"a\\n$\x7b f ( \"b\" ) \x7dd\" ;" ∧
      ∃ stream', ofSource "" stream.written = .ok stream' ∧
        stream'.tokens.map (fun t => (t.kind, t.value)) =
          stream.tokens.map (fun t => (t.kind, t.value)) ∧
        stream'.eof.kind = stream.eof.kind ∧ stream'.eof.value = stream.eof.value := by
  have hany : (ofSource "" layered).toOption.any (fun stream => stream.written ==
      "x = 10.5 ; y = \"a\\n$\x7b f ( \"b\" ) \x7dd\" ;") = true := by decide +kernel
  obtain ⟨stream, hstream, hwritten⟩ := exists_of_any hany
  exact ⟨stream, hstream, beq_iff_eq.1 hwritten, ofSource_written hstream ""⟩

end TokenStream

end Dragon
