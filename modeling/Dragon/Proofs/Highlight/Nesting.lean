import Dragon.Proofs.Highlight.Numbers
import Dragon.Proofs.Token.Joined

/-!
# The highlighter follows the nesting of strings

The stack of modes stands for the depths of the interpolations that the scanner keeps: for each of
them the braces open in it, the interpolation and its string. Each step of the scanner is a row of
turns of the highlighter, and the marks that these put are those of the tokens.
-/
namespace Dragon.Highlight

variable {done rest cs : List Char} {stack last : List Mode} {marks : List Mark} {c : Char}

/-! ### Marks of tokens -/

/-- The marks of a token. A string without interpolations begins and ends with a quote; the flag
says that the token is text inside of an interpolated one. -/
def tokenMarks (inside : Bool) (t : Token) : List Mark :=
  match t.kind with
  | .string =>
    if inside then [] else [⟨.enters, t.span.start, "\""⟩, ⟨.leaves, t.span.stop, "\""⟩]
  | .stringStart => [⟨.enters, t.span.start, "\""⟩]
  | .stringEnd => [⟨.leaves, t.span.start, "\""⟩]
  | .interpStart | .interpEnd => [⟨.interpolates, t.span.start, t.value⟩]
  | _ => []

/-- The marks of tokens in a row. -/
def rowMarks : (inside : Bool) → List Token → List Mark
  | _, [] => []
  | inside, t :: ts => tokenMarks inside t ++ rowMarks (t.kind.inside inside) ts

/-! ### Modes and depths -/

/-- The modes at a place inside of interpolations with these depths. -/
def modes : List Nat → List Mode
  | [] => [.code]
  | d :: ds => List.replicate d .brace ++ .hole :: .string :: modes ds

@[simp] theorem modes_zero (ds : List Nat) : modes (0 :: ds) = .hole :: .string :: modes ds := rfl

@[simp] theorem modes_succ (d : Nat) (ds : List Nat) :
    modes ((d + 1) :: ds) = .brace :: modes (d :: ds) := rfl

theorem modes_ne_string (depths : List Nat) : (modes depths).headD .code ≠ .string := by
  cases depths with
  | nil => decide
  | cons d ds => cases d <;> simp

/-! ### Turns with marks -/

theorem ne_cons_cons (a b : Mode) (stack : List Mode) : stack ≠ a :: b :: stack := by
  intro h
  have hlength := congrArg List.length h
  rw [List.length_cons, List.length_cons] at hlength
  omega

theorem Finishes.of_openingQuote (hmode : stack.headD .code ≠ .string)
    (h : Finishes (done ++ ['"']) (.string :: stack) rest marks last) :
    Finishes done stack ('"' :: rest) (⟨.enters, .after done, "\""⟩ :: marks) last := by
  have hfinishes := h.of_takes (takes_quote hmode done rest) (by decide)
  simpa [Turn.marks, Turn.mark, ne_cons_cons] using hfinishes

theorem Finishes.of_closingQuote (h : Finishes (done ++ ['"']) stack rest marks last) :
    Finishes done (.string :: stack) ('"' :: rest)
      (⟨.leaves, .after done, "\""⟩ :: marks) last := by
  have hfinishes := h.of_takes (takes_closingQuote done rest) (by decide)
  simpa [Turn.marks, Turn.mark, ne_cons_cons] using hfinishes

theorem Finishes.of_interpStart
    (h : Finishes (done ++ interpOpen) (.hole :: .string :: stack) rest marks last) :
    Finishes done (.string :: stack) (interpOpen ++ rest)
      (⟨.interpolates, .after done, String.ofList interpOpen⟩ :: marks) last := by
  have hfinishes := h.of_takes (takes_interpStart done rest) (by decide)
  simpa [Turn.marks, Turn.mark, ne_cons_cons] using hfinishes

theorem Finishes.of_interpEnd (h : Finishes (done ++ ['\x7d']) stack rest marks last) :
    Finishes done (.hole :: stack) ('\x7d' :: rest)
      (⟨.interpolates, .after done, "\x7d"⟩ :: marks) last := by
  have hfinishes := h.of_takes (takes_interpEnd done rest) (by decide)
  simpa [Turn.marks, Turn.mark, ne_cons_cons] using hfinishes

theorem Finishes.of_openingBrace {mode : Mode} (hmode : mode = .hole ∨ mode = .brace)
    (h : Finishes (done ++ ['\x7b']) (.brace :: mode :: stack) rest marks last) :
    Finishes done (mode :: stack) ('\x7b' :: rest) marks last := by
  have hfinishes := h.of_takes (takes_openingBrace hmode done rest) (by decide)
  simpa [Turn.marks, Turn.mark, ne_cons_cons] using hfinishes

theorem Finishes.of_closingBrace (h : Finishes (done ++ ['\x7d']) stack rest marks last) :
    Finishes done (.brace :: stack) ('\x7d' :: rest) marks last := by
  have hfinishes := h.of_takes (takes_closingBrace done rest) (by decide)
  simpa [Turn.marks, Turn.mark, ne_cons_cons] using hfinishes

/-! ### Marks of pieces -/

/-- The marks of pieces in a row that stand after the text `done`. -/
def pieceMarks (file : String) (inside : Bool) (done : List Char) (pieces : List Dragon.Piece) :
    List Mark :=
  rowMarks inside (Piece.place file (.after done) pieces)

section Pieces

variable {file : String} {inside : Bool} {pieces : List Dragon.Piece}

@[simp] theorem pieceMarks_nil : pieceMarks file inside done [] = [] := rfl

/-- The marks of one piece are those of its token. -/
theorem pieceMarks_cons (p : Dragon.Piece) :
    pieceMarks file inside done (p :: pieces) =
      pieceMarks file inside done [p] ++
        pieceMarks file (p.inside inside) (done ++ p.text) pieces := by
  unfold pieceMarks Piece.inside
  rw [Piece.place, Piece.place, Pos.advance_after]
  cases p.kind with
  | none => rfl
  | some kind => simp [rowMarks, Piece.place]

theorem pieceMarks_token (kind : Kind) (text : List Char) (value : String) :
    pieceMarks file inside done [.token kind text value] =
      tokenMarks inside ⟨kind, value, ⟨file, .after done, (Pos.after (done ++ text)).back⟩⟩ := by
  rw [← Pos.advance_after]
  exact List.append_nil _

/-- The text of an interpolated string puts no mark. -/
theorem pieceMarks_chunk {s : Stretch} (hs : Decodes s.text s.value) :
    pieceMarks file true done (s.chunk ++ pieces) =
      pieceMarks file true (done ++ s.text) pieces := by
  unfold Stretch.chunk
  split
  next hempty => simp [hs.eq_nil_iff.1 (List.isEmpty_iff.1 hempty)]
  next =>
    rw [List.singleton_append, pieceMarks_cons, pieceMarks_token]
    rfl

/-- A piece after which the text is inside of a string, that text, and the piece after it. -/
theorem pieceMarks_stretch {s : Stretch} (hs : Decodes s.text s.value) {p final : Dragon.Piece}
    (hp : p.inside false = true) :
    pieceMarks file false done (p :: s.chunk ++ [final]) =
      pieceMarks file false done [p] ++
        pieceMarks file true (done ++ p.text ++ s.text) [final] := by
  rw [List.cons_append, pieceMarks_cons, hp, pieceMarks_chunk hs]

/-- The marks of pieces that end outside of strings, and those of the pieces after them. -/
theorem pieceMarks_append {follow : List Char} {tail : List Dragon.Piece}
    (hrow : Row follow inside pieces) :
    pieceMarks file inside done (pieces ++ tail) = pieceMarks file inside done pieces ++
      pieceMarks file false (done ++ Piece.texts pieces) tail := by
  induction pieces generalizing inside done with
  | nil =>
    obtain rfl : inside = false := hrow
    simp
  | cons p rest ih =>
    obtain ⟨-, hrest⟩ := hrow
    calc pieceMarks file inside done (p :: (rest ++ tail))
        = pieceMarks file inside done [p] ++
            pieceMarks file (p.inside inside) (done ++ p.text) (rest ++ tail) := pieceMarks_cons p
      _ = pieceMarks file inside done (p :: rest) ++
            pieceMarks file false (done ++ Piece.texts (p :: rest)) tail := by
        rw [ih hrest, ← List.append_assoc, ← pieceMarks_cons, Piece.texts_cons,
          List.append_assoc]

end Pieces

/-! ### Steps -/

/-- What the highlighter does after some pieces it does from their start on, once it has put
their marks. -/
def Follows (file : String) (depths : List Nat) (cs : List Char) (pieces : List Dragon.Piece)
    (depths' : List Nat) (rest : List Char) : Prop :=
  ∀ done marks last, Finishes (done ++ Piece.texts pieces) (modes depths') rest marks last →
    Finishes done (modes depths) cs (pieceMarks file false done pieces ++ marks) last

section Steps

variable {file : String} {depths depths' : List Nat} {rest' : List Char}
  {pieces : List Dragon.Piece}

/-- The text of a string up to its closing quote. -/
theorem Finishes.of_quote (hstop : (stretch cs).stop = .quote rest)
    (h : Finishes (done ++ (stretch cs).text ++ ['"']) stack rest marks last) :
    Finishes done (.string :: stack) cs
      (⟨.leaves, .after (done ++ (stretch cs).text), "\""⟩ :: marks) last :=
  .of_stretch ((stretch_decodes cs).2.1 rest hstop) h.of_closingQuote

/-- The text of a string up to an interpolation. -/
theorem Finishes.of_interpolation (hstop : (stretch cs).stop = .interpolation rest)
    (h : Finishes (done ++ (stretch cs).text ++ interpOpen) (.hole :: .string :: stack) rest
      marks last) :
    Finishes done (.string :: stack) cs (⟨.interpolates, .after (done ++ (stretch cs).text),
      String.ofList interpOpen⟩ :: marks) last :=
  .of_stretch ((stretch_decodes cs).2.2 rest hstop) h.of_interpStart

/-- Underscores are no digits. -/
theorem plainDigits_of_filter (h : PlainDigits (cs.filter (· != '_'))) : PlainDigits cs := by
  intro d hd hdigit
  refine h d (List.mem_filter.2 ⟨hd, bne_iff_ne.2 ?_⟩) hdigit
  rintro rfl
  exact absurd hdigit (by decide)

/-- Braces are the only operators that start with a brace. -/
theorem operator_of_brace {o : Operator} (h : o.text.toList <+: c :: cs) :
    (o = .lbrace ↔ c = '\x7b') ∧ (o = .rbrace ↔ c = '\x7d') := by
  have hall : (o = .lbrace ↔ o.text.toList.head? = some '\x7b') ∧
      (o = .rbrace ↔ o.text.toList.head? = some '\x7d') := by
    cases o <;> decide
  simpa only [head?_text h, Option.some.injEq] using hall

/-- An opening brace in an interpolation is one more that is open, and so is a mode. -/
theorem Finishes.of_lbrace {d : Nat} {ds : List Nat}
    (h : Finishes (done ++ ['\x7b']) (modes ((d + 1) :: ds)) rest marks last) :
    Finishes done (modes (d :: ds)) ('\x7b' :: rest) marks last := by
  cases d with
  | zero => exact Finishes.of_openingBrace (.inl rfl) h
  | succ d => exact Finishes.of_openingBrace (.inr rfl) h

theorem follows_operator {o : Operator} (ho : Operator.atStart? (c :: rest) = some o)
    (hcomment : ¬ (c == '/' && rest.head? == some '/') = true)
    (hclose : ¬ (c == '\x7d' && depths.head? == some 0) = true)
    (hrest : Finishes (done ++ o.text.toList) (modes (depthsAfter o depths))
      ((c :: rest).drop o.text.toList.length) marks last) :
    Finishes done (modes depths) (c :: rest) marks last := by
  have hstarts : o.text.toList <+: c :: rest := by simpa using List.find?_some ho
  obtain ⟨hlbrace, hrbrace⟩ := operator_of_brace hstarts
  -- Outside of interpolations, and for all operators but braces, the modes stay as they are.
  have hquiet (hbrace : c = '\x7b' ∨ c = '\x7d' → (modes depths).headD .code = .code)
      (hdepths : depthsAfter o depths = depths) :
      Finishes done (modes depths) (c :: rest) marks last := by
    rw [hdepths, ← (quiet_operator (modes_ne_string depths) ho hbrace
      (Bool.eq_false_iff.2 hcomment)).finishes_iff] at hrest
    rwa [List.prefix_iff_eq_append.1 hstarts] at hrest
  cases depths with
  | nil => exact hquiet (fun _ => rfl) (by cases o <;> rfl)
  | cons d ds =>
    by_cases hopen : o = .lbrace
    · subst hopen
      obtain rfl := hlbrace.1 rfl
      exact Finishes.of_lbrace hrest
    by_cases hend : o = .rbrace
    · subst hend
      obtain rfl := hrbrace.1 rfl
      cases d with
      | zero => simp at hclose
      | succ d => exact Finishes.of_closingBrace hrest
    · refine hquiet (fun hc => ?_) (by cases o <;> trivial)
      obtain hc | hc := hc
      · exact absurd (hlbrace.2 hc) hopen
      · exact absurd (hrbrace.2 hc) hend

/-- The highlighter goes along with every step of the scanner. -/
theorem follows_of_takes
    (hplain : ∀ p ∈ pieces, p.kind = some .integer ∨ p.kind = some .float →
      PlainDigits p.value.toList)
    (h : Dragon.Takes depths cs pieces depths' rest') :
    Follows file depths cs pieces depths' rest' := by
  have hmode := modes_ne_string depths
  intro done marks last hfinishes
  cases h with
  | @blanks _ text _ h =>
    have hblank : ∀ d ∈ text, Text.isBlank d = true := by
      intro d hd
      have hgap := h d hd
      simp only [isGapChar, Bool.or_eq_true, beq_iff_eq] at hgap
      obtain ((rfl | rfl) | rfl) | rfl := hgap <;> decide
    have hrest : Finishes (done ++ text) (modes depths) rest' marks last := by
      simpa [Piece.gap] using hfinishes
    exact hrest.of_quietAt (quietAt_blank hmode _ _) (quietAt_blank hmode _ _) hblank
  | comment rest =>
    have hrest := (quiet_comment hmode done rest).finishes_iff.2
      (by simpa [Piece.gap] using hfinishes)
    rwa [List.cons_append, List.cons_append, List.takeWhile_append_dropWhile] at hrest
  | string rest hstop =>
    have hback : (Pos.after (done ++ ('"' :: (stretch rest).text ++ ['"']))).back =
        Pos.after (done ++ ['"'] ++ (stretch rest).text) := by
      rw [← List.append_assoc, Pos.back_after (by decide), List.append_cons]
    have hrest : Finishes (done ++ ['"'] ++ (stretch rest).text ++ ['"']) (modes depths) rest'
        marks last := by
      simpa [Piece.token] using hfinishes
    rw [pieceMarks_token, hback]
    exact (hrest.of_quote hstop).of_openingQuote hmode
  | opens rest hstop =>
    have htext := (stretch_decodes rest).1
    have hrest : Finishes (done ++ ['"'] ++ (stretch rest).text ++ interpOpen)
        (.hole :: .string :: modes depths) rest' marks last := by
      simpa [Piece.token, Piece.verbatim, (stretch rest).texts_chunk htext] using hfinishes
    rw [pieceMarks_stretch htext rfl]
    exact (hrest.of_interpolation hstop).of_openingQuote hmode
  | closes rest hstop =>
    have htext := (stretch_decodes rest).1
    have hrest : Finishes (done ++ ['\x7d'] ++ (stretch rest).text ++ ['"']) (modes depths') rest'
        marks last := by
      simpa [Piece.token, Piece.verbatim, (stretch rest).texts_chunk htext] using hfinishes
    rw [pieceMarks_stretch htext rfl]
    exact (hrest.of_quote hstop).of_interpEnd
  | @reopens ds rest _ hstop =>
    have htext := (stretch_decodes rest).1
    have hrest : Finishes (done ++ ['\x7d'] ++ (stretch rest).text ++ interpOpen)
        (.hole :: .string :: modes ds) rest' marks last := by
      simpa [Piece.token, Piece.verbatim, (stretch rest).texts_chunk htext] using hfinishes
    rw [pieceMarks_stretch htext rfl]
    exact (hrest.of_interpolation hstop).of_interpEnd
  | @number _ c rest hc =>
    have hkind := (NumberTail.atStart rest).kind_cases
    have hvalue : PlainDigits (c :: (NumberTail.atStart rest).text) := by
      have hpiece := hplain _ List.mem_cons_self (by simpa [Piece.token] using hkind)
      rw [Piece.token, String.toList_ofList] at hpiece
      exact plainDigits_of_filter hpiece
    have hmarks (text : List Char) (value : String) : pieceMarks file false done
        [.token (NumberTail.atStart rest).kind text value] = [] := by
      rw [pieceMarks_token]
      obtain hkind | hkind := hkind <;> rw [hkind] <;> rfl
    rw [hmarks, List.nil_append]
    exact .of_number hmode hc hvalue (by simpa [Piece.token] using hfinishes)
  | @word _ c rest hc hdigit =>
    have hword : Text.isWordChar c = true := by
      obtain hletter | hunderscore := Bool.or_eq_true_iff.1 hc
      · exact Text.isWordChar_of_isLetter hletter
      · rw [beq_iff_eq.1 hunderscore]
        decide
    have hdecimal : ∀ d ∈ (c :: rest).head?, Text.isDecimal d = false := by
      rintro d ⟨⟩
      exact Bool.eq_false_iff.2 fun h => hdigit (Text.isDigit_of_isDecimal h)
    have hmarks (word : String) (text : List Char) :
        pieceMarks file false done [.verbatim (wordKind word) text] = [] := by
      rw [Piece.verbatim, pieceMarks_token]
      obtain ⟨k, h⟩ | h | h := wordKind_cases word <;> rw [h] <;> rfl
    rw [hmarks, List.nil_append, (quietAt_word hmode done hdecimal).finishes_iff,
      List.takeWhile_cons_of_pos hword, List.dropWhile_cons_of_pos hword]
    simpa [Piece.verbatim, Piece.token] using hfinishes
  | operator ho hcomment hclose =>
    show Finishes done (modes depths) _ marks last
    exact follows_operator ho hcomment hclose
      (by simpa [Piece.verbatim, Piece.token] using hfinishes)

end Steps

/-! ### Whole texts -/

/-- The highlighter goes along with the scanner to the end of the text. -/
theorem finishes_cut (file : String) (depths : List Nat) (cs done : List Char)
    (hfault : (cut depths cs).fault = none)
    (hplain : ∀ p ∈ (cut depths cs).pieces, p.kind = some .integer ∨ p.kind = some .float →
      PlainDigits p.value.toList) :
    Finishes done (modes depths) cs (pieceMarks file false done (cut depths cs).pieces)
      [.code] := by
  fun_induction cut depths cs generalizing done with
  | case1 depths =>
    cases depths with
    | nil => exact finishes_nil done [.code]
    | cons d ds => cases hfault
  | case2 depths c rest pieces depths' rest' hstep tail ih =>
    obtain ⟨hpieces, htail⟩ := List.forall_mem_append.1 hplain
    rw [pieceMarks_append (takes_of_step hstep).begins.2]
    exact follows_of_takes hpieces (takes_of_step hstep) done _ _ (ih _ hfault htail)
  | case3 => cases hfault

/-- Every piece with a kind is placed as a token. -/
theorem exists_mem_place (file : String) (start : Pos) {pieces : List Dragon.Piece}
    {p : Dragon.Piece} {kind : Kind} (hp : p ∈ pieces) (hkind : p.kind = some kind) :
    ∃ t ∈ Piece.place file start pieces, t.kind = kind ∧ t.value = p.value := by
  induction pieces generalizing start with
  | nil => cases hp
  | cons q rest ih =>
    rw [Piece.place]
    obtain rfl | hp := List.mem_cons.1 hp
    · rw [hkind]
      exact ⟨_, List.mem_cons_self, rfl, rfl⟩
    · obtain ⟨t, ht, hvalue⟩ := ih (start.advance q.text) hp
      refine ⟨t, ?_, hvalue⟩
      cases q.kind with
      | none => exact ht
      | some _ => exact List.mem_cons_of_mem _ ht

/-- On a text that can be cut into tokens, and whose numbers have plain digits, the highlighter
makes no error and ends in code. It enters and leaves strings at the quotes of the tokens, and
its interpolation pieces are the tokens that start and end interpolations, in one order. -/
theorem highlight_strings {file source : String} {stream : TokenStream}
    (h : TokenStream.ofSource file source = .ok stream)
    (hplain : ∀ t ∈ stream.tokens, t.kind = .integer ∨ t.kind = .float →
      PlainDigits t.value.toList) :
    highlight source = (turns [] [.code] source.toList).map Turn.piece ∧
      (∀ p ∈ highlight source, p.style ≠ .error) ∧
      stackAfter [.code] (turns [] [.code] source.toList) = [.code] ∧
      (turns [] [.code] source.toList).flatMap Turn.marks = rowMarks false stream.tokens := by
  unfold TokenStream.ofSource TokenStream.ofChars at h
  dsimp only at h
  split at h
  next hfault =>
    cases h
    have hnumbers : ∀ p ∈ (cut [] source.toList).pieces,
        p.kind = some .integer ∨ p.kind = some .float → PlainDigits p.value.toList := by
      intro p hp hkind
      obtain ⟨kind, hsome⟩ : ∃ kind, p.kind = some kind := by
        obtain hkind | hkind := hkind <;> exact ⟨_, hkind⟩
      obtain ⟨t, ht, rfl, hvalue⟩ := exists_mem_place file .origin hp hsome
      rw [← hvalue]
      exact hplain t ht (by simpa [hsome] using hkind)
    obtain ⟨hclean, hmarks, hlast⟩ := finishes_cut file [] source.toList [] hfault hnumbers
    have hpieces : highlight source = (turns [] [.code] source.toList).map Turn.piece :=
      (map_piece_turns [] [.code] source.toList).symm
    refine ⟨hpieces, ?_, hlast, hmarks⟩
    rw [hpieces]
    exact List.forall_mem_map.2 hclean
  next => cases h

/-- Strings in an interpolation and in braces inside of it, with an exponent that runs into a
word, and a comment with a brace and a quote. -/
def nested : String :=
  "\"a\\\"$\x7b \x7b\"b$$\x7b1e1_0in\x7d\"\x7d // \x7d \"\n\x7d$\""

theorem highlight_strings_nested :
    ∃ stream, TokenStream.ofSource "" nested = .ok stream ∧
      (rowMarks false stream.tokens).map (·.role) = [.enters, .interpolates, .enters,
        .interpolates, .interpolates, .leaves, .interpolates, .leaves] ∧
      (∀ t ∈ stream.tokens, t.kind = .integer ∨ t.kind = .float → PlainDigits t.value.toList) ∧
      highlight nested = (turns [] [.code] nested.toList).map Turn.piece ∧
      (∀ p ∈ highlight nested, p.style ≠ .error) ∧
      stackAfter [.code] (turns [] [.code] nested.toList) = [.code] ∧
      (turns [] [.code] nested.toList).flatMap Turn.marks = rowMarks false stream.tokens := by
  have hany : (TokenStream.ofSource "" nested).toOption.any (fun s =>
      decide ((rowMarks false s.tokens).map (·.role) = [.enters, .interpolates, .enters,
        .interpolates, .interpolates, .leaves, .interpolates, .leaves] ∧
      ∀ t ∈ s.tokens, t.kind = .integer ∨ t.kind = .float → PlainDigits t.value.toList)) =
        true := by
    decide +kernel
  obtain ⟨stream, hstream, hboth⟩ := exists_of_any hany
  obtain ⟨hroles, hplain⟩ := of_decide_eq_true hboth
  exact ⟨stream, hstream, hroles, hplain, highlight_strings hstream hplain⟩

end Dragon.Highlight
