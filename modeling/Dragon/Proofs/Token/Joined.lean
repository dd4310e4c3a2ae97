import Dragon.Proofs.Token.Factored

/-!
# Texts one after the other

When a line feed and another text follow a text that can be cut, each is cut as if it stood alone:
the tokens are those of the first and then those of the second, as many lines further down as the
first text and the line feed take.
-/
namespace Dragon

/-! ### Places further down -/

/-- The same place some lines further down. -/
def Pos.down (n : Nat) (p : Pos) : Pos := ⟨p.line + n, p.column⟩

def Span.down (n : Nat) (s : Span) : Span := ⟨s.file, s.start.down n, s.stop.down n⟩

def Token.down (n : Nat) (t : Token) : Token := { t with span := t.span.down n }

theorem Span.down_through (n : Nat) (first last : Span) :
    (first.through last).down n = (first.down n).through (last.down n) := rfl

@[simp] theorem Token.kind_down (n : Nat) (t : Token) : (t.down n).kind = t.kind := rfl

@[simp] theorem Token.value_down (n : Nat) (t : Token) : (t.down n).value = t.value := rfl

@[simp] theorem Token.span_down (n : Nat) (t : Token) : (t.down n).span = t.span.down n := rfl

namespace Pos

variable (n : Nat) (p : Pos)

theorem step_down (c : Char) : (p.down n).step c = (p.step c).down n := by
  unfold step
  split
  · exact congrArg (Pos.mk · 1) (Nat.add_right_comm _ _ _)
  · rfl

theorem advance_down (text : List Char) :
    (p.down n).advance text = (p.advance text).down n := by
  induction text generalizing p with
  | nil => rfl
  | cons c rest ih =>
    show ((p.down n).step c).advance rest = ((p.step c).advance rest).down n
    rw [step_down, ih]

theorem back_down : (p.down n).back = p.back.down n := rfl

theorem advance_append (first second : List Char) :
    p.advance (first ++ second) = (p.advance first).advance second := List.foldl_append

/-- After a text and a line feed a line starts, as far down as there were line feeds. -/
theorem origin_advance_line (text : List Char) :
    origin.advance (text ++ ['\n']) = origin.down (text.count '\n' + 1) := by
  have hafter : origin.advance (text ++ ['\n']) = after (text ++ ['\n']) := advance_after [] _
  rw [hafter]
  simp [after, origin, down, Nat.add_comm]

end Pos

theorem Piece.place_down (n : Nat) (file : String) (start : Pos) (pieces : List Piece) :
    place file (start.down n) pieces = (place file start pieces).map (Token.down n) := by
  induction pieces generalizing start with
  | nil => rfl
  | cons p rest ih =>
    unfold place
    dsimp only
    rw [Pos.advance_down, Pos.advance_down, Pos.back_down, ih]
    split
    · rfl
    · rw [List.map_cons]
      rfl

/-! ### What a step sees of the text after a line feed -/

section Seam

variable {depths depths' : List Nat} {c : Char} {a rest rest' : List Char} {pieces : List Piece}
  (b : List Char)

theorem takeWhile_line {test : Char → Bool} (htest : test '\n' = false) (cs : List Char) :
    (cs ++ '\n' :: b).takeWhile test = cs.takeWhile test := by
  induction cs with
  | nil => simp [htest]
  | cons c rest ih => simp only [List.cons_append, List.takeWhile_cons, ih]

theorem dropWhile_line {test : Char → Bool} (htest : test '\n' = false) (cs : List Char) :
    (cs ++ '\n' :: b).dropWhile test = cs.dropWhile test ++ '\n' :: b := by
  induction cs with
  | nil => simp [htest]
  | cons c rest ih =>
    simp only [List.cons_append, List.dropWhile_cons, ih]
    split <;> rfl

theorem any_head?_line {test : Char → Bool} (htest : test '\n' = false) (cs : List Char) :
    (cs ++ '\n' :: b).head?.any test = cs.head?.any test := by
  cases cs with
  | nil => simpa using htest
  | cons c rest => rfl

theorem not_isDigit_newline : Text.isDigit '\n' = false := by decide

theorem not_isNumeral_newline : isNumeral '\n' = false := by decide

theorem fractionPart_line (cs : List Char) : fractionPart (cs ++ '\n' :: b) = fractionPart cs := by
  match cs with
  | [] => rfl
  | c :: rest =>
    by_cases hc : c = '.'
    · subst hc
      rw [List.cons_append, fractionPart, any_head?_line b not_isDigit_newline,
        takeWhile_line b not_isNumeral_newline, fractionPart]
    · simp [fractionPart, hc]

theorem signPart_line (cs : List Char) : signPart (cs ++ '\n' :: b) = signPart cs := by
  match cs with
  | [] => rfl
  | c :: rest =>
    unfold signPart
    split <;> simp_all

theorem exponentPart_line (cs : List Char) : exponentPart (cs ++ '\n' :: b) = exponentPart cs := by
  match cs with
  | [] => rfl
  | e :: rest =>
    have hsign : (signPart rest).length ≤ rest.length := (signPart_isPrefix rest).length_le
    rw [List.cons_append, exponentPart, exponentPart, signPart_line,
      List.drop_append_of_le_length hsign, any_head?_line b not_isDigit_newline,
      takeWhile_line b not_isNumeral_newline]

/-- A number does not see past the end of its line. -/
theorem NumberTail.atStart_line (cs : List Char) : atStart (cs ++ '\n' :: b) = atStart cs := by
  have hwhole : (cs.takeWhile isNumeral).length ≤ cs.length :=
    (List.takeWhile_prefix isNumeral).length_le
  unfold atStart
  dsimp only
  rw [takeWhile_line b not_isNumeral_newline, List.drop_append_of_le_length hwhole,
    fractionPart_line]
  have hfraction := (append_isPrefix_of_drop (List.takeWhile_prefix isNumeral)
    (fractionPart_isPrefix (cs.drop (cs.takeWhile isNumeral).length))).length_le
  rw [List.length_append] at hfraction
  rw [List.drop_append_of_le_length hfraction, exponentPart_line]

theorem isPrefixOf_line {text : List Char} (htext : '\n' ∉ text) (cs : List Char) :
    text.isPrefixOf (cs ++ '\n' :: b) = text.isPrefixOf cs := by
  induction text generalizing cs with
  | nil => simp
  | cons t rest ih =>
    obtain ⟨ht, hrest⟩ := not_or.1 (mt List.mem_cons.2 htext)
    cases cs with
    | nil => simp [List.isPrefixOf, Ne.symm ht]
    | cons c cs => simp [List.isPrefixOf, ih hrest]

theorem Operator.atStart?_line (cs : List Char) : atStart? (cs ++ '\n' :: b) = atStart? cs := by
  unfold atStart?
  congr 1
  funext o
  exact isPrefixOf_line b (Spells.operator o).newline_notMem cs

/-- String text up to its end does not depend on what comes after. -/
theorem stretch_append (cs more : List Char) :
    (∀ rest, (stretch cs).stop = .quote rest →
      stretch (cs ++ more) = ⟨(stretch cs).text, (stretch cs).value, .quote (rest ++ more)⟩) ∧
    ∀ rest, (stretch cs).stop = .interpolation rest → stretch (cs ++ more) =
      ⟨(stretch cs).text, (stretch cs).value, .interpolation (rest ++ more)⟩ := by
  fun_induction stretch cs with
  | case1 => simp
  | case2 => simp
  | case3 => simp [stretch]
  | case4 => simp [stretch]
  | case5 => simp
  | case6 code rest value hcode ih =>
    have hcons : stretch ('\\' :: code :: rest ++ more) =
        (stretch (rest ++ more)).cons ['\\', code] value := by
      rw [List.cons_append, List.cons_append, stretch, hcode]
    refine ⟨fun rest' h => ?_, fun rest' h => ?_⟩
    · rw [hcons, ih.1 rest' h]
      rfl
    · rw [hcons, ih.2 rest' h]
      rfl
  | case7 => simp
  | case8 c rest hline hquote hinterp hescape hslash ih =>
    -- A last character has no end after it, so there is one to look at behind a dollar sign.
    match rest with
    | [] => simp [stretch, Stretch.cons]
    | d :: rest =>
      have hcons : stretch (c :: d :: rest ++ more) =
          (stretch (d :: rest ++ more)).cons [c] c := by
        rw [List.cons_append, stretch]
        · exact hline
        · exact hquote
        · rintro _ hc ⟨⟩
          exact hinterp rest hc rfl
        · rintro _ ⟨⟩
        · exact fun code _ hc _ => hslash d rest hc rfl
      refine ⟨fun rest' h => ?_, fun rest' h => ?_⟩
      · rw [hcons, ih.1 rest' h]
        rfl
      · rw [hcons, ih.2 rest' h]
        rfl

/-! ### Steps -/

theorem stepString_append (h : stepString depths rest = .take pieces depths' rest')
    (more : List Char) :
    stepString depths (rest ++ more) = .take pieces depths' (rest' ++ more) := by
  obtain ⟨hquote, hinterp⟩ := stretch_append rest more
  unfold stepString at h ⊢
  extract_lets s at h
  split at h
  next hstop =>
    cases h
    rw [hquote _ hstop]
  next hstop =>
    cases h
    rw [hinterp _ hstop]
    rfl
  next => cases h
  next => cases h

theorem stepClose_append (h : stepClose depths rest = .take pieces depths' rest')
    (more : List Char) :
    stepClose depths (rest ++ more) = .take pieces depths' (rest' ++ more) := by
  obtain ⟨hquote, hinterp⟩ := stretch_append rest more
  unfold stepClose at h ⊢
  extract_lets s close at h
  split at h
  next hstop =>
    cases h
    rw [hquote _ hstop]
    rfl
  next hstop =>
    cases h
    rw [hinterp _ hstop]
    rfl
  next => cases h
  next => cases h

/-- A line feed ends a number. -/
theorem stepNumber_line (h : stepNumber depths c rest = .take pieces depths' rest') :
    stepNumber depths c (rest ++ '\n' :: b) = .take pieces depths' (rest' ++ '\n' :: b) := by
  have hlength := (NumberTail.text_isPrefix rest).length_le
  unfold stepNumber at h ⊢
  rw [NumberTail.atStart_line]
  dsimp only at h ⊢
  split at h
  next => cases h
  next hend =>
    cases h
    rw [if_neg hend, List.drop_append_of_le_length hlength]

theorem stepWord_line (h : stepWord depths c rest = .take pieces depths' rest') :
    stepWord depths c (rest ++ '\n' :: b) = .take pieces depths' (rest' ++ '\n' :: b) := by
  have hnewline : Text.isWordChar '\n' = false := by decide
  cases h
  rw [stepWord, takeWhile_line b hnewline, dropWhile_line b hnewline]

/-- No operator goes on behind a line feed. -/
theorem stepOperator_line (h : stepOperator depths c rest = .take pieces depths' rest') :
    stepOperator depths c (rest ++ '\n' :: b) = .take pieces depths' (rest' ++ '\n' :: b) := by
  unfold stepOperator at h ⊢
  rw [← List.cons_append, Operator.atStart?_line]
  split at h
  next o ho =>
    cases h
    have hstart : o.text.toList <+: c :: rest := by simpa using List.find?_some ho
    dsimp only
    rw [List.drop_append_of_le_length hstart.length_le]
  next => cases h

/-- A step is the same when a line feed and more text follow, unless it takes blanks up to the end
of the text. -/
theorem step_line (h : step depths c rest = .take pieces depths' rest')
    (hlast : isGapChar c = true → rest' ≠ []) :
    step depths c (rest ++ '\n' :: b) = .take pieces depths' (rest' ++ '\n' :: b) := by
  have hhead : ((rest ++ '\n' :: b).head? == some '/') = (rest.head? == some '/') := by
    cases rest <;> rfl
  unfold step at h ⊢
  rw [hhead]
  split at h
  next hblank =>
    cases h
    have hne := hlast hblank
    have hlength : (rest.takeWhile isGapChar).length ≠ rest.length := by
      intro heq
      have happend := congrArg List.length (rest.takeWhile_append_dropWhile (p := isGapChar))
      rw [List.length_append] at happend
      exact hne (List.length_eq_zero_iff.1 (by omega))
    rw [if_pos hblank, List.takeWhile_append, List.dropWhile_append, if_neg hlength,
      if_neg (by simpa using hne)]
  next hblank =>
  rw [if_neg hblank]
  split at h
  next hcomment =>
    cases h
    rw [if_pos hcomment, takeWhile_line b rfl, dropWhile_line b rfl]
  next hcomment =>
  rw [if_neg hcomment]
  split at h
  next hquote =>
    rw [if_pos hquote]
    exact stepString_append h _
  next hquote =>
  rw [if_neg hquote]
  split at h
  next hclose =>
    rw [if_pos hclose]
    exact stepClose_append h _
  next hclose =>
  rw [if_neg hclose]
  split at h
  next hdigit =>
    rw [if_pos hdigit]
    exact stepNumber_line b h
  next hdigit =>
  rw [if_neg hdigit]
  split at h
  next hletter =>
    rw [if_pos hletter]
    exact stepWord_line b h
  next hletter =>
  rw [if_neg hletter]
  exact stepOperator_line b h

/-! ### Cutting -/

theorem cut_take (h : step depths c rest = .take pieces depths' rest') :
    cut depths (c :: rest) = ⟨pieces ++ (cut depths' rest').pieces, (cut depths' rest').fault⟩ := by
  rw [cut]
  split
  next h' =>
    rw [h] at h'
    cases h'
    rfl
  next h' =>
    rw [h] at h'
    cases h'

/-- Blanks at the start of a text only move what comes after them. -/
theorem cut_blanks (depths : List Nat) (cs : List Char) :
    (cut depths cs).fault = (cut depths (cs.dropWhile isGapChar)).fault ∧
      ∀ file start, Piece.place file start (cut depths cs).pieces =
        Piece.place file (start.advance (cs.takeWhile isGapChar))
          (cut depths (cs.dropWhile isGapChar)).pieces := by
  cases cs with
  | nil => exact ⟨rfl, fun _ _ => rfl⟩
  | cons c rest =>
    by_cases hc : isGapChar c = true
    · have hstep : step depths c rest =
          .take [Piece.gap (c :: rest.takeWhile isGapChar)] depths (rest.dropWhile isGapChar) := by
        rw [step, if_pos hc]
      rw [cut_take hstep, List.takeWhile_cons_of_pos hc, List.dropWhile_cons_of_pos hc]
      exact ⟨rfl, fun _ _ => rfl⟩
    · rw [List.takeWhile_cons_of_neg hc, List.dropWhile_cons_of_neg hc]
      exact ⟨rfl, fun _ _ => rfl⟩

/-- Blanks before a line feed move the text after it. -/
theorem cut_blanks_line {cs : List Char} (hcs : ∀ d ∈ cs, isGapChar d = true) :
    (cut depths (cs ++ '\n' :: b)).fault = (cut depths b).fault ∧
      ∀ file start, Piece.place file start (cut depths (cs ++ '\n' :: b)).pieces =
        Piece.place file (start.advance (cs ++ ['\n'])) (cut depths b).pieces := by
  have hline : ∀ d ∈ cs ++ ['\n'], isGapChar d = true := by
    simpa [or_imp, forall_and] using ⟨hcs, rfl⟩
  have hsplit : cs ++ '\n' :: b = (cs ++ ['\n']) ++ b := by simp
  obtain ⟨hfault, hplace⟩ := cut_blanks depths (cs ++ '\n' :: b)
  obtain ⟨hfault', hplace'⟩ := cut_blanks depths b
  rw [hsplit, List.dropWhile_append_of_pos hline] at hfault hplace
  rw [List.takeWhile_append_of_pos hline] at hplace
  rw [hsplit]
  refine ⟨hfault.trans hfault'.symm, fun file start => ?_⟩
  rw [hplace, hplace', Pos.advance_append]

theorem Piece.place_append (file : String) (start : Pos) (first second : List Piece) :
    place file start (first ++ second) =
      place file start first ++ place file (start.advance (texts first)) second := by
  induction first generalizing start with
  | nil => rfl
  | cons p rest ih =>
    rw [texts_cons, Pos.advance_append, List.cons_append, place, place, ih]
    split <;> rfl

/-- A text that ends outside of interpolations, and the one in the lines after it. -/
theorem cut_line (a : List Char) (h : (cut depths a).fault = none) :
    (cut depths (a ++ '\n' :: b)).fault = (cut [] b).fault ∧
      ∀ file start, Piece.place file start (cut depths (a ++ '\n' :: b)).pieces =
        Piece.place file start (cut depths a).pieces ++
          Piece.place file (start.advance (a ++ ['\n'])) (cut [] b).pieces := by
  have houtside {depths : List Nat} (h : (cut depths []).fault = none) : depths = [] := by
    by_contra hne
    simp [cut, hne] at h
  fun_induction cut depths a with
  | case1 depths =>
    obtain rfl := houtside (by rwa [cut])
    exact cut_blanks_line b (by simp)
  | case2 depths c rest pieces depths' rest' hstep tail ih =>
    by_cases hlast : isGapChar c = true → rest' ≠ []
    · obtain ⟨hfault, hplace⟩ := ih h
      obtain ⟨htext, -⟩ := (takes_of_step hstep).begins
      rw [List.cons_append, cut_take (step_line b hstep hlast)]
      refine ⟨hfault, fun file start => ?_⟩
      rw [htext, Piece.place_append, Piece.place_append, hplace, List.append_assoc,
        List.append_assoc, Pos.advance_append _ (Piece.texts pieces)]
    · -- The blanks at the end of the first text and those at the start of the second are one gap.
      obtain ⟨hc, hend⟩ := Classical.not_imp.1 hlast
      obtain rfl := not_not.1 hend
      rw [step, if_pos hc] at hstep
      injection hstep with hpieces hdepths hrest
      subst hpieces hdepths
      obtain rfl := houtside h
      have hblanks : ∀ d ∈ c :: rest, isGapChar d = true :=
        List.forall_mem_cons.2 ⟨hc, List.dropWhile_eq_nil_iff.1 hrest⟩
      obtain ⟨hfault, hplace⟩ := @cut_blanks_line [] b _ hblanks
      refine ⟨hfault, fun file start => ?_⟩
      rw [hplace]
      show _ = Piece.place file _ (cut [] []).pieces ++ _
      rw [cut]
      rfl
  | case3 => cases h

end Seam

/-! ### Source texts -/

namespace TokenStream

variable {file : String}

/-- The tokens of a text further down. -/
def down (n : Nat) (stream : TokenStream) : TokenStream :=
  ⟨stream.tokens.map (Token.down n), stream.eof.down n⟩

/-- Two texts with a line feed between them have the tokens of the first and of the second. -/
theorem ofSource_line {a b : String} {first second : TokenStream}
    (ha : ofSource file a = .ok first) (hb : ofSource file b = .ok second) :
    ofSource file (a ++ "\n" ++ b) =
      .ok ⟨first.tokens ++ (second.down (a.toList.count '\n' + 1)).tokens,
        (second.down (a.toList.count '\n' + 1)).eof⟩ := by
  have hlist : (a ++ "\n" ++ b).toList = a.toList ++ '\n' :: b.toList := by simp
  have hfaulta := fault_of_ofSource ha
  have hfaultb := fault_of_ofSource hb
  obtain ⟨hfault, hplace⟩ := cut_line b.toList a.toList hfaulta
  have hadvance : Pos.origin.advance (a.toList ++ '\n' :: b.toList) =
      (Pos.origin.advance b.toList).down (a.toList.count '\n' + 1) := by
    rw [← Pos.advance_down, ← Pos.origin_advance_line, ← Pos.advance_append, List.append_assoc]
    rfl
  rw [ofSource_of_cut hfaulta] at ha
  rw [ofSource_of_cut hfaultb] at hb
  cases ha
  cases hb
  rw [ofSource_of_cut (hlist ▸ hfault.trans hfaultb), hlist, hplace, Pos.origin_advance_line,
    Piece.place_down, hadvance]
  rfl

end TokenStream

end Dragon
