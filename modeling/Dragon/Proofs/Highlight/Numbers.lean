import Dragon.Proofs.Highlight.Rules

/-!
# Numbers under the highlighter

The rules and the scanner agree on the digits and the fraction of a number with plain digits, but in
an exponent the rules stop at an underscore. The underscore then starts a word, which goes on over
the end of the number into the word that may follow.
-/
namespace Dragon.Highlight

variable {done rest cs : List Char} {stack last : List Mode} {marks : List Mark} {c : Char}

/-! ### Numbers -/

/-- All digits are those from `0` to `9`. -/
def PlainDigits (cs : List Char) : Prop := ∀ c ∈ cs, Text.isDigit c = true → c.isDigit = true

instance (cs : List Char) : Decidable (PlainDigits cs) := List.decidableBAll _ cs

theorem isNumeral_of_isDigit (h : c.isDigit = true) : isNumeral c = true := by
  simp [isNumeral, Text.isDigit_of_isDecimal (Text.isDecimal_of_isDigit h)]

/-- The characters of a class are among those of a wider one. -/
theorem takeWhile_takeWhile_of_imp {test wider : Char → Bool}
    (h : ∀ d, test d = true → wider d = true) (cs : List Char) :
    (cs.takeWhile wider).takeWhile test = cs.takeWhile test := by
  rw [List.takeWhile_takeWhile]
  congr 1
  funext d
  simpa using h d

/-- Among numerals with plain digits only these and the underscore occur. -/
theorem takeWhile_isNumeral (h : PlainDigits (cs.takeWhile isNumeral)) :
    (cs.takeWhile fun d => d.isDigit || d == '_') = cs.takeWhile isNumeral := by
  have himp : ∀ d : Char, (d.isDigit || d == '_') = true → isNumeral d = true := by
    intro d hd
    obtain hdigit | hunderscore := Bool.or_eq_true_iff.1 hd
    · exact isNumeral_of_isDigit hdigit
    · simp [isNumeral, hunderscore]
  rw [← takeWhile_takeWhile_of_imp himp, List.takeWhile_eq_self_iff]
  intro d hd
  have hnumeral : isNumeral d = true := List.mem_takeWhile_imp hd
  obtain hdigit | hunderscore := Bool.or_eq_true_iff.1 hnumeral
  · simp [h d hd hdigit]
  · simp [hunderscore]

/-- A numeral with plain digits starts with a plain digit. -/
theorem exists_plainDigit (hdigit : cs.head?.any Text.isDigit = true)
    (hplain : PlainDigits (cs.takeWhile isNumeral)) :
    ∃ c rest, cs = c :: rest ∧ c.isDigit = true ∧ PlainDigits (rest.takeWhile isNumeral) := by
  cases cs with
  | nil => cases hdigit
  | cons c rest =>
    have hc : Text.isDigit c = true := hdigit
    rw [List.takeWhile_cons_of_pos (by simp [isNumeral, hc])] at hplain
    obtain ⟨hfirst, hrest⟩ := List.forall_mem_cons.1 hplain
    exact ⟨c, rest, rfl, hfirst hc, hrest⟩

theorem any_isDigit_of_isDigit (h : c.isDigit = true) (rest : List Char) :
    (c :: rest).head?.any Text.isDigit = true :=
  Text.isDigit_of_isDecimal (Text.isDecimal_of_isDigit h)

theorem digits_eq_length (hdigit : cs.head?.any Text.isDigit = true)
    (hplain : PlainDigits (cs.takeWhile isNumeral)) :
    digits cs = (cs.takeWhile isNumeral).length ∧ digits cs ≠ 0 := by
  obtain ⟨c, rest, rfl, hc, hrest⟩ := exists_plainDigit hdigit hplain
  rw [digits, if_pos hc, takeWhile_isNumeral hrest,
    List.takeWhile_cons_of_pos (isNumeral_of_isDigit hc), List.length_cons]
  omega

theorem digits_eq_zero_of_head (h : ¬ cs.head?.any Text.isDigit = true) : digits cs = 0 := by
  cases cs with
  | nil => rfl
  | cons c rest =>
    exact digits_eq_zero (Bool.eq_false_iff.2 fun hc => h (any_isDigit_of_isDigit hc rest))

theorem fraction_eq_length (hplain : PlainDigits (fractionPart cs)) :
    fraction cs = (fractionPart cs).length := by
  unfold fractionPart at hplain ⊢
  split at hplain
  next rest =>
    split at hplain
    next hdigit =>
      have hrest : PlainDigits (rest.takeWhile isNumeral) := fun d hd =>
        hplain d (List.mem_cons_of_mem _ hd)
      obtain ⟨hlength, hpos⟩ := digits_eq_length hdigit hrest
      rw [if_pos hdigit, fraction, if_neg hpos, hlength, List.length_cons, Nat.add_comm]
    next hdigit => simp [fraction, digits_eq_zero_of_head hdigit, hdigit]
  next hpoint =>
    unfold fraction
    split
    next rest => exact absurd rfl (hpoint rest)
    next => rfl

/-- The digits of an exponent after its sign, if there are any. -/
theorem signedDigits_eq (cs : List Char) :
    let number := cs.drop (signPart cs).length
    signedDigits cs = if (number.takeWhile Char.isDigit).length = 0 then 0
      else (signPart cs).length + (number.takeWhile Char.isDigit).length := by
  dsimp only
  unfold signPart
  split
  next rest => simp [signedDigits]
  next rest => simp [signedDigits]
  next hplus hminus =>
    cases cs with
    | nil => rfl
    | cons c rest =>
      have hsign : ¬ (c == '+' || c == '-') = true := by
        rw [Bool.or_eq_true_iff, beq_iff_eq, beq_iff_eq]
        rintro (rfl | rfl)
        · exact hplus rest rfl
        · exact hminus rest rfl
      rw [signedDigits, if_neg hsign, List.length_nil, List.drop_zero, Nat.zero_add]
      split <;> omega

/-- Plain digits go on to the end of a numeral or to its first underscore. -/
theorem exists_extra (hplain : PlainDigits (cs.takeWhile isNumeral)) :
    ∃ extra, cs.takeWhile isNumeral = cs.takeWhile Char.isDigit ++ extra ∧
      (∀ d ∈ extra.head?, d = '_') ∧ ∀ d ∈ extra, isNumeral d = true := by
  refine ⟨(cs.takeWhile isNumeral).dropWhile Char.isDigit, ?_, fun d hd => ?_, fun d hd => ?_⟩
  · rw [← takeWhile_takeWhile_of_imp (fun d => isNumeral_of_isDigit) cs,
      List.takeWhile_append_dropWhile]
  · have hmem : d ∈ cs.takeWhile isNumeral :=
      (List.dropWhile_sublist _).subset (List.mem_of_mem_head? hd)
    have hnumeral : isNumeral d = true := List.mem_takeWhile_imp hmem
    have hnot : ¬ d.isDigit = true := by
      have hhead := List.head?_dropWhile_not Char.isDigit (cs.takeWhile isNumeral)
      rw [Option.mem_def.1 hd] at hhead
      simpa using hhead
    obtain hdigit | hunderscore := Bool.or_eq_true_iff.1 hnumeral
    · exact absurd (hplain d hmem hdigit) hnot
    · exact beq_iff_eq.1 hunderscore
  · exact List.mem_takeWhile_imp ((List.dropWhile_sublist _).subset hd)

/-- The highlighter may stop in an exponent, but only before an underscore. -/
theorem exponent_split (hplain : PlainDigits (exponentPart cs)) :
    ∃ power extra, exponentPart cs = power ++ extra ∧ exponent cs = power.length ∧
      (∀ d ∈ extra.head?, d = '_') ∧ ∀ d ∈ extra, isNumeral d = true := by
  cases cs with
  | nil => exact ⟨[], [], rfl, rfl, by simp, by simp⟩
  | cons e rest =>
    have hsigned := signedDigits_eq rest
    unfold exponentPart at hplain ⊢
    dsimp only at hsigned hplain ⊢
    set sign := signPart rest
    set number := rest.drop sign.length
    split at hplain
    next hcond =>
      obtain ⟨hmark, hdigit⟩ := Bool.and_eq_true_iff.1 hcond
      have hnumber : PlainDigits (number.takeWhile isNumeral) := fun d hd =>
        hplain d (List.mem_append_right _ hd)
      obtain ⟨extra, htake, hextra⟩ := exists_extra hnumber
      refine ⟨e :: sign ++ number.takeWhile Char.isDigit, extra, ?_, ?_, hextra⟩
      · rw [if_pos hcond, htake, List.append_assoc]
      · have hpos : (number.takeWhile Char.isDigit).length ≠ 0 := by
          obtain ⟨d, tail, htail, hd, -⟩ := exists_plainDigit hdigit hnumber
          simp [htail, hd]
        rw [if_neg hpos] at hsigned
        have hne : (signedDigits rest != 0) = true := by
          rw [bne_iff_ne, hsigned]
          omega
        rw [exponent, if_pos (Bool.and_eq_true_iff.2 ⟨hmark, hne⟩), hsigned]
        simp only [List.length_append, List.length_cons]
        omega
    next hcond =>
      refine ⟨[], [], by rw [if_neg hcond, List.append_nil], ?_, by simp, by simp⟩
      rw [exponent, if_neg, List.length_nil]
      intro h
      obtain ⟨hmark, hne⟩ := Bool.and_eq_true_iff.1 h
      refine hcond (Bool.and_eq_true_iff.2 ⟨hmark, ?_⟩)
      cases hnumber : number with
      | nil => simp [hsigned, hnumber] at hne
      | cons d tail =>
        refine any_isDigit_of_isDigit ?_ tail
        by_contra hd
        simp [hsigned, hnumber, hd] at hne

/-- No numeral follows the digits of an exponent. -/
theorem head?_drop_exponentPart (h : exponentPart cs ≠ []) :
    ∀ d ∈ (cs.drop (exponentPart cs).length).head?, isNumeral d = false := by
  cases cs with
  | nil => exact absurd rfl h
  | cons e rest =>
    unfold exponentPart at h ⊢
    dsimp only at h ⊢
    split at h
    next hcond =>
      intro d hd
      set number := rest.drop (signPart rest).length
      have hdrop : number.drop (number.takeWhile isNumeral).length =
          number.dropWhile isNumeral :=
        List.append_cancel_left ((List.prefix_iff_eq_append.1 (List.takeWhile_prefix _)).trans
          List.takeWhile_append_dropWhile.symm)
      rw [if_pos hcond, List.cons_append, List.length_cons, List.drop_succ_cons,
        List.length_append, ← List.drop_drop, hdrop] at hd
      have hhead := List.head?_dropWhile_not isNumeral number
      rw [Option.mem_def.1 hd] at hhead
      simpa using hhead
    next => exact absurd rfl h

/-- A number as the highlighter takes it, and what it leaves of its exponent. -/
theorem numberLength_eq (hc : c.isDigit = true)
    (hplain : PlainDigits (NumberTail.atStart rest).text) :
    ∃ text extra, c :: (NumberTail.atStart rest).text = text ++ extra ∧ text ≠ [] ∧
      numberLength (c :: rest) = text.length ∧ (∀ d ∈ extra.head?, d = '_') ∧
      (∀ d ∈ extra, isNumeral d = true) ∧
      (extra ≠ [] → (NumberTail.atStart rest).exponent ≠ []) := by
  set tail := NumberTail.atStart rest
  have hwhole : PlainDigits (rest.takeWhile isNumeral) := fun d hd =>
    hplain d (List.mem_append_left _ (List.mem_append_left _ hd))
  have hfraction : PlainDigits tail.fraction := fun d hd =>
    hplain d (List.mem_append_left _ (List.mem_append_right _ hd))
  have hexponent : PlainDigits tail.exponent := fun d hd =>
    hplain d (List.mem_append_right _ hd)
  obtain ⟨power, extra, hsplit, hpower, hunderscore, hextra⟩ := exponent_split hexponent
  refine ⟨c :: (tail.whole ++ tail.fraction ++ power), extra, ?_, List.cons_ne_nil _ _, ?_,
    hunderscore, hextra, ?_⟩
  · have hsplit' : tail.exponent = power ++ extra := hsplit
    rw [NumberTail.text, hsplit', List.cons_append, List.append_assoc _ power]
  · have hdigits : digits (c :: rest) = tail.whole.length + 1 := by
      rw [digits, if_pos hc, takeWhile_isNumeral hwhole, Nat.add_comm]
      rfl
    have hpart : fraction (rest.drop tail.whole.length) = tail.fraction.length :=
      fraction_eq_length hfraction
    have hpower' : exponent (rest.drop (tail.whole.length + tail.fraction.length)) =
        power.length := hpower
    have hdrop : tail.whole.length + 1 + tail.fraction.length =
        tail.whole.length + tail.fraction.length + 1 := by omega
    rw [numberLength, hdigits, List.drop_succ_cons, hpart, hdrop, List.drop_succ_cons, hpower',
      List.length_cons, List.length_append, List.length_append]
    omega
  · rintro hne hnil
    have happend : power ++ extra = [] := hsplit.symm.trans hnil
    exact hne (List.append_eq_nil_iff.1 happend).2

/-- What the highlighter leaves of an exponent goes with the word that may follow. -/
theorem Finishes.of_number (hmode : stack.headD .code ≠ .string) (hc : Text.isDigit c = true)
    (hplain : PlainDigits (c :: (NumberTail.atStart rest).text))
    (h : Finishes (done ++ c :: (NumberTail.atStart rest).text) stack
      (rest.drop (NumberTail.atStart rest).text.length) marks last) :
    Finishes done stack (c :: rest) marks last := by
  obtain ⟨hfirst, htail⟩ := List.forall_mem_cons.1 hplain
  obtain ⟨text, extra, htext, hne, hlength, hunderscore, hextra, hexponent⟩ :=
    numberLength_eq (hfirst hc) htail
  have hrest := List.prefix_iff_eq_append.1 (NumberTail.text_isPrefix rest)
  set tail := NumberTail.atStart rest
  set follow := rest.drop tail.text.length with hfollow
  have hcs : text ++ (extra ++ follow) = c :: rest := by
    rw [← List.append_assoc, ← htext, List.cons_append, hrest]
  have hquiet : Quiet done stack text (extra ++ follow) :=
    quiet_number hmode (hfirst hc) hcs hne hlength
  rw [← hcs, hquiet.finishes_iff]
  rw [htext, ← List.append_assoc] at h
  cases extra with
  | nil => rwa [List.append_nil] at h
  | cons first extra =>
    have hnot : ∀ d ∈ follow.head?, Text.isDecimal d = false := by
      intro d hd
      have hdrop : follow = (rest.drop (tail.whole.length + tail.fraction.length)).drop
          tail.exponent.length := by
        rw [List.drop_drop, hfollow, NumberTail.text, List.length_append, List.length_append]
      rw [hdrop] at hd
      have hnumeral := head?_drop_exponentPart (hexponent (List.cons_ne_nil _ _)) d hd
      refine Bool.eq_false_iff.2 fun hdecimal => ?_
      simp [isNumeral, Text.isDigit_of_isDecimal hdecimal] at hnumeral
    have hhead : ∀ d ∈ (first :: extra ++ follow).head?, Text.isDecimal d = false := by
      intro d hd
      rw [hunderscore d hd]
      decide
    exact h.of_quietAt (quietAt_word hmode _ hhead) (quietAt_word hmode _ hnot) fun d hd =>
      isWordChar_of_isNumeral (hextra d hd)

end Dragon.Highlight
