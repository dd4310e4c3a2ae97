import Dragon.Check.Number
import Dragon.Proofs.Token.Words

/-!
# Numbers and their values

Without its underscores a number is digits, and as a float also a point with digits or an exponent
with digits. The scanner takes every digit there is, but only decimal digits have values; so a
number has a value just when all its digits are decimal.
-/
namespace Dragon

/-! ### How numbers are written -/

/-- Digits, at least one. -/
def IsDigits (cs : List Char) : Prop := cs ≠ [] ∧ ∀ c ∈ cs, Text.isDigit c = true

/-- A point and digits, or nothing. -/
inductive IsFraction : List Char → Prop
  | none : IsFraction []
  | some {digits : List Char} (hdigits : IsDigits digits) : IsFraction ('.' :: digits)

/-- A mark, a sign or none, and digits; or nothing. -/
inductive IsExponent : List Char → Prop
  | none : IsExponent []
  | some {mark : Char} {sign digits : List Char} (hmark : Check.isExponentMark mark = true)
      (hsign : sign ∈ [[], ['+'], ['-']]) (hdigits : IsDigits digits) :
      IsExponent (mark :: (sign ++ digits))

/-- Digits, a fraction and an exponent. -/
def IsFloat (cs : List Char) : Prop :=
  ∃ whole fraction exponent, cs = whole ++ fraction ++ exponent ∧
    IsDigits whole ∧ IsFraction fraction ∧ IsExponent exponent

/-- Numerals that begin with a digit are digits when the underscores are left out. -/
theorem isDigits_filter {cs : List Char} (h : cs.head?.any Text.isDigit = true) :
    IsDigits ((cs.takeWhile isNumeral).filter (· != '_')) := by
  cases cs with
  | nil => cases h
  | cons c rest =>
    have hc : Text.isDigit c = true := h
    have hne : c ≠ '_' := by
      rintro rfl
      exact absurd hc (by decide)
    constructor
    · simp [isNumeral, hc, hne]
    · intro d hd
      obtain ⟨hmem, hd⟩ := List.mem_filter.1 hd
      have hnumeral := List.mem_takeWhile_imp hmem
      simp_all [isNumeral]

theorem isFraction_filter (cs : List Char) :
    IsFraction ((fractionPart cs).filter (· != '_')) := by
  unfold fractionPart
  split
  next rest =>
    split
    next hdigit => exact .some (isDigits_filter hdigit)
    next => exact .none
  next => exact .none

theorem signPart_mem (cs : List Char) : signPart cs ∈ [[], ['+'], ['-']] := by
  unfold signPart
  split <;> simp

theorem isExponent_filter (cs : List Char) :
    IsExponent ((exponentPart cs).filter (· != '_')) := by
  unfold exponentPart
  split
  next e rest =>
    extract_lets sign digits
    split
    next h =>
      obtain ⟨hmark, hdigit⟩ := Bool.and_eq_true_iff.1 h
      have hsign : sign ∈ [[], ['+'], ['-']] := signPart_mem rest
      have hkept : (e :: sign).filter (· != '_') = e :: sign := by
        simp only [List.mem_cons, List.not_mem_nil, or_false] at hsign
        obtain rfl | rfl : e = 'e' ∨ e = 'E' := by simpa using hmark
        all_goals obtain hsign | hsign | hsign := hsign <;> rw [hsign] <;> rfl
      rw [List.filter_append, hkept]
      exact .some hmark hsign (isDigits_filter hdigit)
    next => exact .none
  next => exact .none

/-- Every piece of a text was taken by a step. -/
theorem exists_step_of_mem_cut {p : Piece} (depths : List Nat) (cs : List Char)
    (hp : p ∈ (cut depths cs).pieces) :
    ∃ depths c rest pieces depths' rest',
      step depths c rest = .take pieces depths' rest' ∧ p ∈ pieces := by
  fun_induction cut depths cs with
  | case1 => cases hp
  | case2 depths c rest pieces depths' rest' hstep tail ih =>
    obtain hp | hp := List.mem_append.1 hp
    · exact ⟨depths, c, rest, pieces, depths', rest', hstep, hp⟩
    · exact ih hp
  | case3 => cases hp

/-- A step that takes a number begins with a digit. -/
theorem number_of_takes {depths depths' : List Nat} {cs rest' : List Char} {pieces : List Piece}
    {p : Piece} (h : Takes depths cs pieces depths' rest') (hp : p ∈ pieces)
    (hkind : p.kind = some .integer ∨ p.kind = some .float) :
    ∃ c rest, Text.isDigit c = true ∧ p.kind = some (NumberTail.atStart rest).kind ∧
      p.value = String.ofList ((c :: (NumberTail.atStart rest).text).filter (· != '_')) := by
  have hchunk (cs : List Char) : ∀ q ∈ (stretch cs).chunk, q.kind = some .string := by
    intro q hq
    unfold Stretch.chunk at hq
    split at hq
    · cases hq
    · rw [List.mem_singleton.1 hq]
      rfl
  cases h with
  | @number _ c rest hc =>
    obtain rfl := List.mem_singleton.1 hp
    exact ⟨c, rest, hc, rfl, rfl⟩
  | word rest => grind [Piece.verbatim, Piece.token, wordKind_cases]
  | _ => grind [Piece.gap, Piece.token, Piece.verbatim]

/-- A number without its underscores: digits, and as a float also a fraction and an exponent. -/
theorem isFloat_of_number {c : Char} (hc : Text.isDigit c = true) (rest : List Char) :
    let tail := NumberTail.atStart rest
    let value := (c :: tail.text).filter (· != '_')
    IsFloat value ∧ (tail.kind = .integer → IsDigits value) := by
  intro tail value
  have hwhole : IsDigits ((c :: tail.whole).filter (· != '_')) := by
    have htake : c :: tail.whole = (c :: rest).takeWhile isNumeral := by
      simp [tail, NumberTail.atStart, isNumeral, hc]
    rw [htake]
    exact isDigits_filter (by simpa using hc)
  have hvalue : value = (c :: tail.whole).filter (· != '_') ++
      tail.fraction.filter (· != '_') ++ tail.exponent.filter (· != '_') := by
    simp only [value, NumberTail.text, ← List.filter_append, List.cons_append]
  constructor
  · exact ⟨_, _, _, hvalue, hwhole, isFraction_filter _, isExponent_filter _⟩
  · intro hkind
    have hnil : tail.fraction = [] ∧ tail.exponent = [] := by
      simpa [NumberTail.kind] using hkind
    rw [hvalue, hnil.1, hnil.2]
    simpa using hwhole

/-- The numbers of a source text. -/
theorem TokenStream.isFloat_of_ofSource {file source : String} {stream : TokenStream}
    (h : ofSource file source = .ok stream) {t : Token} (ht : t ∈ stream.tokens)
    (hkind : t.kind = .integer ∨ t.kind = .float) :
    IsFloat t.value.toList ∧ (t.kind = .integer → IsDigits t.value.toList) := by
  unfold ofSource ofChars at h
  dsimp only at h
  split at h
  next =>
    cases h
    obtain ⟨p, hp, hpkind, hvalue⟩ := mem_place ht
    obtain ⟨_, _, _, _, _, _, hstep, hp⟩ := exists_step_of_mem_cut _ _ hp
    have hnumber : p.kind = some .integer ∨ p.kind = some .float := by
      obtain hkind | hkind := hkind <;> simp [hpkind, hkind]
    obtain ⟨c, rest, hc, htail, hpvalue⟩ := number_of_takes (takes_of_step hstep) hp hnumber
    have hkinds : t.kind = (NumberTail.atStart rest).kind :=
      Option.some.inj (hpkind.symm.trans htail)
    rw [hvalue, hpvalue, String.toList_ofList, hkinds]
    exact isFloat_of_number hc rest
  next => cases h

/-! ### What numbers can be read -/

/-- Some digit has no value as a decimal digit. -/
def HasOtherDigit (cs : List Char) : Prop :=
  ∃ c ∈ cs, Text.isDigit c = true ∧ Text.isDecimal c = false

namespace HasOtherDigit

theorem append_iff {first second : List Char} :
    HasOtherDigit (first ++ second) ↔ HasOtherDigit first ∨ HasOtherDigit second := by
  simp [HasOtherDigit, or_and_right, exists_or]

/-- A character that is no digit plays no part. -/
theorem cons_iff {c : Char} {cs : List Char} (hc : Text.isDigit c = false) :
    HasOtherDigit (c :: cs) ↔ HasOtherDigit cs := by
  simp [HasOtherDigit, hc]

theorem not_nil : ¬ HasOtherDigit [] := by
  simp [HasOtherDigit]

end HasOtherDigit

theorem ne_of_isDigit {c d : Char} (hc : Text.isDigit c = true) (hd : Text.isDigit d = false) :
    c ≠ d := by
  rintro rfl
  simp [hc] at hd

namespace Check

/-- Digits have a value unless one of them is no decimal digit. -/
theorem digitsValue?_eq_none_iff {digits : List Char} (h : ∀ c ∈ digits, Text.isDigit c = true) :
    digitsValue? digits = none ↔ HasOtherDigit digits := by
  suffices hread : ∀ n : Nat, digits.foldlM (fun n c => (Text.decimalValue? c).map (10 * n + ·)) n
      = none ↔ HasOtherDigit digits from hread 0
  induction digits with
  | nil => simp [HasOtherDigit.not_nil]
  | cons c rest ih =>
    intro n
    obtain ⟨hc, hrest⟩ := List.forall_mem_cons.1 h
    have hother : HasOtherDigit (c :: rest) ↔
        Text.isDecimal c = false ∨ HasOtherDigit rest := by
      simp [HasOtherDigit, hc]
    rw [hother, List.foldlM_cons]
    cases hvalue : Text.decimalValue? c with
    | none => simp [Text.isDecimal, hvalue]
    | some d => simp [Text.isDecimal, hvalue, ih hrest]

/-- An integer has no value just when it starts with too many digits or, within the limit, has a
digit that is not decimal. -/
theorem integerValue_eq_error_iff {text : String} (h : IsDigits text.toList)
    (failure : CheckFailure) :
    integerValue text = .error failure ↔
      (digitLimit < leadingDigits text ∧ failure = .overlongInteger (leadingDigits text)) ∨
      (leadingDigits text ≤ digitLimit ∧ HasOtherDigit text.toList ∧
        failure = .unreadableInteger text) := by
  have hne : text ≠ "" := by
    rintro rfl
    exact h.1 rfl
  rw [← digitsValue?_eq_none_iff h.2]
  unfold integerValue
  by_cases hlimit : digitLimit < leadingDigits text
  · simp [hlimit, Nat.not_le.2 hlimit, @eq_comm _ failure]
  · cases hvalue : digitsValue? text.toList with
    | none => simp [hlimit, Nat.not_lt.1 hlimit, hne, @eq_comm _ failure]
    | some n => simp [hlimit, hne]

/-- The sign of an exponent changes the number that its digits write. -/
theorem exponentValue?_eq_map {sign digits : List Char} (hsign : sign ∈ [[], ['+'], ['-']])
    (hdigits : IsDigits digits) :
    ∃ signed : Nat → Int, exponentValue? (sign ++ digits) = (digitsValue? digits).map signed := by
  obtain ⟨hne, hdigits⟩ := hdigits
  simp only [List.mem_cons, List.not_mem_nil, or_false] at hsign
  obtain rfl | rfl | rfl := hsign
  · refine ⟨Int.ofNat, ?_⟩
    unfold exponentValue?
    split
    next h => exact absurd h hne
    next h =>
      have hplus := hdigits '+' (by simp_all)
      exact absurd hplus (by decide)
    next h =>
      have hminus := hdigits '-' (by simp_all)
      exact absurd hminus (by decide)
    next => rfl
  · exact ⟨Int.ofNat, by simp [exponentValue?, hne]⟩
  · refine ⟨fun n => -(n : Int), ?_⟩
    simp only [exponentValue?, List.cons_append, List.nil_append, List.isEmpty_iff, hne, if_false]
    cases digitsValue? digits <;> rfl

theorem exponentValue?_eq_none_iff {sign digits : List Char}
    (hsign : sign ∈ [[], ['+'], ['-']]) (hdigits : IsDigits digits) :
    exponentValue? (sign ++ digits) = none ↔ HasOtherDigit (sign ++ digits) := by
  obtain ⟨signed, hvalue⟩ := exponentValue?_eq_map hsign hdigits
  have hnot : ¬ HasOtherDigit sign := by
    simp only [List.mem_cons, List.not_mem_nil, or_false] at hsign
    rintro ⟨c, hc, hdigit, -⟩
    obtain rfl | rfl | rfl := hsign
    · cases hc
    · rw [List.mem_singleton.1 hc] at hdigit
      exact absurd hdigit (by decide)
    · rw [List.mem_singleton.1 hc] at hdigit
      exact absurd hdigit (by decide)
  rw [hvalue, Option.map_eq_none_iff, digitsValue?_eq_none_iff hdigits.2,
    HasOtherDigit.append_iff, or_iff_right hnot]

/-- A text before the first character that a test refuses. -/
theorem span_append {test : Char → Bool} {first second : List Char}
    (hfirst : ∀ c ∈ first, test c = true) (hsecond : ∀ c ∈ second.head?, test c = false) :
    (first ++ second).takeWhile test = first ∧ (first ++ second).dropWhile test = second := by
  rw [List.takeWhile_append_of_pos hfirst, List.dropWhile_append_of_pos hfirst]
  cases second with
  | nil => simp
  | cons c rest => simp [hsecond c rfl]

/-- The point separates the digits of a fraction. -/
theorem span_fraction {whole fraction : List Char} (hwhole : IsDigits whole)
    (hfraction : IsFraction fraction) :
    (whole ++ fraction).takeWhile (· != '.') = whole ∧
      (whole ++ fraction).dropWhile (· != '.') = fraction := by
  apply span_append
  · intro c hc
    simpa using ne_of_isDigit (hwhole.2 c hc) (by decide)
  · cases hfraction <;> simp

/-- The mark separates the exponent. -/
theorem span_exponent {whole fraction exponent : List Char} (hwhole : IsDigits whole)
    (hfraction : IsFraction fraction) (hexponent : IsExponent exponent) :
    (whole ++ fraction ++ exponent).takeWhile (!isExponentMark ·) = whole ++ fraction ∧
      (whole ++ fraction ++ exponent).dropWhile (!isExponentMark ·) = exponent := by
  have hdigit {c : Char} (hc : Text.isDigit c = true) : (!isExponentMark c) = true := by
    have hlower : c ≠ 'e' := ne_of_isDigit hc (by decide)
    have hupper : c ≠ 'E' := ne_of_isDigit hc (by decide)
    simp [isExponentMark, hlower, hupper]
  apply span_append
  · intro c hc
    obtain hc | hc := List.mem_append.1 hc
    · exact hdigit (hwhole.2 c hc)
    · cases hfraction with
      | none => cases hc
      | some hdigits =>
        obtain rfl | hc := List.mem_cons.1 hc
        · decide
        · exact hdigit (hdigits.2 c hc)
  · cases hexponent with
    | none => simp
    | some hmark => simpa using hmark

theorem bind₂_eq_none_iff {α β γ : Type} (a : Option α) (b : Option β) (f : α → β → γ) :
    (do let x ← a; let y ← b; pure (f x y)) = none ↔ a = none ∨ b = none := by
  cases a <;> cases b <;> simp

/-- So do floats. -/
theorem floatValue?_eq_none_iff {text : String} (h : IsFloat text.toList) :
    floatValue? text = none ↔ HasOtherDigit text.toList := by
  obtain ⟨whole, fraction, exponent, htext, hwhole, hfraction, hexponent⟩ := h
  obtain ⟨hmantissa, hrest⟩ := span_exponent hwhole hfraction hexponent
  obtain ⟨hbefore, hpoint⟩ := span_fraction hwhole hfraction
  have hdigits : digitsValue? (whole ++ fraction.drop 1) = none ↔
      HasOtherDigit (whole ++ fraction) := by
    cases hfraction with
    | none => simp [digitsValue?_eq_none_iff hwhole.2]
    | some hafter =>
      have hall : ∀ c ∈ whole ++ _, Text.isDigit c = true :=
        List.forall_mem_append.2 ⟨hwhole.2, hafter.2⟩
      rw [List.drop_one, List.tail_cons, digitsValue?_eq_none_iff hall, HasOtherDigit.append_iff,
        HasOtherDigit.append_iff, HasOtherDigit.cons_iff (by decide)]
  unfold floatValue?
  rw [htext, hmantissa, hrest]
  dsimp only
  rw [hbefore, hpoint, HasOtherDigit.append_iff, ← hdigits]
  cases hexponent with
  | none =>
    refine (bind₂_eq_none_iff (some 0) _ _).trans ?_
    simp [HasOtherDigit.not_nil]
  | @some mark sign digits hmark hsign hafter =>
    have hnot : Text.isDigit mark = false := by
      obtain rfl | rfl : mark = 'e' ∨ mark = 'E' := by simpa [isExponentMark] using hmark
      all_goals decide
    rw [HasOtherDigit.cons_iff hnot, ← exponentValue?_eq_none_iff hsign hafter]
    exact (bind₂_eq_none_iff (exponentValue? (sign ++ digits)) _ _).trans or_comm

end Check

end Dragon
