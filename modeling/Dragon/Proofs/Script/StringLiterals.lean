import Dragon.Proofs.Script.Neutral
import Dragon.Script.OfTyped

/-!
# String literals of scripts

String literals are written in characters from the blank to the tilde, nothing between their quotes
ends them early, and what they stand for is the text that they were written for. Literals stand for
units, of which two together make a character above the first plane.
-/
namespace Dragon.Script

/-! ### What literals stand for -/

/-- The first of two units that make one character. -/
def isHighUnit (unit : Nat) : Bool := 0xd800 ≤ unit && unit < 0xdc00

/-- The second of two units that make one character. -/
def isLowUnit (unit : Nat) : Bool := 0xdc00 ≤ unit && unit < 0xe000

/-- The characters that some units make. No half of a character stands alone. -/
def characters? : List Nat → Option (List Char)
  | [] => some []
  | unit :: rest =>
    if isHighUnit unit then
      match rest with
      | [] => none
      | low :: rest =>
        if isLowUnit low then
          (characters? rest).map
            (Char.ofNat (0x10000 + (unit - 0xd800) * 0x400 + (low - 0xdc00)) :: ·)
        else none
    else if isLowUnit unit then none
    else (characters? rest).map (Char.ofNat unit :: ·)

/-- The text that a string literal stands for. -/
def stringValue? : List Char → Option (List Char)
  | '"' :: cs => do
    let (us, rest) ← string? cs
    if rest.isEmpty then characters? us else none
  | _ => none

/-- Text in which every quote and every backslash is escaped or escapes what follows it. -/
inductive Escaped : List Char → Prop
  | nil : Escaped []
  | plain {c : Char} {cs : List Char} (hc : c ≠ '"' ∧ c ≠ '\\') (h : Escaped cs) :
      Escaped (c :: cs)
  | escape {c : Char} {cs : List Char} (h : Escaped cs) : Escaped ('\\' :: c :: cs)

/-! ### What literals are written with -/

/-- A character from the blank to the tilde. -/
def IsPrintable (c : Char) : Prop := ' ' ≤ c ∧ c ≤ '~'

instance (c : Char) : Decidable (IsPrintable c) := inferInstanceAs (Decidable (_ ∧ _))

theorem isPrintable_hexDigit : ∀ n < 16, IsPrintable (Text.hexDigit n) := by
  decide

theorem isPrintable_unitEscape (unit : Nat) : ∀ d ∈ unitEscape unit, IsPrintable d := by
  refine List.forall_mem_cons.2 ⟨by decide, List.forall_mem_cons.2 ⟨by decide, fun d hd => ?_⟩⟩
  obtain ⟨n, hn, rfl⟩ := exists_of_mem_hex hd
  exact isPrintable_hexDigit n hn

theorem Escapes.isPrintable {c : Char} {text : List Char} (h : Escapes c text) :
    ∀ d ∈ text, IsPrintable d := by
  cases h with
  | letter hcode =>
    have hletters : ∀ p ∈ escapeLetters, IsPrintable p.1 := by decide
    simpa [hletters _ hcode] using (by decide : IsPrintable '\\')
  | plain hc => simpa [IsPrintable] using hc
  | unit => exact isPrintable_unitEscape _
  | pair => exact List.forall_mem_append.2 ⟨isPrintable_unitEscape _, isPrintable_unitEscape _⟩

theorem escaped_unitEscape (unit : Nat) {cs : List Char} (h : Escaped cs) :
    Escaped (unitEscape unit ++ cs) := by
  have hplain (ds : List Char) (hds : ∀ d ∈ ds, d ≠ '"' ∧ d ≠ '\\') : Escaped (ds ++ cs) := by
    induction ds with
    | nil => exact h
    | cons d ds ih =>
      obtain ⟨hd, hds⟩ := List.forall_mem_cons.1 hds
      exact .plain hd (ih hds)
  refine .escape (hplain _ fun d hd => ?_)
  obtain ⟨n, hn, rfl⟩ := exists_of_mem_hex hd
  exact (hexDigit_ne n hn).symm

theorem Escapes.escaped {c : Char} {text cs : List Char} (h : Escapes c text) (hcs : Escaped cs) :
    Escaped (text ++ cs) := by
  cases h with
  | letter => exact .escape hcs
  | plain _ hne => exact .plain hne hcs
  | unit => exact escaped_unitEscape _ hcs
  | pair =>
    rw [List.append_assoc]
    exact escaped_unitEscape _ (escaped_unitEscape _ hcs)

/-! ### Units and characters -/

/-- The units of a character make it again, whatever comes after them. -/
theorem characters?_units (c : Char) (us : List Nat) :
    characters? (units c ++ us) = (characters? us).map (c :: ·) := by
  have hvalid : c.toNat < 0xd800 ∨ 0xdfff < c.toNat ∧ c.toNat < 0x110000 := c.valid
  unfold units
  split_ifs with hplane
  · have hhigh : isHighUnit c.toNat = false := by
      simp only [isHighUnit, Bool.and_eq_false_iff, decide_eq_false_iff_not]
      omega
    have hlow : isLowUnit c.toNat = false := by
      simp only [isLowUnit, Bool.and_eq_false_iff, decide_eq_false_iff_not]
      omega
    rw [List.singleton_append, characters?.eq_def]
    simp [hhigh, hlow]
  · -- The halves of the offset are in the ranges of the two units.
    have hhigh : isHighUnit (0xd800 + (c.toNat - 0x10000) / 0x400) = true := by
      simp only [isHighUnit, Bool.and_eq_true, decide_eq_true_eq]
      omega
    have hlow : isLowUnit (0xdc00 + (c.toNat - 0x10000) % 0x400) = true := by
      simp only [isLowUnit, Bool.and_eq_true, decide_eq_true_eq]
      omega
    have hsum : 0x10000 + (0xd800 + (c.toNat - 0x10000) / 0x400 - 0xd800) * 0x400 +
        (0xdc00 + (c.toNat - 0x10000) % 0x400 - 0xdc00) = c.toNat := by omega
    rw [List.cons_append, List.cons_append, List.nil_append, characters?, if_pos hhigh,
      if_pos hlow, hsum, Char.ofNat_toNat]

theorem characters?_flatMap (s : List Char) : characters? (s.flatMap units) = some s := by
  induction s with
  | nil => rfl
  | cons c s ih =>
    rw [List.flatMap_cons, characters?_units, ih]
    rfl

/-! ### Literals -/

/-- The literal that is written for a text. -/
def literalOf (s : String) : List Char := (ofLiteral (.string s) .string).text.toList

/-- The literal of a text is printable, ends at its last quote and stands for the text. -/
theorem stringValue?_ofLiteral (s : String) :
    (∀ c ∈ literalOf s, IsPrintable c) ∧
      (∃ body, literalOf s = '"' :: (body ++ ['"']) ∧ Escaped body) ∧
      stringValue? (literalOf s) = some s.toList := by
  have hliteral : literalOf s = '"' :: (s.toList.flatMap escapeChar ++ ['"']) := by
    show (stringLiteral s).toList = _
    simp [stringLiteral]
  have hescaped : Escaped (s.toList.flatMap escapeChar) := by
    induction s.toList with
    | nil => exact .nil
    | cons c cs ih =>
      rw [List.flatMap_cons]
      exact (escapes_escapeChar c).escaped ih
  rw [hliteral]
  refine ⟨?_, ⟨_, rfl, hescaped⟩, ?_⟩
  · have hbody : ∀ d ∈ s.toList.flatMap escapeChar, IsPrintable d := by
      intro d hd
      obtain ⟨c, -, hd⟩ := List.mem_flatMap.1 hd
      exact (escapes_escapeChar c).isPrintable d hd
    have hquote : IsPrintable '"' := by decide
    simpa [or_imp, forall_and, hquote] using hbody
  · rw [stringValue?, string?_flatMap]
    exact characters?_flatMap s.toList

example : stringValue? ['"', '\\', 'u', 'd', '8', '3', 'd', '\\', 'u', 'd', 'e', '0', '0', '"'] =
    some ['😀'] := by decide

end Dragon.Script
