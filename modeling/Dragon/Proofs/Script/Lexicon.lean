import Dragon.Proofs.Token.Spelling
import Dragon.Script.Text
import Mathlib.Tactic.SplitIfs

/-!
# The lexemes of scripts

A text is cut into words, numerals, string literals and signs, the longest sign first, and blanks
between them are dropped. Of a string literal the units are kept that it stands for. What follows a
lexeme must not continue it: then it is cut by itself, whatever comes after.
-/
namespace Dragon.Script

/-! ### Signs -/

/-- The operations between two operands. -/
inductive Operation where
  | binary (op : BinaryOp)
  | coalesce
  deriving DecidableEq, Repr

inductive Sign where
  | lparen | rparen | lbracket | rbracket | comma | question | colon | dot | chain | spread | arrow
  | bang
  | operation (o : Operation)
  deriving DecidableEq, Repr

/-- All signs of the language, the longer ones first, with those that expressions are written
with. Comments count as signs, so that none is taken for a quotient. -/
def signTexts : List (String × Option Sign) :=
  let op (o : BinaryOp) : Option Sign := some (.operation (.binary o))
  [(">>>=", none), ("<!--", none),
   ("...", some .spread), ("===", op .eq), ("!==", op .ne), ("**=", none), ("<<=", none),
   (">>=", none), (">>>", none), ("&&=", none), ("||=", none), ("??=", none),
   ("=>", some .arrow), ("==", none), ("!=", none), ("<=", op .le), (">=", op .ge),
   ("&&", op .and), ("||", op .or), ("??", some (.operation .coalesce)), ("?.", some .chain),
   ("++", none), ("--", none), ("+=", none), ("-=", none), ("*=", none), ("/=", none),
   ("%=", none), ("&=", none), ("|=", none), ("^=", none), ("<<", none), (">>", none),
   ("**", op .pow), ("//", none), ("/*", none),
   ("(", some .lparen), (")", some .rparen), ("[", some .lbracket), ("]", some .rbracket),
   (",", some .comma), ("?", some .question), (":", some .colon), (".", some .dot),
   ("!", some .bang), ("<", op .lt), (">", op .gt), ("+", op .add), ("-", op .sub), ("*", op .mul),
   ("/", op .div), ("%", none), ("&", none), ("|", none), ("^", none), ("~", none), ("=", none),
   (";", none), ("\x7b", none), ("\x7d", none)]

/-- The longest sign at the start of a text, and what follows it. A dot before a digit belongs to a
numeral. -/
def sign? (cs : List Char) : Option (Sign × List Char) := do
  let (text, sign) ← signTexts.find? fun p => p.1.toList.isPrefixOf cs
  let s ← sign
  let rest := cs.drop text.length
  if (s == .dot || s == .chain) && rest.head?.any Char.isDigit then none else some (s, rest)

/-! ### Numerals -/

/-- The fraction at the start of a text, which may be a dot alone. -/
def fractionAt : List Char → List Char
  | '.' :: cs => '.' :: cs.takeWhile Char.isDigit
  | _ => []

def plusMinusAt : List Char → List Char
  | '+' :: _ => ['+']
  | '-' :: _ => ['-']
  | _ => []

/-- The exponent at the start of a text. One without digits is none that can be read. -/
def exponentAt? : List Char → Option (List Char)
  | c :: cs =>
    if c == 'e' || c == 'E' then
      let digits := (cs.drop (plusMinusAt cs).length).takeWhile Char.isDigit
      if digits.isEmpty then none else some (c :: (plusMinusAt cs ++ digits))
    else some []
  | [] => some []

/-- The numeral at the start of a text. It has no needless zero in front, and no word may follow
it. -/
def numeralAt? (cs : List Char) : Option (List Char) := do
  let whole := cs.takeWhile Char.isDigit
  let fraction := fractionAt (cs.drop whole.length)
  let exponent ← exponentAt? (cs.drop (whole.length + fraction.length))
  let text := whole ++ (fraction ++ exponent)
  if whole.head? == some '0' && whole.length != 1 then none
  else if (cs.drop text.length).head?.any Text.isWordChar then none
  else some text

/-! ### String literals -/

/-- The units that a character takes: one, or two above the first plane. -/
def units (c : Char) : List Nat :=
  if c.toNat < 0x10000 then [c.toNat]
  else [0xd800 + (c.toNat - 0x10000) / 0x400, 0xdc00 + (c.toNat - 0x10000) % 0x400]

def hexValue? (c : Char) : Option Nat :=
  if '0' ≤ c && c ≤ '9' then some (c.toNat - 48)
  else if 'a' ≤ c && c ≤ 'f' then some (c.toNat - 87)
  else if 'A' ≤ c && c ≤ 'F' then some (c.toNat - 55)
  else none

/-- What an escape stands for, apart from those by number. -/
def escapeValue? : Char → Option Nat
  | '"' => some 34 | '\'' => some 39 | '\\' => some 92 | 'n' => some 10 | 'r' => some 13
  | 't' => some 9 | 'b' => some 8 | 'f' => some 12 | 'v' => some 11
  | _ => none

/-- The units of a string literal behind its first quote, and what follows the literal. -/
def string? : List Char → Option (List Nat × List Char)
  | [] => none
  | '"' :: cs => some ([], cs)
  | '\\' :: 'u' :: a :: b :: c :: d :: cs => do
    let unit := ((← hexValue? a) * 16 + (← hexValue? b)) * 256 +
      ((← hexValue? c) * 16 + (← hexValue? d))
    let (others, rest) ← string? cs
    some (unit :: others, rest)
  | '\\' :: c :: cs => do
    let unit ← escapeValue? c
    let (others, rest) ← string? cs
    some (unit :: others, rest)
  | c :: cs => do
    if c == '\n' || c == '\r' then none
    let (others, rest) ← string? cs
    some (units c ++ others, rest)

/-! ### Lexemes -/

inductive Lexeme where
  | word (text : String)
  | numeral (text : String)
  | string (units : List Nat)
  | sign (s : Sign)
  deriving DecidableEq, Repr

/-- The first lexeme of a text that does not start with a blank, and what follows it. -/
def lexeme? : List Char → Option (Lexeme × List Char)
  | [] => none
  | c :: cs =>
    if c = '"' then (string? cs).map fun p => (.string p.1, p.2)
    else if c.isDigit then
      (numeralAt? (c :: cs)).map fun text =>
        (.numeral (String.ofList text), (c :: cs).drop text.length)
    else if Text.isWordChar c then
      let text := (c :: cs).takeWhile Text.isWordChar
      some (.word (String.ofList text), (c :: cs).drop text.length)
    else (sign? (c :: cs)).map fun p => (.sign p.1, p.2)

/-- Cuts a text of at most `fuel` characters less one. -/
def lexemesWith : (fuel : Nat) → List Char → Option (List Lexeme)
  | 0, _ => none
  | _ + 1, [] => some []
  | fuel + 1, c :: cs =>
    if c = ' ' then lexemesWith fuel cs
    else do
      let (first, rest) ← lexeme? (c :: cs)
      let others ← lexemesWith fuel rest
      some (first :: others)

/-- The lexemes of a text, if it can be cut into lexemes. -/
def lexemes (cs : List Char) : Option (List Lexeme) := lexemesWith (cs.length + 1) cs

example : lexemes "(-1.5e+300) ?? x_1?.y[\"\\n\"]".toList =
    some [.sign .lparen, .sign (.operation (.binary .sub)), .numeral "1.5e+300", .sign .rparen,
      .sign (.operation .coalesce), .word "x_1", .sign .chain, .word "y", .sign .lbracket,
      .string [10], .sign .rbracket] := by
  decide

/-! ### Cutting a text piece by piece -/

/-- The lexemes of a text are the given ones, with any fuel that is enough. -/
def Cuts (cs : List Char) (ts : List Lexeme) : Prop :=
  ∀ fuel, cs.length < fuel → lexemesWith fuel cs = some ts

variable {cs rest : List Char} {ts : List Lexeme}

theorem Cuts.lexemes_eq (h : Cuts cs ts) : lexemes cs = some ts := h _ (Nat.lt_succ_self _)

theorem cuts_nil : Cuts [] [] := by
  intro fuel hfuel
  obtain ⟨fuel, rfl⟩ : ∃ n, fuel = n + 1 := ⟨fuel - 1, by simp at hfuel; omega⟩
  rfl

theorem Cuts.blank (h : Cuts cs ts) : Cuts (' ' :: cs) ts := by
  intro fuel hfuel
  rw [List.length_cons] at hfuel
  obtain _ | fuel := fuel
  · omega
  rw [lexemesWith, if_pos rfl]
  exact h fuel (by omega)

theorem Cuts.cons {c : Char} {t : Lexeme} (hblank : c ≠ ' ')
    (ht : lexeme? (c :: (cs ++ rest)) = some (t, rest)) (h : Cuts rest ts) :
    Cuts (c :: (cs ++ rest)) (t :: ts) := by
  intro fuel hfuel
  rw [List.length_cons, List.length_append] at hfuel
  obtain _ | fuel := fuel
  · omega
  have hrest : lexemesWith fuel rest = some ts := h fuel (by omega)
  rw [lexemesWith, if_neg hblank, ht]
  show (lexemesWith fuel rest).bind _ = _
  rw [hrest]
  rfl

theorem takeWhile_append_of_head {test : Char → Bool} (hcs : ∀ c ∈ cs, test c = true)
    (hrest : ∀ c ∈ rest.head?, test c = false) : (cs ++ rest).takeWhile test = cs := by
  rw [List.takeWhile_append_of_pos hcs]
  cases rest with
  | nil => simp
  | cons c rest => simp [hrest c rfl]

/-! ### Words -/

theorem isWordChar_of_isDigit {c : Char} (h : c.isDigit = true) : Text.isWordChar c = true :=
  Text.isWordChar_of_isDigit (Text.isDigit_of_isDecimal (Text.isDecimal_of_isDigit h))

/-- A word that does not start with a digit is cut before what is no part of a word. -/
theorem Cuts.word {word : String} (hfirst : ∀ c ∈ word.toList.head?, c.isDigit = false)
    (hne : word.toList ≠ []) (hword : ∀ c ∈ word.toList, Text.isWordChar c = true)
    (hrest : ∀ c ∈ rest.head?, Text.isWordChar c = false) (h : Cuts rest ts) :
    Cuts (word.toList ++ rest) (.word word :: ts) := by
  obtain ⟨c, cs, hcs⟩ : ∃ c cs, word.toList = c :: cs := List.exists_cons_of_ne_nil hne
  have htake := takeWhile_append_of_head hword hrest
  have hchars : String.ofList (c :: cs) = word := by rw [← hcs, String.ofList_toList]
  rw [hcs] at hfirst hword htake
  rw [hcs]
  have hc := hword c List.mem_cons_self
  have hquote : c ≠ '"' := by
    rintro rfl
    exact absurd hc (by decide)
  refine .cons (fun hblank => ?_) ?_ h
  · subst hblank
    exact absurd hc (by decide)
  · have hdigit : c.isDigit = false := hfirst c rfl
    rw [List.cons_append] at htake
    simp [lexeme?, hquote, hdigit, hc, htake, hchars]

/-! ### Signs -/

/-- The characters that make a longer sign of one. -/
def extenders (text : String) : List Char :=
  signTexts.filterMap fun p =>
    if text.toList.isPrefixOf p.1.toList then (p.1.toList.drop text.toList.length).head? else none

theorem pairwise_signTexts :
    signTexts.Pairwise fun p q =>
      q.1.toList.length ≤ p.1.toList.length ∧ p.1.toList ≠ q.1.toList := by
  decide +kernel

/-- A sign is found before what does not make a longer one of it. -/
theorem find?_signTexts {p : String × Option Sign} (hp : p ∈ signTexts)
    (hrest : ∀ c ∈ rest.head?, c ∉ extenders p.1) :
    (signTexts.find? fun q => q.1.toList.isPrefixOf (p.1.toList ++ rest)) = some p := by
  obtain ⟨before, after, hsplit⟩ := List.append_of_mem hp
  refine List.find?_eq_some_iff_append.2 ⟨?_, before, after, hsplit, fun q hq => ?_⟩
  · exact List.isPrefixOf_iff_prefix.2 (List.prefix_append _ _)
  have hlonger := pairwise_signTexts
  rw [hsplit] at hlonger
  obtain ⟨hlength, hne⟩ :=
    (List.pairwise_append.1 hlonger).2.2 q hq p List.mem_cons_self
  rw [Bool.not_eq_true', Bool.eq_false_iff]
  intro hprefix
  have hq' := List.isPrefixOf_iff_prefix.1 hprefix
  obtain ⟨tail, htail⟩ := List.prefix_of_prefix_length_le (List.prefix_append _ rest) hq' hlength
  cases tail with
  | nil =>
    rw [List.append_nil] at htail
    exact hne htail.symm
  | cons c tail =>
    rw [← htail] at hq'
    obtain ⟨more, hmore⟩ := (List.prefix_append_right_inj _).1 hq'
    refine hrest c (by simp [← hmore]) (List.mem_filterMap.2 ⟨q, ?_, ?_⟩)
    · rw [hsplit]
      exact List.mem_append_left _ hq
    · have hisPrefix : p.1.toList.isPrefixOf q.1.toList = true :=
        List.isPrefixOf_iff_prefix.2 ⟨c :: tail, htail⟩
      rw [if_pos hisPrefix, ← htail]
      simp

/-- No sign starts as another lexeme does. -/
theorem signTexts_start : ∀ p ∈ signTexts, ∀ c ∈ p.1.toList.head?,
    c ≠ ' ' ∧ c ≠ '"' ∧ c.isDigit = false ∧ Text.isWordChar c = false := by
  have hall : ∀ p ∈ signTexts, p.1.toList.head?.all (fun c =>
      c != ' ' && c != '"' && !c.isDigit && !Text.isWordChar c) = true := by
    decide +kernel
  intro p hp c hc
  have hstart := hall p hp
  rw [Option.mem_def] at hc
  rw [hc] at hstart
  simpa [and_assoc] using hstart

theorem signTexts_ne_nil : ∀ p ∈ signTexts, p.1.toList ≠ [] := by
  decide +kernel

/-- A sign is cut before what does not extend it. -/
theorem Cuts.sign {text : String} {s : Sign} (hs : (text, some s) ∈ signTexts)
    (hrest : ∀ c ∈ rest.head?, c ∉ extenders text)
    (hdigit : s = .dot ∨ s = .chain → ∀ c ∈ rest.head?, c.isDigit = false) (h : Cuts rest ts) :
    Cuts (text.toList ++ rest) (.sign s :: ts) := by
  have hsign : sign? (text.toList ++ rest) = some (s, rest) := by
    have hno : ((s == .dot || s == .chain) && rest.head?.any Char.isDigit) = false := by
      refine Bool.eq_false_iff.2 fun hdot => ?_
      obtain ⟨hdot, hany⟩ := Bool.and_eq_true_iff.1 hdot
      obtain ⟨c, hc, hcdigit⟩ := (Option.any_eq_true _ _).1 hany
      rw [hdigit (by simpa using hdot) c hc] at hcdigit
      cases hcdigit
    have hdrop : (text.toList ++ rest).drop text.length = rest := by
      rw [← String.length_toList, List.drop_left]
    rw [sign?, find?_signTexts hs hrest]
    show (if ((s == .dot || s == .chain) &&
      ((text.toList ++ rest).drop text.length).head?.any Char.isDigit) = true then none
      else some (s, (text.toList ++ rest).drop text.length)) = _
    rw [hdrop, hno]
    rfl
  obtain ⟨c, cs, hcs⟩ := List.exists_cons_of_ne_nil (signTexts_ne_nil _ hs)
  obtain ⟨hblank, hquote, hcdigit, hword⟩ := signTexts_start _ hs c (by simp [hcs])
  dsimp only at hcs
  rw [hcs] at hsign ⊢
  refine .cons hblank ?_ h
  rw [List.cons_append] at hsign
  simp [lexeme?, hquote, hcdigit, hword, hsign]

/-! ### Numerals -/

/-- Digits without a needless zero in front. -/
structure IsWhole (cs : List Char) : Prop where
  ne_nil : cs ≠ []
  digits : ∀ c ∈ cs, c.isDigit = true
  zero : cs.head? = some '0' → cs.length = 1

inductive IsFraction : List Char → Prop
  | none : IsFraction []
  | digits {ds : List Char} (hds : ∀ d ∈ ds, d.isDigit = true) : IsFraction ('.' :: ds)

inductive IsExponent : List Char → Prop
  | none : IsExponent []
  | digits {mark : Char} {ds : List Char} (hmark : mark = '+' ∨ mark = '-') (hne : ds ≠ [])
      (hds : ∀ d ∈ ds, d.isDigit = true) : IsExponent ('e' :: mark :: ds)

inductive IsNumeral : List Char → Prop
  | mk {whole fraction exponent : List Char} (hwhole : IsWhole whole)
      (hfraction : IsFraction fraction) (hexponent : IsExponent exponent) :
      IsNumeral (whole ++ (fraction ++ exponent))

/-- What follows a numeral is neither a part of a word nor a dot. -/
def EndsNumeral (rest : List Char) : Prop :=
  ∀ c ∈ rest.head?, Text.isWordChar c = false ∧ c ≠ '.'

theorem EndsNumeral.not_isDigit (h : EndsNumeral rest) : ∀ c ∈ rest.head?, c.isDigit = false := by
  intro c hc
  refine Bool.eq_false_iff.2 fun hdigit => ?_
  have hword := (h c hc).1
  rw [isWordChar_of_isDigit hdigit] at hword
  cases hword

theorem fractionAt_append {fraction : List Char} (h : IsFraction fraction)
    (hdigit : ∀ c ∈ rest.head?, c.isDigit = false) (hdot : ∀ c ∈ rest.head?, c ≠ '.') :
    fractionAt (fraction ++ rest) = fraction := by
  cases h with
  | none =>
    cases rest with
    | nil => rfl
    | cons c rest =>
      have hc : c ≠ '.' := hdot c rfl
      simp [fractionAt, hc]
  | digits hds => simp [fractionAt, takeWhile_append_of_head hds hdigit]

theorem exponentAt?_append {exponent : List Char} (h : IsExponent exponent)
    (hrest : EndsNumeral rest) : exponentAt? (exponent ++ rest) = some exponent := by
  cases h with
  | none =>
    cases rest with
    | nil => rfl
    | cons c rest =>
      have hword := (hrest c rfl).1
      have hlower : c ≠ 'e' := by
        rintro rfl
        exact absurd hword (by decide)
      have hupper : c ≠ 'E' := by
        rintro rfl
        exact absurd hword (by decide)
      simp [exponentAt?, hlower, hupper]
  | digits hmark hne hds =>
    have htake := takeWhile_append_of_head hds hrest.not_isDigit
    obtain rfl | rfl := hmark <;> simp [exponentAt?, plusMinusAt, htake, hne]

/-- A numeral is taken whole before what is neither a part of a word nor a dot. -/
theorem numeralAt?_append (h : IsNumeral cs) (hrest : EndsNumeral rest) :
    numeralAt? (cs ++ rest) = some cs := by
  obtain @⟨whole, fraction, exponent, hwhole, hfraction, hexponent⟩ := h
  have htail : ∀ c ∈ (exponent ++ rest).head?, c.isDigit = false ∧ c ≠ '.' := by
    cases hexponent with
    | none => exact fun c hc => ⟨hrest.not_isDigit c hc, (hrest c hc).2⟩
    | digits => simp
  have hhead : ∀ c ∈ (fraction ++ (exponent ++ rest)).head?, c.isDigit = false := by
    cases hfraction with
    | none => exact fun c hc => (htail c hc).1
    | digits => simp
  have hwhole' : ((whole ++ (fraction ++ exponent)) ++ rest).takeWhile Char.isDigit = whole := by
    rw [List.append_assoc, List.append_assoc]
    exact takeWhile_append_of_head hwhole.digits hhead
  have hfraction' : fractionAt (fraction ++ (exponent ++ rest)) = fraction :=
    fractionAt_append hfraction (fun c hc => (htail c hc).1) fun c hc => (htail c hc).2
  have hdrop : ((whole ++ (fraction ++ exponent)) ++ rest).drop whole.length =
      fraction ++ (exponent ++ rest) := by simp
  have hdrop' : ((whole ++ (fraction ++ exponent)) ++ rest).drop (whole.length + fraction.length) =
      exponent ++ rest := by
    rw [← List.drop_drop, hdrop, List.drop_left]
  have hzero : (whole.head? == some '0' && whole.length != 1) = false := by
    refine Bool.eq_false_iff.2 fun hzero => ?_
    obtain ⟨hhead, hlength⟩ := Bool.and_eq_true_iff.1 hzero
    have := hwhole.zero (by simpa using hhead)
    simp [this] at hlength
  have hword : rest.head?.any Text.isWordChar = false := by
    refine Bool.eq_false_iff.2 fun hany => ?_
    obtain ⟨c, hc, hcword⟩ := (Option.any_eq_true _ _).1 hany
    rw [(hrest c hc).1] at hcword
    cases hcword
  unfold numeralAt?
  simp only [hwhole', hdrop, hfraction', hdrop', exponentAt?_append hexponent hrest,
    Option.bind_eq_bind, Option.bind_some, hzero, List.drop_left, hword]
  rfl

/-- A numeral is cut before what ends it. -/
theorem Cuts.numeral {text : String} (htext : IsNumeral text.toList) (hrest : EndsNumeral rest)
    (h : Cuts rest ts) : Cuts (text.toList ++ rest) (.numeral text :: ts) := by
  have hnumeral := numeralAt?_append htext hrest
  obtain ⟨c, cs, hcs, hc⟩ : ∃ c cs, text.toList = c :: cs ∧ c.isDigit = true := by
    generalize text.toList = chars at htext
    obtain ⟨hwhole, -, -⟩ := htext
    obtain ⟨c, whole, rfl⟩ := List.exists_cons_of_ne_nil hwhole.ne_nil
    exact ⟨c, _, rfl, hwhole.digits c List.mem_cons_self⟩
  have hchars : String.ofList (c :: cs) = text := by rw [← hcs, String.ofList_toList]
  rw [hcs] at hnumeral ⊢
  have hquote : c ≠ '"' := by
    rintro rfl
    cases hc
  refine .cons (fun hblank => ?_) ?_ h
  · subst hblank
    cases hc
  · rw [List.cons_append] at hnumeral
    simp [lexeme?, hquote, hc, hnumeral, hchars]

/-! ### String literals -/

theorem hexValue?_hexDigit : ∀ n < 16, hexValue? (Text.hexDigit n) = some n := by
  decide

theorem string?_unitEscape {unit : Nat} (hunit : unit < 0x10000) (cs : List Char) :
    string? (unitEscape unit ++ cs) =
      (string? cs).map fun p => (unit :: p.1, p.2) := by
  have hvalue (n : Nat) : hexValue? (Text.hexDigit (n % 16)) = some (n % 16) :=
    hexValue?_hexDigit _ (Nat.mod_lt _ (by decide))
  have hsum : (unit / 16 / 16 / 16 % 16 * 16 + unit / 16 / 16 % 16) * 256 +
      (unit / 16 % 16 * 16 + unit % 16) = unit := by omega
  simp only [unitEscape, Text.hex, List.nil_append, List.cons_append, string?, hvalue,
    Option.bind_eq_bind, Option.bind_some, hsum]
  cases string? cs <;> rfl

theorem string?_escape {code : Char} {unit : Nat} (hcode : escapeValue? code = some unit)
    (hne : code ≠ 'u') (cs : List Char) :
    string? ('\\' :: code :: cs) = (string? cs).map fun p => (unit :: p.1, p.2) := by
  rw [string?]
  · rw [hcode]
    cases string? cs <;> rfl
  · exact fun a b c d rest hcode _ => hne hcode

theorem string?_plain {c : Char} (hquote : c ≠ '"') (hslash : c ≠ '\\') (hnewline : c ≠ '\n')
    (hreturn : c ≠ '\r') (cs : List Char) :
    string? (c :: cs) = (string? cs).map fun p => (units c ++ p.1, p.2) := by
  rw [string?]
  · simp only [hnewline, hreturn, beq_iff_eq, Bool.or_eq_true, or_self, if_false]
    cases string? cs <;> rfl
  · exact hquote
  · exact fun a b d e rest hc _ => hslash hc
  · exact fun d rest hc _ => hslash hc

/-- The letters that stand for characters after a backslash. -/
def escapeLetters : List (Char × Char) :=
  [('"', '"'), ('\\', '\\'), ('n', '\n'), ('r', '\r'), ('t', '\t'), ('b', '\x08'), ('f', '\x0c')]

/-- How a character is written between quotes: with a letter after a backslash, as it is, or by its
units. -/
inductive Escapes (c : Char) : List Char → Prop
  | letter {code : Char} (hcode : (code, c) ∈ escapeLetters) : Escapes c ['\\', code]
  | plain (hc : ' ' ≤ c ∧ c ≤ '~') (hne : c ≠ '"' ∧ c ≠ '\\') : Escapes c [c]
  | unit (hplane : c.toNat < 0x10000) : Escapes c (unitEscape c.toNat)
  | pair (hplane : ¬ c.toNat < 0x10000) : Escapes c
      (unitEscape (0xd800 + (c.toNat - 0x10000) / 0x400) ++
        unitEscape (0xdc00 + (c.toNat - 0x10000) % 0x400))

/-- Every character is written by one of the escapes. -/
theorem escapes_escapeChar (c : Char) : Escapes c (escapeChar c) := by
  by_cases hletter : ∃ code, (code, c) ∈ escapeLetters
  · obtain ⟨code, hcode⟩ := hletter
    have hletters : ∀ p ∈ escapeLetters, escapeChar p.2 = ['\\', p.1] := by decide
    rw [hletters _ hcode]
    exact .letter hcode
  · have hne : ∀ p ∈ escapeLetters, (c == p.2) = false := fun p hp =>
      beq_eq_false_iff_ne.2 fun h => hletter ⟨p.1, h ▸ hp⟩
    simp only [escapeLetters, List.forall_mem_cons] at hne
    obtain ⟨hquote, hslash, hnewline, hreturn, htab, hback, hfeed, -⟩ := hne
    simp only [escapeChar, hquote, hslash, hnewline, hreturn, htab, hback, hfeed,
      Bool.false_eq_true, if_false]
    split
    next hc => exact .plain (by simpa using hc) ⟨by simpa using hquote, by simpa using hslash⟩
    split
    next hplane => exact .unit hplane
    next hplane => exact .pair hplane

/-- A character of a literal is read as its units. -/
theorem Escapes.string?_append {c : Char} {text : List Char} (h : Escapes c text) (cs : List Char) :
    string? (text ++ cs) = (string? cs).map fun p => (units c ++ p.1, p.2) := by
  cases h with
  | letter hcode =>
    have hletters : ∀ p ∈ escapeLetters,
        escapeValue? p.1 = some p.2.toNat ∧ p.1 ≠ 'u' ∧ p.2.toNat < 0x10000 := by decide
    obtain ⟨hvalue, hne, hplane⟩ := hletters _ hcode
    rw [units, if_pos hplane]
    exact string?_escape hvalue hne cs
  | plain hc hne =>
    have hnewline : c ≠ '\n' := by
      rintro rfl
      exact absurd hc (by decide)
    have hreturn : c ≠ '\r' := by
      rintro rfl
      exact absurd hc (by decide)
    exact string?_plain hne.1 hne.2 hnewline hreturn cs
  | unit hplane =>
    rw [string?_unitEscape hplane, units, if_pos hplane]
    rfl
  | pair hplane =>
    -- Above the first plane there are two units, the halves of the offset.
    have hrange : c.toNat < 0x110000 := by
      have hvalid : c.toNat < 0xd800 ∨ 0xdfff < c.toNat ∧ c.toNat < 0x110000 := c.valid
      omega
    rw [List.append_assoc, string?_unitEscape (by omega), string?_unitEscape (by omega), units,
      if_neg hplane]
    cases string? cs <;> rfl

theorem string?_flatMap (s rest : List Char) :
    string? (s.flatMap escapeChar ++ '"' :: rest) = some (s.flatMap units, rest) := by
  induction s with
  | nil => rfl
  | cons c s ih =>
    rw [List.flatMap_cons, List.append_assoc, (escapes_escapeChar c).string?_append, ih]
    rfl

theorem Cuts.string (s : String) (h : Cuts rest ts) :
    Cuts ((stringLiteral s).toList ++ rest) (.string (s.toList.flatMap units) :: ts) := by
  have htext : (stringLiteral s).toList ++ rest =
      '"' :: ((s.toList.flatMap escapeChar ++ ['"']) ++ rest) := by
    simp [stringLiteral]
  rw [htext]
  refine .cons (by decide) ?_ h
  rw [List.append_assoc, lexeme?, if_pos rfl]
  simp [string?_flatMap]

end Dragon.Script
