import Dragon.Proofs.Script.Lexicon
import Dragon.Proofs.Script.Template
import Mathlib.Tactic.IntervalCases

/-!
# The texts of expressions are neutral code

Names, operators and numbers hold no character that opens or closes anything, string literals escape
their quotes, and templates close what they open as long as nothing comes about where their parts
meet.
-/
namespace Dragon.Script

/-! ### Text without marks -/

/-- The characters that open or close something in code. -/
def marks : List Char := ['\x7b', '\x7d', '"', '\'', '\x60']

/-- Text without marks. -/
def Inert (cs : List Char) : Prop := ∀ c ∈ cs, c ∉ marks

-- Inferred, the instance may go through all characters instead of those of the text.
instance (cs : List Char) : Decidable (Inert cs) := List.decidableBAll (· ∉ marks) cs

namespace Inert

theorem nil : Inert [] := by simp [Inert]

theorem cons {c : Char} {cs : List Char} (hc : c ∉ marks) (hcs : Inert cs) : Inert (c :: cs) := by
  intro d hd
  obtain rfl | hd := List.mem_cons.1 hd
  · exact hc
  · exact hcs d hd

theorem append {cs ds : List Char} (hcs : Inert cs) (hds : Inert ds) : Inert (cs ++ ds) :=
  fun c hc => (List.mem_append.1 hc).elim (hcs c) (hds c)

theorem subset {cs ds : List Char} (hds : Inert ds) (h : cs ⊆ ds) : Inert cs :=
  fun c hc => hds c (h hc)

theorem neutral {s : String} (h : Inert s.toList) : Neutral s := by
  intro outer rest
  generalize s.toList = cs at h
  induction cs with
  | nil => simp
  | cons c cs ih =>
    have hc := h c List.mem_cons_self
    simp only [marks, List.mem_cons, List.not_mem_nil, or_false, not_or] at hc
    obtain ⟨hopen, hclose, hdouble, hsingle, hback⟩ := hc
    rw [List.cons_append, read, ih (h.subset (List.subset_cons_self c cs)), Option.map_map]
    · simp [Function.comp_def]
    all_goals assumption

end Inert

theorem Neutral.append {s t : String} (hs : Neutral s) (ht : Neutral t) : Neutral (s ++ t) := by
  intro outer rest
  rw [String.toList_append, List.append_assoc, hs, ht, Option.map_map]
  simp [Function.comp_def]

/-! ### Numbers -/

theorem inert_digitsOf (n : Nat) : Inert (Decimal.digitsOf n) := by
  intro c hc hmark
  have hdigit := Nat.isDigit_of_mem_toDigits (by decide) (by decide) hc
  simp only [marks, List.mem_cons, List.not_mem_nil, or_false] at hmark
  obtain rfl | rfl | rfl | rfl | rfl := hmark <;> cases hdigit

theorem inert_zeroes (n : Nat) : Inert (Decimal.zeroes n) := by
  intro c hc
  obtain rfl := List.eq_of_mem_replicate hc
  decide

theorem inert_positional {digits : List Char} (h : Inert digits) (leading : Int) :
    Inert (Decimal.Layout.positional digits leading) := by
  unfold Decimal.Layout.positional
  split
  · exact .cons (by decide) (.cons (by decide) ((inert_zeroes _).append h))
  · dsimp only
    split
    · exact (h.append (inert_zeroes _)).append (by decide)
    · exact (h.subset (List.take_subset _ _)).append
        (.cons (by decide) (h.subset (List.drop_subset _ _)))

theorem inert_scientific (l : Decimal.Layout) {digits : List Char} (h : Inert digits)
    (leading : Int) : Inert (l.scientific digits leading) := by
  unfold Decimal.Layout.scientific
  extract_lets power fraction
  have hfraction : Inert fraction := by
    simp only [fraction]
    split
    · exact .nil
    · exact .cons (by decide) (h.subset (List.drop_subset 1 _))
  have hsign : (if leading < 0 then '-' else '+') ∉ marks := by split <;> decide
  exact (((h.subset (List.take_subset _ _)).append hfraction).append
    (.cons (by decide) (.cons hsign (inert_zeroes _)))).append (inert_digitsOf _)

theorem inert_decimal (l : Decimal.Layout) (d : Decimal) : Inert (l.decimal d) := by
  unfold Decimal.Layout.decimal
  dsimp only
  split
  · exact inert_positional (inert_digitsOf _) _
  · exact inert_scientific l (inert_digitsOf _) _

theorem inert_float (x : Float) : Inert (floatLayout.float x).toList := by
  unfold Decimal.Layout.float
  split
  · decide
  · extract_lets magnitude
    have hmagnitude : Inert magnitude.toList := by
      simp only [magnitude]
      split
      · decide
      · simpa using inert_decimal _ _
    split
    · rw [String.toList_append]
      exact Inert.append (by decide) hmagnitude
    · exact hmagnitude

theorem inert_intText (n : Int) : Inert (Typed.intText n).toList := by
  unfold Typed.intText
  extract_lets digits
  have hdigits : Inert digits.toList := by
    simp only [digits, String.toList_ofList]
    exact inert_digitsOf _
  split
  · rw [String.toList_append]
    exact Inert.append (by decide) hdigits
  · exact hdigits

/-! ### String literals -/

/-- A character of a string literal that is no mark there. -/
theorem read_quoted_char (outer : List Mode) {mark c : Char} (rest : List Char) (hslash : c ≠ '\\')
    (hmark : c ≠ mark) :
    read (.quoted mark :: outer) (c :: rest) =
      (read (.quoted mark :: outer) rest).map (.code c :: ·) := by
  rw [read, if_neg hmark]
  intro c' rest' h
  exact absurd h hslash

/-- Text that passes within a string literal. -/
def Passes (cs : List Char) : Prop :=
  ∀ outer rest, read (.quoted '"' :: outer) (cs ++ rest) =
    (read (.quoted '"' :: outer) rest).map (cs.map .code ++ ·)

namespace Passes

theorem append {cs ds : List Char} (hcs : Passes cs) (hds : Passes ds) : Passes (cs ++ ds) := by
  intro outer rest
  rw [List.append_assoc, hcs, hds, Option.map_map]
  simp [Function.comp_def]

theorem escape (c : Char) : Passes ['\\', c] := by
  intro outer rest
  rw [List.cons_append, List.cons_append, read]
  rfl

theorem plain {cs : List Char} (h : ∀ c ∈ cs, c ≠ '\\' ∧ c ≠ '"') : Passes cs := by
  intro outer rest
  induction cs with
  | nil => simp
  | cons c cs ih =>
    have hc := h c List.mem_cons_self
    rw [List.cons_append, read_quoted_char outer _ hc.1 hc.2,
      ih fun d hd => h d (List.mem_cons_of_mem _ hd), Option.map_map]
    simp [Function.comp_def]

end Passes

theorem hexDigit_ne (n : Nat) (h : n < 16) : Text.hexDigit n ≠ '\\' ∧ Text.hexDigit n ≠ '"' := by
  interval_cases n <;> decide

theorem exists_of_mem_hex {width n : Nat} {c : Char} (h : c ∈ Text.hex width n) :
    ∃ m < 16, c = Text.hexDigit m := by
  induction width generalizing n with
  | zero => cases h
  | succ width ih =>
    obtain h | h := List.mem_append.1 h
    · exact ih h
    · exact ⟨n % 16, Nat.mod_lt _ (by decide), List.mem_singleton.1 h⟩

theorem passes_unitEscape (unit : Nat) : Passes (unitEscape unit) := by
  have hhex : Passes (Text.hex 4 unit) := by
    refine .plain fun c hc => ?_
    obtain ⟨m, hm, rfl⟩ := exists_of_mem_hex hc
    exact hexDigit_ne m hm
  exact (Passes.escape 'u').append hhex

theorem Escapes.passes {c : Char} {text : List Char} (h : Escapes c text) : Passes text := by
  cases h with
  | letter => exact .escape _
  | plain _ hne => exact .plain (by simpa using hne.symm)
  | unit => exact passes_unitEscape _
  | pair => exact (passes_unitEscape _).append (passes_unitEscape _)

/-- The quotes of a string literal close each other. -/
theorem neutral_stringLiteral (s : String) : Neutral (stringLiteral s) := by
  have hbody : Passes (s.toList.flatMap escapeChar) := by
    induction s.toList with
    | nil => exact .plain (by simp)
    | cons c cs ih => exact (escapes_escapeChar c).passes.append ih
  intro outer rest
  have htext : (stringLiteral s).toList = '"' :: (s.toList.flatMap escapeChar ++ ['"']) := by
    simp [stringLiteral]
  rw [htext, List.cons_append, read, List.append_assoc, hbody, List.singleton_append, read,
    if_pos rfl]
  · simp only [Option.map_map]
    congr 1
    funext items
    simp
  · intro c' rest' h
    cases h

/-! ### Expressions -/

/-- A template that closes what it opens. -/
theorem neutral_template {parts : List Part} (hholes : NeutralHoles parts)
    (hseamless : seamless parts = true) : Neutral (Expr.text (.template parts)) := by
  intro outer rest
  rw [toList_text_template, List.cons_append, read, List.append_assoc,
    read_parts (.code :: outer) hholes hseamless (by simp), List.singleton_append, read]
  simp only [Option.map_map]
  congr 1
  funext items
  simp [shown]

theorem neutral_separated {texts : List String} (h : ∀ t ∈ texts, Neutral t) :
    Neutral (separated texts) := by
  unfold separated
  induction texts with
  | nil =>
    rw [String.intercalate_nil]
    exact Inert.neutral (by decide)
  | cons t texts ih =>
    have ht := h t List.mem_cons_self
    have hrest := ih fun u hu => h u (List.mem_cons_of_mem _ hu)
    cases texts with
    | nil =>
      rw [String.intercalate_singleton]
      exact ht
    | cons u texts =>
      rw [String.intercalate_cons_cons]
      exact (ht.append (Inert.neutral (by decide))).append hrest

mutual

/-- An expression whose names and operators have no marks. -/
def Expr.Inert : Expr → Prop
  | .name n => Script.Inert n.base.toList
  | .builtin text => Script.Inert text.toList
  | .this | .null | .int _ | .float _ | .bool _ | .string _ | .encoder => True
  | .template parts => partsInert parts
  | .group e | .not e | .minus e => e.Inert
  | .binary symbol left right => Script.Inert symbol.toList ∧ left.Inert ∧ right.Inert
  | .ternary test consequent alternate => test.Inert ∧ consequent.Inert ∧ alternate.Inert
  | .list elements | .encode elements => exprsInert elements
  | .subscript collection index => collection.Inert ∧ index.Inert
  | .member object access name =>
    object.Inert ∧ Script.Inert access.toList ∧ Script.Inert name.toList
  | .call callee args => callee.Inert ∧ exprsInert args
  | .construct type args => Script.Inert type.base.toList ∧ exprsInert args

def exprsInert : List Expr → Prop
  | [] => True
  | e :: rest => e.Inert ∧ exprsInert rest

def partsInert : List Part → Prop
  | [] => True
  | .text _ :: rest => partsInert rest
  | .hole e :: rest => e.Inert ∧ partsInert rest

end

mutual

/-- The templates in an expression, those in the substitutions of others included. -/
def Expr.templates : Expr → List (List Part)
  | .name _ | .builtin _ | .this | .null | .int _ | .float _ | .bool _ | .string _ | .encoder => []
  | .template parts => parts :: innerTemplates parts
  | .group e | .not e | .minus e => e.templates
  | .binary _ left right => left.templates ++ right.templates
  | .ternary test consequent alternate =>
    test.templates ++ consequent.templates ++ alternate.templates
  | .list elements | .encode elements | .construct _ elements => exprsTemplates elements
  | .subscript collection index => collection.templates ++ index.templates
  | .member object _ _ => object.templates
  | .call callee args => callee.templates ++ exprsTemplates args

def exprsTemplates : List Expr → List (List Part)
  | [] => []
  | e :: rest => e.templates ++ exprsTemplates rest

/-- The templates in the substitutions of a template. -/
def innerTemplates : List Part → List (List Part)
  | [] => []
  | .text _ :: rest => innerTemplates rest
  | .hole e :: rest => e.templates ++ innerTemplates rest

end

theorem neutral_name (n : Name) (hinert : Inert n.base.toList) : Neutral n.text := by
  have hnumber : Inert (String.ofList (Decimal.digitsOf n.number)).toList := by
    rw [String.toList_ofList]
    exact inert_digitsOf _
  exact ((Inert.neutral hinert).append (Inert.neutral (by decide))).append hnumber.neutral

mutual

/-- The text of an inert expression is neutral where its templates have no seams. -/
theorem neutral_text (e : Expr) (hinert : e.Inert)
    (hseamless : ∀ parts ∈ e.templates, seamless parts = true) : Neutral e.text := by
  match e with
  | .name n => exact neutral_name n hinert
  | .builtin text => exact Inert.neutral hinert
  | .this => exact Inert.neutral (by decide)
  | .null => exact Inert.neutral (by decide)
  | .int n => exact Inert.neutral (inert_intText n)
  | .float x => exact Inert.neutral (inert_float x)
  | .bool b => exact Inert.neutral (by cases b <;> decide)
  | .string s => exact neutral_stringLiteral s
  | .template parts =>
    exact neutral_template
      (neutral_holes parts hinert fun ps hps => hseamless ps (List.mem_cons_of_mem _ hps))
      (hseamless parts List.mem_cons_self)
  | .group e =>
    have he := neutral_text e hinert hseamless
    exact ((Inert.neutral (by decide)).append he).append (Inert.neutral (by decide))
  | .not e | .minus e =>
    exact (Inert.neutral (by decide)).append (neutral_text e hinert hseamless)
  | .binary symbol left right =>
    obtain ⟨hsl, hsr⟩ := List.forall_mem_append.1 hseamless
    have hblank : Neutral " " := Inert.neutral (by decide)
    exact ((((neutral_text left hinert.2.1 hsl).append hblank).append
      (Inert.neutral hinert.1)).append hblank).append (neutral_text right hinert.2.2 hsr)
  | .ternary test consequent alternate =>
    obtain ⟨hs, hsa⟩ := List.forall_mem_append.1 hseamless
    obtain ⟨hst, hsc⟩ := List.forall_mem_append.1 hs
    exact ((((neutral_text test hinert.1 hst).append (Inert.neutral (by decide))).append
      (neutral_text consequent hinert.2.1 hsc)).append (Inert.neutral (by decide))).append
      (neutral_text alternate hinert.2.2 hsa)
  | .list elements =>
    have helements := neutral_separated (neutral_texts elements hinert hseamless)
    exact ((Inert.neutral (by decide)).append helements).append (Inert.neutral (by decide))
  | .subscript collection index =>
    obtain ⟨hsc, hsi⟩ := List.forall_mem_append.1 hseamless
    exact (((neutral_text collection hinert.1 hsc).append (Inert.neutral (by decide))).append
      (neutral_text index hinert.2 hsi)).append (Inert.neutral (by decide))
  | .member object access name =>
    exact ((neutral_text object hinert.1 hseamless).append (Inert.neutral hinert.2.1)).append
      (Inert.neutral hinert.2.2)
  | .call callee args =>
    obtain ⟨hsc, hsa⟩ := List.forall_mem_append.1 hseamless
    have hargs := neutral_separated (neutral_texts args hinert.2 hsa)
    exact (((neutral_text callee hinert.1 hsc).append (Inert.neutral (by decide))).append
      hargs).append (Inert.neutral (by decide))
  | .construct type args =>
    have hargs := neutral_separated (neutral_texts args hinert.2 hseamless)
    exact ((((Inert.neutral (by decide)).append (neutral_name type hinert.1)).append
      (Inert.neutral (by decide))).append hargs).append (Inert.neutral (by decide))
  | .encode args =>
    have hargs := neutral_separated (neutral_texts args hinert hseamless)
    exact ((Inert.neutral (by decide)).append hargs).append (Inert.neutral (by decide))
  | .encoder => exact Inert.neutral (by decide)

theorem neutral_texts (es : List Expr) (hinert : exprsInert es)
    (hseamless : ∀ parts ∈ exprsTemplates es, seamless parts = true) :
    ∀ t ∈ exprTexts es, Neutral t := by
  match es with
  | [] => exact fun t ht => nomatch ht
  | e :: rest =>
    intro t ht
    obtain rfl | ht := List.mem_cons.1 ht
    · exact neutral_text e hinert.1 fun ps hps => hseamless ps (List.mem_append_left _ hps)
    · exact neutral_texts rest hinert.2
        (fun ps hps => hseamless ps (List.mem_append_right _ hps)) t ht

theorem neutral_holes (parts : List Part) (hinert : partsInert parts)
    (hseamless : ∀ ps ∈ innerTemplates parts, seamless ps = true) : NeutralHoles parts := by
  match parts with
  | [] => exact fun e he => nomatch he
  | .text s :: rest =>
    intro e he
    obtain he | he := List.mem_cons.1 he
    · cases he
    · exact neutral_holes rest hinert hseamless e he
  | .hole e :: rest =>
    intro e' he'
    obtain he' | he' := List.mem_cons.1 he'
    · cases he'
      exact neutral_text e hinert.1 fun ps hps => hseamless ps (List.mem_append_left _ hps)
    · exact neutral_holes rest hinert.2
        (fun ps hps => hseamless ps (List.mem_append_right _ hps)) e' he'

end

end Dragon.Script
