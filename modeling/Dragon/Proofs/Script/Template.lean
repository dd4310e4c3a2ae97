import Dragon.Script.Text
import Mathlib.Data.List.Basic

/-!
# Reading template literals back

A backslash takes its meaning from the next character, a dollar sign before a brace opens a
substitution and a backquote ends the literal. Code runs to the brace that closes it and may hold
blocks, strings and templates of its own; comments and regular expressions do not occur in scripts.

A template literal that was written from its parts is read as these parts unless a text that ends
in a dollar sign stands right before one that begins with a brace. Each of the two is escaped by
itself, and together they open a substitution.
-/
namespace Dragon.Script

/-- What some text stands in. -/
inductive Mode where
  | code
  | quoted (mark : Char)
  | template
  deriving DecidableEq, Repr

/-- What a template literal is read as, one character after the other. -/
inductive Item where
  | text (c : Char)
  | opening
  | code (c : Char)
  | closing
  deriving DecidableEq, Repr

/-- Items of the outermost template, or else the code that its substitution has in their place. -/
def shown (outer : List Mode) (own : List Item) (written : List Char) : List Item :=
  if outer.isEmpty then own else written.map .code

/-- Reads to the end of the outermost of the modes given, the innermost of which comes first. -/
def read : List Mode → List Char → Option (List Item)
  | [], [] => some []
  | .template :: outer, '\\' :: c :: rest =>
    (read (.template :: outer) rest).map (shown outer [.text c] ['\\', c] ++ ·)
  | .template :: outer, '$' :: '\x7b' :: rest =>
    (read (.code :: .template :: outer) rest).map (shown outer [.opening] ['$', '\x7b'] ++ ·)
  | .template :: outer, '\x60' :: rest => (read outer rest).map (shown outer [] ['\x60'] ++ ·)
  | .template :: outer, c :: rest =>
    (read (.template :: outer) rest).map (shown outer [.text c] [c] ++ ·)
  | .quoted mark :: outer, '\\' :: c :: rest =>
    (read (.quoted mark :: outer) rest).map ([.code '\\', .code c] ++ ·)
  | .quoted mark :: outer, c :: rest =>
    (read (if c = mark then outer else .quoted mark :: outer) rest).map (.code c :: ·)
  | .code :: outer, '\x7b' :: rest => (read (.code :: .code :: outer) rest).map (.code '\x7b' :: ·)
  | .code :: outer, '\x7d' :: rest =>
    (read outer rest).map (shown outer.tail [.closing] ['\x7d'] ++ ·)
  | .code :: outer, '"' :: rest => (read (.quoted '"' :: .code :: outer) rest).map (.code '"' :: ·)
  | .code :: outer, '\'' :: rest =>
    (read (.quoted '\'' :: .code :: outer) rest).map (.code '\'' :: ·)
  | .code :: outer, '\x60' :: rest =>
    (read (.template :: .code :: outer) rest).map (.code '\x60' :: ·)
  | .code :: outer, c :: rest => (read (.code :: outer) rest).map (.code c :: ·)
  | _, _ => none

/-- Reads a template literal that takes up a whole text. -/
def readTemplate (text : String) : Option (List Item) :=
  match text.toList with
  | '\x60' :: rest => read [.template] rest
  | _ => none

/-- The parts of a template literal: its characters, and its substitutions between their marks. -/
def items : List Part → List Item
  | [] => []
  | .text s :: rest => s.toList.map .text ++ items rest
  | .hole e :: rest => .opening :: e.text.toList.map .code ++ .closing :: items rest

/-- Whether the text of some parts begins with a brace that is text. -/
def startsWithBrace : List Part → Bool
  | [] => false
  | .text s :: rest => if s.isEmpty then startsWithBrace rest else s.toList.head? == some '\x7b'
  | .hole _ :: _ => false

/-- Whether no dollar sign at the end of a text meets a brace at the start of the next. -/
def seamless : List Part → Bool
  | [] => true
  | .text s :: rest =>
    !(s.toList.getLast? == some '$' && startsWithBrace rest) && seamless rest
  | .hole _ :: rest => seamless rest

/-! ### Text -/

@[simp] theorem shown_nil (outer : List Mode) : shown outer [] [] = [] := by
  simp [shown]

theorem shown_append (outer : List Mode) (own own' : List Item) (written written' : List Char) :
    shown outer (own ++ own') (written ++ written') =
      shown outer own written ++ shown outer own' written' := by
  unfold shown
  split <;> simp

/-- A character of a template that is no mark. -/
theorem read_template_char (outer : List Mode) {c : Char} {rest : List Char} (hslash : c ≠ '\\')
    (hquote : c ≠ '\x60') (hdollar : c = '$' → rest.head? ≠ some '\x7b') :
    read (.template :: outer) (c :: rest) =
      (read (.template :: outer) rest).map (shown outer [.text c] [c] ++ ·) := by
  rw [read]
  · intro c' rest' h
    exact absurd h hslash
  · rintro rest' rfl rfl
    exact hdollar rfl rfl
  · exact hquote

theorem head?_escapeTemplate (s : List Char) :
    (escapeTemplate s).head? = some '\x7b' ↔ s.head? = some '\x7b' := by
  fun_cases escapeTemplate s <;> simp

@[simp] theorem escapeTemplate_eq_nil (s : List Char) : escapeTemplate s = [] ↔ s = [] := by
  fun_cases escapeTemplate s <;> simp

/-- Escaped text is read as what it stands for, unless it ends in half a mark. -/
theorem read_escapeTemplate (outer : List Mode) (s rest : List Char)
    (hseam : s.getLast? = some '$' → rest.head? ≠ some '\x7b') :
    read (.template :: outer) (escapeTemplate s ++ rest) =
      (read (.template :: outer) rest).map (shown outer (s.map .text) (escapeTemplate s) ++ ·) := by
  have hlast {c : Char} {s : List Char} (h : s.getLast? = some '$') :
      (c :: s).getLast? = some '$' := by simp [List.getLast?_cons, h]
  have hstep (own own' : List Item) (written written' : List Char) (items : Option (List Item)) :
      (items.map (shown outer own' written' ++ ·)).map (shown outer own written ++ ·) =
        items.map (shown outer (own ++ own') (written ++ written') ++ ·) := by
    rw [shown_append, Option.map_map]
    simp [Function.comp_def]
  fun_induction escapeTemplate s with
  | case1 => simp
  | case2 s ih | case3 s ih =>
    rw [List.cons_append, List.cons_append, read, ih fun h => hseam (hlast h), hstep]
    rfl
  | case4 s ih =>
    rw [List.cons_append, List.cons_append, List.cons_append, read,
      read_template_char outer (by decide) (by decide) (fun h => absurd h (by decide)),
      ih fun h => hseam (hlast (hlast h)), hstep, hstep]
    rfl
  | case5 c s hslash hquote hmark ih =>
    -- A dollar sign that ends the text meets what follows it, any other the rest of the text.
    have hdollar : c = '$' → (escapeTemplate s ++ rest).head? ≠ some '\x7b' := by
      rintro rfl
      cases s with
      | nil => exact hseam rfl
      | cons d s =>
        intro h
        have hne : escapeTemplate (d :: s) ≠ [] := by simp
        rw [List.head?_append_of_ne_nil _ hne, head?_escapeTemplate] at h
        obtain rfl : d = '\x7b' := by simpa using h
        exact hmark s rfl rfl
    rw [List.cons_append, read_template_char outer hslash hquote hdollar,
      ih fun h => hseam (hlast h), hstep]
    rfl

/-! ### Parts -/

/-- A text is neutral in code if it leaves open nothing that it opens, and closes nothing else. -/
def Neutral (s : String) : Prop :=
  ∀ outer rest, read (.code :: outer) (s.toList ++ rest) =
    (read (.code :: outer) rest).map (s.toList.map .code ++ ·)

/-- Parts whose substitutions are neutral code. -/
def NeutralHoles (parts : List Part) : Prop := ∀ e, .hole e ∈ parts → Neutral e.text

/-- A substitution with neutral code is read as that code. -/
theorem read_hole (outer : List Mode) {s : String} (hs : Neutral s) (rest : List Char) :
    read (.template :: outer) ('$' :: '\x7b' :: s.toList ++ '\x7d' :: rest) =
      (read (.template :: outer) rest).map
        (shown outer (.opening :: s.toList.map .code ++ [.closing])
          ('$' :: '\x7b' :: s.toList ++ ['\x7d']) ++ ·) := by
  rw [List.cons_append, List.cons_append, read, hs, read]
  simp only [Option.map_map]
  congr 1
  funext items
  cases outer <;> simp [shown]

theorem toList_partTexts_text (s : String) (parts : List Part) :
    (partTexts (.text s :: parts)).toList =
      escapeTemplate s.toList ++ (partTexts parts).toList := by
  simp [partTexts]

theorem toList_partTexts_hole (e : Expr) (parts : List Part) :
    (partTexts (.hole e :: parts)).toList =
      ('$' :: '\x7b' :: e.text.toList ++ ['\x7d']) ++ (partTexts parts).toList := by
  simp [partTexts]

theorem startsWithBrace_iff (parts : List Part) (rest : List Char)
    (hrest : rest.head? ≠ some '\x7b') :
    startsWithBrace parts = true ↔ ((partTexts parts).toList ++ rest).head? = some '\x7b' := by
  induction parts with
  | nil => simpa [startsWithBrace, partTexts] using hrest
  | cons part parts ih =>
    cases part with
    | hole e => simp [startsWithBrace, partTexts]
    | text s =>
      by_cases hs : s.isEmpty = true
      · obtain rfl : s = "" := by simpa using hs
        simpa [startsWithBrace, partTexts, escapeTemplate] using ih
      · have hne : escapeTemplate s.toList ≠ [] := by simpa using hs
        simp [startsWithBrace, partTexts, hs, hne, head?_escapeTemplate]

theorem NeutralHoles.tail {part : Part} {parts : List Part} (h : NeutralHoles (part :: parts)) :
    NeutralHoles parts :=
  fun e he => h e (List.mem_cons_of_mem _ he)

/-- Where two texts meet in a template that is seamless, no mark comes about. -/
theorem head?_ne_of_seamless {s : String} {parts : List Part} {rest : List Char}
    (hrest : rest.head? ≠ some '\x7b')
    (hseam : (s.toList.getLast? == some '$' && startsWithBrace parts) = false)
    (hlast : s.toList.getLast? = some '$') :
    ((partTexts parts).toList ++ rest).head? ≠ some '\x7b' := by
  rw [Ne, ← startsWithBrace_iff parts rest hrest]
  simpa [hlast] using hseam

theorem read_parts (outer : List Mode) {parts : List Part} (hholes : NeutralHoles parts)
    (hseamless : seamless parts = true) {rest : List Char} (hrest : rest.head? ≠ some '\x7b') :
    read (.template :: outer) ((partTexts parts).toList ++ rest) =
      (read (.template :: outer) rest).map
        (shown outer (items parts) (partTexts parts).toList ++ ·) := by
  induction parts with
  | nil => simp [partTexts, items]
  | cons part parts ih =>
    cases part with
    | text s =>
      simp only [seamless, Bool.and_eq_true, Bool.not_eq_true'] at hseamless
      have hnext := read_escapeTemplate outer s.toList _ (head?_ne_of_seamless hrest hseamless.1)
      rw [toList_partTexts_text, List.append_assoc, hnext, ih hholes.tail hseamless.2, items,
        shown_append, Option.map_map]
      simp [Function.comp_def]
    | hole e =>
      have hnext := read_hole outer (hholes e List.mem_cons_self)
        ((partTexts parts).toList ++ rest)
      have hitems : items (.hole e :: parts) =
          (.opening :: e.text.toList.map .code ++ [.closing]) ++ items parts := by simp [items]
      rw [toList_partTexts_hole, hitems, shown_append]
      simp only [List.append_assoc, List.cons_append, List.nil_append] at hnext ⊢
      rw [hnext, ih hholes.tail hseamless, Option.map_map]
      simp [Function.comp_def]

/-- Of a text that ends in a dollar sign, the last character is written as it is. -/
theorem escapeTemplate_append_dollar (s : List Char) :
    escapeTemplate (s ++ ['$']) = escapeTemplate s ++ ['$'] := by
  fun_induction escapeTemplate s with
  | case1 => rfl
  | case2 s ih => simp [escapeTemplate, ih]
  | case3 s ih => simp [escapeTemplate, ih]
  | case4 s ih => simp [escapeTemplate, ih]
  | case5 c s hslash hquote hmark ih =>
    rw [List.cons_append, escapeTemplate, ih]
    · rfl
    · exact hslash
    · exact hquote
    · rintro rest rfl h
      cases s with
      | nil => simp at h
      | cons d s => exact hmark s rfl (by simp_all)

/-- A dollar sign and a brace that come from two texts open a substitution. -/
theorem read_seam {s : String} {parts : List Part} {rest : List Char}
    (hrest : rest.head? ≠ some '\x7b') (hlast : s.toList.getLast? = some '$')
    (hbrace : startsWithBrace parts = true) (out : List Item) :
    read [.template] ((partTexts (.text s :: parts)).toList ++ rest) ≠
      some (s.toList.map .text ++ out) := by
  obtain ⟨s', hs'⟩ : ∃ s', s.toList = s' ++ ['$'] := List.getLast?_eq_some_iff.1 hlast
  obtain ⟨after, hafter⟩ : ∃ after, (partTexts parts).toList ++ rest = '\x7b' :: after := by
    have h := (startsWithBrace_iff parts rest hrest).1 hbrace
    exact ⟨_, List.eq_cons_of_mem_head? h⟩
  rw [toList_partTexts_text, List.append_assoc, hafter, hs', escapeTemplate_append_dollar,
    List.append_assoc, read_escapeTemplate [] s' _ (by simp), List.singleton_append, read]
  intro h
  obtain ⟨found, hfound, heq⟩ := Option.map_eq_some_iff.1 h
  obtain ⟨inner, -, rfl⟩ := Option.map_eq_some_iff.1 hfound
  simp [shown] at heq

/-- If a template literal is read as its parts, then nothing comes about where they meet. -/
theorem seamless_of_read {parts : List Part} (hholes : NeutralHoles parts)
    (hread : read [.template] ((partTexts parts).toList ++ ['\x60']) = some (items parts)) :
    seamless parts = true := by
  have hend : (['\x60'] : List Char).head? ≠ some '\x7b' := by decide
  induction parts with
  | nil => rfl
  | cons part parts ih =>
    cases part with
    | text s =>
      have hseam : (s.toList.getLast? == some '$' && startsWithBrace parts) = false := by
        rw [← Bool.not_eq_true, Bool.and_eq_true, beq_iff_eq]
        rintro ⟨hlast, hbrace⟩
        exact read_seam hend hlast hbrace (items parts) hread
      have hnext := read_escapeTemplate [] s.toList _ (head?_ne_of_seamless hend hseam)
      rw [toList_partTexts_text, List.append_assoc, hnext] at hread
      obtain ⟨found, hfound, heq⟩ := Option.map_eq_some_iff.1 hread
      obtain rfl : found = items parts := by simpa [shown, items] using heq
      simp [seamless, hseam, ih hholes.tail hfound]
    | hole e =>
      have hnext := read_hole [] (hholes e List.mem_cons_self)
        ((partTexts parts).toList ++ ['\x60'])
      rw [toList_partTexts_hole] at hread
      simp only [List.append_assoc, List.cons_append, List.nil_append] at hnext hread
      rw [hnext] at hread
      obtain ⟨found, hfound, heq⟩ := Option.map_eq_some_iff.1 hread
      obtain rfl : found = items parts := by simpa [shown, items] using heq
      exact ih hholes.tail hfound

theorem toList_text_template (parts : List Part) :
    (Expr.text (.template parts)).toList = '\x60' :: ((partTexts parts).toList ++ ['\x60']) := by
  show ("\x60" ++ partTexts parts ++ "\x60").toList = _
  simp

/-- A template literal over neutral code is read as its parts exactly if these are seamless. -/
theorem readTemplate_eq_iff {parts : List Part} (hholes : NeutralHoles parts) :
    readTemplate (Expr.text (.template parts)) = some (items parts) ↔ seamless parts = true := by
  have hread : readTemplate (Expr.text (.template parts)) =
      read [.template] ((partTexts parts).toList ++ ['\x60']) := by
    unfold readTemplate
    rw [toList_text_template]
    rfl
  rw [hread]
  refine ⟨seamless_of_read hholes, fun h => ?_⟩
  rw [read_parts [] hholes h (by decide)]
  simp [read, shown]

end Dragon.Script
