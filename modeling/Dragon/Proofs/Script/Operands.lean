import Dragon.Proofs.Script.Grammar
import Dragon.Proofs.Script.Numerals
import Dragon.Script.OfTyped

/-!
# Texts that are read as expressions

A text is an operand if it is cut into lexemes and read as a term before everything that may follow
an operand in a script; it stands by itself if that holds where an expression ends. There is a rule
for each form of expression, which puts the texts of its operands together as scripts do.
-/
namespace Dragon.Script

/-- How an operation is written. -/
def Operation.symbol : Operation → String
  | binary op => operatorText op
  | coalesce => "??"

theorem Operation.mem_signTexts (o : Operation) :
    (o.symbol, some (.operation o)) ∈ signTexts ∧ ' ' ∉ extenders o.symbol := by
  cases o with
  | coalesce => decide
  | binary op => cases op <;> decide

variable {rest : List Char} {ts ts' : List Lexeme} {t t' t'' : Term} {text text' text'' : String}

/-! ### Texts in front of others -/

/-- A text that is cut into lexemes, whatever follows it with a property. -/
def CutsBefore (P : List Char → Prop) (text : String) (ts : List Lexeme) : Prop :=
  ∀ rest ts', P rest → Cuts rest ts' → Cuts (text.toList ++ rest) (ts ++ ts')

/-- Nothing is asked of what follows. -/
def Anything (_ : List Char) : Prop := True

theorem CutsBefore.append {P Q : List Char → Prop} (h : CutsBefore P text ts)
    (h' : CutsBefore Q text' ts') (hP : ∀ rest, Q rest → P (text'.toList ++ rest)) :
    CutsBefore Q (text ++ text') (ts ++ ts') := by
  intro rest us hrest hus
  rw [String.toList_append, List.append_assoc, List.append_assoc]
  exact h _ _ (hP rest hrest) (h' rest us hrest hus)

theorem CutsBefore.andThen {Q : List Char → Prop} (h : CutsBefore Anything text ts)
    (h' : CutsBefore Q text' ts') : CutsBefore Q (text ++ text') (ts ++ ts') :=
  h.append h' fun _ _ => trivial

theorem CutsBefore.mono {P Q : List Char → Prop} (h : CutsBefore P text ts)
    (hP : ∀ rest, Q rest → P rest) : CutsBefore Q text ts :=
  fun rest us hrest hus => h rest us (hP rest hrest) hus

theorem CutsBefore.congr {P : List Char → Prop} (h : CutsBefore P text ts)
    (htext : text = text') : CutsBefore P text' ts :=
  htext ▸ h

/-- The characters that follow expressions in scripts. A dot follows an expression that is no
numeral. -/
def Border (dotted : Bool) (rest : List Char) : Prop :=
  ∀ c ∈ rest.head?, c ∈ [' ', ')', ']', ',', '(', '[', '?'] ∨ dotted = true ∧ c = '.'

variable {mayChain mayChain' mayChain'' dotted dotted' dotted'' : Bool}

theorem Border.mono (h : Border false rest) (dotted : Bool) : Border dotted rest := by
  intro c hc
  obtain hmem | ⟨hfalse, -⟩ := h c hc
  · exact .inl hmem
  · cases hfalse

theorem Border.not_isWordChar (h : Border dotted rest) :
    ∀ c ∈ rest.head?, Text.isWordChar c = false := by
  intro c hc
  obtain hmem | ⟨-, rfl⟩ := h c hc
  · have hall : [' ', ')', ']', ',', '(', '[', '?'].all (!Text.isWordChar ·) = true := by decide
    simpa using List.all_eq_true.1 hall c hmem
  · decide

theorem Border.endsNumeral (h : Border false rest) : EndsNumeral rest := by
  intro c hc
  refine ⟨h.not_isWordChar c hc, ?_⟩
  rintro rfl
  obtain hmem | ⟨hfalse, -⟩ := h '.' hc
  · exact absurd hmem (by decide)
  · cases hfalse

theorem head?_append_of_mem {c : Char} (h : c ∈ text.toList.head?) (rest : List Char) :
    (text.toList ++ rest).head? = some c := by
  cases htext : text.toList with
  | nil => simp [htext] at h
  | cons d ds =>
    rw [htext] at h
    exact h

/-- A text that starts as what follows expressions does. -/
theorem border_append (c : Char) (h : c ∈ text.toList.head?)
    (hc : c ∈ [' ', ')', ']', ',', '(', '[', '?']) (dotted : Bool) (rest : List Char) :
    Border dotted (text.toList ++ rest) := by
  intro d hd
  rw [head?_append_of_mem h] at hd
  cases hd
  exact .inl hc

/-- An expression in front of a text that starts so. -/
theorem CutsBefore.before (c : Char) (h : CutsBefore (Border dotted) text ts)
    (h' : CutsBefore Anything text' ts') (hc : c ∈ text'.toList.head?)
    (hmem : c ∈ [' ', ')', ']', ',', '(', '[', '?']) :
    CutsBefore Anything (text ++ text') (ts ++ ts') :=
  h.append h' fun rest _ => border_append c hc hmem dotted rest

/-! ### Lexemes in front of others -/

/-- A sign that nothing makes a longer one of. -/
theorem cutsBefore_sign {s : Sign} (hs : (text, some s) ∈ signTexts)
    (hextenders : extenders text = []) (hs' : s ≠ .dot ∧ s ≠ .chain) :
    CutsBefore Anything text [.sign s] :=
  fun rest us _ hus => .sign hs (by simp [hextenders]) (fun h => (h.elim hs'.1 hs'.2).elim) hus

theorem cutsBefore_lparen : CutsBefore Anything "(" [.sign .lparen] :=
  cutsBefore_sign (by decide) (by decide) (by decide)

theorem cutsBefore_rparen : CutsBefore Anything ")" [.sign .rparen] :=
  cutsBefore_sign (by decide) (by decide) (by decide)

theorem cutsBefore_lbracket : CutsBefore Anything "[" [.sign .lbracket] :=
  cutsBefore_sign (by decide) (by decide) (by decide)

theorem cutsBefore_rbracket : CutsBefore Anything "]" [.sign .rbracket] :=
  cutsBefore_sign (by decide) (by decide) (by decide)

theorem cutsBefore_blank : CutsBefore Anything " " [] := by
  intro rest us _ hus
  have htext : " ".toList ++ rest = ' ' :: rest := rfl
  rw [htext]
  exact hus.blank

/-- A blank follows. -/
def Blank (rest : List Char) : Prop := rest.head? = some ' '

/-- A sign in front of a blank. -/
theorem cutsBefore_sign_blank {s : Sign} (hs : (text, some s) ∈ signTexts)
    (hblank : ' ' ∉ extenders text) (hs' : s ≠ .dot ∧ s ≠ .chain) :
    CutsBefore Blank text [.sign s] := by
  intro rest us hrest hus
  refine .sign hs ?_ (fun h => (h.elim hs'.1 hs'.2).elim) hus
  rw [hrest]
  rintro c ⟨⟩
  exact hblank

/-- A sign between blanks. -/
theorem cutsBefore_spaced {s : Sign} (hs : (text, some s) ∈ signTexts)
    (hblank : ' ' ∉ extenders text) (hs' : s ≠ .dot ∧ s ≠ .chain) :
    CutsBefore Anything (" " ++ text ++ " ") [.sign s] :=
  (cutsBefore_blank.andThen (cutsBefore_sign_blank hs hblank hs')).append cutsBefore_blank
    fun _ _ => rfl

theorem isDigit_head_of_isIdentifier {cs : List Char} (h : IsIdentifier cs) :
    ∀ c ∈ cs.head?, c.isDigit = false := by
  obtain ⟨c, rest, rfl, hc, -⟩ := h
  rintro d ⟨⟩
  obtain hletter | rfl := hc
  · exact not_isDigit_of_isLetter hletter
  · decide

theorem cutsBefore_word (h : IsIdentifier text.toList) :
    CutsBefore (fun rest => ∀ c ∈ rest.head?, Text.isWordChar c = false) text [.word text] := by
  intro rest us hrest hus
  refine .word (isDigit_head_of_isIdentifier h) ?_ h.isWordChar hrest hus
  obtain ⟨c, cs, hcs, -⟩ := h
  simp [hcs]

/-- A sign in front of a word. -/
theorem cutsBefore_sign_word {s : Sign} (hs : (text, some s) ∈ signTexts)
    (hextenders : (extenders text).all (!Text.isWordChar ·) = true)
    (h : IsIdentifier text'.toList) :
    CutsBefore (fun rest => ∀ c ∈ rest.head?, Text.isWordChar c = false) (text ++ text')
      [.sign s, .word text'] := by
  intro rest us hrest hus
  have hword := cutsBefore_word h rest us hrest hus
  obtain ⟨c, cs, hcs, hc, -⟩ := id h
  have hhead : (text'.toList ++ rest).head? = some c := by simp [hcs]
  rw [String.toList_append, List.append_assoc]
  refine .sign hs ?_ (fun _ => ?_) hword
  · rw [hhead]
    rintro d ⟨⟩ hmem
    have hno := List.all_eq_true.1 hextenders c hmem
    rw [h.isWordChar c (by simp [hcs])] at hno
    cases hno
  · rw [hhead]
    rintro d ⟨⟩
    exact isDigit_head_of_isIdentifier h c (by simp [hcs])

/-! ### Operands and texts that stand by themselves -/

/-- A text that is read as a term where an expression ends. -/
def Standing (text : String) (t : Term) : Prop :=
  ∃ ts, Whole ts t ∧ CutsBefore (Border false) text ts

/-- A text that does not run together with a sign in front of it. -/
def Starts (text : String) : Prop := ∃ c ∈ text.toList.head?, c ≠ '-' ∧ c ≠ '='

/-- A text that is read as a term in front of what may follow an operand. -/
def Operand (mayChain dotted : Bool) (text : String) (t : Term) : Prop :=
  Starts text ∧ ∃ ts, Tight mayChain ts t ∧ CutsBefore (Border dotted) text ts

theorem Operand.standing (h : Operand mayChain dotted text t) : Standing text t := by
  obtain ⟨-, ts, htight, hcuts⟩ := h
  exact ⟨ts, htight.whole, hcuts.mono fun rest hrest => hrest.mono dotted⟩

/-- The whole of a text that stands by itself is read as its term. -/
theorem Standing.read (h : Standing text t) : Term.read text = some t := by
  obtain ⟨ts, hwhole, hcuts⟩ := h
  refine hwhole.read ?_
  have htext := hcuts [] [] nofun cuts_nil
  rwa [List.append_nil, List.append_nil] at htext

theorem Starts.append (h : Starts text) (text' : String) : Starts (text ++ text') := by
  obtain ⟨c, hc, hstart⟩ := h
  refine ⟨c, ?_, hstart⟩
  rw [String.toList_append]
  exact head?_append_of_mem hc _

theorem Standing.group (h : Standing text t) : Operand false true ("(" ++ text ++ ")") t := by
  obtain ⟨ts, hwhole, hcuts⟩ := h
  have hstarts : Starts "(" := ⟨'(', rfl, by decide⟩
  refine ⟨(hstarts.append text).append ")", _, hwhole.group, ?_⟩
  have htext := (cutsBefore_lparen.andThen hcuts).before ')' cutsBefore_rparen rfl (by decide)
  exact htext.mono fun _ _ => trivial

/-! ### Operations -/

theorem cutsBefore_in_front {s : Sign} (hs : (text, some s) ∈ signTexts)
    (hextenders : (extenders text).all (['-', '='].contains ·) = true)
    (hs' : s ≠ .dot ∧ s ≠ .chain)
    (hstarts : Starts text') (hcuts : CutsBefore (Border dotted) text' ts) :
    CutsBefore (Border dotted) (text ++ text') (.sign s :: ts) := by
  obtain ⟨c, hc, hminus, hequals⟩ := hstarts
  intro rest us hrest hus
  rw [String.toList_append, List.append_assoc]
  refine .sign hs ?_ (fun h => (h.elim hs'.1 hs'.2).elim) (hcuts rest us hrest hus)
  rw [head?_append_of_mem hc]
  rintro d ⟨⟩ hmem
  have hor : c = '-' ∨ c = '=' := by simpa using List.all_eq_true.1 hextenders c hmem
  exact hor.elim hminus hequals

theorem Operand.not (h : Operand mayChain dotted text t) : Standing ("!" ++ text) (.not t) := by
  obtain ⟨hstarts, ts, htight, hcuts⟩ := h
  refine ⟨_, htight.unary.1, ?_⟩
  have htext : CutsBefore (Border dotted) ("!" ++ text) (.sign .bang :: ts) :=
    cutsBefore_in_front (by decide) (by decide) (by decide) hstarts hcuts
  exact htext.mono fun rest hrest => hrest.mono dotted

theorem Operand.minus (h : Operand mayChain dotted text t) : Standing ("-" ++ text) (.minus t) := by
  obtain ⟨hstarts, ts, htight, hcuts⟩ := h
  refine ⟨_, htight.unary.2, ?_⟩
  have htext : CutsBefore (Border dotted) ("-" ++ text) (.sign (.operation (.binary .sub)) :: ts) :=
    cutsBefore_in_front (by decide) (by decide) (by decide) hstarts hcuts
  exact htext.mono fun rest hrest => hrest.mono dotted

theorem Operand.operation (o : Operation) (h : Operand mayChain dotted text t)
    (h' : Operand mayChain' dotted' text' t') :
    Standing (text ++ " " ++ o.symbol ++ " " ++ text') (o.apply t t') := by
  obtain ⟨-, ts, htight, hcuts⟩ := h
  obtain ⟨-, ts', htight', hcuts'⟩ := h'
  have hsign : CutsBefore Blank o.symbol _ :=
    cutsBefore_sign_blank o.mem_signTexts.1 o.mem_signTexts.2 (by simp)
  have hblank := hcuts.before ' ' cutsBefore_blank rfl (by decide)
  have hleft := (hblank.andThen hsign).append cutsBefore_blank fun rest _ => rfl
  have htext := hleft.andThen hcuts'
  refine ⟨_, htight.operation o htight', ?_⟩
  simp only [List.append_assoc, List.append_nil, List.singleton_append] at htext
  exact htext.mono fun rest hrest => hrest.mono dotted'

theorem Operand.ternary (h : Operand mayChain dotted text t) (h' : Standing text' t')
    (h'' : Standing text'' t'') :
    Standing (text ++ " ? " ++ text' ++ " : " ++ text'') (.ternary t t' t'') := by
  obtain ⟨-, ts, htight, hcuts⟩ := h
  obtain ⟨ts', hwhole', hcuts'⟩ := h'
  obtain ⟨ts'', hwhole'', hcuts''⟩ := h''
  have hquestion : CutsBefore Anything " ? " [.sign .question] :=
    .congr (cutsBefore_spaced (by decide : ("?", _) ∈ signTexts) (by decide) (by decide)) rfl
  have hcolon : CutsBefore Anything " : " [.sign .colon] :=
    .congr (cutsBefore_spaced (by decide : (":", _) ∈ signTexts) (by decide) (by decide)) rfl
  have hleft := hcuts.before ' ' hquestion rfl (by decide)
  have htext := ((hleft.andThen hcuts').before ' ' hcolon rfl (by decide)).andThen hcuts''
  refine ⟨_, htight.ternary hwhole' hwhole'', ?_⟩
  simpa only [List.append_assoc, List.cons_append, List.nil_append] using htext

/-! ### Lists and arguments -/

theorem separated_cons_cons (text text' : String) (texts : List String) :
    separated (text :: text' :: texts) = text ++ ", " ++ separated (text' :: texts) :=
  String.intercalate_cons_cons

/-- Texts that stand by themselves are elements when there are commas between them. -/
theorem exists_listed {texts : List String} {terms : List Term}
    (h : List.Forall₂ Standing texts terms) :
    ∃ runs, List.Forall₂ Element runs terms ∧
      CutsBefore (Border false) (separated texts) (listed runs) := by
  induction h with
  | nil =>
    refine ⟨[], .nil, fun rest us _ hus => ?_⟩
    simpa [separated, listed] using hus
  | @cons text t texts terms hstanding hrest ih =>
    obtain ⟨ts, hwhole, hcuts⟩ := hstanding
    obtain ⟨runs, helements, hruns⟩ := ih
    refine ⟨ts :: runs, .cons hwhole.element helements, ?_⟩
    cases hrest with
    | nil =>
      cases helements
      simpa [separated, listed, afterCommas] using hcuts
    | @cons text' t' texts terms _ _ =>
      cases helements with
      | @cons ts' _ runs _ _ _ =>
        have hsign : CutsBefore Anything "," [.sign .comma] :=
          cutsBefore_sign (by decide) (by decide) (by decide)
        have hcomma : CutsBefore Anything ", " [.sign .comma] :=
          .congr (hsign.andThen cutsBefore_blank) rfl
        have htext := (hcuts.before ',' hcomma rfl (by decide)).andThen hruns
        rw [separated_cons_cons]
        simpa [listed, afterCommas] using htext

variable {texts : List String} {terms : List Term}

theorem operand_list (h : List.Forall₂ Standing texts terms) :
    Operand false true ("[" ++ separated texts ++ "]") (.array terms) := by
  obtain ⟨runs, helements, hcuts⟩ := exists_listed h
  have hstarts : Starts "[" := ⟨'[', rfl, by decide⟩
  refine ⟨(hstarts.append _).append "]", _, tight_array helements, ?_⟩
  have htext := (cutsBefore_lbracket.andThen hcuts).before ']' cutsBefore_rbracket rfl (by decide)
  exact htext.mono fun _ _ => trivial

theorem Operand.subscript (h : Operand false dotted text t) (h' : Standing text' t') :
    Operand false true (text ++ "[" ++ text' ++ "]") (.subscript false t t') := by
  obtain ⟨hstarts, ts, htight, hcuts⟩ := h
  obtain ⟨ts', hwhole', hcuts'⟩ := h'
  refine ⟨((hstarts.append _).append _).append _, _, htight.subscript hwhole', ?_⟩
  have hleft := hcuts.before '[' cutsBefore_lbracket rfl (by decide)
  have htext := (hleft.andThen hcuts').before ']' cutsBefore_rbracket rfl (by decide)
  simp only [List.append_assoc, List.cons_append, List.nil_append] at htext
  exact htext.mono fun _ _ => trivial

theorem Operand.call (h : Operand false dotted text t) (hargs : List.Forall₂ Standing texts terms) :
    Operand false true (text ++ "(" ++ separated texts ++ ")") (.call false t terms) := by
  obtain ⟨hstarts, ts, htight, hcuts⟩ := h
  obtain ⟨runs, helements, hruns⟩ := exists_listed hargs
  refine ⟨((hstarts.append _).append _).append _, _, htight.call helements, ?_⟩
  have hleft := hcuts.before '(' cutsBefore_lparen rfl (by decide)
  have htext := (hleft.andThen hruns).before ')' cutsBefore_rparen rfl (by decide)
  simp only [List.append_assoc, List.cons_append, List.nil_append] at htext
  exact htext.mono fun _ _ => trivial

/-! ### Members and names -/

/-- A sign and a word behind a text. -/
theorem CutsBefore.member {P : List Char → Prop} {s : Sign} {symbol name : String}
    (h : CutsBefore P text ts) (hs : (symbol, some s) ∈ signTexts)
    (hextenders : (extenders symbol).all (!Text.isWordChar ·) = true)
    (hname : IsIdentifier name.toList) (hP : ∀ rest, P (symbol.toList ++ rest)) :
    CutsBefore (Border true) (text ++ symbol ++ name) (ts ++ [.sign s, .word name]) := by
  have htext := h.append (cutsBefore_sign_word hs hextenders hname) fun rest _ => by
    rw [String.toList_append, List.append_assoc]
    exact hP _
  rw [String.append_assoc]
  exact htext.mono fun rest hrest => hrest.not_isWordChar

theorem Operand.member (h : Operand false true text t) {name : String}
    (hname : IsIdentifier name.toList) :
    Operand false true (text ++ "." ++ name) (.member false t name) := by
  obtain ⟨hstarts, ts, htight, hcuts⟩ := h
  refine ⟨(hstarts.append _).append _, _, htight.member name,
    hcuts.member (by decide) (by decide) hname fun rest => ?_⟩
  rintro c ⟨⟩
  exact .inr ⟨rfl, rfl⟩

theorem Operand.optionalMember (h : Operand mayChain dotted text t) {name : String}
    (hname : IsIdentifier name.toList) :
    Operand true true (text ++ "?." ++ name) (.optionalMember t name) := by
  obtain ⟨hstarts, ts, htight, hcuts⟩ := h
  exact ⟨(hstarts.append _).append _, _, htight.optionalMember name,
    hcuts.member (by decide) (by decide) hname fun rest => border_append '?' rfl (by decide) _ rest⟩

theorem starts_of_isIdentifier (h : IsIdentifier text.toList) : Starts text := by
  obtain ⟨c, rest, htext, hc, -⟩ := id h
  refine ⟨c, by simp [htext], ?_⟩
  have hword := h.isWordChar c (by simp [htext])
  constructor <;> rintro rfl <;> exact absurd hword (by decide)

/-- A word that is read as an operand. -/
theorem operand_word (h : IsIdentifier text.toList) (htight : Tight false [.word text] t) :
    Operand false true text t :=
  ⟨starts_of_isIdentifier h, _, htight,
    (cutsBefore_word h).mono fun _ hrest => hrest.not_isWordChar⟩

/-- What is found under `Math`. -/
theorem operand_math (name : String) (hname : IsIdentifier name.toList) :
    Operand false true ("Math" ++ "." ++ name) (.name ("Math." ++ name)) := by
  have hmath : IsIdentifier "Math".toList := by decide
  refine ⟨((starts_of_isIdentifier hmath).append _).append _, _, tight_math name,
    (cutsBefore_word hmath).member (by decide) (by decide) hname fun rest => ?_⟩
  rintro c ⟨⟩
  decide

theorem Name.isIdentifier_text {n : Name} (h : IsIdentifier n.base.toList) :
    IsIdentifier n.text.toList := by
  obtain ⟨c, rest, hbase, hc, hrest⟩ := h
  refine ⟨c, rest ++ ('_' :: Decimal.digitsOf n.number), ?_, hc, ?_⟩
  · simp [Name.text, hbase]
  · refine List.forall_mem_append.2 ⟨hrest, List.forall_mem_cons.2 ⟨by decide, fun d hd => ?_⟩⟩
    exact isWordChar_of_isDigit (Decimal.isDigit_digitsOf n.number d hd)

/-- A name with a number is no word of the language. -/
theorem Name.text_notMem_reserved (n : Name) : n.text ∉ "Math" :: reserved := by
  have hwords : ∀ word ∈ "Math" :: reserved, '_' ∉ word.toList := by decide +kernel
  intro hmem
  exact hwords _ hmem (by simp [Name.text])

theorem operand_name {n : Name} (h : IsIdentifier n.base.toList) :
    Operand false true n.text (.name n.text) := by
  have hno := n.text_notMem_reserved
  rw [List.mem_cons, not_or] at hno
  exact operand_word (Name.isIdentifier_text h) (tight_name hno.2 hno.1)

theorem cutsBefore_new : CutsBefore Anything "new " [.word "new"] := by
  have hnew : IsIdentifier "new".toList := by decide
  refine .congr ((cutsBefore_word hnew).append cutsBefore_blank fun rest _ => ?_) rfl
  rintro c ⟨⟩
  decide

/-- A construction, with the word for it in front of a type. -/
theorem operand_new (h : IsIdentifier text.toList) (htype : text ∉ reserved)
    (hargs : List.Forall₂ Standing texts terms) :
    Operand false true ("new " ++ text ++ "(" ++ separated texts ++ ")")
      (.construct text terms) := by
  obtain ⟨runs, helements, hruns⟩ := exists_listed hargs
  have hstarts : Starts "new " := ⟨'n', rfl, by decide⟩
  refine ⟨(((hstarts.append _).append _).append _).append _, _, tight_construct htype helements, ?_⟩
  have hleft := (cutsBefore_new.andThen (cutsBefore_word h)).append cutsBefore_lparen
    fun rest _ => by
      rintro c ⟨⟩
      decide
  have htext := (hleft.andThen hruns).before ')' cutsBefore_rparen rfl (by decide)
  simp only [List.cons_append, List.nil_append] at htext
  exact htext.mono fun _ _ => trivial

theorem operand_construct {n : Name} (h : IsIdentifier n.base.toList)
    (hargs : List.Forall₂ Standing texts terms) :
    Operand false true ("new " ++ n.text ++ "(" ++ separated texts ++ ")")
      (.construct n.text terms) := by
  have hno := n.text_notMem_reserved
  rw [List.mem_cons, not_or] at hno
  exact operand_new (Name.isIdentifier_text h) hno.2 hargs

/-! ### The bytes of a text -/

/-- The list of what a text encoder gives for some arguments. -/
def bytesTerm (args : List Term) : Term :=
  .array [.spread (.call false (.member false (.construct "TextEncoder" []) "encode") args)]

theorem encode_text (args : String) :
    "[...new TextEncoder().encode(" ++ args ++ ")]" =
      "[" ++ "..." ++ ("new " ++ "TextEncoder" ++ "(" ++ separated [] ++ ")" ++ "." ++ "encode" ++
        "(" ++ args ++ ")") ++ "]" := by
  have hopen : "[...new TextEncoder().encode(" = "[" ++ "..." ++ ("new " ++ "TextEncoder" ++ "(" ++
      separated [] ++ ")" ++ "." ++ "encode" ++ "(") := by decide
  have hclose : ")]" = ")" ++ "]" := by decide
  rw [hopen, hclose]
  simp only [String.append_assoc]

/-- The bytes of a string are written as a list. -/
theorem operand_encode (hargs : List.Forall₂ Standing texts terms) :
    Operand false true ("[...new TextEncoder().encode(" ++ separated texts ++ ")]")
      (bytesTerm terms) := by
  have hencoder : IsIdentifier "TextEncoder".toList := by decide
  have hencode : IsIdentifier "encode".toList := by decide
  have hno : "TextEncoder" ∉ reserved := by decide +kernel
  -- The call stands in the list, after the sign that spreads it.
  obtain ⟨-, ts, htight, hcuts⟩ := ((operand_new hencoder hno .nil).member hencode).call hargs
  have hspread : CutsBefore Anything "..." [.sign .spread] :=
    cutsBefore_sign (by decide) (by decide) (by decide)
  have hstarts : Starts "[...new TextEncoder().encode(" := ⟨'[', rfl, by decide⟩
  have helements : List.Forall₂ Element [.sign .spread :: ts] _ :=
    .cons htight.whole.spread .nil
  refine ⟨(hstarts.append _).append _, _, tight_array helements, ?_⟩
  have hleft := (cutsBefore_lbracket.andThen hspread).andThen hcuts
  have htext := hleft.before ']' cutsBefore_rbracket rfl (by decide)
  rw [encode_text]
  simp only [List.cons_append, List.nil_append] at htext
  simp only [listed, afterCommas, List.flatMap_nil, List.append_nil, List.cons_append]
  exact htext.mono fun _ _ => trivial

/-- The function that gives the bytes of its argument. -/
theorem standing_encoder :
    Standing "(s) => [...new TextEncoder().encode(s)]" (.arrow "s" (bytesTerm [.name "s"])) := by
  have hparam : IsIdentifier "s".toList := by decide
  have hno : "s" ∉ reserved := by decide +kernel
  have hs : Operand false true "s" (.name "s") := operand_word hparam (tight_name hno (by decide))
  obtain ⟨-, ts, htight, hcuts⟩ := operand_encode (.cons hs.standing .nil)
  refine ⟨_, htight.whole.arrow hno (by decide), ?_⟩
  have harrow : CutsBefore Blank "=>" [.sign .arrow] :=
    cutsBefore_sign_blank (by decide) (by decide) (by decide)
  have hname := (cutsBefore_lparen.andThen (cutsBefore_word hparam)).append cutsBefore_rparen
    fun rest _ => by
      rintro c ⟨⟩
      decide
  have hhead := ((hname.andThen cutsBefore_blank).andThen harrow).append cutsBefore_blank
    fun rest _ => rfl
  have htext := hhead.andThen hcuts
  have hall : "(s) => [...new TextEncoder().encode(s)]" = "(" ++ "s" ++ ")" ++ " " ++ "=>" ++ " " ++
      ("[...new TextEncoder().encode(" ++ separated ["s"] ++ ")]") := by decide
  rw [hall]
  simp only [List.append_nil, List.cons_append, List.nil_append] at htext
  exact htext.mono fun rest hrest => hrest.mono true

/-! ### Literals -/

theorem operand_numeral (h : IsNumeral text.toList) : Operand false false text (.number text) := by
  refine ⟨?_, _, tight_single fun fuel rest => rfl, fun rest us hrest hus =>
    .numeral h hrest.endsNumeral hus⟩
  generalize htext : text.toList = chars at h
  obtain ⟨hwhole, -, -⟩ := h
  obtain ⟨c, whole, rfl⟩ := List.exists_cons_of_ne_nil hwhole.ne_nil
  have hdigit := hwhole.digits c List.mem_cons_self
  refine ⟨c, by simp [htext], ?_⟩
  constructor <;> rintro rfl <;> cases hdigit

theorem operand_string (s : String) :
    Operand false true (stringLiteral s) (.string (s.toList.flatMap units)) := by
  refine ⟨⟨'"', ?_, by decide⟩, _, tight_single fun fuel rest => rfl,
    fun rest us _ hus => .string s hus⟩
  simp [stringLiteral]

theorem operand_this : Operand false true "this" .this :=
  operand_word (by decide) (tight_single fun _ _ => rfl)

theorem operand_null : Operand false true "null" .null :=
  operand_word (by decide) (tight_single fun _ _ => rfl)

theorem operand_bool (b : Bool) : Operand false true (if b then "true" else "false") (.bool b) := by
  cases b <;> exact operand_word (by decide) (tight_single fun _ _ => rfl)

end Dragon.Script
