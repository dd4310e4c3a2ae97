import Dragon.Proofs.Script.Lexicon
import Mathlib.Data.List.Forall2

/-!
# The grammar of expressions

Lexemes are read as terms, by the precedence of the operations and from left to right, but powers
from right to left. As in JavaScript, an operand with a sign in front can not be raised to a power
without parentheses, and a fallback for what is absent can not be mixed with connectives. What
follows an optional member belongs to its chain, unless the chain stands in parentheses. An arrow
takes a name in parentheses, which looks like an operand at first.
-/
namespace Dragon.Script

/-- Expressions without their parentheses. Members, subscripts and calls say whether they belong to
the chain of an optional member before them. -/
inductive Term where
  | name (text : String)
  | this
  | null
  | number (text : String)
  | bool (b : Bool)
  | string (units : List Nat)
  | not (operand : Term)
  | minus (operand : Term)
  | binary (op : BinaryOp) (left right : Term)
  | coalesce (optional fallback : Term)
  | ternary (test consequent alternate : Term)
  | array (elements : List Term)
  | spread (e : Term)
  | subscript (inChain : Bool) (collection index : Term)
  | member (inChain : Bool) (object : Term) (name : String)
  | optionalMember (object : Term) (name : String)
  | call (inChain : Bool) (callee : Term) (args : List Term)
  | construct (type : String) (args : List Term)
  | arrow (param : String) (body : Term)

/-- How an expression is written on the outside. A cover is a name in parentheses. -/
inductive Form where
  | name | cover | plain | unary | logical | coalesce | chain
  deriving DecidableEq, Repr

structure Found where
  term : Term
  form : Form

/-- What was found is continued by a part of the same chain, or begins none. -/
def Found.isChain (f : Found) : Bool := f.form == .chain

namespace Operation

/-- An operation is taken where its power on the left is at least the one asked for, and asks for
its power on the right. -/
def leftPower : Operation → Nat
  | coalesce => 3
  | binary .or => 5
  | binary .and => 7
  | binary .eq | binary .ne => 9
  | binary .lt | binary .gt | binary .le | binary .ge => 11
  | binary .add | binary .sub => 13
  | binary .mul | binary .div => 15
  | binary .pow => 18

def rightPower : Operation → Nat
  | coalesce => 8
  | binary .pow => 17
  | o => o.leftPower + 1

def apply : Operation → Term → Term → Term
  | binary op, left, right => .binary op left right
  | coalesce, left, right => .coalesce left right

def form : Operation → Form
  | binary .or | binary .and => .logical
  | coalesce => .coalesce
  | _ => .plain

/-- The forms that an operation does not take on its left. -/
def bans : Operation → Form → Bool
  | binary .pow, .unary => true
  | coalesce, .logical => true
  | binary .or, .coalesce | binary .and, .coalesce => true
  | _, _ => false

end Operation

/-- The words that are no names. -/
def reserved : List String :=
  ["await", "break", "case", "catch", "class", "const", "continue", "debugger", "default", "delete",
   "do", "else", "enum", "export", "extends", "false", "finally", "for", "function", "if",
   "implements", "import", "in", "instanceof", "interface", "let", "new", "null", "package",
   "private", "protected", "public", "return", "static", "super", "switch", "this", "throw", "true",
   "try", "typeof", "var", "void", "while", "with", "yield"]

/-- Takes a sign. -/
def expectSign (s : Sign) : List Lexeme → Option (List Lexeme)
  | .sign s' :: ts => if s' = s then some ts else none
  | _ => none

mutual

/-- Reads an expression that stands by itself, between parentheses, brackets or commas. -/
def readExpr : (fuel : Nat) → List Lexeme → Option (Found × List Lexeme)
  | 0, _ => none
  | fuel + 1, ts => do
    let (test, ts) ← readOperation fuel 0 ts
    match ts with
    | .sign .question :: ts => do
      let (consequent, ts) ← readExpr fuel ts
      let ts ← expectSign .colon ts
      let (alternate, ts) ← readExpr fuel ts
      some (⟨.ternary test.term consequent.term alternate.term, .plain⟩, ts)
    | .sign .arrow :: ts =>
      match test with
      | ⟨.name param, .cover⟩ => do
        let (body, ts) ← readExpr fuel ts
        some (⟨.arrow param body.term, .plain⟩, ts)
      | _ => none
    | ts => some (test, ts)

/-- Reads an operand and the operations after it whose power is at least the given one. -/
def readOperation : (fuel : Nat) → (power : Nat) → List Lexeme → Option (Found × List Lexeme)
  | 0, _, _ => none
  | fuel + 1, power, ts => do
    let (left, ts) ← readUnary fuel ts
    readMore fuel power left ts

def readMore : (fuel : Nat) → (power : Nat) → Found → List Lexeme → Option (Found × List Lexeme)
  | 0, _, _, _ => none
  | fuel + 1, power, left, .sign (.operation o) :: ts =>
    if o.leftPower < power then some (left, .sign (.operation o) :: ts)
    else if o.bans left.form then none
    else do
      let (right, ts) ← readOperation fuel o.rightPower ts
      readMore fuel power ⟨o.apply left.term right.term, o.form⟩ ts
  | _ + 1, _, left, ts => some (left, ts)

/-- Reads an operand with the signs in front of it. -/
def readUnary : (fuel : Nat) → List Lexeme → Option (Found × List Lexeme)
  | 0, _ => none
  | fuel + 1, .sign .bang :: ts => do
    let (operand, ts) ← readUnary fuel ts
    some (⟨.not operand.term, .unary⟩, ts)
  | fuel + 1, .sign (.operation (.binary .sub)) :: ts => do
    let (operand, ts) ← readUnary fuel ts
    some (⟨.minus operand.term, .unary⟩, ts)
  | fuel + 1, ts => do
    let (head, ts) ← readPrimary fuel ts
    readPostfix fuel head ts

/-- Reads the members, subscripts and calls that follow an operand. -/
def readPostfix : (fuel : Nat) → Found → List Lexeme → Option (Found × List Lexeme)
  | 0, _, _ => none
  | fuel + 1, base, .sign .dot :: .word name :: ts =>
    let form := if base.isChain then .chain else .plain
    readPostfix fuel ⟨.member base.isChain base.term name, form⟩ ts
  | fuel + 1, base, .sign .chain :: .word name :: ts =>
    readPostfix fuel ⟨.optionalMember base.term name, .chain⟩ ts
  | fuel + 1, base, .sign .lbracket :: ts => do
    let form := if base.isChain then .chain else .plain
    let (index, ts) ← readExpr fuel ts
    let ts ← expectSign .rbracket ts
    readPostfix fuel ⟨.subscript base.isChain base.term index.term, form⟩ ts
  | fuel + 1, base, .sign .lparen :: ts => do
    let form := if base.isChain then .chain else .plain
    let (args, ts) ← readElements fuel .rparen ts
    readPostfix fuel ⟨.call base.isChain base.term args, form⟩ ts
  | _ + 1, base, ts => some (base, ts)

/-- Reads a literal, a name, a construction, a list or an expression in parentheses. What is found
under `Math` counts as a name. -/
def readPrimary : (fuel : Nat) → List Lexeme → Option (Found × List Lexeme)
  | 0, _ => none
  | fuel + 1, .word text :: ts =>
    match text, ts with
    | "this", ts => some (⟨.this, .plain⟩, ts)
    | "null", ts => some (⟨.null, .plain⟩, ts)
    | "true", ts => some (⟨.bool true, .plain⟩, ts)
    | "false", ts => some (⟨.bool false, .plain⟩, ts)
    | "new", .word type :: .sign .lparen :: ts => do
      if type ∈ reserved then none
      let (args, ts) ← readElements fuel .rparen ts
      some (⟨.construct type args, .plain⟩, ts)
    | "Math", .sign .dot :: .word name :: ts => some (⟨.name ("Math." ++ name), .plain⟩, ts)
    | text, ts => if text ∈ reserved then none else some (⟨.name text, .name⟩, ts)
  | _ + 1, .numeral text :: ts => some (⟨.number text, .plain⟩, ts)
  | _ + 1, .string units :: ts => some (⟨.string units, .plain⟩, ts)
  | fuel + 1, .sign .lparen :: ts => do
    let (inner, ts) ← readExpr fuel ts
    let ts ← expectSign .rparen ts
    some (⟨inner.term, if inner.form = .name then .cover else .plain⟩, ts)
  | fuel + 1, .sign .lbracket :: ts => do
    let (elements, ts) ← readElements fuel .rbracket ts
    some (⟨.array elements, .plain⟩, ts)
  | _ + 1, _ => none

/-- Reads expressions with commas between them up to a closing sign. -/
def readElements : (fuel : Nat) → (close : Sign) → List Lexeme → Option (List Term × List Lexeme)
  | 0, _, _ => none
  | fuel + 1, close, ts =>
    if ts.head? = some (.sign close) then some ([], ts.tail)
    else do
      let (first, ts) ← readElement fuel ts
      let (others, ts) ← readOthers fuel close ts
      some (first :: others, ts)

def readOthers : (fuel : Nat) → (close : Sign) → List Lexeme → Option (List Term × List Lexeme)
  | 0, _, _ => none
  | fuel + 1, close, .sign .comma :: ts => do
    let (first, ts) ← readElement fuel ts
    let (others, ts) ← readOthers fuel close ts
    some (first :: others, ts)
  | _ + 1, close, ts => (expectSign close ts).map fun ts => ([], ts)

def readElement : (fuel : Nat) → List Lexeme → Option (Term × List Lexeme)
  | 0, _ => none
  | fuel + 1, .sign .spread :: ts => do
    let (e, ts) ← readExpr fuel ts
    some (.spread e.term, ts)
  | fuel + 1, ts => do
    let (e, ts) ← readExpr fuel ts
    some (e.term, ts)

end

/-- The term that a text stands for, if it can be read as an expression. -/
def Term.read (text : String) : Option Term := do
  let ts ← lexemes text.toList
  let (found, rest) ← readExpr (4 * ts.length + 4) ts
  if rest.isEmpty then some found.term else none

/-- The bans, and what belongs to a chain. -/
example : Term.read "(-a) ** b ?? c" =
      some (.coalesce (.binary .pow (.minus (.name "a")) (.name "b")) (.name "c")) ∧
    Term.read "-a ** b" = none ∧ Term.read "a ?? b || c" = none ∧
    Term.read "a?.b.c" = some (.member true (.optionalMember (.name "a") "b") "c") ∧
    Term.read "(a?.b).c" = some (.member false (.optionalMember (.name "a") "b") "c") := by
  refine ⟨?_, ?_, ?_, ?_, ?_⟩ <;> cbv

/-! ### Where a reading stops -/

/-- Whether a lexeme goes on with an operand before it, at operations of at least a power. -/
def Lexeme.goesOn (power : Nat) : Lexeme → Bool
  | sign .dot | sign .chain | sign .lbracket | sign .lparen => true
  | sign (.operation o) => power ≤ o.leftPower
  | _ => false

/-- Nothing follows, or what does not go on. -/
def Stops (power : Nat) (rest : List Lexeme) : Prop :=
  ∀ t ∈ rest.head?, t.goesOn power = false

variable {fuel power : Nat} {ts ts' rest : List Lexeme} {t t' : Term} {base left : Found}

theorem readPostfix_stops (h : Stops power rest) (hfuel : 0 < fuel) :
    readPostfix fuel base rest = some (base, rest) := by
  obtain _ | fuel := fuel
  · omega
  unfold readPostfix
  split
  case h_1 => contradiction
  case h_2 | h_3 | h_4 | h_5 => cases h _ rfl
  case h_6 => rfl

/-- An expression ends before what does not continue it. -/
theorem readMore_stops (h : Stops power rest) (hfuel : 0 < fuel) :
    readMore fuel power left rest = some (left, rest) := by
  obtain _ | fuel := fuel
  · omega
  cases rest with
  | nil => rfl
  | cons u rest =>
    cases u with
    | sign s =>
      cases s with
      | operation o =>
        have hpower : o.leftPower < power := by simpa [Lexeme.goesOn] using h _ rfl
        exact if_pos hpower
      | _ => rfl
    | _ => rfl

/-- What may follow an expression that stands by itself. -/
def Closes (rest : List Lexeme) : Prop :=
  ∀ u ∈ rest.head?, u ∈ [.sign .rparen, .sign .rbracket, .sign .comma, .sign .colon]

theorem Closes.stops (h : Closes rest) (power : Nat) : Stops power rest := by
  intro u hu
  have hmem := h u hu
  simp only [List.mem_cons, List.not_mem_nil, or_false] at hmem
  obtain rfl | rfl | rfl | rfl := hmem <;> rfl

theorem closes_cons {u : Lexeme}
    (h : u ∈ [.sign .rparen, .sign .rbracket, .sign .comma, .sign .colon]) (rest : List Lexeme) :
    Closes (u :: rest) := by
  intro v hv
  cases hv
  exact h

theorem readExpr_closes {found : Found} (hread : readOperation fuel 0 ts = some (found, rest))
    (h : Closes rest) : readExpr (fuel + 1) ts = some (found, rest) := by
  rw [readExpr, hread]
  cases rest with
  | nil => rfl
  | cons u rest =>
    have hmem := h u rfl
    simp only [List.mem_cons, List.not_mem_nil, or_false] at hmem
    obtain rfl | rfl | rfl | rfl := hmem <;> rfl

/-! ### Operands and expressions -/

/-- The forms that every operation takes on its left. -/
def Form.isFree : Form → Bool
  | unary | logical | coalesce => false
  | _ => true

theorem Operation.bans_eq_false (o : Operation) {form : Form} (h : form.isFree = true) :
    o.bans form = false := by
  unfold bans
  split <;> first | rfl | cases h

/-- Lexemes that are read as an operand, behind which the reading goes on with what follows it. Only
an operand that may end in a chain ends in one. The fuel that is used up is four for a lexeme at
most. -/
def Tight (mayChain : Bool) (ts : List Lexeme) (t : Term) : Prop :=
  ∀ fuel rest, 4 * ts.length ≤ fuel → ∃ (form : Form) (fuel' : Nat), form.isFree = true ∧
    (form = .chain → mayChain = true) ∧ fuel ≤ fuel' + 4 * ts.length ∧
    readUnary fuel (ts ++ rest) = readPostfix fuel' ⟨t, form⟩ rest

/-- Lexemes that are read as an expression before what may follow one. -/
def Whole (ts : List Lexeme) (t : Term) : Prop :=
  ∀ fuel rest, 4 * ts.length + 3 ≤ fuel → Closes rest →
    ∃ form, readExpr fuel (ts ++ rest) = some (⟨t, form⟩, rest)

variable {mayChain mayChain' : Bool}

/-- An operand is read as such where nothing goes on with it but an operation. -/
theorem Tight.readUnary_eq (h : Tight mayChain ts t) (hstops : Stops power rest) (fuel : Nat)
    (hfuel : 4 * ts.length + 1 ≤ fuel) :
    ∃ form : Form, form.isFree = true ∧ readUnary fuel (ts ++ rest) = some (⟨t, form⟩, rest) := by
  obtain ⟨form, fuel', hfree, -, hfuel', hread⟩ := h fuel rest (by omega)
  exact ⟨form, hfree, by rw [hread, readPostfix_stops hstops (by omega)]⟩

theorem Tight.readOperation_eq (h : Tight mayChain ts t) (hstops : Stops power rest) (fuel : Nat)
    (hfuel : 4 * ts.length + 2 ≤ fuel) :
    ∃ form : Form, form.isFree = true ∧
      readOperation fuel power (ts ++ rest) = some (⟨t, form⟩, rest) := by
  obtain _ | fuel := fuel
  · omega
  obtain ⟨form, hfree, hread⟩ := h.readUnary_eq hstops fuel (by omega)
  refine ⟨form, hfree, ?_⟩
  rw [readOperation, hread]
  exact readMore_stops hstops (by omega)

theorem Tight.whole (h : Tight mayChain ts t) : Whole ts t := by
  intro fuel rest hfuel hrest
  obtain _ | fuel := fuel
  · omega
  obtain ⟨form, -, hread⟩ := h.readOperation_eq (hrest.stops 0) fuel (by omega)
  exact ⟨form, readExpr_closes hread hrest⟩

/-! ### Operations -/

theorem Tight.unary (h : Tight mayChain ts t) :
    Whole (.sign .bang :: ts) (.not t) ∧
      Whole (.sign (.operation (.binary .sub)) :: ts) (.minus t) := by
  constructor
  all_goals
    intro fuel rest hfuel hrest
    rw [List.length_cons] at hfuel
    obtain ⟨fuel, rfl⟩ : ∃ n, fuel = n + 3 := ⟨fuel - 3, by omega⟩
    obtain ⟨form, -, hread⟩ := h.readUnary_eq (hrest.stops 0) fuel (by omega)
    refine ⟨.unary, readExpr_closes ?_ hrest⟩
    rw [List.cons_append, readOperation, readUnary, hread]
    exact readMore_stops (hrest.stops 0) (by omega)

/-- Operands on both sides of an operation are its operands, whatever the operation is. -/
theorem Tight.operation (o : Operation) (h : Tight mayChain ts t) (h' : Tight mayChain' ts' t') :
    Whole (ts ++ .sign (.operation o) :: ts') (o.apply t t') := by
  intro fuel rest hfuel hrest
  rw [List.length_append, List.length_cons] at hfuel
  obtain ⟨fuel, rfl⟩ : ∃ n, fuel = n + 3 := ⟨fuel - 3, by omega⟩
  have hpower : o.leftPower < 19 := by
    cases o with
    | coalesce => decide
    | binary op => cases op <;> decide
  have hstops : Stops 19 (.sign (.operation o) :: (ts' ++ rest)) := by
    intro u hu
    cases hu
    simpa [Lexeme.goesOn] using hpower
  obtain ⟨form, hfree, hleft⟩ := h.readUnary_eq hstops (fuel + 1) (by omega)
  obtain ⟨form', -, hright⟩ := h'.readOperation_eq (hrest.stops o.rightPower) fuel (by omega)
  refine ⟨o.form, readExpr_closes ?_ hrest⟩
  rw [List.append_assoc, List.cons_append, readOperation, hleft]
  show readMore (fuel + 1) 0 _ _ = _
  rw [readMore, if_neg (Nat.not_lt_zero _), o.bans_eq_false hfree, if_neg (by simp), hright]
  exact readMore_stops (hrest.stops 0) (by omega)

theorem Tight.ternary {ts₁ ts₂ : List Lexeme} {t₁ t₂ : Term} (h : Tight mayChain ts t)
    (h₁ : Whole ts₁ t₁) (h₂ : Whole ts₂ t₂) :
    Whole (ts ++ .sign .question :: (ts₁ ++ .sign .colon :: ts₂)) (.ternary t t₁ t₂) := by
  intro fuel rest hfuel hrest
  simp only [List.length_append, List.length_cons] at hfuel
  obtain _ | fuel := fuel
  · omega
  have hstops : Stops 0 (.sign .question :: (ts₁ ++ .sign .colon :: (ts₂ ++ rest))) := by
    intro u hu
    cases hu
    rfl
  have hcolon : Closes (.sign .colon :: (ts₂ ++ rest)) := closes_cons (by simp) _
  obtain ⟨form, -, htest⟩ := h.readOperation_eq hstops fuel (by omega)
  obtain ⟨form₁, hconsequent⟩ := h₁ fuel _ (by omega) hcolon
  obtain ⟨form₂, halternate⟩ := h₂ fuel rest (by omega) hrest
  refine ⟨.plain, ?_⟩
  simp only [List.append_assoc, List.cons_append]
  rw [readExpr, htest]
  show (readExpr fuel _ >>= fun p => _) = _
  rw [hconsequent]
  show (readExpr fuel _ >>= fun p => _) = _
  rw [halternate]
  rfl

/-! ### Elements and arguments -/

/-- An expression does not start as the end of a list does, nor as an element that is spread. -/
theorem Whole.start (h : Whole ts t) :
    ∃ u us, ts = u :: us ∧ u ∉ [.sign .rparen, .sign .rbracket, .sign .spread] := by
  cases ts with
  | nil =>
    obtain ⟨form, hread⟩ := h 3 [] (Nat.le_refl _) nofun
    cases hread
  | cons u us =>
    refine ⟨u, us, rfl, fun hmem => ?_⟩
    have hfuel : 4 * (u :: us).length + 3 ≤ 4 * us.length + 4 + 4 := by
      rw [List.length_cons]
      omega
    have hnone : readExpr (4 * us.length + 4 + 4) (u :: us ++ []) = none := by
      simp only [List.mem_cons, List.not_mem_nil, or_false] at hmem
      obtain rfl | rfl | rfl := hmem <;> rfl
    obtain ⟨form, hread⟩ := h (4 * us.length + 4 + 4) [] hfuel nofun
    rw [hnone] at hread
    cases hread

/-- Lexemes that are read as an element of a list, or as an argument. -/
structure Element (ts : List Lexeme) (t : Term) : Prop where
  start : ∃ u us, ts = u :: us ∧ u ∉ [.sign .rparen, .sign .rbracket]
  read : ∀ fuel rest, 4 * ts.length + 4 ≤ fuel → Closes rest →
    readElement fuel (ts ++ rest) = some (t, rest)

theorem Whole.element (h : Whole ts t) : Element ts t := by
  obtain ⟨u, us, rfl, hu⟩ := h.start
  refine ⟨⟨u, us, rfl, fun hmem => hu ?_⟩, fun fuel rest hfuel hrest => ?_⟩
  · simp only [List.mem_cons, List.not_mem_nil, or_false] at hmem ⊢
    exact hmem.imp_right .inl
  · obtain _ | fuel := fuel
    · omega
    obtain ⟨form, hread⟩ := h fuel rest (by omega) hrest
    rw [List.cons_append] at hread ⊢
    rw [readElement, hread]
    · rfl
    · rintro ts ⟨⟩
      exact hu (by simp)

theorem Whole.spread (h : Whole ts t) : Element (.sign .spread :: ts) (.spread t) := by
  refine ⟨⟨_, ts, rfl, by simp⟩, fun fuel rest hfuel hrest => ?_⟩
  rw [List.length_cons] at hfuel
  obtain _ | fuel := fuel
  · omega
  obtain ⟨form, hread⟩ := h fuel rest (by omega) hrest
  rw [List.cons_append, readElement, hread]
  rfl

/-- Runs of lexemes with a comma before each. -/
def afterCommas (runs : List (List Lexeme)) : List Lexeme :=
  runs.flatMap fun ts => .sign .comma :: ts

/-- Runs of lexemes with commas between them. -/
def listed : List (List Lexeme) → List Lexeme
  | [] => []
  | ts :: runs => ts ++ afterCommas runs

variable {runs : List (List Lexeme)} {terms : List Term} {close : Sign}

theorem closes_afterCommas (hclose : close ∈ [.rparen, .rbracket]) (runs : List (List Lexeme))
    (rest : List Lexeme) : Closes (afterCommas runs ++ .sign close :: rest) := by
  cases runs with
  | nil =>
    refine closes_cons ?_ rest
    simp only [List.mem_cons, List.not_mem_nil, or_false] at hclose
    obtain rfl | rfl := hclose <;> simp
  | cons ts runs => exact closes_cons (by simp) _

theorem readOthers_eq (hclose : close ∈ [.rparen, .rbracket]) (h : List.Forall₂ Element runs terms)
    (rest : List Lexeme) (fuel : Nat) (hfuel : 4 * (afterCommas runs).length + 1 ≤ fuel) :
    readOthers fuel close (afterCommas runs ++ .sign close :: rest) = some (terms, rest) := by
  induction h generalizing fuel with
  | nil =>
    obtain _ | fuel := fuel
    · omega
    simp only [List.mem_cons, List.not_mem_nil, or_false] at hclose
    obtain rfl | rfl := hclose <;> rfl
  | @cons ts t runs terms hts _ ih =>
    have hlength :
        (afterCommas (ts :: runs)).length = ts.length + 1 + (afterCommas runs).length := by
      rw [afterCommas, List.flatMap_cons, List.length_append, List.length_cons, afterCommas]
    obtain _ | fuel := fuel
    · omega
    have htokens : afterCommas (ts :: runs) ++ .sign close :: rest =
        .sign .comma :: (ts ++ (afterCommas runs ++ .sign close :: rest)) := by
      simp [afterCommas]
    rw [htokens, readOthers, hts.read fuel _ (by omega) (closes_afterCommas hclose runs rest)]
    show (readOthers fuel close _ >>= fun p => _) = _
    rw [ih fuel (by omega)]
    rfl

/-- Elements are read one by one up to the bracket. -/
theorem readElements_eq (close : Sign) (hclose : close ∈ [.rparen, .rbracket])
    (h : List.Forall₂ Element runs terms) (rest : List Lexeme) (fuel : Nat)
    (hfuel : 4 * (listed runs).length + 5 ≤ fuel) :
    readElements fuel close (listed runs ++ .sign close :: rest) = some (terms, rest) := by
  obtain _ | fuel := fuel
  · omega
  cases h with
  | nil => simp [listed, readElements]
  | @cons ts t runs terms hts hruns =>
    rw [listed, List.length_append] at hfuel
    have hread := hts.read fuel _ (by omega) (closes_afterCommas hclose runs rest)
    obtain ⟨u, us, rfl, hu⟩ := hts.start
    have hhead : some u ≠ some (.sign close) := by
      rintro ⟨rfl⟩
      simp only [List.mem_cons, List.not_mem_nil, or_false] at hclose
      obtain rfl | rfl := hclose <;> simp at hu
    rw [listed, List.append_assoc, readElements, List.cons_append, List.head?_cons, if_neg hhead,
      ← List.cons_append, hread]
    show (readOthers fuel close _ >>= fun p => _) = _
    rw [readOthers_eq hclose hruns rest fuel (by omega)]
    rfl

/-! ### Operands that are read at once -/

/-- What stands where an operand begins, and is read up to its end, is one. -/
theorem tight_of_readPrimary
    (h : ∀ fuel rest, 4 * ts.length ≤ fuel + 2 → ∃ form : Form, form.isFree = true ∧
      form ≠ .chain ∧ readPrimary (fuel + 1) (ts ++ rest) = some (⟨t, form⟩, rest)) :
    Tight false ts t := by
  intro fuel rest hfuel
  cases ts with
  | nil =>
    obtain ⟨form, -, -, hread⟩ := h 0 [] (by simp)
    cases hread
  | cons u us =>
    have hlength : (u :: us).length = us.length + 1 := rfl
    obtain ⟨fuel, rfl⟩ : ∃ n, fuel = n + 2 := ⟨fuel - 2, by omega⟩
    obtain ⟨form, hfree, hchain, hread⟩ := h fuel rest hfuel
    refine ⟨form, fuel + 1, hfree, fun h => absurd h hchain, by omega, ?_⟩
    rw [List.cons_append] at hread ⊢
    rw [readUnary, hread]
    · rfl
    all_goals
      rintro ts ⟨⟩
      cases hread

theorem readPrimary_word {text : String} (hword : text ∉ reserved) (hmath : text ≠ "Math")
    (fuel : Nat) (rest : List Lexeme) :
    readPrimary (fuel + 1) (.word text :: rest) = some (⟨.name text, .name⟩, rest) := by
  unfold readPrimary
  split
  case h_6 => contradiction
  case h_7 => exact if_neg hword
  all_goals exact absurd (by decide) hword

theorem tight_name {text : String} (hword : text ∉ reserved) (hmath : text ≠ "Math") :
    Tight false [.word text] (.name text) :=
  tight_of_readPrimary fun fuel rest _ =>
    ⟨.name, rfl, by decide, readPrimary_word hword hmath fuel rest⟩

/-- What is found under `Math` is an operand. -/
theorem tight_math (name : String) :
    Tight false [.word "Math", .sign .dot, .word name] (.name ("Math." ++ name)) :=
  tight_of_readPrimary fun _ _ _ => ⟨.plain, rfl, by decide, rfl⟩

/-- A lexeme that is an operand by itself. -/
theorem tight_single {u : Lexeme}
    (h : ∀ fuel rest, readPrimary (fuel + 1) (u :: rest) = some (⟨t, .plain⟩, rest)) :
    Tight false [u] t :=
  tight_of_readPrimary fun fuel rest _ => ⟨.plain, rfl, by decide, h fuel rest⟩

theorem Whole.group (h : Whole ts t) :
    Tight false (.sign .lparen :: (ts ++ [.sign .rparen])) t := by
  refine tight_of_readPrimary fun fuel rest hfuel => ?_
  simp only [List.length_cons, List.length_append, List.length_nil] at hfuel
  have hclose : Closes (.sign .rparen :: rest) := closes_cons (by simp) _
  obtain ⟨form, hread⟩ := h fuel _ (by omega) hclose
  refine ⟨if form = .name then .cover else .plain, ?_, ?_, ?_⟩
  · split <;> rfl
  · split <;> decide
  · rw [List.cons_append, List.append_assoc, List.singleton_append, readPrimary, hread]
    rfl

theorem tight_array (h : List.Forall₂ Element runs terms) :
    Tight false (.sign .lbracket :: (listed runs ++ [.sign .rbracket])) (.array terms) := by
  refine tight_of_readPrimary fun fuel rest hfuel => ⟨.plain, rfl, by decide, ?_⟩
  simp only [List.length_cons, List.length_append, List.length_nil] at hfuel
  have hread := readElements_eq .rbracket (by simp) h rest fuel (by omega)
  rw [List.cons_append, List.append_assoc, List.singleton_append, readPrimary, hread]
  rfl

theorem tight_construct {type : String} (htype : type ∉ reserved)
    (h : List.Forall₂ Element runs terms) :
    Tight false (.word "new" :: .word type :: .sign .lparen :: (listed runs ++ [.sign .rparen]))
      (.construct type terms) := by
  refine tight_of_readPrimary fun fuel rest hfuel => ⟨.plain, rfl, by decide, ?_⟩
  simp only [List.length_cons, List.length_append, List.length_nil] at hfuel
  have hread := readElements_eq .rparen (by simp) h rest fuel (by omega)
  simp only [List.cons_append, List.append_assoc, List.nil_append]
  rw [readPrimary, if_neg htype]
  show (readElements fuel _ _ >>= fun p => _) = _
  rw [hread]
  rfl

/-! ### Members, subscripts and calls -/

/-- An operand goes on with what is read behind it in one step. -/
theorem Tight.continued {more : List Lexeme} (h : Tight mayChain ts t) (form' : Form)
    (hfree : form'.isFree = true) (hform : form' = .chain → mayChain' = true) (hmore : more ≠ [])
    (hstep : ∀ fuel rest form, 4 * more.length ≤ fuel + 1 → (form = .chain → mayChain = true) →
      readPostfix (fuel + 1) ⟨t, form⟩ (more ++ rest) = readPostfix fuel ⟨t', form'⟩ rest) :
    Tight mayChain' (ts ++ more) t' := by
  intro fuel rest hfuel
  rw [List.length_append] at hfuel ⊢
  have hlength := List.length_pos_iff.2 hmore
  obtain ⟨form, fuel', -, hchain, hfuel', hread⟩ := h fuel (more ++ rest) (by omega)
  obtain _ | fuel' := fuel'
  · omega
  refine ⟨form', fuel', hfree, hform, by omega, ?_⟩
  rw [List.append_assoc, hread, hstep fuel' rest form (by omega) hchain]

theorem isChain_eq_false {form : Form} (h : form = .chain → false = true) :
    (Found.mk t form).isChain = false := by
  simpa [Found.isChain] using h

theorem Tight.member (h : Tight false ts t) (name : String) :
    Tight false (ts ++ [.sign .dot, .word name]) (.member false t name) := by
  refine h.continued .plain rfl nofun nofun fun fuel rest form _ hchain => ?_
  rw [List.cons_append, List.singleton_append, readPostfix, isChain_eq_false hchain]
  rfl

theorem Tight.optionalMember (h : Tight mayChain ts t) (name : String) :
    Tight true (ts ++ [.sign .chain, .word name]) (.optionalMember t name) :=
  h.continued .chain rfl (fun _ => rfl) nofun fun fuel rest form _ _ => by
    rw [List.cons_append, List.singleton_append, readPostfix]

theorem Tight.subscript (h : Tight false ts t) (h' : Whole ts' t') :
    Tight false (ts ++ .sign .lbracket :: (ts' ++ [.sign .rbracket]))
      (.subscript false t t') := by
  refine h.continued .plain rfl nofun nofun fun fuel rest form hfuel hchain => ?_
  simp only [List.length_append, List.length_cons, List.length_nil] at hfuel
  have hclose : Closes (.sign .rbracket :: rest) := closes_cons (by simp) _
  obtain ⟨form', hindex⟩ := h' fuel _ (by omega) hclose
  simp only [List.append_assoc, List.cons_append, List.nil_append]
  rw [readPostfix, hindex, isChain_eq_false hchain]
  rfl

theorem Tight.call (h : Tight false ts t) (hargs : List.Forall₂ Element runs terms) :
    Tight false (ts ++ .sign .lparen :: (listed runs ++ [.sign .rparen]))
      (.call false t terms) := by
  refine h.continued .plain rfl nofun nofun fun fuel rest form hfuel hchain => ?_
  simp only [List.length_append, List.length_cons, List.length_nil] at hfuel
  have helements := readElements_eq .rparen (by simp) hargs rest fuel (by omega)
  simp only [List.append_assoc, List.cons_append, List.nil_append]
  rw [readPostfix, helements, isChain_eq_false hchain]
  rfl

/-- A name in parentheses and an arrow make a function of what follows. -/
theorem Whole.arrow {param : String} (hparam : param ∉ reserved) (hmath : param ≠ "Math")
    (h : Whole ts t) :
    Whole (.sign .lparen :: .word param :: .sign .rparen :: .sign .arrow :: ts)
      (.arrow param t) := by
  intro fuel rest hfuel hrest
  simp only [List.length_cons] at hfuel
  obtain ⟨fuel, rfl⟩ : ∃ n, fuel = n + 8 := ⟨fuel - 8, by omega⟩
  obtain ⟨form, hbody⟩ := h (fuel + 7) rest (by omega) hrest
  have hclose : Closes (.sign .rparen :: .sign .arrow :: (ts ++ rest)) := closes_cons (by simp) _
  have hstops : Stops 0 (.sign .arrow :: (ts ++ rest)) := by
    intro u hu
    cases hu
    rfl
  -- The name comes out as a name, so that the parentheses are a cover for it.
  have hname : readExpr (fuel + 4) (.word param :: .sign .rparen :: .sign .arrow :: (ts ++ rest)) =
      some (⟨.name param, .name⟩, .sign .rparen :: .sign .arrow :: (ts ++ rest)) := by
    refine readExpr_closes ?_ hclose
    rw [readOperation, readUnary, readPrimary_word hparam hmath]
    show (readPostfix (fuel + 1) _ _ >>= fun p => _) = _
    rw [readPostfix_stops (hclose.stops 0) (by omega)]
    exact readMore_stops (hclose.stops 0) (by omega)
    · nofun
    · nofun
  have hcover : readOperation (fuel + 7) 0
      (.sign .lparen :: .word param :: .sign .rparen :: .sign .arrow :: (ts ++ rest)) =
      some (⟨.name param, .cover⟩, .sign .arrow :: (ts ++ rest)) := by
    rw [readOperation, readUnary, readPrimary, hname]
    show (readPostfix (fuel + 5) _ _ >>= fun p => _) = _
    rw [readPostfix_stops hstops (by omega)]
    exact readMore_stops hstops (by omega)
    · nofun
    · nofun
  refine ⟨.plain, ?_⟩
  simp only [List.cons_append]
  rw [readExpr, hcover]
  show (readExpr (fuel + 7) _ >>= fun p => _) = _
  rw [hbody]
  rfl

/-- The whole of a text is read as the term of its lexemes. -/
theorem Whole.read {text : String} (h : Whole ts t) (hcuts : Cuts text.toList ts) :
    Term.read text = some t := by
  obtain ⟨form, hread⟩ := h (4 * ts.length + 4) [] (by omega) nofun
  rw [List.append_nil] at hread
  rw [Term.read, hcuts.lexemes_eq]
  show (readExpr _ ts >>= fun p => _) = _
  rw [hread]
  rfl

end Dragon.Script
