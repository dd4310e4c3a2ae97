import Dragon.Tree.ExprReader

/-!
# The grammar of expressions

From the loosest to the tightest level these are choices by a condition, choices by an optional,
five chains of operators that associate to the left, unary operations, powers, members with calls
and subscripts, and atoms. Trees are regarded apart from their places.
-/
namespace Dragon

/-- The place of a tree that has none. -/
def Span.nowhere : Span := ⟨"", .origin, .origin⟩

namespace Tree

/-! ### Trees apart from their places -/

mutual

def TypeExpr.bare : TypeExpr → TypeExpr
  | .named name _ => .named name .nowhere
  | .list element _ => .list element.bare .nowhere
  | .optional base _ => .optional base.bare .nowhere
  | .function params result _ => .function (bareTypes params) result.bare .nowhere

def bareTypes : List TypeExpr → List TypeExpr
  | [] => []
  | t :: rest => t.bare :: bareTypes rest

end

mutual

def Expr.bare : Expr → Expr
  | .integer text _ => .integer text .nowhere
  | .float text _ => .float text .nowhere
  | .boolean value _ => .boolean value .nowhere
  | .string value _ => .string value .nowhere
  | .interpolation parts _ => .interpolation (bareExprs parts) .nowhere
  | .identifier name _ => .identifier name .nowhere
  | .mine _ => .mine .nowhere
  | .naught type _ => .naught type.bare .nowhere
  | .list elements _ => .list (bareExprs elements) .nowhere
  | .unary op operand _ => .unary op operand.bare .nowhere
  | .binary left op right _ => .binary left.bare op right.bare .nowhere
  | .ternary test consequent alternate _ =>
    .ternary test.bare consequent.bare alternate.bare .nowhere
  | .coalesce optional fallback _ => .coalesce optional.bare fallback.bare .nowhere
  | .call callee args _ => .call callee.bare (bareArguments args) .nowhere
  | .index collection index _ => .index collection.bare index.bare .nowhere
  | .member object access name _ => .member object.bare access name .nowhere

def bareExprs : List Expr → List Expr
  | [] => []
  | e :: rest => e.bare :: bareExprs rest

def bareArguments : List Argument → List Argument
  | [] => []
  | .mk name value _ :: rest => .mk name value.bare .nowhere :: bareArguments rest

end

def Argument.bare : Argument → Argument
  | .mk name value _ => .mk name value.bare .nowhere

theorem bareTypes_eq_map (ts : List TypeExpr) : bareTypes ts = ts.map TypeExpr.bare := by
  induction ts with
  | nil => rfl
  | cons t rest ih => rw [bareTypes, ih, List.map_cons]

theorem bareExprs_eq_map (es : List Expr) : bareExprs es = es.map Expr.bare := by
  induction es with
  | nil => rfl
  | cons e rest ih => rw [bareExprs, ih, List.map_cons]

theorem bareArguments_eq_map (args : List Argument) :
    bareArguments args = args.map Argument.bare := by
  induction args with
  | nil => rfl
  | cons arg rest ih =>
    obtain ⟨name, value, span⟩ := arg
    rw [bareArguments, ih, List.map_cons]
    rfl

/-! ### Types -/

/-- Runs of tokens with a comma between each two. -/
inductive Joined : List (List Token) → List Token → Prop
  | none : Joined [] []
  | one (run : List Token) : Joined [run] run
  | more {run next ts : List Token} {rest : List (List Token)} {comma : Token}
      (hcomma : comma.kind = .operator .comma) (h : Joined (next :: rest) ts) :
      Joined (run :: next :: rest) (run ++ comma :: ts)

def TypeExpr.isFunction : TypeExpr → Bool
  | .function .. => true
  | _ => false

/-- A type takes every question mark that follows it; those that follow a function are its
result's. -/
inductive DerivesType : List Token → TypeExpr → Prop
  | named {t : Token} (h : t.kind = .identifier) : DerivesType [t] (.named t.value .nowhere)
  | list {start stop : Token} {ts : List Token} {element : TypeExpr}
      (hstart : start.kind = .operator .lbracket) (h : DerivesType ts element)
      (hstop : stop.kind = .operator .rbracket) :
      DerivesType (start :: (ts ++ [stop])) (.list element .nowhere)
  | optional {mark : Token} {ts : List Token} {base : TypeExpr} (h : DerivesType ts base)
      (hbase : base.isFunction = false) (hmark : mark.kind = .operator .question) :
      DerivesType (ts ++ [mark]) (.optional base .nowhere)
  | function {start stop arrow : Token} {inner ts : List Token}
      {params : List (List Token × TypeExpr)} {result : TypeExpr}
      (hstart : start.kind = .operator .lparen) (hparams : ∀ p ∈ params, DerivesType p.1 p.2)
      (hinner : Joined (params.map Prod.fst) inner) (hstop : stop.kind = .operator .rparen)
      (harrow : arrow.kind = .operator .arrow) (hresult : DerivesType ts result) :
      DerivesType (start :: (inner ++ stop :: arrow :: ts))
        (.function (params.map Prod.snd) result .nowhere)

/-! ### Expressions -/

/-- The levels of the grammar, from the loosest to the tightest. -/
inductive Level where
  | ternary | coalesce | or | and | comparison | additive | multiplicative | unary | power
  | primary | atom
  deriving DecidableEq, Repr

namespace Level

def tighter : Level → Level
  | ternary => coalesce
  | coalesce => or
  | or => and
  | and => comparison
  | comparison => additive
  | additive => multiplicative
  | multiplicative => unary
  | unary => power
  | power => primary
  | primary | atom => atom

def rank : Level → Nat
  | ternary => 0
  | coalesce => 1
  | or => 2
  | and => 3
  | comparison => 4
  | additive => 5
  | multiplicative => 6
  | unary => 7
  | power => 8
  | primary => 9
  | atom => 10

theorem eq_of_rank_eq {l m : Level} (h : l.rank = m.rank) : l = m := by
  cases l <;> cases m <;> first | rfl | cases h

theorem rank_tighter {l : Level} (h : l.rank < 10) : l.tighter.rank = l.rank + 1 := by
  cases l <;> first | rfl | simp [rank] at h

/-- The operators that a level chains. -/
def chain? : Level → Operator → Option BinaryOp
  | or, .or => some .or
  | and, .and => some .and
  | comparison, .equal => some .eq
  | comparison, .notEqual => some .ne
  | comparison, .less => some .lt
  | comparison, .greater => some .gt
  | comparison, .lessEqual => some .le
  | comparison, .greaterEqual => some .ge
  | additive, .plus => some .add
  | additive, .minus => some .sub
  | multiplicative, .star => some .mul
  | multiplicative, .slash => some .div
  | _, _ => none

end Level

/-- The atoms that are one token. -/
def tokenAtom? (t : Token) : Option Expr :=
  match t.kind with
  | .integer => some (.integer t.value .nowhere)
  | .float => some (.float t.value .nowhere)
  | .boolean => some (.boolean (t.value == "shall") .nowhere)
  | .string => some (.string t.value .nowhere)
  | .identifier => some (.identifier t.value .nowhere)
  | .keyword .mine => some (.mine .nowhere)
  | _ => none

/-- The tokens that start unary operations. -/
def unaryOp? : Kind → Option UnaryOp
  | .operator .minus => some .neg
  | .keyword .ne => some .not
  | .keyword .some => some .some
  | _ => none

def access? : Operator → Option Access
  | .dot => some .plain
  | .questionDot => some .optional
  | _ => none

/-- An expression with its tokens. It is open if it ends in the type after `naught`, which takes a
question mark behind it. -/
structure Run where
  isOpen : Bool
  tokens : List Token
  expr : Expr

/-- An argument: its name and colon, if it has them, and its value. -/
structure Labelled where
  label : Option (Token × Token)
  run : Run

namespace Labelled

def tokens (a : Labelled) : List Token :=
  match a.label with
  | none => a.run.tokens
  | some (name, colon) => name :: colon :: a.run.tokens

def argument (a : Labelled) : Argument :=
  .mk (a.label.map (·.1.value)) a.run.expr .nowhere

/-- The tokens of a label are a name and a colon. -/
def Labels (a : Labelled) : Prop :=
  ∀ name colon, a.label = some (name, colon) →
    name.kind = .identifier ∧ colon.kind = .operator .colon

end Labelled

/-- A part of an interpolated string: text, or an expression in its marks. -/
inductive Fragment where
  | text (t : Token)
  | hole (start stop : Token) (run : Run)

namespace Fragment

def tokens : Fragment → List Token
  | text t => [t]
  | hole start stop run => start :: (run.tokens ++ [stop])

def expr : Fragment → Expr
  | text t => .string t.value .nowhere
  | hole _ _ run => run.expr

def Marked : Fragment → Prop
  | text t => t.kind = .string
  | hole start stop _ => start.kind = .interpStart ∧ stop.kind = .interpEnd

def run? : Fragment → Option Run
  | text _ => none
  | hole _ _ run => some run

end Fragment

/-- What tokens are an expression of a level, and whether it is open. -/
inductive Derives : Level → Bool → List Token → Expr → Prop
  | pass {level : Level} {o : Bool} {ts : List Token} {e : Expr}
      (h : Derives level.tighter o ts e) : Derives level o ts e
  | ternary {o o' : Bool} {ts ts₁ ts₂ : List Token} {question colon : Token} {e e₁ e₂ : Expr}
      (h : Derives .coalesce false ts e) (hquestion : question.kind = .operator .question)
      (h₁ : Derives .ternary o' ts₁ e₁) (hcolon : colon.kind = .operator .colon)
      (h₂ : Derives .ternary o ts₂ e₂) :
      Derives .ternary o (ts ++ question :: (ts₁ ++ colon :: ts₂)) (.ternary e e₁ e₂ .nowhere)
  | coalesce {o o' : Bool} {ts ts' : List Token} {t : Token} {e e' : Expr}
      (h : Derives .or o' ts e) (ht : t.kind = .operator .coalesce)
      (h' : Derives .coalesce o ts' e') :
      Derives .coalesce o (ts ++ t :: ts') (.coalesce e e' .nowhere)
  | chain {level : Level} {symbol : Operator} {op : BinaryOp} {o o' : Bool} {ts ts' : List Token}
      {t : Token} {e e' : Expr} (hop : level.chain? symbol = some op) (h : Derives level o' ts e)
      (ht : t.kind = .operator symbol) (h' : Derives level.tighter o ts' e') :
      Derives level o (ts ++ t :: ts') (.binary e op e' .nowhere)
  | unary {op : UnaryOp} {o : Bool} {ts : List Token} {t : Token} {e : Expr}
      (ht : unaryOp? t.kind = some op) (h : Derives .unary o ts e) :
      Derives .unary o (t :: ts) (.unary op e .nowhere)
  | power {o o' : Bool} {ts ts' : List Token} {t : Token} {e e' : Expr}
      (h : Derives .primary o' ts e) (ht : t.kind = .operator .power)
      (h' : Derives .unary o ts' e') :
      Derives .power o (ts ++ t :: ts') (.binary e .pow e' .nowhere)
  | member {symbol : Operator} {access : Access} {o : Bool} {ts : List Token} {t name : Token}
      {e : Expr} (haccess : access? symbol = some access) (h : Derives .primary o ts e)
      (ht : t.kind = .operator symbol) (hname : name.kind = .identifier) :
      Derives .primary false (ts ++ [t, name]) (.member e access name.value .nowhere)
  | call {o : Bool} {ts inner : List Token} {start stop : Token} {args : List Labelled} {e : Expr}
      (h : Derives .primary o ts e) (hstart : start.kind = .operator .lparen)
      (hlabels : ∀ a ∈ args, a.Labels)
      (hargs : ∀ a ∈ args, Derives .ternary a.run.isOpen a.run.tokens a.run.expr)
      (hinner : Joined (args.map Labelled.tokens) inner) (hstop : stop.kind = .operator .rparen) :
      Derives .primary false (ts ++ start :: (inner ++ [stop]))
        (.call e (args.map Labelled.argument) .nowhere)
  | index {o o' : Bool} {ts ts' : List Token} {start stop : Token} {e e' : Expr}
      (h : Derives .primary o ts e) (hstart : start.kind = .operator .lbracket)
      (h' : Derives .ternary o' ts' e') (hstop : stop.kind = .operator .rbracket) :
      Derives .primary false (ts ++ start :: (ts' ++ [stop])) (.index e e' .nowhere)
  | token {t : Token} {e : Expr} (h : tokenAtom? t = some e) : Derives .atom false [t] e
  | naught {t : Token} {ts : List Token} {type : TypeExpr} (ht : t.kind = .keyword .naught)
      (h : DerivesType ts type) : Derives .atom true (t :: ts) (.naught type .nowhere)
  | interpolation {start stop : Token} {parts : List Fragment}
      (hstart : start.kind = .stringStart) (hmarks : ∀ p ∈ parts, p.Marked)
      (hparts : ∀ p ∈ parts, ∀ run, p.run? = some run →
        Derives .ternary run.isOpen run.tokens run.expr)
      (hstop : stop.kind = .stringEnd) :
      Derives .atom false (start :: (parts.flatMap Fragment.tokens ++ [stop]))
        (.interpolation (parts.map Fragment.expr) .nowhere)
  | group {o : Bool} {ts : List Token} {start stop : Token} {e : Expr}
      (hstart : start.kind = .operator .lparen) (h : Derives .ternary o ts e)
      (hstop : stop.kind = .operator .rparen) : Derives .atom false (start :: (ts ++ [stop])) e
  | list {start stop : Token} {inner : List Token} {elements : List Run}
      (hstart : start.kind = .operator .lbracket)
      (helements : ∀ r ∈ elements, Derives .ternary r.isOpen r.tokens r.expr)
      (hinner : Joined (elements.map Run.tokens) inner)
      (hstop : stop.kind = .operator .rbracket) :
      Derives .atom false (start :: (inner ++ [stop])) (.list (elements.map Run.expr) .nowhere)

/-- The tokens that can continue an expression. -/
def continues : Kind → Bool
  | .operator .dot | .operator .questionDot | .operator .lparen | .operator .lbracket
  | .operator .question | .operator .coalesce | .operator .or | .operator .and
  | .operator .equal | .operator .notEqual | .operator .less | .operator .greater
  | .operator .lessEqual | .operator .greaterEqual | .operator .plus | .operator .minus
  | .operator .star | .operator .slash | .operator .power => true
  | _ => false

/-- What is derived at a level is derived at all looser ones. -/
theorem Derives.loosen {l m : Level} {o : Bool} {ts : List Token} {e : Expr}
    (h : Derives m o ts e) (hlm : l.rank ≤ m.rank) : Derives l o ts e := by
  induction hk : m.rank - l.rank generalizing l with
  | zero =>
    obtain rfl : l = m := Level.eq_of_rank_eq (by omega)
    exact h
  | succ k ih =>
    have hm : m.rank ≤ 10 := by cases m <;> decide
    have htighter := Level.rank_tighter (l := l) (by omega)
    exact .pass (ih (by omega) (by omega))

end Tree

end Dragon
