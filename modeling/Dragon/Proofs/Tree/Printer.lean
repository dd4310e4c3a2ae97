import Dragon.Proofs.Tree.Accepted
import Dragon.Proofs.Tree.Bare

/-!
# Programs written out as tokens

An expression is put in parentheses where its level is looser than the one asked for, and `naught`
always, since its type takes the question marks behind it. What is written for an expression or a
type is derived by the grammar.
-/
namespace Dragon.Tree

/-! ### Tokens -/

def sign (o : Operator) : Token := placeless (.operator o) o.text

def word (k : Keyword) : Token := placeless (.keyword k) k.text

def ident (name : String) : Token := placeless .identifier name

/-- Runs of tokens with a comma between each two. -/
def commas : List (List Token) → List Token
  | [] => []
  | [run] => run
  | run :: next :: rest => run ++ sign .comma :: commas (next :: rest)

theorem joined_commas (runs : List (List Token)) : Joined runs (commas runs) := by
  induction runs with
  | nil => exact .none
  | cons run rest ih =>
    cases rest with
    | nil => exact .one run
    | cons next rest => exact .more rfl ih

/-! ### Types -/

mutual

def TypeExpr.tokens : TypeExpr → List Token
  | .named name _ => [ident name]
  | .list element _ => sign .lbracket :: (element.tokens ++ [sign .rbracket])
  | .optional base _ => base.tokens ++ [sign .question]
  | .function params result _ =>
    sign .lparen :: (commas (typeTokens params) ++ sign .rparen :: sign .arrow :: result.tokens)

def typeTokens : List TypeExpr → List (List Token)
  | [] => []
  | t :: rest => t.tokens :: typeTokens rest

end

mutual

/-- A type in which no optional is directly around a function. -/
def TypeExpr.isPlain : TypeExpr → Bool
  | .named _ _ => true
  | .list element _ => element.isPlain
  | .optional base _ => !base.isFunction && base.isPlain
  | .function params result _ => arePlain params && result.isPlain

def arePlain : List TypeExpr → Bool
  | [] => true
  | t :: rest => t.isPlain && arePlain rest

end

theorem typeTokens_eq_map (ts : List TypeExpr) : typeTokens ts = ts.map TypeExpr.tokens := by
  induction ts with
  | nil => rfl
  | cons t rest ih => rw [typeTokens, ih, List.map_cons]

mutual

/-- Printed types are derived by the grammar. -/
theorem TypeExpr.derives_tokens (t : TypeExpr) (h : t.isPlain = true) :
    DerivesType t.tokens t.bare := by
  match t with
  | .named name _ => exact .named rfl
  | .list element _ => exact .list rfl (element.derives_tokens h) rfl
  | .optional base _ =>
    obtain ⟨hbase, hplain⟩ := Bool.and_eq_true_iff.1 h
    refine .optional (base.derives_tokens hplain) ?_ rfl
    rw [TypeExpr.isFunction_bare]
    simpa using hbase
  | .function params result _ =>
    obtain ⟨hparams, hresult⟩ := Bool.and_eq_true_iff.1 h
    have hderives := derives_typeTokens params hparams
    rw [TypeExpr.tokens, TypeExpr.bare, typeTokens_eq_map, bareTypes_eq_map]
    have hfunction := @DerivesType.function (sign .lparen) (sign .rparen) (sign .arrow)
      (commas (params.map TypeExpr.tokens)) result.tokens (params.map fun t => (t.tokens, t.bare))
      result.bare rfl (List.forall_mem_map.2 hderives)
      (by rw [List.map_map]; exact joined_commas _) rfl rfl (result.derives_tokens hresult)
    rwa [List.map_map] at hfunction

theorem derives_typeTokens (ts : List TypeExpr) (h : arePlain ts = true) :
    ∀ t ∈ ts, DerivesType t.tokens t.bare := by
  match ts with
  | [] => nofun
  | t :: rest =>
    obtain ⟨ht, hrest⟩ := Bool.and_eq_true_iff.1 h
    exact List.forall_mem_cons.2 ⟨t.derives_tokens ht, derives_typeTokens rest hrest⟩

end

/-! ### Expressions -/

namespace Level

/-- The levels of the operands of a chain or a power. -/
def left : Level → Level
  | power => primary
  | l => l

def right : Level → Level
  | power => unary
  | l => l.tighter

end Level

/-- The level of an operation. -/
def opLevel : BinaryOp → Level
  | .or => .or
  | .and => .and
  | .eq | .ne | .lt | .gt | .le | .ge => .comparison
  | .add | .sub => .additive
  | .mul | .div => .multiplicative
  | .pow => .power

def opSign : BinaryOp → Operator
  | .or => .or | .and => .and | .eq => .equal | .ne => .notEqual | .lt => .less | .gt => .greater
  | .le => .lessEqual | .ge => .greaterEqual | .add => .plus | .sub => .minus | .mul => .star
  | .div => .slash | .pow => .power

def unarySign : UnaryOp → Token
  | .neg => sign .minus
  | .not => word .ne
  | .some => word .some

def accessSign : Access → Operator
  | .plain => .dot
  | .optional => .questionDot

/-- The level of an expression as it is written. -/
def Expr.level : Expr → Level
  | .unary .. => .unary
  | .binary _ op _ _ => opLevel op
  | .ternary .. => .ternary
  | .coalesce .. => .coalesce
  | .call .. | .index .. | .member .. => .primary
  | _ => .atom

/-- The tokens of an expression where one of a level is asked for. -/
def Expr.fit (e : Expr) (level : Level) (ts : List Token) : List Token :=
  if e.level.rank < level.rank then sign .lparen :: (ts ++ [sign .rparen]) else ts

mutual

def Expr.tokens : Expr → List Token
  | .integer text _ => [placeless .integer text]
  | .float text _ => [placeless .float text]
  | .boolean value _ => [placeless .boolean (if value then "shall" else "shant")]
  | .string value _ => [placeless .string value]
  | .interpolation parts _ =>
    placeless .stringStart "\"" :: (partTokens parts ++ [placeless .stringEnd "\""])
  | .identifier name _ => [ident name]
  | .mine _ => [word .mine]
  | .naught type _ => sign .lparen :: word .naught :: (type.tokens ++ [sign .rparen])
  | .list elements _ => sign .lbracket :: (commas (exprTokens elements) ++ [sign .rbracket])
  | .unary op operand _ => unarySign op :: operand.fit .unary operand.tokens
  | .binary left op right _ =>
    left.fit (opLevel op).left left.tokens ++
      sign (opSign op) :: right.fit (opLevel op).right right.tokens
  | .ternary test consequent alternate _ =>
    test.fit .coalesce test.tokens ++
      sign .question :: (consequent.tokens ++ sign .colon :: alternate.tokens)
  | .coalesce optional fallback _ =>
    optional.fit .or optional.tokens ++ sign .coalesce :: fallback.fit .coalesce fallback.tokens
  | .call callee args _ =>
    callee.fit .primary callee.tokens ++
      sign .lparen :: (commas (argumentTokens args) ++ [sign .rparen])
  | .index collection index _ =>
    collection.fit .primary collection.tokens ++
      sign .lbracket :: (index.tokens ++ [sign .rbracket])
  | .member object access name _ =>
    object.fit .primary object.tokens ++ [sign (accessSign access), ident name]

def exprTokens : List Expr → List (List Token)
  | [] => []
  | e :: rest => e.tokens :: exprTokens rest

/-- Texts stand in an interpolated string as they are, other parts in marks. -/
def partTokens : List Expr → List Token
  | [] => []
  | .string value _ :: rest => placeless .string value :: partTokens rest
  | e :: rest =>
    placeless .interpStart "$\x7b" :: (e.tokens ++ placeless .interpEnd "\x7d" :: partTokens rest)

def argumentTokens : List Argument → List (List Token)
  | [] => []
  | .mk none value _ :: rest => value.tokens :: argumentTokens rest
  | .mk (some name) value _ :: rest =>
    (ident name :: sign .colon :: value.tokens) :: argumentTokens rest

end

mutual

/-- An expression with plain types in it only. -/
def Expr.isPlain : Expr → Bool
  | .naught type _ => type.isPlain
  | .interpolation parts _ => exprsPlain parts
  | .list elements _ => exprsPlain elements
  | .unary _ operand _ => operand.isPlain
  | .binary left _ right _ => left.isPlain && right.isPlain
  | .ternary test consequent alternate _ =>
    test.isPlain && consequent.isPlain && alternate.isPlain
  | .coalesce optional fallback _ => optional.isPlain && fallback.isPlain
  | .call callee args _ => callee.isPlain && argumentsPlain args
  | .index collection index _ => collection.isPlain && index.isPlain
  | .member object _ _ _ => object.isPlain
  | .integer .. | .float .. | .boolean .. | .string .. | .identifier .. | .mine _ => true

def exprsPlain : List Expr → Bool
  | [] => true
  | e :: rest => e.isPlain && exprsPlain rest

def argumentsPlain : List Argument → Bool
  | [] => true
  | .mk _ value _ :: rest => value.isPlain && argumentsPlain rest

end

/-- An expression whose tokens are derived at its own level. -/
def Expr.Written (e : Expr) : Prop := Derives e.level false e.tokens e.bare

/-- Parentheses make an expression fit every level. -/
theorem Expr.Written.fit {e : Expr} (h : e.Written) (level : Level) :
    Derives level false (e.fit level e.tokens) e.bare := by
  unfold Expr.fit
  split
  next hlt =>
    have hgroup : Derives .atom false (sign .lparen :: (e.tokens ++ [sign .rparen])) e.bare :=
      .group rfl (h.loosen (Nat.zero_le _)) rfl
    exact hgroup.loosen (by cases level <;> decide)
  next hle => exact h.loosen (by omega)

theorem Expr.Written.whole {e : Expr} (h : e.Written) : Derives .ternary false e.tokens e.bare :=
  h.loosen (Nat.zero_le _)

theorem Expr.Written.binary {left right : Expr} (op : BinaryOp) (span : Span) (hl : left.Written)
    (hr : right.Written) : (Expr.binary left op right span).Written := by
  have hleft := hl.fit (opLevel op).left
  have hright := hr.fit (opLevel op).right
  show Derives (opLevel op) false _ _
  rw [Expr.tokens, Expr.bare]
  cases op with
  | pow => exact .power hleft rfl hright
  | _ => exact .chain rfl hleft rfl hright

/-! ### Parts of expressions -/

/-- An expression with its tokens. -/
def Expr.run (e : Expr) : Run := ⟨false, e.tokens, e.bare⟩

def Expr.fragment : Expr → Fragment
  | .string value _ => .text (placeless .string value)
  | e => .hole (placeless .interpStart "$\x7b") (placeless .interpEnd "\x7d") e.run

def Argument.value : Argument → Expr
  | .mk _ value _ => value

def Argument.labelled : Argument → Labelled
  | .mk name value _ => ⟨name.map fun n => (ident n, sign .colon), value.run⟩

section Lists

attribute [local simp] Expr.tokens exprTokens Expr.isPlain

theorem exprTokens_eq_map (es : List Expr) : exprTokens es = es.map Expr.tokens := by
  induction es with
  | nil => rfl
  | cons e rest ih => simp [ih]

end Lists

theorem partTokens_eq_flatMap (parts : List Expr) :
    partTokens parts = parts.flatMap fun e => e.fragment.tokens := by
  induction parts with
  | nil => rfl
  | cons e rest ih =>
    cases e with
    | string value span =>
      rw [partTokens, ih]
      rfl
    | _ =>
      rw [partTokens, ih, List.flatMap_cons]
      · simp [Expr.fragment, Fragment.tokens, Expr.run]
      · intro value span h
        cases h

theorem argumentTokens_eq_map (args : List Argument) :
    argumentTokens args = args.map fun a => a.labelled.tokens := by
  induction args with
  | nil => rfl
  | cons arg rest ih =>
    obtain ⟨name, value, span⟩ := arg
    cases name <;> rw [argumentTokens, ih] <;> rfl

theorem Expr.expr_fragment (e : Expr) : e.fragment.expr = e.bare := by
  cases e <;> rfl

theorem Expr.marked_fragment (e : Expr) : e.fragment.Marked := by
  cases e <;> first | rfl | exact ⟨rfl, rfl⟩

theorem Expr.run_fragment {e : Expr} {run : Run} (h : e.fragment.run? = some run) :
    run = e.run := by
  cases e <;> cases h <;> rfl

theorem Argument.argument_labelled (a : Argument) : a.labelled.argument = a.bare := by
  obtain ⟨name, value, span⟩ := a
  cases name <;> rfl

theorem Argument.labels_labelled (a : Argument) : a.labelled.Labels := by
  obtain ⟨name, value, span⟩ := a
  intro name' colon h
  cases name with
  | none => cases h
  | some name =>
    cases h
    exact ⟨rfl, rfl⟩

theorem Expr.written_list {es : List Expr} (span : Span) (h : ∀ e ∈ es, e.Written) :
    (Expr.list es span).Written := by
  have hlist := @Derives.list (sign .lbracket) (sign .rbracket) (commas (es.map Expr.tokens))
    (es.map Expr.run) rfl (List.forall_mem_map.2 fun e he => (h e he).whole)
    (by rw [List.map_map]; exact joined_commas _) rfl
  show Derives .atom false _ _
  rw [Expr.tokens, Expr.bare, exprTokens_eq_map, bareExprs_eq_map]
  rwa [List.map_map] at hlist

theorem Expr.written_interpolation {parts : List Expr} (span : Span)
    (h : ∀ e ∈ parts, e.Written) : (Expr.interpolation parts span).Written := by
  have hparts : ∀ p ∈ parts.map Expr.fragment, ∀ run, p.run? = some run →
      Derives .ternary run.isOpen run.tokens run.expr := by
    refine List.forall_mem_map.2 fun e he run hrun => ?_
    rw [e.run_fragment hrun]
    exact (h e he).whole
  have hstring := @Derives.interpolation (placeless .stringStart "\"") (placeless .stringEnd "\"")
    (parts.map Expr.fragment) rfl (List.forall_mem_map.2 fun e _ => e.marked_fragment) hparts rfl
  show Derives .atom false _ _
  have hexprs : (parts.map Expr.fragment).map Fragment.expr = parts.map Expr.bare := by
    rw [List.map_map]
    exact List.map_congr_left fun e _ => e.expr_fragment
  rw [Expr.tokens, Expr.bare, partTokens_eq_flatMap, bareExprs_eq_map]
  rwa [List.flatMap_map, hexprs] at hstring

theorem Expr.Written.call {callee : Expr} {args : List Argument} (span : Span)
    (hcallee : callee.Written) (h : ∀ a ∈ args, a.value.Written) :
    (Expr.call callee args span).Written := by
  have hargs : ∀ a ∈ args.map Argument.labelled,
      Derives .ternary a.run.isOpen a.run.tokens a.run.expr := by
    refine List.forall_mem_map.2 fun a ha => ?_
    obtain ⟨name, value, span⟩ := a
    exact (h _ ha).whole
  have hcall := @Derives.call _ _ (commas ((args.map Argument.labelled).map Labelled.tokens))
    (sign .lparen) (sign .rparen) (args.map Argument.labelled) _ (hcallee.fit .primary) rfl
    (List.forall_mem_map.2 fun a _ => a.labels_labelled) hargs (joined_commas _) rfl
  have harguments :
      (args.map Argument.labelled).map Labelled.argument = args.map Argument.bare := by
    rw [List.map_map]
    exact List.map_congr_left fun a _ => a.argument_labelled
  show Derives .primary false _ _
  rw [Expr.tokens, Expr.bare, argumentTokens_eq_map, bareArguments_eq_map]
  rwa [harguments, List.map_map] at hcall

/-! ### All expressions -/

theorem Expr.Written.unary {operand : Expr} (op : UnaryOp) (span : Span) (h : operand.Written) :
    (Expr.unary op operand span).Written := by
  have hop : unaryOp? (unarySign op).kind = some op := by cases op <;> rfl
  show Derives .unary false _ _
  rw [Expr.tokens, Expr.bare]
  exact .unary hop (h.fit .unary)

theorem Expr.Written.member {object : Expr} (access : Access) (name : String) (span : Span)
    (h : object.Written) : (Expr.member object access name span).Written := by
  have haccess : access? (accessSign access) = some access := by cases access <;> rfl
  show Derives .primary false _ _
  rw [Expr.tokens, Expr.bare]
  exact .member haccess (h.fit .primary) rfl rfl

theorem Expr.written_naught {type : TypeExpr} (span : Span) (h : type.isPlain = true) :
    (Expr.naught type span).Written := by
  have hnaught : Derives .ternary true (word .naught :: type.tokens) (.naught type.bare .nowhere) :=
    (Derives.naught rfl (type.derives_tokens h)).loosen (Nat.zero_le _)
  show Derives .atom false _ _
  rw [Expr.tokens, Expr.bare]
  exact .group rfl hnaught rfl

mutual

/-- Printed expressions are derived by the grammar. -/
theorem Expr.written (e : Expr) (h : e.isPlain = true) : e.Written := by
  match e with
  | .integer text _ | .float text _ | .string text _ | .identifier text _ => exact .token rfl
  | .boolean value _ =>
    refine .token ?_
    cases value <;> rfl
  | .mine _ => exact .token rfl
  | .interpolation parts span => exact Expr.written_interpolation span (written_exprs parts h)
  | .naught type span => exact Expr.written_naught span h
  | .list elements span => exact Expr.written_list span (written_exprs elements h)
  | .unary op operand span => exact (operand.written h).unary op span
  | .binary left op right span =>
    obtain ⟨hleft, hright⟩ := Bool.and_eq_true_iff.1 h
    exact (left.written hleft).binary op span (right.written hright)
  | .ternary test consequent alternate span =>
    obtain ⟨h, halternate⟩ := Bool.and_eq_true_iff.1 h
    obtain ⟨htest, hconsequent⟩ := Bool.and_eq_true_iff.1 h
    exact .ternary ((test.written htest).fit .coalesce) rfl (consequent.written hconsequent).whole
      rfl (alternate.written halternate).whole
  | .coalesce optional fallback span =>
    obtain ⟨hoptional, hfallback⟩ := Bool.and_eq_true_iff.1 h
    exact .coalesce ((optional.written hoptional).fit .or) rfl
      ((fallback.written hfallback).fit .coalesce)
  | .call callee args span =>
    obtain ⟨hcallee, hargs⟩ := Bool.and_eq_true_iff.1 h
    exact (callee.written hcallee).call span (written_arguments args hargs)
  | .index collection index span =>
    obtain ⟨hcollection, hindex⟩ := Bool.and_eq_true_iff.1 h
    have hfit := (collection.written hcollection).fit .primary
    exact .index hfit rfl (index.written hindex).whole rfl
  | .member object access name span => exact (object.written h).member access name span

theorem written_exprs (es : List Expr) (h : exprsPlain es = true) : ∀ e ∈ es, e.Written := by
  match es with
  | [] => nofun
  | e :: rest =>
    obtain ⟨he, hrest⟩ := Bool.and_eq_true_iff.1 h
    exact List.forall_mem_cons.2 ⟨e.written he, written_exprs rest hrest⟩

theorem written_arguments (args : List Argument) (h : argumentsPlain args = true) :
    ∀ a ∈ args, a.value.Written := by
  match args with
  | [] => nofun
  | .mk name value span :: rest =>
    obtain ⟨hvalue, hrest⟩ := Bool.and_eq_true_iff.1 h
    exact List.forall_mem_cons.2 ⟨value.written hvalue, written_arguments rest hrest⟩

end

/-! ### Statements -/

/-- A name with its type. -/
def typedTokens (name : String) (type : TypeExpr) : List Token :=
  ident name :: sign .colon :: type.tokens

def Param.tokens (p : Param) : List Token := typedTokens p.name p.type

def FieldDef.tokens (f : FieldDef) : List Token := typedTokens f.name f.type

def paramTokens (ps : List Param) : List Token :=
  sign .lparen :: (commas (ps.map Param.tokens) ++ [sign .rparen])

/-- The result of a function behind its arrow, if it has one. -/
def resultTokens : Option TypeExpr → List Token
  | none => []
  | some type => sign .arrow :: type.tokens

/-- Tokens in braces. -/
def braced (ts : List Token) : List Token := sign .lbrace :: (ts ++ [sign .rbrace])

def rangeSign : RangeKind → Operator
  | .closed => .ellipsis
  | .halfOpen => .dotDotLess

mutual

def Stmt.tokens : Stmt → List Token
  | .declare mutable name type value _ =>
    word (if mutable then .thine else .fact) ::
      (typedTokens name type ++ sign .assign :: (value.tokens ++ [sign .semicolon]))
  | .function definition => definition.tokens
  | .matter name fields _ =>
    word .matter :: ident name :: sign .lbrace ::
      (commas (fields.map FieldDef.tokens) ++ [sign .rbrace])
  | .guild name fields forge methods _ =>
    word .guild :: ident name :: sign .lbrace ::
      (fields.flatMap (fun f => f.tokens ++ [sign .semicolon]) ++
        (forgeTokens forge ++ (methodTokens methods ++ [sign .rbrace])))
  | .print value _ => word .proclaim :: (value.tokens ++ [sign .semicolon])
  | .assign target value _ =>
    target.tokens ++ sign .assign :: (value.tokens ++ [sign .semicolon])
  | .increment target _ => target.tokens ++ [sign .plusPlus, sign .semicolon]
  | .decrement target _ => target.tokens ++ [sign .minusMinus, sign .semicolon]
  | .return_ none _ => [word .return_, sign .semicolon]
  | .return_ (some value) _ => word .return_ :: (value.tokens ++ [sign .semicolon])
  | .branch test body alternate _ =>
    word .perchance :: (test.tokens ++ (braced (stmtTokens body) ++ alternate.tokens))
  | .while_ test body _ => word .whilst :: (test.tokens ++ braced (stmtTokens body))
  | .repeat_ count body _ => word .repeateth :: (count.tokens ++ braced (stmtTokens body))
  | .range iterator low kind high body _ =>
    word .fortill :: ident iterator :: word .in_ ::
      (low.tokens ++ sign (rangeSign kind) :: (high.tokens ++ braced (stmtTokens body)))
  | .forEach iterator collection body _ =>
    word .fortill :: ident iterator :: word .in_ :: (collection.tokens ++ braced (stmtTokens body))
  | .break_ _ => [word .breaketh, sign .semicolon]
  | .call callee args callSpan _ => (Expr.call callee args callSpan).tokens ++ [sign .semicolon]

def stmtTokens : List Stmt → List Token
  | [] => []
  | s :: rest => s.tokens ++ stmtTokens rest

def FunctionDef.tokens : FunctionDef → List Token
  | .mk name params result body _ =>
    word .don :: ident name ::
      (paramTokens params ++ (resultTokens result ++ braced (stmtTokens body)))

def methodTokens : List FunctionDef → List Token
  | [] => []
  | m :: rest => m.tokens ++ methodTokens rest

def forgeTokens : Option Forge → List Token
  | none => []
  | some forge => forge.tokens

def Forge.tokens : Forge → List Token
  | .mk params body _ => word .forge :: (paramTokens params ++ braced (stmtTokens body))

def Alternate.tokens : Alternate → List Token
  | .none => []
  | .block body => word .else_ :: braced (stmtTokens body)
  | .chain test body alternate _ =>
    word .else_ :: word .perchance ::
      (test.tokens ++ (braced (stmtTokens body) ++ alternate.tokens))

end

/-! ### Plain programs -/

mutual

def Stmt.isPlain : Stmt → Bool
  | .declare _ _ type value _ => type.isPlain && value.isPlain
  | .function definition => definition.isPlain
  | .matter _ fields _ => fields.all (·.type.isPlain)
  | .guild _ fields forge methods _ =>
    fields.all (·.type.isPlain) && forgePlain forge && methodsPlain methods
  | .print value _ | .increment value _ | .decrement value _ => value.isPlain
  | .assign target value _ => target.isPlain && value.isPlain
  | .return_ value _ => value.all (·.isPlain)
  | .branch test body alternate _ => test.isPlain && blockPlain body && alternate.isPlain
  | .while_ test body _ | .repeat_ test body _ => test.isPlain && blockPlain body
  | .range _ low _ high body _ => low.isPlain && high.isPlain && blockPlain body
  | .forEach _ collection body _ => collection.isPlain && blockPlain body
  | .break_ _ => true
  | .call callee args _ _ => callee.isPlain && argumentsPlain args

def blockPlain : List Stmt → Bool
  | [] => true
  | s :: rest => s.isPlain && blockPlain rest

def FunctionDef.isPlain : FunctionDef → Bool
  | .mk _ params result body _ =>
    params.all (·.type.isPlain) && result.all (·.isPlain) && blockPlain body

def methodsPlain : List FunctionDef → Bool
  | [] => true
  | m :: rest => m.isPlain && methodsPlain rest

def forgePlain : Option Forge → Bool
  | none => true
  | some forge => forge.isPlain

def Forge.isPlain : Forge → Bool
  | .mk params body _ => params.all (·.type.isPlain) && blockPlain body

def Alternate.isPlain : Alternate → Bool
  | .none => true
  | .block body => blockPlain body
  | .chain test body alternate _ => test.isPlain && blockPlain body && alternate.isPlain

end

/-- The tokens of a program. -/
def Program.tokens (p : Program) : List Token := stmtTokens p.statements

/-- A program in whose types no optional is directly around a function. -/
def Program.isPlain (p : Program) : Bool := blockPlain p.statements

end Dragon.Tree
