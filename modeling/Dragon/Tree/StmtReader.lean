import Dragon.Tree.ExprReader

/-!
# Reading statements

A block runs from brace to brace, and a statement that ends with a block ends at its closing brace.
-/
namespace Dragon.Tree

/-! ### Parts of definitions -/

/-- A name, a colon and a type. -/
def readTyped (eof : Token) (ts : List Token) : Parsed (Taken (Token × TypeExpr)) := do
  let (name, ts) ← expect eof .identifier ts
  let (_, ts) ← expect eof (.operator .colon) ts
  let (type, ts) ← TypeExpr.read eof ts
  pure ((name, type), ts)

def Param.read (eof : Token) (ts : List Token) : Parsed (Taken Param) := do
  let ((name, type), ts) ← readTyped eof ts
  pure (⟨name.value, type, name.span.through type.span⟩, ts)

def FieldDef.read (eof : Token) (ts : List Token) : Parsed (Taken FieldDef) := do
  let ((name, type), ts) ← readTyped eof ts
  pure (⟨name.value, type, name.span.through type.span⟩, ts)

/-- Parameters in parentheses. -/
def readParams (eof : Token) (ts : List Token) : Parsed (Taken (List Param)) := do
  let (_, ts) ← expect eof (.operator .lparen) ts
  let (params, ts) ← separated eof (.operator .rparen) (Param.read eof) ts
  let (_, ts) ← expect eof (.operator .rparen) ts
  pure (params, ts)

/-- A field of a matter. A comma follows it unless the matter ends. -/
def readMatterField (eof : Token) (ts : List Token) : Parsed (Taken FieldDef) := do
  let (field, ts) ← FieldDef.read eof ts
  if starts (.operator .rbrace) ts then pure (field, ts)
  else do
    let (_, ts) ← expect eof (.operator .comma) ts
    pure (field, ts)

/-- A block of statements and its closing brace. -/
def readBlock (eof : Token) (statement : List Token → Parsed (Taken Stmt)) (ts : List Token) :
    Parsed (Taken (List Stmt × Span)) := do
  let (_, ts) ← expect eof (.operator .lbrace) ts
  let (body, ts) ← items eof (.operator .rbrace) statement (ts.length + 1) ts
  let (stop, ts) ← expect eof (.operator .rbrace) ts
  pure ((body, stop.span), ts)

/-- A function or a method from its keyword. -/
def FunctionDef.read (eof : Token) (statement : List Token → Parsed (Taken Stmt))
    (ts : List Token) : Parsed (Taken FunctionDef) := do
  let (start, ts) ← expect eof (.keyword .don) ts
  let (name, ts) ← expect eof .identifier ts
  let (params, ts) ← readParams eof ts
  let (result, ts) ← show Parsed (Taken (Option TypeExpr)) from
    if starts (.operator .arrow) ts then do
      let (type, ts) ← TypeExpr.read eof ts.tail
      pure (some type, ts)
    else .ok (none, ts)
  let ((body, stop), ts) ← readBlock eof statement ts
  pure (.mk name.value params result body (start.span.through stop), ts)

/-- The members of a guild, in the order of their kinds. -/
structure GuildBody where
  fields : List FieldDef
  forge : Option Forge
  methods : List FunctionDef

/-- Takes the members of a guild up to its closing brace. A guild has at most one forge. -/
def readMembers (eof : Token) (statement : List Token → Parsed (Taken Stmt)) (guild : String) :
    (fuel : Nat) → Option Forge → List Token → Parsed (Taken GuildBody)
  | 0, _, ts => faultAt eof ts .exhausted
  | fuel + 1, forge, ts =>
    let t := next eof ts
    if ts.isEmpty || starts (.operator .rbrace) ts then .ok (⟨[], forge, []⟩, ts)
    else if t.kind = .keyword .forge then do
      if forge.isSome then .error ⟨.secondForge guild, t.span⟩
      let (params, ts) ← readParams eof ts.tail
      let ((body, stop), ts) ← readBlock eof statement ts
      readMembers eof statement guild fuel (some (.mk params body (t.span.through stop))) ts
    else if t.kind = .keyword .don then do
      let (method, ts) ← FunctionDef.read eof statement ts
      let (others, ts) ← readMembers eof statement guild fuel forge ts
      pure (⟨others.fields, others.forge, method :: others.methods⟩, ts)
    else do
      let (field, ts) ← FieldDef.read eof ts
      let (_, ts) ← expect eof (.operator .semicolon) ts
      let (others, ts) ← readMembers eof statement guild fuel forge ts
      pure (⟨field :: others.fields, others.forge, others.methods⟩, ts)

/-! ### Statements -/

namespace Stmt

/-- Ends a statement that runs from `start` to a semicolon. -/
def finish (eof : Token) (start : Span) (build : Span → Stmt) (ts : List Token) :
    Parsed (Taken Stmt) := do
  let (stop, ts) ← expect eof (.operator .semicolon) ts
  pure (build (start.through stop.span), ts)

/-- A variable or a constant from its keyword. -/
def readDeclare (eof : Token) (mutable : Bool) (start : Span) (ts : List Token) :
    Parsed (Taken Stmt) := do
  let ((name, type), ts) ← readTyped eof ts
  let (_, ts) ← expect eof (.operator .assign) ts
  let (value, ts) ← Expr.read eof ts
  finish eof start (.declare mutable name.value type value) ts

def readMatter (eof : Token) (start : Span) (ts : List Token) : Parsed (Taken Stmt) := do
  let (name, ts) ← expect eof .identifier ts
  let (_, ts) ← expect eof (.operator .lbrace) ts
  let (fields, ts) ← items eof (.operator .rbrace) (readMatterField eof) (ts.length + 1) ts
  let (stop, ts) ← expect eof (.operator .rbrace) ts
  pure (.matter name.value fields (start.through stop.span), ts)

def readGuild (eof : Token) (statement : List Token → Parsed (Taken Stmt)) (start : Span)
    (ts : List Token) : Parsed (Taken Stmt) := do
  let (name, ts) ← expect eof .identifier ts
  let (_, ts) ← expect eof (.operator .lbrace) ts
  let (body, ts) ← readMembers eof statement name.value (ts.length + 1) none ts
  let (stop, ts) ← expect eof (.operator .rbrace) ts
  pure (.guild name.value body.fields body.forge body.methods (start.through stop.span), ts)

/-- An assignment, an increment or decrement, or a call. -/
def readSimple (eof : Token) (ts : List Token) : Parsed (Taken Stmt) := do
  let start := next eof ts
  let (target, ts) ← Expr.read eof ts
  let t := next eof ts
  match t.kind with
  | .operator .assign => do
    let (value, ts) ← Expr.read eof ts.tail
    finish eof start.span (.assign target value) ts
  | .operator .plusPlus => finish eof start.span (.increment target) ts.tail
  | .operator .minusMinus => finish eof start.span (.decrement target) ts.tail
  | _ =>
    match target with
    | .call callee args span => finish eof start.span (.call callee args span) ts
    | _ => .error ⟨.statementExpected, start.span⟩

/-- A loop over a range or over a list, from its keyword. -/
def readFor (eof : Token) (statement : List Token → Parsed (Taken Stmt)) (start : Span)
    (ts : List Token) : Parsed (Taken Stmt) := do
  let (iterator, ts) ← expect eof .identifier ts
  let (_, ts) ← expect eof (.keyword .in_) ts
  let (first, ts) ← Expr.read eof ts
  let ranged (kind : RangeKind) : Parsed (Taken Stmt) := do
    let (high, ts) ← Expr.read eof ts.tail
    let ((body, stop), ts) ← readBlock eof statement ts
    pure (.range iterator.value first kind high body (start.through stop), ts)
  if starts (.operator .ellipsis) ts then ranged .closed
  else if starts (.operator .dotDotLess) ts then ranged .halfOpen
  else do
    let ((body, stop), ts) ← readBlock eof statement ts
    pure (.forEach iterator.value first body (start.through stop), ts)

mutual

/-- Reads a statement with nesting bounded by `fuel`. -/
def readWith (eof : Token) : (fuel : Nat) → List Token → Parsed (Taken Stmt)
  | 0, ts => faultAt eof ts .exhausted
  | fuel + 1, ts =>
    let t := next eof ts
    match t.kind with
    | .keyword .thine => readDeclare eof true t.span ts.tail
    | .keyword .fact => readDeclare eof false t.span ts.tail
    | .keyword .don => do
      let (definition, ts) ← FunctionDef.read eof (readWith eof fuel) ts
      pure (.function definition, ts)
    | .keyword .matter => readMatter eof t.span ts.tail
    | .keyword .guild => readGuild eof (readWith eof fuel) t.span ts.tail
    | .keyword .proclaim => do
      let (value, ts) ← Expr.read eof ts.tail
      finish eof t.span (.print value) ts
    | .keyword .return_ =>
      if starts (.operator .semicolon) ts.tail then finish eof t.span (.return_ none) ts.tail
      else do
        let (value, ts) ← Expr.read eof ts.tail
        finish eof t.span (.return_ (some value)) ts
    | .keyword .perchance => do
      let ((test, body, alternate, stop), ts) ← readBranch eof fuel ts.tail
      pure (.branch test body alternate (t.span.through stop), ts)
    | .keyword .whilst => do
      let (test, ts) ← Expr.read eof ts.tail
      let ((body, stop), ts) ← readBlock eof (readWith eof fuel) ts
      pure (.while_ test body (t.span.through stop), ts)
    | .keyword .repeateth => do
      let (count, ts) ← Expr.read eof ts.tail
      let ((body, stop), ts) ← readBlock eof (readWith eof fuel) ts
      pure (.repeat_ count body (t.span.through stop), ts)
    | .keyword .fortill => readFor eof (readWith eof fuel) t.span ts.tail
    | .keyword .breaketh => finish eof t.span .break_ ts.tail
    | _ => readSimple eof ts

/-- Reads the test, the body and the alternate of an `if`, with the end of the last block. -/
def readBranch (eof : Token) :
    (fuel : Nat) → List Token → Parsed (Taken (Expr × List Stmt × Alternate × Span))
  | 0, ts => faultAt eof ts .exhausted
  | fuel + 1, ts => do
    let (test, ts) ← Expr.read eof ts
    let ((body, stop), ts) ← readBlock eof (readWith eof fuel) ts
    if starts (.keyword .else_) ts then
      let rest := ts.tail
      let t := next eof rest
      if t.kind = .keyword .perchance then do
        let ((test', body', alternate, stop), ts) ← readBranch eof fuel rest.tail
        pure ((test, body, .chain test' body' alternate (t.span.through stop), stop), ts)
      else do
        let ((alternate, stop), ts) ← readBlock eof (readWith eof fuel) rest
        pure ((test, body, .block alternate, stop), ts)
    else pure ((test, body, .none, stop), ts)

end

end Stmt

/-- Reads a whole program. Its span starts with the source text, whatever stands there. -/
def Program.read (file : String) (stream : TokenStream) : Except SyntaxFault Program := do
  let n := stream.tokens.length
  let (statements, _) ←
    items stream.eof .eof (Stmt.readWith stream.eof (n + 1)) (n + 1) stream.tokens
  pure ⟨statements, ⟨file, .origin, stream.eof.span.stop⟩⟩

end Dragon.Tree
