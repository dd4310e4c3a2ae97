import Dragon.Script.Text

/-!
# The text of a script in pieces

Names stand apart from the text around them, and are told from each other by whether they are
declared or used; the borders of functions, classes, loops and blocks are marked where the text
opens and closes them. Put together, the pieces are the text.
-/
namespace Dragon.Script

inductive Piece where
  | text (s : String)
  | declares (n : Name)
  | uses (n : Name)
  /-- The beginning of a scope. -/
  | enter
  /-- The end of a scope. -/
  | leave
  deriving DecidableEq, Repr

def Piece.written : Piece → String
  | text s => s
  | declares n | uses n => n.text
  | enter | leave => ""

def written : List Piece → String
  | [] => ""
  | p :: rest => p.written ++ written rest

attribute [simp] Piece.written written

@[simp] theorem written_append (ps qs : List Piece) :
    written (ps ++ qs) = written ps ++ written qs := by
  induction ps with
  | nil => exact String.empty_append.symm
  | cons p rest ih =>
    show p.written ++ written (rest ++ qs) = p.written ++ written rest ++ written qs
    rw [ih, String.append_assoc]

/-- Runs of pieces with a text between them. -/
def joined (separator : String) (runs : List (List Piece)) : List Piece :=
  [Piece.text separator].intercalate runs

theorem written_joined (separator : String) (runs : List (List Piece)) :
    written (joined separator runs) = separator.intercalate (runs.map written) := by
  unfold joined
  induction runs with
  | nil => simp
  | cons run rest ih =>
    cases rest with
    | nil => simp
    | cons next rest =>
      rw [List.intercalate_cons_cons, written_append, written_append, ih]
      simp [String.intercalate_cons_cons]

theorem written_separated (runs : List (List Piece)) :
    written (joined ", " runs) = separated (runs.map written) :=
  written_joined ", " runs

/-! ### Expressions -/

mutual

def Expr.pieces : Expr → List Piece
  | .name n => [.uses n]
  | .builtin text => [.text text]
  | .this => [.text "this"]
  | .null => [.text "null"]
  | .int n => [.text (Typed.intText n)]
  | .float x => [.text (floatLayout.float x)]
  | .bool b => [.text (if b then "true" else "false")]
  | .string s => [.text (stringLiteral s)]
  | .template parts => .text "\x60" :: (partPieces parts ++ [.text "\x60"])
  | .group e => .text "(" :: (e.pieces ++ [.text ")"])
  | .not operand => .text "!" :: operand.pieces
  | .minus operand => .text "-" :: operand.pieces
  | .binary symbol left right =>
    left.pieces ++ .text " " :: .text symbol :: .text " " :: right.pieces
  | .ternary test consequent alternate =>
    test.pieces ++ .text " ? " :: (consequent.pieces ++ .text " : " :: alternate.pieces)
  | .list elements => .text "[" :: (joined ", " (exprPieces elements) ++ [.text "]"])
  | .subscript collection index =>
    collection.pieces ++ .text "[" :: (index.pieces ++ [.text "]"])
  | .member object access name => object.pieces ++ [.text access, .text name]
  | .call callee args =>
    callee.pieces ++ .text "(" :: (joined ", " (exprPieces args) ++ [.text ")"])
  | .construct type args =>
    .text "new " :: .uses type :: .text "(" :: (joined ", " (exprPieces args) ++ [.text ")"])
  | .encode args =>
    .text "[...new TextEncoder().encode(" :: (joined ", " (exprPieces args) ++ [.text ")]"])
  | .encoder => [.text "(s) => [...new TextEncoder().encode(s)]"]

def exprPieces : List Expr → List (List Piece)
  | [] => []
  | e :: rest => e.pieces :: exprPieces rest

def partPieces : List Part → List Piece
  | [] => []
  | .text s :: rest => .text (String.ofList (escapeTemplate s.toList)) :: partPieces rest
  | .hole e :: rest => .text "$\x7b" :: (e.pieces ++ .text "\x7d" :: partPieces rest)

end

mutual

/-- The pieces of an expression are its text. -/
theorem Expr.written_pieces (e : Expr) : written e.pieces = e.text := by
  cases e with
  | template parts =>
    show _ = "\x60" ++ partTexts parts ++ "\x60"
    simp [Expr.pieces, written_partPieces parts, String.append_assoc]
  | group e =>
    show _ = "(" ++ e.text ++ ")"
    simp [Expr.pieces, e.written_pieces, String.append_assoc]
  | not e =>
    show _ = "!" ++ e.text
    simp [Expr.pieces, e.written_pieces]
  | minus e =>
    show _ = "-" ++ e.text
    simp [Expr.pieces, e.written_pieces]
  | binary symbol l r =>
    show _ = l.text ++ " " ++ symbol ++ " " ++ r.text
    simp [Expr.pieces, l.written_pieces, r.written_pieces, String.append_assoc]
  | ternary test c a =>
    show _ = test.text ++ " ? " ++ c.text ++ " : " ++ a.text
    simp [Expr.pieces, test.written_pieces, c.written_pieces, a.written_pieces,
      String.append_assoc]
  | list elements =>
    show _ = "[" ++ separated (exprTexts elements) ++ "]"
    simp [Expr.pieces, written_separated, map_written_exprPieces elements, String.append_assoc]
  | subscript c i =>
    show _ = c.text ++ "[" ++ i.text ++ "]"
    simp [Expr.pieces, c.written_pieces, i.written_pieces, String.append_assoc]
  | member o access name =>
    show _ = o.text ++ access ++ name
    simp [Expr.pieces, o.written_pieces, String.append_assoc]
  | call callee args =>
    show _ = callee.text ++ "(" ++ separated (exprTexts args) ++ ")"
    simp [Expr.pieces, callee.written_pieces, written_separated, map_written_exprPieces args,
      String.append_assoc]
  | construct type args =>
    show _ = "new " ++ type.text ++ "(" ++ separated (exprTexts args) ++ ")"
    simp [Expr.pieces, written_separated, map_written_exprPieces args, String.append_assoc]
  | encode args =>
    show _ = "[...new TextEncoder().encode(" ++ separated (exprTexts args) ++ ")]"
    simp [Expr.pieces, written_separated, map_written_exprPieces args, String.append_assoc]
  | _ =>
    exact String.append_empty

theorem map_written_exprPieces (es : List Expr) :
    (exprPieces es).map written = exprTexts es := by
  match es with
  | [] => rfl
  | e :: rest => simp [exprPieces, exprTexts, e.written_pieces, map_written_exprPieces rest]

theorem written_partPieces (parts : List Part) : written (partPieces parts) = partTexts parts := by
  match parts with
  | [] => rfl
  | .text s :: rest => simp [partPieces, partTexts, written_partPieces rest]
  | .hole e :: rest =>
    simp [partPieces, partTexts, e.written_pieces, written_partPieces rest, String.append_assoc]

end

/-! ### Statements -/

def linePieces (depth : Nat) (ps : List Piece) : List Piece :=
  .text (String.ofList (List.replicate (4 * depth) ' ')) :: ps

@[simp] theorem written_linePieces (depth : Nat) (ps : List Piece) :
    written (linePieces depth ps) = line depth (written ps) := rfl

/-- Parameters belong to the scope that is entered with them. -/
def paramPieces (params : List Name) : List Piece :=
  .enter :: .text "(" :: (joined ", " (params.map fun n => [.declares n]) ++ [.text ")"])

theorem written_paramPieces (params : List Name) :
    written (paramPieces params) = paramsText params := by
  have hnames : (params.map fun n => [Piece.declares n]).map written = params.map Name.text := by
    simp [Function.comp_def]
  simp [paramPieces, paramsText, written_separated, hnames, String.append_assoc]

/-- The header of a loop belongs to a scope around its body. -/
def countPieces (index : Name) (limit : Option Name) (count : Expr) : List Piece :=
  match limit with
  | none =>
    .enter :: .text "for (let " :: .declares index :: .text " = 0; " :: .uses index ::
      .text " < " :: (count.pieces ++
        [.text "; ", .uses index, .text "++) \x7b", .enter])
  | some n =>
    .enter :: .text "for (let " :: .declares index :: .text " = 0, " :: .declares n ::
      .text " = " :: (count.pieces ++
        [.text "; ", .uses index, .text " < ", .uses n, .text "; ", .uses index,
          .text "++) \x7b", .enter])

theorem written_countPieces (index : Name) (limit : Option Name) (count : Expr) :
    written (countPieces index limit count) = countHeader index limit count := by
  unfold countPieces countHeader
  cases limit <;> simp [count.written_pieces, String.append_assoc]

def relationText : RangeKind → String
  | .closed => " <= "
  | .halfOpen => " < "

def rangePieces (iterator : Name) (low : Expr) (kind : RangeKind) (high : Expr) : List Piece :=
  .enter :: .text "for (let " :: .declares iterator :: .text " = " :: (low.pieces ++
    .text "; " :: .uses iterator :: .text (relationText kind) :: (high.pieces ++
      [.text "; ", .uses iterator, .text "++) \x7b", .enter]))

theorem written_rangePieces (iterator : Name) (low : Expr) (kind : RangeKind) (high : Expr) :
    written (rangePieces iterator low kind high) = rangeHeader iterator low kind high := by
  unfold rangePieces rangeHeader relationText
  cases kind <;> simp [low.written_pieces, high.written_pieces, String.append_assoc]

def eachPieces (iterator : Name) (collection : Expr) : List Piece :=
  .enter :: .text "for (const " :: .declares iterator :: .text " of " ::
    (collection.pieces ++ [.text ") \x7b", .enter])

def settingPieces (depth : Nat) (s : Setting) : List Piece :=
  linePieces depth
    (.text "this." :: .text s.field :: .text " = " :: (s.value.pieces ++ [.text ";"]))

theorem written_settingPieces (depth : Nat) (s : Setting) :
    written (settingPieces depth s) = settingLine depth s := by
  simp [settingPieces, settingLine, s.value.written_pieces, String.append_assoc]

mutual

/-- The lines of a statement. -/
def Stmt.pieces (depth : Nat) : Stmt → List (List Piece)
  | .declare mutable name init =>
    let keyword := if mutable then "let " else "const "
    [linePieces depth (.text keyword :: .declares name :: .text " = " ::
      (init.pieces ++ [.text ";"]))]
  | .function name params body =>
    linePieces depth (.text "function " :: .declares name ::
      (paramPieces params ++ [.text " \x7b"])) ::
      blockPieces (depth + 1) body ++ [linePieces depth [.text "\x7d", .leave]]
  | .type name params settings methods =>
    linePieces depth [.text "class ", .declares name, .text " \x7b", .enter] ::
      linePieces (depth + 1) (.text "constructor" :: (paramPieces params ++ [.text " \x7b"])) ::
      settings.map (settingPieces (depth + 2)) ++ linePieces (depth + 1) [.text "\x7d", .leave] ::
      methodPieces (depth + 1) methods ++ [linePieces depth [.text "\x7d", .leave]]
  | .log e => [linePieces depth (.text "console.log(" :: (e.pieces ++ [.text ");"]))]
  | .increment target => [linePieces depth (target.pieces ++ [.text "++;"])]
  | .decrement target => [linePieces depth (target.pieces ++ [.text "--;"])]
  | .assign target source =>
    [linePieces depth (target.pieces ++ .text " = " :: (source.pieces ++ [.text ";"]))]
  | .return_ none => [linePieces depth [.text "return;"]]
  | .return_ (some e) => [linePieces depth (.text "return " :: (e.pieces ++ [.text ";"]))]
  | .branch test body alternate =>
    linePieces depth (.text "if (" :: (test.pieces ++ [.text ") \x7b", .enter])) ::
      blockPieces (depth + 1) body ++ alternatePieces depth alternate
  | .while_ test body =>
    linePieces depth (.text "while (" :: (test.pieces ++ [.text ") \x7b", .enter])) ::
      blockPieces (depth + 1) body ++ [linePieces depth [.text "\x7d", .leave]]
  | .repeat_ index limit count body =>
    linePieces depth (countPieces index limit count) ::
      blockPieces (depth + 1) body ++ [linePieces depth [.text "\x7d", .leave, .leave]]
  | .range iterator low kind high body =>
    linePieces depth (rangePieces iterator low kind high) ::
      blockPieces (depth + 1) body ++ [linePieces depth [.text "\x7d", .leave, .leave]]
  | .forEach iterator collection body =>
    linePieces depth (eachPieces iterator collection) ::
      blockPieces (depth + 1) body ++ [linePieces depth [.text "\x7d", .leave, .leave]]
  | .break_ => [linePieces depth [.text "break;"]]
  | .expr e => [linePieces depth (e.pieces ++ [.text ";"])]

def blockPieces (depth : Nat) : List Stmt → List (List Piece)
  | [] => []
  | s :: rest => s.pieces depth ++ blockPieces depth rest

def methodPieces (depth : Nat) : List Method → List (List Piece)
  | [] => []
  | .mk name params body :: rest =>
    linePieces depth (.text name :: (paramPieces params ++ [.text " \x7b"])) ::
      blockPieces (depth + 1) body ++ linePieces depth [.text "\x7d", .leave] ::
      methodPieces depth rest

/-- The lines from the closing brace of a branch on. -/
def alternatePieces (depth : Nat) : Alternate → List (List Piece)
  | .none => [linePieces depth [.text "\x7d", .leave]]
  | .block body =>
    linePieces depth [.leave, .text "\x7d else \x7b", .enter] ::
      blockPieces (depth + 1) body ++ [linePieces depth [.text "\x7d", .leave]]
  | .chain test body alternate =>
    linePieces depth (.leave :: .text "\x7d else if (" :: (test.pieces ++
      [.text ") \x7b", .enter])) ::
      blockPieces (depth + 1) body ++ alternatePieces depth alternate

end

mutual

/-- The pieces of a statement are its lines. -/
theorem Stmt.map_written_pieces (depth : Nat) (s : Stmt) :
    (s.pieces depth).map written = s.lines depth := by
  match s with
  | .function name params body =>
    simp [Stmt.pieces, Stmt.lines, written_paramPieces, map_written_blockPieces _ body,
      String.append_assoc]
  | .type name params settings methods =>
    have hsettings : settings.map (written ∘ settingPieces (depth + 2)) =
        settings.map (settingLine (depth + 2)) :=
      List.map_congr_left fun s _ => written_settingPieces _ s
    simp [Stmt.pieces, Stmt.lines, written_paramPieces, map_written_methodPieces _ methods,
      hsettings, String.append_assoc]
  | .declare _ _ e | .log e | .increment e | .decrement e | .expr e | .return_ (some e) =>
    simp [Stmt.pieces, Stmt.lines, e.written_pieces, String.append_assoc]
  | .assign target source =>
    simp [Stmt.pieces, Stmt.lines, target.written_pieces, source.written_pieces,
      String.append_assoc]
  | .return_ none | .break_ => simp [Stmt.pieces, Stmt.lines]
  | .branch test body alternate =>
    simp [Stmt.pieces, Stmt.lines, test.written_pieces, map_written_blockPieces _ body,
      map_written_alternatePieces depth alternate, String.append_assoc]
  | .while_ test body =>
    simp [Stmt.pieces, Stmt.lines, test.written_pieces, map_written_blockPieces _ body,
      String.append_assoc]
  | .repeat_ index limit count body =>
    simp [Stmt.pieces, Stmt.lines, written_countPieces, map_written_blockPieces _ body]
  | .range iterator low kind high body =>
    simp [Stmt.pieces, Stmt.lines, written_rangePieces, map_written_blockPieces _ body]
  | .forEach iterator collection body =>
    simp [Stmt.pieces, Stmt.lines, eachPieces, collection.written_pieces,
      map_written_blockPieces _ body, String.append_assoc]

theorem map_written_blockPieces (depth : Nat) (ss : List Stmt) :
    (blockPieces depth ss).map written = blockLines depth ss := by
  match ss with
  | [] => rfl
  | s :: rest =>
    simp [blockPieces, blockLines, s.map_written_pieces depth, map_written_blockPieces depth rest]

theorem map_written_methodPieces (depth : Nat) (ms : List Method) :
    (methodPieces depth ms).map written = methodLines depth ms := by
  match ms with
  | [] => rfl
  | .mk name params body :: rest =>
    simp [methodPieces, methodLines, written_paramPieces, map_written_blockPieces _ body,
      map_written_methodPieces depth rest, String.append_assoc]

theorem map_written_alternatePieces (depth : Nat) (a : Alternate) :
    (alternatePieces depth a).map written = alternateLines depth a := by
  match a with
  | .none => simp [alternatePieces, alternateLines]
  | .block body => simp [alternatePieces, alternateLines, map_written_blockPieces _ body]
  | .chain test body alternate =>
    simp [alternatePieces, alternateLines, test.written_pieces, map_written_blockPieces _ body,
      map_written_alternatePieces depth alternate, String.append_assoc]

end

/-- The pieces of a whole script. -/
def scriptPieces (script : List Stmt) : List Piece := joined "\n" (blockPieces 0 script)

theorem written_scriptPieces (script : List Stmt) :
    written (scriptPieces script) = scriptText script := by
  rw [scriptPieces, written_joined, map_written_blockPieces, scriptText]

end Dragon.Script
