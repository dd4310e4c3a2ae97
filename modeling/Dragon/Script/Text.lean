import Dragon.Script.Basic
import Dragon.Script.Literal

/-!
# The text of scripts

Every level of nesting is indented by four blanks.
-/
namespace Dragon.Script

def Name.text (n : Name) : String := n.base ++ "_" ++ String.ofList (Decimal.digitsOf n.number)

/-- Texts with a comma between them. -/
def separated (texts : List String) : String := ", ".intercalate texts

mutual

def Expr.text : Expr → String
  | .name n => n.text
  | .builtin text => text
  | .this => "this"
  | .null => "null"
  | .int n => Typed.intText n
  | .float x => floatLayout.float x
  | .bool b => if b then "true" else "false"
  | .string s => stringLiteral s
  | .template parts => "\x60" ++ partTexts parts ++ "\x60"
  | .group e => "(" ++ e.text ++ ")"
  | .not operand => "!" ++ operand.text
  | .minus operand => "-" ++ operand.text
  | .binary symbol left right => left.text ++ " " ++ symbol ++ " " ++ right.text
  | .ternary test consequent alternate =>
    test.text ++ " ? " ++ consequent.text ++ " : " ++ alternate.text
  | .list elements => "[" ++ separated (exprTexts elements) ++ "]"
  | .subscript collection index => collection.text ++ "[" ++ index.text ++ "]"
  | .member object access name => object.text ++ access ++ name
  | .call callee args => callee.text ++ "(" ++ separated (exprTexts args) ++ ")"
  | .construct type args => "new " ++ type.text ++ "(" ++ separated (exprTexts args) ++ ")"
  | .encode args => "[...new TextEncoder().encode(" ++ separated (exprTexts args) ++ ")]"
  | .encoder => "(s) => [...new TextEncoder().encode(s)]"

def exprTexts : List Expr → List String
  | [] => []
  | e :: rest => e.text :: exprTexts rest

def partTexts : List Part → String
  | [] => ""
  | .text s :: rest => String.ofList (escapeTemplate s.toList) ++ partTexts rest
  | .hole e :: rest => "$\x7b" ++ e.text ++ "\x7d" ++ partTexts rest

end

/-! ### Statements -/

def line (depth : Nat) (text : String) : String :=
  String.ofList (List.replicate (4 * depth) ' ') ++ text

def paramsText (params : List Name) : String := "(" ++ separated (params.map Name.text) ++ ")"

/-- The first line of a loop. -/
def countHeader (index : Name) (limit : Option Name) (count : Expr) : String :=
  let i := index.text
  match limit with
  | none => "for (let " ++ i ++ " = 0; " ++ i ++ " < " ++ count.text ++ "; " ++ i ++ "++) \x7b"
  | some n =>
    "for (let " ++ i ++ " = 0, " ++ n.text ++ " = " ++ count.text ++ "; " ++ i ++ " < " ++ n.text ++
      "; " ++ i ++ "++) \x7b"

def rangeHeader (iterator : Name) (low : Expr) (kind : RangeKind) (high : Expr) : String :=
  let i := iterator.text
  let relation := match kind with
    | .closed => " <= "
    | .halfOpen => " < "
  "for (let " ++ i ++ " = " ++ low.text ++ "; " ++ i ++ relation ++ high.text ++ "; " ++ i ++
    "++) \x7b"

def settingLine (depth : Nat) (s : Setting) : String :=
  line depth ("this." ++ s.field ++ " = " ++ s.value.text ++ ";")

mutual

def Stmt.lines (depth : Nat) : Stmt → List String
  | .declare mutable name init =>
    let keyword := if mutable then "let " else "const "
    [line depth (keyword ++ name.text ++ " = " ++ init.text ++ ";")]
  | .function name params body =>
    line depth ("function " ++ name.text ++ paramsText params ++ " \x7b") ::
      blockLines (depth + 1) body ++ [line depth "\x7d"]
  | .type name params settings methods =>
    line depth ("class " ++ name.text ++ " \x7b") ::
      line (depth + 1) ("constructor" ++ paramsText params ++ " \x7b") ::
      settings.map (settingLine (depth + 2)) ++ line (depth + 1) "\x7d" ::
      methodLines (depth + 1) methods ++ [line depth "\x7d"]
  | .log e => [line depth ("console.log(" ++ e.text ++ ");")]
  | .increment target => [line depth (target.text ++ "++;")]
  | .decrement target => [line depth (target.text ++ "--;")]
  | .assign target source => [line depth (target.text ++ " = " ++ source.text ++ ";")]
  | .return_ none => [line depth "return;"]
  | .return_ (some e) => [line depth ("return " ++ e.text ++ ";")]
  | .branch test body alternate =>
    line depth ("if (" ++ test.text ++ ") \x7b") ::
      blockLines (depth + 1) body ++ alternateLines depth alternate
  | .while_ test body =>
    line depth ("while (" ++ test.text ++ ") \x7b") ::
      blockLines (depth + 1) body ++ [line depth "\x7d"]
  | .repeat_ index limit count body =>
    line depth (countHeader index limit count) ::
      blockLines (depth + 1) body ++ [line depth "\x7d"]
  | .range iterator low kind high body =>
    line depth (rangeHeader iterator low kind high) ::
      blockLines (depth + 1) body ++ [line depth "\x7d"]
  | .forEach iterator collection body =>
    line depth ("for (const " ++ iterator.text ++ " of " ++ collection.text ++ ") \x7b") ::
      blockLines (depth + 1) body ++ [line depth "\x7d"]
  | .break_ => [line depth "break;"]
  | .expr e => [line depth (e.text ++ ";")]

def blockLines (depth : Nat) : List Stmt → List String
  | [] => []
  | s :: rest => s.lines depth ++ blockLines depth rest

def methodLines (depth : Nat) : List Method → List String
  | [] => []
  | .mk name params body :: rest =>
    line depth (name ++ paramsText params ++ " \x7b") ::
      blockLines (depth + 1) body ++ line depth "\x7d" :: methodLines depth rest

/-- The lines from the closing brace of a branch on. -/
def alternateLines (depth : Nat) : Alternate → List String
  | .none => [line depth "\x7d"]
  | .block body =>
    line depth "\x7d else \x7b" :: blockLines (depth + 1) body ++ [line depth "\x7d"]
  | .chain test body alternate =>
    line depth ("\x7d else if (" ++ test.text ++ ") \x7b") ::
      blockLines (depth + 1) body ++ alternateLines depth alternate

end

/-- The text of a script, without a line break at its end. -/
def scriptText (script : List Stmt) : String := "\n".intercalate (blockLines 0 script)

end Dragon.Script
