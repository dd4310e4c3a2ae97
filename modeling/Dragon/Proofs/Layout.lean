import Dragon.Proofs.Check.Blind
import Dragon.Proofs.Compile
import Dragon.Proofs.Tree.Blind

/-!
# The layout of a source text plays no part in what it means

Texts with the same tokens, which may differ in blanks, comments, underscores in numbers, the
spelling of escapes and so in all places, compile to the same output at every stage, or fail with
errors that differ in their places alone.
-/
namespace Dragon

/-! ### Errors apart from their places -/

inductive ErrorClass where
  | malformed | rejected | unreadable | unwritable
  deriving DecidableEq, Repr

namespace CompileError

def errorClass : CompileError → ErrorClass
  | malformed _ => .malformed
  | rejected (.violation _) => .rejected
  | rejected (.overlongInteger _) | rejected (.unreadableInteger _)
  | rejected (.unreadableFloat _) => .unreadable
  | unwritable _ => .unwritable

def code? (e : CompileError) : Option String := e.diagnostic?.map (·.code)

def span? (e : CompileError) : Option Span := e.diagnostic?.bind (·.span?)

/-- The message of an error without its place. -/
def text : CompileError → String
  | malformed fault => fault.cause.message
  | rejected (.violation fault) => fault.violation.message
  | e => e.message

/-- The message of an error starts with its place, if it has one. -/
theorem message_eq (e : CompileError) :
    e.message = (e.span?.map fun span => span.location ++ ": ").getD "" ++ e.text := by
  cases e with
  | malformed fault => rfl
  | rejected failure =>
    cases failure with
    | violation fault => rfl
    | overlongInteger _ | unreadableInteger _ | unreadableFloat _ =>
      exact String.empty_append.symm
  | unwritable cause => exact String.empty_append.symm

def bare : CompileError → CompileError
  | malformed fault => malformed fault.bare
  | rejected failure => rejected failure.bare
  | unwritable cause => unwritable cause

theorem errorClass_bare (e : CompileError) : e.bare.errorClass = e.errorClass := by
  cases e with
  | rejected failure => cases failure <;> rfl
  | _ => rfl

theorem Violation.code_bare (v : Violation) : v.bare.code = v.code := by
  cases v <;> rfl

theorem Violation.message_bare (v : Violation) : v.bare.message = v.message := by
  cases v <;> rfl

theorem code?_bare (e : CompileError) : e.bare.code? = e.code? := by
  cases e with
  | rejected failure =>
    cases failure with
    | violation fault => exact congrArg some (Violation.code_bare fault.violation)
    | _ => rfl
  | _ => rfl

theorem text_bare (e : CompileError) : e.bare.text = e.text := by
  cases e with
  | rejected failure =>
    cases failure with
    | violation fault => exact Violation.message_bare fault.violation
    | _ => rfl
  | _ => rfl

end CompileError

/-! ### Outcomes -/

/-- Compilations with equal outputs, or with errors that are the same apart from places. -/
inductive SameOutcome : Except CompileError Output → Except CompileError Output → Prop
  | ok (output : Output) : SameOutcome (.ok output) (.ok output)
  | error {e e' : CompileError} (hclass : e.errorClass = e'.errorClass) (hcode : e.code? = e'.code?)
      (htext : e.text = e'.text) : SameOutcome (.error e) (.error e')

namespace SameOutcome

theorem refl (outcome : Except CompileError Output) : SameOutcome outcome outcome := by
  cases outcome with
  | ok output => exact .ok output
  | error e => exact .error rfl rfl rfl

theorem of_bare {e e' : CompileError} (h : e.bare = e'.bare) :
    SameOutcome (.error e) (.error e') := by
  constructor
  · rw [← e.errorClass_bare, h, e'.errorClass_bare]
  · rw [← e.code?_bare, h, e'.code?_bare]
  · rw [← e.text_bare, h, e'.text_bare]

end SameOutcome

/-- The end of a stream is the same for all source texts, apart from its place. -/
theorem TokenStream.bare_eof {file source : String} {stream : TokenStream}
    (h : ofSource file source = .ok stream) : stream.eof.bare = ⟨.eof, "", .nowhere⟩ := by
  unfold ofSource ofChars at h
  dsimp only at h
  split at h
  next =>
    cases h
    rfl
  next => cases h

section Compile

variable {file file' source source' : String} (stage : Stage) (optimize : Bool)

/-- Trees that are the same apart from places compile alike. -/
theorem sameOutcome_of_tree {tree tree' : Tree.Program}
    (htree : Tree.Program.ofSource file source = .ok tree)
    (htree' : Tree.Program.ofSource file' source' = .ok tree') (hbare : tree.bare = tree'.bare) :
    SameOutcome (compile stage optimize file source).value
      (compile stage optimize file' source').value := by
  by_cases hstage : stage = .parsed
  · subst hstage
    rw [compile, htree, compile, htree']
    exact .ok .accepted
  have hresult : Checked.bareResult (Checked.ofTree tree).result =
      Checked.bareResult (Checked.ofTree tree').result := by
    rw [← Checked.result_bare, hbare, Checked.result_bare]
  cases hchecked : (Checked.ofTree tree).result with
  | ok p =>
    cases hchecked' : (Checked.ofTree tree').result with
    | ok p' =>
      rw [hchecked, hchecked'] at hresult
      cases hresult
      rw [compile_accepted optimize htree hchecked hstage,
        compile_accepted optimize htree' hchecked' hstage]
      exact .refl _
    | error failure' =>
      rw [hchecked, hchecked'] at hresult
      cases hresult
  | error failure =>
    cases hchecked' : (Checked.ofTree tree').result with
    | ok p' =>
      rw [hchecked, hchecked'] at hresult
      cases hresult
    | error failure' =>
      rw [hchecked, hchecked'] at hresult
      rw [compile_rejected optimize htree hchecked hstage,
        compile_rejected optimize htree' hchecked' hstage]
      injection hresult with hfailure
      exact .of_bare (congrArg CompileError.rejected hfailure)

/-- Layout plays no part in compilation. -/
theorem sameOutcome_of_tokens {stream stream' : TokenStream}
    (hstream : TokenStream.ofSource file source = .ok stream)
    (hstream' : TokenStream.ofSource file' source' = .ok stream')
    (htokens : stream.tokens.map (fun t => (t.kind, t.value)) =
      stream'.tokens.map (fun t => (t.kind, t.value))) :
    SameOutcome (compile stage optimize file source).value
      (compile stage optimize file' source').value := by
  have hbare : stream.bare = stream'.bare := by
    let restore (p : Kind × String) : Token := ⟨p.1, p.2, .nowhere⟩
    have hmap (ts : List Token) :
        ts.map Token.bare = (ts.map fun t => (t.kind, t.value)).map restore := by
      rw [List.map_map]
      rfl
    rw [TokenStream.bare, TokenStream.bare, hmap, hmap, htokens, TokenStream.bare_eof hstream,
      TokenStream.bare_eof hstream']
  have hsource : Tree.Program.ofSource file source = Tree.Program.read file stream := by
    rw [Tree.Program.ofSource, hstream]
    rfl
  have hsource' : Tree.Program.ofSource file' source' = Tree.Program.read file' stream' := by
    rw [Tree.Program.ofSource, hstream']
    rfl
  have heof {stream : TokenStream} (h : stream.eof.bare = ⟨.eof, "", .nowhere⟩) :
      stream.eof.kind = .eof := congrArg Token.kind h
  have hread : Tree.Program.bareResult (Tree.Program.ofSource file source) =
      Tree.Program.bareResult (Tree.Program.ofSource file' source') := by
    rw [hsource, hsource',
      ← Tree.Program.read_bare file (heof (TokenStream.bare_eof hstream)),
      ← Tree.Program.read_bare file' (heof (TokenStream.bare_eof hstream')), hbare]
  cases htree : Tree.Program.ofSource file source with
  | ok tree =>
    cases htree' : Tree.Program.ofSource file' source' with
    | ok tree' =>
      rw [htree, htree'] at hread
      injection hread with hbare
      exact sameOutcome_of_tree stage optimize htree htree' hbare
    | error fault' =>
      rw [htree, htree'] at hread
      cases hread
  | error fault =>
    cases htree' : Tree.Program.ofSource file' source' with
    | ok tree' =>
      rw [htree, htree'] at hread
      cases hread
    | error fault' =>
      rw [htree, htree'] at hread
      injection hread with hfault
      rw [compile_malformed optimize htree, compile_malformed optimize htree']
      exact .of_bare (congrArg CompileError.malformed hfault)

end Compile

/-- A program in one line. -/
def compact : String :=
  "don f(x: int) -> int \x7b return x + 1000; \x7d proclaim \"$5 is $\x7bf(x: 2)\x7d\";"

/-- The same program over many lines. -/
def spread : String :=
  "don f(\n\tx: int // a number\n) -> int\n\x7b\n  return x+1_000;\n\x7d\n" ++
    "proclaim \"\\$5 is $\x7b f ( x : 2 ) // a call\n\x7d\" ;\n"

theorem sameOutcome_spread :
    ∃ stream stream', TokenStream.ofSource "" compact = .ok stream ∧
      TokenStream.ofSource "" spread = .ok stream' ∧ stream.tokens ≠ stream'.tokens ∧
      stream.tokens.map (fun t => (t.kind, t.value)) =
        stream'.tokens.map (fun t => (t.kind, t.value)) ∧
      ∀ stage optimize, SameOutcome (compile stage optimize "" compact).value
        (compile stage optimize "" spread).value := by
  have hany : (TokenStream.ofSource "" compact).toOption.any (fun stream =>
      (TokenStream.ofSource "" spread).toOption.any fun stream' =>
        decide (stream.tokens ≠ stream'.tokens ∧
          stream.tokens.map (fun t => (t.kind, t.value)) =
            stream'.tokens.map (fun t => (t.kind, t.value)))) = true := by
    have hcompact : Chars compact _ := .lit
    have hspread : Chars spread _ := .append .lit .lit
    rw [hcompact.stream, hspread.stream]
    decide +kernel
  obtain ⟨stream, hstream, hany⟩ := exists_of_any hany
  obtain ⟨stream', hstream', hany⟩ := exists_of_any hany
  obtain ⟨hne, htokens⟩ := of_decide_eq_true hany
  exact ⟨stream, stream', hstream, hstream', hne, htokens, fun stage optimize =>
    sameOutcome_of_tokens stage optimize hstream hstream' htokens⟩

end Dragon
