import Dragon.Proofs.Tree.Bare
import Dragon.Proofs.Tree.Followed

/-!
# Reading does not see places

Tokens that are the same apart from their places are read as trees that are the same apart from
theirs, or with the same fault.
-/
namespace Dragon.Tree

/-- Taking all places away. -/
def Moving.bare : Moving :=
  ⟨fun _ => .nowhere, TypeExpr.bare, Expr.bare, Argument.bare, Param.bare, FieldDef.bare, Stmt.bare,
    FunctionDef.bare, Forge.bare, Alternate.bare⟩

theorem bareForge_eq_map (forge : Option Forge) : bareForge forge = forge.map Forge.bare := by
  cases forge <;> rfl

instance : Moving.bare.Lawful := by
  constructor <;> intros <;>
    simp [Moving.bare, TypeExpr.bare, Expr.bare, Argument.bare, Param.bare, FieldDef.bare,
      Stmt.bare, FunctionDef.bare, Forge.bare, Alternate.bare, bareTypes_eq_map, bareExprs_eq_map,
      bareArguments_eq_map, bareBlock_eq_map, bareMethods_eq_map, bareForge_eq_map]

/-- The program that was read, or the fault, apart from places. -/
def Program.bareResult : Except SyntaxFault Program → Except SyntaxFault Program
  | .ok program => .ok program.bare
  | .error fault => .error fault.bare

/-- Reading a program does not see places, nor the name of its file. -/
theorem Program.read_bare (file : String) {stream : TokenStream} (heof : stream.eof.kind = .eof) :
    Program.read "" stream.bare = bareResult (Program.read file stream) := by
  have hitems := follows_statements (Nat.lt_succ_self stream.tokens.length) (Nat.le_refl _)
    (Nat.lt_succ_self stream.tokens.length) (Nat.le_refl _)
    (⟨[], stream.eof.bare, heof⟩ : Tail Moving.bare stream.eof)
  unfold Program.read
  rw [show stream.bare.tokens.length = stream.tokens.length from List.length_map _]
  dsimp only
  cases hread : items stream.eof .eof (Stmt.readWith stream.eof (stream.tokens.length + 1))
      (stream.tokens.length + 1) stream.tokens with
  | error fault =>
    have hsecond := hitems.fault fault hread ⟨rfl, rfl⟩
    rw [Tail.before, List.append_nil] at hsecond
    exact congrArg (· >>= _) hsecond
  | ok taken =>
    have hsecond := hitems.value taken.1 taken.2 hread fun _ => rfl
    rw [Tail.before, List.append_nil] at hsecond
    exact congrArg (· >>= _) hsecond

end Dragon.Tree
