import Dragon.Proofs.Tree.Derived
import Dragon.Proofs.Tree.Followed
import Mathlib.Order.Monotone.Defs
import Mathlib.Order.Nat

/-!
# Reading always moves on

From every place of the tokens a reading ends: it gives the same with all fuel that is enough for
the tokens left there, and that is never used up. Where it succeeds it stands further on, at the end
at most. This holds of statements, types, operands and fields, and of each turn of a loop, so that
no loop stays where it is.
-/
namespace Dragon.Tree

variable {α : Type} {eof : Token} {tokens : List Token} {least : Nat → Nat}

/-- A reading that begins at a place gives a fault, which is not one of fuel, or leaves the tokens
from a later place on. -/
def Lands (tokens : List Token) (start : Nat) : Parsed (Taken α) → Prop
  | .ok (_, rest) => ∃ stop, start < stop ∧ stop ≤ tokens.length ∧ rest = tokens.drop stop
  | .error fault => fault.cause ≠ .exhausted

/-- From every place a reading lands, with any fuel from the least for the tokens left there. -/
def Moves (tokens : List Token) (least : Nat → Nat) (read : Nat → List Token → Parsed (Taken α)) :
    Prop :=
  ∀ start ≤ tokens.length, ∃ result, Lands tokens start result ∧
    ∀ fuel, least (tokens.length - start) ≤ fuel → read fuel (tokens.drop start) = result

/-- Items with commas between them move on, the first one and those after a comma. -/
structure MovesApart (eof : Token) (tokens : List Token) (least : Nat → Nat)
    (item : Nat → List Token → Parsed (Taken α)) : Prop where
  first : Moves tokens least item
  others : Moves tokens least fun fuel => afterComma eof (item fuel)

/-! ### Readings that are followed -/

/-- Nothing is moved and nothing comes after the tokens. -/
def Tail.alone (heof : eof.kind = .eof) : Tail Moving.same eof := ⟨[], eof, heof⟩

theorem Tail.before_alone (heof : eof.kind = .eof) (ts : List Token) :
    (Tail.alone heof).before ts = ts :=
  (before_same _ ts).trans (List.append_nil ts)

/-- A reading that is followed by itself with more fuel. -/
def Steady (heof : eof.kind = .eof) (s : Bool) (least : Nat → Nat)
    (read : Nat → List Token → Parsed (Taken α)) : Prop :=
  ∀ (us : List Token) (fuel fuel' : Nat), least us.length ≤ fuel → fuel ≤ fuel' →
    Follows (.alone heof) .noMore true s id us (read fuel us)
      (read fuel' ((Tail.alone heof).before us))

namespace Steady

variable {heof : eof.kind = .eof} {s : Bool} {read : Nat → List Token → Parsed (Taken α)}

/-- A steady reading takes tokens and gives the same with more fuel. -/
theorem moves (h : Steady heof s least read) : Moves tokens least read := by
  intro start hstart
  have hfollows := h (tokens.drop start) (least (tokens.drop start).length)
  simp only [Tail.before_alone, List.length_drop] at hfollows
  generalize hread : read _ _ = result at hfollows
  refine ⟨result, ?_, fun fuel hfuel => ?_⟩
  · have hfirst := hfollows _ (Nat.le_refl _) (Nat.le_refl _)
    cases result with
    | error fault => exact hfirst.fuelled fault rfl
    | ok taken =>
      obtain ⟨hsuffix, hless⟩ := hfirst.left taken.1 taken.2 rfl
      have hless := hless rfl
      rw [List.length_drop] at hless
      refine ⟨tokens.length - taken.2.length, by omega, Nat.sub_le _ _, ?_⟩
      exact List.suffix_iff_eq_drop.1 (hsuffix.trans (List.drop_suffix _ _))
  · have hsecond := hfollows fuel (Nat.le_refl _) hfuel
    cases result with
    | error fault => exact hsecond.fault fault rfl ⟨rfl, rfl⟩
    | ok taken =>
      rw [hsecond.value taken.1 taken.2 rfl fun _ => rfl, Tail.before_alone]
      rfl

theorem movesApart (h : Steady heof s least read) (hleast : Monotone least) :
    MovesApart eof tokens least read := by
  have hothers : Steady heof s least fun fuel => afterComma eof (read fuel) :=
    fun us fuel fuel' hitem hfuel => (follows_operator us).andThen fun _ vs hvs =>
      (h vs fuel fuel' ((hleast hvs.le).trans hitem) hfuel).lax
  exact ⟨h.moves, hothers.moves⟩

end Steady

theorem steady_readMember (heof : eof.kind = .eof) (guild : String) (forge : Option Forge) :
    Steady heof true (· + 1) fun fuel => readMember eof (Stmt.readWith eof fuel) guild forge := by
  intro us fuel fuel' henough hfuel
  have hmember : Moving.same.member = id := funext fun member => by cases member <;> rfl
  have hfollows := follows_readMember (n := .noMore) (Stmt.followed hfuel).inner guild forge
    (Nat.le_of_succ_le henough) (Tail.alone heof)
  rwa [hmember, show forge.map Moving.same.forge = forge from congrFun Option.map_id forge]
    at hfollows

/-! ### Programs -/

/-- Statements, types, operands and fields move on, and so does what a turn of each loop takes: a
statement of a program or of a block, a field of a matter, a member of a guild, a part of a string,
and a parameter, type, argument or element of a list. -/
structure Progress (eof : Token) (tokens : List Token) : Prop where
  statement : Moves tokens (· + 1) (Stmt.readWith eof)
  operand : Moves tokens (3 * · + 2) (Expr.readOperand eof)
  field : Moves tokens (fun _ => 0) fun _ => FieldDef.read eof
  matterField : Moves tokens (fun _ => 0) fun _ => readMatterField eof
  part : Moves tokens (3 * · + 1) (Expr.readPart eof)
  param : MovesApart eof tokens (fun _ => 0) fun _ => Param.read eof
  type : MovesApart eof tokens (· + 1) (TypeExpr.readWith eof)
  argument : MovesApart eof tokens (3 * · + 4) (Expr.readArgument eof)
  element : MovesApart eof tokens (3 * · + 3) (Expr.readWith eof · 0)
  member (guild : String) (forge : Option Forge) : Moves tokens (· + 1) fun fuel =>
    readMember eof (Stmt.readWith eof fuel) guild forge
  members (guild : String) (fuel turns : Nat) :
    readMembers eof (Stmt.readWith eof fuel) guild (turns + 1) =
      memberTurn eof (Stmt.readWith eof fuel) guild
        (readMembers eof (Stmt.readWith eof fuel) guild turns)

theorem progress (heof : eof.kind = .eof) (tokens : List Token) : Progress eof tokens := by
  have hexprs {fuel fuel' : Nat} (h : fuel ≤ fuel') : Expr.Followed Moving.same eof fuel fuel' :=
    Expr.followed h
  have hstatement : Steady heof true (· + 1) (Stmt.readWith eof) :=
    fun us _ _ henough hfuel => (Stmt.followed hfuel).inner us henough _
  have hoperand : Steady heof true (3 * · + 2) (Expr.readOperand eof) :=
    fun _ _ _ henough hfuel => (hexprs hfuel).readOperand henough _
  have hfield : Steady heof true (fun _ => 0) fun _ => FieldDef.read eof :=
    fun us _ _ _ _ => FieldDef.follows_read us
  have hmatter : Steady heof true (fun _ => 0) fun _ => readMatterField eof :=
    fun us _ _ _ _ => follows_readMatterField us _
  have hpart : Steady heof false (3 * · + 1) (Expr.readPart eof) :=
    fun _ _ _ henough hfuel => (hexprs hfuel).readPart henough _
  have hparam : Steady heof true (fun _ => 0) fun _ => Param.read eof :=
    fun us _ _ _ _ => Param.follows_read us
  have htype : Steady heof true (· + 1) (TypeExpr.readWith eof) :=
    fun _ _ _ henough hfuel => TypeExpr.follows_readWith henough hfuel _
  have hargument : Steady heof true (3 * · + 4) (Expr.readArgument eof) :=
    fun _ _ _ henough hfuel => (hexprs hfuel).readArgument henough _
  have helement : Steady heof true (3 * · + 3) (Expr.readWith eof · 0) :=
    fun _ _ _ henough hfuel => (hexprs hfuel).readWith 0 henough _
  have hthree (c : Nat) : Monotone (3 * · + c) := fun _ _ h =>
    Nat.add_le_add_right (Nat.mul_le_mul_left 3 h) c
  exact ⟨hstatement.moves, hoperand.moves, hfield.moves, hmatter.moves, hpart.moves,
    hparam.movesApart fun _ _ _ => Nat.le_refl 0, htype.movesApart fun _ _ => Nat.succ_le_succ,
    hargument.movesApart (hthree 4), helement.movesApart (hthree 3),
    fun guild forge => (steady_readMember heof guild forge).moves,
    fun guild fuel => readMembers_succ eof (Stmt.readWith eof fuel) guild⟩

/-- Items that are read up to the end of tokens of which none closes them leave nothing. -/
theorem eq_nil_of_items {close : Kind} {item : List Token → Parsed (Taken α)} {fuel : Nat}
    {ts rest : List Token} {as : List α} (hclose : ∀ t ∈ rest, t.kind ≠ close)
    (h : items eof close item fuel ts = .ok (as, rest)) : rest = [] := by
  induction fuel generalizing ts as with
  | zero => cases h
  | succ fuel ih =>
    unfold items at h
    split at h
    next hend =>
      cases h
      cases rest with
      | nil => rfl
      | cons t us => simp [starts, hclose t List.mem_cons_self] at hend
    next =>
      obtain ⟨first, -, h⟩ := bind_eq_ok h
      obtain ⟨others, hothers, h⟩ := bind_eq_ok h
      cases h
      exact ih hothers

/-- Reading a program gives the same with all fuel that is enough for its tokens: a fault, which is
not one of fuel, or the program, standing at the end of the tokens. -/
def Program.ReadEnds (file : String) (stream : TokenStream) : Prop :=
  ∃ result, (∀ fuel, stream.tokens.length < fuel →
      items stream.eof .eof (Stmt.readWith stream.eof fuel) fuel stream.tokens = result) ∧
    ((∃ fault, result = .error fault ∧ fault.cause ≠ .exhausted ∧
        Program.read file stream = .error fault) ∨
      ∃ program, result = .ok (program.statements, []) ∧ Program.read file stream = .ok program)

/-- Reading a program ends, and on the way every reading and every turn of a loop moves on. -/
theorem Program.read_progress (file : String) (stream : TokenStream)
    (heof : stream.eof.kind = .eof) (hkinds : ∀ t ∈ stream.tokens, t.kind ≠ .eof) :
    Program.ReadEnds file stream ∧ Progress stream.eof stream.tokens := by
  have hlength := Nat.lt_succ_self stream.tokens.length
  have hfollows (fuel : Nat) (hfuel : stream.tokens.length + 1 ≤ fuel) :=
    follows_statements hlength hfuel hlength hfuel (Tail.alone heof)
  simp only [Tail.before_alone] at hfollows
  refine ⟨?_, progress heof stream.tokens⟩
  unfold ReadEnds Program.read
  dsimp only
  generalize hread : items _ _ _ _ stream.tokens = result at hfollows ⊢
  cases result with
  | error fault =>
    refine ⟨.error fault, fun fuel hfuel => ?_, .inl ⟨fault, rfl, ?_, rfl⟩⟩
    · exact (hfollows fuel hfuel).fault fault rfl ⟨rfl, rfl⟩
    · exact (hfollows _ (Nat.le_refl _)).fuelled fault rfl
  | ok taken =>
    obtain ⟨statements, rest⟩ := taken
    have hsuffix := ((hfollows _ (Nat.le_refl _)).left statements rest rfl).1
    obtain rfl := eq_nil_of_items (fun t ht => hkinds t (hsuffix.subset ht)) hread
    refine ⟨.ok (statements, []), fun fuel hfuel => ?_, .inr ⟨⟨statements, _⟩, rfl, rfl⟩⟩
    have hvalue := (hfollows fuel hfuel).value statements [] rfl fun _ => rfl
    rwa [show statements.map Moving.same.stmt = statements from List.map_id _] at hvalue

/-- The tokens of `proclaim [1;` and the end after them. -/
def unclosed : TokenStream :=
  ⟨[⟨.keyword .proclaim, "proclaim", .nowhere⟩, ⟨.operator .lbracket, "[", .nowhere⟩,
    ⟨.integer, "1", .nowhere⟩, ⟨.operator .semicolon, ";", .nowhere⟩], ⟨.eof, "", .nowhere⟩⟩

theorem Program.read_progress_unclosed :
    unclosed.eof.kind = .eof ∧ (∀ t ∈ unclosed.tokens, t.kind ≠ .eof) ∧
      Program.ReadEnds "" unclosed ∧ Progress unclosed.eof unclosed.tokens :=
  ⟨rfl, by decide, Program.read_progress "" unclosed rfl (by decide)⟩

end Dragon.Tree
