import Dragon.Proofs.Script.Program

/-!
# The grouping of operands in scripts

While the script of an accepted program is written, as it is or optimized, only identifiers are
given as names; and whatever names of the script are given so far, the text of each of its
expressions without templates is read as the operator tree of that expression. So the parentheses
that are written are enough, by a grammar that knows nothing of them.
-/
namespace Dragon

namespace Typed

/-! ### The expressions of a program -/

/-- All expressions of a program, those in others included. -/
def Program.exprs (p : Program) : List Expr := (blockExprs p.statements).flatMap Expr.inside

theorem Program.formed_exprs {p : Program} (h : blockFormed p.statements) :
    ∀ e ∈ p.exprs, e.Formed := by
  intro e he
  obtain ⟨outer, houter, he⟩ := List.mem_flatMap.1 he
  exact Expr.forall_inside (fun _ h => h.part) outer
    (formed_blockExprs p.statements h outer houter) e he

end Typed

namespace Script

/-! ### Programs -/

theorem Names.KeptIn.spelled {names names' : Names} (h : names.KeptIn names')
    (hspelled : names'.Spelled) : names.Spelled :=
  fun x n hn => hspelled x n (h x n hn)

/-- For an accepted program, as it is or optimized, a script can be written; and whatever names of
the script are given, the text of an expression without templates is read as its operator tree. -/
theorem read_eq_operatorTree {file source : String} {tree : Tree.Program}
    {program p : Typed.Program} (htree : Tree.Program.ofSource file source = .ok tree)
    (haccepted : (Checked.ofTree tree).result = .ok program)
    (hp : p = program ∨ p = program.optimize.value) :
    ∃ script final, ofBlock p.statements ⟨0, []⟩ = .ok (script, final) ∧
      ∀ e ∈ p.exprs, e.templates = [] → ∀ names : Names, names.KeptIn final →
        ∃ w names' t, ofExpr e names = .ok (w, names') ∧
          operatorTree names' e = some t ∧ Term.read w.text = some t := by
  have hprogram := blockFormed_of_accepted htree haccepted
  have hformed : Typed.blockFormed p.statements := by
    obtain rfl | rfl := hp
    · exact hprogram
    · exact Typed.blockFormed_optimizeBlock program.statements hprogram
  obtain ⟨script, final, hrun, -, hfinal, -⟩ := emits_ofBlock p.statements hformed ⟨0, []⟩ nofun
  refine ⟨script, final, hrun, fun e he hplain names hnames => ?_⟩
  obtain ⟨w, names', hwrite, -, -, hreads⟩ :=
    emits_ofExpr e (Typed.Program.formed_exprs hformed e he) names (hnames.spelled hfinal)
  obtain ⟨t, htree, hstanding, -⟩ := (hreads names' fun _ _ hn => hn).readsAs hplain
  exact ⟨w, names', t, hwrite, htree, hstanding.read⟩

/-- A fallback beside a connective, a power of a fallback, a quotient of whole numbers and signs. -/
def groupings : String :=
  "matter P \x7b x: int \x7d fact p: P? = some P(x: 1); fact b: bool? = naught bool;" ++
  " proclaim (b ?? shant) && (p?.x ?? -2) ** 2 / -3 < 1;"

def groupedText : String :=
  "(b_1 ?? false) && ((Math.trunc(((p_2?.x ?? (-2)) ** 2) / (-3))) < 1)"

def groupedLexemes : List Lexeme :=
  let lp : Lexeme := .sign .lparen
  let rp : Lexeme := .sign .rparen
  let op (o : BinaryOp) : Lexeme := .sign (.operation (.binary o))
  let qq : Lexeme := .sign (.operation .coalesce)
  [lp, .word "b_1", qq, .word "false", rp, op .and, lp, lp, .word "Math", .sign .dot,
    .word "trunc", lp, lp, lp, .word "p_2", .sign .chain, .word "x", qq, lp, op .sub, .numeral "2",
    rp, rp, op .pow, .numeral "2", rp, op .div, lp, op .sub, .numeral "3", rp, rp, rp, op .lt,
    .numeral "1", rp]

theorem read_groupings :
    ∃ tree program, Tree.Program.ofSource "" groupings = .ok tree ∧
      (Checked.ofTree tree).result = .ok program ∧
      ∃ e ∈ program.optimize.value.exprs, e.templates = [] ∧
        ∃ w names', ofExpr e ⟨0, []⟩ = .ok (w, names') ∧ w.text = groupedText ∧
          operatorTree names' e = some
            (.binary .and (.coalesce (.name "b_1") (.bool false))
              (.binary .lt
                (.call false (.name "Math.trunc")
                  [.binary .div
                    (.binary .pow
                      (.coalesce (.optionalMember (.name "p_2") "x") (.minus (.number "2")))
                      (.number "2"))
                    (.minus (.number "3"))])
                (.number "1"))) := by
  have haccepts : accepts groupings (·.optimize.value.exprs.any fun e =>
      e.templates.isEmpty && (ofExpr e ⟨0, []⟩).toOption.any (·.1.text == groupedText)) = true := by
    refine Chars.accepts (.append .lit .lit) ?_
    decide +kernel
  obtain ⟨tree, program, htree, hprogram, hany⟩ := exists_of_accepts haccepts
  obtain ⟨e, he, htest⟩ := List.any_eq_true.1 hany
  obtain ⟨hplain, hany⟩ := Bool.and_eq_true_iff.1 htest
  obtain ⟨⟨w, names'⟩, hwrite, htext⟩ := exists_of_any hany
  rw [beq_iff_eq] at htext
  rw [List.isEmpty_iff] at hplain
  obtain ⟨script, final, -, hexprs⟩ := read_eq_operatorTree htree hprogram (.inr rfl)
  obtain ⟨w', names'', t, hwrite', htree', hread⟩ := hexprs e he hplain ⟨0, []⟩ nofun
  cases hwrite.symm.trans hwrite'
  refine ⟨tree, program, htree, hprogram, e, he, hplain, w, names', hwrite, htext, ?_⟩
  have hcut : lexemes groupedText.toList = some groupedLexemes := by decide +kernel
  rw [htree', ← hread, htext, Term.read, hcut]
  rfl

end Script

end Dragon
