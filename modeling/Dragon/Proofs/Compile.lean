import Dragon.Proofs.Script.Scoped

/-!
# Compilation stops at the analysis or not at all

Whatever the source text, the stages after the analysis succeed when it does, whether programs are
optimized or not, and otherwise fail with its error; so that no script can be written is never the
cause of an error.
-/
namespace Dragon

open Script

variable {file source : String} {stage : Stage} (optimize : Bool)

/-! ### Stages after the syntax -/

theorem compile_malformed {fault : SyntaxFault}
    (h : Tree.Program.ofSource file source = .error fault) :
    (compile stage optimize file source).value = .error (.malformed fault) := by
  rw [compile, h]
  rfl

theorem compile_rejected {tree : Tree.Program} {failure : CheckFailure}
    (htree : Tree.Program.ofSource file source = .ok tree)
    (hchecked : (Checked.ofTree tree).result = .error failure) (hstage : stage ≠ .parsed) :
    (compile stage optimize file source).value = .error (.rejected failure) := by
  simp [compile, htree, hchecked, hstage]

theorem compile_accepted {tree : Tree.Program} {p : Typed.Program}
    (htree : Tree.Program.ofSource file source = .ok tree)
    (hchecked : (Checked.ofTree tree).result = .ok p) (hstage : stage ≠ .parsed) :
    (compile stage optimize file source).value = (finish stage optimize p).value := by
  simp [compile, htree, hchecked, hstage]

theorem finish_script (p : Typed.Program) :
    (finish .script optimize p).value =
      scriptOf (if optimize then p.optimize.value else p) := by
  cases optimize <;> rfl

/-! ### All source texts -/

/-- Either all stages from the analysis on give a result, or all give the error of the syntax or of
the analysis. -/
theorem compile_total (file source : String) :
    (∃ p : Typed.Program, ∀ optimize : Bool,
      (compile .analyzed optimize file source).value = .ok (.program p) ∧
      (compile .optimized optimize file source).value = .ok (.program p.optimize.value) ∧
      ∃ script, ofProgram (if optimize then p.optimize.value else p) = .ok script ∧
        (compile .script optimize file source).value = .ok (.script (scriptText script))) ∨
    (∃ error : CompileError, (∀ cause, error ≠ .unwritable cause) ∧
      ∀ (optimize : Bool) (stage : Stage), stage ≠ .parsed →
        (compile stage optimize file source).value = .error error) := by
  cases htree : Tree.Program.ofSource file source with
  | error fault =>
    refine .inr ⟨.malformed fault, nofun, fun optimize stage _ => ?_⟩
    exact compile_malformed optimize htree
  | ok tree =>
    cases hchecked : (Checked.ofTree tree).result with
    | error failure =>
      refine .inr ⟨.rejected failure, nofun, fun optimize stage hstage => ?_⟩
      exact compile_rejected optimize htree hchecked hstage
    | ok p =>
      refine .inl ⟨p, fun optimize => ?_⟩
      have hfinish (stage : Stage) (hstage : stage ≠ .parsed) :
          (compile stage optimize file source).value = (finish stage optimize p).value :=
        compile_accepted optimize htree hchecked hstage
      refine ⟨hfinish .analyzed nofun, hfinish .optimized nofun, ?_⟩
      obtain ⟨script, names, hrun, -⟩ := exists_transcript_of_accepted hchecked optimize
      have hscript := ofProgram_of_ofBlock hrun
      refine ⟨script, hscript, ?_⟩
      rw [hfinish .script nofun, finish_script, scriptOf, hscript]

end Dragon
