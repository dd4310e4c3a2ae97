import Dragon.Proofs.Script.Program

/-!
# Faithful template literals

Template literals are faithful exactly where no mark comes about between their parts. In the script
of an accepted program, every template literal is read as the parts that it was written from if and
only if in none of them a text that ends in a dollar sign is followed by one that begins with a
brace. A string literal in a substitution is a part by itself, so there are programs with such
parts, and their scripts do not say what the programs say.
-/
namespace Dragon.Script

/-- A template literal that is read as its parts. -/
def Faithful (parts : List Part) : Prop :=
  readTemplate (Expr.text (.template parts)) = some (items parts)

instance (parts : List Part) : Decidable (Faithful parts) :=
  inferInstanceAs (Decidable (_ = _))

theorem faithful_iff {parts : List Part} (hinert : partsInert parts)
    (hinner : ∀ inner ∈ innerTemplates parts, seamless inner = true) :
    Faithful parts ↔ seamless parts = true :=
  readTemplate_eq_iff (neutral_holes parts hinert hinner)

/-! ### Templates in templates -/

/-- Inert templates together with all those inside them. -/
def Closed (ts : List (List Part)) : Prop :=
  ∀ parts ∈ ts, partsInert parts ∧ (parts :: innerTemplates parts).Sublist ts

namespace Closed

theorem nil : Closed [] := fun _ h => nomatch h

theorem append {ts us : List (List Part)} (hts : Closed ts) (hus : Closed us) :
    Closed (ts ++ us) := by
  intro parts hparts
  obtain hparts | hparts := List.mem_append.1 hparts
  · exact (hts parts hparts).imp id fun h => h.trans (List.sublist_append_left ts us)
  · exact (hus parts hparts).imp id fun h => h.trans (List.sublist_append_right ts us)

theorem template {parts : List Part} (hinert : partsInert parts)
    (hinner : Closed (innerTemplates parts)) : Closed (parts :: innerTemplates parts) := by
  intro inner h
  obtain rfl | h := List.mem_cons.1 h
  · exact ⟨hinert, List.Sublist.refl _⟩
  · exact (hinner inner h).imp id fun h => h.trans (List.sublist_cons_self _ _)

end Closed

mutual

theorem closed_templates (e : Expr) (hinert : e.Inert) : Closed e.templates := by
  cases e with
  | template parts => exact .template hinert (closed_innerTemplates parts hinert)
  | group e | not e | minus e => exact closed_templates e hinert
  | binary _ left right =>
    exact (closed_templates left hinert.2.1).append (closed_templates right hinert.2.2)
  | ternary test consequent alternate =>
    exact ((closed_templates test hinert.1).append (closed_templates consequent hinert.2.1)).append
      (closed_templates alternate hinert.2.2)
  | list elements | encode elements => exact closed_exprsTemplates elements hinert
  | construct _ elements => exact closed_exprsTemplates elements hinert.2
  | subscript collection index =>
    exact (closed_templates collection hinert.1).append (closed_templates index hinert.2)
  | member object => exact closed_templates object hinert.1
  | call callee args =>
    exact (closed_templates callee hinert.1).append (closed_exprsTemplates args hinert.2)
  | _ =>
    exact .nil

theorem closed_exprsTemplates (es : List Expr) (hinert : exprsInert es) :
    Closed (exprsTemplates es) := by
  match es with
  | [] => exact .nil
  | e :: rest =>
    exact (closed_templates e hinert.1).append (closed_exprsTemplates rest hinert.2)

theorem closed_innerTemplates (parts : List Part) (hinert : partsInert parts) :
    Closed (innerTemplates parts) := by
  match parts with
  | [] => exact .nil
  | .text _ :: rest => exact closed_innerTemplates rest hinert
  | .hole e :: rest =>
    exact (closed_templates e hinert.1).append (closed_innerTemplates rest hinert.2)

end

theorem closed_script {script : List Stmt} (hinert : ∀ e ∈ blockExprs script, e.Inert) :
    Closed (templates script) := by
  unfold templates
  generalize blockExprs script = es at hinert
  induction es with
  | nil => exact .nil
  | cons e rest ih =>
    obtain ⟨he, hrest⟩ := List.forall_mem_cons.1 hinert
    exact (closed_templates e he).append (ih hrest)

/-- If all templates are faithful, then all are seamless, from the innermost on. -/
theorem Closed.seamless_of_faithful {ts : List (List Part)} (hts : Closed ts)
    (h : ∀ parts ∈ ts, Faithful parts) : ∀ parts ∈ ts, seamless parts = true := by
  intro parts hparts
  induction hn : (innerTemplates parts).length using Nat.strong_induction_on generalizing parts with
  | _ n ih =>
    obtain ⟨hinert, hsub⟩ := hts parts hparts
    refine (faithful_iff hinert fun inner hinner => ?_).1 (h parts hparts)
    have hlen := (closed_innerTemplates parts hinert inner hinner).2.length_le
    have hmem : inner ∈ ts := hsub.subset (List.mem_cons_of_mem _ hinner)
    exact ih (innerTemplates inner).length (by simp at hlen; omega) inner hmem rfl

theorem Closed.faithful_iff {ts : List (List Part)} (hts : Closed ts) :
    (∀ parts ∈ ts, Faithful parts) ↔ ∀ parts ∈ ts, seamless parts = true := by
  refine ⟨hts.seamless_of_faithful, fun h parts hparts => ?_⟩
  obtain ⟨hinert, hsub⟩ := hts parts hparts
  exact (Script.faithful_iff hinert fun inner hinner =>
    h inner (hsub.subset (List.mem_cons_of_mem _ hinner))).2 (h parts hparts)

/-! ### Programs -/

/-- A script can be written for every program that is accepted. Its template literals are those of
the program, and they are read as what they were written from exactly if all are seamless. -/
theorem templates_faithful_iff {file source : String} {tree : Tree.Program}
    {program : Typed.Program} (htree : Tree.Program.ofSource file source = .ok tree)
    (haccepted : (Checked.ofTree tree).result = .ok program) :
    ∃ script, ofProgram program = .ok script ∧ Matches program.templates (templates script) ∧
      (∀ parts ∈ templates script, (∀ inner ∈ innerTemplates parts, seamless inner = true) →
        (Faithful parts ↔ seamless parts = true)) ∧
      ((∀ parts ∈ templates script, Faithful parts) ↔
        ∀ parts ∈ templates script, seamless parts = true) := by
  obtain ⟨script, hscript, hinert, hmatches⟩ := exists_script htree haccepted
  have hclosed := closed_script hinert
  refine ⟨script, hscript, hmatches, ?_, hclosed.faithful_iff⟩
  exact fun parts hparts hinner => faithful_iff (hclosed parts hparts).1 hinner

/-- A template within a template, with marks in the texts of both. -/
def bill : String :=
  "thine n: int = 3; proclaim \"$ \x7b $\x7b\"\\\\$\x7bn ** 2\x7d \x60$\"\x7d \x7d\";"

theorem templates_faithful_iff_bill :
    ∃ tree program, Tree.Program.ofSource "" bill = .ok tree ∧
      (Checked.ofTree tree).result = .ok program ∧ program.templates.length = 2 ∧
      ∃ script, ofProgram program = .ok script ∧ Matches program.templates (templates script) ∧
        (∀ parts ∈ templates script, (∀ inner ∈ innerTemplates parts, seamless inner = true) →
          (Faithful parts ↔ seamless parts = true)) ∧
        ((∀ parts ∈ templates script, Faithful parts) ↔
          ∀ parts ∈ templates script, seamless parts = true) := by
  have haccepts : accepts bill (·.templates.length == 2) = true := by
    refine Chars.accepts .lit ?_
    decide +kernel
  obtain ⟨tree, program, htree, hprogram, hlength⟩ := exists_of_accepts haccepts
  exact ⟨tree, program, htree, hprogram, beq_iff_eq.1 hlength,
    templates_faithful_iff htree hprogram⟩

/-- A string in a substitution begins with the brace that the dollar sign before it lacks. -/
def meeting : String := "proclaim \"$$\x7b\"\x7b\"\x7d\";"

theorem not_faithful_meeting :
    ∃ tree program script parts, Tree.Program.ofSource "" meeting = .ok tree ∧
      (Checked.ofTree tree).result = .ok program ∧ ofProgram program = .ok script ∧
      parts ∈ templates script ∧ ¬ Faithful parts := by
  have hfound : accepts meeting (fun program => (ofProgram program).toOption.any fun script =>
      (templates script).any fun parts => decide (¬ Faithful parts)) = true := by
    refine Chars.accepts .lit ?_
    decide +kernel
  obtain ⟨tree, program, htree, hprogram, hfound⟩ := exists_of_accepts hfound
  obtain ⟨script, hscript, hfound⟩ := exists_of_any hfound
  obtain ⟨parts, hparts, hread⟩ := List.any_eq_true.1 hfound
  exact ⟨tree, program, script, parts, htree, hprogram, hscript, hparts, of_decide_eq_true hread⟩

end Dragon.Script
