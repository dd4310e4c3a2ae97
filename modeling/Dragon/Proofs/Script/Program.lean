import Dragon.Proofs.Script.OperatorTree
import Dragon.Proofs.Tree.Nesting

/-!
# Scripts of accepted programs

A script can be written for every accepted program, and only identifiers are given as names along
the way. Its expressions hold no marks outside of strings and templates, and its templates are those
of the program, one for one.
-/
namespace Dragon.Script

section Writers

theorem emits_fresh (base : String) : Emits (Writer.fresh base) fun _ _ => True :=
  fun _ hnames => ⟨_, _, rfl, fun _ _ hn => hn, hnames, fun _ _ => trivial⟩

theorem emits_limitName (count : Typed.Expr) : Emits (limitName count) fun _ _ => True := by
  unfold limitName
  split
  · exact .pure fun _ => trivial
  · exact (emits_fresh "n").next fun _ => .pure fun _ => trivial

theorem emits_varNames {vars : List Var} (h : ∀ v ∈ vars, v.Own IsIdentifierName) :
    Emits (Writer.varNames vars) fun _ _ => True := by
  induction vars with
  | nil => exact .pure fun _ => trivial
  | cons v rest ih =>
    obtain ⟨hv, hrest⟩ := List.forall_mem_cons.1 h
    exact (Emits.nameOf _ hv.name).next fun _ => (ih hrest).next fun _ => .pure fun _ => trivial

theorem emits_paramNames {ps : List ForgeParam} (h : ∀ p ∈ ps, IsIdentifierName p.name) :
    Emits (Writer.paramNames ps) fun _ _ => True := by
  induction ps with
  | nil => exact .pure fun _ => trivial
  | cons p rest ih =>
    obtain ⟨hp, hrest⟩ := List.forall_mem_cons.1 h
    exact (Emits.nameOf _ hp).next fun _ => (ih hrest).next fun _ => .pure fun _ => trivial

/-- The fields of a matter have no values, and are set to the parameters of its constructor. -/
theorem emits_ofFields {fields : List Typed.FieldInit} (h : ∀ f ∈ fields, f.Formed .matter) :
    Emits (ofFields fields) fun _ r =>
      AllWritten (fields.filterMap (·.value)) (r.2.map (·.value)) := by
  induction fields with
  | nil => exact .pure fun _ => .nil
  | cons f rest ih =>
    obtain ⟨hf, hrest⟩ := List.forall_mem_cons.1 h
    obtain ⟨field, value⟩ := f
    cases value with
    | none =>
      exact (Emits.nameOf _ hf.1).bind fun n => (ih hrest).bind fun r =>
        .pure fun _ hr hn => hr.name (inertName_of_isIdentifier hn.2)
    | some e => exact hf.2.elim

theorem emits_ofSettings {fields : List Typed.FieldInit} (h : ∀ f ∈ fields, f.Formed .guild) :
    Emits (ofSettings fields) fun _ settings =>
      AllWritten (fields.filterMap (·.value)) (settings.map (·.value)) := by
  induction fields with
  | nil => exact .pure fun _ => .nil
  | cons f rest ih =>
    obtain ⟨hf, hrest⟩ := List.forall_mem_cons.1 h
    obtain ⟨field, value⟩ := f
    cases value with
    | none => exact hf.2.elim
    | some e =>
      exact (emits_ofExpr e hf.2).bind fun w => (ih hrest).bind fun settings =>
        .pure fun _ hsettings hw => .cons hw.written hsettings

end Writers

mutual

/-- Every statement of the form is written, with its expressions in their order. -/
theorem emits_ofStmt (s : Typed.Stmt) (hs : s.FormedHere)
    (hnested : ∀ s' ∈ s.nested, s'.FormedHere) :
    Emits (ofStmt s) fun _ st => StmtsWritten (s :: s.nested) (st :: st.nested) := by
  match s with
  | .declare mutable v init =>
    exact (Emits.nameOf _ hs.1.name).next fun n => (emits_ofExpr init hs.2).bind fun w =>
      .pure fun _ hw => .cons (.single hw.written) .nil
  | .function f body =>
    exact (emits_varNames hs.params).next fun _ => (Emits.nameOf _ hs.name).next fun _ =>
      (emits_ofBlock body hnested).bind fun b => .pure fun _ hb => .cons .nil hb
  | .object .matter ref fields parameters methods =>
    obtain ⟨hname, hfields, -, -, hmethods⟩ := hs
    obtain rfl := hmethods rfl
    exact (Emits.nameOf _ hname).next fun _ => (emits_ofFields hfields).bind fun r =>
      .pure fun _ hr => .cons hr .nil
  | .object .guild ref fields parameters methods =>
    obtain ⟨hname, hfields, hparameters, hmethods, -⟩ := hs
    have hparams : ∀ p ∈ parameters.getD [], IsIdentifierName p.name := by
      cases parameters with
      | none => simp
      | some ps => exact hparameters ps rfl
    refine (Emits.nameOf _ hname).next fun _ => (emits_paramNames hparams).next fun _ => ?_
    exact (emits_ofSettings hfields).bind fun settings =>
      (emits_ofMethods methods hmethods hnested).bind fun ms =>
        .pure fun _ hms hsettings => .cons hsettings hms
  | .print e | .increment e | .decrement e | .return_ e | .call e =>
    exact (emits_ofExpr e hs).bind fun w => .pure fun _ hw => .cons (.single hw.written) .nil
  | .assign target source =>
    exact (emits_ofExpr target hs.1).bind fun t => (emits_ofExpr source hs.2).bind fun w =>
      .pure fun _ hw ht => .cons (.cons ht.written (.single hw.written)) .nil
  | .branch test body alternate =>
    obtain ⟨hbody, halternate⟩ := List.forall_mem_append.1 hnested
    exact (emits_ofExpr test hs).bind fun t => (emits_ofBlock body hbody).bind fun b =>
      (emits_ofAlternate alternate halternate).bind fun a => .pure fun _ ha hb ht =>
        .cons (.single ht.written) (hb.append ha)
  | .while_ e body =>
    exact (emits_ofExpr e hs).bind fun w => (emits_ofBlock body hnested).bind fun b =>
      .pure fun _ hb hw => .cons (.single hw.written) hb
  | .repeat_ count body =>
    refine (emits_fresh "i").next fun _ => (emits_limitName count).next fun _ => ?_
    exact (emits_ofExpr count hs).bind fun w => (emits_ofBlock body hnested).bind fun b =>
      .pure fun _ hb hw => .cons (.single hw.written) hb
  | .range iterator low kind high body =>
    refine (Emits.nameOf _ hs.1.name).next fun _ => (emits_ofExpr low hs.2.1).bind fun l => ?_
    exact (emits_ofExpr high hs.2.2).bind fun h => (emits_ofBlock body hnested).bind fun b =>
      .pure fun _ hb hh hl => .cons (.cons hl.written (.single hh.written)) hb
  | .forEach iterator collection body =>
    exact (Emits.nameOf _ hs.1.name).next fun _ => (emits_ofExpr collection hs.2).bind fun c =>
      (emits_ofBlock body hnested).bind fun b => .pure fun _ hb hc => .cons (.single hc.written) hb
  | .shortReturn | .break_ => exact .pure fun _ => .cons .nil .nil
  | .foreignRange .. | .expr _ | .bare .. | .misplaced .. => exact hs.elim

theorem emits_ofBlock (ss : List Typed.Stmt) (hss : Typed.blockFormed ss) :
    Emits (ofBlock ss) fun _ b => StmtsWritten (Typed.blockInside ss) (blockInside b) := by
  match ss with
  | [] => exact .pure fun _ => .nil
  | s :: rest =>
    obtain ⟨hs, hothers⟩ := List.forall_mem_cons.1 hss
    obtain ⟨hnested, hrest⟩ := List.forall_mem_append.1 hothers
    exact (emits_ofStmt s hs hnested).bind fun st => (emits_ofBlock rest hrest).bind fun b =>
      .pure fun _ hb hst => hst.append hb

theorem emits_ofMethods (ms : List Typed.Method)
    (hown : ∀ f ∈ ms.map Typed.Method.func, f.Own IsIdentifierName)
    (hms : ∀ s ∈ Typed.methodsInside ms, s.FormedHere) :
    Emits (ofMethods ms) fun _ ws =>
      StmtsWritten (Typed.methodsInside ms) (methodsInside ws) := by
  match ms with
  | [] => exact .pure fun _ => .nil
  | .mk f body :: rest =>
    obtain ⟨hf, hothers⟩ := List.forall_mem_cons.1 hown
    obtain ⟨hbody, hrest⟩ := List.forall_mem_append.1 hms
    exact (emits_varNames hf.params).next fun _ => (emits_ofBlock body hbody).bind fun b =>
      (emits_ofMethods rest hothers hrest).bind fun ws => .pure fun _ hws hb => hb.append hws

theorem emits_ofAlternate (a : Typed.Alternate) (ha : ∀ s ∈ a.inside, s.FormedHere) :
    Emits (ofAlternate a) fun _ w => StmtsWritten a.inside w.inside := by
  match a with
  | .none => exact .pure fun _ => .nil
  | .block body => exact (emits_ofBlock body ha).bind fun b => .pure fun _ hb => hb
  | .chain test body alternate =>
    obtain ⟨htest, hothers⟩ := List.forall_mem_cons.1 ha
    obtain ⟨hbody, halternate⟩ := List.forall_mem_append.1 hothers
    exact (emits_ofExpr test htest).bind fun t => (emits_ofBlock body hbody).bind fun b =>
      (emits_ofAlternate alternate halternate).bind fun a => .pure fun _ ha hb ht =>
        .cons (.single ht.written) (hb.append ha)

end

/-! ### Programs -/

theorem blockFormed_of_accepted {file source : String} {tree : Tree.Program}
    {program : Typed.Program} (htree : Tree.Program.ofSource file source = .ok tree)
    (haccepted : (Checked.ofTree tree).result = .ok program) :
    Typed.blockFormed program.statements := by
  have hwell := (sound_of_accepted haccepted).1
  have hidentifiers := Tree.named_of_ofSource (fun _ hname => hname) htree
  obtain ⟨hnamed, hobjects⟩ := named_of_accepted hidentifiers haccepted
  exact Typed.blockFormed_of_wellTyped (.initial hobjects) program.statements hwell hnamed

/-- A script can be written for every source text that is accepted, with the templates of the
program. -/
theorem exists_script {file source : String} {tree : Tree.Program} {program : Typed.Program}
    (htree : Tree.Program.ofSource file source = .ok tree)
    (haccepted : (Checked.ofTree tree).result = .ok program) :
    ∃ script, ofProgram program = .ok script ∧ (∀ w ∈ blockExprs script, w.Inert) ∧
      Matches program.templates (templates script) := by
  have hformed := blockFormed_of_accepted htree haccepted
  obtain ⟨script, names, hrun, -, -, hwritten⟩ :=
    emits_ofBlock program.statements hformed ⟨0, []⟩ nofun
  obtain ⟨hinert, hmatches⟩ := hwritten names fun _ _ hn => hn
  refine ⟨script, ?_, hinert, hmatches⟩
  show (ofBlock program.statements ⟨0, []⟩).map (·.1) = _
  rw [hrun]
  rfl

end Dragon.Script
