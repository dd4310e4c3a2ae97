import Dragon.Proofs.Script.Inside
import Dragon.Proofs.Script.Walk

/-!
# Writing expressions

Where all symbols of a context have visible names, every expression that is placed in it can be
written, no name is given for it, and all names in what is written are visible.
-/
namespace Dragon.Script

/-- A writer that only recalls names gives a value with a property, now and when more are given. -/
def Recalls (m : Writer α) (names : Names) (P : α → Prop) : Prop :=
  ∃ a, (∀ later, names.KeptIn later → m later = .ok (a, later)) ∧ P a

namespace Recalls

variable {α β : Type} {m : Writer α} {f : α → Writer β} {names : Names} {P : α → Prop}
  {Q : β → Prop}

theorem run (h : Recalls m names P) : ∃ a, m names = .ok (a, names) ∧ P a := by
  obtain ⟨a, hrun, ha⟩ := h
  exact ⟨a, hrun names fun _ _ hn => hn, ha⟩

theorem pure {a : α} (h : P a) : Recalls (pure a) names P := ⟨a, fun _ _ => rfl, h⟩

theorem bind (hm : Recalls m names P) (hf : ∀ a, P a → Recalls (f a) names Q) :
    Recalls (m >>= f) names Q := by
  obtain ⟨a, hrun, ha⟩ := hm
  obtain ⟨b, hrun', hb⟩ := hf a ha
  exact ⟨b, fun later hlater =>
    (Writer.bind_eq (hrun later hlater)).trans (hrun' later hlater), hb⟩

end Recalls

variable {Γ : Context} {names : Names} {visible : List Name}

/-! ### Parts of expressions -/

theorem Visible.nameOf {symbol : Symbol} (h : Visible names visible symbol)
    (hsymbol : symbol.intrinsic = false) (base : String) :
    Recalls (Writer.nameOf (.symbol symbol.id) base) names (· ∈ visible) := by
  obtain hlibrary | ⟨n, hn, hlookup⟩ := h
  · rw [hsymbol] at hlibrary
    cases hlibrary
  · exact ⟨n, fun later hlater => Writer.nameOf_known (hlater _ _ hlookup) base, hn⟩

theorem reads_libraryName (name : String) : Reads visible (libraryName name).pieces := by
  unfold libraryName
  split <;> exact .plain _

theorem reads_ofLiteral (value : Typed.Value) (type : Ty) :
    Reads visible (ofLiteral value type).pieces := by
  unfold ofLiteral
  split
  · exact .plain _
  · split
    · exact .plain _
    · exact .plain _
    · split <;> exact .plain _
    · split <;> exact .plain _

theorem Reads.grouped {w : Expr} (h : Reads visible w.pieces) (e : Typed.Expr) :
    Reads visible (grouped e w).pieces := by
  unfold Script.grouped
  split
  · exact (h.append (.plain _)).text _
  · exact h

theorem Reads.ofBinary {l r : Expr} (hl : Reads visible l.pieces) (hr : Reads visible r.pieces)
    (op : BinaryOp) (type : Ty) : Reads visible (ofBinary op l r type).pieces := by
  have hoperation (symbol : String) : Reads visible (Expr.binary symbol l r).pieces :=
    hl.append (((hr.text _).text _).text _)
  unfold Script.ofBinary
  split
  · have hargs := Reads.joined ", " (List.forall_mem_singleton.2 (hoperation "/"))
    exact (Reads.plain _).append ((hargs.append (.plain _)).text _)
  · exact hoperation _

/-! ### Expressions -/

mutual

/-- Expressions use visible names only. -/
theorem reads_ofExpr (h : Knows Γ names visible) (e : Typed.Expr) (he : e.Placed Γ) :
    Recalls (ofExpr e) names fun w => Reads visible w.pieces := by
  match e with
  | .param p => exact ((h _ he.here).nameOf rfl p.name).bind fun n hn => .pure (Reads.nil.uses hn)
  | .var v | .func v =>
    unfold ofExpr
    split
    next => exact .pure (reads_libraryName _)
    next hlibrary =>
      refine ((h _ he.here).nameOf ?_ v.name).bind fun n hn => .pure (Reads.nil.uses hn)
      exact Bool.eq_false_iff.2 hlibrary
  | .self _ | .emptyOptional _ => exact .pure (.plain _)
  | .literal value type => exact .pure (reads_ofLiteral value type)
  | .unary .some e _ => exact reads_ofExpr h e (Typed.Expr.each_unary.1 he).2
  | .unary .not e _ | .unary .neg e _ =>
    exact (reads_ofExpr h e (Typed.Expr.each_unary.1 he).2).bind fun w hw =>
      .pure ((hw.grouped e).text _)
  | .binary op l r type =>
    obtain ⟨-, hl, hr⟩ := Typed.Expr.each_binary.1 he
    refine (reads_ofExpr h l hl).bind fun u hu => (reads_ofExpr h r hr).bind fun w hw => ?_
    exact .pure ((hu.grouped l).ofBinary (hw.grouped r) op type)
  | .ternary test c a _ =>
    obtain ⟨-, htest, hc, ha⟩ := Typed.Expr.each_ternary.1 he
    refine (reads_ofExpr h test htest).bind fun t ht => (reads_ofExpr h c hc).bind fun u hu => ?_
    refine (reads_ofExpr h a ha).bind fun w hw => .pure ?_
    exact (ht.grouped test).append (((hu.grouped c).append ((hw.grouped a).text _)).text _)
  | .coalesce l r _ =>
    obtain ⟨-, hl, hr⟩ := Typed.Expr.each_coalesce.1 he
    refine (reads_ofExpr h l hl).bind fun u hu => (reads_ofExpr h r hr).bind fun w hw => ?_
    exact .pure ((hu.grouped l).append ((((hw.grouped r).text _).text _).text _))
  | .list elements _ =>
    refine (reads_ofExprs h elements he.part).bind fun ws hws => .pure ?_
    exact ((Reads.joined _ hws).append (.plain _)).text _
  | .emptyList _ => exact .pure ((Reads.plain _).text _)
  | .subscript c i _ =>
    obtain ⟨-, hc, hi⟩ := (Typed.Expr.each_pair rfl).1 he
    refine (reads_ofExpr h c hc).bind fun u hu => (reads_ofExpr h i hi).bind fun w hw => ?_
    exact .pure ((hu.grouped c).append ((hw.append (.plain _)).text _))
  | .member o access member _ =>
    refine (reads_ofExpr h o ((Typed.Expr.each_one rfl).1 he).2).bind fun w hw => .pure ?_
    exact (hw.grouped o).append ((Reads.plain _).text _)
  | .call callee args _ =>
    obtain ⟨hcallee, hvalues⟩ := List.forall_mem_cons.1 he.part
    refine (reads_ofArgs h args hvalues).bind fun ws hws => ?_
    have hargs := Reads.joined ", " hws
    split
    next => exact .pure ((hargs.append (.plain _)).text _)
    next =>
      refine (reads_ofExpr h callee hcallee).bind fun w hw => .pure ?_
      exact (hw.grouped callee).append ((hargs.append (.plain _)).text _)
  | .construct object args _ =>
    refine (reads_ofArgs h args he.part).bind fun ws hws => ?_
    refine ((h _ he.here).nameOf rfl object.name).bind fun n hn => .pure ?_
    exact ((((Reads.joined _ hws).append (.plain _)).text _).uses hn).text _
  | .template parts _ =>
    refine (reads_ofParts h parts he.part).bind fun ps hps => .pure ?_
    exact (hps.append (.plain _)).text _
  | .foreignUnary .. | .foreignBinary .. | .foreignMember .. | .object _ | .field _
  | .misplaced .. => exact he.here.elim

theorem reads_ofExprs (h : Knows Γ names visible) (es : List Typed.Expr)
    (hes : ∀ e ∈ es, e.Placed Γ) :
    Recalls (ofExprs es) names fun ws => ∀ run ∈ exprPieces ws, Reads visible run := by
  match es with
  | [] => exact .pure fun _ hrun => nomatch hrun
  | e :: rest =>
    obtain ⟨he, hrest⟩ := List.forall_mem_cons.1 hes
    refine (reads_ofExpr h e he).bind fun w hw =>
      (reads_ofExprs h rest hrest).bind fun ws hws => ?_
    exact .pure (List.forall_mem_cons.2 ⟨hw, hws⟩)

theorem reads_ofArgs (h : Knows Γ names visible) (args : List Typed.Arg)
    (hargs : ∀ e ∈ args.map Typed.Arg.value, e.Placed Γ) :
    Recalls (ofArgs args) names fun ws => ∀ run ∈ exprPieces ws, Reads visible run := by
  match args with
  | [] => exact .pure fun _ hrun => nomatch hrun
  | .mk _ value :: rest =>
    obtain ⟨hvalue, hrest⟩ := List.forall_mem_cons.1 hargs
    refine (reads_ofExpr h value hvalue).bind fun w hw => ?_
    refine (reads_ofArgs h rest hrest).bind fun ws hws => ?_
    exact .pure (List.forall_mem_cons.2 ⟨hw, hws⟩)

theorem reads_ofParts (h : Knows Γ names visible) (parts : List Typed.Part)
    (hparts : ∀ e ∈ parts.filterMap Typed.Part.value?, e.Placed Γ) :
    Recalls (ofParts parts) names fun ps => Reads visible (partPieces ps) := by
  match parts with
  | [] => exact .pure .nil
  | .text _ :: rest =>
    exact (reads_ofParts h rest hparts).bind fun ps hps => .pure (hps.text _)
  | .hole e :: rest =>
    obtain ⟨he, hrest⟩ := List.forall_mem_cons.1 hparts
    refine (reads_ofExpr h e he).bind fun w hw => ?_
    refine (reads_ofParts h rest hrest).bind fun ps hps => .pure ?_
    exact (hw.append (hps.text _)).text _

end

/-- A chain is written from what it begins with. -/
theorem rooted_ofExpr (h : Knows Γ names visible) (e : Typed.Expr) (he : e.Placed Γ) {w : Expr}
    (hrun : ofExpr e names = .ok (w, names)) : Rooted names e w := by
  cases e with
  | var v =>
    intro hown
    obtain hlibrary | ⟨n, -, hlookup⟩ := h _ he.here
    · cases hlibrary.symm.trans hown
    · rw [ofExpr, if_neg (by simp [hown])] at hrun
      cases (Writer.bind_eq (Writer.nameOf_known hlookup v.name)).symm.trans hrun
      exact ⟨n, hlookup, rfl⟩
  | self =>
    cases hrun
    rfl
  | subscript c i =>
    obtain ⟨-, hc, hi⟩ := (Typed.Expr.each_pair rfl).1 he
    obtain ⟨u, hu, -⟩ := (reads_ofExpr h c hc).run
    obtain ⟨k, hk, -⟩ := (reads_ofExpr h i hi).run
    rw [ofExpr, Writer.bind_eq hu, Writer.bind_eq hk] at hrun
    cases hrun
    exact (rooted_ofExpr h c hc hu).chain rfl (root_grouped c u)
  | member o access member =>
    have ho := ((Typed.Expr.each_one rfl).1 he).2
    obtain ⟨u, hu, -⟩ := (reads_ofExpr h o ho).run
    rw [ofExpr, Writer.bind_eq hu] at hrun
    cases hrun
    exact (rooted_ofExpr h o ho hu).chain rfl (root_grouped o u)
  | _ => trivial

/-! ### Fields -/

theorem reads_settings (depth : Nat) {settings : List Setting}
    (h : ∀ s ∈ settings, Reads visible s.value.pieces) :
    Reads visible (settings.map (settingPieces depth)).flatten := by
  induction settings with
  | nil => exact .nil
  | cons s rest ih =>
    obtain ⟨hs, hrest⟩ := List.forall_mem_cons.1 h
    refine Reads.append ?_ (ih hrest)
    exact ((((hs.append (.plain _)).text _).text _).text _).text _

theorem reads_ofSettings (h : Knows Γ names visible) (fields : List Typed.FieldInit)
    (hfields : ∀ f ∈ fields, f.Placed Γ .guild) :
    Recalls (ofSettings fields) names fun settings =>
      (∀ s ∈ settings, Reads visible s.value.pieces) ∧
        ∀ later, names.KeptIn later → List.Forall₂ (SetsField later) fields settings := by
  induction fields with
  | nil => exact .pure ⟨List.forall_mem_nil _, fun _ _ => .nil⟩
  | cons f rest ih =>
    obtain ⟨hf, hrest⟩ := List.forall_mem_cons.1 hfields
    obtain ⟨field, value⟩ := f
    cases value with
    | none => exact hf.elim
    | some e =>
      obtain ⟨w, hrun, hw⟩ := reads_ofExpr h e hf
      have hvalue : Recalls (ofExpr e) names (· = w) := ⟨w, hrun, rfl⟩
      refine hvalue.bind fun _ heq => (ih hrest).bind fun settings hsettings => .pure ?_
      subst heq
      refine ⟨List.forall_mem_cons.2 ⟨hw, hsettings.1⟩, fun later hlater => ?_⟩
      exact .cons ⟨rfl, e, rfl, hrun later hlater⟩ (hsettings.2 later hlater)

end Dragon.Script
