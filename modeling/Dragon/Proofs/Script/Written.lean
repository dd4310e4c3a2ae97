import Dragon.Proofs.Check.Names
import Dragon.Proofs.Script.Inside
import Dragon.Proofs.Script.Neutral
import Dragon.Proofs.Token.Words

/-!
# What is written for the expressions of a program

What is written holds no marks outside of strings and templates, and its templates are those of the
program, one for one: the same texts, and in place of every other part what was written for it.
-/
namespace Dragon

/-! ### Names in scope -/

/-- All members, and all symbols in scope that are not of the library, have names of a property. -/
structure KnownNames (W : String → Prop) (T : Objects) (Γ : Context) : Prop where
  objects : ∀ info ∈ T, info.Named W
  symbols : ∀ symbol ∈ Γ.symbols, symbol ∈ Context.initial.symbols ∨ symbol.Own W

namespace KnownNames

variable {W : String → Prop} {T : Objects} {Γ : Context}

theorem initial (h : ∀ info ∈ T, info.Named W) : KnownNames W T .initial := ⟨h, fun _ => .inl⟩

theorem bind (names : KnownNames W T Γ) {symbols : List Symbol}
    (h : ∀ symbol ∈ symbols, symbol.Own W) : KnownNames W T (Γ.bind symbols) :=
  ⟨names.objects, List.forall_mem_append.2 ⟨fun symbol hs => .inr (h symbol hs), names.symbols⟩⟩

theorem within (names : KnownNames W T Γ) (flags : Flags) : KnownNames W T (Γ.within flags) :=
  ⟨names.objects, names.symbols⟩

theorem body (names : KnownNames W T Γ) {f : Func} (h : f.Own W) (guild : Option ObjectRef) :
    KnownNames W T (Typed.bodyContext Γ f guild) :=
  (names.bind (List.forall_mem_map.2 h.params)).within _

theorem forge (names : KnownNames W T Γ) {parameters : Option (List ForgeParam)}
    (h : ∀ ps, parameters = some ps → ∀ p ∈ ps, W p.name) (ref : ObjectRef) :
    KnownNames W T (Typed.forgeContext Γ ref parameters) := by
  have hparams : ∀ p ∈ parameters.getD [], W p.name := by
    cases parameters with
    | none => simp
    | some ps => exact h ps rfl
  exact (names.bind (List.forall_mem_map.2 hparams)).within _

/-- What a statement declares is known after it. -/
theorem after (names : KnownNames W T Γ) {s : Typed.Stmt} (h : s.Named W) :
    KnownNames W T (Γ.bind s.declared) := by
  refine names.bind ?_
  cases s with
  | declare mutable v init => exact List.forall_mem_singleton.2 h
  | function f body => exact List.forall_mem_singleton.2 h.1
  | object kind ref fields parameters methods => exact List.forall_mem_singleton.2 h.1
  | _ => exact fun symbol hsymbol => nomatch hsymbol

end KnownNames

namespace Script

/-- A name without marks. -/
def InertName (s : String) : Prop := Inert s.toList

theorem inertName_of_isIdentifier {s : String} (h : IsIdentifierName s) : InertName s := by
  intro c hc hmark
  have hword := IsIdentifier.isWordChar h c hc
  simp only [marks, List.mem_cons, List.not_mem_nil, or_false] at hmark
  obtain rfl | rfl | rfl | rfl | rfl := hmark <;> exact absurd hword (by decide)

end Script

/-! ### Templates -/

namespace Typed

mutual

/-- The interpolated strings in an expression, those in the parts of others included. -/
def Expr.templates : Expr → List (List Part)
  | .var _ | .param _ | .func _ | .self _ | .literal .. | .emptyOptional _ | .emptyList _
  | .object _ | .field _ | .misplaced .. => []
  | .unary _ e _ | .foreignUnary _ e _ | .member e _ _ _ | .foreignMember e _ _ _ _ => e.templates
  | .binary _ l r _ | .foreignBinary _ l r _ | .coalesce l r _ | .subscript l r _ =>
    l.templates ++ r.templates
  | .ternary test consequent alternate _ =>
    test.templates ++ consequent.templates ++ alternate.templates
  | .list elements _ => elementTemplates elements
  | .call callee args _ => callee.templates ++ argTemplates args
  | .construct _ args _ => argTemplates args
  | .template parts _ => parts :: partTemplates parts

def elementTemplates : List Expr → List (List Part)
  | [] => []
  | e :: rest => e.templates ++ elementTemplates rest

def argTemplates : List Arg → List (List Part)
  | [] => []
  | .mk _ value :: rest => value.templates ++ argTemplates rest

def partTemplates : List Part → List (List Part)
  | [] => []
  | .text _ :: rest => partTemplates rest
  | .hole e :: rest => e.templates ++ partTemplates rest

end

/-- The expressions of some statements and of the blocks in them, the values of fields included. -/
def blockExprs (ss : List Stmt) : List Expr := (blockInside ss).flatMap Stmt.direct

/-- The interpolated strings of a program, those in the parts of others included. -/
def Program.templates (p : Program) : List (List Part) :=
  (blockExprs p.statements).flatMap Expr.templates

end Typed

namespace Script

/-- The expressions of some statements and of the blocks in them. -/
def blockExprs (script : List Stmt) : List Expr := (blockInside script).flatMap Stmt.direct

/-- The template literals of a script, those in the substitutions of others included. -/
def templates (script : List Stmt) : List (List Part) :=
  (blockExprs script).flatMap Expr.templates

/-- A part and what is written for it. -/
def Renders : Typed.Part → Part → Prop
  | .text s, .text t => t = s
  | .hole e, .hole w => ∃ names names', ofExpr e names = .ok (w, names')
  | _, _ => False

/-- Templates and what is written for them. -/
def Matches : List (List Typed.Part) → List (List Part) → Prop :=
  List.Forall₂ (List.Forall₂ Renders)

theorem Matches.append {ts ts' : List (List Typed.Part)} {us us' : List (List Part)}
    (h : Matches ts us) (h' : Matches ts' us') : Matches (ts ++ ts') (us ++ us') :=
  List.rel_append h h'

/-! ### Expressions -/

/-- What is written for an expression. -/
structure Written (e : Typed.Expr) (w : Expr) : Prop where
  inert : w.Inert
  templates : Matches e.templates w.templates

namespace Written

variable {e left right : Typed.Expr} {w l r : Expr}

theorem libraryName (he : e.templates = []) {name : String} (h : InertName name) :
    Written e (libraryName name) := by
  unfold Script.libraryName
  refine ⟨?_, ?_⟩
  · split <;> first | exact trivial | exact h | (show Inert _; decide)
  · rw [he]
    split <;> exact .nil

theorem name (he : e.templates = []) {n : Name} (hn : IsIdentifier n.base.toList) :
    Written e (.name n) := by
  refine ⟨inertName_of_isIdentifier hn, ?_⟩
  rw [he]
  exact .nil

theorem grouped (h : Written e w) : Written e (grouped e w) := by
  unfold Script.grouped
  split
  · exact ⟨h.inert, h.templates⟩
  · exact h

/-- The operands of a quotient stand in the argument of a call. -/
theorem binary (op : BinaryOp) {type : Ty} (hl : Written left l) (hr : Written right r) :
    Written (.binary op left right type) (ofBinary op l r type) := by
  have htemplates := hl.templates.append hr.templates
  unfold ofBinary
  split
  · refine ⟨⟨by show Inert _; decide, ⟨by decide, hl.inert, hr.inert⟩, trivial⟩, ?_⟩
    simpa [Typed.Expr.templates, Expr.templates, exprsTemplates] using htemplates
  · exact ⟨⟨by cases op <;> decide, hl.inert, hr.inert⟩, htemplates⟩

end Written

theorem templates_of_isEncoder {callee : Typed.Expr} (h : isEncoder callee = true) :
    callee.templates = [] := by
  cases callee with
  | func f => rfl
  | _ => cases h

/-- What is written for some expressions, and for names beside them. -/
structure AllWritten (es : List Typed.Expr) (ws : List Expr) : Prop where
  inert : ∀ w ∈ ws, w.Inert
  templates : Matches (es.flatMap Typed.Expr.templates) (ws.flatMap Expr.templates)

namespace AllWritten

variable {e : Typed.Expr} {w : Expr} {es es' : List Typed.Expr} {ws ws' : List Expr}

theorem nil : AllWritten [] [] := ⟨by simp, .nil⟩

theorem cons (h : Written e w) (hs : AllWritten es ws) : AllWritten (e :: es) (w :: ws) :=
  ⟨List.forall_mem_cons.2 ⟨h.inert, hs.inert⟩, h.templates.append hs.templates⟩

theorem single (h : Written e w) : AllWritten [e] [w] := .cons h .nil

theorem append (h : AllWritten es ws) (h' : AllWritten es' ws') :
    AllWritten (es ++ es') (ws ++ ws') := by
  refine ⟨List.forall_mem_append.2 ⟨h.inert, h'.inert⟩, ?_⟩
  rw [List.flatMap_append, List.flatMap_append]
  exact h.templates.append h'.templates

theorem name {n : Name} (h : InertName n.base) (hs : AllWritten es ws) :
    AllWritten es (.name n :: ws) :=
  ⟨List.forall_mem_cons.2 ⟨h, hs.inert⟩, hs.templates⟩

end AllWritten

/-- Statements and what is written for them, by their expressions. -/
def StmtsWritten (ss : List Typed.Stmt) (ws : List Stmt) : Prop :=
  AllWritten (ss.flatMap Typed.Stmt.direct) (ws.flatMap Stmt.direct)

namespace StmtsWritten

variable {s : Typed.Stmt} {w : Stmt} {ss ss' : List Typed.Stmt} {ws ws' : List Stmt}

theorem nil : StmtsWritten [] [] := AllWritten.nil

theorem cons (h : AllWritten s.direct w.direct) (hs : StmtsWritten ss ws) :
    StmtsWritten (s :: ss) (w :: ws) :=
  h.append hs

theorem append (h : StmtsWritten ss ws) (h' : StmtsWritten ss' ws') :
    StmtsWritten (ss ++ ss') (ws ++ ws') := by
  unfold StmtsWritten
  rw [List.flatMap_append, List.flatMap_append]
  exact AllWritten.append h h'

end StmtsWritten

end Script

end Dragon
