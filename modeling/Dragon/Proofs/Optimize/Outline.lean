import Dragon.Proofs.Optimize.Inside
import Dragon.Proofs.Optimize.Placed
import Mathlib.Data.List.Pairwise

/-!
# What the outline of a program shows of functions, matters and guilds

Functions, matters and guilds refer to each other in circles: a function calls itself, a method
names its guild, a guild holds a list of its own kind. An outline that looks each of them up where
it is declared, and only there, comes to an end with no more lookups inside each other than there
are statements. It shows whatever is declared in full at its declaration and nowhere else; all that
an expression names is one line.
-/
namespace Dragon

/-! ### Outlines -/

namespace Outline

mutual

/-- The functions and objects that an outline shows in full, and its single lines. -/
def marks : Outline → List Outline
  | leaf line => [leaf line]
  | node title entries =>
    (if title ∈ ["Function", "ObjectType"] then [node title entries] else []) ++ entryMarks entries

def entryMarks : List Entry → List Outline
  | [] => []
  | .text _ _ :: rest => entryMarks rest
  | .child _ content :: rest => content.marks ++ entryMarks rest
  | .items _ contents :: rest => itemMarks contents ++ entryMarks rest

def itemMarks : List Outline → List Outline
  | [] => []
  | content :: rest => content.marks ++ itemMarks rest

end

theorem itemMarks_map_eq_nil {α : Type} {f : α → Outline} (hf : ∀ a, (f a).marks = [])
    (as : List α) : itemMarks (as.map f) = [] := by
  induction as with
  | nil => rfl
  | cons a rest ih => rw [List.map_cons, itemMarks, hf, ih, List.nil_append]

end Outline

namespace Typed

open Outline

/-! ### Looking up declarations -/

def useOfSymbol : Symbol → Outline
  | .var v => useOfVar v
  | .param p => useOf "FieldArgument" p.name p.type
  | .func f _ => useOfFunc f
  | .object o => useOfObject o

/-- A symbol is one line unless it is being declared. -/
def symbolBy (full : Symbol → Option Outline) (declaring : Bool) (symbol : Symbol) :
    Option Outline :=
  if declaring then full symbol else some (useOfSymbol symbol)

mutual

/-- The outline of a statement by what is shown of symbols in full. The contents that stand at a
declaration are not looked at. -/
def Stmt.outlineBy (full : Symbol → Option Outline) (declaring : Bool) : Stmt → Option Outline
  | .function f _ => do
    return .node "FunctionDeclaration" [.child "function" (← symbolBy full true (.func f true))]
  | .object kind ref _ _ _ => do
    return .node kind.title [.child "type" (← symbolBy full true (.object ref))]
  | .branch test body alternate => do
    return branchOutline test (← outlinesBy full false body) (← alternate.entryBy full)
  | .while_ test body => do
    return .node "WhileStatement"
      (entryOf "test" test test.outline ++ [.items "body" (← outlinesBy full false body)])
  | .repeat_ count body => do
    return .node "RepeatStatement"
      (entryOf "count" count count.outline ++ [.items "body" (← outlinesBy full false body)])
  | .range iterator low kind high body => do
    return .node "ForRangeStatement"
      (.child "iterator" (useOfVar iterator) :: entryOf "low" low low.outline ++
        opEntry kind.text :: entryOf "high" high high.outline ++
        [.items "body" (← outlinesBy full false body)])
  | .forEach iterator collection body => do
    return .node "ForEachStatement"
      (.child "iterator" (useOfVar iterator) ::
        entryOf "collection" collection collection.outline ++
        [.items "body" (← outlinesBy full false body)])
  | .expr (.func f) => symbolBy full declaring (.func f true)
  | .expr (.object o) => symbolBy full declaring (.object o)
  | s => some ((if declaring then fullOutline? s else none).getD s.outline)

def outlinesBy (full : Symbol → Option Outline) (declaring : Bool) :
    List Stmt → Option (List Outline)
  | [] => some []
  | s :: rest => do return (← s.outlineBy full declaring) :: (← outlinesBy full declaring rest)

def Alternate.entryBy (full : Symbol → Option Outline) : Alternate → Option (Option Entry)
  | .none => some none
  | .block body => do return some (.items "alternate" (← outlinesBy full false body))
  | .chain test body alternate => do
    return some (.child "alternate"
      (branchOutline test (← outlinesBy full false body) (← alternate.entryBy full)))

end

def methodsBy (full : Symbol → Option Outline) : List Method → Option (List Outline)
  | [] => some []
  | .mk f body :: rest => do
    return declaredFunc f (← outlinesBy full true body) :: (← methodsBy full rest)

/-- A symbol in full, with at most so many lookups inside each other. -/
def fullBy (declaration? : Nat → Option Stmt) : Nat → Symbol → Option Outline
  | _, .var v => some (declaredVar v)
  | _, .param p => some (declaredParam p)
  | 0, _ => none
  | fuel + 1, .func f _ =>
    match declaration? f.id with
    | some (.function _ body) =>
      (outlinesBy (fullBy declaration? fuel) true body).map (declaredFunc f)
    | _ => none
  | fuel + 1, .object o =>
    match declaration? o.id with
    | some (.object _ _ fields parameters methods) =>
      (methodsBy (fullBy declaration? fuel) methods).map (declaredObject o fields parameters)
    | _ => none

/-- The number of the function or object that a statement declares. -/
def Stmt.number? : Stmt → Option Nat
  | .function f _ => some f.id
  | .object _ ref _ _ _ => some ref.id
  | _ => none

def Program.declaration? (p : Program) (id : Nat) : Option Stmt :=
  p.inside.find? (·.number? == some id)

/-- Statements whose declarations are found, and as many lookups as there are statements. -/
structure Resolves (declaration? : Nat → Option Stmt) (fuel : Nat) (ss : List Stmt) : Prop where
  finds : ∀ s ∈ ss, ∀ id, s.number? = some id → declaration? id = some s
  enough : ss.length ≤ fuel

section Lookup

variable {declaration? : Nat → Option Stmt}

theorem Resolves.append {fuel : Nat} {l l' : List Stmt}
    (h : Resolves declaration? fuel (l ++ l')) :
    Resolves declaration? fuel l ∧ Resolves declaration? fuel l' := by
  obtain ⟨hfinds, hfuel⟩ := h
  obtain ⟨hleft, hright⟩ := List.forall_mem_append.1 hfinds
  rw [List.length_append] at hfuel
  exact ⟨⟨hleft, by omega⟩, hright, by omega⟩

theorem Resolves.tail {fuel : Nat} {s : Stmt} {ss : List Stmt}
    (h : Resolves declaration? fuel (s :: ss)) : Resolves declaration? fuel ss :=
  (Resolves.append (l := [s]) h).2

/-- The contents of a declaration are reached with one lookup less. -/
theorem Resolves.step {fuel : Nat} {s : Stmt} {ss : List Stmt}
    (h : Resolves declaration? fuel (s :: ss)) :
    ∃ n, fuel = n + 1 ∧ Resolves declaration? n ss := by
  obtain ⟨n, hn⟩ := Nat.exists_eq_add_of_le' h.enough
  refine ⟨ss.length + n, by simp [hn]; omega, h.tail.finds, by omega⟩

/-- Nothing that is only named stands among placed statements. -/
theorem bodyOutlines_eq {Γ : Context} {ss : List Stmt} (hss : blockPlaced Γ ss) :
    bodyOutlines ss = stmtOutlines ss := by
  induction ss generalizing Γ with
  | nil => rfl
  | cons s rest ih =>
    have hfull : fullOutline? s = none := by
      cases s <;> first | rfl | exact hss.1.elim
    rw [bodyOutlines, stmtOutlines, hfull, ih hss.2, Option.getD_none]

mutual

/-- With enough fuel every symbol is resolved, and the outline is complete. -/
theorem Stmt.outlineBy_eq {Γ : Context} {fuel : Nat} (declaring : Bool) (s : Stmt)
    (hs : s.Placed Γ) (h : Resolves declaration? fuel (s :: s.nested)) :
    s.outlineBy (fullBy declaration? fuel) declaring = some s.outline := by
  have hfound := h.finds s List.mem_cons_self
  match s with
  | .function f body =>
    obtain ⟨n, rfl, hbody⟩ := h.step
    simp [Stmt.outlineBy, Stmt.outline, symbolBy, fullBy, hfound f.id rfl,
      outlinesBy_eq true body hs hbody, bodyOutlines_eq hs]
  | .object kind ref fields parameters methods =>
    obtain ⟨n, rfl, hmethods⟩ := h.step
    simp [Stmt.outlineBy, Stmt.outline, symbolBy, fullBy, hfound ref.id rfl,
      methodsBy_eq methods hs.2.1 hmethods]
  | .branch test body alternate =>
    obtain ⟨hbody, halternate⟩ := h.tail.append
    simp [Stmt.outlineBy, Stmt.outline, outlinesBy_eq false body hs.2.1 hbody,
      alternate.entryBy_eq hs.2.2 halternate]
  | .while_ _ body | .repeat_ _ body | .forEach _ _ body =>
    simp [Stmt.outlineBy, Stmt.outline, outlinesBy_eq false body hs.2 h.tail]
  | .range _ _ _ _ body =>
    simp [Stmt.outlineBy, Stmt.outline, outlinesBy_eq false body hs.2.2 h.tail]
  | .foreignRange .. | .expr _ | .bare .. | .misplaced .. => exact hs.elim
  | .declare .. | .print _ | .increment _ | .decrement _ | .assign .. | .return_ _ | .shortReturn
  | .break_ | .call _ => cases declaring <;> rfl

theorem outlinesBy_eq {Γ : Context} {fuel : Nat} (declaring : Bool) (ss : List Stmt)
    (hss : blockPlaced Γ ss) (h : Resolves declaration? fuel (blockInside ss)) :
    outlinesBy (fullBy declaration? fuel) declaring ss = some (stmtOutlines ss) := by
  match ss with
  | [] => rfl
  | s :: rest =>
    obtain ⟨hs, hrest⟩ := Resolves.append (l := s :: s.nested) h
    simp [outlinesBy, stmtOutlines, s.outlineBy_eq declaring hss.1 hs,
      outlinesBy_eq declaring rest hss.2 hrest]

theorem methodsBy_eq {Γ : Context} {fuel : Nat} {ref : ObjectRef} (ms : List Method)
    (hms : methodsPlaced Γ ref ms) (h : Resolves declaration? fuel (methodsInside ms)) :
    methodsBy (fullBy declaration? fuel) ms = some (methodOutlines ms) := by
  match ms with
  | [] => rfl
  | .mk f body :: rest =>
    obtain ⟨hbody, hrest⟩ := Resolves.append h
    simp [methodsBy, methodOutlines, outlinesBy_eq true body hms.1 hbody,
      methodsBy_eq rest hms.2 hrest, bodyOutlines_eq hms.1]

theorem Alternate.entryBy_eq {Γ : Context} {fuel : Nat} (a : Alternate) (ha : a.Placed Γ)
    (h : Resolves declaration? fuel a.inside) :
    a.entryBy (fullBy declaration? fuel) = some (alternateEntry a) := by
  match a with
  | .none => rfl
  | .block body => simp [Alternate.entryBy, alternateEntry, outlinesBy_eq false body ha h]
  | .chain test body alternate =>
    obtain ⟨hbody, halternate⟩ := h.tail.append
    simp [Alternate.entryBy, alternateEntry, outlinesBy_eq false body ha.2.1 hbody,
      alternate.entryBy_eq ha.2.2 halternate]

end

end Lookup

/-! ### What is shown -/

def Part.line? : Part → Option Outline
  | .text s => some (.leaf (Text.quoted s))
  | .hole _ => none

/-- The lines of an expression without its parts: those of the symbols that it names, and the texts
of a template. -/
def Expr.lines : Expr → List Outline
  | .var v => [useOfVar v]
  | .param p => [useOfSymbol (.param p)]
  | .func f => [useOfFunc f]
  | .member _ _ m _ => [useOfMember m]
  | .construct ref _ _ => [useOfObject ref]
  | .template parts _ => parts.filterMap Part.line?
  | _ => []

/-- What a statement declares in full, its methods included, or else the line of its variable. -/
def Stmt.declaredOutlines : Stmt → List Outline
  | .function f body => [declaredFunc f (bodyOutlines body)]
  | .object _ ref fields parameters methods =>
    declaredObject ref fields parameters (methodOutlines methods) :: methodOutlines methods
  | .declare _ v _ | .range v _ _ _ _ | .forEach v _ _ => [useOfVar v]
  | _ => []

/-- What a statement shows, without the statements in it. -/
def Stmt.marks (s : Stmt) : List Outline :=
  s.declaredOutlines ++ s.direct.flatMap fun e => e.inside.flatMap Expr.lines

section Marks

variable {Γ : Context}

attribute [local simp] marks entryMarks itemMarks typeEntry opEntry nameEntry boolEntry useOf
  useOfVar useOfFunc useOfObject useOfMember Expr.lines Expr.parts Arg.value

theorem entryOf_eq {e : Expr} (he : e.Placed Γ) (label : String) (outline : Outline) :
    entryOf label e outline = [.child label outline] := by
  cases e with
  | misplaced shown optimized => exact he.here.elim
  | _ => rfl

theorem itemMarks_elements (es : List Expr) :
    itemMarks (exprOutlines es) = es.flatMap fun e => e.outline.marks := by
  induction es with
  | nil => rfl
  | cons e rest ih => rw [exprOutlines, itemMarks, ih, List.flatMap_cons]

theorem itemMarks_args {args : List Arg} (hargs : ∀ e ∈ args.map Arg.value, e.Placed Γ) :
    itemMarks (argOutlines args) = (args.map Arg.value).flatMap fun e => e.outline.marks := by
  induction args with
  | nil => rfl
  | cons a rest ih =>
    obtain ⟨name, value⟩ := a
    obtain ⟨hvalue, hrest⟩ := List.forall_mem_cons.1 hargs
    have hentry := entryOf_eq hvalue "value" value.outline
    cases name <;> simp_all [argOutlines]

theorem itemMarks_parts (parts : List Part) :
    (itemMarks (partOutlines parts)).Perm (parts.filterMap Part.line? ++
      (parts.filterMap Part.value?).flatMap fun e => e.outline.marks) := by
  induction parts with
  | nil => exact .nil
  | cons p rest ih =>
    cases p with
    | text s => exact ih.cons _
    | hole e => exact (ih.append_left _).trans (List.perm_append_comm_assoc _ _ _)

theorem Expr.marks_outline_parts {e : Expr} (he : e.Placed Γ) :
    e.outline.marks.Perm (e.lines ++ e.parts.flatMap fun p => p.outline.marks) := by
  have hentry : ∀ p ∈ e.parts, ∀ label outline, entryOf label p outline = [.child label outline] :=
    fun p hp => entryOf_eq (he.part p hp)
  cases e with
  | template parts t => simpa [Expr.outline] using itemMarks_parts parts
  | call callee args t =>
    simp_all [Expr.outline, itemMarks_args (List.forall_mem_cons.1 he.part).2]
  | construct ref args t => simp [Expr.outline, itemMarks_args he.part]
  | member e access m t => cases m <;> simp_all [Expr.outline]
  | foreignUnary | foreignBinary | foreignMember | object | field | misplaced =>
    exact he.here.elim
  | _ => simp_all [Expr.outline, itemMarks_elements, useOfSymbol]

theorem Expr.marks_outline (e : Expr) (he : e.Placed Γ) :
    e.outline.marks.Perm (e.inside.flatMap Expr.lines) := by
  induction e using Expr.induction_parts with
  | h e ih =>
    rw [e.inside_eq, List.flatMap_cons, List.flatMap_assoc]
    refine (marks_outline_parts he).trans (.append_left _ ?_)
    exact .flatMap_left _ fun p hp => ih p hp (he.part p hp)

theorem marks_declaredFunc (f : Func) (body : List Outline) :
    (declaredFunc f body).marks = declaredFunc f body :: itemMarks body := by
  have hparams : itemMarks (f.params.map declaredVar) = [] :=
    itemMarks_map_eq_nil (fun v => by simp [declaredVar]) _
  simp [declaredFunc, hparams]

theorem itemMarks_fields {kind : ObjectKind} {fields : List FieldInit}
    (hfields : ∀ f ∈ fields, f.Placed Γ kind) :
    (itemMarks (fields.map declaredField)).Perm
      ((fields.filterMap (·.value)).flatMap fun e => e.inside.flatMap Expr.lines) := by
  induction fields with
  | nil => exact .nil
  | cons f rest ih =>
    obtain ⟨hf, hrest⟩ := List.forall_mem_cons.1 hfields
    obtain ⟨field, value⟩ := f
    cases value with
    | none => simpa [declaredField] using ih hrest
    | some e =>
      have he : e.Placed Γ := by
        cases kind with
        | matter => exact hf.elim
        | guild => exact hf
      simpa [declaredField, entryOf_eq he] using (e.marks_outline he).append (ih hrest)

theorem marks_declaredObject (ref : ObjectRef) (fields : List FieldInit)
    (parameters : Option (List ForgeParam)) (methods : List Outline) :
    (declaredObject ref fields parameters methods).marks =
      declaredObject ref fields parameters methods ::
        (itemMarks (fields.map declaredField) ++ itemMarks methods) := by
  have hparams (ps : List ForgeParam) : itemMarks (ps.map declaredParam) = [] :=
    itemMarks_map_eq_nil (fun p => by simp [declaredParam]) ps
  cases parameters <;> simp [declaredObject, hparams]

theorem marks_branchOutline {test : Expr} (htest : test.Placed Γ) (body : List Outline)
    (alternate : Option Entry) : (branchOutline test body alternate).marks =
      test.outline.marks ++ (itemMarks body ++ entryMarks alternate.toList) := by
  cases alternate <;> simp [branchOutline, entryOf_eq htest]

attribute [local simp] Stmt.outline Stmt.marks Stmt.declaredOutlines Stmt.direct Stmt.nested

mutual

/-- An outline marks what its statements mark, at every depth. -/
theorem Stmt.marks_outline {Γ : Context} (s : Stmt) (hs : s.Placed Γ) :
    s.outline.marks.Perm ((s :: s.nested).flatMap Stmt.marks) := by
  match s with
  | .function f body =>
    simpa [marks_declaredFunc, bodyOutlines_eq hs] using itemMarks_block body hs
  | .object kind ref fields parameters methods =>
    have h := ((itemMarks_fields hs.1).append (itemMarks_methods methods hs.2.1)).trans
      (List.perm_append_comm_assoc _ _ _)
    cases kind <;> simpa [ObjectKind.title, marks_declaredObject] using h
  | .branch test body alternate =>
    simpa [marks_branchOutline hs.1] using (test.marks_outline hs.1).append
      ((itemMarks_block body hs.2.1).append (alternate.entryMarks_inside hs.2.2))
  | .while_ e body | .repeat_ e body | .forEach _ e body =>
    simpa [entryOf_eq hs.1] using (e.marks_outline hs.1).append (itemMarks_block body hs.2)
  | .range _ e _ e' body =>
    simpa [entryOf_eq hs.1, entryOf_eq hs.2.1] using (e.marks_outline hs.1).append
      ((e'.marks_outline hs.2.1).append (itemMarks_block body hs.2.2))
  | .declare mutable _ e => cases mutable <;> simpa [entryOf_eq hs] using e.marks_outline hs
  | .print e | .increment e | .decrement e | .call e =>
    simpa [entryOf_eq hs] using e.marks_outline hs
  | .return_ e => simpa [entryOf_eq hs.2] using e.marks_outline hs.2
  | .assign e e' =>
    simpa [entryOf_eq hs.1, entryOf_eq hs.2] using
      (e.marks_outline hs.1).append (e'.marks_outline hs.2)
  | .shortReturn | .break_ => simp
  | .foreignRange .. | .expr _ | .bare .. | .misplaced .. => exact hs.elim

theorem itemMarks_block {Γ : Context} (ss : List Stmt) (hss : blockPlaced Γ ss) :
    (itemMarks (stmtOutlines ss)).Perm ((blockInside ss).flatMap Stmt.marks) := by
  match ss with
  | [] => exact .nil
  | s :: rest =>
    rw [stmtOutlines, itemMarks, blockInside, ← List.cons_append, List.flatMap_append]
    exact (s.marks_outline hss.1).append (itemMarks_block rest hss.2)

theorem itemMarks_methods {Γ : Context} {ref : ObjectRef} (ms : List Method)
    (hms : methodsPlaced Γ ref ms) : (itemMarks (methodOutlines ms)).Perm
      (methodOutlines ms ++ (methodsInside ms).flatMap Stmt.marks) := by
  match ms with
  | [] => exact .nil
  | .mk f body :: rest =>
    have h := ((itemMarks_block body hms.1).append (itemMarks_methods rest hms.2)).trans
      (List.perm_append_comm_assoc _ _ _)
    simpa [methodOutlines, methodsInside, marks_declaredFunc, bodyOutlines_eq hms.1] using h

theorem Alternate.entryMarks_inside {Γ : Context} (a : Alternate) (ha : a.Placed Γ) :
    (entryMarks (alternateEntry a).toList).Perm (a.inside.flatMap Stmt.marks) := by
  match a with
  | .none => exact .nil
  | .block body => simpa [alternateEntry, Alternate.inside] using itemMarks_block body ha
  | .chain test body alternate =>
    simpa [alternateEntry, Alternate.inside, marks_branchOutline ha.1] using
      (test.marks_outline ha.1).append
        ((itemMarks_block body ha.2.1).append (alternate.entryMarks_inside ha.2.2))

end

end Marks

/-! ### Declarations -/

end Typed

open Typed

end Dragon
