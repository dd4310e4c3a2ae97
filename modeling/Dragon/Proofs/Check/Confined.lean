import Dragon.Proofs.Check.Expr
import Dragon.Proofs.Check.Steps

/-!
# How far checks reach

A statement changes the innermost frame of its scope at most, and what is checked in a frame of its
own leaves all frames around it alone. This holds even if a check fails: then the frames around are
still there, under those that were entered.
-/
namespace Dragon

/-- A name is not bound in the innermost frame. -/
def Scope.Unbound (scope : Scope) (name : String) : Prop :=
  ∀ frame ∈ scope.head?, frame.find? name = none

namespace Check

variable {α β : Type} {m : Check α} {f : α → Check β} {s : State} {N : Kind → String → Prop}

/-- A check that leaves the scope alone. If it fails, that may be in frames further inside. -/
def Confined (N : Kind → String → Prop) (m : Check α) : Prop :=
  ∀ s, Ends m s (fun _ s' => s'.scope = s.scope) fun e s' => s.scope <:+ s'.scope ∧ e.From N

/-- A check that changes the innermost frame at most. -/
def Bounded (N : Kind → String → Prop) (m : Check α) : Prop :=
  ∀ s, Ends m s (fun _ s' => s'.scope.tail = s.scope.tail)
    fun e s' => s.scope.tail <:+ s'.scope ∧ e.From N

theorem Looks.confined (h : Looks N m) : Confined N m := by
  refine fun s => (h s).mono (fun _ s' hs => by rw [hs]) fun e s' hstop => ?_
  rw [hstop.1]
  exact ⟨List.suffix_refl _, hstop.2⟩

namespace Confined

theorem bind (hm : Confined N m) (hf : ∀ a, Confined N (f a)) : Confined N (m >>= f) := by
  refine fun s => .bind ((hm s).mono (fun a s₁ h₁ => ?_) fun _ _ h => h)
  have hrest := hf a s₁
  rwa [h₁] at hrest

theorem pure (a : α) : Confined N (pure a) := (Looks.pure a).confined

theorem fail (violation : Violation) (span : Span) : Confined N (fail violation span : Check α) :=
  (Looks.fail violation span).confined

theorem require (holds : Bool) (violation : Violation) (span : Span) :
    Confined N (require holds violation span) :=
  (Looks.require holds violation span).confined

theorem modify {change : State → State} (h : ∀ s, (change s).scope = s.scope) :
    Confined N (modify change) :=
  fun s => .modify (h s)

theorem bounded (h : Confined N m) : Bounded N m := by
  refine fun s => (h s).mono (fun _ s' hs => by rw [hs]) fun e s' hstop => ?_
  exact ⟨(List.tail_suffix _).trans hstop.1, hstop.2⟩

end Confined

namespace Bounded

theorem bind (hm : Bounded N m) (hf : ∀ a, Bounded N (f a)) : Bounded N (m >>= f) := by
  refine fun s => .bind ((hm s).mono (fun a s₁ h₁ => ?_) fun _ _ h => h)
  have hrest := hf a s₁
  rwa [h₁] at hrest

theorem pure (a : α) : Bounded N (pure a) := (Confined.pure a).bounded

end Bounded

theorem nested_confined {body : Check α} (hbody : Bounded N body) (change : Flags → Flags) :
    Confined N (nested change body) := by
  refine fun s => .bind (.modify (.bind ((hbody _).mono (fun a s₁ h₁ => ?_) fun _ _ h => h)))
  exact .bind (.modify (.pure h₁))

/-! ### Steps -/

theorem emit_confined (event : Event) : Confined N (emit event) := .modify fun _ => rfl

theorem fresh_confined : Confined N fresh := fun _ => rfl

theorem addObject_confined (info : ObjectInfo) : Confined N (addObject info) := .modify fun _ => rfl

theorem modifyObject_confined (ref : ObjectRef) (change : ObjectInfo → ObjectInfo) :
    Confined N (modifyObject ref change) :=
  .modify fun _ => rfl

theorem newVar_confined (name : String) (type : Ty) (mutable : Bool) :
    Confined N (newVar name type mutable) :=
  fresh_confined.bind fun _ => .pure _

/-- Binding a name either fails and does nothing, or adds it to the innermost frame. -/
theorem declare_ends (name : String) (symbol : Symbol) (span : Span) (s : State) :
    Ends (declare name symbol span) s
      (fun _ s' => s.scope.Unbound name ∧ ∃ place, s'.scope = s.scope.push ⟨name, symbol, place⟩)
      fun e s' => ¬ s.scope.Unbound name ∧ s'.scope = s.scope ∧ ∃ fault, e = .violation fault := by
  unfold declare
  extract_lets place
  refine .bind (.get ?_)
  cases hscope : s.scope with
  | nil => exact .bind (.pure (.modify ⟨by simp [Scope.Unbound], place, hscope⟩))
  | cons frame outer =>
    dsimp only [Frame.declare]
    cases hfind : frame.find? name with
    | some previous =>
      refine .bind (.throw ⟨?_, hscope, _, rfl⟩)
      simp [Scope.Unbound, hfind]
    | none => exact .bind (.modify (.modify ⟨by simpa [Scope.Unbound] using hfind, place, rfl⟩))

theorem declare_bounded (name : String) (symbol : Symbol) (span : Span) :
    Bounded N (declare name symbol span) := by
  refine fun s => (declare_ends name symbol span s).mono (fun _ s' h => ?_) fun e s' h => ?_
  · obtain ⟨-, place, hscope⟩ := h
    rw [hscope, Scope.tail_push]
  · obtain ⟨-, hscope, fault, rfl⟩ := h
    rw [hscope]
    exact ⟨List.tail_suffix _, .violation fault⟩

theorem update_bounded (name : String) (symbol : Symbol) : Bounded N (update name symbol) := by
  refine fun s => .modify ?_
  cases hscope : s.scope with
  | nil => rw [hscope]
  | cons frame outer => rfl

/-! ### Declarations -/

theorem params_confined (ps : List Tree.Param) : Confined N (params ps) := by
  induction ps with
  | nil => exact .pure _
  | cons p rest ih =>
    exact (resolve_looks p.type).confined.bind fun t => (newVar_confined p.name t false).bind
      fun _ => ih.bind fun _ => .pure _

theorem signature_confined (id : Nat) (name : String) (ps : List Tree.Param)
    (result : Option Tree.TypeExpr) (isMethod : Bool) :
    Confined N (signature id name ps result isMethod) := by
  refine (params_confined ps).bind fun vars => ?_
  cases result with
  | none => exact .pure _
  | some type => exact (resolve_looks type).confined.bind fun _ => .pure _

theorem declareFunction_bounded (name : String) (ps : List Tree.Param)
    (result : Option Tree.TypeExpr) (span : Span) :
    Bounded N (declareFunction name ps result span) :=
  fresh_confined.bounded.bind fun id => (declare_bounded name _ span).bind fun _ =>
    (signature_confined id name ps result false).bounded.bind fun f =>
    (update_bounded name (.func f true)).bind fun _ => .pure f

theorem declareParams_bounded (vars : List Var) (ps : List Tree.Param) :
    Bounded N (declareParams vars ps) := by
  induction vars generalizing ps with
  | nil => exact .pure _
  | cons v vars ih =>
    cases ps with
    | nil => exact .pure _
    | cons p rest => exact (declare_bounded v.name (.var v) p.span).bind fun _ => ih rest

theorem declareObject_bounded (name : String) (parameters : Option (List ForgeParam))
    (span : Span) : Bounded N (declareObject name parameters span) :=
  fresh_confined.bounded.bind fun _ => (addObject_confined _).bounded.bind fun _ =>
    (declare_bounded name _ span).bind fun _ => .pure _

theorem addFields_confined (ref : ObjectRef) (definitions : List Tree.FieldDef) :
    Confined N (addFields ref definitions) := by
  induction definitions with
  | nil => exact .pure _
  | cons f rest ih =>
    exact (Looks.objectInfo ref).confined.bind fun _ => (Confined.require _ _ _).bind fun _ =>
      (resolve_looks f.type).confined.bind fun _ => (Confined.require _ _ _).bind fun _ =>
      (modifyObject_confined ref _).bind fun _ => ih

theorem objectFields_confined (ref : ObjectRef) (definitions : List Tree.FieldDef) (span : Span) :
    Confined N (objectFields ref definitions span) :=
  (addFields_confined ref definitions).bind fun _ => Confined.bind (fun _ => rfl) fun _ =>
    (Confined.require _ _ _).bind fun _ => (Looks.objectInfo ref).confined.bind fun _ => .pure _

theorem addMethods_confined (ref : ObjectRef) (definitions : List Tree.FunctionDef) :
    Confined N (addMethods ref definitions) := by
  induction definitions with
  | nil => exact .pure _
  | cons definition rest ih =>
    obtain ⟨name, ps, result, body, span⟩ := definition
    exact (Looks.objectInfo ref).confined.bind fun _ => (Confined.require _ _ _).bind fun _ =>
      fresh_confined.bind fun id => (signature_confined id name ps result true).bind fun _ =>
      (modifyObject_confined ref _).bind fun _ => ih

theorem forgeParams_bounded (ps : List Tree.Param) : Bounded N (forgeParams ps) := by
  induction ps with
  | nil => exact .pure _
  | cons p rest ih =>
    exact fresh_confined.bounded.bind fun _ => (resolve_looks p.type).confined.bounded.bind
      fun _ => (declare_bounded p.name _ p.span).bind fun _ => ih.bind fun _ => .pure _

theorem assigns_of_numerals {t : Tree.Stmt} (ht : t.Numerals N) : Assigns N t := by
  rintro target value span rfl
  exact ht.2

/-- The parameters of a forge are bound in a frame of its own. -/
theorem forge_confined (ref : ObjectRef) {definition : Option Tree.Forge}
    (h : Tree.forgeNumerals N definition) : Confined N (forge ref definition) := by
  match definition, h with
  | none, _ => exact .pure _
  | some (.mk ps body span), h =>
    have hassigns : ∀ t ∈ body, Assigns N t :=
      fun t ht => assigns_of_numerals (Tree.blockNumerals_iff.1 h t ht)
    exact nested_confined ((forgeParams_bounded ps).bind fun _ =>
      (modifyObject_confined ref _).bounded.bind fun _ =>
      (forgeBody_views ref [] hassigns).looks.confined.bounded) _

theorem initialFields_confined (ref : ObjectRef) (fields : List Field)
    {definition : Option Tree.Forge} (h : Tree.forgeNumerals N definition) (span : Span) :
    Confined N (initialFields ref fields definition span) :=
  (forge_confined ref h).bind fun _ => (Confined.require _ _ _).bind fun _ => .pure _

/-! ### Statements -/

theorem checkReturn_looks {value : Option Tree.Expr} (h : ∀ e ∈ value, e.Numerals N)
    (span : Span) : Looks N (checkReturn value span) := by
  refine Looks.flags.bind fun flags => ?_
  split
  · exact .fail _ _
  · cases value with
    | none => exact (Looks.require _ _ _).bind fun _ => .pure _
    | some e =>
      exact (Looks.require _ _ _).bind fun _ => (valueFor_looks _ (h e rfl)).bind fun _ => .pure _

/-- The body of a function or method. -/
theorem body_confined (vars : List Var) (ps : List Tree.Param) {body : List Tree.Stmt}
    (hbody : Bounded N (block body)) (change : Flags → Flags) :
    Confined N (nested change do
      declareParams vars ps
      block body) :=
  nested_confined ((declareParams_bounded vars ps).bind fun _ => hbody) change

/-- The body of a loop with an iterator. -/
theorem iteration_confined (name : String) (v : Var) (span : Span) {body : List Tree.Stmt}
    (hbody : Bounded N (block body)) :
    Confined N (nested inLoop do
      declare name (.var v) span
      block body) :=
  nested_confined ((declare_bounded name (.var v) span).bind fun _ => hbody) inLoop

/-- Whether a statement binds a name in the scope that it stands in. -/
def binds : Tree.Stmt → Bool
  | .declare .. | .function _ | .matter .. | .guild .. => true
  | _ => false

/-- A statement changes the innermost frame at most, and not even that unless it binds a name. -/
structure Reaches (N : Kind → String → Prop) (t : Tree.Stmt) : Prop where
  bounded : Bounded N (stmt t)
  confined : binds t = false → Confined N (stmt t)

theorem Reaches.of_confined {t : Tree.Stmt} (h : Confined N (stmt t)) : Reaches N t :=
  ⟨h.bounded, fun _ => h⟩

mutual

/-- No statement reaches further than the innermost frame. -/
theorem stmt_reaches (t : Tree.Stmt) (ht : t.Numerals N) : Reaches N t := by
  match t with
  | .declare mutable name type value span =>
    refine ⟨?_, nofun⟩
    exact (resolve_looks type).confined.bounded.bind fun t =>
      (Confined.require _ _ _).bounded.bind fun _ => (valueFor_looks t ht).confined.bounded.bind
      fun _ => (newVar_confined name t mutable).bounded.bind fun v =>
      (declare_bounded name (.var v) span).bind fun _ => .pure _
  | .function (.mk name ps result body span) =>
    refine ⟨?_, nofun⟩
    exact (declareFunction_bounded name ps result span).bind fun f =>
      (body_confined f.params ps (block_bounded body ht) _).bounded.bind fun _ =>
      (emit_confined _).bounded.bind fun _ => .pure _
  | .matter name definitions span =>
    refine ⟨?_, nofun⟩
    exact (declareObject_bounded name none span).bind fun ref =>
      (objectFields_confined ref definitions span).bounded.bind fun _ => .pure _
  | .guild name definitions definition methodDefs span =>
    refine ⟨?_, nofun⟩
    exact (declareObject_bounded name (some []) span).bind fun ref =>
      (objectFields_confined ref definitions span).bounded.bind fun fields =>
      (addMethods_confined ref methodDefs).bounded.bind fun _ =>
      (initialFields_confined ref fields ht.1 span).bounded.bind fun _ =>
      (Looks.objectInfo ref).confined.bounded.bind fun known =>
      (methods_confined ref known.methods methodDefs ht.2).bounded.bind fun _ => .pure _
  | .print value span =>
    exact .of_confined ((expr_looks value ht).bind fun e =>
      (asValue_looks e value.span).bind fun _ => .pure _).confined
  | .assign target value span =>
    exact .of_confined ((expr_looks target ht.1).bind fun t => (Looks.require _ _ _).bind fun _ =>
      (valueFor_looks t.type ht.2).bind fun _ => .pure _).confined
  | .increment target span | .decrement target span =>
    exact .of_confined ((expr_looks target ht).bind fun _ => (Looks.require _ _ _).bind fun _ =>
      (Looks.require _ _ _).bind fun _ => .pure _).confined
  | .return_ value span => exact .of_confined (checkReturn_looks ht span).confined
  | .branch test body alt span =>
    exact .of_confined ((expr_looks test ht.1).confined.bind fun _ =>
      (Confined.require _ _ _).bind fun _ =>
      (nested_confined (block_bounded body ht.2.1) id).bind fun _ =>
      (alternate_confined alt ht.2.2).bind fun _ => .pure _)
  | .while_ test body span | .repeat_ test body span =>
    exact .of_confined ((expr_looks test ht.1).confined.bind fun _ =>
      (Confined.require _ _ _).bind fun _ =>
      (nested_confined (block_bounded body ht.2) inLoop).bind fun _ => .pure _)
  | .range iterator low kind high body span =>
    exact .of_confined ((expr_looks low ht.1).confined.bind fun _ =>
      (Confined.require _ _ _).bind fun _ => (expr_looks high ht.2.1).confined.bind fun _ =>
      (Confined.require _ _ _).bind fun _ => (newVar_confined iterator .int false).bind fun v =>
      (iteration_confined iterator v span (block_bounded body ht.2.2)).bind fun _ => .pure _)
  | .forEach iterator collection body span =>
    refine .of_confined ((expr_looks collection ht.1).confined.bind fun c => ?_)
    split
    · exact .fail _ _
    · exact (newVar_confined iterator _ false).bind fun v =>
        (iteration_confined iterator v span (block_bounded body ht.2)).bind fun _ => .pure _
  | .break_ span =>
    exact .of_confined (Looks.flags.bind fun _ => (Looks.require _ _ _).bind
      fun _ => .pure _).confined
  | .call callee args span _ =>
    exact .of_confined ((expr_looks (.call callee args span) ht).bind fun _ => .pure _).confined

theorem block_bounded (ts : List Tree.Stmt) (hts : Tree.blockNumerals N ts) :
    Bounded N (block ts) := by
  match ts with
  | [] => exact .pure _
  | t :: rest =>
    exact (stmt_reaches t hts.1).bounded.bind fun _ =>
      (block_bounded rest hts.2).bind fun _ => .pure _

theorem alternate_confined (t : Tree.Alternate) (ht : t.Numerals N) :
    Confined N (alternate t) := by
  match t with
  | .none => exact .pure _
  | .block body => exact (nested_confined (block_bounded body ht) id).bind fun _ => .pure _
  | .chain test body alt span =>
    exact (expr_looks test ht.1).confined.bind fun _ => (Confined.require _ _ _).bind fun _ =>
      (nested_confined (block_bounded body ht.2.1) id).bind fun _ =>
      (alternate_confined alt ht.2.2).bind fun _ => .pure _

theorem methods_confined (ref : ObjectRef) (fs : List Func) (definitions : List Tree.FunctionDef)
    (h : Tree.functionsNumerals N definitions) : Confined N (methods ref fs definitions) := by
  match fs, definitions with
  | [], [] | [], _ :: _ | _ :: _, [] => exact .pure _
  | f :: fs, .mk name ps result body span :: rest =>
    exact (body_confined f.params ps (block_bounded body h.1) _).bind fun _ =>
      (emit_confined _).bind fun _ => (methods_confined ref fs rest h.2).bind fun _ => .pure _

end

end Check

end Dragon
