import Dragon.Proofs.Script.Written
import Dragon.Proofs.Type.Assignable

/-!
# The form of expressions

Of the types of well typed expressions only so much is kept as survives optimization: the operands
that can take the place of an operation fit its type, and what a member, a subscript or a call is
asked of is no optional. Names are those of the library or identifiers.
-/
namespace Dragon

/-! ### Layers of types -/

namespace Ty

/-- How often a type is made optional, and whether that is done to the type of anything. -/
def layers : Ty → Nat × Bool
  | optional t => (t.layers.1 + 1, t.layers.2)
  | t => (0, t.is .any)

/-- Neither an optional nor the type of anything. -/
def Bare (t : Ty) : Prop := t.layers = (0, false)

variable {s t : Ty}

theorem layers_eq_of_equivalent (s t : Ty) (h : s.equivalent t = true) : s.layers = t.layers := by
  match s, t with
  | optional s, optional t =>
    have hlayers := layers_eq_of_equivalent s t h
    rw [layers, layers, hlayers]
  | prim p, prim q =>
    obtain rfl : p = q := by simpa [equivalent] using h
    rfl
  | list _, list _ | function .., function .. | object _, object _ => rfl

theorem bare_of_assignable (h : s.assignable t = true) (ht : t.Bare) : s.Bare := by
  obtain rfl | hequivalent | ⟨_, _, _, _, _, _, rfl, _⟩ := assignable_cases h
  · cases ht
  · exact (layers_eq_of_equivalent s t hequivalent).trans ht
  · rfl

/-- The types of numbers, strings and truth values. -/
def scalars : List Ty := [.int, .float, .string, .bool]

theorem eq_of_assignable_scalar (ht : t ∈ scalars) (h : s.assignable t = true) : s = t := by
  obtain rfl | rfl | rfl | rfl : t = .int ∨ t = .float ∨ t = .string ∨ t = .bool := by
    simpa [scalars] using ht
  all_goals exact eq_of_assignable_prim (by decide) h

theorem bool_mem_scalars : Ty.bool ∈ scalars := by simp [scalars]

theorem mem_scalars_of_isNumeric (h : t.isNumeric = true) : t ∈ scalars := by
  obtain rfl | rfl := isNumeric_eq_true.1 h <;> simp [scalars]

theorem equivalent_of_assignable_optional (h : (optional s).assignable (optional t) = true) :
    s.equivalent t = true := by
  obtain hany | hequivalent | ⟨_, _, _, _, _, _, hfunction, _⟩ := assignable_cases h
  · cases hany
  · exact hequivalent
  · cases hfunction

end Ty

/-! ### Names -/

/-- The functions of the library. -/
def libraryFunctions : List String := ["sin", "cos", "exp", "ln", "sqrt", "hypot", "bytes"]

/-- A name of the library, or an identifier. -/
def Symbol.Spelled : Symbol → Prop
  | var v => if v.intrinsic = true then v.name = "π" else IsIdentifier v.name.toList
  | func f _ =>
    if f.intrinsic = true then f.name ∈ libraryFunctions else IsIdentifier f.name.toList
  | param p => IsIdentifier p.name.toList
  | object o => IsIdentifier o.name.toList

theorem Symbol.Own.spelled {symbol : Symbol} (h : symbol.Own IsIdentifierName) :
    symbol.Spelled := by
  cases symbol with
  | var v =>
    have hown : v.intrinsic = false := Var.Own.own h
    rw [Symbol.Spelled, if_neg (by simp [hown])]
    exact Var.Own.name h
  | func f complete =>
    have hown : f.intrinsic = false := Func.Own.own h
    rw [Symbol.Spelled, if_neg (by simp [hown])]
    exact Func.Own.name h
  | param p => exact h
  | object o => exact h

/-- A symbol of the library by its name. -/
def Symbol.isLibrary : Symbol → Bool
  | var v => v.intrinsic && v.name == "π"
  | func f _ => f.intrinsic && libraryFunctions.contains f.name
  | param _ | object _ => false

theorem Symbol.spelled_of_isLibrary {symbol : Symbol} (h : symbol.isLibrary = true) :
    symbol.Spelled := by
  cases symbol with
  | var v | func f complete =>
    obtain ⟨hintrinsic, hname⟩ := Bool.and_eq_true_iff.1 h
    rw [Symbol.Spelled, if_pos hintrinsic]
    simpa using hname
  | _ => cases h

theorem KnownNames.spelled {T : Objects} {Γ : Context} (names : KnownNames IsIdentifierName T Γ)
    {symbol : Symbol} (h : symbol ∈ Γ.symbols) : symbol.Spelled := by
  obtain hlibrary | hown := names.symbols symbol h
  · have hall : Context.initial.symbols.all Symbol.isLibrary = true := by decide
    exact Symbol.spelled_of_isLibrary (List.all_eq_true.1 hall symbol hlibrary)
  · exact hown.spelled

namespace Typed

/-! ### Types that fit -/

/-- What is known of the types of a unary operation and stays known while its operand is
simplified. -/
def UnaryFits (op : UnaryOp) (operand result : Ty) : Prop :=
  match op with
  | .neg => operand = result ∧ result.isNumeric = true
  | .not => operand = .bool ∧ result = .bool
  | .some => ∃ base, result = .optional base ∧ operand.assignable base = true

/-- The operands of comparisons play no part: they stay, or a truth value takes their place. -/
def BinaryFits (op : BinaryOp) (left right result : Ty) : Prop :=
  match op with
  | .and | .or => left = .bool ∧ right = .bool ∧ result = .bool
  | .eq | .ne | .lt | .le | .gt | .ge => result = .bool
  | .add | .sub | .mul | .div | .pow => left = result ∧ right = result ∧ result ∈ Ty.scalars

/-- The parts of an expression that can take its place fit its type, and those that something is
asked of have it. -/
def Expr.Fits : Expr → Prop
  | .literal value type => type = value.type
  | .unary op e type => UnaryFits op e.type type
  | .binary op left right type => BinaryFits op left.type right.type type
  | .ternary _ consequent alternate type =>
    consequent.type.assignable type = true ∧ alternate.type.assignable type = true
  | .coalesce optional fallback type =>
    optional.type.assignable (.optional type) = true ∧ fallback.type.assignable type = true
  | .subscript collection _ _ => collection.type.Bare
  | .member e access m type =>
    (∃ ref, e.type = receiverType access ref) ∧ type = accessType access m.type
  | .call callee _ type => ∃ params names, callee.type = .function params type names
  | _ => True

/-- A well typed expression has parts that fit. -/
theorem Expr.fits_of_wellTyped {T : Objects} {Γ : Context} (e : Expr) (he : e.WellTyped T Γ) :
    e.Fits := by
  cases e with
  | unary op e type =>
    obtain ⟨-, h⟩ := he
    cases op with
    | neg =>
      obtain ⟨hnumeric, rfl⟩ := h
      exact ⟨rfl, hnumeric⟩
    | not => exact h
    | some => exact ⟨e.type, h.2, Ty.assignable_refl _⟩
  | binary op left right type =>
    obtain ⟨-, -, h⟩ := he
    cases op with
    | and | or => exact h
    | eq | ne => exact h.2.2.2
    | lt | le | gt | ge => exact h.2.2
    | add =>
      obtain ⟨hleft, hright, rfl⟩ := h
      refine ⟨rfl, hright, ?_⟩
      obtain hnumeric | hstring := hleft
      · exact Ty.mem_scalars_of_isNumeric hnumeric
      · simp [hstring, Ty.scalars]
    | sub | mul | div | pow =>
      obtain ⟨hleft, hright, rfl⟩ := h
      exact ⟨rfl, hright, Ty.mem_scalars_of_isNumeric hleft⟩
  | ternary test c a type =>
    obtain ⟨-, -, -, -, -, -, hequivalent, rfl⟩ := he
    exact ⟨Ty.assignable_refl _,
      Ty.assignable_of_equivalent (Ty.equivalent_symm _ _ hequivalent)⟩
  | coalesce o f type =>
    obtain ⟨-, -, hoptional, hsuits⟩ := he
    exact ⟨hoptional ▸ Ty.assignable_refl _, hsuits.2⟩
  | subscript c i type =>
    obtain ⟨-, -, -, hlist | ⟨hstring, -⟩⟩ := he
    · exact congrArg Ty.layers hlist
    · exact congrArg Ty.layers hstring
  | member object access member type =>
    obtain ⟨-, ref, info, htype, -, -, hresult⟩ := he
    exact ⟨⟨ref, htype⟩, hresult⟩
  | call callee args type =>
    obtain ⟨-, -, params, names, htype, -⟩ := he
    exact ⟨params, names, htype⟩
  | literal value type => exact he
  | _ => trivial

/-! ### Forms -/

/-- What an expression names itself is well spelled. -/
def Expr.SpelledHere : Expr → Prop
  | .var v => (Symbol.var v).Spelled
  | .param p => (Symbol.param p).Spelled
  | .func f => (Symbol.func f true).Spelled
  | .construct ref _ _ => (Symbol.object ref).Spelled
  | .member _ _ m _ => IsIdentifier m.name.toList
  | .foreignUnary .. | .foreignBinary .. | .foreignMember .. | .object _ | .field _
  | .misplaced .. => False
  | _ => True

def Expr.FormedHere (e : Expr) : Prop := e.Fits ∧ e.SpelledHere

/-- An expression with the types that tell its operands apart. -/
def Expr.Formed (e : Expr) : Prop := e.Each FormedHere

/-- Where names are identifiers, what an expression names is well spelled. -/
theorem Expr.spelled_of_wellTyped {T : Objects} {Γ : Context}
    (names : KnownNames IsIdentifierName T Γ) (e : Expr) (he : e.WellTyped T Γ) :
    e.SpelledHere := by
  cases e with
  | var | param | func => exact names.spelled he
  | construct => exact names.spelled he.2.1
  | member e access m type =>
    obtain ⟨-, ref, info, -, hinfo, hhas, -⟩ := he
    have hnamed := names.objects info (List.mem_of_find?_eq_some hinfo)
    cases m with
    | field f => exact hnamed.fields f hhas
    | method m => exact (hnamed.methods m hhas).name
  | foreignUnary | foreignBinary | foreignMember | object | field | misplaced => exact he.elim
  | _ => trivial

theorem Expr.formed_of_wellTyped {T : Objects} {Γ : Context}
    (names : KnownNames IsIdentifierName T Γ) (e : Expr) (he : e.WellTyped T Γ) : e.Formed :=
  each_of_wellTyped (fun e he => ⟨e.fits_of_wellTyped he, e.spelled_of_wellTyped names he⟩) e he

/-! ### Statements -/

/-- A field with an identifier for its name. Those of a guild have values of that form. -/
def FieldInit.Formed (kind : ObjectKind) (f : FieldInit) : Prop :=
  IsIdentifierName f.field.name ∧
    match kind, f.value with
    | .matter, none => True
    | .guild, some e => e.Formed
    | _, _ => False

/-- A statement with expressions of that form, which declares identifiers. -/
def Stmt.FormedHere : Stmt → Prop
  | .declare _ v init => v.Own IsIdentifierName ∧ init.Formed
  | .function f _ => f.Own IsIdentifierName
  | .object kind ref fields parameters methods =>
    IsIdentifierName ref.name ∧ (∀ f ∈ fields, f.Formed kind) ∧
      (∀ ps, parameters = some ps → ∀ p ∈ ps, IsIdentifierName p.name) ∧
      (∀ f ∈ methods.map Method.func, f.Own IsIdentifierName) ∧ (kind = .matter → methods = [])
  | .print e | .increment e | .decrement e | .return_ e | .call e | .branch e _ _ | .while_ e _
  | .repeat_ e _ => e.Formed
  | .assign target source => target.Formed ∧ source.Formed
  | .range iterator low _ high _ => iterator.Own IsIdentifierName ∧ low.Formed ∧ high.Formed
  | .forEach iterator collection _ => iterator.Own IsIdentifierName ∧ collection.Formed
  | .shortReturn | .break_ => True
  | .foreignRange .. | .expr _ | .bare .. | .misplaced .. => False

def blockFormed (ss : List Stmt) : Prop := ∀ s ∈ blockInside ss, s.FormedHere

theorem FieldInit.WellTyped.formed {T : Objects} {Γ : Context} {kind : ObjectKind}
    {f : FieldInit} (hf : f.WellTyped T Γ kind) (names : KnownNames IsIdentifierName T Γ)
    (hname : IsIdentifierName f.field.name) : f.Formed kind := by
  obtain ⟨field, value⟩ := f
  refine ⟨hname, ?_⟩
  cases kind with
  | matter =>
    cases value with
    | none => trivial
    | some e => exact hf.elim
  | guild =>
    cases value with
    | none => exact hf.elim
    | some e => exact e.formed_of_wellTyped names hf.1

theorem own_of_methodsNamed {W : String → Prop} {ms : List Method} (h : methodsNamed W ms) :
    ∀ f ∈ ms.map Method.func, f.Own W := by
  induction ms with
  | nil => exact nofun
  | cons m rest ih =>
    obtain ⟨f, body⟩ := m
    exact List.forall_mem_cons.2 ⟨h.1, ih h.2.2⟩

section Statements

variable {T : Objects}

mutual

/-- Well typed statements have the form, at every depth. -/
theorem Stmt.formed_of_wellTyped {Γ : Context} (names : KnownNames IsIdentifierName T Γ) (s : Stmt)
    (hs : s.WellTyped T Γ) (hnamed : s.Named IsIdentifierName) :
    ∀ s' ∈ s :: s.nested, s'.FormedHere := by
  match s with
  | .declare mutable v init =>
    exact List.forall_mem_singleton.2 ⟨hnamed, init.formed_of_wellTyped names hs.1⟩
  | .function f body =>
    have hf : KnownNames IsIdentifierName T (Γ.bind [.func f true]) := names.after hnamed
    exact List.forall_mem_cons.2
      ⟨hnamed.1, blockFormed_of_wellTyped (hf.body hnamed.1 none) body hs.2 hnamed.2⟩
  | .object kind ref fields parameters methods =>
    obtain ⟨-, -, hmatter, hfields, hmethods⟩ := hs
    have hobject : KnownNames IsIdentifierName T (Γ.bind [.object ref]) := names.after hnamed
    obtain ⟨hname, hfieldNames, hparameters, hmethodNames⟩ := hnamed
    refine List.forall_mem_cons.2 ⟨⟨hname, fun f hf => ?_, hparameters,
      own_of_methodsNamed hmethodNames, hmatter⟩,
      methodsFormed_of_wellTyped hobject ref methods hmethods hmethodNames⟩
    exact (hfields f hf).formed (hobject.forge hparameters ref) (hfieldNames f hf)
  | .print e | .increment e | .decrement e =>
    exact List.forall_mem_singleton.2 (e.formed_of_wellTyped names hs.1)
  | .assign target source =>
    exact List.forall_mem_singleton.2
      ⟨target.formed_of_wellTyped names hs.1, source.formed_of_wellTyped names hs.2.1⟩
  | .return_ e =>
    obtain ⟨f, -, -, he, -⟩ := hs
    exact List.forall_mem_singleton.2 (e.formed_of_wellTyped names he)
  | .branch test body alternate =>
    obtain ⟨htest, -, hbody, halternate⟩ := hs
    exact List.forall_mem_cons.2 ⟨test.formed_of_wellTyped names htest, List.forall_mem_append.2
      ⟨blockFormed_of_wellTyped names body hbody hnamed.1,
        alternate.formed_of_wellTyped names halternate hnamed.2⟩⟩
  | .while_ e body | .repeat_ e body =>
    exact List.forall_mem_cons.2 ⟨e.formed_of_wellTyped names hs.1,
      blockFormed_of_wellTyped (names.within _) body hs.2.2 hnamed⟩
  | .range iterator low kind high body =>
    obtain ⟨hlow, -, hhigh, -, -, hbody⟩ := hs
    have hinner : KnownNames IsIdentifierName T (Γ.looping.bind [.var iterator]) :=
      (names.within _).bind (List.forall_mem_singleton.2 hnamed.1)
    exact List.forall_mem_cons.2 ⟨⟨hnamed.1, low.formed_of_wellTyped names hlow,
      high.formed_of_wellTyped names hhigh⟩, blockFormed_of_wellTyped hinner body hbody hnamed.2⟩
  | .forEach iterator collection body =>
    have hinner : KnownNames IsIdentifierName T (Γ.looping.bind [.var iterator]) :=
      (names.within _).bind (List.forall_mem_singleton.2 hnamed.1)
    exact List.forall_mem_cons.2 ⟨⟨hnamed.1, collection.formed_of_wellTyped names hs.1⟩,
      blockFormed_of_wellTyped hinner body hs.2.2 hnamed.2⟩
  | .call e => exact List.forall_mem_singleton.2 (e.formed_of_wellTyped names hs)
  | .shortReturn | .break_ => exact List.forall_mem_singleton.2 trivial
  | .foreignRange .. | .expr _ | .bare .. | .misplaced .. => exact hs.elim

theorem blockFormed_of_wellTyped {Γ : Context} (names : KnownNames IsIdentifierName T Γ)
    (ss : List Stmt) (hss : blockWellTyped T Γ ss) (hnamed : blockNamed IsIdentifierName ss) :
    blockFormed ss := by
  match ss with
  | [] => exact nofun
  | s :: rest =>
    exact List.forall_mem_append.2 ⟨s.formed_of_wellTyped names hss.1 hnamed.1,
      blockFormed_of_wellTyped (names.after hnamed.1) rest hss.2 hnamed.2⟩

theorem methodsFormed_of_wellTyped {Γ : Context} (names : KnownNames IsIdentifierName T Γ)
    (ref : ObjectRef) (ms : List Method) (hms : methodsWellTyped T Γ ref ms)
    (hnamed : methodsNamed IsIdentifierName ms) : ∀ s ∈ methodsInside ms, s.FormedHere := by
  match ms with
  | [] => exact nofun
  | .mk f body :: rest =>
    have hbody := names.body hnamed.1 (some ref)
    exact List.forall_mem_append.2 ⟨blockFormed_of_wellTyped hbody body hms.2.1 hnamed.2.1,
      methodsFormed_of_wellTyped names ref rest hms.2.2 hnamed.2.2⟩

theorem Alternate.formed_of_wellTyped {Γ : Context} (names : KnownNames IsIdentifierName T Γ)
    (a : Alternate) (ha : a.WellTyped T Γ) (hnamed : a.Named IsIdentifierName) :
    ∀ s ∈ a.inside, s.FormedHere := by
  match a with
  | .none => exact nofun
  | .block body => exact blockFormed_of_wellTyped names body ha hnamed
  | .chain test body alternate =>
    obtain ⟨htest, -, hbody, halternate⟩ := ha
    exact List.forall_mem_cons.2 ⟨test.formed_of_wellTyped names htest, List.forall_mem_append.2
      ⟨blockFormed_of_wellTyped names body hbody hnamed.1,
        alternate.formed_of_wellTyped names halternate hnamed.2⟩⟩

end

end Statements

/-! ### The expressions of statements -/

theorem formed_values {kind : ObjectKind} {fields : List FieldInit}
    (h : ∀ f ∈ fields, f.Formed kind) : ∀ e ∈ fields.filterMap (·.value), e.Formed := by
  intro e he
  obtain ⟨⟨field, value⟩, hf, rfl⟩ := List.mem_filterMap.1 he
  have hvalue := (h _ hf).2
  cases kind with
  | matter => exact hvalue.elim
  | guild => exact hvalue

/-- The expressions of a statement have the form if it does. -/
theorem Stmt.FormedHere.direct {s : Stmt} (hs : s.FormedHere) : ∀ e ∈ s.direct, e.Formed := by
  match s with
  | .object kind ref fields parameters methods => exact formed_values hs.2.1
  | .declare _ _ _ | .forEach _ _ _ => exact List.forall_mem_singleton.2 hs.2
  | .print _ | .increment _ | .decrement _ | .return_ _ | .call _ | .branch .. | .while_ ..
  | .repeat_ .. => exact List.forall_mem_singleton.2 hs
  | .assign target source => exact List.forall_mem_cons.2 ⟨hs.1, List.forall_mem_singleton.2 hs.2⟩
  | .range _ low _ high _ =>
    exact List.forall_mem_cons.2 ⟨hs.2.1, List.forall_mem_singleton.2 hs.2.2⟩
  | .function .. | .shortReturn | .break_ => exact nofun
  | .foreignRange .. | .expr _ | .bare .. | .misplaced .. => exact hs.elim

theorem formed_blockExprs (ss : List Stmt) (hss : blockFormed ss) :
    ∀ e ∈ blockExprs ss, e.Formed := by
  intro e he
  obtain ⟨s, hs, he⟩ := List.mem_flatMap.1 he
  exact (hss s hs).direct e he

end Typed

end Dragon
