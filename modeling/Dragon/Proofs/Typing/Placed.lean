import Dragon.Proofs.Typing.Parts

/-!
# Placed programs

Whatever a program names is declared where it is named, jumps and references to the object itself
stand where there is something for them to refer to, and every field of a guild has a value, while
matters have neither values nor methods. Well typed programs are placed. Unlike their types, all of
this survives optimization, so it is told apart from them.
-/
namespace Dragon

/-! ### Contexts -/

/-- At least the symbols of another context, in the same surroundings. -/
structure Context.Covers (Γ' Γ : Context) : Prop where
  symbols : Γ.symbols ⊆ Γ'.symbols
  flags : Γ'.flags = Γ.flags

namespace Context.Covers

variable {Γ Γ' : Context}

theorem refl (Γ : Context) : Γ.Covers Γ := ⟨List.Subset.refl _, rfl⟩

theorem bind (h : Γ'.Covers Γ) {symbols symbols' : List Symbol} (hsymbols : symbols ⊆ symbols') :
    (Γ'.bind symbols').Covers (Γ.bind symbols) := by
  refine ⟨fun symbol hsymbol => ?_, h.flags⟩
  obtain hs | hs := List.mem_append.1 hsymbol
  · exact List.mem_append_left _ (hsymbols hs)
  · exact List.mem_append_right _ (h.symbols hs)

theorem within (h : Γ'.Covers Γ) (flags : Flags) : (Γ'.within flags).Covers (Γ.within flags) :=
  ⟨h.symbols, rfl⟩

theorem looping (h : Γ'.Covers Γ) : Γ'.looping.Covers Γ.looping := by
  refine ⟨h.symbols, ?_⟩
  show { Γ'.flags with inLoop := true } = { Γ.flags with inLoop := true }
  rw [h.flags]

end Context.Covers

namespace Typed

/-! ### Expressions -/

/-- What an expression names itself is declared where it is named. -/
def Expr.PlacedHere (Γ : Context) : Expr → Prop
  | .var v => .var v ∈ Γ.symbols
  | .param p => .param p ∈ Γ.symbols
  | .func f => .func f true ∈ Γ.symbols
  | .self type => ∃ ref, Γ.flags.guild = some ref ∧ type = .object ref
  | .construct ref _ _ => .object ref ∈ Γ.symbols
  | .foreignUnary .. | .foreignBinary .. | .foreignMember .. | .object _ | .field _
  | .misplaced .. => False
  | _ => True

def Expr.Placed (Γ : Context) (e : Expr) : Prop := e.Each (PlacedHere Γ)

/-! ### Statements -/

/-- A field of a guild with the value that its construction gives it. -/
def FieldInit.Placed (Γ : Context) (kind : ObjectKind) (f : FieldInit) : Prop :=
  match kind, f.value with
  | .matter, none => True
  | .guild, some e => e.Placed Γ
  | _, _ => False

mutual

def Stmt.Placed (Γ : Context) : Stmt → Prop
  | .declare _ _ e | .print e | .increment e | .decrement e | .call e => e.Placed Γ
  | .function f body => blockPlaced (bodyContext (Γ.bind [.func f true]) f none) body
  | .object kind ref fields parameters methods =>
    (∀ f ∈ fields, f.Placed (forgeContext (Γ.bind [.object ref]) ref parameters) kind) ∧
      methodsPlaced (Γ.bind [.object ref]) ref methods ∧ (kind = .matter → methods = [])
  | .assign target source => target.Placed Γ ∧ source.Placed Γ
  | .return_ e => Γ.flags.function.isSome = true ∧ e.Placed Γ
  | .shortReturn => Γ.flags.function.isSome = true
  | .branch test body alternate => test.Placed Γ ∧ blockPlaced Γ body ∧ alternate.Placed Γ
  | .while_ e body | .repeat_ e body => e.Placed Γ ∧ blockPlaced Γ.looping body
  | .range iterator low _ high body =>
    low.Placed Γ ∧ high.Placed Γ ∧ blockPlaced (Γ.looping.bind [.var iterator]) body
  | .forEach iterator collection body =>
    collection.Placed Γ ∧ blockPlaced (Γ.looping.bind [.var iterator]) body
  | .break_ => Γ.flags.inLoop = true
  | .foreignRange .. | .expr _ | .bare .. | .misplaced .. => False

def blockPlaced (Γ : Context) : List Stmt → Prop
  | [] => True
  | s :: rest => s.Placed Γ ∧ blockPlaced (Γ.bind s.declared) rest

def methodsPlaced (Γ : Context) (ref : ObjectRef) : List Method → Prop
  | [] => True
  | .mk f body :: rest =>
    blockPlaced (bodyContext Γ f (some ref)) body ∧ methodsPlaced Γ ref rest

def Alternate.Placed (Γ : Context) : Alternate → Prop
  | .none => True
  | .block body => blockPlaced Γ body
  | .chain test body alternate => test.Placed Γ ∧ blockPlaced Γ body ∧ alternate.Placed Γ

end

def Program.Placed (p : Program) : Prop := blockPlaced .initial p.statements

/-! ### More symbols -/

section Weakening

variable {Γ Γ' : Context}

theorem Expr.Placed.mono (h : Γ'.Covers Γ) {e : Expr} (he : e.Placed Γ) : e.Placed Γ' := by
  refine Each.mono he fun e he => ?_
  cases e with
  | var | param | func | construct => exact h.symbols he
  | self type =>
    obtain ⟨ref, href, htype⟩ := he
    exact ⟨ref, h.flags ▸ href, htype⟩
  | foreignUnary | foreignBinary | foreignMember | object | field | misplaced => exact he.elim
  | _ => trivial

theorem FieldInit.Placed.mono (h : Γ'.Covers Γ) {kind : ObjectKind} {f : FieldInit}
    (hf : f.Placed Γ kind) : f.Placed Γ' kind := by
  obtain ⟨field, value⟩ := f
  cases kind with
  | matter => cases value <;> exact hf
  | guild =>
    cases value with
    | none => exact hf.elim
    | some e => exact Expr.Placed.mono (e := e) h hf

theorem covers_bodyContext (h : Γ'.Covers Γ) (f : Func) (guild : Option ObjectRef) :
    (bodyContext Γ' f guild).Covers (bodyContext Γ f guild) :=
  (h.bind (List.Subset.refl _)).within _

theorem covers_forgeContext (h : Γ'.Covers Γ) (ref : ObjectRef)
    (parameters : Option (List ForgeParam)) :
    (forgeContext Γ' ref parameters).Covers (forgeContext Γ ref parameters) :=
  (h.bind (List.Subset.refl _)).within _

end Weakening

mutual

/-- A statement stays placed in a larger context. -/
theorem Stmt.Placed.mono {Γ Γ' : Context} (h : Γ'.Covers Γ) {s : Stmt} (hs : s.Placed Γ) :
    s.Placed Γ' := by
  match s with
  | .declare _ _ e | .print e | .increment e | .decrement e | .call e =>
    exact Expr.Placed.mono (e := e) h hs
  | .function f body =>
    exact blockPlaced_mono (covers_bodyContext (h.bind (List.Subset.refl _)) f none) body hs
  | .object kind ref fields parameters methods =>
    have hobject := h.bind (List.Subset.refl [Symbol.object ref])
    refine ⟨fun f hf => ?_, methodsPlaced_mono hobject ref methods hs.2.1, hs.2.2⟩
    exact (hs.1 f hf).mono (covers_forgeContext hobject ref parameters)
  | .assign target source => exact ⟨hs.1.mono h, hs.2.mono h⟩
  | .return_ e => exact ⟨h.flags ▸ hs.1, hs.2.mono h⟩
  | .shortReturn =>
    have hfunction : Γ.flags.function.isSome = true := hs
    exact (h.flags ▸ hfunction : Γ'.flags.function.isSome = true)
  | .branch test body alternate =>
    exact ⟨hs.1.mono h, blockPlaced_mono h body hs.2.1, Alternate.Placed.mono h hs.2.2⟩
  | .while_ e body | .repeat_ e body =>
    exact ⟨hs.1.mono h, blockPlaced_mono h.looping body hs.2⟩
  | .range iterator low kind high body =>
    exact ⟨hs.1.mono h, hs.2.1.mono h,
      blockPlaced_mono (h.looping.bind (List.Subset.refl _)) body hs.2.2⟩
  | .forEach iterator collection body =>
    exact ⟨hs.1.mono h, blockPlaced_mono (h.looping.bind (List.Subset.refl _)) body hs.2⟩
  | .break_ =>
    have hloop : Γ.flags.inLoop = true := hs
    exact (h.flags ▸ hloop : Γ'.flags.inLoop = true)
  | .foreignRange .. | .expr _ | .bare .. | .misplaced .. => exact hs.elim

theorem blockPlaced_mono {Γ Γ' : Context} (h : Γ'.Covers Γ) (ss : List Stmt)
    (hss : blockPlaced Γ ss) : blockPlaced Γ' ss := by
  match ss with
  | [] => trivial
  | s :: rest =>
    exact ⟨Stmt.Placed.mono h hss.1,
      blockPlaced_mono (h.bind (List.Subset.refl _)) rest hss.2⟩

theorem methodsPlaced_mono {Γ Γ' : Context} (h : Γ'.Covers Γ) (ref : ObjectRef)
    (ms : List Method) (hms : methodsPlaced Γ ref ms) : methodsPlaced Γ' ref ms := by
  match ms with
  | [] => trivial
  | .mk f body :: rest =>
    exact ⟨blockPlaced_mono (covers_bodyContext h f (some ref)) body hms.1,
      methodsPlaced_mono h ref rest hms.2⟩

theorem Alternate.Placed.mono {Γ Γ' : Context} (h : Γ'.Covers Γ) {a : Alternate}
    (ha : a.Placed Γ) : a.Placed Γ' := by
  match a with
  | .none => trivial
  | .block body => exact blockPlaced_mono h body ha
  | .chain test body alternate =>
    exact ⟨ha.1.mono h, blockPlaced_mono h body ha.2.1, Alternate.Placed.mono h ha.2.2⟩

end

/-! ### Well typed programs -/

section WellTyped

variable {T : Objects} {Γ : Context}

/-- What is well typed names only what is in scope. -/
theorem Expr.placed_of_wellTyped (e : Expr) (he : e.WellTyped T Γ) : e.Placed Γ := by
  refine each_of_wellTyped (fun e he => ?_) e he
  cases e with
  | var | param | func | self => exact he
  | construct => exact he.2.1
  | foreignUnary | foreignBinary | foreignMember | object | field | misplaced => exact he.elim
  | _ => trivial

theorem FieldInit.placed_of_wellTyped {kind : ObjectKind} {f : FieldInit}
    (hf : f.WellTyped T Γ kind) : f.Placed Γ kind := by
  obtain ⟨field, value⟩ := f
  cases kind with
  | matter =>
    cases value with
    | none => trivial
    | some e => exact hf.elim
  | guild =>
    cases value with
    | none => exact hf.elim
    | some e => exact e.placed_of_wellTyped hf.1

end WellTyped

mutual

/-- Jumps of well typed statements stand where they may. -/
theorem Stmt.placed_of_wellTyped {T : Objects} {Γ : Context} (s : Stmt) (hs : s.WellTyped T Γ) :
    s.Placed Γ := by
  match s with
  | .declare _ _ e => exact e.placed_of_wellTyped hs.1
  | .print e | .increment e | .decrement e => exact e.placed_of_wellTyped hs.1
  | .call e => exact e.placed_of_wellTyped hs
  | .function f body => exact blockPlaced_of_wellTyped body hs.2
  | .object kind ref fields parameters methods =>
    obtain ⟨-, -, hmatter, hfields, hmethods⟩ := hs
    exact ⟨fun f hf => FieldInit.placed_of_wellTyped (hfields f hf),
      methodsPlaced_of_wellTyped ref methods hmethods, hmatter⟩
  | .assign target source =>
    exact ⟨target.placed_of_wellTyped hs.1, source.placed_of_wellTyped hs.2.1⟩
  | .return_ e =>
    obtain ⟨f, hf, -, he, -⟩ := hs
    exact ⟨by simp [hf], e.placed_of_wellTyped he⟩
  | .shortReturn =>
    obtain ⟨f, hf, -⟩ := hs
    show Γ.flags.function.isSome = true
    simp [hf]
  | .branch test body alternate =>
    obtain ⟨htest, -, hbody, halternate⟩ := hs
    exact ⟨test.placed_of_wellTyped htest, blockPlaced_of_wellTyped body hbody,
      alternate.placed_of_wellTyped halternate⟩
  | .while_ e body | .repeat_ e body | .forEach _ e body =>
    exact ⟨e.placed_of_wellTyped hs.1, blockPlaced_of_wellTyped body hs.2.2⟩
  | .range iterator low kind high body =>
    obtain ⟨hlow, -, hhigh, -, -, hbody⟩ := hs
    exact ⟨low.placed_of_wellTyped hlow, high.placed_of_wellTyped hhigh,
      blockPlaced_of_wellTyped body hbody⟩
  | .break_ => exact hs
  | .foreignRange .. | .expr _ | .bare .. | .misplaced .. => exact hs.elim

theorem blockPlaced_of_wellTyped {T : Objects} {Γ : Context} (ss : List Stmt)
    (hss : blockWellTyped T Γ ss) : blockPlaced Γ ss := by
  match ss with
  | [] => trivial
  | s :: rest => exact ⟨s.placed_of_wellTyped hss.1, blockPlaced_of_wellTyped rest hss.2⟩

theorem methodsPlaced_of_wellTyped {T : Objects} {Γ : Context} (ref : ObjectRef)
    (ms : List Method) (hms : methodsWellTyped T Γ ref ms) : methodsPlaced Γ ref ms := by
  match ms with
  | [] => trivial
  | .mk f body :: rest =>
    exact ⟨blockPlaced_of_wellTyped body hms.2.1, methodsPlaced_of_wellTyped ref rest hms.2.2⟩

theorem Alternate.placed_of_wellTyped {T : Objects} {Γ : Context} (a : Alternate)
    (ha : a.WellTyped T Γ) : a.Placed Γ := by
  match a with
  | .none => trivial
  | .block body => exact blockPlaced_of_wellTyped body ha
  | .chain test body alternate =>
    obtain ⟨htest, -, hbody, halternate⟩ := ha
    exact ⟨test.placed_of_wellTyped htest, blockPlaced_of_wellTyped body hbody,
      alternate.placed_of_wellTyped halternate⟩

end

end Typed

end Dragon
