import Dragon.Proofs.Check.Confined

/-!
# The names at the top of a program

Whether the check of a program succeeds or fails, all that it has bound at the top is complete,
except for one function: if a name in the parameters or the result of a function is not that of a
type, the function stays behind without a type.
-/
namespace Dragon

/-! ### Scopes at the top -/

/-- All is known of a symbol. -/
def Symbol.Complete : Symbol → Prop
  | .func _ complete => complete = true
  | _ => True

theorem Symbol.complete_object (ref : ObjectRef) : (Symbol.object ref).Complete := trivial

theorem Symbol.complete_var (v : Var) : (Symbol.var v).Complete := trivial

namespace Scope

/-- The scope at the top of a program, in which everything is complete. -/
def Settled (scope : Scope) : Prop :=
  ∃ frame, scope = [frame, Library.frame] ∧ ∀ b ∈ frame.bindings, b.symbol.Complete

/-- A name stands for a function that is not complete. -/
def Incomplete (scope : Scope) (name : String) : Prop :=
  ∃ f, scope.lookup? name = some (.func f false)

/-- What a name means in a frame, and what it means outside. -/
theorem lookup?_cons (frame : Frame) (outer : Scope) (name : String) :
    lookup? (frame :: outer) name =
      ((frame.find? name).map (·.symbol)).or (outer.lookup? name) := by
  cases h : frame.find? name <;> simp [lookup?, h]

/-- The library is complete and has no objects. -/
theorem lookup?_library {name : String} {symbol : Symbol}
    (h : lookup? [Library.frame] name = some symbol) :
    symbol.Complete ∧ ∀ ref, symbol ≠ .object ref := by
  have hall : ∀ b ∈ Library.frame.bindings, b.symbol.Complete ∧ ∀ ref, b.symbol ≠ .object ref := by
    simp [Library.frame, Library.functions, Symbol.Complete]
  rw [lookup?_cons] at h
  cases hfind : Library.frame.find? name with
  | none => simp [hfind, lookup?] at h
  | some b =>
    simp only [hfind, Option.map_some, Option.or, Option.some.injEq] at h
    exact h ▸ hall b (List.mem_of_find?_eq_some hfind)

variable {scope : Scope} {b : Binding}

/-- What a name means after another one has been bound. -/
theorem lookup?_push_of_ne {name : String} (hne : b.name ≠ name) :
    (scope.push b).lookup? name = scope.lookup? name := by
  cases scope with
  | nil => rfl
  | cons frame outer => simp [push, lookup?_cons, Frame.find?, List.find?_append, hne]

theorem lookup?_push_self {frame : Frame} {outer : Scope}
    (hunbound : Unbound (frame :: outer) b.name) :
    lookup? (push b (frame :: outer)) b.name = some b.symbol := by
  have hfind : frame.find? b.name = none := hunbound frame rfl
  rw [Frame.find?] at hfind
  simp [push, lookup?_cons, Frame.find?, List.find?_append, hfind]

theorem length_push : (scope.push b).length = scope.length := by
  cases scope <;> rfl

/-- The symbol of the name that was bound last is replaced, and no other. -/
theorem replace_push {name : String} {symbol symbol' : Symbol} {place : Option Span}
    (hunbound : scope.Unbound name) :
    (scope.push ⟨name, symbol, place⟩).replace name symbol' =
      scope.push ⟨name, symbol', place⟩ := by
  cases scope with
  | nil => rfl
  | cons frame outer =>
    have hfind : frame.find? name = none := hunbound frame rfl
    have hnames : ∀ b ∈ frame.bindings, b.name ≠ name := by
      simpa [Frame.find?] using hfind
    have hkept : frame.bindings.map (fun b => if b.name = name then { b with symbol := symbol' }
        else b) = frame.bindings.map id :=
      List.map_congr_left fun b hb => if_neg (hnames b hb)
    rw [List.map_id] at hkept
    simp [push, replace, Frame.update, hkept]

theorem Settled.length (h : scope.Settled) : scope.length = 2 := by
  obtain ⟨frame, rfl, -⟩ := h
  rfl

theorem Settled.push (h : scope.Settled) (hb : b.symbol.Complete) : (scope.push b).Settled := by
  obtain ⟨frame, rfl, hframe⟩ := h
  refine ⟨_, rfl, fun c hc => ?_⟩
  obtain hc | hc := List.mem_append.1 hc
  · exact hframe c hc
  · obtain rfl := List.mem_singleton.1 hc
    exact hb

/-- In a settled scope every name stands for something complete. -/
theorem Settled.complete_of_lookup? (h : scope.Settled) {name : String} {symbol : Symbol}
    (hlookup : scope.lookup? name = some symbol) : symbol.Complete := by
  obtain ⟨frame, rfl, hframe⟩ := h
  rw [lookup?_cons] at hlookup
  cases hfind : frame.find? name with
  | none =>
    simp only [hfind, Option.map_none, Option.or] at hlookup
    exact (lookup?_library hlookup).1
  | some b =>
    simp only [hfind, Option.map_some, Option.or, Option.some.injEq] at hlookup
    exact hlookup ▸ hframe b (List.mem_of_find?_eq_some hfind)

theorem Settled.not_incomplete (h : scope.Settled) (name : String) : ¬ scope.Incomplete name := by
  rintro ⟨f, hlookup⟩
  exact absurd (h.complete_of_lookup? hlookup) (by simp [Symbol.Complete])

/-- A function that is left without a type is the only one. -/
theorem Settled.incomplete_push_iff (h : scope.Settled) {f : Func} (hb : b.symbol = .func f false)
    (hunbound : scope.Unbound b.name) (name : String) :
    (scope.push b).Incomplete name ↔ name = b.name := by
  constructor
  · rintro ⟨g, hlookup⟩
    by_contra hne
    rw [lookup?_push_of_ne (Ne.symm hne)] at hlookup
    exact h.not_incomplete name ⟨g, hlookup⟩
  · rintro rfl
    obtain ⟨frame, rfl, -⟩ := h
    exact ⟨f, by rw [lookup?_push_self hunbound, hb]⟩

end Scope

/-! ### Names of types -/

/-- A name is that of a type in a scope. -/
def Scope.NamesType (scope : Scope) (name : String) : Prop :=
  (Prim.ofName? name).isSome ∨ ∃ ref, scope.lookup? name = some (.object ref)

/-- Binding a name to something that is no type does not change which names are those of types. -/
theorem Scope.Settled.namesType_push {scope : Scope} (h : scope.Settled) {b : Binding}
    (hb : ∀ ref, b.symbol ≠ .object ref) (hunbound : scope.Unbound b.name) :
    (scope.push b).NamesType = scope.NamesType := by
  funext name
  by_cases hname : b.name = name
  · subst hname
    obtain ⟨frame, rfl, -⟩ := h
    have hfind : frame.find? b.name = none := hunbound frame rfl
    have hpushed : ¬ ∃ ref, lookup? (Scope.push b [frame, Library.frame]) b.name =
        some (.object ref) := by
      rintro ⟨ref, hlookup⟩
      rw [lookup?_push_self hunbound] at hlookup
      exact hb ref (Option.some.inj hlookup)
    have hlibrary : ¬ ∃ ref, lookup? [frame, Library.frame] b.name = some (.object ref) := by
      rintro ⟨ref, hlookup⟩
      rw [lookup?_cons, hfind] at hlookup
      exact (lookup?_library hlookup).2 ref rfl
    simp [NamesType, hpushed, hlibrary]
  · simp [NamesType, lookup?_push_of_ne hname]

namespace Tree

mutual

/-- All names in a type have a property. -/
def TypeExpr.Known (K : String → Prop) : TypeExpr → Prop
  | .named name _ => K name
  | .list element _ => element.Known K
  | .optional base _ => base.Known K
  | .function params result _ => typesKnown K params ∧ result.Known K

def typesKnown (K : String → Prop) : List TypeExpr → Prop
  | [] => True
  | t :: rest => t.Known K ∧ typesKnown K rest

end

/-- All names in the types of parameters and in the type of a result are those of types. -/
structure SignatureKnown (scope : Scope) (params : List Param) (result : Option TypeExpr) :
    Prop where
  params : ∀ p ∈ params, p.type.Known scope.NamesType
  result : ∀ type ∈ result, type.Known scope.NamesType

/-- A statement is a function of a name that is not bound yet, and its parameters or its result
have a name in them that is not that of a type. -/
def Stmt.Unfinished (scope : Scope) (name : String) : Stmt → Prop
  | .function (.mk f params result _ _) =>
    f = name ∧ scope.Unbound name ∧ ¬ SignatureKnown scope params result
  | _ => False

end Tree

namespace Check

variable {α β : Type} {m : Check α} {f : α → Check β} {s : State} {N : Kind → String → Prop}

mutual

/-- A type is resolved just if all its names are those of types. -/
theorem resolve_ends (t : Tree.TypeExpr) (s : State) :
    Ends (resolve t) s (fun _ s' => s' = s ∧ t.Known s.scope.NamesType)
      fun _ s' => s' = s ∧ ¬ t.Known s.scope.NamesType := by
  match t with
  | .named name span =>
    unfold resolve
    split
    next p hprim => exact .pure ⟨rfl, .inl (by simp [hprim])⟩
    next hprim =>
      have hnot (symbol : Option Symbol) (hlookup : s.scope.lookup? name = symbol)
          (hsymbol : ∀ ref, symbol ≠ some (.object ref)) : ¬ s.scope.NamesType name := by
        rintro (h | ⟨ref, h⟩)
        · simp [hprim] at h
        · exact hsymbol ref (hlookup.symm.trans h)
      refine .bind (.lookup ?_)
      cases hlookup : s.scope.lookup? name with
      | none => exact .throw ⟨rfl, hnot _ hlookup nofun⟩
      | some symbol =>
        cases symbol with
        | object ref => exact .pure ⟨rfl, .inr ⟨ref, hlookup⟩⟩
        | _ => exact .throw ⟨rfl, hnot _ hlookup nofun⟩
  | .list element span | .optional element span =>
    refine .bind ((resolve_ends element s).mono (fun _ s' h => ?_) fun _ _ h => h)
    exact .pure h
  | .function params result span =>
    refine .bind ((resolveAll_ends params s).mono (fun _ s' h => ?_) fun _ s' h => ?_)
    · obtain ⟨rfl, hparams⟩ := h
      refine .bind ((resolve_ends result s').mono (fun _ s'' h => ?_) fun _ s'' h => ?_)
      · exact .pure ⟨h.1, hparams, h.2⟩
      · exact ⟨h.1, fun hknown => h.2 hknown.2⟩
    · exact ⟨h.1, fun hknown => h.2 hknown.1⟩

theorem resolveAll_ends (ts : List Tree.TypeExpr) (s : State) :
    Ends (resolveAll ts) s (fun _ s' => s' = s ∧ Tree.typesKnown s.scope.NamesType ts)
      fun _ s' => s' = s ∧ ¬ Tree.typesKnown s.scope.NamesType ts := by
  match ts with
  | [] => exact .pure ⟨rfl, trivial⟩
  | t :: rest =>
    refine .bind ((resolve_ends t s).mono (fun _ s' h => ?_) fun _ s' h => ?_)
    · obtain ⟨rfl, ht⟩ := h
      refine .bind ((resolveAll_ends rest s').mono (fun _ s'' h => ?_) fun _ s'' h => ?_)
      · exact .pure ⟨h.1, ht, h.2⟩
      · exact ⟨h.1, fun hknown => h.2 hknown.2⟩
    · exact ⟨h.1, fun hknown => h.2 hknown.1⟩

end

/-- Parameters are declared exactly if their types are known. -/
theorem params_ends (ps : List Tree.Param) (s : State) :
    Ends (params ps) s
      (fun _ s' => s'.scope = s.scope ∧ ∀ p ∈ ps, p.type.Known s.scope.NamesType)
      fun _ s' => s'.scope = s.scope ∧ ¬ ∀ p ∈ ps, p.type.Known s.scope.NamesType := by
  induction ps generalizing s with
  | nil => exact .pure ⟨rfl, by simp⟩
  | cons p rest ih =>
    refine .bind ((resolve_ends p.type s).mono (fun _ s' h => ?_) fun _ s' h => ?_)
    · obtain ⟨rfl, hp⟩ := h
      refine .bind (.bind (.fresh (.pure (.bind ((ih _).mono (fun _ s'' h => ?_)
        fun _ s'' h => ?_)))))
      · exact .pure ⟨h.1, List.forall_mem_cons.2 ⟨hp, h.2⟩⟩
      · exact ⟨h.1, fun hknown => h.2 (List.forall_mem_cons.1 hknown).2⟩
    · exact ⟨by rw [h.1], fun hknown => h.2 (List.forall_mem_cons.1 hknown).1⟩

/-- The signature of a function is resolved just if all names in it are those of types. -/
theorem signature_ends (id : Nat) (name : String) (ps : List Tree.Param)
    (result : Option Tree.TypeExpr) (isMethod : Bool) (s : State) :
    Ends (signature id name ps result isMethod) s
      (fun _ s' => s'.scope = s.scope ∧ Tree.SignatureKnown s.scope ps result)
      fun _ s' => s'.scope = s.scope ∧ ¬ Tree.SignatureKnown s.scope ps result := by
  refine .bind ((params_ends ps s).mono (fun _ s₁ h₁ => ?_) fun _ s₁ h₁ => ?_)
  · obtain ⟨hscope, hps⟩ := h₁
    cases result with
    | none => exact .pure ⟨hscope, hps, by simp⟩
    | some type =>
      refine .bind ((resolve_ends type s₁).mono (fun _ s₂ h₂ => ?_) fun _ s₂ h₂ => ?_)
      · rw [hscope] at h₂
        exact .pure ⟨by rw [h₂.1, hscope], hps, by simpa using h₂.2⟩
      · rw [hscope] at h₂
        exact ⟨by rw [h₂.1, hscope], fun hknown => h₂.2 (hknown.result type rfl)⟩
  · exact ⟨h₁.1, fun hknown => h₁.2 hknown.params⟩

/-! ### Statements at the top -/

/-- A check that binds a name, unless it fails before it does. -/
def Adds (N : Kind → String → Prop) (name : String) (m : Check α) : Prop :=
  ∀ s, Ends m s
    (fun _ s' => ∃ symbol place, symbol.Complete ∧ s'.scope = s.scope.push ⟨name, symbol, place⟩)
    fun e s' => (s.scope <:+ s'.scope ∨
      ∃ symbol place, symbol.Complete ∧ s.scope.push ⟨name, symbol, place⟩ <:+ s'.scope) ∧ e.From N

namespace Adds

variable {name : String}

theorem declare {symbol : Symbol} (hsymbol : symbol.Complete) (span : Span) :
    Adds N name (declare name symbol span) := by
  refine fun s => (declare_ends name symbol span s).mono (fun _ s' h => ?_) fun _ s' h => ?_
  · obtain ⟨-, place, hscope⟩ := h
    exact ⟨symbol, place, hsymbol, hscope⟩
  · obtain ⟨-, hscope, fault, rfl⟩ := h
    rw [hscope]
    exact ⟨.inl (List.suffix_refl _), .violation fault⟩

/-- What only happens before the name is bound. -/
theorem after (hm : Confined N m) (hf : ∀ a, Adds N name (f a)) : Adds N name (m >>= f) := by
  refine fun s => .bind ((hm s).mono (fun a s₁ h₁ => ?_) fun _ _ h => ⟨.inl h.1, h.2⟩)
  have hrest := hf a s₁
  rwa [h₁] at hrest

/-- What happens once the name is bound. -/
theorem before (hm : Adds N name m) (hf : ∀ a, Confined N (f a)) : Adds N name (m >>= f) := by
  refine fun s => .bind ((hm s).mono (fun a s₁ h₁ => ?_) fun _ _ h => h)
  obtain ⟨symbol, place, hsymbol, hscope⟩ := h₁
  refine (hf a s₁).mono (fun _ s' h' => ⟨symbol, place, hsymbol, h'.trans hscope⟩) fun _ s' h' => ?_
  rw [hscope] at h'
  exact ⟨.inr ⟨symbol, place, hsymbol, h'.1⟩, h'.2⟩

end Adds

theorem declareObject_adds (name : String) (parameters : Option (List ForgeParam)) (span : Span) :
    Adds N name (declareObject name parameters span) :=
  .after fresh_confined fun _ => .after (addObject_confined _) fun _ =>
    .before (.declare (Symbol.complete_object _) span) fun _ => .pure _

theorem update_ends (name : String) (symbol : Symbol) (s : State) :
    Ends (update name symbol) s (fun _ s' => s'.scope = s.scope.replace name symbol)
      fun _ _ => False := by
  refine .modify ?_
  cases hscope : s.scope with
  | nil => exact hscope
  | cons frame outer => rfl

/-- The scope of the program's own names is the last part of every scope inside. -/
theorem State.globals_of_suffix {scope : Scope} (hlength : scope.length = 2)
    (h : scope <:+ s.scope) : s.globals = scope := by
  rw [List.suffix_iff_eq_drop, hlength] at h
  exact h.symm

/-- What a statement at the top leaves behind. -/
def Finishes (t : Tree.Stmt) (s : State) : Prop :=
  Ends (stmt t) s
    (fun _ s' => s'.scope.Settled ∧ ∀ name, ¬ t.Unfinished s.scope name)
    fun _ s' => ∀ name, s'.globals.Incomplete name ↔ t.Unfinished s.scope name

theorem Finishes.of_confined {t : Tree.Stmt} (hs : s.scope.Settled)
    (ht : ∀ name, ¬ t.Unfinished s.scope name) (h : Confined N (stmt t)) : Finishes t s := by
  refine (h s).mono (fun _ s' h' => ⟨h' ▸ hs, ht⟩) fun _ s' h' name => ?_
  rw [State.globals_of_suffix hs.length h'.1]
  exact iff_of_false (hs.not_incomplete name) (ht name)

/-- A statement that binds a complete symbol, or fails before, finishes. -/
theorem Finishes.of_adds {t : Tree.Stmt} {name : String} (hs : s.scope.Settled)
    (ht : ∀ name, ¬ t.Unfinished s.scope name) (h : Adds N name (stmt t)) : Finishes t s := by
  refine (h s).mono (fun _ s' h' => ?_) fun _ s' h' other => ?_
  · obtain ⟨symbol, place, hsymbol, hscope⟩ := h'
    rw [hscope]
    exact ⟨hs.push hsymbol, ht⟩
  · obtain h' | ⟨symbol, place, hsymbol, h'⟩ := h'.1
    · rw [State.globals_of_suffix hs.length h']
      exact iff_of_false (hs.not_incomplete other) (ht other)
    · have hpush : (s.scope.push ⟨name, symbol, place⟩).Settled := hs.push hsymbol
      rw [State.globals_of_suffix hpush.length h']
      exact iff_of_false (hpush.not_incomplete other) (ht other)

/-- What a function at the top leaves behind: nothing if its name is bound already, its name
without a type if its signature has a name in it that is not that of a type, and else a complete
function, whatever its body comes to. -/
theorem function_finishes (hs : s.scope.Settled) (name : String) (ps : List Tree.Param)
    (result : Option Tree.TypeExpr) {body : List Tree.Stmt} (hbody : Tree.blockNumerals N body)
    (span : Span) : Finishes (.function (.mk name ps result body span)) s := by
  refine .bind (.bind (.fresh (.bind ((declare_ends name _ span _).mono
    (fun _ s₁ h₁ => ?_) fun _ s₁ h₁ other => ?_))))
  · obtain ⟨hunbound, place, hscope₁⟩ := h₁
    have hunbound : s.scope.Unbound name := hunbound
    have hknown : s₁.scope.NamesType = s.scope.NamesType := by
      rw [hscope₁]
      exact hs.namesType_push nofun hunbound
    have hsignature : Tree.SignatureKnown s₁.scope ps result ↔
        Tree.SignatureKnown s.scope ps result := by
      constructor
      · rintro ⟨hps, hresult⟩
        rw [hknown] at hps hresult
        exact ⟨hps, hresult⟩
      · rintro ⟨hps, hresult⟩
        rw [← hknown] at hps hresult
        exact ⟨hps, hresult⟩
    refine .bind ((signature_ends _ name ps result false s₁).mono (fun f s₂ h₂ => ?_)
      fun _ s₂ h₂ other => ?_)
    · obtain ⟨hscope₂, hcomplete⟩ := h₂
      have hnot (other : String) : ¬ Tree.Stmt.Unfinished s.scope other
          (.function (.mk name ps result body span)) :=
        fun hunfinished => hunfinished.2.2 (hsignature.1 hcomplete)
      have hpush : (s.scope.push ⟨name, .func f true, place⟩).Settled := hs.push rfl
      refine .bind ((update_ends name (.func f true) s₂).mono (fun _ s₃ h₃ => .pure ?_)
        fun _ _ => False.elim)
      have hscope₃ : s₃.scope = s.scope.push ⟨name, .func f true, place⟩ := by
        rw [h₃, hscope₂, hscope₁, Scope.replace_push hunbound]
      refine .bind ((body_confined f.params ps (block_bounded body hbody) _ s₃).mono
        (fun _ s₄ h₄ => ?_) fun _ s₄ h₄ other => ?_)
      · refine .bind (.modify (.pure ⟨?_, hnot⟩))
        rw [h₄, hscope₃]
        exact hpush
      · rw [hscope₃] at h₄
        rw [State.globals_of_suffix hpush.length h₄.1]
        exact iff_of_false (hpush.not_incomplete other) (hnot other)
    · have hscope₂ := h₂.1.trans hscope₁
      have hglobals : s₂.globals = s₂.scope := by
        refine State.globals_of_suffix ?_ (List.suffix_refl _)
        rw [hscope₂, Scope.length_push, hs.length]
      rw [hglobals, hscope₂, hs.incomplete_push_iff rfl hunbound]
      constructor
      · rintro rfl
        exact ⟨rfl, hunbound, mt hsignature.2 h₂.2⟩
      · rintro ⟨rfl, -⟩
        rfl
  · obtain ⟨hbound, hscope, -⟩ := h₁
    have hsuffix : s.scope <:+ s₁.scope := hscope ▸ List.suffix_refl _
    rw [State.globals_of_suffix hs.length hsuffix]
    refine iff_of_false (hs.not_incomplete other) ?_
    rintro ⟨rfl, hunbound, -⟩
    exact hbound hunbound

/-- At the top, only a function with an unknown type is left unfinished. -/
theorem stmt_finishes (hs : s.scope.Settled) {t : Tree.Stmt} (ht : t.Numerals N) :
    Finishes t s := by
  cases t with
  | declare mutable name type value span =>
    have hadds : Adds N name (stmt (.declare mutable name type value span)) :=
      .after (resolve_looks type).confined fun t => .after (.require _ _ _) fun _ =>
      .after (valueFor_looks t ht).confined fun _ => .after (newVar_confined name t mutable)
      fun v => .before (.declare (Symbol.complete_var v) span) fun _ => .pure _
    exact .of_adds hs (fun _ h => h) hadds
  | function definition =>
    obtain ⟨name, ps, result, body, span⟩ := definition
    exact function_finishes hs name ps result ht span
  | matter name definitions span =>
    have hadds : Adds N name (stmt (.matter name definitions span)) :=
      .before (declareObject_adds name none span) fun ref =>
      (objectFields_confined ref definitions span).bind fun _ => .pure _
    exact .of_adds hs (fun _ h => h) hadds
  | guild name definitions definition methodDefs span =>
    have hadds : Adds N name (stmt (.guild name definitions definition methodDefs span)) :=
      .before (declareObject_adds name (some []) span) fun ref =>
      (objectFields_confined ref definitions span).bind fun fields =>
      (addMethods_confined ref methodDefs).bind fun _ =>
      (initialFields_confined ref fields ht.1 span).bind fun _ =>
      (Looks.objectInfo ref).confined.bind fun known =>
      (methods_confined ref known.methods methodDefs ht.2).bind fun _ => .pure _
    exact .of_adds hs (fun _ h => h) hadds
  | _ => exact .of_confined hs (fun _ h => h) ((stmt_reaches _ ht).confined rfl)

/-! ### Programs -/

/-- Of some statements, the first ones are accepted, and the next one is a function that is left
without a type. -/
def Unfinishes (ts : List Tree.Stmt) (s : State) (name : String) : Prop :=
  ∃ before t after accepted s₁, ts = before ++ t :: after ∧
    block before s = .ok accepted s₁ ∧ t.Unfinished s₁.scope name

/-- The first statement is unfinished, or it is accepted and one after it is. -/
theorem unfinishes_cons {t : Tree.Stmt} {rest : List Tree.Stmt} {name : String} :
    Unfinishes (t :: rest) s name ↔ t.Unfinished s.scope name ∨
      ∃ accepted s₁, stmt t s = .ok accepted s₁ ∧ Unfinishes rest s₁ name := by
  constructor
  · rintro ⟨before, u, after, accepted, s₁, heq, hblock, hu⟩
    cases before with
    | nil =>
      cases heq
      cases hblock
      exact .inl hu
    | cons first before =>
      cases heq
      obtain ⟨a, s₂, ha, hrest⟩ := bind_eq_ok.1 hblock
      obtain ⟨as, s₃, has, hpure⟩ := bind_eq_ok.1 hrest
      cases hpure
      exact .inr ⟨a, s₂, ha, before, u, after, as, s₁, rfl, has, hu⟩
  · rintro (ht | ⟨a, s₁, ha, before, u, after, as, s₂, rfl, has, hu⟩)
    · exact ⟨[], t, rest, [], s, rfl, rfl, ht⟩
    · refine ⟨t :: before, u, after, a :: as, s₂, rfl, ?_, hu⟩
      exact bind_eq_ok.2 ⟨a, s₁, ha, bind_eq_ok.2 ⟨as, s₂, has, rfl⟩⟩

/-- Whatever the check of a program comes to, the names at the top that are not complete are those
of functions that are left without a type. -/
theorem block_finishes {ts : List Tree.Stmt} (hs : s.scope.Settled)
    (hts : Tree.blockNumerals N ts) :
    Ends (block ts) s (fun _ s' => s'.scope.Settled ∧ ∀ name, ¬ Unfinishes ts s name)
      fun _ s' => ∀ name, s'.globals.Incomplete name ↔ Unfinishes ts s name := by
  induction ts generalizing s with
  | nil =>
    refine .pure ⟨hs, ?_⟩
    rintro name ⟨before, t, after, accepted, s₁, heq, -⟩
    simp at heq
  | cons t rest ih =>
    refine .bind ((stmt_finishes hs hts.1).run.mono (fun a s₁ h₁ => ?_) fun _ s₁ h₁ name => ?_)
    · obtain ⟨ha, hs₁, hnot⟩ := h₁
      have hiff (name : String) : Unfinishes (t :: rest) s name ↔ Unfinishes rest s₁ name := by
        rw [unfinishes_cons, ha]
        constructor
        · rintro (ht | ⟨b, s₂, hb, hrest⟩)
          · exact absurd ht (hnot name)
          · cases hb
            exact hrest
        · exact fun hrest => .inr ⟨a, s₁, rfl, hrest⟩
      refine .bind ((ih hs₁ hts.2).mono (fun _ s₂ h₂ => ?_) fun _ s₂ h₂ name => ?_)
      · exact .pure ⟨h₂.1, fun name => mt (hiff name).1 (h₂.2 name)⟩
      · rw [hiff, h₂]
    · obtain ⟨hfailed, hincomplete⟩ := h₁
      rw [hincomplete, unfinishes_cons, hfailed]
      simp

end Check

end Dragon
