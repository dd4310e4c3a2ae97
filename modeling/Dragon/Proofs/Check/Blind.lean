import Dragon.Check.Stmt
import Dragon.Proofs.Tree.Bare

/-!
# Checking does not see places

Two checks are run side by side from states that are the same apart from places; they are blind to
places if they both give the same result, or fail in the same way apart from places, and leave such
states again. The checks of a tree and of the tree apart from its places are so at every step.
-/
namespace Dragon

/-! ### States and failures apart from places -/

/-- A place is kept apart only as one that there is. -/
def Violation.bare : Violation → Violation
  | alreadyDeclared name previous => alreadyDeclared name (previous.map fun _ => .nowhere)
  | v => v

def CheckFailure.bare : CheckFailure → CheckFailure
  | violation fault => violation ⟨fault.violation.bare, .nowhere⟩
  | failure => failure

def Binding.bare (b : Binding) : Binding := { b with span := b.span.map fun _ => .nowhere }

def Frame.bare (f : Frame) : Frame := { f with bindings := f.bindings.map Binding.bare }

def Scope.bare (s : Scope) : Scope := s.map Frame.bare

def Check.State.bare (s : State) : State := { s with scope := s.scope.bare }

theorem Frame.find?_bare (f : Frame) (name : String) :
    f.bare.find? name = (f.find? name).map Binding.bare :=
  List.find?_map

theorem Frame.bare_bind (f : Frame) (b : Binding) :
    Frame.bare { f with bindings := f.bindings ++ [b] } =
      { f.bare with bindings := f.bare.bindings ++ [b.bare] } := by
  simp [Frame.bare]

theorem Frame.bare_update (f : Frame) (name : String) (symbol : Symbol) :
    (f.update name symbol).bare = f.bare.update name symbol := by
  unfold bare update
  simp only [List.map_map]
  congr 1
  refine List.map_congr_left fun b _ => ?_
  show Binding.bare (if b.name == name then _ else _) = if b.name == name then _ else _
  split <;> rfl

/-- What a name stands for does not depend on where it was declared. -/
theorem Scope.lookup?_bare (s : Scope) (name : String) : s.bare.lookup? name = s.lookup? name := by
  induction s with
  | nil => rfl
  | cons f rest ih =>
    show (Scope.bare (f :: rest)).findSome? _ = List.findSome? _ (f :: rest)
    rw [Scope.bare, List.map_cons, List.findSome?_cons, List.findSome?_cons, Frame.find?_bare]
    cases f.find? name with
    | none => exact ih
    | some b => rfl

theorem Scope.flags_bare (s : Scope) : s.bare.flags = s.flags := by
  cases s <;> rfl

namespace Check

theorem State.bare_eq_iff {s s' : State} :
    s.bare = s'.bare ↔ s.next = s'.next ∧ s.objects = s'.objects ∧
      s.scope.bare = s'.scope.bare ∧ s.events = s'.events := by
  simp only [State.bare, State.mk.injEq]

variable {α β γ δ : Type}

/-! ### Two checks side by side -/

/-- The same outcome apart from places, with related results. -/
def Alike (R : α → β → Prop) :
    EStateM.Result CheckFailure State α → EStateM.Result CheckFailure State β → Prop
  | .ok a s, .ok b s' => R a b ∧ s.bare = s'.bare
  | .error e s, .error e' s' => e.bare = e'.bare ∧ s.bare = s'.bare
  | _, _ => False

/-- Two checks that come to the same from states that are the same apart from places. -/
def Blind (R : α → β → Prop) (m : Check α) (m' : Check β) : Prop :=
  ∀ s s', s.bare = s'.bare → Alike R (m s) (m' s')

/-- Checks in sequence, of which the second ones start from related results. -/
theorem Blind.bindTo {R : α → β → Prop} {Q : γ → δ → Prop} {m : Check α} {m' : Check β}
    {f : α → Check γ} {f' : β → Check δ} (hm : Blind R m m')
    (hf : ∀ a b, R a b → Blind Q (f a) (f' b)) : Blind Q (m >>= f) (m' >>= f') := by
  intro s s' hs
  show Alike Q (EStateM.bind m f s) (EStateM.bind m' f' s')
  have halike := hm s s' hs
  unfold EStateM.bind
  cases hr : m s with
  | ok a s₁ =>
    cases hr' : m' s' with
    | ok b s₁' =>
      rw [hr, hr'] at halike
      exact hf a b halike.1 s₁ s₁' halike.2
    | error e' s₁' =>
      rw [hr, hr'] at halike
      exact halike.elim
  | error e s₁ =>
    cases hr' : m' s' with
    | ok b s₁' =>
      rw [hr, hr'] at halike
      exact halike.elim
    | error e' s₁' =>
      rw [hr, hr'] at halike
      exact halike

namespace Blind

theorem bind {Q : γ → δ → Prop} {m m' : Check α} {f : α → Check γ} {f' : α → Check δ}
    (hm : Blind Eq m m') (hf : ∀ a, Blind Q (f a) (f' a)) : Blind Q (m >>= f) (m' >>= f') := by
  refine Blind.bindTo hm ?_
  rintro a _ rfl
  exact hf a

theorem pure {R : α → β → Prop} {a : α} {b : β} (h : R a b) :
    Blind R (pure a : Check α) (pure b) := fun _ _ hs => ⟨h, hs⟩

/-- A result from which the same is made. -/
theorem map {m m' : Check α} {f : α → β} (hm : Blind Eq m m') :
    Blind Eq (m >>= fun a => Pure.pure (f a)) (m' >>= fun a => Pure.pure (f a)) :=
  hm.bind fun _ => .pure rfl

theorem throw (failure : CheckFailure) : Blind Eq (throw failure : Check α) (throw failure) :=
  fun _ _ hs => ⟨rfl, hs⟩

theorem modify {change change' : State → State}
    (h : ∀ s s', s.bare = s'.bare → (change s).bare = (change' s').bare) :
    Blind Eq (modify change : Check Unit) (modify change') :=
  fun s s' hs => ⟨rfl, h s s' hs⟩

theorem get : Blind (fun s s' => s.bare = s'.bare) (get : Check State) get :=
  fun _ _ hs => ⟨hs, hs⟩

/-- What is read of the state has no places. -/
theorem read {view : State → α} (h : ∀ s s', s.bare = s'.bare → view s = view s') :
    Blind Eq (do return view (← MonadState.get)) (do return view (← MonadState.get)) :=
  fun s s' hs => ⟨h s s' hs, hs⟩

end Blind

theorem Blind.fail {R : α → β → Prop} {v v' : Violation} (h : v.bare = v'.bare)
    (span span' : Span) : Blind R (fail v span) (fail v' span') := by
  intro s s' hs
  refine ⟨?_, hs⟩
  show CheckFailure.violation _ = CheckFailure.violation _
  rw [h]

theorem Blind.require (holds : Bool) (v : Violation) (span span' : Span) :
    Blind Eq (require holds v span) (require holds v span') := by
  unfold Check.require
  cases holds with
  | true => exact .pure rfl
  | false => exact .fail rfl span span'

/-- After a requirement. -/
theorem Blind.required {R : α → β → Prop} {m : Check α} {m' : Check β} {holds : Bool}
    {v : Violation} {span span' : Span} (h : Blind R m m') :
    Blind R (Check.require holds v span >>= fun _ => m)
      (Check.require holds v span' >>= fun _ => m') :=
  (Blind.require holds v span span').bind fun _ => h

theorem Blind.lookup (name : String) : Blind Eq (lookup name) (lookup name) := by
  refine .read fun s s' hs => ?_
  obtain ⟨-, -, hscope, -⟩ := State.bare_eq_iff.1 hs
  rw [← Scope.lookup?_bare, hscope, Scope.lookup?_bare]

theorem Blind.flags : Blind Eq flags flags := by
  refine .read fun s s' hs => ?_
  obtain ⟨-, -, hscope, -⟩ := State.bare_eq_iff.1 hs
  rw [← Scope.flags_bare, hscope, Scope.flags_bare]

theorem Blind.objectInfo (ref : ObjectRef) : Blind Eq (objectInfo ref) (objectInfo ref) := by
  refine .read fun s s' hs => ?_
  obtain ⟨-, hobjects, -, -⟩ := State.bare_eq_iff.1 hs
  rw [hobjects]

theorem Blind.emit (event : Event) : Blind Eq (emit event) (emit event) := by
  refine .modify fun s s' hs => ?_
  obtain ⟨hnext, hobjects, hscope, hevents⟩ := State.bare_eq_iff.1 hs
  exact State.bare_eq_iff.2 ⟨hnext, hobjects, hscope, congrArg (event :: ·) hevents⟩

theorem Blind.fresh : Blind Eq fresh fresh := by
  intro s s' hs
  obtain ⟨hnext, hobjects, hscope, hevents⟩ := State.bare_eq_iff.1 hs
  exact ⟨hnext, State.bare_eq_iff.2 ⟨congrArg (· + 1) hnext, hobjects, hscope, hevents⟩⟩

theorem blind_modifyObjects (change : Objects → Objects) :
    Blind Eq (modify fun s => { s with objects := change s.objects })
      (modify fun s => { s with objects := change s.objects }) := by
  refine .modify fun s s' hs => ?_
  obtain ⟨hnext, hobjects, hscope, hevents⟩ := State.bare_eq_iff.1 hs
  exact State.bare_eq_iff.2 ⟨hnext, congrArg change hobjects, hscope, hevents⟩

theorem blind_modifyScope (change : Scope → Scope)
    (h : ∀ scope scope' : Scope, scope.bare = scope'.bare →
      (change scope).bare = (change scope').bare) :
    Blind Eq (modify fun s => { s with scope := change s.scope })
      (modify fun s => { s with scope := change s.scope }) := by
  refine .modify fun s s' hs => ?_
  obtain ⟨hnext, hobjects, hscope, hevents⟩ := State.bare_eq_iff.1 hs
  exact State.bare_eq_iff.2 ⟨hnext, hobjects, h _ _ hscope, hevents⟩

/-- A frame is entered and left on both sides alike. -/
theorem blind_nested (change : Flags → Flags) {m m' : Check α} (h : Blind Eq m m') :
    Blind Eq (nested change m) (nested change m') := by
  have henter : Blind Eq (modify fun s => { s with scope := s.scope.child change })
      (modify fun s => { s with scope := s.scope.child change }) := by
    refine blind_modifyScope (·.child change) fun scope scope' hscope => ?_
    have hflags : scope.flags = scope'.flags := by
      rw [← Scope.flags_bare, hscope, Scope.flags_bare]
    unfold Scope.child
    rw [hflags]
    exact congrArg (_ :: ·) hscope
  have hleave : Blind Eq (modify fun s => { s with scope := s.scope.tail })
      (modify fun s => { s with scope := s.scope.tail }) := by
    refine blind_modifyScope List.tail fun scope scope' hscope => ?_
    unfold Scope.bare
    rw [List.map_tail, List.map_tail]
    exact congrArg List.tail hscope
  exact henter.bind fun _ => h.bind fun _ => hleave.map

theorem blind_update (name : String) (symbol : Symbol) :
    Blind Eq (update name symbol) (update name symbol) := by
  refine .modify fun s s' hs => ?_
  obtain ⟨hnext, hobjects, hscope, hevents⟩ := State.bare_eq_iff.1 hs
  cases hframes : s.scope with
  | nil =>
    rw [hframes] at hscope
    have hframes' : s'.scope = [] := List.map_eq_nil_iff.1 hscope.symm
    rw [hframes']
    exact hs
  | cons frame outer =>
    rw [hframes] at hscope
    obtain ⟨frame', outer', hframes', hframe, houter⟩ := List.map_eq_cons_iff.1 hscope.symm
    rw [hframes']
    refine State.bare_eq_iff.2 ⟨hnext, hobjects, ?_, hevents⟩
    show (frame.update name symbol).bare :: Scope.bare outer =
      (frame'.update name symbol).bare :: Scope.bare outer'
    rw [Frame.bare_update, Frame.bare_update, hframe]
    exact congrArg (_ :: ·) houter.symm

/-- A name is bound already on both sides or on neither, and only the place of that differs. -/
theorem blind_declare (name : String) (symbol : Symbol) (span span' : Span) :
    Blind Eq (declare name symbol span) (declare name symbol span') := by
  unfold declare
  extract_lets place after place'
  have hplace : place.map (fun _ => Span.nowhere) = place'.map fun _ => Span.nowhere := by
    unfold place place'
    cases symbol <;> rfl
  refine Blind.get.bindTo fun s s' hs => ?_
  obtain ⟨-, -, hscope, -⟩ := State.bare_eq_iff.1 hs
  cases hframes : s.scope with
  | nil =>
    rw [hframes] at hscope
    rw [List.map_eq_nil_iff.1 hscope.symm]
    exact .emit _
  | cons frame outer =>
    rw [hframes] at hscope
    obtain ⟨frame', outer', hframes', hframe, houter⟩ := List.map_eq_cons_iff.1 hscope.symm
    rw [hframes']
    have hfind : (frame.find? name).map Binding.bare = (frame'.find? name).map Binding.bare := by
      rw [← Frame.find?_bare, ← hframe, Frame.find?_bare]
    dsimp only [Frame.declare]
    cases hprevious : frame.find? name with
    | some previous =>
      rw [hprevious] at hfind
      obtain ⟨previous', hprevious', hbare⟩ := Option.map_eq_some_iff.1 hfind.symm
      rw [hprevious']
      refine (Blind.fail ?_ span span').bind fun _ => .emit _
      exact congrArg (Violation.alreadyDeclared name) (congrArg Binding.span hbare.symm)
    | none =>
      rw [hprevious] at hfind
      rw [Option.map_eq_none_iff.1 hfind.symm]
      refine (Blind.modify fun s s' hs => ?_).bind fun _ => .emit _
      obtain ⟨hnext, hobjects, -, hevents⟩ := State.bare_eq_iff.1 hs
      refine State.bare_eq_iff.2 ⟨hnext, hobjects, ?_, hevents⟩
      unfold Scope.bare
      rw [List.map_cons, List.map_cons, Frame.bare_bind, Frame.bare_bind, hframe, houter,
        Binding.bare, Binding.bare, hplace]

/-! ### Types and rules -/

mutual

theorem blind_resolve (t : Tree.TypeExpr) : Blind Eq (resolve t) (resolve t.bare) := by
  cases t with
  | named name span =>
    rw [Tree.TypeExpr.bare]
    unfold resolve
    split
    · exact .pure rfl
    · refine (Blind.lookup name).bind fun symbol => ?_
      split
      · exact .fail rfl _ _
      · exact .pure rfl
      · exact .fail rfl _ _
  | list element span => exact (blind_resolve element).map
  | optional base span => exact (blind_resolve base).map
  | function params result span =>
    exact (blind_resolveAll params).bind fun _ => (blind_resolve result).map

theorem blind_resolveAll (ts : List Tree.TypeExpr) :
    Blind Eq (resolveAll ts) (resolveAll (Tree.bareTypes ts)) := by
  cases ts with
  | nil => exact .pure rfl
  | cons t rest =>
    exact (blind_resolve t).bind fun _ => (blind_resolveAll rest).map

end

section Rules

variable (span span' : Span)

theorem blind_asValue (e : Typed.Expr) : Blind Eq (asValue e span) (asValue e span') :=
  .required (.pure rfl)

theorem blind_coerce (e : Typed.Expr) (target : Ty) :
    Blind Eq (coerce e target span) (coerce e target span') := by
  unfold coerce
  split
  · exact .pure rfl
  · exact .required (.pure rfl)

theorem blind_integer (text : String) : Blind Eq (integer text span) (integer text span') := by
  unfold integer
  split
  · exact .throw _
  · exact .required (.pure rfl)

theorem blind_float (text : String) : Blind Eq (float text) (float text) := by
  unfold float
  split
  · exact .throw _
  · exact .pure rfl

theorem blind_symbolValue (name : String) (symbol : Symbol) :
    Blind Eq (symbolValue name span symbol) (symbolValue name span' symbol) := by
  cases symbol with
  | object o => exact .fail rfl _ _
  | _ => exact .pure rfl

theorem blind_identify (name : String) : Blind Eq (identify name span) (identify name span') := by
  refine (Blind.lookup name).bind fun symbol => ?_
  split
  · exact .pure rfl
  · exact .fail rfl _ _

theorem blind_unary (op : UnaryOp) (operand : Typed.Expr) :
    Blind Eq (unary op operand span) (unary op operand span') := by
  cases op with
  | neg | not => exact .required (.pure rfl)
  | some => exact .pure rfl

theorem blind_binary (op : BinaryOp) (l r : Typed.Expr) (spanl spanl' spanr spanr' : Span) :
    Blind Eq (binary op l r spanl spanr span) (binary op l r spanl' spanr' span') := by
  cases op with
  | eq | ne => exact .required (.pure rfl)
  | _ =>
    exact .required (.required (.pure rfl))

theorem blind_subscript (c i : Typed.Expr) :
    Blind Eq (subscript c i span) (subscript c i span') := by
  unfold subscript
  split
  · exact .pure rfl
  · exact .required (.pure rfl)

theorem blind_member (o : Typed.Expr) (access : Access) (name : String) (spano spano' : Span) :
    Blind Eq (member o access name spano span) (member o access name spano' span') := by
  have hreceiver : Blind Eq (receiver o access spano) (receiver o access spano') := by
    cases access <;>
    · simp only [receiver]
      split
      · exact .pure rfl
      · exact .fail rfl _ _
  refine hreceiver.bind fun owner => (Blind.objectInfo owner).bind fun info => ?_
  split
  · exact .fail rfl _ _
  · exact .pure rfl

theorem blind_expectName (given wanted : Option String) :
    Blind Eq (expectName given wanted span) (expectName given wanted span') := by
  unfold expectName
  split
  · exact .pure rfl
  · exact .fail rfl _ _
  · exact .require _ _ _ _

end Rules

/-- Whether some element passes a test does not depend on what stands beside the elements. -/
theorem isSome_find?_zip {test : α × β → Bool} (htest : ∀ a b b', test (a, b) = test (a, b'))
    {xs : List α} {ys ys' : List β} (hlength : ys.length = ys'.length) {found : Option (α × β)}
    (h : (xs.zip ys).find? test = found) :
    ((xs.zip ys').find? test).isSome = found.isSome := by
  subst h
  induction xs generalizing ys ys' with
  | nil => rfl
  | cons x xs ih =>
    cases ys with
    | nil =>
      rw [List.length_eq_zero_iff.1 hlength.symm]
    | cons y ys =>
      cases ys' with
      | nil => cases hlength
      | cons y' ys' =>
        rw [List.zip_cons_cons, List.zip_cons_cons, List.find?_cons, List.find?_cons, htest x y y']
        cases test (x, y') with
        | true => rfl
        | false => exact ih (Nat.succ.inj hlength)

/-- Places only tell where the element is that differs from the others. -/
theorem blind_list (elements : List Typed.Expr) {spans spans' : List Span}
    (hlength : spans.length = spans'.length) :
    Blind Eq (list elements spans) (list elements spans') := by
  unfold list
  extract_lets decisive type elements
  split
  next hfound =>
    have hsome := isSome_find?_zip (fun _ _ _ => rfl) hlength hfound
    obtain ⟨first', hfirst'⟩ := Option.isSome_iff_exists.1 hsome
    rw [hfirst']
    exact .fail rfl _ _
  next hfound =>
    have hnone := isSome_find?_zip (fun _ _ _ => rfl) hlength hfound
    rw [Option.isSome_none, Option.isSome_eq_false_iff, Option.isNone_iff_eq_none] at hnone
    rw [hnone]
    exact .pure rfl

/-! ### Expressions -/

theorem Blind.value {R : β → γ → Prop} {x x' : Check Typed.Expr} {k : Typed.Expr → Check β}
    {k' : Typed.Expr → Check γ} (hx : Blind Eq x x') (span span' : Span)
    (hk : ∀ v, Blind R (k v) (k' v)) :
    Blind R (x >>= fun e => asValue e span >>= k) (x' >>= fun e => asValue e span' >>= k') :=
  hx.bind fun e => (blind_asValue span span' e).bind hk

/-- A call of a value that may be a function. -/
theorem blind_callValue {c : Typed.Expr} {args args' : List Tree.Argument}
    (hlength : args'.length = args.length) (span span' failing failing' : Span)
    (hargs : ∀ slots, Blind Eq (exprArguments args slots) (exprArguments args' slots)) :
    Blind Eq
      (match c.type with
        | .function params result names => do
          let slots := slots params names
          expectCount args.length slots.length span
          let args ← exprArguments args slots
          pure (Typed.Expr.call c args result)
        | type => fail (.notCallable type) failing)
      (match c.type with
        | .function params result names => do
          let slots := slots params names
          expectCount args'.length slots.length span'
          let args ← exprArguments args' slots
          pure (Typed.Expr.call c args result)
        | type => fail (.notCallable type) failing') := by
  split
  · dsimp only
    rw [hlength]
    exact .required <| (hargs _).map
  · exact .fail rfl _ _

theorem blind_application (callee : Tree.Expr) {args args' : List Tree.Argument}
    (hlength : args'.length = args.length) (span span' : Span)
    (hcallee : Blind Eq (expr callee) (expr callee.bare))
    (hargs : ∀ slots, Blind Eq (exprArguments args slots) (exprArguments args' slots)) :
    Blind Eq (expr (.call callee args span)) (expr (.call callee.bare args' span')) := by
  by_cases hname : ∃ name nameSpan, callee = .identifier name nameSpan
  · obtain ⟨name, nameSpan, rfl⟩ := hname
    rw [Tree.Expr.bare]
    refine (blind_identify nameSpan .nowhere name).bind fun symbol => ?_
    split
    · refine (Blind.objectInfo _).bind fun info => ?_
      dsimp only
      rw [hlength]
      exact .required <| (hargs _).map
    · exact (blind_symbolValue nameSpan .nowhere name _).bind fun c =>
        blind_callValue hlength span span' nameSpan .nowhere hargs
  · have hbare : ∀ name nameSpan, callee.bare = .identifier name nameSpan → False := by
      intro name nameSpan h
      cases callee with
      | identifier name span => exact hname ⟨name, span, rfl⟩
      | _ => simp only [Tree.Expr.bare, reduceCtorEq] at h
    rw [expr, expr]
    · exact hcallee.value _ _ fun c => blind_callValue hlength span span' _ _ hargs
    · exact hbare
    · exact fun name nameSpan h => hname ⟨name, nameSpan, h⟩

theorem blind_parts (e : Tree.Expr) {rest rest' : List Tree.Expr}
    (he : Blind Eq (expr e) (expr e.bare)) (hrest : Blind Eq (exprParts rest) (exprParts rest')) :
    Blind Eq (exprParts (e :: rest)) (exprParts (e.bare :: rest')) := by
  by_cases htext : ∃ value span, e = .string value span
  · obtain ⟨value, span, rfl⟩ := htext
    exact hrest.map
  · have hbare : ∀ value span, e.bare = .string value span → False := by
      intro value span h
      cases e with
      | string value span => exact htext ⟨value, span, rfl⟩
      | _ => simp only [Tree.Expr.bare, reduceCtorEq] at h
    rw [exprParts, exprParts]
    · exact he.value _ _ fun _ => hrest.map
    · exact hbare
    · exact fun value span h => htext ⟨value, span, h⟩

theorem length_bareArguments (args : List Tree.Argument) :
    (Tree.bareArguments args).length = args.length := by
  rw [Tree.bareArguments_eq_map, List.length_map]

mutual

/-- No expression is checked by its places. -/
theorem blind_expr (e : Tree.Expr) : Blind Eq (expr e) (expr e.bare) := by
  match e with
  | .integer text span => exact blind_integer span _ text
  | .float text span => exact blind_float text
  | .boolean value span => exact .pure rfl
  | .string value span => exact .pure rfl
  | .interpolation parts span => exact (blind_exprParts parts).map
  | .identifier name span =>
    exact (blind_identify span _ name).bind fun _ => blind_symbolValue span _ name _
  | .mine span =>
    refine Blind.flags.bind fun f => ?_
    split
    · exact .fail rfl _ _
    · exact .pure rfl
  | .naught type span => exact (blind_resolve type).map
  | .list [] span => exact .pure rfl
  | .list (first :: rest) span =>
    refine (blind_expr first).value _ _ fun _ => (blind_exprValues rest).bind fun _ => ?_
    refine blind_list _ ?_
    rw [Tree.bareExprs_eq_map, List.length_cons, List.length_cons, List.length_map, List.length_map,
      List.length_map]
  | .unary op operand span => exact (blind_expr operand).value _ _ fun _ => blind_unary _ _ op _
  | .binary left op right span =>
    exact (blind_expr left).value _ _ fun _ => (blind_expr right).value _ _ fun _ =>
      blind_binary _ _ op _ _ _ _ _ _
  | .ternary test consequent alternate span =>
    exact (blind_expr test).bind fun _ => .required <| (blind_expr consequent).value _ _ fun _ =>
      (blind_expr alternate).value _ _ fun _ => .required (.pure rfl)
  | .coalesce optional fallback span =>
    refine (blind_expr optional).bind fun o => ?_
    split
    · exact .fail rfl _ _
    · exact (blind_expr fallback).value _ _ fun _ => (blind_coerce _ _ _ _).map
  | .call callee args span =>
    exact blind_application callee (length_bareArguments args) span _ (blind_expr callee)
      (blind_exprArguments args)
  | .index collection index span =>
    exact (blind_expr collection).value _ _ fun _ => (blind_expr index).value _ _ fun _ =>
      .required (blind_subscript _ _ _ _)
  | .member object access name span =>
    exact (blind_expr object).value _ _ fun _ => blind_member _ _ _ access name _ _

theorem blind_exprValues (es : List Tree.Expr) :
    Blind Eq (exprValues es) (exprValues (Tree.bareExprs es)) := by
  match es with
  | [] => exact .pure rfl
  | e :: rest =>
    exact (blind_expr e).value _ _ fun _ => (blind_exprValues rest).map

theorem blind_exprParts (parts : List Tree.Expr) :
    Blind Eq (exprParts parts) (exprParts (Tree.bareExprs parts)) := by
  match parts with
  | [] => exact .pure rfl
  | e :: rest => exact blind_parts e (blind_expr e) (blind_exprParts rest)

theorem blind_exprArguments (args : List Tree.Argument) (slots : List (Option String × Ty)) :
    Blind Eq (exprArguments args slots) (exprArguments (Tree.bareArguments args) slots) := by
  match args, slots with
  | [], [] | [], _ :: _ | .mk .. :: _, [] => exact .pure rfl
  | .mk name value span :: args, (wanted, type) :: params =>
    exact (blind_expectName span _ name wanted).bind fun _ => (blind_expr value).value _ _ fun _ =>
      (blind_coerce _ _ _ _).bind fun _ => (blind_exprArguments args params).map

end

theorem blind_valueFor (type : Ty) (e : Tree.Expr) :
    Blind Eq (valueFor type e) (valueFor type e.bare) :=
  (blind_expr e).value _ _ fun _ => blind_coerce _ _ _ _

/-! ### Declarations -/

theorem blind_newVar (name : String) (type : Ty) (mutable : Bool) :
    Blind Eq (newVar name type mutable) (newVar name type mutable) :=
  Blind.fresh.map

theorem blind_declaration (mutable : Bool) (name : String) (type : Tree.TypeExpr)
    (value : Tree.Expr) (span span' : Span) :
    Blind Eq (declaration mutable name type value span)
      (declaration mutable name type.bare value.bare span') :=
  (blind_resolve type).bind fun _ => .required <| (blind_valueFor _ value).bind fun _ =>
    (blind_newVar _ _ _).bind fun _ =>
    (blind_declare _ _ _ _).map

theorem blind_params (ps : List Tree.Param) :
    Blind Eq (params ps) (params (ps.map Tree.Param.bare)) := by
  induction ps with
  | nil => exact .pure rfl
  | cons p rest ih =>
    exact (blind_resolve p.type).bind fun _ => (blind_newVar _ _ _).bind fun _ =>
      ih.map

theorem blind_signature (id : Nat) (name : String) (ps : List Tree.Param)
    (result : Option Tree.TypeExpr) (isMethod : Bool) :
    Blind Eq (signature id name ps result isMethod)
      (signature id name (ps.map Tree.Param.bare) (result.map Tree.TypeExpr.bare) isMethod) := by
  refine (blind_params ps).bind fun vars => ?_
  cases result with
  | none => exact (Blind.pure rfl).map
  | some type => exact (blind_resolve type).map

theorem blind_declareFunction (name : String) (ps : List Tree.Param)
    (result : Option Tree.TypeExpr) (span span' : Span) :
    Blind Eq (declareFunction name ps result span)
      (declareFunction name (ps.map Tree.Param.bare) (result.map Tree.TypeExpr.bare) span') :=
  Blind.fresh.bind fun _ => (blind_declare _ _ _ _).bind fun _ =>
    (blind_signature _ _ ps result _).bind fun _ => (blind_update _ _).map

theorem blind_declareParams (vars : List Var) (ps : List Tree.Param) :
    Blind Eq (declareParams vars ps) (declareParams vars (ps.map Tree.Param.bare)) := by
  induction vars generalizing ps with
  | nil => cases ps <;> exact .pure rfl
  | cons v vars ih =>
    cases ps with
    | nil => exact .pure rfl
    | cons p rest => exact (blind_declare _ _ _ _).bind fun _ => ih rest

theorem blind_addObject (info : ObjectInfo) : Blind Eq (addObject info) (addObject info) :=
  blind_modifyObjects (· ++ [info])

theorem blind_declareObject (name : String) (parameters : Option (List ForgeParam))
    (span span' : Span) :
    Blind Eq (declareObject name parameters span) (declareObject name parameters span') :=
  Blind.fresh.bind fun _ => (blind_addObject _).bind fun _ =>
    (blind_declare _ _ _ _).map

theorem blind_modifyObject (ref : ObjectRef) (change : ObjectInfo → ObjectInfo) :
    Blind Eq (modifyObject ref change) (modifyObject ref change) :=
  blind_modifyObjects (·.modify ref.id change)

theorem blind_addFields (ref : ObjectRef) (fields : List Tree.FieldDef) :
    Blind Eq (addFields ref fields) (addFields ref (fields.map Tree.FieldDef.bare)) := by
  induction fields with
  | nil => exact .pure rfl
  | cons f rest ih =>
    exact (Blind.objectInfo ref).bind fun _ => .required <| (blind_resolve f.type).bind fun _ =>
      .required <| (blind_modifyObject _ _).bind fun _ => ih

theorem blind_objectFields (ref : ObjectRef) (fields : List Tree.FieldDef) (span span' : Span) :
    Blind Eq (objectFields ref fields span)
      (objectFields ref (fields.map Tree.FieldDef.bare) span') := by
  refine (blind_addFields ref fields).bind fun _ => Blind.get.bindTo fun s s' hs => ?_
  obtain ⟨-, hobjects, -, -⟩ := State.bare_eq_iff.1 hs
  rw [hobjects]
  exact .required <| (Blind.objectInfo ref).map

theorem blind_addMethods (ref : ObjectRef) (methods : List Tree.FunctionDef) :
    Blind Eq (addMethods ref methods) (addMethods ref (Tree.bareMethods methods)) := by
  induction methods with
  | nil => exact .pure rfl
  | cons m rest ih =>
    obtain ⟨name, ps, result, body, span⟩ := m
    exact (Blind.objectInfo ref).bind fun _ => .required <| Blind.fresh.bind fun _ =>
      (blind_signature _ name ps result _).bind fun _ =>
      (blind_modifyObject _ _).bind fun _ => ih

theorem blind_forgeParams (ps : List Tree.Param) :
    Blind Eq (forgeParams ps) (forgeParams (ps.map Tree.Param.bare)) := by
  induction ps with
  | nil => exact .pure rfl
  | cons p rest ih =>
    exact Blind.fresh.bind fun _ => (blind_resolve p.type).bind fun _ =>
      (blind_declare _ _ _ _).bind fun _ => ih.map

/-- The same field, and the same value apart from places. -/
def SameSetting (setting setting' : Field × Tree.Expr) : Prop :=
  setting' = (setting.1, setting.2.bare)

/-- The field that a statement of a forge assigns does not depend on places, nor does the value. -/
theorem blind_forgeTarget (ref : ObjectRef) (s : Tree.Stmt) :
    Blind SameSetting (forgeTarget ref s) (forgeTarget ref s.bare) := by
  by_cases htarget : ∃ mineSpan name targetSpan value span,
      s = .assign (.member (.mine mineSpan) .plain name targetSpan) value span
  · obtain ⟨mineSpan, name, targetSpan, value, span, rfl⟩ := htarget
    refine (Blind.objectInfo ref).bind fun info => ?_
    split
    · exact .pure rfl
    · exact .fail rfl _ _
  · have hbare : ∀ mineSpan name targetSpan value span,
        s.bare = .assign (.member (.mine mineSpan) .plain name targetSpan) value span → False := by
      intro mineSpan name targetSpan value span h
      cases s with
      | assign target value span =>
        rw [Tree.Stmt.bare] at h
        injection h with h
        cases target with
        | member object access name targetSpan =>
          rw [Tree.Expr.bare] at h
          injection h with hobject haccess
          subst haccess
          cases object with
          | mine mineSpan => exact htarget ⟨mineSpan, name, targetSpan, value, span, rfl⟩
          | _ => simp only [Tree.Expr.bare, reduceCtorEq] at hobject
        | _ => simp only [Tree.Expr.bare, reduceCtorEq] at h
      | _ => simp only [Tree.Stmt.bare, reduceCtorEq] at h
    rw [forgeTarget, forgeTarget]
    · exact .fail rfl _ _
    · exact hbare
    · exact fun mineSpan name targetSpan value span h =>
        htarget ⟨mineSpan, name, targetSpan, value, span, h⟩

theorem blind_forgeBody (ref : ObjectRef) (assigned : List (String × Typed.Expr))
    (body : List Tree.Stmt) :
    Blind Eq (forgeBody ref assigned body) (forgeBody ref assigned (Tree.bareBlock body)) := by
  induction body generalizing assigned with
  | nil => exact .pure rfl
  | cons s rest ih =>
    refine (blind_forgeTarget ref s).bindTo fun setting setting' hsetting => ?_
    obtain rfl : setting' = _ := hsetting
    exact .required <| (blind_valueFor _ setting.2).bind fun _ => ih _

theorem blind_forge (ref : ObjectRef) (definition : Option Tree.Forge) :
    Blind Eq (forge ref definition) (forge ref (Tree.bareForge definition)) := by
  cases definition with
  | none => exact .pure rfl
  | some definition =>
    obtain ⟨ps, body, span⟩ := definition
    exact blind_nested _ ((blind_forgeParams ps).bind fun _ => (blind_modifyObject _ _).bind
      fun _ => blind_forgeBody ref [] body)

theorem blind_initialFields (ref : ObjectRef) (fields : List Field)
    (definition : Option Tree.Forge) (span span' : Span) :
    Blind Eq (initialFields ref fields definition span)
      (initialFields ref fields (Tree.bareForge definition) span') :=
  (blind_forge ref definition).bind fun _ => .required (.pure rfl)

/-! ### Statements -/

theorem blind_checkReturn (value : Option Tree.Expr) (span span' : Span) :
    Blind Eq (checkReturn value span) (checkReturn (value.map Tree.Expr.bare) span') := by
  refine Blind.flags.bind fun f => ?_
  split
  · exact .fail rfl _ _
  · cases value with
    | none => exact .required (.pure rfl)
    | some e =>
      exact .required (blind_valueFor _ e).map

mutual

/-- No statement is checked by its places. -/
theorem blind_stmt (s : Tree.Stmt) : Blind Eq (stmt s) (stmt s.bare) := by
  match s with
  | .declare mutable name type value span => exact blind_declaration mutable name type value span _
  | .function (.mk name ps result body span) =>
    exact (blind_declareFunction name ps result span _).bind fun _ =>
      (blind_nested _ ((blind_declareParams _ ps).bind fun _ => blind_block body)).bind fun _ =>
      (Blind.emit _).map
  | .matter name fields span =>
    exact (blind_declareObject name none span _).bind fun _ =>
      (blind_objectFields _ fields span _).map
  | .guild name fields definition methods span =>
    exact (blind_declareObject name (some []) span _).bind fun _ =>
      (blind_objectFields _ fields span _).bind fun _ => (blind_addMethods _ methods).bind fun _ =>
      (blind_initialFields _ _ definition span _).bind fun _ => (Blind.objectInfo _).bind fun _ =>
      (blind_methods _ _ methods).map
  | .print value span => exact (blind_expr value).value _ _ fun _ => .pure rfl
  | .assign target value span =>
    exact (blind_expr target).bind fun _ => .required <| (blind_valueFor _ value).map
  | .increment target span | .decrement target span =>
    exact (blind_expr target).bind fun _ => .required (.required (.pure rfl))
  | .return_ value span => exact blind_checkReturn value span _
  | .branch test body alternate span =>
    exact (blind_expr test).bind fun _ => .required <|
      (blind_nested _ (blind_block body)).bind fun _ => (blind_alternate alternate).map
  | .while_ e body span | .repeat_ e body span =>
    exact (blind_expr e).bind fun _ => .required <| (blind_nested _ (blind_block body)).map
  | .range iterator low kind high body span =>
    exact (blind_expr low).bind fun _ => .required <| (blind_expr high).bind fun _ =>
      .required <| (blind_newVar _ _ _).bind fun _ =>
      (blind_nested _ ((blind_declare _ _ _ _).bind fun _ => blind_block body)).map
  | .forEach iterator collection body span =>
    refine (blind_expr collection).bind fun c => ?_
    split
    · exact .fail rfl _ _
    · exact (blind_newVar _ _ _).bind fun _ =>
        (blind_nested _ ((blind_declare _ _ _ _).bind fun _ => blind_block body)).map
  | .break_ span => exact Blind.flags.bind fun _ => .required (.pure rfl)
  | .call callee args callSpan span =>
    exact (blind_expr (.call callee args callSpan)).map

theorem blind_block (ss : List Tree.Stmt) : Blind Eq (block ss) (block (Tree.bareBlock ss)) := by
  match ss with
  | [] => exact .pure rfl
  | s :: rest => exact (blind_stmt s).bind fun _ => (blind_block rest).map

theorem blind_alternate (a : Tree.Alternate) : Blind Eq (alternate a) (alternate a.bare) := by
  match a with
  | .none => exact .pure rfl
  | .block body => exact (blind_nested _ (blind_block body)).map
  | .chain test body alternate span =>
    exact (blind_expr test).bind fun _ => .required <|
      (blind_nested _ (blind_block body)).bind fun _ => (blind_alternate alternate).map

theorem blind_methods (ref : ObjectRef) (fs : List Func) (ms : List Tree.FunctionDef) :
    Blind Eq (methods ref fs ms) (methods ref fs (Tree.bareMethods ms)) := by
  match fs, ms with
  | [], [] | [], _ :: _ | _ :: _, [] => exact .pure rfl
  | f :: fs, .mk name ps result body span :: rest =>
    exact (blind_nested _ ((blind_declareParams _ ps).bind fun _ => blind_block body)).bind fun _ =>
      (Blind.emit _).bind fun _ => (blind_methods ref fs rest).map

end

end Check

/-- The result of a check, apart from places. -/
def Checked.bareResult : Except CheckFailure Typed.Program → Except CheckFailure Typed.Program
  | .ok program => .ok program
  | .error failure => .error failure.bare

/-- Checking a program does not see places. -/
theorem Checked.result_bare (tree : Tree.Program) :
    bareResult (ofTree tree.bare).result = bareResult (ofTree tree).result := by
  have hblock := Check.blind_block tree.statements .initial .initial rfl
  rw [Tree.bareBlock_eq_map] at hblock
  unfold ofTree Tree.Program.bare EStateM.run
  dsimp only
  cases hrun : Check.block tree.statements .initial with
  | ok statements state =>
    cases hrun' : Check.block (tree.statements.map Tree.Stmt.bare) .initial with
    | ok statements' state' =>
      rw [hrun, hrun'] at hblock
      rw [hblock.1]
    | error failure state' =>
      rw [hrun, hrun'] at hblock
      exact hblock.elim
  | error failure state =>
    cases hrun' : Check.block (tree.statements.map Tree.Stmt.bare) .initial with
    | ok statements' state' =>
      rw [hrun, hrun'] at hblock
      exact hblock.elim
    | error failure' state' =>
      rw [hrun, hrun'] at hblock
      exact congrArg Except.error hblock.1.symm

end Dragon
