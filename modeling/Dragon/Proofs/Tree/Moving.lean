import Dragon.Tree.StmtReader

/-!
# Readings side by side

The tokens of one input, with their places moved and with other tokens after them, are another
input. A reading of the second follows one of the first: it gives the same value or fault, moved.
Unless it stops where the first input ends and could go on there: types and expressions may do so
with any token, statements only with an `else`. Along with that goes what a reading does alone: it
takes its tokens from the front, and it does not run out of fuel.
-/
namespace Dragon.Tree

/-! ### Moving the places of trees -/

/-- Maps of places, and of trees along with them. -/
structure Moving where
  span : Span → Span
  type : TypeExpr → TypeExpr
  expr : Expr → Expr
  argument : Argument → Argument
  param : Param → Param
  field : FieldDef → FieldDef
  stmt : Stmt → Stmt
  function : FunctionDef → FunctionDef
  forge : Forge → Forge
  alternate : Alternate → Alternate

namespace Moving

/-- Only places are moved, and what lies between two places goes with them. -/
class Lawful (M : Moving) : Prop where
  through (a b) : M.span (a.through b) = (M.span a).through (M.span b)
  named (name s) : M.type (.named name s) = .named name (M.span s)
  listOf (t s) : M.type (.list t s) = .list (M.type t) (M.span s)
  optional (t s) : M.type (.optional t s) = .optional (M.type t) (M.span s)
  functionOf (ts t s) :
    M.type (.function ts t s) = .function (ts.map M.type) (M.type t) (M.span s)
  integer (text s) : M.expr (.integer text s) = .integer text (M.span s)
  float (text s) : M.expr (.float text s) = .float text (M.span s)
  boolean (value s) : M.expr (.boolean value s) = .boolean value (M.span s)
  string (value s) : M.expr (.string value s) = .string value (M.span s)
  interpolation (es s) : M.expr (.interpolation es s) = .interpolation (es.map M.expr) (M.span s)
  identifier (name s) : M.expr (.identifier name s) = .identifier name (M.span s)
  mine (s) : M.expr (.mine s) = .mine (M.span s)
  naught (t s) : M.expr (.naught t s) = .naught (M.type t) (M.span s)
  list (es s) : M.expr (.list es s) = .list (es.map M.expr) (M.span s)
  unary (op e s) : M.expr (.unary op e s) = .unary op (M.expr e) (M.span s)
  binary (l op r s) : M.expr (.binary l op r s) = .binary (M.expr l) op (M.expr r) (M.span s)
  ternary (c l r s) :
    M.expr (.ternary c l r s) = .ternary (M.expr c) (M.expr l) (M.expr r) (M.span s)
  coalesce (l r s) : M.expr (.coalesce l r s) = .coalesce (M.expr l) (M.expr r) (M.span s)
  call (e args s) : M.expr (.call e args s) = .call (M.expr e) (args.map M.argument) (M.span s)
  index (e i s) : M.expr (.index e i s) = .index (M.expr e) (M.expr i) (M.span s)
  member (e access name s) :
    M.expr (.member e access name s) = .member (M.expr e) access name (M.span s)
  argument (name e s) : M.argument (.mk name e s) = .mk name (M.expr e) (M.span s)
  param (name t s) : M.param ⟨name, t, s⟩ = ⟨name, M.type t, M.span s⟩
  field (name t s) : M.field ⟨name, t, s⟩ = ⟨name, M.type t, M.span s⟩
  declare (mutable name t e s) : M.stmt (.declare mutable name t e s) =
    .declare mutable name (M.type t) (M.expr e) (M.span s)
  function (f) : M.stmt (.function f) = .function (M.function f)
  matter (name fs s) : M.stmt (.matter name fs s) = .matter name (fs.map M.field) (M.span s)
  guild (name fs forge ms s) : M.stmt (.guild name fs forge ms s) =
    .guild name (fs.map M.field) (forge.map M.forge) (ms.map M.function) (M.span s)
  print (e s) : M.stmt (.print e s) = .print (M.expr e) (M.span s)
  assign (e v s) : M.stmt (.assign e v s) = .assign (M.expr e) (M.expr v) (M.span s)
  increment (e s) : M.stmt (.increment e s) = .increment (M.expr e) (M.span s)
  decrement (e s) : M.stmt (.decrement e s) = .decrement (M.expr e) (M.span s)
  return_ (e s) : M.stmt (.return_ e s) = .return_ (e.map M.expr) (M.span s)
  branch (e body a s) : M.stmt (.branch e body a s) =
    .branch (M.expr e) (body.map M.stmt) (M.alternate a) (M.span s)
  while_ (e body s) : M.stmt (.while_ e body s) = .while_ (M.expr e) (body.map M.stmt) (M.span s)
  repeat_ (e body s) :
    M.stmt (.repeat_ e body s) = .repeat_ (M.expr e) (body.map M.stmt) (M.span s)
  range (name low kind high body s) : M.stmt (.range name low kind high body s) =
    .range name (M.expr low) kind (M.expr high) (body.map M.stmt) (M.span s)
  forEach (name e body s) :
    M.stmt (.forEach name e body s) = .forEach name (M.expr e) (body.map M.stmt) (M.span s)
  break_ (s) : M.stmt (.break_ s) = .break_ (M.span s)
  callOf (e args c s) : M.stmt (.call e args c s) =
    .call (M.expr e) (args.map M.argument) (M.span c) (M.span s)
  definition (name ps t body s) : M.function (.mk name ps t body s) =
    .mk name (ps.map M.param) (t.map M.type) (body.map M.stmt) (M.span s)
  forge (ps body s) : M.forge (.mk ps body s) = .mk (ps.map M.param) (body.map M.stmt) (M.span s)
  none : M.alternate .none = .none
  block (body) : M.alternate (.block body) = .block (body.map M.stmt)
  chain (e body a s) : M.alternate (.chain e body a s) =
    .chain (M.expr e) (body.map M.stmt) (M.alternate a) (M.span s)

attribute [simp] Lawful.through Lawful.named Lawful.listOf Lawful.optional Lawful.functionOf
  Lawful.integer Lawful.float Lawful.boolean Lawful.string Lawful.interpolation Lawful.identifier
  Lawful.mine Lawful.naught Lawful.list Lawful.unary Lawful.binary Lawful.ternary Lawful.coalesce
  Lawful.call Lawful.index Lawful.member Lawful.argument Lawful.param Lawful.field Lawful.declare
  Lawful.function Lawful.matter Lawful.guild Lawful.print Lawful.assign Lawful.increment
  Lawful.decrement Lawful.return_ Lawful.branch Lawful.while_ Lawful.repeat_ Lawful.range
  Lawful.forEach Lawful.break_ Lawful.callOf Lawful.definition Lawful.forge Lawful.none
  Lawful.block Lawful.chain

variable (M : Moving)

def token (t : Token) : Token := { t with span := M.span t.span }

def fault (f : SyntaxFault) : SyntaxFault := { f with span := M.span f.span }

@[simp] theorem kind_token (t : Token) : (M.token t).kind = t.kind := rfl

@[simp] theorem value_token (t : Token) : (M.token t).value = t.value := rfl

@[simp] theorem span_token (t : Token) : (M.token t).span = M.span t.span := rfl

/-- A body with the place where it ends. -/
def body (b : List Stmt × Span) : List Stmt × Span := (b.1.map M.stmt, M.span b.2)

def members (g : GuildBody) : GuildBody :=
  ⟨g.fields.map M.field, g.forge.map M.forge, g.methods.map M.function⟩

/-- The test, the body and the alternate of a branch, with the place where it ends. -/
def arms (b : Expr × List Stmt × Alternate × Span) : Expr × List Stmt × Alternate × Span :=
  (M.expr b.1, b.2.1.map M.stmt, M.alternate b.2.2.1, M.span b.2.2.2)

variable [M.Lawful]

@[simp] theorem span_type (t : TypeExpr) : (M.type t).span = M.span t.span := by
  cases t <;> simp [TypeExpr.span]

@[simp] theorem span_expr (e : Expr) : (M.expr e).span = M.span e.span := by
  cases e <;> simp [Expr.span]

theorem expr_build {o : Operator} {i : Infix} (hi : infix? o = some i) (l r : Expr) (s : Span) :
    M.expr (i.build l r s) = i.build (M.expr l) (M.expr r) (M.span s) := by
  cases o <;> cases hi <;> simp [Infix.binary]

/-- Leaving everything where it is. -/
def same : Moving := ⟨id, id, id, id, id, id, id, id, id, id⟩

instance : same.Lawful := by
  constructor <;> intros <;> simp [same]

end Moving

/-! ### The second input -/

/-- The tokens and the end that follow the tokens of the first input in the second. -/
structure Tail (M : Moving) (eof : Token) where
  after : List Token
  stop : Token
  atEnd : eof.kind = .eof

variable {α β γ δ : Type} {M : Moving} {eof : Token} {ts rest : List Token}

def Tail.before (σ : Tail M eof) (ts : List Token) : List Token := ts.map M.token ++ σ.after

@[simp] theorem Tail.before_cons (σ : Tail M eof) (t : Token) (ts : List Token) :
    σ.before (t :: ts) = M.token t :: σ.before ts := rfl

theorem Tail.before_same (σ : Tail Moving.same eof) (ts : List Token) :
    σ.before ts = ts ++ σ.after := congrArg (· ++ _) (List.map_id ts)

theorem Tail.length_le (σ : Tail M eof) (ts : List Token) : ts.length ≤ (σ.before ts).length := by
  simp [before]

/-- The second input ends where the first does. -/
def Tail.Ends (σ : Tail M eof) : Prop := σ.after = [] ∧ σ.stop = M.token eof

/-- Nothing follows. -/
def Tail.closed (σ : Tail M eof) : Tail M eof := ⟨[], M.token eof, σ.atEnd⟩

/-- What must not follow a reading that stops where the tokens end. -/
inductive Need where
  | nothing | noElse | noMore

def Need.Met : Need → List Token → Prop
  | nothing, _ => True
  | noElse, after => starts (.keyword .else_) after = false
  | noMore, after => after = []

theorem Need.met_nil (n : Need) : n.Met [] := by
  cases n <;> simp [Met, starts]

/-- As many tokens as are looked at can be seen, or all that there are. A reading that takes a token
sees one, or the same end. -/
structure Sees (d : Nat) (strict : Bool) (σ : Tail M eof) (ts : List Token) : Prop where
  tokens : d ≤ ts.length ∨ σ.after = []
  mark : strict = true → ts ≠ [] ∨ σ.stop = M.token eof

namespace Sees

variable {σ : Tail M eof} {d : Nat} {k : Bool}

theorem eq_nil (h : Sees (d + 1) k σ []) : σ.before [] = [] :=
  h.tokens.resolve_left (Nat.not_succ_le_zero d)

theorem starts (h : Sees (d + 1) k σ ts) (kind : Kind) :
    starts kind (σ.before ts) = starts kind ts := by
  cases ts with
  | nil => rw [h.eq_nil]
  | cons t rest => rfl

theorem tail (h : Sees (d + 1) k σ ts) : (σ.before ts).tail = σ.before ts.tail := by
  cases ts with
  | nil =>
    rw [h.eq_nil]
    exact h.eq_nil.symm
  | cons t rest => rfl

theorem next (h : Sees (d + 1) true σ ts) :
    next σ.stop (σ.before ts) = M.token (next eof ts) := by
  cases ts with
  | nil =>
    rw [h.eq_nil, (h.mark rfl).resolve_left fun h => h rfl]
    rfl
  | cons t rest => rfl

theorem isEmpty (h : Sees (d + 1) k σ ts) : (σ.before ts).isEmpty = ts.isEmpty := by
  cases ts with
  | nil => rw [h.eq_nil]
  | cons t rest => rfl

theorem cons (t : Token) (ts : List Token) : Sees 1 true σ (t :: ts) :=
  ⟨.inl (Nat.succ_pos _), fun _ => .inl (List.cons_ne_nil t ts)⟩

theorem behind (h : Sees (d + 1) k σ ts) : Sees d false σ ts.tail := by
  refine ⟨h.tokens.imp_left fun hlength => ?_, fun h => by cases h⟩
  rw [List.length_tail]
  exact Nat.le_sub_one_of_lt hlength

end Sees

theorem kind_of_starts {kind : Kind} (h : starts kind ts = true) : (next eof ts).kind = kind := by
  cases ts with
  | nil => cases h
  | cons t rest =>
    show t.kind = kind
    simpa [starts] using h

/-! ### Strings -/

/-- The text of a string goes on: an interpolation starts or the string ends, at once or after one
chunk of text. -/
def Continues : List Token → Prop
  | t :: rest => t.kind = .interpStart ∨ t.kind = .stringEnd ∨
    t.kind = .string ∧ (starts .interpStart rest = true ∨ starts .stringEnd rest = true)
  | [] => False

/-- Wherever the text of a string starts or is taken up again, it goes on. -/
def Strung (ts : List Token) : Prop :=
  ∀ t rest, t :: rest <:+ ts → t.kind = .stringStart ∨ t.kind = .interpEnd → Continues rest

theorem Strung.suffix (h : Strung ts) (hrest : rest <:+ ts) : Strung rest :=
  fun t others hothers => h t others (hothers.trans hrest)

/-- The kinds that only the text of a string asks for. -/
def marksString : Kind → Bool
  | .interpStart | .stringEnd => true
  | _ => false

/-- A fault that the tokens of a string are not as they should be. -/
def missesMark : SyntaxCause → Bool
  | .expected kind _ => marksString kind
  | _ => false

/-- A reading that misses no mark and leaves tokens with a property. -/
def Marked (P : List Token → Prop) : Parsed (Taken α) → Prop
  | .ok (_, rest) => P rest
  | .error f => missesMark f.cause = false

theorem Marked.bind {P Q : List Token → Prop} {r : Parsed (Taken α)}
    {f : Taken α → Parsed (Taken γ)} (hr : Marked P r)
    (hf : ∀ a rest, P rest → Marked Q (f (a, rest))) : Marked Q (r >>= f) := by
  cases r with
  | error fault => exact hr
  | ok taken => exact hf taken.1 taken.2 hr

/-! ### Following -/

variable {move : α → β} {move' : γ → δ} {n n₁ : Need} {k k₁ k₂ s : Bool}
  {r : Parsed (Taken α)} {r' : Parsed (Taken β)} {f : Taken α → Parsed (Taken γ)}
  {f' : Taken β → Parsed (Taken δ)} {σ : Tail M eof}

/-- The second reading gives what the first one gives, moved, and leaves the same tokens with those
that follow. If the first leaves no tokens, something is needed of what follows. The first one
takes its tokens from the front, at least one if it is `strict`. Neither does it run out of fuel,
nor, unless it stands inside of one, does it miss a mark of a string whose tokens are in order. -/
structure Follows (σ : Tail M eof) (n : Need) (strict strung : Bool) (move : α → β)
    (ts : List Token) (r : Parsed (Taken α)) (r' : Parsed (Taken β)) : Prop where
  value : ∀ a rest, r = .ok (a, rest) → (rest = [] → n.Met σ.after) →
    r' = .ok (move a, σ.before rest)
  fault : ∀ f, r = .error f → σ.Ends → r' = .error (M.fault f)
  left : ∀ a rest, r = .ok (a, rest) →
    rest <:+ ts ∧ (strict = true → rest.length < ts.length)
  fuelled : ∀ f, r = .error f → f.cause ≠ .exhausted
  marked : strung = true → Strung ts → ∀ f, r = .error f → missesMark f.cause = false

namespace Follows

theorem ok {a : α} {b : β} (h : b = move a) :
    Follows σ n false s move ts (.ok (a, ts)) (.ok (b, σ.before ts)) where
  value _ _ heq _ := by
    cases heq
    rw [h]
  fault _ heq := by cases heq
  left _ _ heq := by
    cases heq
    exact ⟨List.suffix_rfl, fun h => by cases h⟩
  fuelled _ heq := by cases heq
  marked _ _ _ heq := by cases heq

/-- A reading that stops because the tokens end. -/
theorem stop {a : α} (h : n.Met σ.after → r' = .ok (move a, σ.before [])) :
    Follows σ n false s move [] (.ok (a, [])) r' where
  value _ _ heq hrest := by
    cases heq
    exact h (hrest rfl)
  fault _ heq := by cases heq
  left _ _ heq := by
    cases heq
    exact ⟨List.suffix_rfl, fun h => by cases h⟩
  fuelled _ heq := by cases heq
  marked _ _ _ heq := by cases heq

/-- A fault of the first reading that does not come of its fuel or of a string. -/
theorem error {f : SyntaxFault} (h : σ.Ends → r' = .error (M.fault f))
    (hfuel : (f.cause == .exhausted) = false) (hmark : (s && missesMark f.cause) = false) :
    Follows σ n k s move ts (.error f) r' where
  value _ _ heq := by cases heq
  fault _ heq hends := by
    cases heq
    exact h hends
  left _ _ heq := by cases heq
  fuelled _ heq := by
    cases heq
    simpa using hfuel
  marked hs _ _ heq := by
    cases heq
    rw [hs] at hmark
    exact hmark

/-- Readings in sequence are followed if each of them is. -/
theorem bind (hr : Follows σ n₁ k₁ s move ts r r')
    (hf : ∀ a rest, rest.length ≤ ts.length → (k₁ = true → rest.length < ts.length) →
      Follows σ n k₂ s move' rest (f (a, rest)) (f' (move a, σ.before rest)))
    (hneed : k₂ = true ∨ ∀ after, n.Met after → n₁.Met after)
    (hstrict : k = true → k₁ = true ∨ k₂ = true) :
    Follows σ n k s move' ts (r >>= f) (r' >>= f') := by
  cases hfirst : r with
  | error fault =>
    refine ⟨fun _ _ h => (by cases h), fun _ h hends => ?_, fun _ _ h => (by cases h),
      fun _ h => ?_, fun hs hts _ h => ?_⟩
    · cases h
      rw [hr.fault _ hfirst hends]
      rfl
    · cases h
      exact hr.fuelled _ hfirst
    · cases h
      exact hr.marked hs hts _ hfirst
  | ok taken =>
    obtain ⟨a, mid⟩ := taken
    obtain ⟨hmid, hless⟩ := hr.left a mid hfirst
    have hsecond := hf a mid hmid.length_le hless
    have hgoes (h : mid = [] → n₁.Met σ.after) : (r' >>= f') = f' (move a, σ.before mid) := by
      rw [hr.value a mid hfirst h]
      rfl
    refine ⟨fun b rest h hrest => ?_, fun fault h hends => ?_, fun b rest h => ?_,
      hsecond.fuelled, fun hs hts => hsecond.marked hs (hts.suffix hmid)⟩
    · rw [hgoes ?_]
      · exact hsecond.value b rest h hrest
      · rintro rfl
        obtain ⟨hnil, hlength⟩ := hsecond.left b rest h
        rcases hneed with hk | hneed
        · exact absurd (hlength hk) (Nat.not_lt_zero _)
        · exact hneed _ (hrest (List.suffix_nil.1 hnil))
    · rw [hgoes fun _ => hends.1 ▸ n₁.met_nil]
      exact hsecond.fault fault h hends
    · obtain ⟨hrest, hlength⟩ := hsecond.left b rest h
      refine ⟨hrest.trans hmid, fun hk => ?_⟩
      rcases hstrict hk with hk | hk
      · exact Nat.lt_of_le_of_lt hrest.length_le (hless hk)
      · exact Nat.lt_of_lt_of_le (hlength hk) hmid.length_le

/-- After a reading that says itself where it ends. -/
theorem andThen (hr : Follows σ .nothing true s move ts r r')
    (hf : ∀ a rest, rest.length < ts.length →
      Follows σ n false s move' rest (f (a, rest)) (f' (move a, σ.before rest))) :
    Follows σ n k s move' ts (r >>= f) (r' >>= f') :=
  hr.bind (fun a rest _ h => hf a rest (h rfl)) (.inr fun _ _ => trivial) fun _ => .inl rfl

/-- After a reading, when a token must be taken next. -/
theorem followed (hr : Follows σ n₁ k₁ s move ts r r')
    (hf : ∀ a rest, rest.length ≤ ts.length →
      Follows σ n true s move' rest (f (a, rest)) (f' (move a, σ.before rest))) :
    Follows σ n k s move' ts (r >>= f) (r' >>= f') :=
  hr.bind (fun a rest h _ => hf a rest h) (.inl rfl) fun _ => .inr rfl

/-- After a reading that takes a token, when nothing else needs to be taken. -/
theorem more (hr : Follows σ n true s move ts r r')
    (hf : ∀ a rest, rest.length < ts.length →
      Follows σ n false s move' rest (f (a, rest)) (f' (move a, σ.before rest))) :
    Follows σ n k s move' ts (r >>= f) (r' >>= f') :=
  hr.bind (fun a rest _ h => hf a rest (h rfl)) (.inr fun _ h => h) fun _ => .inl rfl

/-- After a reading that may take no token. -/
theorem last (hr : Follows σ n k s move ts r r')
    (hf : ∀ a rest, rest.length ≤ ts.length →
      Follows σ n false s move' rest (f (a, rest)) (f' (move a, σ.before rest))) :
    Follows σ n k s move' ts (r >>= f) (r' >>= f') :=
  hr.bind (fun a rest h _ => hf a rest h) (.inr fun _ h => h) fun h => .inl h

/-- A reading may be said to need more than it does. -/
theorem relax (hr : Follows σ n₁ k₁ s move ts r r') (hneed : ∀ after, n.Met after → n₁.Met after)
    (hstrict : k = true → k₁ = true) {s' : Bool} (hstrung : s' = true → s = true) :
    Follows σ n k s' move ts r r' where
  value a rest h hrest := hr.value a rest h fun hnil => hneed _ (hrest hnil)
  fault := hr.fault
  left a rest h := (hr.left a rest h).imp_right fun hlength hk => hlength (hstrict hk)
  fuelled := hr.fuelled
  marked hs := hr.marked (hstrung hs)

/-- A reading that says itself where it ends is good for any need. -/
theorem any (hr : Follows σ .nothing true s move ts r r') : Follows σ n k s move ts r r' :=
  hr.relax (fun _ _ => trivial) (fun _ => rfl) fun h => h

theorem lax (hr : Follows σ n true s move ts r r') : Follows σ n false s move ts r r' :=
  hr.relax (fun _ h => h) (fun _ => rfl) fun h => h

/-- A reading from behind a token. -/
theorem skip (hkind : (next eof ts).kind ≠ .eof)
    (hr : ts.tail.length < ts.length → Follows σ n false s move ts.tail r r') :
    Follows σ n k s move ts r r' := by
  have hless : ts.tail.length < ts.length := by
    cases ts with
    | nil => exact absurd σ.atEnd hkind
    | cons t rest => exact Nat.lt_succ_self _
  have hr := hr hless
  refine ⟨hr.value, hr.fault, fun a rest h => ?_, hr.fuelled,
    fun hs hts => hr.marked hs (hts.suffix (List.tail_suffix ts))⟩
  have hrest := (hr.left a rest h).1
  exact ⟨hrest.trans (List.tail_suffix ts), fun _ => Nat.lt_of_le_of_lt hrest.length_le hless⟩

theorem marks (hr : Follows σ n k true move ts r r') (hts : Strung ts) :
    Marked (· <:+ ts) r := by
  cases hread : r with
  | error fault => exact hr.marked rfl hts fault hread
  | ok taken => exact (hr.left taken.1 taken.2 hread).1

theorem remark (hr : Follows σ n k false move ts r r')
    (hmarks : Strung ts → Marked (fun _ => True) r) : Follows σ n k s move ts r r' where
  value := hr.value
  fault := hr.fault
  left := hr.left
  fuelled := hr.fuelled
  marked _ hts f hf := by
    have h := hmarks hts
    rw [hf] at h
    exact h

/-- How many tokens a reading may look at before more of them can change what it gives. -/
def ahead (n : Need) (strict : Bool) : Nat :=
  match n with
  | .noMore => strict.toNat + 1
  | _ => strict.toNat

/-- A reading has to be followed only where its tokens can be seen. -/
theorem look {d : Nat} {r' : Tail M eof → Parsed (Taken β)} (hd : d ≤ ahead n k)
    (h : ∀ σ, Sees d k σ ts → Follows σ n k s move ts r (r' σ)) (σ : Tail M eof) :
    Follows σ n k s move ts r (r' σ) := by
  have hclosed := h σ.closed ⟨.inr rfl, fun _ => .inr rfl⟩
  by_cases hsees : Sees d k σ ts
  · exact h σ hsees
  refine ⟨fun a rest hok hrest => ?_, fun _ _ hends => ?_, hclosed.left, hclosed.fuelled,
    hclosed.marked⟩
  · obtain ⟨hsuffix, hless⟩ := hclosed.left a rest hok
    have hlength : rest.length + k.toNat ≤ ts.length := by
      cases k with
      | false => exact hsuffix.length_le
      | true => exact hless rfl
    refine absurd ⟨?_, fun hk => .inl fun hts => ?_⟩ hsees
    · by_cases hd' : d ≤ ts.length
      · exact .inl hd'
      cases n with
      | noMore =>
        rw [ahead] at hd
        exact .inr (hrest (List.length_eq_zero_iff.1 (by omega)))
      | _ =>
        rw [ahead] at hd
        · omega
        · simp
    · subst hts
      exact absurd (hless hk) (Nat.not_lt_zero _)
  · exact absurd ⟨.inr hends.1, fun _ => .inr hends.2⟩ hsees

end Follows

theorem follows_expect (kind : Kind) (ts : List Token) (hmark : (s && marksString kind) = false) :
    Follows σ n k s M.token ts (expect eof kind ts) (expect σ.stop kind (σ.before ts)) := by
  cases ts with
  | nil =>
    refine .error (fun hends => ?_) rfl hmark
    rw [show σ.before [] = [] from hends.1, hends.2]
    rfl
  | cons t rest =>
    rw [Tail.before_cons, expect, expect, M.kind_token]
    split
    · refine ⟨fun _ _ h _ => ?_, fun _ h => (by cases h), fun _ _ h => ?_, fun _ h => (by cases h),
        fun _ _ _ h => (by cases h)⟩
      · cases h
        rfl
      · cases h
        exact ⟨List.suffix_cons t rest, fun _ => Nat.lt_succ_self _⟩
    · exact .error (fun _ => rfl) rfl hmark

theorem follows_operator {o : Operator} (ts : List Token) :
    Follows σ n k s M.token ts (expect eof (.operator o) ts)
      (expect σ.stop (.operator o) (σ.before ts)) :=
  follows_expect _ ts (Bool.and_false s)

theorem follows_identifier (ts : List Token) :
    Follows σ n k s M.token ts (expect eof .identifier ts)
      (expect σ.stop .identifier (σ.before ts)) :=
  follows_expect _ ts (Bool.and_false s)

section Items

variable {item : List Token → Parsed (Taken α)} {item' : List Token → Parsed (Taken β)}
  {close : Kind} {fuel fuel' : Nat}

theorem follows_items
    (hitem : ∀ us, us.length ≤ ts.length →
      Follows σ .noMore true s move us (item us) (item' (σ.before us)))
    (hlength : ts.length < fuel) (hfuel : fuel ≤ fuel') :
    Follows σ .noMore false s (List.map move) ts (items eof close item fuel ts)
      (items σ.stop close item' fuel' (σ.before ts)) := by
  induction fuel generalizing fuel' ts with
  | zero => exact absurd hlength (Nat.not_lt_zero _)
  | succ fuel ih =>
    obtain ⟨fuel', rfl⟩ := Nat.exists_eq_add_one_of_ne_zero (Nat.ne_zero_of_lt hfuel)
    cases ts with
    | nil =>
      refine .stop fun hafter => ?_
      rw [show σ.before [] = [] from hafter]
      rfl
    | cons t rest =>
      have hsees : Sees 1 true σ (t :: rest) := .cons t rest
      unfold items
      rw [hsees.isEmpty, hsees.starts]
      split
      · exact .ok rfl
      · refine (hitem _ (Nat.le_refl _)).more fun a us hus =>
          (ih (fun vs hvs => hitem vs (by omega)) (by omega) (by omega)).last
            fun _ _ _ => .ok rfl

theorem follows_separated
    (hitem : ∀ us, us.length ≤ ts.length →
      Follows σ .noMore true s move us (item us) (item' (σ.before us))) :
    Follows σ .noMore false s (List.map move) ts (separated eof close item ts)
      (separated σ.stop close item' (σ.before ts)) := by
  cases ts with
  | nil =>
    refine .stop fun hafter => ?_
    rw [show σ.before [] = [] from hafter]
    rfl
  | cons t rest =>
    have hsees : Sees 1 true σ (t :: rest) := .cons t rest
    unfold separated
    rw [hsees.isEmpty, hsees.starts]
    split
    · exact .ok rfl
    · refine (hitem _ (Nat.le_refl _)).more fun a us hus => (follows_items (fun vs hvs => ?_)
        (Nat.lt_succ_self _) (Nat.succ_le_succ (σ.length_le us))).last fun _ _ _ => .ok rfl
      exact (follows_operator vs).andThen fun _ ws hws =>
        (hitem ws (by omega)).lax

end Items

end Dragon.Tree
