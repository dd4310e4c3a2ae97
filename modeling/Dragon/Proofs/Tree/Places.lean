import Dragon.Proofs.Token.Laid

/-!
# The places of a syntax tree

A tree is seen as its spans alone, which nest if every node lies in the one it belongs to and after
the ones before it. Whatever a node is, its span goes from the start of a token to the end of a
token, and where it comes from is a run of such spans; so there are only two ways to enclose a run:
from its first span, or from the token it starts with.
-/
namespace Dragon

namespace Span

/-- One span ends before the other starts. -/
def Before (s t : Span) : Prop := s.stop < t.start

/-- A span lies in another. -/
structure Within (inner outer : Span) : Prop where
  start : outer.start ≤ inner.start
  stop : inner.stop ≤ outer.stop

end Span

namespace Tree

/-! ### Trees of spans -/

/-- The span of a node and the nodes in it, in rows of those that were written in their order. -/
inductive Places where
  | node (span : Span) (rows : List (List Places))

def Places.span : Places → Span
  | node span _ => span

mutual

def TypeExpr.places : TypeExpr → Places
  | .named _ span => .node span []
  | .list element span | .optional element span => .node span [[element.places]]
  | .function params result span => .node span [typesPlaces params ++ [result.places]]

def typesPlaces : List TypeExpr → List Places
  | [] => []
  | t :: rest => t.places :: typesPlaces rest

end

mutual

def Expr.places : Expr → Places
  | .integer _ span | .float _ span | .boolean _ span | .string _ span | .identifier _ span
  | .mine span => .node span []
  | .interpolation parts span | .list parts span => .node span [exprsPlaces parts]
  | .naught type span => .node span [[type.places]]
  | .unary _ operand span | .member operand _ _ span => .node span [[operand.places]]
  | .binary first _ second span | .coalesce first second span | .index first second span =>
    .node span [[first.places, second.places]]
  | .ternary test consequent alternate span =>
    .node span [[test.places, consequent.places, alternate.places]]
  | .call callee args span => .node span [callee.places :: argumentsPlaces args]

def exprsPlaces : List Expr → List Places
  | [] => []
  | e :: rest => e.places :: exprsPlaces rest

def argumentsPlaces : List Argument → List Places
  | [] => []
  | .mk _ value span :: rest => .node span [[value.places]] :: argumentsPlaces rest

end

def Argument.places : Argument → Places
  | .mk _ value span => .node span [[value.places]]

def Param.places (p : Param) : Places := .node p.span [[p.type.places]]

def FieldDef.places (f : FieldDef) : Places := .node f.span [[f.type.places]]

mutual

def Stmt.places : Stmt → Places
  | .declare _ _ type value span => .node span [[type.places, value.places]]
  | .function definition => definition.places
  | .matter _ fields span => .node span [fields.map FieldDef.places]
  | .guild _ fields forge methods span =>
    .node span [fields.map FieldDef.places, forgePlaces forge, functionsPlaces methods]
  | .print value span | .increment value span | .decrement value span =>
    .node span [[value.places]]
  | .assign target value span => .node span [[target.places, value.places]]
  | .return_ none span | .break_ span => .node span []
  | .return_ (some value) span => .node span [[value.places]]
  | .branch test body alternate span =>
    .node span [test.places :: (blockPlaces body ++ alternate.places)]
  | .while_ test body span | .repeat_ test body span | .forEach _ test body span =>
    .node span [test.places :: blockPlaces body]
  | .range _ low _ high body span => .node span [low.places :: high.places :: blockPlaces body]
  | .call callee args callSpan span =>
    .node span [[.node callSpan [callee.places :: argumentsPlaces args]]]

def blockPlaces : List Stmt → List Places
  | [] => []
  | s :: rest => s.places :: blockPlaces rest

def FunctionDef.places : FunctionDef → Places
  | .mk _ params result body span =>
    .node span [params.map Param.places ++ (result.toList.map TypeExpr.places ++ blockPlaces body)]

def functionsPlaces : List FunctionDef → List Places
  | [] => []
  | f :: rest => f.places :: functionsPlaces rest

def forgePlaces : Option Forge → List Places
  | none => []
  | some (.mk params body span) => [.node span [params.map Param.places ++ blockPlaces body]]

/-- A block has no span of its own, another `if` has. -/
def Alternate.places : Alternate → List Places
  | .none => []
  | .block body => blockPlaces body
  | .chain test body alternate span =>
    [.node span [test.places :: (blockPlaces body ++ alternate.places)]]

end

@[simp] theorem TypeExpr.span_places (t : TypeExpr) : t.places.span = t.span := by
  cases t <;> rfl

@[simp] theorem Expr.span_places (e : Expr) : e.places.span = e.span := by
  cases e <;> rfl

theorem typesPlaces_eq_map (ts : List TypeExpr) : typesPlaces ts = ts.map TypeExpr.places := by
  induction ts with
  | nil => rfl
  | cons t rest ih => rw [typesPlaces, ih, List.map_cons]

theorem exprsPlaces_eq_map (es : List Expr) : exprsPlaces es = es.map Expr.places := by
  induction es with
  | nil => rfl
  | cons e rest ih => rw [exprsPlaces, ih, List.map_cons]

theorem argumentsPlaces_eq_map (args : List Argument) :
    argumentsPlaces args = args.map Argument.places := by
  induction args with
  | nil => rfl
  | cons a rest ih =>
    obtain ⟨name, value, span⟩ := a
    rw [argumentsPlaces, ih, List.map_cons, Argument.places]

theorem blockPlaces_eq_map (body : List Stmt) : blockPlaces body = body.map Stmt.places := by
  induction body with
  | nil => rfl
  | cons s rest ih => rw [blockPlaces, ih, List.map_cons]

/-! ### Nesting -/

/-- A span is not turned around, and holds rows of nodes that lie apart from each other. -/
structure Holds (span : Span) (rows : List (List Places)) : Prop where
  proper : span.start ≤ span.stop
  within : ∀ row ∈ rows, ∀ p ∈ row, p.span.Within span
  apart : ∀ row ∈ rows, (row.map Places.span).Pairwise Span.Before

/-- A span ends where a token ends. The start of a string with interpolations is shown together with
the text after it, so it does not count. -/
def EndsToken (pool : List Token) (span : Span) : Prop :=
  ∃ t ∈ pool, t.kind ≠ .stringStart ∧ t.span.stop = span.stop

/-- Every node is one of the file, goes from the start of a token to the end of a token, and holds
the nodes in it. -/
inductive Nested (file : String) (pool : List Token) : Places → Prop
  | node {span : Span} {rows : List (List Places)} (hfile : span.file = file)
      (hstart : ∃ t ∈ pool, t.span.start = span.start) (hstop : EndsToken pool span)
      (hholds : Holds span rows) (hrows : ∀ row ∈ rows, ∀ p ∈ row, Nested file pool p) :
      Nested file pool (.node span rows)

/-! ### Series of spans -/

/-- A span that was read where the tokens `ts` were taken up to `rest`. -/
structure Covers (file : String) (pool ts rest : List Token) (span : Span) : Prop where
  file : span.file = file
  proper : span.start ≤ span.stop
  start : ∃ t ∈ ts, t.span.start = span.start
  stop : EndsToken pool span
  before : ∀ t ∈ rest, span.stop < t.span.start

/-- Spans one after another where the tokens `ts` were taken up to `rest`. -/
structure Series (file : String) (pool ts : List Token) (spans : List Span) (rest : List Token) :
    Prop where
  inside : ts <:+ pool
  suffix : rest <:+ ts
  apart : spans.Pairwise Span.Before
  covers : ∀ s ∈ spans, Covers file pool ts rest s

/-- The nodes of a row are nested, and their spans are some of a series. -/
structure Among (file : String) (pool : List Token) (spans : List Span) (row : List Places) :
    Prop where
  sublist : (row.map Places.span).Sublist spans
  nested : ∀ p ∈ row, Nested file pool p

/-- A row of nodes that was read where the tokens `ts` were taken up to `rest`. -/
structure Rowed (file : String) (pool ts : List Token) (row : List Places) (rest : List Token) :
    Prop where
  series : Series file pool ts (row.map Places.span) rest
  nested : ∀ p ∈ row, Nested file pool p

variable {file : String} {pool ts ts' mid rest rest' : List Token} {spans spans' : List Span}
  {first last s : Span} {t : Token} {row row' : List Places} {rows : List (List Places)}

theorem Covers.mono (h : Covers file pool ts rest s) (hts : ts ⊆ ts') (hrest : rest' ⊆ rest) :
    Covers file pool ts' rest' s where
  file := h.file
  proper := h.proper
  start := h.start.imp fun _ ht => ⟨hts ht.1, ht.2⟩
  stop := h.stop
  before t ht := h.before t (hrest ht)

namespace Among

theorem nil : Among file pool spans [] := ⟨List.nil_sublist _, by simp⟩

theorem append (h : Among file pool spans row) (h' : Among file pool spans' row') :
    Among file pool (spans ++ spans') (row ++ row') :=
  ⟨List.map_append ▸ h.sublist.append h'.sublist, List.forall_mem_append.2 ⟨h.nested, h'.nested⟩⟩

theorem mono (h : Among file pool spans row) (hspans : spans.Sublist spans') :
    Among file pool spans' row :=
  ⟨h.sublist.trans hspans, h.nested⟩

end Among

theorem Rowed.among (h : Rowed file pool ts row rest) :
    Among file pool (row.map Places.span) row :=
  ⟨.refl _, h.nested⟩

namespace Series

theorem rest_inside (h : Series file pool ts spans rest) : rest <:+ pool :=
  h.suffix.trans h.inside

theorem nil (hts : ts <:+ pool) (hrest : rest <:+ ts) : Series file pool ts [] rest :=
  ⟨hts, hrest, .nil, by simp⟩

/-- Series follow one another. -/
theorem append (h : Series file pool ts spans mid) (h' : Series file pool mid spans' rest) :
    Series file pool ts (spans ++ spans') rest where
  inside := h.inside
  suffix := h'.suffix.trans h.suffix
  apart := by
    refine List.pairwise_append.2 ⟨h.apart, h'.apart, fun a ha b hb => ?_⟩
    obtain ⟨t, ht, hstart⟩ := (h'.covers b hb).start
    have hbefore := (h.covers a ha).before t ht
    rwa [hstart] at hbefore
  covers := by
    refine List.forall_mem_append.2 ⟨fun s hs => ?_, fun s hs => ?_⟩
    · exact (h.covers s hs).mono (List.Subset.refl _) h'.suffix.subset
    · exact (h'.covers s hs).mono h.suffix.subset (List.Subset.refl _)

theorem token (hpool : Laid file pool) (hts : t :: rest <:+ pool) (hkind : t.kind ≠ .stringStart) :
    Series file pool (t :: rest) [t.span] rest := by
  have hlaid := hpool.sublist hts.sublist
  refine ⟨hts, List.suffix_cons t rest, List.pairwise_singleton _ _,
    List.forall_mem_singleton.2 ?_⟩
  exact ⟨hlaid.file t List.mem_cons_self, hlaid.proper t List.mem_cons_self hkind,
    ⟨t, List.mem_cons_self, rfl⟩, ⟨t, hts.subset List.mem_cons_self, hkind, rfl⟩,
    fun u hu => List.rel_of_pairwise_cons hlaid.apart hu hkind⟩

/-- The last span of a series ends it. -/
theorem stop_le (h : Series file pool ts spans rest) (hlast : spans.getLast? = some last) :
    ∀ s ∈ spans, s.stop ≤ last.stop := by
  obtain ⟨init, rfl⟩ := List.getLast?_eq_some_iff.1 hlast
  refine List.forall_mem_append.2 ⟨fun s hs => ?_, List.forall_mem_singleton.2 (le_refl _)⟩
  have hbefore : s.Before last :=
    (List.pairwise_append.1 h.apart).2.2 s hs last List.mem_cons_self
  exact (lt_of_lt_of_le hbefore (h.covers last (by simp)).proper).le

/-- The first span of a series starts it. -/
theorem start_le_first (h : Series file pool ts (first :: spans) rest) :
    ∀ s ∈ first :: spans, first.start ≤ s.start := by
  refine List.forall_mem_cons.2 ⟨le_refl _, fun s hs => ?_⟩
  have hbefore : first.Before s := List.rel_of_pairwise_cons h.apart hs
  exact ((h.covers first List.mem_cons_self).proper.trans_lt hbefore).le

/-- No span of a series starts before the first token. -/
theorem start_le_token (hpool : Laid file pool) (h : Series file pool (t :: mid) spans rest) :
    ∀ s ∈ spans, t.span.start ≤ s.start := by
  intro s hs
  obtain ⟨u, hu, hstart⟩ := (h.covers s hs).start
  rw [← hstart]
  obtain rfl | hu := List.mem_cons.1 hu
  · exact le_refl _
  · exact (List.rel_of_pairwise_cons (hpool.sublist h.inside.sublist).starts hu).le

/-- A node from a place in front of a series to the end of the series. Each row of it is among the
series. -/
theorem enclose (h : Series file pool ts spans rest) (hlast : spans.getLast? = some last)
    (hfile : s.file = file) (hstart : ∃ t ∈ ts, t.span.start = s.start)
    (hle : ∀ s' ∈ spans, s.start ≤ s'.start)
    (hrows : ∀ row ∈ rows, Among file pool spans row) :
    Rowed file pool ts [.node (s.through last) rows] rest := by
  have hmem : last ∈ spans := List.mem_of_getLast? hlast
  have hcovers := h.covers last hmem
  have hproper : s.start ≤ last.stop := (hle last hmem).trans hcovers.proper
  refine ⟨⟨h.inside, h.suffix, List.pairwise_singleton _ _, List.forall_mem_singleton.2 ?_⟩,
    List.forall_mem_singleton.2 ?_⟩
  · exact ⟨hfile, hproper, hstart, hcovers.stop, hcovers.before⟩
  · refine .node hfile ?_ hcovers.stop ⟨hproper, fun row hrow p hp => ?_, fun row hrow => ?_⟩
      fun row hrow => (hrows row hrow).nested
    · exact hstart.imp fun t ht => ⟨h.inside.subset ht.1, ht.2⟩
    · have hspan := (hrows row hrow).sublist.subset (List.mem_map_of_mem hp)
      exact ⟨hle _ hspan, h.stop_le hlast _ hspan⟩
    · exact h.apart.sublist (hrows row hrow).sublist

/-- A node from the first span of a series to its last. -/
theorem join (h : Series file pool ts spans rest) (hfirst : spans.head? = some first)
    (hlast : spans.getLast? = some last)
    (hrows : ∀ row ∈ rows, Among file pool spans row) :
    Rowed file pool ts [.node (first.through last) rows] rest := by
  obtain ⟨others, rfl⟩ := List.head?_eq_some_iff.1 hfirst
  have hfirst := h.covers first List.mem_cons_self
  exact h.enclose hlast hfirst.file hfirst.start h.start_le_first hrows

/-- A node from the first token of a series to its last span. -/
theorem openWith (hpool : Laid file pool) (h : Series file pool (t :: mid) spans rest)
    (hlast : spans.getLast? = some last)
    (hrows : ∀ row ∈ rows, Among file pool spans row) :
    Rowed file pool (t :: mid) [.node (t.span.through last) rows] rest :=
  h.enclose hlast (hpool.file t (h.inside.subset List.mem_cons_self))
    ⟨t, List.mem_cons_self, rfl⟩ (h.start_le_token hpool) hrows

theorem cons (hts : t :: mid <:+ pool) (h : Series file pool mid spans rest) :
    Series file pool (t :: mid) spans rest :=
  (nil hts (List.suffix_cons t mid)).append h

/-- Tokens that no node is made of. -/
theorem skip (hts : ts <:+ pool) (hrest : rest <:+ ts) : Rowed file pool ts [] rest :=
  ⟨.nil hts hrest, by simp⟩

theorem skipped (h : Series file pool ts spans rest) : Rowed file pool ts [] rest :=
  skip h.inside h.suffix

end Series

namespace Rowed

variable {p q : Places} {first last stop : Span}

theorem append (h : Rowed file pool ts row mid) (h' : Rowed file pool mid row' rest) :
    Rowed file pool ts (row ++ row') rest :=
  ⟨List.map_append ▸ h.series.append h'.series, List.forall_mem_append.2 ⟨h.nested, h'.nested⟩⟩

theorem cons (hts : t :: mid <:+ pool) (h : Rowed file pool mid row rest) :
    Rowed file pool (t :: mid) row rest :=
  ⟨h.series.cons hts, h.nested⟩

/-- A node that is one token. -/
theorem leaf (hpool : Laid file pool) (hts : t :: rest <:+ pool) (hkind : t.kind ≠ .stringStart) :
    Rowed file pool (t :: rest) [.node t.span []] rest :=
  (Series.token hpool hts hkind).join rfl rfl (by simp)

/-- A node from the first token to a token after its row. -/
theorem opened (hpool : Laid file pool) (h : Rowed file pool (t :: ts) row mid)
    (hstop : Series file pool mid [stop] rest) :
    Rowed file pool (t :: ts) [.node (t.span.through stop) [row]] rest :=
  (h.series.append hstop).openWith hpool List.getLast?_concat
    (List.forall_mem_singleton.2 (h.among.mono (List.sublist_append_left _ _)))

/-- A node from the first token to the last node of its row. -/
theorem openedLast (hpool : Laid file pool) (h : Rowed file pool (t :: ts) (row ++ [p]) rest)
    (hp : p.span = last) :
    Rowed file pool (t :: ts) [.node (t.span.through last) [row ++ [p]]] rest :=
  h.series.openWith hpool (by simp [hp]) (List.forall_mem_singleton.2 h.among)

/-- A node from the first of its row to a token after it. -/
theorem joined (h : Rowed file pool ts (p :: row) mid) (hstop : Series file pool mid [stop] rest)
    (hp : p.span = first) : Rowed file pool ts [.node (first.through stop) [p :: row]] rest :=
  (h.series.append hstop).join (congrArg some hp) List.getLast?_concat
    (List.forall_mem_singleton.2 (h.among.mono (List.sublist_append_left _ _)))

/-- A node from the first of its row to the last. -/
theorem joinedLast (h : Rowed file pool ts (p :: row ++ [q]) rest) (hp : p.span = first)
    (hq : q.span = last) :
    Rowed file pool ts [.node (first.through last) [p :: row ++ [q]]] rest :=
  h.series.join (congrArg some hp) (by rw [List.map_append, ← hq]; exact List.getLast?_concat)
    (List.forall_mem_singleton.2 h.among)

end Rowed

end Tree

end Dragon
