import Dragon.Proofs.Token.Words
import Dragon.Proofs.Tree.Names
import Dragon.Proofs.Tree.Places

/-!
# What is read is nested

Every reading gives a row of nodes that was read where it took its tokens, and what is put together
from such rows is such a row again; so the spans of the tree of a source text nest, and go from
token to token. Along with the rows go the numbers of the tree, each the value of a token of its
kind, and the names that it declares, which are words.
-/
namespace Dragon.Tree

variable {α β : Type} {N : Kind → String → Prop} {W : String → Prop} {file : String}
  {pool ts mid rest : List Token} {eof t : Token} {fuel : Nat}

/-! ### Readings -/

/-- If a reading succeeds, its value and the tokens left have a property. -/
def Meets (P : α → List Token → Prop) (r : Parsed (Taken α)) : Prop :=
  ∀ a rest, r = .ok (a, rest) → P a rest

namespace Meets

variable {P : α → List Token → Prop} {Q : β → List Token → Prop} {r : Parsed (Taken α)}
  {f : Taken α → Parsed (Taken β)}

theorem bind (hr : Meets P r) (hf : ∀ a rest, P a rest → Meets Q (f (a, rest))) :
    Meets Q (r >>= f) := by
  intro b rest' h
  cases hr' : r with
  | error fault =>
    rw [hr'] at h
    cases h
  | ok taken =>
    rw [hr'] at h
    exact hf taken.1 taken.2 (hr taken.1 taken.2 hr') b rest' h

theorem ok {a : α} (h : P a ts) : Meets P (.ok (a, ts)) := by
  intro b rest heq
  cases heq
  exact h

theorem error (fault : SyntaxFault) : Meets P (.error fault) := by
  intro b rest h
  cases h

theorem fault (cause : SyntaxCause) : Meets P (faultAt eof ts cause) := error _

end Meets

/-- A reading of a node that has a property, where it takes its tokens. -/
def Finds (file : String) (pool : List Token) (view : α → Places) (P : α → Prop)
    (ts : List Token) (r : Parsed (Taken α)) : Prop :=
  Meets (fun a rest => Rowed file pool ts [view a] rest ∧ P a) r

/-- Tokens one after another in a file, of which numbers and identifiers have a property, with a
token for their end. -/
structure Sourced (N : Kind → String → Prop) (W : String → Prop) (file : String)
    (pool : List Token) (eof : Token) : Prop where
  laid : Laid file pool
  valued : ∀ t ∈ pool, N t.kind t.value
  identified : ∀ t ∈ pool, t.kind = .identifier → W t.value
  atEnd : eof.kind = .eof

variable (src : Sourced N W file pool eof)

section Steps

variable {view : α → Places} {P : α → Prop} {close : Kind} {item : List Token → Parsed (Taken α)}
include src

/-- A token that is expected is the next one. -/
theorem meets_expect {kind : Kind} (hkind : kind ≠ .stringStart) (hts : ts <:+ pool) :
    Meets (fun t rest => (ts = t :: rest ∧ t.kind = kind) ∧ Series file pool ts [t.span] rest)
      (expect eof kind ts) := by
  cases ts with
  | nil => exact .error _
  | cons t rest =>
    rw [Tree.expect]
    split
    next h => exact .ok ⟨⟨rfl, h⟩, .token src.laid hts (h ▸ hkind)⟩
    next => exact .error _

/-- After a series a token is expected, which goes on with what is read behind it. -/
theorem Series.expect {spans : List Span} {kind : Kind} {Q : β → List Token → Prop}
    {f : Taken Token → Parsed (Taken β)} (h : Series file pool ts spans mid)
    (hkind : kind ≠ .stringStart)
    (hf : ∀ t rest, Series file pool mid [t.span] rest → Meets Q (f (t, rest))) :
    Meets Q (Tree.expect eof kind mid >>= f) :=
  (meets_expect src hkind h.rest_inside).bind fun t rest ht => hf t rest ht.2

theorem meets_identifier (hts : ts <:+ pool) :
    Meets (fun t rest => W t.value ∧ Series file pool ts [t.span] rest)
      (expect eof .identifier ts) := by
  intro t rest ht
  obtain ⟨⟨rfl, hkind⟩, hseries⟩ := meets_expect src (by simp) hts t rest ht
  exact ⟨src.identified t (hts.subset List.mem_cons_self) hkind, hseries⟩

variable (hitem : ∀ ts, ts <:+ pool → Finds file pool view P ts (item ts))
include hitem

omit src in
theorem meets_items (fuel : Nat) (hts : ts <:+ pool) :
    Meets (fun as rest => Rowed file pool ts (as.map view) rest ∧ ∀ a ∈ as, P a)
      (items eof close item fuel ts) := by
  induction fuel generalizing ts with
  | zero => exact .fault _
  | succ fuel ih =>
    unfold Tree.items
    split
    · exact .ok ⟨Series.skip hts List.suffix_rfl, List.forall_mem_nil _⟩
    · refine (hitem ts hts).bind fun a ts₁ ⟨ha, hP⟩ => ?_
      refine (ih ha.series.rest_inside).bind fun as ts₂ ⟨has, hPs⟩ => ?_
      exact .ok ⟨ha.append has, List.forall_mem_cons.2 ⟨hP, hPs⟩⟩

theorem meets_separated (hts : ts <:+ pool) :
    Meets (fun as rest => Rowed file pool ts (as.map view) rest ∧ ∀ a ∈ as, P a)
      (separated eof close item ts) := by
  have hafter (ts : List Token) (hts : ts <:+ pool) :
      Finds file pool view P ts (afterComma eof item ts) := by
    refine (meets_expect src (by simp) hts).bind fun comma ts₁ ⟨_, hcomma⟩ => ?_
    intro a rest ha
    obtain ⟨hrow, hP⟩ := hitem ts₁ hcomma.rest_inside a rest ha
    exact ⟨hcomma.skipped.append hrow, hP⟩
  unfold Tree.separated
  split
  · exact .ok ⟨Series.skip hts List.suffix_rfl, List.forall_mem_nil _⟩
  · refine (hitem ts hts).bind fun a ts₁ ⟨ha, hP⟩ => ?_
    refine (meets_items hafter _ ha.series.rest_inside).bind fun as ts₂ ⟨has, hPs⟩ => ?_
    exact .ok ⟨ha.append has, List.forall_mem_cons.2 ⟨hP, hPs⟩⟩

end Steps

/-! ### Types -/

section Types

include src

theorem rowed_optionals (base : TypeExpr) (h : Rowed file pool ts [base.places] mid) :
    Rowed file pool ts [(base.optionals mid).1.places] (base.optionals mid).2 := by
  induction mid generalizing base with
  | nil => exact h
  | cons t rest ih =>
    unfold TypeExpr.optionals
    split
    next hkind =>
      have hmark := Series.token src.laid h.series.rest_inside (by simp [hkind])
      exact ih (.optional base (base.span.through t.span)) (h.joined hmark base.span_places)
    next => exact h

/-- Types in types are nested. -/
theorem TypeExpr.finds_readWith (fuel : Nat) (hts : ts <:+ pool) :
    Finds file pool places (fun _ => True) ts (TypeExpr.readWith eof fuel ts) := by
  induction fuel generalizing ts with
  | zero => exact .fault _
  | succ fuel ih =>
    cases ts with
    | nil => simp [TypeExpr.readWith, next, src.atEnd, Finds, Meets, bind, Except.bind]
    | cons t others =>
      have hothers := (List.suffix_cons t others).trans hts
      unfold TypeExpr.readWith
      dsimp only [next, List.tail_cons]
      refine Meets.bind (P := fun base rest => Rowed file pool (t :: others) [base.places] rest) ?_
        fun base ts₁ hbase => .ok ⟨rowed_optionals src base hbase, trivial⟩
      split
      next hkind => exact .ok (.leaf src.laid hts (by simp [hkind]))
      next hkind =>
        refine (ih hothers).bind fun element ts₁ ⟨helement, _⟩ => ?_
        refine helement.series.expect src (by simp) fun stop ts₂ hstop => ?_
        exact .ok ((helement.cons hts).opened src.laid hstop)
      next hkind =>
        refine (meets_separated src (fun ts hts => ih hts) hothers).bind
          fun params ts₁ ⟨hparams, _⟩ => ?_
        refine hparams.series.expect src (by simp) fun close ts₂ hclose => ?_
        refine hclose.expect src (by simp) fun arrow ts₃ harrow => ?_
        refine (ih harrow.rest_inside).bind fun result ts₄ ⟨hresult, _⟩ => ?_
        have hmarks := hclose.skipped.append harrow.skipped
        have hrow : Rowed file pool (t :: others)
            (params.map TypeExpr.places ++ [result.places]) ts₄ :=
          (hparams.append (hmarks.append hresult)).cons hts
        refine .ok ?_
        rw [TypeExpr.places, typesPlaces_eq_map]
        exact hrow.openedLast src.laid result.span_places
      next => exact .error _

theorem TypeExpr.finds_read (hts : ts <:+ pool) :
    Finds file pool places (fun _ => True) ts (TypeExpr.read eof ts) :=
  TypeExpr.finds_readWith src _ hts

end Types

/-! ### Expressions -/

namespace Expr

theorem places_build {o : Operator} {i : Infix} (hi : infix? o = some i) (left right : Expr)
    (span : Span) :
    (i.build left right span).places = .node span [[left.places, right.places]] := by
  cases o <;> cases hi <;> rfl

theorem numerals_build {o : Operator} {i : Infix} (hi : infix? o = some i) {left right : Expr}
    (hleft : left.Numerals N) (hright : right.Numerals N) (span : Span) :
    (i.build left right span).Numerals N := by
  cases o <;> cases hi <;> exact ⟨hleft, hright⟩

/-- What the readings of expressions with some fuel give is nested and has its numbers from
tokens. -/
structure Nests (N : Kind → String → Prop) (file : String) (pool : List Token) (eof : Token)
    (fuel : Nat) : Prop where
  readWith : ∀ power ts, ts <:+ pool →
    Finds file pool places (Numerals N) ts (Expr.readWith eof fuel power ts)
  readMore : ∀ power left ts mid, Rowed file pool ts [left.places] mid → left.Numerals N →
    Finds file pool places (Numerals N) ts (Expr.readMore eof fuel power left mid)
  readOperand : ∀ ts, ts <:+ pool →
    Finds file pool places (Numerals N) ts (Expr.readOperand eof fuel ts)
  readArgument : ∀ ts, ts <:+ pool →
    Finds file pool Argument.places (Argument.Numerals N) ts (Expr.readArgument eof fuel ts)
  readPart : ∀ ts, ts <:+ pool →
    Finds file pool places (Numerals N) ts (Expr.readPart eof fuel ts)

include src

/-- What continues an expression is joined to it. -/
theorem Nests.more (ih : Nests N file pool eof fuel) (power : Nat) {left : Expr}
    (hleft : Rowed file pool ts [left.places] mid) (hnumerals : left.Numerals N) :
    Finds file pool places (Numerals N) ts (Expr.readMore eof (fuel + 1) power left mid) := by
  have hsame : Finds file pool places (Numerals N) ts (.ok (left, mid)) := .ok ⟨hleft, hnumerals⟩
  unfold Expr.readMore
  cases mid with
  | nil => exact hsame
  | cons t others =>
    have hinside : t :: others <:+ pool := hleft.series.rest_inside
    have hothers := (List.suffix_cons t others).trans hinside
    have hmark : Rowed file pool (t :: others) [] others :=
      Series.skip hinside (List.suffix_cons t others)
    have hmember (access : Access) : Finds file pool places (Numerals N) ts
        (expect eof .identifier others >>= fun r =>
          Expr.readMore eof fuel power
            (.member left access r.1.value (left.span.through r.1.span)) r.2) := by
      refine (meets_expect src (by simp) hothers).bind fun name ts₁ ⟨_, hname⟩ => ?_
      exact ih.readMore _ _ _ _ (hleft.joined (hname.cons hinside) left.span_places) hnumerals
    dsimp only
    split
    · split
      · exact hsame
      · exact hmember .plain
    · split
      · exact hsame
      · exact hmember .optional
    · split
      · exact hsame
      · refine (meets_separated src ih.readArgument hothers).bind
          fun args ts₁ ⟨hargs, hvalues⟩ => ?_
        refine hargs.series.expect src (by simp) fun stop ts₂ hstop => ?_
        refine ih.readMore _ _ _ _ ?_ ⟨hnumerals, argumentsNumerals_iff.2 hvalues⟩
        rw [Expr.places, argumentsPlaces_eq_map]
        exact (hleft.append (hmark.append hargs)).joined hstop left.span_places
    · split
      · exact hsame
      · refine (ih.readWith _ _ hothers).bind fun subscript ts₁ ⟨hsubscript, hnumbers⟩ => ?_
        refine hsubscript.series.expect src (by simp) fun stop ts₂ hstop => ?_
        have hrow := hleft.append (hmark.append hsubscript)
        exact ih.readMore _ _ _ _ (hrow.joined hstop left.span_places) ⟨hnumerals, hnumbers⟩
    · split
      · exact hsame
      · refine (ih.readWith _ _ hothers).bind fun consequent ts₁ ⟨hconsequent, hfirst⟩ => ?_
        refine hconsequent.series.expect src (by simp) fun colon ts₂ hcolon => ?_
        refine (ih.readWith _ _ hcolon.rest_inside).bind
          fun alternate ts₃ ⟨halternate, hsecond⟩ => ?_
        have hrow : Rowed file pool ts
            (left.places :: [consequent.places] ++ [alternate.places]) ts₃ :=
          (hleft.append (hmark.append hconsequent)).append (hcolon.skipped.append halternate)
        exact ih.readMore _ _ _ _ (hrow.joinedLast left.span_places alternate.span_places)
          ⟨hnumerals, hfirst, hsecond⟩
    · split
      · exact hsame
      next hi =>
        split
        · exact hsame
        · refine (ih.readWith _ _ hothers).bind fun right ts₁ ⟨hright, hnumbers⟩ => ?_
          have hrow : Rowed file pool ts (left.places :: [] ++ [right.places]) ts₁ :=
            hleft.append (hmark.append hright)
          refine ih.readMore _ _ _ _ ?_ (numerals_build hi hnumerals hnumbers _)
          rw [places_build hi]
          exact hrow.joinedLast left.span_places right.span_places
    · exact hsame

/-- An operand covers its parts. -/
theorem Nests.operand (ih : Nests N file pool eof fuel) (hts : ts <:+ pool) :
    Finds file pool places (Numerals N) ts (Expr.readOperand eof (fuel + 1) ts) := by
  cases ts with
  | nil => simp [Expr.readOperand, next, src.atEnd, unary?, Finds, Meets]
  | cons t others =>
    have hothers := (List.suffix_cons t others).trans hts
    have hvalue : N t.kind t.value := src.valued t (hts.subset List.mem_cons_self)
    have hleaf (hkind : t.kind ≠ .stringStart) :
        Rowed file pool (t :: others) [.node t.span []] others := .leaf src.laid hts hkind
    unfold Expr.readOperand
    dsimp only [next, List.tail_cons]
    split
    · refine (ih.readWith _ _ hothers).bind fun operand ts₁ ⟨hoperand, hnumbers⟩ => ?_
      have hrow : Rowed file pool (t :: others) ([] ++ [operand.places]) ts₁ := hoperand.cons hts
      exact .ok ⟨hrow.openedLast src.laid operand.span_places, hnumbers⟩
    · split
      iterate 2
        next hkind =>
          rw [hkind] at hvalue
          exact .ok ⟨hleaf (by simp [hkind]), hvalue⟩
      iterate 4 next hkind => exact .ok ⟨hleaf (by simp [hkind]), trivial⟩
      · refine (TypeExpr.finds_read src hothers).bind fun type ts₁ ⟨htype, _⟩ => ?_
        have hrow : Rowed file pool (t :: others) ([] ++ [type.places]) ts₁ := htype.cons hts
        exact .ok ⟨hrow.openedLast src.laid type.span_places, trivial⟩
      · refine (meets_items ih.readPart _ hothers).bind fun parts ts₁ ⟨hparts, hnumbers⟩ => ?_
        refine hparts.series.expect src (by simp) fun stop ts₂ hstop => ?_
        refine .ok ⟨?_, exprsNumerals_iff.2 hnumbers⟩
        rw [Expr.places, exprsPlaces_eq_map]
        exact (hparts.cons hts).opened src.laid hstop
      · refine (ih.readWith _ _ hothers).bind fun inner ts₁ ⟨hinner, hnumbers⟩ => ?_
        refine hinner.series.expect src (by simp) fun stop ts₂ hstop => ?_
        exact .ok ⟨(hinner.cons hts).append hstop.skipped, hnumbers⟩
      · refine (meets_separated src (fun ts hts => ih.readWith _ ts hts) hothers).bind
          fun elements ts₁ ⟨helements, hnumbers⟩ => ?_
        refine helements.series.expect src (by simp) fun stop ts₂ hstop => ?_
        refine .ok ⟨?_, exprsNumerals_iff.2 hnumbers⟩
        rw [Expr.places, exprsPlaces_eq_map]
        exact (helements.cons hts).opened src.laid hstop
      · exact .error _

omit src in
/-- A node needs a token. -/
theorem not_rowed_nil {p : Places} (h : Rowed file pool [] [p] rest) : False := by
  obtain ⟨t, ht, -⟩ := (h.series.covers p.span List.mem_cons_self).start
  cases ht

theorem Nests.argument (ih : Nests N file pool eof fuel) (hts : ts <:+ pool) :
    Finds file pool Argument.places (Argument.Numerals N) ts
      (Expr.readArgument eof (fuel + 1) ts) := by
  unfold Expr.readArgument
  extract_lets start named
  have hfrom : (if named = true then ts.tail.tail else ts) <:+ ts := by
    split
    · exact (List.tail_suffix _).trans (List.tail_suffix _)
    · exact List.suffix_rfl
  refine (ih.readWith 0 _ (hfrom.trans hts)).bind fun value ts₁ ⟨hvalue, hnumbers⟩ => ?_
  have hrow : Rowed file pool ts ([] ++ [value.places]) ts₁ :=
    (Series.skip hts hfrom).append hvalue
  cases ts with
  | nil => exact (not_rowed_nil hrow).elim
  | cons t others => exact .ok ⟨hrow.openedLast src.laid value.span_places, hnumbers⟩

theorem Nests.part (ih : Nests N file pool eof fuel) (hts : ts <:+ pool) :
    Finds file pool places (Numerals N) ts (Expr.readPart eof (fuel + 1) ts) := by
  cases ts with
  | nil => simp [Expr.readPart, next, src.atEnd, expect, Finds, Meets, bind, Except.bind]
  | cons t others =>
    unfold Expr.readPart
    dsimp only [next, List.tail_cons]
    split
    next hkind => exact .ok ⟨.leaf src.laid hts (by simp [hkind]), trivial⟩
    next =>
      refine (meets_expect src (by simp) hts).bind fun mark ts₁ ⟨_, hmark⟩ => ?_
      refine (ih.readWith 0 ts₁ hmark.rest_inside).bind fun inner ts₂ ⟨hinner, hnumbers⟩ => ?_
      refine hinner.series.expect src (by simp) fun close ts₃ hclose => ?_
      exact .ok ⟨hmark.skipped.append (hinner.append hclose.skipped), hnumbers⟩

theorem nests (fuel : Nat) : Nests N file pool eof fuel := by
  induction fuel with
  | zero =>
    exact ⟨fun _ _ _ => .fault _, fun _ _ _ _ _ _ => .fault _, fun _ _ => .fault _,
      fun _ _ => .fault _, fun _ _ => .fault _⟩
  | succ fuel ih =>
    refine ⟨fun power ts hts => ?_,
      fun power left ts mid hleft hnumerals => ih.more src power hleft hnumerals,
      fun ts hts => ih.operand src hts, fun ts hts => ih.argument src hts,
      fun ts hts => ih.part src hts⟩
    exact (ih.readOperand ts hts).bind fun left mid ⟨hleft, hnumerals⟩ =>
      ih.readMore _ left ts mid hleft hnumerals

theorem finds_read (hts : ts <:+ pool) :
    Finds file pool places (Numerals N) ts (Expr.read eof ts) :=
  (nests src _).readWith 0 ts hts

end Expr

/-! ### Parts of definitions -/

section Parts

include src

theorem meets_readTyped (hts : ts <:+ pool) :
    Meets (fun p rest => (∃ others, ts = p.1 :: others) ∧ W p.1.value ∧
      Rowed file pool ts [p.2.places] rest) (readTyped eof ts) := by
  refine (meets_expect src (by simp) hts).bind fun name ts₁ ⟨⟨hstart, hkind⟩, hname⟩ => ?_
  refine hname.expect src (by simp) fun colon ts₂ hcolon => ?_
  refine (TypeExpr.finds_read src hcolon.rest_inside).bind fun type ts₃ ⟨htype, _⟩ => ?_
  refine .ok ⟨⟨ts₁, hstart⟩, src.identified name ?_ hkind,
    hname.skipped.append (hcolon.skipped.append htype)⟩
  exact hts.subset (hstart ▸ List.mem_cons_self)

/-- A name with its type, as a node that starts with the name. -/
theorem meets_readTyped_node (hts : ts <:+ pool) :
    Finds file pool (fun p => .node (p.1.span.through p.2.span) [[p.2.places]])
      (fun p => W p.1.value) ts (readTyped eof ts) := by
  intro p rest hp
  obtain ⟨⟨others, rfl⟩, hname, hrow⟩ := meets_readTyped src hts p rest hp
  have hlast : Rowed file pool (p.1 :: others) ([] ++ [p.2.places]) rest := hrow
  exact ⟨hlast.openedLast src.laid p.2.span_places, hname⟩

theorem Param.finds_read (hts : ts <:+ pool) :
    Finds file pool places (fun p => W p.name) ts (Param.read eof ts) :=
  (meets_readTyped_node src hts).bind fun _ _ h => .ok h

theorem FieldDef.finds_read (hts : ts <:+ pool) :
    Finds file pool places (fun f => W f.name) ts (FieldDef.read eof ts) :=
  (meets_readTyped_node src hts).bind fun _ _ h => .ok h

theorem meets_readParams (hts : ts <:+ pool) :
    Meets (fun ps rest => Rowed file pool ts (ps.map Param.places) rest ∧ ∀ p ∈ ps, W p.name)
      (readParams eof ts) := by
  refine (meets_expect src (by simp) hts).bind fun mark ts₁ ⟨_, hmark⟩ => ?_
  refine (meets_separated src (fun ts hts => Param.finds_read src hts) hmark.rest_inside).bind
    fun params ts₂ ⟨hparams, hnames⟩ => ?_
  refine hparams.series.expect src (by simp) fun close ts₃ hclose => ?_
  have hrow := hparams.append hclose.skipped
  rw [List.append_nil] at hrow
  exact .ok ⟨hmark.skipped.append hrow, hnames⟩

theorem finds_readMatterField (hts : ts <:+ pool) :
    Finds file pool FieldDef.places (fun f => W f.name) ts (readMatterField eof ts) := by
  refine (FieldDef.finds_read src hts).bind fun field ts₁ ⟨hfield, hname⟩ => ?_
  dsimp only
  split
  · exact .ok ⟨hfield, hname⟩
  · refine hfield.series.expect src (by simp) fun comma ts₂ hcomma => ?_
    exact .ok ⟨hfield.append hcomma.skipped, hname⟩

end Parts

/-! ### Bodies -/

section Bodies

variable {statement : List Token → Parsed (Taken Stmt)}
  (hstatement : ∀ ts, ts <:+ pool →
    Finds file pool Stmt.places (Stmt.Drawn N W) ts (statement ts))
include src hstatement

/-- The statements of a block, and after them the brace that closes it. -/
theorem meets_readBlock (hts : ts <:+ pool) :
    Meets (fun b rest => ∃ mid, (Rowed file pool ts (blockPlaces b.1) mid ∧
      Series file pool mid [b.2] rest) ∧ blockDrawn N W b.1) (readBlock eof statement ts) := by
  refine (meets_expect src (by simp) hts).bind fun mark ts₁ ⟨_, hmark⟩ => ?_
  refine (meets_items hstatement _ hmark.rest_inside).bind fun body ts₂ ⟨hbody, hdrawn⟩ => ?_
  refine hbody.series.expect src (by simp) fun stop ts₃ hstop => ?_
  rw [← blockPlaces_eq_map] at hbody
  exact .ok ⟨ts₂, ⟨hmark.skipped.append hbody, hstop⟩, blockDrawn_iff.2 hdrawn⟩

theorem FunctionDef.finds_read (hts : ts <:+ pool) :
    Finds file pool places (FunctionDef.Drawn N W) ts (FunctionDef.read eof statement ts) := by
  refine (meets_expect src (by simp) hts).bind fun start ts₁ ⟨⟨hts₁, _⟩, hstart⟩ => ?_
  subst hts₁
  refine (meets_identifier src hstart.rest_inside).bind fun name ts₂ ⟨hW, hname⟩ => ?_
  refine (meets_readParams src hname.rest_inside).bind fun params ts₃ ⟨hparams, hnames⟩ => ?_
  refine Meets.bind (P := fun result rest => Rowed file pool ts₃
    (result.toList.map TypeExpr.places) rest) ?_ fun result ts₄ hresult => ?_
  · dsimp only
    split
    · have htail : ts₃.tail <:+ ts₃ := List.tail_suffix _
      refine (TypeExpr.finds_read src (htail.trans hparams.series.rest_inside)).bind
        fun type ts₄ ⟨htype, _⟩ => ?_
      exact .ok ((Series.skip hparams.series.rest_inside htail).append htype)
    · exact .ok (Series.skip hparams.series.rest_inside List.suffix_rfl)
  · refine (meets_readBlock src hstatement hresult.series.rest_inside).bind
      fun body ts₅ ⟨mid, ⟨hblock, hstop⟩, hdrawn⟩ => ?_
    have hmarks := hstart.skipped.append hname.skipped
    have hrow := hmarks.append (hparams.append (hresult.append hblock))
    exact .ok ⟨Rowed.opened src.laid hrow hstop, hdrawn.1, hW, hnames, hdrawn.2⟩

/-- The members of a guild are among a series in the order they were written, each kind of them in
its order. A forge that was read before stays. -/
theorem meets_readMembers (guild : String) (fuel : Nat) {forge : Option Forge}
    (hdrawn : forgeDrawn N W forge) (hts : ts <:+ pool) :
    Meets (fun b rest => (∃ spans, Series file pool ts spans rest ∧
      Among file pool spans (b.fields.map FieldDef.places) ∧
      Among file pool spans (functionsPlaces b.methods) ∧
      (b.forge = forge ∨ forge = none ∧ Among file pool spans (forgePlaces b.forge))) ∧
      b.Drawn N W)
      (readMembers eof statement guild fuel forge ts) := by
  induction fuel generalizing forge ts with
  | zero => exact .fault _
  | succ fuel ih =>
    unfold readMembers
    extract_lets t first
    split
    · exact .ok ⟨⟨[], .nil hts List.suffix_rfl, .nil, .nil, .inl rfl⟩,
        hdrawn, trivial, List.forall_mem_nil _, trivial⟩
    split
    next hnotEnd hkind =>
      split
      · exact .error _
      next hnone =>
        cases ts with
        | nil => simp at hnotEnd
        | cons t others =>
          have hforge : forge = none := by simpa using hnone
          have hothers := (List.suffix_cons t others).trans hts
          refine (meets_readParams src hothers).bind fun params ts₁ ⟨hparams, hnames⟩ => ?_
          refine (meets_readBlock src hstatement hparams.series.rest_inside).bind
            fun body ts₂ ⟨mid, ⟨hblock, hstop⟩, hbody⟩ => ?_
          have hnode := ((hparams.append hblock).cons hts).opened src.laid hstop
          have hnew : forgeDrawn N W (some (.mk params body.1 (t.span.through body.2))) := by
            refine ⟨hbody.1, ?_⟩
            rintro ps body span ⟨⟩
            exact hnames
          intro b rest hb
          obtain ⟨⟨spans, hspans, hfields, hmethods, hkept⟩, hdrawn⟩ :=
            ih hnew hstop.rest_inside b rest hb
          have hsublist : spans.Sublist (t.span.through body.2 :: spans) :=
            List.sublist_cons_self _ _
          refine ⟨⟨_, hnode.series.append hspans, hfields.mono hsublist, hmethods.mono hsublist,
            .inr ⟨hforge, ?_⟩⟩, hdrawn⟩
          obtain hkept | ⟨hkept, -⟩ := hkept
          · rw [hkept]
            exact hnode.among.mono (List.sublist_append_left _ _)
          · cases hkept
    next hnotEnd hnotForge =>
      split
      · refine (FunctionDef.finds_read src hstatement hts).bind
          fun method ts₁ ⟨hmethod, hdefined⟩ => ?_
        refine (ih hdrawn hmethod.series.rest_inside).bind
          fun others ts₂ ⟨⟨spans, hspans, hfields, hmethods, hkept⟩, hothers⟩ => ?_
        obtain ⟨hforge, hnumbers, hnames, hnamed⟩ := hothers
        have hsublist : spans.Sublist ([method.places].map Places.span ++ spans) :=
          List.sublist_append_right _ _
        exact .ok ⟨⟨_, hmethod.series.append hspans, hfields.mono hsublist,
          hmethod.among.append hmethods, hkept.imp id fun h => ⟨h.1, h.2.mono hsublist⟩⟩,
          hforge, ⟨hdefined.1, hnumbers⟩, hnames, hdefined.2, hnamed⟩
      · refine (FieldDef.finds_read src hts).bind fun field ts₁ ⟨hfield, hname⟩ => ?_
        refine hfield.series.expect src (by simp) fun mark ts₂ hmark => ?_
        refine (ih hdrawn hmark.rest_inside).bind
          fun others ts₃ ⟨⟨spans, hspans, hfields, hmethods, hkept⟩, hothers⟩ => ?_
        obtain ⟨hforge, hnumbers, hnames, hnamed⟩ := hothers
        have hsublist : spans.Sublist ([field.places].map Places.span ++ spans) :=
          List.sublist_append_right _ _
        have hseries := (hfield.append hmark.skipped).series.append hspans
        exact .ok ⟨⟨_, hseries, hfield.among.append hfields, hmethods.mono hsublist,
          hkept.imp id fun h => ⟨h.1, h.2.mono hsublist⟩⟩,
          hforge, hnumbers, List.forall_mem_cons.2 ⟨hname, hnames⟩, hnamed⟩

end Bodies

/-! ### Statements -/

namespace Stmt

include src

/-- A statement from its first token to a semicolon. -/
theorem finds_finish {others : List Token} {row : List Places} {rows : List (List Places)}
    {build : Span → Stmt} (h : Rowed file pool (t :: others) row mid)
    (hbuild : ∀ span, (build span).places = .node span rows)
    (hrows : ∀ row' ∈ rows, row' = row) (hdrawn : ∀ span, (build span).Drawn N W) :
    Finds file pool places (Drawn N W) (t :: others) (Stmt.finish eof t.span build mid) := by
  refine h.series.expect src (by simp) fun stop ts₁ hstop => ?_
  refine .ok ⟨?_, hdrawn _⟩
  rw [hbuild]
  refine (h.series.append hstop).openWith src.laid List.getLast?_concat fun row' hrow' => ?_
  rw [hrows row' hrow']
  exact h.among.mono (List.sublist_append_left _ _)

theorem finds_readDeclare {others : List Token} (mutable : Bool) (hts : t :: others <:+ pool) :
    Finds file pool places (Drawn N W) (t :: others)
      (Stmt.readDeclare eof mutable t.span others) := by
  have hothers := (List.suffix_cons t others).trans hts
  refine (meets_readTyped src hothers).bind fun typed ts₁ ⟨_, hname, htype⟩ => ?_
  refine htype.series.expect src (by simp) fun mark ts₂ hmark => ?_
  refine (Expr.finds_read src hmark.rest_inside).bind fun value ts₃ ⟨hvalue, hnumbers⟩ => ?_
  have hrow := (htype.append (hmark.skipped.append hvalue)).cons hts
  exact finds_finish src hrow (fun _ => rfl) (by simp) fun _ => ⟨hnumbers, hname⟩

theorem finds_readMatter {others : List Token} (hts : t :: others <:+ pool) :
    Finds file pool places (Drawn N W) (t :: others) (Stmt.readMatter eof t.span others) := by
  have hothers := (List.suffix_cons t others).trans hts
  refine (meets_identifier src hothers).bind fun name ts₁ ⟨hW, hname⟩ => ?_
  refine hname.expect src (by simp) fun mark ts₂ hmark => ?_
  refine (meets_items (fun ts hts => finds_readMatterField src hts) _ hmark.rest_inside).bind
    fun fields ts₃ ⟨hfields, hnames⟩ => ?_
  refine hfields.series.expect src (by simp) fun stop ts₄ hstop => ?_
  have hrow := (hname.skipped.append (hmark.skipped.append hfields)).cons hts
  exact .ok ⟨hrow.opened src.laid hstop, trivial, hW, hnames⟩

theorem finds_readSimple (hts : ts <:+ pool) :
    Finds file pool places (Drawn N W) ts (Stmt.readSimple eof ts) := by
  refine (Expr.finds_read src hts).bind fun target ts₁ hread => ?_
  obtain ⟨htarget, hnumbers⟩ := hread
  cases ts with
  | nil => exact (Expr.not_rowed_nil htarget).elim
  | cons t others =>
    have htail : ts₁.tail <:+ ts₁ := List.tail_suffix _
    have hmark : Rowed file pool ts₁ [] ts₁.tail :=
      Series.skip htarget.series.rest_inside htail
    dsimp only [next]
    split
    · refine (Expr.finds_read src hmark.series.rest_inside).bind fun value ts₂ hread => ?_
      obtain ⟨hvalue, hothers⟩ := hread
      exact finds_finish src (htarget.append (hmark.append hvalue)) (fun _ => rfl) (by simp)
        fun _ => ⟨⟨hnumbers, hothers⟩, trivial⟩
    iterate 2
      exact finds_finish src (htarget.append hmark) (fun _ => rfl) (by simp)
        fun _ => ⟨hnumbers, trivial⟩
    · split
      · exact finds_finish src htarget (fun _ => rfl) (by simp [Expr.places])
          fun _ => ⟨hnumbers, trivial⟩
      · exact .error _

section Bodies

variable {statement : List Token → Parsed (Taken Stmt)}
  (hstatement : ∀ ts, ts <:+ pool →
    Finds file pool places (Drawn N W) ts (statement ts))
include hstatement

theorem finds_readGuild {others : List Token} (hts : t :: others <:+ pool) :
    Finds file pool places (Drawn N W) (t :: others)
      (Stmt.readGuild eof statement t.span others) := by
  have hothers := (List.suffix_cons t others).trans hts
  refine (meets_identifier src hothers).bind fun name ts₁ ⟨hW, hname⟩ => ?_
  refine hname.expect src (by simp) fun mark ts₂ hmark => ?_
  have hnone : forgeDrawn N W none := ⟨trivial, nofun⟩
  refine (meets_readMembers src hstatement name.value _ hnone hmark.rest_inside).bind
    fun body ts₃ ⟨⟨spans, hspans, hfields, hmethods, hkept⟩, hbody⟩ => ?_
  refine hspans.expect src (by simp) fun stop ts₄ hstop => ?_
  have hforge : Among file pool spans (forgePlaces body.forge) := by
    obtain hnone | ⟨-, hforge⟩ := hkept
    · rw [hnone]
      exact .nil
    · exact hforge
  have hmarks := (hname.skipped.append hmark.skipped).series
  have hseries := ((hmarks.append hspans).append hstop).cons hts
  have hsublist : spans.Sublist (spans ++ [stop.span]) := List.sublist_append_left _ _
  obtain ⟨hdrawn, hnumbers, hnames, hnamed⟩ := hbody
  refine .ok ⟨hseries.openWith src.laid List.getLast?_concat ?_, ⟨hdrawn.1, hnumbers⟩,
    hW, hnames, hdrawn.2, hnamed⟩
  exact List.forall_mem_cons.2 ⟨hfields.mono hsublist, List.forall_mem_cons.2
    ⟨hforge.mono hsublist, List.forall_mem_singleton.2 (hmethods.mono hsublist)⟩⟩

theorem finds_readFor {others : List Token} (hts : t :: others <:+ pool) :
    Finds file pool places (Drawn N W) (t :: others)
      (Stmt.readFor eof statement t.span others) := by
  have hothers := (List.suffix_cons t others).trans hts
  refine (meets_identifier src hothers).bind fun iterator ts₁ ⟨hW, hiterator⟩ => ?_
  refine hiterator.expect src (by simp) fun mark ts₂ hmark => ?_
  refine (Expr.finds_read src hmark.rest_inside).bind fun first ts₃ ⟨hfirst, hnumbers⟩ => ?_
  have hrow := (hiterator.skipped.append (hmark.skipped.append hfirst)).cons hts
  dsimp -zeta only
  extract_lets ranged
  have hranged (kind : RangeKind) :
      Finds file pool places (Drawn N W) (t :: others) (ranged kind) := by
    have htail : ts₃.tail <:+ ts₃ := List.tail_suffix _
    have hdots : Rowed file pool ts₃ [] ts₃.tail :=
      Series.skip hfirst.series.rest_inside htail
    refine (Expr.finds_read src hdots.series.rest_inside).bind fun high ts₄ ⟨hhigh, hlast⟩ => ?_
    refine (meets_readBlock src hstatement hhigh.series.rest_inside).bind
      fun body ts₅ ⟨mid, ⟨hblock, hstop⟩, hbody⟩ => ?_
    exact .ok ⟨Rowed.opened src.laid (hrow.append (hdots.append (hhigh.append hblock))) hstop,
      ⟨hnumbers, hlast, hbody.1⟩, hW, hbody.2⟩
  split
  · exact hranged _
  split
  · exact hranged _
  · have hinside : ts₃ <:+ pool := hfirst.series.rest_inside
    refine (meets_readBlock src hstatement hinside).bind
      fun body ts₄ ⟨mid, ⟨hblock, hstop⟩, hbody⟩ => ?_
    exact .ok ⟨Rowed.opened src.laid (hrow.append hblock) hstop, ⟨hnumbers, hbody.1⟩, hW, hbody.2⟩

end Bodies

omit src in
/-- The parts of an `if`, which are among a series that ends where the `if` ends. -/
structure BranchFound (N : Kind → String → Prop) (W : String → Prop) (file : String)
    (pool ts : List Token) (b : Expr × List Stmt × Alternate × Span) (rest : List Token) :
    Prop where
  among : ∃ spans last, Series file pool ts spans rest ∧
    spans.getLast? = some last ∧ last.stop = b.2.2.2.stop ∧
    Among file pool spans (b.1.places :: (blockPlaces b.2.1 ++ b.2.2.1.places))
  numerals : b.1.Numerals N ∧ blockNumerals N b.2.1 ∧ b.2.2.1.Numerals N
  named : blockNamed W b.2.1 ∧ b.2.2.1.Named W

omit src in
/-- What the readings of statements with some fuel give is nested, and drawn from tokens. -/
structure Nests (N : Kind → String → Prop) (W : String → Prop) (file : String) (pool : List Token)
    (eof : Token) (fuel : Nat) : Prop where
  readWith : ∀ ts, ts <:+ pool →
    Finds file pool places (Drawn N W) ts (Stmt.readWith eof fuel ts)
  readBranch : ∀ ts, ts <:+ pool →
    Meets (BranchFound N W file pool ts) (Stmt.readBranch eof fuel ts)

omit src in
theorem through_eq {first last stop : Span} (h : last.stop = stop.stop) :
    first.through last = first.through stop := by
  rw [Span.through, Span.through, h]

/-- A branch covers its test, its body and its alternate. -/
theorem Nests.branch (ih : Nests N W file pool eof fuel) (hts : ts <:+ pool) :
    Meets (BranchFound N W file pool ts) (Stmt.readBranch eof (fuel + 1) ts) := by
  refine (Expr.finds_read src hts).bind fun test ts₁ ⟨htest, hnumbers⟩ => ?_
  refine (meets_readBlock src ih.readWith htest.series.rest_inside).bind
    fun body ts₂ ⟨mid, ⟨hblock, hstop⟩, hbody⟩ => ?_
  have hrow := htest.append hblock
  dsimp only
  split
  next helse =>
    cases ts₂ with
    | nil => simp [starts] at helse
    | cons mark others =>
      have hinside : mark :: others <:+ pool := hstop.rest_inside
      have hothers := (List.suffix_cons mark others).trans hinside
      have hmark : Rowed file pool (mark :: others) [] others :=
        Series.skip hinside (List.suffix_cons mark others)
      split
      next hkind =>
        cases others with
        | nil => simp [next, src.atEnd] at hkind
        | cons t others =>
          have hinner := (List.suffix_cons t others).trans hothers
          refine (ih.readBranch _ hinner).bind fun other ts₃ hother => ?_
          obtain ⟨⟨spans, last, hspans, hlast, hend, hamong⟩, hnumerals, hnamed⟩ := hother
          have hnode := (hspans.cons hothers).openWith src.laid hlast
            (List.forall_mem_singleton.2 hamong)
          rw [through_eq hend] at hnode
          have hall := hrow.append (hstop.skipped.append (hmark.append hnode))
          refine .ok ⟨⟨_, t.span.through other.2.2.2, hall.series, ?_, rfl, hall.among⟩,
            ⟨hnumbers, hbody.1, hnumerals⟩, hbody.2, hnamed⟩
          rw [List.map_append]
          exact List.getLast?_concat
      next =>
        refine (meets_readBlock src ih.readWith hothers).bind
          fun other ts₃ ⟨mid', ⟨hblock', hstop'⟩, hother⟩ => ?_
        have hall := hrow.append (hstop.skipped.append (hmark.append hblock'))
        refine .ok ⟨⟨_, other.2, hall.series.append hstop', List.getLast?_concat, rfl, ?_⟩,
          ⟨hnumbers, hbody.1, hother.1⟩, hbody.2, hother.2⟩
        exact hall.among.mono (List.sublist_append_left _ _)
  next =>
    refine .ok ⟨⟨_, body.2, hrow.series.append hstop, List.getLast?_concat, rfl, ?_⟩,
      ⟨hnumbers, hbody.1, trivial⟩, hbody.2, trivial⟩
    dsimp only [Alternate.places]
    rw [List.append_nil]
    exact hrow.among.mono (List.sublist_append_left _ _)

/-- A statement covers its parts. -/
theorem Nests.statement (ih : Nests N W file pool eof fuel) (hts : ts <:+ pool) :
    Finds file pool places (Drawn N W) ts (Stmt.readWith eof (fuel + 1) ts) := by
  cases ts with
  | nil =>
    unfold Stmt.readWith
    simp only [next, src.atEnd]
    exact finds_readSimple src hts
  | cons t others =>
    have hothers := (List.suffix_cons t others).trans hts
    have hexpr := Expr.finds_read src hothers
    have hmark : Rowed file pool (t :: others) [] others :=
      Series.skip hts (List.suffix_cons t others)
    -- A loop with an expression in front of its body.
    have hloop (build : Expr → List Stmt → Span → Stmt)
        (hbuild : ∀ e body span, (build e body span).places =
          .node span [e.places :: blockPlaces body])
        (hdrawn : ∀ e body span, e.Numerals N → blockDrawn N W body →
          (build e body span).Drawn N W) :
        Finds file pool places (Drawn N W) (t :: others)
          (Expr.read eof others >>= fun r =>
            readBlock eof (Stmt.readWith eof fuel) r.2 >>= fun b =>
              .ok (build r.1 b.1.1 (t.span.through b.1.2), b.2)) := by
      refine hexpr.bind fun e ts₁ hread => ?_
      obtain ⟨he, hnumbers⟩ := hread
      refine (meets_readBlock src ih.readWith he.series.rest_inside).bind fun body ts₂ hread => ?_
      obtain ⟨mid, ⟨hblock, hstop⟩, hbody⟩ := hread
      refine .ok ⟨?_, hdrawn _ _ _ hnumbers hbody⟩
      rw [hbuild]
      exact ((he.append hblock).cons hts).opened src.laid hstop
    unfold Stmt.readWith
    dsimp only [next]
    split
    · exact finds_readDeclare src true hts
    · exact finds_readDeclare src false hts
    · exact (FunctionDef.finds_read src ih.readWith hts).bind fun _ _ h => .ok h
    · exact finds_readMatter src hts
    · exact finds_readGuild src ih.readWith hts
    · refine hexpr.bind fun value ts₁ hread => ?_
      obtain ⟨hvalue, hnumbers⟩ := hread
      exact finds_finish src (hvalue.cons hts) (fun _ => rfl) (by simp)
        fun _ => ⟨hnumbers, trivial⟩
    · split
      · exact finds_finish src hmark (fun _ => rfl) (by simp)
          fun _ => ⟨by simp [Stmt.Numerals], trivial⟩
      · refine hexpr.bind fun value ts₁ hread => ?_
        obtain ⟨hvalue, hnumbers⟩ := hread
        exact finds_finish src (hvalue.cons hts) (fun _ => rfl) (by simp)
          fun _ => ⟨by simpa [Stmt.Numerals] using hnumbers, trivial⟩
    · refine (ih.readBranch _ hothers).bind fun branch ts₁ hbranch => ?_
      obtain ⟨⟨spans, last, hspans, hlast, hend, hamong⟩, hnumerals, hnamed⟩ := hbranch
      have hnode := (hspans.cons hts).openWith src.laid hlast (List.forall_mem_singleton.2 hamong)
      rw [through_eq hend] at hnode
      exact .ok ⟨hnode, hnumerals, hnamed⟩
    iterate 2
      exact hloop _ (fun _ _ _ => rfl) fun _ _ _ he hbody => ⟨⟨he, hbody.1⟩, hbody.2⟩
    · exact finds_readFor src ih.readWith hts
    · exact finds_finish src hmark (fun _ => rfl) (by simp) fun _ => ⟨trivial, trivial⟩
    · exact finds_readSimple src hts

theorem nests (fuel : Nat) : Nests N W file pool eof fuel := by
  induction fuel with
  | zero => exact ⟨fun _ _ => .fault _, fun _ _ => .fault _⟩
  | succ fuel ih => exact ⟨fun _ hts => ih.statement src hts, fun _ hts => ih.branch src hts⟩

end Stmt

/-! ### Programs -/

/-- The statements of a row between two positions are held by the span of the positions. -/
theorem Rowed.holds {row : List Places} {low high : Pos} (h : Rowed file pool ts row rest)
    (hbetween : ∀ t ∈ pool, t.Between low high) (hproper : low ≤ high) :
    Holds ⟨file, low, high⟩ [row] := by
  refine ⟨hproper, List.forall_mem_singleton.2 fun p hp => ?_,
    List.forall_mem_singleton.2 h.series.apart⟩
  have hcovers := h.series.covers p.span (List.mem_map_of_mem hp)
  obtain ⟨first, hfirst, hstart⟩ := hcovers.start
  obtain ⟨last, hlast, hkind, hstop⟩ := hcovers.stop
  have hlow := (hbetween first (h.series.inside.subset hfirst)).low
  have hhigh := (hbetween last hlast).high hkind
  exact ⟨hstart ▸ hlow, hstop ▸ hhigh⟩

/-- What was read of a source text is its program, all of it in a row. -/
theorem rowed_of_ofSource {file source : String} {stream : TokenStream} {tree : Program}
    (hstream : TokenStream.ofSource file source = .ok stream)
    (src : Sourced N W file stream.tokens stream.eof)
    (h : Program.ofSource file source = .ok tree) :
    tree.span = ⟨file, .origin, stream.eof.span.stop⟩ ∧ ∃ rest,
      Rowed file stream.tokens stream.tokens (blockPlaces tree.statements) rest ∧
        blockDrawn N W tree.statements := by
  rw [Program.ofSource, hstream] at h
  cases hitems : items stream.eof .eof (Stmt.readWith stream.eof (stream.tokens.length + 1))
      (stream.tokens.length + 1) stream.tokens with
  | error fault =>
    simp only [bind, Except.bind, Program.read, hitems] at h
    cases h
  | ok taken =>
    simp only [bind, Except.bind, Program.read, hitems] at h
    cases h
    obtain ⟨hrow, hdrawn⟩ := meets_items (Stmt.nests src (stream.tokens.length + 1)).readWith
      (stream.tokens.length + 1) List.suffix_rfl taken.1 taken.2 hitems
    rw [← blockPlaces_eq_map] at hrow
    exact ⟨rfl, taken.2, hrow, blockDrawn_iff.2 hdrawn⟩

theorem sourced_of_ofSource {file source : String} {stream : TokenStream}
    (hstream : TokenStream.ofSource file source = .ok stream)
    (hvalued : ∀ t ∈ stream.tokens, N t.kind t.value) (hW : ∀ s, IsIdentifierName s → W s) :
    Sourced N W file stream.tokens stream.eof where
  laid := (TokenStream.laid_of_ofSource hstream).1
  valued := hvalued
  identified t ht hkind := hW _ (TokenStream.isIdentifier_of_ofSource hstream t ht hkind)
  atEnd := TokenStream.kind_eof_of_ofSource hstream

/-- The numbers in the tree of a source text are tokens of the text. -/
theorem numerals_of_ofSource {file source : String} {stream : TokenStream} {tree : Program}
    (hstream : TokenStream.ofSource file source = .ok stream)
    (hvalued : ∀ t ∈ stream.tokens, N t.kind t.value)
    (h : Program.ofSource file source = .ok tree) : blockNumerals N tree.statements := by
  have src := sourced_of_ofSource (W := fun _ => True) hstream hvalued fun _ _ => trivial
  obtain ⟨-, rest, -, hdrawn⟩ := rowed_of_ofSource hstream src h
  exact hdrawn.1

/-- The names that the tree of a source text declares are words, with all that words have. -/
theorem named_of_ofSource (hW : ∀ s, IsIdentifierName s → W s) {file source : String}
    {tree : Program} (h : Program.ofSource file source = .ok tree) :
    blockNamed W tree.statements := by
  cases hstream : TokenStream.ofSource file source with
  | error fault =>
    rw [Program.ofSource, hstream] at h
    cases h
  | ok stream =>
    have src := sourced_of_ofSource (N := fun _ _ => True) hstream (fun _ _ => trivial) hW
    obtain ⟨-, rest, -, hdrawn⟩ := rowed_of_ofSource hstream src h
    exact hdrawn.2

/-- The spans in the tree of a source text nest: the program holds its statements, in their order,
and every statement is a nested node of the file that goes from token to token. -/
theorem Program.nested_of_ofSource {file source : String} {tree : Program}
    (h : Program.ofSource file source = .ok tree) :
    ∃ stream, TokenStream.ofSource file source = .ok stream ∧ tree.span.file = file ∧
      Holds tree.span [blockPlaces tree.statements] ∧
      ∀ s ∈ tree.statements, Nested file stream.tokens s.places := by
  cases hstream : TokenStream.ofSource file source with
  | error fault =>
    rw [Program.ofSource, hstream] at h
    cases h
  | ok stream =>
    obtain ⟨-, hproper, hbetween⟩ := TokenStream.laid_of_ofSource hstream
    have src := sourced_of_ofSource (N := fun _ _ => True) (W := fun _ => True) hstream
      (fun _ _ => trivial) fun _ _ => trivial
    obtain ⟨hspan, rest, hrow, -⟩ := rowed_of_ofSource hstream src h
    rw [hspan]
    refine ⟨stream, rfl, rfl, hrow.holds hbetween hproper, fun s hs => hrow.nested _ ?_⟩
    rw [blockPlaces_eq_map]
    exact List.mem_map_of_mem hs

/-- Nodes in parentheses, a string with an interpolation, an argument with a name, an `if` after
an `else`, and members of a guild in another order than the tree keeps them in. -/
def lodgings : String :=
  "guild G \x7b don m() \x7b\x7d forge(n: int?) \x7b\x7d x: [int]; \x7d\n" ++
  "perchance (a + 1) ** b \x7b\x7d else perchance c \x7b f(x: (\"s$\x7bd\x7d\")); \x7d"

theorem Program.nested_lodgings :
    ∃ tree stream, Program.ofSource "lodgings" lodgings = .ok tree ∧
      tree.statements.length = 2 ∧ TokenStream.ofSource "lodgings" lodgings = .ok stream ∧
      tree.span.file = "lodgings" ∧ Holds tree.span [blockPlaces tree.statements] ∧
      ∀ s ∈ tree.statements, Nested "lodgings" stream.tokens s.places := by
  have hany : (Program.ofSource "lodgings" lodgings).toOption.any
      (·.statements.length == 2) = true := by decide +kernel
  obtain ⟨tree, htree, hlength⟩ := exists_of_any hany
  obtain ⟨stream, hstream, hnested⟩ := Program.nested_of_ofSource htree
  exact ⟨tree, stream, htree, beq_iff_eq.1 hlength, hstream, hnested⟩

end Dragon.Tree
