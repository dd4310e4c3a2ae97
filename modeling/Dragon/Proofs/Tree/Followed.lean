import Dragon.Proofs.Tree.Moving

/-!
# All readings are followed

The readers of types, expressions and statements are gone through once; what follows from places,
from what comes after a text, from the fuel of a reading and from the order of the marks of strings
is taken from there.
-/
namespace Dragon.Tree

variable {α β : Type} {M : Moving} [M.Lawful] {eof : Token} {ts : List Token} {fuel fuel' : Nat}
  {σ : Tail M eof} {n : Need} {k s : Bool}

/-! ### Types -/

theorem TypeExpr.follows_optionals (base : TypeExpr) (ts : List Token) :
    Follows σ .noMore false s M.type ts (.ok (base.optionals ts))
      (.ok ((M.type base).optionals (σ.before ts))) := by
  induction ts generalizing base with
  | nil =>
    refine .stop fun hafter => ?_
    rw [show σ.before [] = [] from hafter]
    rfl
  | cons t rest ih =>
    rw [Tail.before_cons, optionals, optionals, M.kind_token]
    split
    next hmark =>
      have hrest := ih (.optional base (base.span.through t.span))
      rw [Moving.Lawful.optional, Moving.Lawful.through, ← M.span_type, ← M.span_token] at hrest
      exact .skip (by simp [next, hmark]) fun _ => hrest
    · exact .ok rfl

/-- The readers of types are followed. -/
theorem TypeExpr.follows_readWith {fuel fuel' : Nat} (hlength : ts.length < fuel)
    (hfuel : fuel ≤ fuel') (σ : Tail M eof) :
    Follows σ .noMore true true M.type ts (TypeExpr.readWith eof fuel ts)
      (TypeExpr.readWith σ.stop fuel' (σ.before ts)) := by
  induction fuel generalizing fuel' ts σ with
  | zero => exact absurd hlength (Nat.not_lt_zero _)
  | succ fuel ih =>
    obtain ⟨fuel', rfl⟩ := Nat.exists_eq_add_one_of_ne_zero (Nat.ne_zero_of_lt hfuel)
    revert σ
    refine Follows.look (Nat.le_succ 1) fun σ hsees => ?_
    have hinner (us : List Token) (hus : us.length < fuel) :=
      ih hus (Nat.le_of_succ_le_succ hfuel) σ
    unfold TypeExpr.readWith
    rw [hsees.next, hsees.tail]
    refine Follows.more (?_ : Follows σ .noMore true true M.type _ _ _) fun base us _ =>
      follows_optionals base us
    dsimp only
    rw [M.kind_token]
    generalize hkind : (next eof ts).kind = kind
    split
    · exact .skip (by simp [hkind]) fun _ => .ok (by simp)
    · refine .skip (by simp [hkind]) fun htail => (hinner _ (by omega)).followed fun element us _ =>
        (follows_operator us).more fun stop _ _ => .ok (by simp)
    · refine .skip (by simp [hkind]) fun htail =>
        (follows_separated fun us hus => hinner us (by omega)).followed fun params us hus =>
        (follows_operator us).andThen fun _ us hus => (follows_operator us).andThen fun _ us hus =>
        (hinner us (by omega)).more fun result _ _ => .ok (by simp)
    · exact .error (fun _ => rfl) rfl rfl

theorem TypeExpr.follows_read (ts : List Token) :
    Follows σ .noMore true true M.type ts (TypeExpr.read eof ts)
      (TypeExpr.read σ.stop (σ.before ts)) :=
  follows_readWith (Nat.lt_succ_self _) (Nat.succ_le_succ (σ.length_le ts)) σ

/-! ### Expressions -/

namespace Expr

/-- The readers of expressions with enough fuel for their tokens. -/
structure Followed (M : Moving) (eof : Token) (fuel fuel' : Nat) : Prop where
  readWith {ts : List Token} (power : Nat) (hlength : 3 * ts.length + 3 ≤ fuel) (σ : Tail M eof) :
    Follows σ .noMore true true M.expr ts (readWith eof fuel power ts)
      (readWith σ.stop fuel' power (σ.before ts))
  readMore {ts : List Token} (power : Nat) (left : Expr) (hlength : 3 * ts.length + 5 ≤ fuel)
    (σ : Tail M eof) :
    Follows σ .noMore false true M.expr ts (readMore eof fuel power left ts)
      (readMore σ.stop fuel' power (M.expr left) (σ.before ts))
  readOperand {ts : List Token} (hlength : 3 * ts.length + 2 ≤ fuel) (σ : Tail M eof) :
    Follows σ .noMore true true M.expr ts (readOperand eof fuel ts)
      (readOperand σ.stop fuel' (σ.before ts))
  readArgument {ts : List Token} (hlength : 3 * ts.length + 4 ≤ fuel) (σ : Tail M eof) :
    Follows σ .noMore true true M.argument ts (readArgument eof fuel ts)
      (readArgument σ.stop fuel' (σ.before ts))
  readPart {ts : List Token} (hlength : 3 * ts.length + 1 ≤ fuel) (σ : Tail M eof) :
    Follows σ .noMore true false M.expr ts (readPart eof fuel ts)
      (readPart σ.stop fuel' (σ.before ts))
  /-- A part of a string whose tokens are in order is there, and the string goes on after it. -/
  marksPart {ts : List Token} (hlength : 3 * ts.length + 1 ≤ fuel) (σ : Tail M eof)
    (hts : Strung ts) (hgoes : Continues ts) (hend : starts .stringEnd ts = false) :
    Marked (fun rest => rest <:+ ts ∧ Continues rest) (Expr.readPart eof fuel ts)

omit [M.Lawful] in
/-- What has been read is gone on from. -/
theorem Followed.goOn (ih : Followed M eof fuel fuel') (power : Nat) {left left' : Expr}
    (hleft : left' = M.expr left) (hlength : 3 * ts.length + 5 ≤ fuel) :
    Follows σ .noMore false true M.expr ts (Expr.readMore eof fuel power left ts)
      (Expr.readMore σ.stop fuel' power left' (σ.before ts)) := by
  rw [hleft]
  exact ih.readMore power left hlength σ

/-- Whether an operator goes on with an expression is seen from the next token. -/
theorem Followed.more (ih : Followed M eof fuel fuel') (power : Nat) (left : Expr)
    (hlength : 3 * ts.length + 5 ≤ fuel + 1) (σ : Tail M eof) :
    Follows σ .noMore false true M.expr ts (Expr.readMore eof (fuel + 1) power left ts)
      (Expr.readMore σ.stop (fuel' + 1) power (M.expr left) (σ.before ts)) := by
  cases ts with
  | nil =>
    refine .stop fun hafter => ?_
    rw [show σ.before [] = [] from hafter]
    rfl
  | cons t rest =>
    rw [List.length_cons] at hlength
    unfold Expr.readMore
    rw [Tail.before_cons]
    dsimp only
    rw [M.kind_token]
    generalize hkind : t.kind = kind
    have hskip {r : Parsed (Taken Expr)} {r' : Parsed (Taken Expr)} (hkind : t.kind ≠ .eof)
        (h : Follows σ .noMore false true M.expr rest r r') :
        Follows σ .noMore false true M.expr (t :: rest) r r' := .skip hkind fun _ => h
    split
    iterate 2
      split
      · exact .ok rfl
      · exact hskip (by simp [hkind]) <| (follows_identifier rest).andThen fun name us hus =>
          ih.goOn power (by simp) (by omega)
    · split
      · exact .ok rfl
      · exact hskip (by simp [hkind]) <|
          (follows_separated fun us hus => ih.readArgument (by omega) σ).followed fun args us hus =>
          (follows_operator us).andThen fun stop vs hvs => ih.goOn power (by simp) (by omega)
    · split
      · exact .ok rfl
      · exact hskip (by simp [hkind]) <|
          (ih.readWith 0 (by omega) σ).followed fun subscript us hus =>
          (follows_operator us).andThen fun stop vs hvs => ih.goOn power (by simp) (by omega)
    · split
      · exact .ok rfl
      · exact hskip (by simp [hkind]) <|
          (ih.readWith 0 (by omega) σ).followed fun consequent us hus =>
          (follows_operator us).andThen fun _ vs hvs =>
          (ih.readWith ternaryPower (by omega) σ).more fun alternate ws hws =>
          ih.goOn power (by simp) (by omega)
    next o _ _ _ _ _ =>
      generalize hi : infix? o = i
      cases i with
      | none => exact .ok rfl
      | some i =>
        dsimp only
        split
        · exact .ok rfl
        · exact hskip (by simp [hkind]) <|
            (ih.readWith i.right (by omega) σ).more fun right us hus =>
            ih.goOn power (by simp [M.expr_build hi]) (by omega)
    · exact .ok rfl

omit [M.Lawful] in
/-- No part of a string misses a mark. -/
theorem Followed.partMarked (ih : Followed M eof fuel fuel')
    (hlength : 3 * ts.length + 1 ≤ fuel + 1) (σ : Tail M eof) (hts : Strung ts)
    (hgoes : Continues ts) (hend : starts .stringEnd ts = false) :
    Marked (fun rest => rest <:+ ts ∧ Continues rest) (Expr.readPart eof (fuel + 1) ts) := by
  cases ts with
  | nil => cases hgoes
  | cons t us =>
    rw [List.length_cons] at hlength
    have hus := List.suffix_cons t us
    unfold Expr.readPart
    dsimp only [next, List.tail_cons]
    rcases hgoes with hkind | hkind | ⟨hkind, hnext⟩
    · rw [hkind, expect, if_pos hkind]
      have hinner : Follows σ .noMore true true M.expr us (Expr.readWith eof fuel 0 us) _ :=
        ih.readWith 0 (by omega) σ
      refine (hinner.marks (hts.suffix hus)).bind fun value mid hmid =>
        Marked.bind (?_ : Marked (fun rest => rest <:+ t :: us ∧ Continues rest) _)
          fun _ _ h => h
      have hmid := hmid.trans hus
      cases mid with
      | nil => rfl
      | cons stop rest =>
        rw [expect]
        split
        next hstop =>
          exact ⟨(List.suffix_cons stop rest).trans hmid, hts stop rest hmid (.inr hstop)⟩
        next => rfl
    · simp [starts, hkind] at hend
    · rw [hkind]
      refine ⟨hus, ?_⟩
      cases us with
      | nil => simp [starts] at hnext
      | cons u us => exact hnext.imp (by simp [starts]) fun h => .inl (by simpa [starts] using h)

omit [M.Lawful] in
/-- The parts of a string whose tokens are in order are there up to its end. -/
theorem Followed.partsMarked (ih : Followed M eof fuel fuel')
    (hlength : 3 * ts.length + 1 ≤ fuel) (σ : Tail M eof) (hts : Strung ts)
    (hgoes : Continues ts) (m : Nat) :
    Marked (starts .stringEnd · = true) (items eof .stringEnd (Expr.readPart eof fuel) m ts) := by
  induction m generalizing ts with
  | zero => rfl
  | succ m others =>
    unfold items
    split
    next hend =>
      cases ts with
      | nil => cases hgoes
      | cons t us => exact hend
    next hopen =>
      simp only [Bool.or_eq_true, not_or, Bool.not_eq_true] at hopen
      refine (ih.marksPart hlength σ hts hgoes hopen.2).bind fun e rest hpart => ?_
      obtain ⟨hrest, hgoes⟩ := hpart
      have hless := hrest.length_le
      exact (others (by omega) (hts.suffix hrest) hgoes).bind fun _ _ h => h

theorem Followed.operand (ih : Followed M eof fuel fuel')
    (hlength : 3 * ts.length + 2 ≤ fuel + 1) (σ : Tail M eof) :
    Follows σ .noMore true true M.expr ts (Expr.readOperand eof (fuel + 1) ts)
      (Expr.readOperand σ.stop (fuel' + 1) (σ.before ts)) := by
  revert σ
  refine Follows.look (Nat.le_succ 1) fun σ hsees => ?_
  unfold Expr.readOperand
  rw [hsees.next, hsees.tail]
  dsimp only
  rw [M.kind_token]
  generalize hkind : (next eof ts).kind = kind
  generalize hop : unary? kind = op
  cases op with
  | some op =>
    refine .skip (fun h => ?_) fun htail =>
      (ih.readWith unaryPower (by omega) σ).more fun operand _ _ => .ok (by simp)
    rw [← hkind, h] at hop
    cases hop
  | none =>
    dsimp only
    split
    iterate 6 exact .skip (by simp [hkind]) fun _ => .ok (by simp)
    · exact .skip (by simp [hkind]) fun _ =>
        (TypeExpr.follows_read ts.tail).more fun type _ _ => .ok (by simp)
    · refine Follows.remark (.skip (by simp [hkind]) fun htail =>
        (follows_items (fun us hus => ih.readPart (by omega) σ) (by omega)
          (Nat.succ_le_succ (σ.length_le ts))).followed fun parts us hus =>
        (follows_expect .stringEnd us (Bool.false_and _)).more
          fun stop _ _ => .ok (by simp)) fun hts => ?_
      have hgoes : Continues ts.tail := by
        cases ts with
        | nil => simp [next, σ.atEnd] at hkind
        | cons t us => exact hts t us List.suffix_rfl (.inl hkind)
      have htail : 3 * ts.tail.length + 1 ≤ fuel := by rw [List.length_tail]; omega
      refine (ih.partsMarked htail σ (hts.suffix (List.tail_suffix ts)) hgoes _).bind
        fun parts us hus => Marked.bind (?_ : Marked (fun _ => True) _) fun _ _ _ => trivial
      cases us with
      | nil => cases hus
      | cons u us =>
        rw [expect, if_pos (by simpa [starts] using hus)]
        trivial
    · exact .skip (by simp [hkind]) fun _ => (ih.readWith 0 (by omega) σ).followed
        fun inner us _ => (follows_operator us).more fun _ _ _ => .ok rfl
    · exact .skip (by simp [hkind]) fun _ =>
        (follows_separated fun us hus => ih.readWith 0 (by omega) σ).followed
          fun elements us _ => (follows_operator us).more fun stop _ _ => .ok (by simp)
    · exact .error (fun _ => rfl) rfl rfl

theorem Followed.argument (ih : Followed M eof fuel fuel')
    (hlength : 3 * ts.length + 4 ≤ fuel + 1) (σ : Tail M eof) :
    Follows σ .noMore true true M.argument ts (Expr.readArgument eof (fuel + 1) ts)
      (Expr.readArgument σ.stop (fuel' + 1) (σ.before ts)) := by
  revert σ
  refine Follows.look (Nat.le_refl 2) fun σ hsees => ?_
  unfold Expr.readArgument
  rw [hsees.next, hsees.tail]
  dsimp only
  rw [M.kind_token, hsees.behind.starts, hsees.behind.tail]
  generalize hnamed : ((next eof ts).kind == .identifier && starts (.operator .colon) ts.tail) =
    named
  cases named with
  | true =>
    obtain ⟨hname, hcolon⟩ := Bool.and_eq_true_iff.1 hnamed
    exact .skip (by simp [beq_iff_eq.1 hname]) fun _ => .skip (by simp [kind_of_starts hcolon])
      fun _ => (ih.readWith 0 (by omega) σ).more fun value _ _ => .ok (by simp)
  | false => exact (ih.readWith 0 (by omega) σ).more fun value _ _ => .ok (by simp)

theorem Followed.part (ih : Followed M eof fuel fuel')
    (hlength : 3 * ts.length + 1 ≤ fuel + 1) (σ : Tail M eof) :
    Follows σ .noMore true false M.expr ts (Expr.readPart eof (fuel + 1) ts)
      (Expr.readPart σ.stop (fuel' + 1) (σ.before ts)) := by
  revert σ
  refine Follows.look (Nat.le_succ 1) fun σ hsees => ?_
  unfold Expr.readPart
  rw [hsees.next, hsees.tail]
  dsimp only
  rw [M.kind_token]
  generalize hkind : (next eof ts).kind = kind
  split
  · exact .skip (by simp [hkind]) fun _ => .ok (by simp)
  · exact (follows_expect .interpStart ts (Bool.false_and _)).andThen fun _ us _ =>
      ((ih.readWith 0 (by omega) σ).relax (fun _ h => h) (fun h => h) fun h => by cases h).followed
        fun inner us _ => (follows_expect .interpEnd us (Bool.and_false _)).more
          fun _ _ _ => .ok rfl

theorem followed (hfuel : fuel ≤ fuel') : Followed M eof fuel fuel' := by
  induction fuel generalizing fuel' with
  | zero => constructor <;> intros <;> omega
  | succ fuel ih =>
    obtain ⟨fuel', rfl⟩ := Nat.exists_eq_add_one_of_ne_zero (Nat.ne_zero_of_lt hfuel)
    have ih := ih (Nat.le_of_succ_le_succ hfuel)
    refine ⟨fun power hlength σ => ?_, ih.more, ih.operand, ih.argument, ih.part, ih.partMarked⟩
    exact (ih.readOperand (by omega) σ).more fun left us hus =>
      ih.readMore power left (by omega) σ

theorem follows_read (ts : List Token) :
    Follows σ .noMore true true M.expr ts (Expr.read eof ts) (Expr.read σ.stop (σ.before ts)) := by
  have hlength := σ.length_le ts
  exact (followed (by omega)).readWith 0 (Nat.le_refl _) σ

end Expr

/-! ### Statements -/

theorem follows_readTyped (ts : List Token) :
    Follows σ .noMore true true (Prod.map M.token M.type) ts (readTyped eof ts)
      (readTyped σ.stop (σ.before ts)) :=
  (follows_identifier ts).andThen fun _ us _ => (follows_operator us).andThen fun _ us _ =>
    (TypeExpr.follows_read us).more fun _ _ _ => .ok rfl

theorem Param.follows_read (ts : List Token) :
    Follows σ .noMore true true M.param ts (Param.read eof ts) (Param.read σ.stop (σ.before ts)) :=
  (follows_readTyped ts).more fun _ _ _ => .ok (by simp)

theorem FieldDef.follows_read (ts : List Token) :
    Follows σ .noMore true true M.field ts (FieldDef.read eof ts)
      (FieldDef.read σ.stop (σ.before ts)) :=
  (follows_readTyped ts).more fun _ _ _ => .ok (by simp)

theorem follows_readParams (ts : List Token) :
    Follows σ n k true (List.map M.param) ts (readParams eof ts)
      (readParams σ.stop (σ.before ts)) :=
  (follows_operator ts).andThen fun _ _ _ =>
    (follows_separated fun us _ => Param.follows_read us).followed fun _ us _ =>
    (follows_operator us).more fun _ _ _ => .ok rfl

theorem follows_readMatterField (ts : List Token) (σ : Tail M eof) :
    Follows σ .noMore true true M.field ts (readMatterField eof ts)
      (readMatterField σ.stop (σ.before ts)) := by
  refine (FieldDef.follows_read ts).more fun field us _ => ?_
  revert σ
  refine Follows.look (Nat.le_refl 1) fun σ hsees => ?_
  dsimp only
  rw [hsees.starts]
  split
  · exact .ok rfl
  · exact (follows_operator us).more fun _ _ _ => .ok rfl

/-- The result of a function, if it is written. -/
theorem follows_result (ts : List Token) (σ : Tail M eof) :
    Follows σ .noMore false true (Option.map M.type) ts
      (if starts (.operator .arrow) ts then do
        let (type, ts) ← TypeExpr.read eof ts.tail
        pure (some type, ts)
      else .ok (none, ts))
      (if starts (.operator .arrow) (σ.before ts) then do
        let (type, ts) ← TypeExpr.read σ.stop (σ.before ts).tail
        pure (some type, ts)
      else .ok (none, σ.before ts)) := by
  revert σ
  refine Follows.look (Nat.le_refl 1) fun σ hsees => ?_
  rw [hsees.starts, hsees.tail]
  split
  next harrow =>
    exact .skip (by simp [kind_of_starts harrow]) fun _ =>
      (TypeExpr.follows_read ts.tail).more fun _ _ _ => .ok rfl
  · exact .ok rfl

/-! ### The members of a guild -/

/-- What one turn of the loop over the members of a guild takes. -/
inductive GuildMember where
  | field (f : FieldDef)
  | forge (f : Forge)
  | method (m : FunctionDef)

namespace GuildMember

/-- The forge that is known after a member. -/
def forgeAfter (known : Option Forge) : GuildMember → Option Forge
  | forge f => some f
  | field _ | method _ => known

/-- A member with those that follow it. -/
def before (others : GuildBody) : GuildMember → GuildBody
  | field f => { others with fields := f :: others.fields }
  | forge _ => others
  | method m => { others with methods := m :: others.methods }

end GuildMember

def Moving.member (M : Moving) : GuildMember → GuildMember
  | .field f => .field (M.field f)
  | .forge f => .forge (M.forge f)
  | .method m => .method (M.function m)

section Members

variable (eof : Token) (statement : List Token → Parsed (Taken Stmt)) (guild : String)

/-- One member of a guild whose forge may have been read. -/
def readMember (forge : Option Forge) (ts : List Token) : Parsed (Taken GuildMember) :=
  let t := next eof ts
  if t.kind = .keyword .forge then do
    if forge.isSome then .error ⟨.secondForge guild, t.span⟩
    let (params, ts) ← readParams eof ts.tail
    let ((body, stop), ts) ← readBlock eof statement ts
    pure (.forge (.mk params body (t.span.through stop)), ts)
  else if t.kind = .keyword .don then do
    let (method, ts) ← FunctionDef.read eof statement ts
    pure (.method method, ts)
  else do
    let (field, ts) ← FieldDef.read eof ts
    let (_, ts) ← expect eof (.operator .semicolon) ts
    pure (.field field, ts)

/-- One turn of the loop over the members of a guild, and what it goes on with. -/
def memberTurn (loop : Option Forge → List Token → Parsed (Taken GuildBody))
    (forge : Option Forge) (ts : List Token) : Parsed (Taken GuildBody) :=
  if ts.isEmpty || starts (.operator .rbrace) ts then .ok (⟨[], forge, []⟩, ts)
  else do
    let (member, ts) ← readMember eof statement guild forge ts
    let (others, ts) ← loop (member.forgeAfter forge) ts
    pure (member.before others, ts)

theorem readMembers_succ (turns : Nat) :
    readMembers eof statement guild (turns + 1) =
      memberTurn eof statement guild (readMembers eof statement guild turns) := by
  funext forge ts
  unfold readMembers memberTurn readMember
  dsimp only
  split
  · rfl
  split
  · cases forge with
    | some forge => rfl
    | none => simp [GuildMember.before, GuildMember.forgeAfter, bind_assoc]
  split
  · simp [GuildMember.before, GuildMember.forgeAfter]
  · simp [GuildMember.before, GuildMember.forgeAfter, bind_assoc]

end Members

section Bodies

variable {m : Nat} {statement : List Token → Parsed (Taken Stmt)}
  {statement' : Tail M eof → List Token → Parsed (Taken Stmt)}
  (hstatement : ∀ us, us.length < m → ∀ σ : Tail M eof,
    Follows σ .noMore true true M.stmt us (statement us) (statement' σ (σ.before us)))
include hstatement

omit [M.Lawful] in
theorem follows_readBlock (hlength : ts.length ≤ m) :
    Follows σ n k true M.body ts (readBlock eof statement ts)
      (readBlock σ.stop (statement' σ) (σ.before ts)) :=
  (follows_operator ts).andThen fun _ us _ => (follows_items
    (fun vs _ => hstatement vs (by omega) σ) (Nat.lt_succ_self _)
    (Nat.succ_le_succ (σ.length_le us))).followed fun body vs _ =>
    (follows_operator vs).more fun stop _ _ => .ok rfl

theorem FunctionDef.follows_read (hlength : ts.length ≤ m) :
    Follows σ n k true M.function ts (FunctionDef.read eof statement ts)
      (FunctionDef.read σ.stop (statement' σ) (σ.before ts)) :=
  (follows_expect (.keyword .don) ts (Bool.and_false _)).andThen fun start us _ =>
    (follows_identifier us).andThen fun name us _ =>
    (follows_readParams us).andThen fun params us _ =>
    (follows_result us σ).followed fun result us _ =>
    (follows_readBlock hstatement (by omega)).more fun body _ _ => .ok (by simp)

theorem follows_readMember (guild : String) (forge : Option Forge) (hlength : ts.length ≤ m)
    (σ : Tail M eof) :
    Follows σ n true true M.member ts (readMember eof statement guild forge ts)
      (readMember σ.stop (statement' σ) guild (forge.map M.forge) (σ.before ts)) := by
  revert σ
  refine Follows.look (by cases n <;> decide : 1 ≤ Follows.ahead n true) fun σ hsees => ?_
  unfold readMember
  rw [hsees.next, hsees.tail]
  dsimp only
  rw [M.kind_token]
  split
  next hkind =>
    cases forge with
    | some forge => exact .error (fun _ => rfl) rfl rfl
    | none =>
      exact .skip (by simp [hkind]) fun _ => (follows_readParams _).andThen fun params us _ =>
        (follows_readBlock hstatement (by omega)).more fun body _ _ =>
          .ok (by simp [Moving.body, Moving.member])
  split
  · exact (FunctionDef.follows_read hstatement hlength).more fun method _ _ => .ok rfl
  · exact (FieldDef.follows_read ts).followed fun field us _ =>
      (follows_operator us).more fun _ _ _ => .ok rfl

/-- Members are read one by one, with at most one forge. -/
theorem follows_readMembers (guild : String) (forge : Option Forge) (hlength : ts.length ≤ m)
    (hless : ts.length < fuel) (hfuel : fuel ≤ fuel') :
    Follows σ .noMore false true M.members ts (readMembers eof statement guild fuel forge ts)
      (readMembers σ.stop (statement' σ) guild fuel' (forge.map M.forge) (σ.before ts)) := by
  induction fuel generalizing fuel' forge ts with
  | zero => exact absurd hless (Nat.not_lt_zero _)
  | succ fuel ih =>
    obtain ⟨fuel', rfl⟩ := Nat.exists_eq_add_one_of_ne_zero (Nat.ne_zero_of_lt hfuel)
    cases ts with
    | nil =>
      refine .stop fun hafter => ?_
      rw [show σ.before [] = [] from hafter]
      rfl
    | cons t rest =>
      have hsees : Sees 1 true σ (t :: rest) := .cons t rest
      rw [readMembers_succ, readMembers_succ]
      unfold memberTurn
      rw [hsees.isEmpty, hsees.starts]
      split
      · exact .ok rfl
      · refine (follows_readMember hstatement guild forge hlength σ).andThen fun member us _ => ?_
        cases member <;> exact (ih _ (by omega) (by omega) (by omega)).last fun _ _ _ => .ok rfl

theorem Stmt.follows_readGuild (start : Span) (hlength : ts.length ≤ m) :
    Follows σ n k true M.stmt ts (Stmt.readGuild eof statement start ts)
      (Stmt.readGuild σ.stop (statement' σ) (M.span start) (σ.before ts)) :=
  (follows_identifier ts).andThen fun name us _ => (follows_operator us).andThen fun _ us _ =>
    (follows_readMembers hstatement name.value none (by omega) (Nat.lt_succ_self _)
      (Nat.succ_le_succ (σ.length_le us))).followed fun body us _ =>
    (follows_operator us).more fun stop _ _ => .ok (by simp [Moving.members])

theorem Stmt.follows_readFor (start : Span) (hlength : ts.length ≤ m) :
    Follows σ n k true M.stmt ts (Stmt.readFor eof statement start ts)
      (Stmt.readFor σ.stop (statement' σ) (M.span start) (σ.before ts)) := by
  refine (follows_identifier ts).andThen fun iterator us _ =>
    (follows_expect (.keyword .in_) us (Bool.and_false _)).andThen fun _ us _ =>
    (Expr.follows_read us).followed fun first us _ => ?_
  cases us with
  | nil =>
    refine .error (fun hends => ?_) rfl rfl
    rw [show σ.before [] = [] from hends.1, hends.2]
    rfl
  | cons t rest =>
    have hsees : Sees 1 true σ (t :: rest) := .cons t rest
    dsimp only
    rw [hsees.starts, hsees.starts, hsees.tail]
    iterate 2
      split
      next h =>
        exact .skip (by simp [kind_of_starts h]) fun _ => (Expr.follows_read _).followed
          fun high us _ => (follows_readBlock hstatement (by omega)).more
          fun body _ _ => .ok (by simp [Moving.body])
    · exact (follows_readBlock hstatement (by omega)).more fun body _ _ =>
        .ok (by simp [Moving.body])

end Bodies

namespace Stmt

theorem follows_finish {start start' : Span} {build build' : Span → Stmt}
    (hstart : start' = M.span start) (hbuild : ∀ span, build' (M.span span) = M.stmt (build span))
    (ts : List Token) :
    Follows σ n k true M.stmt ts (finish eof start build ts)
      (finish σ.stop start' build' (σ.before ts)) := by
  refine (follows_operator ts).more fun stop _ _ => .ok ?_
  rw [hstart, ← hbuild, Moving.Lawful.through, M.span_token]

theorem follows_readDeclare (mutable : Bool) (start : Span) (ts : List Token) :
    Follows σ n k true M.stmt ts (readDeclare eof mutable start ts)
      (readDeclare σ.stop mutable (M.span start) (σ.before ts)) :=
  (follows_readTyped ts).followed fun _ us _ => (follows_operator us).andThen fun _ us _ =>
    (Expr.follows_read us).followed fun _ us _ => follows_finish rfl (by simp) us

theorem follows_readMatter (start : Span) (ts : List Token) :
    Follows σ n k true M.stmt ts (readMatter eof start ts)
      (readMatter σ.stop (M.span start) (σ.before ts)) :=
  (follows_identifier ts).andThen fun name us _ => (follows_operator us).andThen fun _ us _ =>
    (follows_items (fun vs _ => follows_readMatterField vs σ) (Nat.lt_succ_self _)
      (Nat.succ_le_succ (σ.length_le us))).followed fun fields us _ =>
    (follows_operator us).more fun stop _ _ => .ok (by simp)

theorem follows_readSimple (ts : List Token) (σ : Tail M eof) :
    Follows σ .nothing true true M.stmt ts (readSimple eof ts)
      (readSimple σ.stop (σ.before ts)) := by
  revert σ
  refine Follows.look (Nat.le_refl 1) fun σ hsees => ?_
  unfold readSimple
  rw [hsees.next]
  refine (Expr.follows_read ts).followed fun target us _ => ?_
  clear hsees
  revert σ
  refine Follows.look (Nat.le_refl 1) fun σ hsees => ?_
  dsimp only
  rw [hsees.next, hsees.tail, M.kind_token]
  generalize hkind : (next eof us).kind = kind
  split
  · exact .skip (by simp [hkind]) fun _ => (Expr.follows_read _).followed fun _ us _ =>
      follows_finish rfl (by simp) us
  iterate 2 exact .skip (by simp [hkind]) fun _ => follows_finish rfl (by simp) _
  · cases target with
    | call callee args span =>
      rw [Moving.Lawful.call]
      exact follows_finish rfl (by simp) us
    | _ => exact .error (fun _ => by simp [Moving.fault]) rfl rfl

/-- What a `return` goes on with. -/
theorem follows_returned (start : Span) (ts : List Token) (σ : Tail M eof) :
    Follows σ .nothing true true M.stmt ts
      (if starts (.operator .semicolon) ts then finish eof start (.return_ none) ts
      else do
        let (value, ts) ← Expr.read eof ts
        finish eof start (.return_ (some value)) ts)
      (if starts (.operator .semicolon) (σ.before ts) then
        finish σ.stop (M.span start) (.return_ none) (σ.before ts)
      else do
        let (value, ts) ← Expr.read σ.stop (σ.before ts)
        finish σ.stop (M.span start) (.return_ (some value)) ts) := by
  revert σ
  refine Follows.look (Nat.le_refl 1) fun σ hsees => ?_
  rw [hsees.starts]
  split
  · exact follows_finish rfl (by simp) ts
  · exact (Expr.follows_read ts).followed fun _ us _ => follows_finish rfl (by simp) us

/-- The readers of statements with enough fuel for their tokens. Only an `else` goes on with a
statement that has ended. -/
structure Followed (M : Moving) (eof : Token) (fuel fuel' : Nat) : Prop where
  readWith {ts : List Token} (hlength : ts.length < fuel) (σ : Tail M eof) :
    Follows σ .noElse true true M.stmt ts (readWith eof fuel ts)
      (readWith σ.stop fuel' (σ.before ts))
  readBranch {ts : List Token} (hlength : ts.length < fuel) (σ : Tail M eof) :
    Follows σ .noElse true true M.arms ts (readBranch eof fuel ts)
      (readBranch σ.stop fuel' (σ.before ts))

omit [M.Lawful] in
theorem Followed.inner (ih : Followed M eof fuel fuel') (us : List Token)
    (hlength : us.length < fuel) (σ : Tail M eof) :
    Follows σ .noMore true true M.stmt us (Stmt.readWith eof fuel us)
      (Stmt.readWith σ.stop fuel' (σ.before us)) :=
  (ih.readWith hlength σ).relax (fun _ h => by rw [show _ = [] from h]; rfl) (fun h => h) fun h => h

/-- An `else` goes on with a branch. -/
theorem Followed.branch (ih : Followed M eof fuel fuel') (hlength : ts.length < fuel + 1)
    (σ : Tail M eof) :
    Follows σ .noElse true true M.arms ts (Stmt.readBranch eof (fuel + 1) ts)
      (Stmt.readBranch σ.stop (fuel' + 1) (σ.before ts)) := by
  refine (Expr.follows_read ts).followed fun test us _ =>
    (follows_readBlock ih.inner (by omega)).andThen fun body us _ => ?_
  cases us with
  | nil =>
    refine .stop fun helse => ?_
    dsimp only
    rw [show starts (.keyword .else_) (σ.before []) = false from helse]
    simp [Moving.arms, Moving.body]
    rfl
  | cons t rest =>
    have hsees : Sees 1 true σ (t :: rest) := .cons t rest
    dsimp only
    rw [hsees.starts, hsees.tail]
    split
    next helse =>
      refine .skip (by simp [kind_of_starts helse]) fun htail => Follows.lax ?_
      clear hsees
      revert σ
      refine Follows.look (Nat.le_refl 1) fun σ hsees => ?_
      rw [hsees.next, hsees.tail, M.kind_token]
      split
      next hkind =>
        exact .skip (by rw [hkind]; simp) fun _ => (ih.readBranch (by omega) σ).more
          fun inner _ _ => .ok (by simp [Moving.arms, Moving.body])
      · exact (follows_readBlock ih.inner (by omega)).more fun _ _ _ =>
          .ok (by simp [Moving.arms, Moving.body])
    · exact .ok (by simp [Moving.arms, Moving.body])

theorem Followed.statement (ih : Followed M eof fuel fuel') (hlength : ts.length < fuel + 1)
    (σ : Tail M eof) :
    Follows σ .noElse true true M.stmt ts (Stmt.readWith eof (fuel + 1) ts)
      (Stmt.readWith σ.stop (fuel' + 1) (σ.before ts)) := by
  revert σ
  refine Follows.look (Nat.le_refl 1) fun σ hsees => ?_
  have hlength := Nat.le_of_lt_succ hlength
  unfold Stmt.readWith
  rw [hsees.next, hsees.tail]
  dsimp only
  rw [M.kind_token, M.span_token]
  generalize hkind : (next eof ts).kind = kind
  split
  · exact .skip (by simp [hkind]) fun _ => follows_readDeclare true _ _
  · exact .skip (by simp [hkind]) fun _ => follows_readDeclare false _ _
  · exact (FunctionDef.follows_read ih.inner hlength).more fun _ _ _ => .ok (by simp)
  · exact .skip (by simp [hkind]) fun _ => follows_readMatter _ _
  · exact .skip (by simp [hkind]) fun _ => follows_readGuild ih.inner _ (by omega)
  · exact .skip (by simp [hkind]) fun _ => (Expr.follows_read _).followed fun value us _ =>
      follows_finish rfl (by simp) us
  · exact .skip (by simp [hkind]) fun _ => (follows_returned _ _ σ).any
  · exact .skip (by simp [hkind]) fun _ => (ih.readBranch (by omega) σ).more fun arms _ _ =>
      .ok (by simp [Moving.arms])
  iterate 2
    exact .skip (by simp [hkind]) fun _ => (Expr.follows_read _).followed fun test us _ =>
      (follows_readBlock ih.inner (by omega)).more fun body _ _ => .ok (by simp [Moving.body])
  · exact .skip (by simp [hkind]) fun _ => follows_readFor ih.inner _ (by omega)
  · exact .skip (by simp [hkind]) fun _ => follows_finish rfl (by simp) _
  · exact (follows_readSimple ts σ).any

theorem followed (hfuel : fuel ≤ fuel') : Followed M eof fuel fuel' := by
  induction fuel generalizing fuel' with
  | zero => exact ⟨fun h => absurd h (Nat.not_lt_zero _), fun h => absurd h (Nat.not_lt_zero _)⟩
  | succ fuel ih =>
    obtain ⟨fuel', rfl⟩ := Nat.exists_eq_add_one_of_ne_zero (Nat.ne_zero_of_lt hfuel)
    have ih := ih (Nat.le_of_succ_le_succ hfuel)
    exact ⟨ih.statement, ih.branch⟩

end Stmt

/-- The statements of a program. -/
theorem follows_statements {nesting nesting' : Nat} (hlength : ts.length < fuel)
    (hfuel : fuel ≤ fuel') (hdeep : ts.length < nesting) (hnesting : nesting ≤ nesting')
    (σ : Tail M eof) :
    Follows σ .noMore false true (List.map M.stmt) ts
      (items eof .eof (Stmt.readWith eof nesting) fuel ts)
      (items σ.stop .eof (Stmt.readWith σ.stop nesting') fuel' (σ.before ts)) :=
  follows_items (fun us _ => (Stmt.followed hnesting).inner us (by omega) σ) hlength hfuel

end Dragon.Tree
