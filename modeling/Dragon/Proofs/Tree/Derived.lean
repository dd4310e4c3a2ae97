import Dragon.Proofs.Tree.Grammar

/-!
# What is read as an expression is derived by the grammar

The powers of the operators and the levels of the grammar are compared once, in tables; the readings
are then followed with the level that the next token asks of what has been read.
-/
namespace Dragon.Tree

variable {α β ρ : Type} {eof t : Token} {ts rest used : List Token}

/-! ### Steps of a reading -/

theorem bind_eq_ok {ε : Type} {r : Except ε α} {f : α → Except ε β} {b : β}
    (h : (r >>= f) = .ok b) :
    ∃ a, r = .ok a ∧ f a = .ok b := by
  cases r with
  | error fault => cases h
  | ok a => exact ⟨a, rfl, h⟩

theorem expect_eq_ok {kind : Kind} (h : expect eof kind ts = .ok (t, rest)) :
    ts = t :: rest ∧ t.kind = kind := by
  cases ts with
  | nil => cases h
  | cons first others =>
    rw [expect] at h
    split at h
    next hkind =>
      cases h
      exact ⟨rfl, hkind⟩
    next => cases h

/-! ### Items -/

section Items

variable {close : Kind} {item : List Token → Parsed (Taken α)}
  {tokens : ρ → List Token} {value : ρ → β} {bare : α → β} {Good : ρ → Prop}

/-- If an item is what a run has as its value, so are items one by one. -/
theorem items_derived {fuel : Nat} {as : List α}
    (hitem : ∀ ts a rest, item ts = .ok (a, rest) →
      ∃ r, Good r ∧ ts = tokens r ++ rest ∧ value r = bare a)
    (h : items eof close item fuel ts = .ok (as, rest)) :
    ∃ rs : List ρ, (∀ r ∈ rs, Good r) ∧ ts = rs.flatMap tokens ++ rest ∧
      rs.map value = as.map bare := by
  induction fuel generalizing ts as with
  | zero => cases h
  | succ fuel ih =>
    unfold items at h
    split at h
    · cases h
      exact ⟨[], by simp⟩
    · obtain ⟨⟨a, ts₁⟩, ha, h⟩ := bind_eq_ok h
      obtain ⟨⟨others, ts₂⟩, hothers, h⟩ := bind_eq_ok h
      cases h
      obtain ⟨r, hr, rfl, hvalue⟩ := hitem _ _ _ ha
      obtain ⟨rs, hrs, rfl, hvalues⟩ := ih hothers
      exact ⟨r :: rs, by simpa [hr] using hrs, by simp, by simp [hvalue, hvalues]⟩

theorem joined_of_commas {rs : List (Token × ρ)} (r : ρ)
    (h : ∀ p ∈ rs, p.1.kind = .operator .comma) :
    Joined ((r :: rs.map Prod.snd).map tokens)
      (tokens r ++ rs.flatMap fun p => p.1 :: tokens p.2) := by
  induction rs generalizing r with
  | nil => simpa using Joined.one (tokens r)
  | cons p rs ih =>
    obtain ⟨comma, next⟩ := p
    have hcomma : comma.kind = .operator .comma := h (comma, next) List.mem_cons_self
    have hrest := ih next fun p hp => h p (List.mem_cons_of_mem _ hp)
    simpa using Joined.more hcomma hrest

/-- Items between commas are derived one by one. -/
theorem separated_derived {as : List α}
    (hitem : ∀ ts a rest, item ts = .ok (a, rest) →
      ∃ r, Good r ∧ ts = tokens r ++ rest ∧ value r = bare a)
    (h : separated eof close item ts = .ok (as, rest)) :
    ∃ (rs : List ρ) (inner : List Token), (∀ r ∈ rs, Good r) ∧ Joined (rs.map tokens) inner ∧
      ts = inner ++ rest ∧ rs.map value = as.map bare := by
  unfold separated at h
  split at h
  · cases h
    exact ⟨[], [], by simp, .none, rfl, rfl⟩
  · obtain ⟨⟨a, ts₁⟩, ha, h⟩ := bind_eq_ok h
    obtain ⟨⟨others, ts₂⟩, hothers, h⟩ := bind_eq_ok h
    cases h
    obtain ⟨r, hr, rfl, hvalue⟩ := hitem _ _ _ ha
    -- An item after a comma is a run that the comma goes with.
    have hafter : ∀ ts a rest, afterComma eof item ts = .ok (a, rest) →
        ∃ p : Token × ρ, (p.1.kind = .operator .comma ∧ Good p.2) ∧
          ts = (p.1 :: tokens p.2) ++ rest ∧ value p.2 = bare a := by
      intro ts a rest h
      obtain ⟨⟨comma, ts'⟩, hexpect, hread⟩ := bind_eq_ok h
      obtain ⟨rfl, hcomma⟩ := expect_eq_ok hexpect
      obtain ⟨r, hr, rfl, hvalue⟩ := hitem _ _ _ hread
      exact ⟨(comma, r), ⟨hcomma, hr⟩, rfl, hvalue⟩
    obtain ⟨rs, hrs, rfl, hvalues⟩ := items_derived hafter hothers
    have hjoined : Joined ((r :: rs.map Prod.snd).map tokens)
        (tokens r ++ rs.flatMap fun p => p.1 :: tokens p.2) :=
      joined_of_commas r fun p hp => (hrs p hp).1
    have hgood : ∀ r' ∈ r :: rs.map Prod.snd, Good r' := by
      simpa [hr] using fun r comma hmem => (hrs (comma, r) hmem).2
    exact ⟨r :: rs.map Prod.snd, _, hgood, hjoined, by simp,
      by simpa [hvalue, Function.comp_def] using hvalues⟩

end Items

/-! ### Types -/

theorem TypeExpr.isFunction_bare (t : TypeExpr) : t.bare.isFunction = t.isFunction := by
  cases t <;> rfl

/-- What follows a type is no question mark. -/
def Unmarked (ts : List Token) : Prop := ∀ t ∈ ts.head?, t.kind ≠ .operator .question

theorem TypeExpr.optionals_derived {base type : TypeExpr} (hbase : DerivesType used base.bare)
    (hfunction : base.isFunction = false) (h : base.optionals ts = (type, rest)) :
    ∃ marks, ts = marks ++ rest ∧ DerivesType (used ++ marks) type.bare ∧ Unmarked rest := by
  induction ts generalizing base used with
  | nil =>
    cases h
    exact ⟨[], rfl, by simpa using hbase, by simp [Unmarked]⟩
  | cons t others ih =>
    rw [optionals] at h
    split at h
    next hmark =>
      have hoptional := DerivesType.optional hbase (by rw [isFunction_bare, hfunction]) hmark
      obtain ⟨marks, rfl, htype, hrest⟩ := ih hoptional rfl h
      exact ⟨t :: marks, rfl, by simpa using htype, hrest⟩
    next hmark =>
      cases h
      exact ⟨[], rfl, by simpa using hbase, by simpa [Unmarked] using hmark⟩

theorem TypeExpr.optionals_of_unmarked {base : TypeExpr} (h : Unmarked ts) :
    base.optionals ts = (base, ts) := by
  cases ts with
  | nil => rfl
  | cons t others =>
    have ht : t.kind ≠ .operator .question := h t rfl
    rw [optionals, if_neg ht]

/-- What is read as a type is derived, and no question mark is left behind it. -/
theorem TypeExpr.readWith_derived {fuel : Nat} {type : TypeExpr} (heof : eof.kind = .eof)
    (h : TypeExpr.readWith eof fuel ts = .ok (type, rest)) :
    ∃ used, ts = used ++ rest ∧ DerivesType used type.bare ∧ Unmarked rest := by
  induction fuel generalizing ts type rest with
  | zero => cases h
  | succ fuel ih =>
    unfold TypeExpr.readWith at h
    obtain ⟨⟨base, ts₁⟩, hbase, h⟩ := bind_eq_ok h
    have hoptionals : base.optionals ts₁ = (type, rest) := Except.ok.inj h
    cases ts with
    | nil => simp [next, heof] at hbase
    | cons start others =>
      dsimp only [next, List.tail_cons] at hbase
      split at hbase
      next hstart =>
        cases hbase
        obtain ⟨marks, rfl, htype, hrest⟩ :=
          optionals_derived (.named hstart) rfl hoptionals
        exact ⟨start :: marks, rfl, htype, hrest⟩
      next hstart =>
        obtain ⟨⟨element, ts₂⟩, helement, hbase⟩ := bind_eq_ok hbase
        obtain ⟨⟨stop, ts₃⟩, hexpect, hbase⟩ := bind_eq_ok hbase
        cases hbase
        obtain ⟨inner, rfl, hinner, -⟩ := ih helement
        obtain ⟨rfl, hstop⟩ := expect_eq_ok hexpect
        obtain ⟨marks, rfl, htype, hrest⟩ :=
          optionals_derived (DerivesType.list hstart hinner hstop) rfl hoptionals
        exact ⟨start :: (inner ++ [stop]) ++ marks, by simp, htype, hrest⟩
      next hstart =>
        obtain ⟨⟨params, ts₂⟩, hparams, hbase⟩ := bind_eq_ok hbase
        obtain ⟨⟨stop, ts₃⟩, hexpect, hbase⟩ := bind_eq_ok hbase
        obtain ⟨⟨arrow, ts₄⟩, hexpect', hbase⟩ := bind_eq_ok hbase
        obtain ⟨⟨result, ts₅⟩, hresult, hbase⟩ := bind_eq_ok hbase
        cases hbase
        have hitem : ∀ ts t rest, TypeExpr.readWith eof fuel ts = .ok (t, rest) →
            ∃ p : List Token × TypeExpr, DerivesType p.1 p.2 ∧ ts = p.1 ++ rest ∧
              p.2 = t.bare := by
          intro ts t rest h
          obtain ⟨used, hused, ht, -⟩ := ih h
          exact ⟨(used, t.bare), ht, hused, rfl⟩
        obtain ⟨runs, inner, hruns, hinner, rfl, hvalues⟩ := separated_derived hitem hparams
        obtain ⟨rfl, hstop⟩ := expect_eq_ok hexpect
        obtain ⟨rfl, harrow⟩ := expect_eq_ok hexpect'
        obtain ⟨used, rfl, hused, hrest⟩ := ih hresult
        -- The result has taken the question marks.
        rw [optionals_of_unmarked hrest] at hoptionals
        cases hoptionals
        refine ⟨start :: (inner ++ stop :: arrow :: used), by simp, ?_, hrest⟩
        rw [TypeExpr.bare, bareTypes_eq_map, ← hvalues]
        exact .function hstart hruns hinner hstop harrow hused
      next => cases hbase

/-! ### Powers and levels -/

theorem unaryOp?_eq_unary? (k : Kind) : unaryOp? k = unary? k := rfl

/-- The left power of a token that continues an expression. -/
def leftPower? : Kind → Option Nat
  | .operator .dot | .operator .questionDot | .operator .lparen | .operator .lbracket =>
    some postfixPower
  | .operator .question => some ternaryPower
  | .operator o => (infix? o).map Infix.left
  | _ => none

/-- The level of an expression that a token can continue. -/
def before? : Kind → Option Level
  | .operator .dot | .operator .questionDot | .operator .lparen | .operator .lbracket
  | .operator .power => some .primary
  | .operator .question => some .coalesce
  | .operator .coalesce | .operator .or => some .or
  | .operator .and => some .and
  | .operator .equal | .operator .notEqual | .operator .less | .operator .greater
  | .operator .lessEqual | .operator .greaterEqual => some .comparison
  | .operator .plus | .operator .minus => some .additive
  | .operator .star | .operator .slash => some .multiplicative
  | _ => none

/-- The level of what is read with a power. -/
def levelOf (power : Nat) : Level :=
  if power ≤ 2 then .ternary
  else if power ≤ 4 then .coalesce
  else if power ≤ 5 then .or
  else if power ≤ 7 then .and
  else if power ≤ 9 then .comparison
  else if power ≤ 11 then .additive
  else if power ≤ 13 then .multiplicative
  else .unary

theorem levelOf_of_gt {p : Nat} (h : 13 < p) : levelOf p = .unary := by
  unfold levelOf
  repeat rw [if_neg (by omega)]

theorem rank_levelOf_le_unary (p : Nat) : (levelOf p).rank ≤ Level.unary.rank := by
  by_cases h : p < 14
  · revert p
    decide
  · have hlevel : levelOf p = .unary := levelOf_of_gt (by omega)
    exact Nat.le_of_eq (congrArg Level.rank hlevel)

theorem rank_levelOf_le {p q : Nat} (h : p ≤ q) : (levelOf p).rank ≤ (levelOf q).rank := by
  induction h with
  | refl => exact Nat.le_refl _
  | @step q _ ih =>
    by_cases hq : q < 14
    · have hstep : ∀ q < 14, (levelOf q).rank ≤ (levelOf (q + 1)).rank := by decide
      exact Nat.le_trans ih (hstep q hq)
    · rw [levelOf_of_gt (p := q + 1) (by omega)]
      exact rank_levelOf_le_unary p

theorem leftPower?_of_infix? {o : Operator} {i : Infix} (h : infix? o = some i) :
    leftPower? (.operator o) = some i.left := by
  cases o <;> cases h <;> rfl

theorem two_le_leftPower {k : Kind} {q : Nat} (h : leftPower? k = some q) : 2 ≤ q := by
  unfold leftPower? at h
  split at h
  case h_6 o _ _ _ _ _ => cases o <;> cases h <;> decide
  case h_7 => cases h
  all_goals cases h; decide

theorem rank_before_le_primary {k : Kind} {l : Level} (h : before? k = some l) :
    l.rank ≤ Level.primary.rank := by
  unfold before? at h
  split at h
  all_goals cases h
  all_goals decide

theorem exists_leftPower {k : Kind} {l : Level} (h : before? k = some l) :
    ∃ q, leftPower? k = some q ∧ (q < unaryPower → l.rank ≤ Level.unary.rank) := by
  unfold before? at h
  split at h
  all_goals cases h
  all_goals exact ⟨_, rfl, by decide⟩

/-- The left powers of chains are odd, and the levels change above odd powers. -/
theorem rank_before_le {k : Kind} {l : Level} {q : Nat} (hl : before? k = some l)
    (hq : leftPower? k = some q) (hlt : q < 16) :
    l.rank ≤ (levelOf (q + 1 - q % 2)).rank := by
  unfold before? at hl
  split at hl
  all_goals cases hl
  all_goals cases hq
  all_goals revert hlt; decide

theorem round_le_left {o : Operator} {i : Infix} {q : Nat} (h : infix? o = some i)
    (hq : q < i.right) : q < 16 ∧ q + 1 - q % 2 ≤ i.left := by
  cases o <;> cases h <;> simp only [Infix.binary] at hq ⊢ <;> omega

theorem before?_of_infix? {o : Operator} {i : Infix} (h : infix? o = some i) :
    ∃ l, before? (.operator o) = some l := by
  cases o <;> cases h <;> exact ⟨_, rfl⟩

/-- An operator with operands of the levels that its powers stand for. -/
theorem Derives.operation {o : Operator} {i : Infix} {l : Level} {b b' : Bool}
    {used' : List Token} {left right : Expr} (hi : infix? o = some i)
    (hl : before? (.operator o) = some l) (ht : t.kind = .operator o)
    (h : Derives l b used left.bare) (h' : Derives (levelOf i.right) b' used' right.bare)
    (span : Span) :
    Derives (levelOf i.left) b' (used ++ t :: used') (i.build left right span).bare := by
  cases o <;> cases hi <;> cases hl
  case coalesce => exact .coalesce h ht h'
  case power => exact .pass (.power h ht h')
  all_goals exact .chain rfl h ht h'

/-! ### Expressions -/

/-- The next token does not continue what is read with a power, nor a type at its end. -/
def Ends (power : Nat) (isOpen : Bool) (rest : List Token) : Prop :=
  ∀ t ∈ rest.head?, (∀ q, leftPower? t.kind = some q → q < power) ∧
    (t.kind = .operator .question → isOpen = false)

/-- What has been read has the level that the next token asks for. -/
def Fits (isOpen : Bool) (used : List Token) (e : Expr) (rest : List Token) : Prop :=
  ∀ t ∈ rest.head?, (∀ l, before? t.kind = some l → Derives l isOpen used e) ∧
    (t.kind = .operator .question → isOpen = false)

/-- What is read with a power from tokens is derived, and ends where nothing continues it. -/
def Derived (power : Nat) (ts : List Token) (e : Expr) (rest : List Token) : Prop :=
  ∃ isOpen used, ts = used ++ rest ∧ Derives (levelOf power) isOpen used e.bare ∧
    Ends power isOpen rest

variable {b : Bool} {e : Expr}

theorem fits_of_primary (h : Derives .primary b used e) (hopen : b = true → Unmarked rest) :
    Fits b used e rest := by
  intro t ht
  constructor
  · intro l hl
    exact h.loosen (rank_before_le_primary hl)
  · intro hmark
    by_cases hb : b = true
    · exact absurd hmark (hopen hb t ht)
    · simpa using hb

theorem fits_of_unary (h : Derives .unary b used e) (hends : Ends unaryPower b rest) :
    Fits b used e rest := by
  intro t ht
  refine ⟨fun l hl => h.loosen ?_, (hends t ht).2⟩
  obtain ⟨q, hq, hle⟩ := exists_leftPower hl
  exact hle ((hends t ht).1 q hq)

theorem fits_of_operation {o : Operator} {i : Infix} (hi : infix? o = some i)
    (h : Derives (levelOf i.left) b used e) (hends : Ends i.right b rest) :
    Fits b used e rest := by
  intro t ht
  refine ⟨fun l hl => h.loosen ?_, (hends t ht).2⟩
  obtain ⟨q, hq, -⟩ := exists_leftPower hl
  obtain ⟨hlt, hround⟩ := round_le_left hi ((hends t ht).1 q hq)
  exact Nat.le_trans (rank_before_le hl hq hlt) (rank_levelOf_le hround)

/-- Nothing continues a choice by a condition. -/
theorem fits_of_ternary (hends : Ends ternaryPower b rest) : Fits b used e rest := by
  intro t ht
  refine ⟨fun l hl => ?_, (hends t ht).2⟩
  obtain ⟨q, hq, -⟩ := exists_leftPower hl
  have hlt : q < 2 := (hends t ht).1 q hq
  have hle := two_le_leftPower hq
  omega

namespace Expr

/-- What the readings of expressions with some fuel are derived by. -/
structure Sound (eof : Token) (fuel : Nat) : Prop where
  readWith : ∀ {power ts e rest}, Expr.readWith eof fuel power ts = .ok (e, rest) →
    Derived power ts e rest
  readMore : ∀ {power left used isOpen ts e rest}, Derives (levelOf power) isOpen used left.bare →
    Fits isOpen used left.bare ts → Expr.readMore eof fuel power left ts = .ok (e, rest) →
    Derived power (used ++ ts) e rest
  readOperand : ∀ {ts e rest}, Expr.readOperand eof fuel ts = .ok (e, rest) →
    ∃ isOpen used, ts = used ++ rest ∧ Derives .unary isOpen used e.bare ∧
      Fits isOpen used e.bare rest
  readArgument : ∀ ts a rest, Expr.readArgument eof fuel ts = .ok (a, rest) →
    ∃ r : Labelled, (r.Labels ∧ Derives .ternary r.run.isOpen r.run.tokens r.run.expr) ∧
      ts = r.tokens ++ rest ∧ r.argument = a.bare
  readPart : ∀ ts e rest, Expr.readPart eof fuel ts = .ok (e, rest) →
    ∃ p : Fragment, (p.Marked ∧ ∀ run, p.run? = some run →
        Derives .ternary run.isOpen run.tokens run.expr) ∧
      ts = p.tokens ++ rest ∧ p.expr = e.bare

variable {fuel power : Nat} {left : Expr}

/-- A call, a subscript or a member goes on as what it continues did. -/
theorem Sound.afterPrimary (ih : Sound eof fuel) {more ts' : List Token} {left' : Expr}
    (h : Derives .primary false (used ++ more) left'.bare) (hts : ts = more ++ ts')
    (hmore : Expr.readMore eof fuel power left' ts' = .ok (e, rest)) :
    Derived power (used ++ ts) e rest := by
  have hlevel := h.loosen (Nat.le_trans (rank_levelOf_le_unary power) (by decide))
  rw [hts, ← List.append_assoc]
  exact ih.readMore hlevel (fits_of_primary h nofun) hmore

section Continuation

variable {t : Token} {others ts₁ ts₂ ts₃ : List Token} {span : Span}

theorem Sound.member (ih : Sound eof fuel) {symbol : Operator} {access : Access} {name : Token}
    (haccess : access? symbol = some access) (ht : t.kind = .operator symbol)
    (hleft : Derives .primary b used left.bare)
    (hname : expect eof .identifier others = .ok (name, ts₁))
    (h : Expr.readMore eof fuel power (.member left access name.value span) ts₁ = .ok (e, rest)) :
    Derived power (used ++ t :: others) e rest := by
  obtain ⟨hothers, hkind⟩ := expect_eq_ok hname
  have hmember := Derives.member haccess hleft ht hkind
  exact ih.afterPrimary hmember (by simp [hothers]) h

theorem Sound.call (ih : Sound eof fuel) {args : List Argument} {stop : Token}
    (ht : t.kind = .operator .lparen) (hleft : Derives .primary b used left.bare)
    (hargs : separated eof (.operator .rparen) (Expr.readArgument eof fuel) others =
      .ok (args, ts₁))
    (hstop : expect eof (.operator .rparen) ts₁ = .ok (stop, ts₂))
    (h : Expr.readMore eof fuel power (.call left args span) ts₂ = .ok (e, rest)) :
    Derived power (used ++ t :: others) e rest := by
  obtain ⟨hts₁, hkind⟩ := expect_eq_ok hstop
  obtain ⟨rs, inner, hrs, hinner, hothers, hvalues⟩ := separated_derived ih.readArgument hargs
  have hcall := Derives.call hleft ht (fun r hr => (hrs r hr).1) (fun r hr => (hrs r hr).2)
    hinner hkind
  rw [hvalues, ← bareArguments_eq_map] at hcall
  exact ih.afterPrimary hcall (by simp [hothers, hts₁]) h

theorem Sound.index (ih : Sound eof fuel) {subscript : Expr} {stop : Token}
    (ht : t.kind = .operator .lbracket) (hleft : Derives .primary b used left.bare)
    (hsubscript : Expr.readWith eof fuel 0 others = .ok (subscript, ts₁))
    (hstop : expect eof (.operator .rbracket) ts₁ = .ok (stop, ts₂))
    (h : Expr.readMore eof fuel power (.index left subscript span) ts₂ = .ok (e, rest)) :
    Derived power (used ++ t :: others) e rest := by
  obtain ⟨hts₁, hkind⟩ := expect_eq_ok hstop
  obtain ⟨isOpen, inner, hothers, hinner, -⟩ := ih.readWith hsubscript
  have hindex := Derives.index hleft ht hinner hkind
  exact ih.afterPrimary hindex (by simp [hothers, hts₁]) h

theorem Sound.ternary (ih : Sound eof fuel) {consequent alternate : Expr} {colon : Token}
    (ht : t.kind = .operator .question) (hpower : power ≤ ternaryPower)
    (hleft : Derives .coalesce false used left.bare)
    (hconsequent : Expr.readWith eof fuel 0 others = .ok (consequent, ts₁))
    (hcolon : expect eof (.operator .colon) ts₁ = .ok (colon, ts₂))
    (halternate : Expr.readWith eof fuel ternaryPower ts₂ = .ok (alternate, ts₃))
    (h : Expr.readMore eof fuel power (.ternary left consequent alternate span) ts₃ =
      .ok (e, rest)) :
    Derived power (used ++ t :: others) e rest := by
  obtain ⟨hts₁, hkind⟩ := expect_eq_ok hcolon
  obtain ⟨isOpen, used₁, hothers, hused₁, -⟩ := ih.readWith hconsequent
  obtain ⟨isOpen', used₂, hts₂, hused₂, hends⟩ := ih.readWith halternate
  have hternary := Derives.ternary hleft ht hused₁ hkind hused₂
  have hlevel := hternary.loosen (rank_levelOf_le hpower)
  -- The alternate has been read as far as it goes, so the choice ends here too.
  have hderived := ih.readMore hlevel (fits_of_ternary hends) h
  simpa [hothers, hts₁, hts₂] using hderived

theorem Sound.operation (ih : Sound eof fuel) {o : Operator} {i : Infix} {l : Level}
    {right : Expr} (hi : infix? o = some i) (hl : before? (.operator o) = some l)
    (ht : t.kind = .operator o) (hpower : power ≤ i.left) (hleft : Derives l b used left.bare)
    (hright : Expr.readWith eof fuel i.right others = .ok (right, ts₁))
    (h : Expr.readMore eof fuel power (i.build left right span) ts₁ = .ok (e, rest)) :
    Derived power (used ++ t :: others) e rest := by
  obtain ⟨isOpen, used', hothers, hused', hends⟩ := ih.readWith hright
  -- What stops the right operand asks for no tighter level than that of the operation.
  have hoperation := Derives.operation hi hl ht hleft hused' span
  have hlevel := hoperation.loosen (rank_levelOf_le hpower)
  have hderived := ih.readMore hlevel (fits_of_operation hi hoperation hends) h
  simpa [hothers] using hderived

end Continuation

/-- Operators continue what was read as far as their powers allow. -/
theorem Sound.more (ih : Sound eof fuel) (hleft : Derives (levelOf power) b used left.bare)
    (hfits : Fits b used left.bare ts)
    (h : Expr.readMore eof (fuel + 1) power left ts = .ok (e, rest)) :
    Derived power (used ++ ts) e rest := by
  cases ts with
  | nil =>
    cases h
    exact ⟨b, used, rfl, hleft, by simp [Ends]⟩
  | cons t others =>
    obtain ⟨hbefore, hmark⟩ := hfits t rfl
    have hstop (hpower : ∀ q, leftPower? t.kind = some q → q < power) :
        Derived power (used ++ t :: others) left (t :: others) :=
      ⟨b, used, rfl, hleft, by simpa [Ends] using ⟨hpower, hmark⟩⟩
    have hpass {q : Nat} {more : Parsed (Taken Expr)} (hq : leftPower? t.kind = some q)
        (h : (if q < power then .ok (left, t :: others) else more) = .ok (e, rest))
        (hmore : power ≤ q → more = .ok (e, rest) → Derived power (used ++ t :: others) e rest) :
        Derived power (used ++ t :: others) e rest := by
      split at h
      next hlt =>
        cases h
        exact hstop (by simpa [hq] using hlt)
      next hlt => exact hmore (Nat.le_of_not_lt hlt) h
    unfold Expr.readMore at h
    dsimp only at h
    split at h
    iterate 2
      next ht =>
        refine hpass (by rw [ht]; rfl) h fun _ h => ?_
        obtain ⟨⟨name, ts₁⟩, hname, h⟩ := bind_eq_ok h
        exact ih.member rfl ht (hbefore .primary (by rw [ht]; rfl)) hname h
    next ht =>
      refine hpass (by rw [ht]; rfl) h fun _ h => ?_
      obtain ⟨⟨args, ts₁⟩, hargs, h⟩ := bind_eq_ok h
      obtain ⟨⟨stop, ts₂⟩, hclose, h⟩ := bind_eq_ok h
      exact ih.call ht (hbefore .primary (by rw [ht]; rfl)) hargs hclose h
    next ht =>
      refine hpass (by rw [ht]; rfl) h fun _ h => ?_
      obtain ⟨⟨subscript, ts₁⟩, hsubscript, h⟩ := bind_eq_ok h
      obtain ⟨⟨stop, ts₂⟩, hclose, h⟩ := bind_eq_ok h
      exact ih.index ht (hbefore .primary (by rw [ht]; rfl)) hsubscript hclose h
    next ht =>
      refine hpass (by rw [ht]; rfl) h fun hpower h => ?_
      obtain ⟨⟨consequent, ts₁⟩, hconsequent, h⟩ := bind_eq_ok h
      obtain ⟨⟨colon, ts₂⟩, hcolon, h⟩ := bind_eq_ok h
      obtain ⟨⟨alternate, ts₃⟩, halternate, h⟩ := bind_eq_ok h
      obtain rfl : b = false := hmark ht
      have hcoalesce := hbefore .coalesce (by rw [ht]; rfl)
      exact ih.ternary ht hpower hcoalesce hconsequent hcolon halternate h
    next o hdot hquestionDot hlparen hlbracket hquestion ht =>
      split at h
      next hnone =>
        cases h
        have hpower : leftPower? t.kind = none := by
          rw [ht, leftPower?, hnone] <;> first | rfl | assumption
        exact hstop (by simp [hpower])
      next i hi =>
        refine hpass (by rw [ht]; exact leftPower?_of_infix? hi) h fun hpower h => ?_
        obtain ⟨⟨right, ts₁⟩, hright, h⟩ := bind_eq_ok h
        obtain ⟨l, hl⟩ := before?_of_infix? hi
        exact ih.operation hi hl ht hpower (hbefore l (by rw [ht]; exact hl)) hright h
    next hoperator =>
      cases h
      have hpower : leftPower? t.kind = none := by
        cases hkind : t.kind with
        | operator o => exact absurd hkind (hoperator o)
        | _ => rfl
      exact hstop (by simp [hpower])

/-- An atom fits before every token, unless it is open. -/
theorem exists_of_atom (h : Derives .atom b used e.bare) (hopen : b = true → Unmarked rest)
    (hts : ts = used ++ rest) :
    ∃ isOpen used, ts = used ++ rest ∧ Derives .unary isOpen used e.bare ∧
      Fits isOpen used e.bare rest :=
  ⟨b, used, hts, h.loosen (by decide), fits_of_primary (.pass h) hopen⟩

/-- Operands are derived with the signs before them and all that follows them tightly. -/
theorem Sound.operand (ih : Sound eof fuel) (heof : eof.kind = .eof)
    (h : Expr.readOperand eof (fuel + 1) ts = .ok (e, rest)) :
    ∃ isOpen used, ts = used ++ rest ∧ Derives .unary isOpen used e.bare ∧
      Fits isOpen used e.bare rest := by
  cases ts with
  | nil => simp [Expr.readOperand, next, heof, unary?] at h
  | cons t others =>
    unfold Expr.readOperand at h
    dsimp only [next, List.tail_cons] at h
    split at h
    next op hop =>
      obtain ⟨⟨operand, ts₁⟩, hoperand, h⟩ := bind_eq_ok h
      cases h
      obtain ⟨isOpen, used, hothers, hused, hends⟩ := ih.readWith hoperand
      have hunary := Derives.unary ((unaryOp?_eq_unary? t.kind).trans hop) hused
      exact ⟨isOpen, t :: used, by simp [hothers], hunary, fits_of_unary hunary hends⟩
    next hop =>
      split at h
      case h_1 hkind | h_2 hkind | h_3 hkind | h_4 hkind | h_5 hkind | h_6 hkind =>
        cases h
        exact exists_of_atom (.token (by rw [tokenAtom?, hkind]; rfl)) nofun rfl
      next hkind =>
        obtain ⟨⟨type, ts₁⟩, htype, h⟩ := bind_eq_ok h
        cases h
        obtain ⟨used, hothers, hused, hrest⟩ := TypeExpr.readWith_derived heof htype
        exact exists_of_atom (.naught hkind hused) (fun _ => hrest) (by simp [hothers])
      next hkind =>
        obtain ⟨⟨parts, ts₁⟩, hparts, h⟩ := bind_eq_ok h
        obtain ⟨⟨stop, ts₂⟩, hstop, h⟩ := bind_eq_ok h
        cases h
        obtain ⟨rs, hrs, hothers, hvalues⟩ := items_derived ih.readPart hparts
        obtain ⟨rfl, hclose⟩ := expect_eq_ok hstop
        have hatom := Derives.interpolation hkind (fun p hp => (hrs p hp).1)
          (fun p hp => (hrs p hp).2) hclose
        rw [hvalues, ← bareExprs_eq_map] at hatom
        exact exists_of_atom hatom nofun (by simp [hothers])
      next hkind =>
        obtain ⟨⟨inner, ts₁⟩, hinner, h⟩ := bind_eq_ok h
        obtain ⟨⟨stop, ts₂⟩, hstop, h⟩ := bind_eq_ok h
        cases h
        obtain ⟨isOpen, used, hothers, hused, -⟩ := ih.readWith hinner
        obtain ⟨rfl, hclose⟩ := expect_eq_ok hstop
        exact exists_of_atom (.group hkind hused hclose) nofun (by simp [hothers])
      next hkind =>
        obtain ⟨⟨elements, ts₁⟩, helements, h⟩ := bind_eq_ok h
        obtain ⟨⟨stop, ts₂⟩, hstop, h⟩ := bind_eq_ok h
        cases h
        have hitem : ∀ ts e rest, Expr.readWith eof fuel 0 ts = .ok (e, rest) →
            ∃ r : Run, Derives .ternary r.isOpen r.tokens r.expr ∧ ts = r.tokens ++ rest ∧
              r.expr = e.bare := by
          intro ts e rest h
          obtain ⟨isOpen, used, hts, hused, -⟩ := ih.readWith h
          exact ⟨⟨isOpen, used, e.bare⟩, hused, hts, rfl⟩
        obtain ⟨rs, inner, hrs, hinner, hothers, hvalues⟩ := separated_derived hitem helements
        obtain ⟨rfl, hclose⟩ := expect_eq_ok hstop
        have hatom := Derives.list hkind hrs hinner hclose
        rw [hvalues, ← bareExprs_eq_map] at hatom
        exact exists_of_atom hatom nofun (by simp [hothers])
      next => cases h

/-- The name and the colon that start an argument with a name. -/
theorem exists_of_named (heof : eof.kind = .eof)
    (h : ((next eof ts).kind == .identifier && starts (.operator .colon) ts.tail) = true) :
    ∃ colon, ts = next eof ts :: colon :: ts.tail.tail ∧ (next eof ts).kind = .identifier ∧
      colon.kind = .operator .colon := by
  match ts with
  | [] => simp [next, heof] at h
  | [name] => simp [starts] at h
  | name :: colon :: ts =>
    have h : name.kind = .identifier ∧ colon.kind = .operator .colon := by
      simpa [next, starts] using h
    exact ⟨colon, rfl, h⟩

theorem Sound.argument (ih : Sound eof fuel) (heof : eof.kind = .eof) {a : Argument}
    (h : Expr.readArgument eof (fuel + 1) ts = .ok (a, rest)) :
    ∃ r : Labelled, (r.Labels ∧ Derives .ternary r.run.isOpen r.run.tokens r.run.expr) ∧
      ts = r.tokens ++ rest ∧ r.argument = a.bare := by
  unfold Expr.readArgument at h
  dsimp only at h
  by_cases hnamed : ((next eof ts).kind == .identifier &&
      starts (.operator .colon) ts.tail) = true
  · simp only [hnamed, if_true] at h
    obtain ⟨⟨value, ts₁⟩, hvalue, h⟩ := bind_eq_ok h
    cases h
    obtain ⟨isOpen, used, hts, hused, -⟩ := ih.readWith hvalue
    obtain ⟨colon, hstart, hname, hcolon⟩ := exists_of_named heof hnamed
    rw [hts] at hstart
    refine ⟨⟨some (next eof ts, colon), ⟨isOpen, used, value.bare⟩⟩, ⟨?_, hused⟩, hstart, rfl⟩
    rintro _ _ ⟨⟩
    exact ⟨hname, hcolon⟩
  · rw [Bool.not_eq_true] at hnamed
    simp only [hnamed, Bool.false_eq_true, if_false] at h
    obtain ⟨⟨value, ts₁⟩, hvalue, h⟩ := bind_eq_ok h
    cases h
    obtain ⟨isOpen, used, hts, hused, -⟩ := ih.readWith hvalue
    exact ⟨⟨none, ⟨isOpen, used, value.bare⟩⟩, ⟨fun _ _ h => (nomatch h), hused⟩, hts,
      rfl⟩

theorem Sound.part (ih : Sound eof fuel) (heof : eof.kind = .eof)
    (h : Expr.readPart eof (fuel + 1) ts = .ok (e, rest)) :
    ∃ p : Fragment, (p.Marked ∧ ∀ run, p.run? = some run →
        Derives .ternary run.isOpen run.tokens run.expr) ∧
      ts = p.tokens ++ rest ∧ p.expr = e.bare := by
  cases ts with
  | nil =>
    rw [Expr.readPart, next, heof] at h
    cases h
  | cons t others =>
    unfold Expr.readPart at h
    dsimp only [next, List.tail_cons] at h
    split at h
    next hkind =>
      cases h
      exact ⟨.text t, ⟨hkind, nofun⟩, rfl, rfl⟩
    next =>
      obtain ⟨⟨start, ts₁⟩, hstart, h⟩ := bind_eq_ok h
      obtain ⟨⟨inner, ts₂⟩, hinner, h⟩ := bind_eq_ok h
      obtain ⟨⟨stop, ts₃⟩, hstop, h⟩ := bind_eq_ok h
      cases h
      obtain ⟨hts, hopens⟩ := expect_eq_ok hstart
      obtain ⟨isOpen, used, hts₁, hused, -⟩ := ih.readWith hinner
      obtain ⟨rfl, hcloses⟩ := expect_eq_ok hstop
      refine ⟨.hole start stop ⟨isOpen, used, inner.bare⟩, ⟨⟨hopens, hcloses⟩, ?_⟩, ?_, rfl⟩
      · rintro _ ⟨⟩
        exact hused
      · rw [hts, show ts₁ = _ from hts₁]
        simp [Fragment.tokens]

/-- With any fuel, expressions are read as they are derived. -/
theorem sound (heof : eof.kind = .eof) (fuel : Nat) : Sound eof fuel := by
  induction fuel with
  | zero => constructor <;> intros <;> contradiction
  | succ fuel ih =>
    constructor
    case readWith =>
      intro power ts e rest h
      obtain ⟨⟨left, ts₁⟩, hleft, h⟩ := bind_eq_ok h
      obtain ⟨isOpen, used, hts, hused, hfits⟩ := ih.readOperand hleft
      rw [hts]
      exact ih.readMore (hused.loosen (rank_levelOf_le_unary power)) hfits h
    case readMore => exact ih.more
    case readOperand => exact ih.operand heof
    case readArgument => exact fun ts a rest => ih.argument heof
    case readPart => exact fun ts e rest => ih.part heof

end Expr

end Dragon.Tree
