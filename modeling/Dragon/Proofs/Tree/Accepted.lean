import Dragon.Proofs.Tree.Derived

/-!
# What the grammar derives is read

An expression is read before all tokens that do not continue it at its level, and the reading goes
on behind it; each rule of the grammar keeps that.
-/
namespace Dragon.Tree

variable {α β ρ : Type} {eof stop : Token} {ts rest : List Token}

/-! ### Steps of a reading -/

theorem expect_cons {kind : Kind} {t : Token} (h : t.kind = kind) :
    expect eof kind (t :: rest) = .ok (t, rest) := by
  rw [expect, if_pos h]

/-! ### Items -/

section Items

variable {close : Kind} {item : List Token → Parsed (Taken α)}
  {tokens : ρ → List Token} {value : ρ → β} {bare : α → β} {Next : List Token → Prop}

theorem next_flatMap {rs : List ρ} (hnext : ∀ r ∈ rs, ∀ rest, Next (tokens r ++ rest))
    (hlast : Next rest) : Next (rs.flatMap tokens ++ rest) := by
  cases rs with
  | nil => exact hlast
  | cons r rs =>
    rw [List.flatMap_cons, List.append_assoc]
    exact hnext r List.mem_cons_self _

/-- Runs are read as items one by one, if each is read before what may come next, up to a place
where no more is read. -/
theorem items_until {rs : List ρ} {fuel : Nat} (hend : (rest.isEmpty || starts close rest) = true)
    (hfuel : (rs.flatMap tokens).length < fuel)
    (hstart : ∀ r ∈ rs, ∃ t ts, tokens r = t :: ts ∧ t.kind ≠ close)
    (hitem : ∀ r ∈ rs, ∀ rest, Next rest →
      ∃ a, bare a = value r ∧ item (tokens r ++ rest) = .ok (a, rest))
    (hnext : ∀ r ∈ rs, ∀ rest, Next (tokens r ++ rest)) (hlast : Next rest) :
    ∃ as : List α, as.map bare = rs.map value ∧
      items eof close item fuel (rs.flatMap tokens ++ rest) = .ok (as, rest) := by
  induction rs generalizing fuel with
  | nil =>
    obtain _ | fuel := fuel
    · omega
    exact ⟨[], rfl, if_pos hend⟩
  | cons r rs ih =>
    obtain _ | fuel := fuel
    · omega
    obtain ⟨t, ts, htokens, ht⟩ := hstart r List.mem_cons_self
    have hfuel' : (rs.flatMap tokens).length < fuel := by
      simp only [List.flatMap_cons, List.length_append, htokens, List.length_cons] at hfuel
      omega
    have hnext' : ∀ r ∈ rs, ∀ rest, Next (tokens r ++ rest) :=
      fun r hr => hnext r (List.mem_cons_of_mem _ hr)
    obtain ⟨as, has, hitems⟩ := ih hfuel' (fun r hr => hstart r (List.mem_cons_of_mem _ hr))
      (fun r hr => hitem r (List.mem_cons_of_mem _ hr)) hnext'
    obtain ⟨a, ha, hread⟩ := hitem r List.mem_cons_self _ (next_flatMap hnext' hlast)
    refine ⟨a :: as, by simp [ha, has], ?_⟩
    rw [List.flatMap_cons, List.append_assoc, items, hread]
    simp [htokens, starts, ht, hitems, bind, Except.bind, pure, Except.pure]

/-- Runs are read as items one by one up to the token that ends them. -/
theorem items_accepted {rs : List ρ} {fuel : Nat} (hstop : stop.kind = close)
    (hfuel : (rs.flatMap tokens).length < fuel)
    (hstart : ∀ r ∈ rs, ∃ t ts, tokens r = t :: ts ∧ t.kind ≠ close)
    (hitem : ∀ r ∈ rs, ∀ rest, Next rest →
      ∃ a, bare a = value r ∧ item (tokens r ++ rest) = .ok (a, rest))
    (hnext : ∀ r ∈ rs, ∀ rest, Next (tokens r ++ rest)) (hlast : Next (stop :: rest)) :
    ∃ as : List α, as.map bare = rs.map value ∧
      items eof close item fuel (rs.flatMap tokens ++ stop :: rest) = .ok (as, stop :: rest) :=
  items_until (by simp [starts, hstop]) hfuel hstart hitem hnext hlast

theorem exists_commas {rs : List ρ} {r : ρ} {inner : List Token}
    (h : Joined ((r :: rs).map tokens) inner) :
    ∃ cs : List (Token × ρ), cs.map Prod.snd = rs ∧ (∀ p ∈ cs, p.1.kind = .operator .comma) ∧
      inner = tokens r ++ cs.flatMap fun p => p.1 :: tokens p.2 := by
  induction rs generalizing r inner with
  | nil =>
    cases h
    exact ⟨[], rfl, nofun, by simp⟩
  | cons r' rs ih =>
    cases h with
    | @more _ _ ts _ comma hcomma h =>
      obtain ⟨cs, hcs, hcommas, hts⟩ := ih h
      exact ⟨(comma, r') :: cs, by simp [hcs], by simpa [hcomma] using hcommas, by simp [hts]⟩

/-- The next token is a comma or closes the items. -/
def Delimited (close : Kind) (ts : List Token) : Prop :=
  ∃ t rest, ts = t :: rest ∧ (t.kind = .operator .comma ∨ t.kind = close)

/-- Runs with commas between them are read as items, if each is read before a comma and before the
token that closes them. -/
theorem separated_accepted (eof : Token) (rest : List Token) {rs : List ρ} {inner : List Token}
    (hstop : stop.kind = close) (hclose : close ≠ .operator .comma)
    (hstart : ∀ r ∈ rs, ∃ t ts, tokens r = t :: ts ∧ t.kind ≠ close)
    (hitem : ∀ r ∈ rs, ∀ rest, Delimited close rest →
      ∃ a, bare a = value r ∧ item (tokens r ++ rest) = .ok (a, rest))
    (h : Joined (rs.map tokens) inner) :
    ∃ as : List α, as.map bare = rs.map value ∧
      separated eof close item (inner ++ stop :: rest) = .ok (as, stop :: rest) := by
  cases rs with
  | nil =>
    cases h
    exact ⟨[], rfl, by simp [separated, starts, hstop]⟩
  | cons r rs =>
    obtain ⟨cs, rfl, hcommas, rfl⟩ := exists_commas h
    obtain ⟨t, ts, htokens, ht⟩ := hstart r List.mem_cons_self
    have hafter : ∀ p ∈ cs, ∀ rest, Delimited close rest → ∃ a, bare a = value p.2 ∧
        afterComma eof item ((p.1 :: tokens p.2) ++ rest) = .ok (a, rest) := by
      intro p hp rest hrest
      obtain ⟨a, ha, hread⟩ := hitem p.2 (by simpa using .inr ⟨p.1, hp⟩) rest hrest
      exact ⟨a, ha, by rw [List.cons_append, afterComma, expect_cons (hcommas p hp)]; exact hread⟩
    have hnext : ∀ p ∈ cs, ∀ rest, Delimited close ((p.1 :: tokens p.2) ++ rest) :=
      fun p hp rest => ⟨p.1, tokens p.2 ++ rest, rfl, .inl (hcommas p hp)⟩
    have hlast : Delimited close (stop :: rest) := ⟨stop, rest, rfl, .inr hstop⟩
    have hmore := next_flatMap hnext hlast
    have hitems : ∀ fuel, (cs.flatMap fun p => p.1 :: tokens p.2).length < fuel →
        ∃ as : List α, as.map bare = cs.map (fun p => value p.2) ∧
          items eof close (afterComma eof item) fuel
            ((cs.flatMap fun p => p.1 :: tokens p.2) ++ stop :: rest) = .ok (as, stop :: rest) :=
      fun fuel hfuel => items_accepted hstop hfuel
        (fun p hp => ⟨p.1, _, rfl, by rw [hcommas p hp]; exact hclose.symm⟩) hafter hnext hlast
    generalize cs.flatMap (fun p => p.1 :: tokens p.2) = others at *
    obtain ⟨as, has, hitems⟩ := hitems ((others ++ stop :: rest).length + 1)
      (by rw [List.length_append]; omega)
    obtain ⟨a, ha, hread⟩ := hitem r List.mem_cons_self _ hmore
    refine ⟨a :: as, by simp [ha, has, Function.comp_def], ?_⟩
    have hfirst : ((tokens r ++ (others ++ stop :: rest)).isEmpty ||
        starts close (tokens r ++ (others ++ stop :: rest))) = false := by
      simp [htokens, starts, ht]
    rw [List.append_assoc, separated, hfirst, hread]
    simp only [bind, Except.bind, hitems]
    rfl

end Items

/-! ### Types -/

/-- A type starts with a name or a bracket. -/
theorem DerivesType.starts {type : TypeExpr} (h : DerivesType ts type) :
    ∃ t rest, ts = t :: rest ∧
      (t.kind = .identifier ∨ t.kind = .operator .lbracket ∨ t.kind = .operator .lparen) := by
  induction h with
  | @named t hkind => exact ⟨t, [], rfl, .inl hkind⟩
  | @list start stop ts _ hstart => exact ⟨start, ts ++ [stop], rfl, .inr (.inl hstart)⟩
  | @optional mark _ _ _ _ _ ih =>
    obtain ⟨t, rest, rfl, hkind⟩ := ih
    exact ⟨t, rest ++ [mark], rfl, hkind⟩
  | @function start stop arrow inner ts _ _ hstart =>
    exact ⟨start, inner ++ stop :: arrow :: ts, rfl, .inr (.inr hstart)⟩

theorem unmarked_cons {t : Token} (h : t.kind ≠ .operator .question) : Unmarked (t :: rest) := by
  simpa [Unmarked] using h

theorem Delimited.unmarked {close : Kind} (hclose : close ≠ .operator .question)
    (h : Delimited close ts) : Unmarked ts := by
  obtain ⟨t, rest, rfl, hkind | hkind⟩ := h
  · exact unmarked_cons (by simp [hkind])
  · exact unmarked_cons (by rw [hkind]; exact hclose)

theorem Joined.length_le {runs : List (List Token)} {run : List Token} (h : Joined runs ts)
    (hrun : run ∈ runs) : run.length ≤ ts.length := by
  induction h with
  | none => cases hrun
  | one run' =>
    obtain rfl : run = run' := by simpa using hrun
    exact Nat.le_refl _
  | more hcomma h ih =>
    rw [List.length_append, List.length_cons]
    rcases List.mem_cons.mp hrun with rfl | hrun
    · omega
    · have hle := ih hrun
      omega

/-- A type is read up to the question marks behind it, which a function has none of. -/
theorem DerivesType.accepted {type : TypeExpr} (h : DerivesType ts type) (fuel : Nat)
    (rest : List Token) (hfuel : ts.length ≤ fuel)
    (hrest : type.isFunction = true → Unmarked rest) :
    ∃ type' : TypeExpr, type'.bare = type ∧
      TypeExpr.readWith eof fuel (ts ++ rest) = .ok (type'.optionals rest) := by
  induction h generalizing fuel rest with
  | @named t hkind =>
    rw [List.length_singleton] at hfuel
    obtain _ | fuel := fuel
    · omega
    refine ⟨.named t.value t.span, rfl, ?_⟩
    simp only [TypeExpr.readWith, List.cons_append, next, hkind]
    rfl
  | @list start stop ts element hstart h hstop ih =>
    simp only [List.length_cons, List.length_append] at hfuel
    obtain _ | fuel := fuel
    · omega
    have hclosed : Unmarked (stop :: rest) := unmarked_cons (by simp [hstop])
    obtain ⟨element', helement, hread⟩ := ih fuel (stop :: rest) (by omega) fun _ => hclosed
    rw [TypeExpr.optionals_of_unmarked hclosed] at hread
    refine ⟨.list element' (start.span.through stop.span), by rw [TypeExpr.bare, helement], ?_⟩
    simp only [TypeExpr.readWith, List.cons_append, List.append_assoc, List.nil_append, next,
      hstart, List.tail_cons, hread, expect_cons hstop, bind, Except.bind]
    rfl
  | @optional mark ts base h hbase hmark ih =>
    rw [List.length_append] at hfuel
    obtain ⟨base', hbare, hread⟩ :=
      ih fuel (mark :: rest) (by omega) fun h => by rw [hbase] at h; cases h
    refine ⟨.optional base' (base'.span.through mark.span), by rw [TypeExpr.bare, hbare], ?_⟩
    rw [List.append_assoc, List.singleton_append, hread, TypeExpr.optionals, if_pos hmark]
  | @function start stop arrow inner ts params result hstart hparams hinner hstop harrow hresult
      ihparams ihresult =>
    simp only [List.length_cons, List.length_append] at hfuel
    obtain _ | fuel := fuel
    · omega
    have hclosed : Unmarked rest := hrest rfl
    have hitem : ∀ p ∈ params, ∀ rest, Delimited (.operator .rparen) rest →
        ∃ t : TypeExpr, t.bare = p.2 ∧
          TypeExpr.readWith eof fuel (p.1 ++ rest) = .ok (t, rest) := by
      intro p hp rest hrest
      have hunmarked := hrest.unmarked (by decide)
      have hlength := hinner.length_le (List.mem_map_of_mem hp)
      obtain ⟨t, ht, hread⟩ := ihparams p hp fuel rest (by omega) fun _ => hunmarked
      rw [TypeExpr.optionals_of_unmarked hunmarked] at hread
      exact ⟨t, ht, hread⟩
    have hstarts : ∀ p ∈ params, ∃ t ts, p.1 = t :: ts ∧ t.kind ≠ .operator .rparen := by
      intro p hp
      obtain ⟨t, ts, hts, hkind⟩ := (hparams p hp).starts
      refine ⟨t, ts, hts, ?_⟩
      rcases hkind with hkind | hkind | hkind <;> simp [hkind]
    obtain ⟨params', hparams', hseparated⟩ :=
      separated_accepted eof (arrow :: (ts ++ rest)) hstop (by decide) hstarts hitem hinner
    obtain ⟨result', hresult', hread⟩ := ihresult fuel rest (by omega) fun _ => hclosed
    rw [TypeExpr.optionals_of_unmarked hclosed] at hread
    refine ⟨.function params' result' (start.span.through result'.span), ?_, ?_⟩
    · rw [TypeExpr.bare, bareTypes_eq_map, hparams', hresult']
    · simp only [TypeExpr.readWith, List.cons_append, List.append_assoc, next, hstart,
        List.tail_cons, hseparated, expect_cons hstop, expect_cons harrow, hread, bind, Except.bind]
      rfl

/-! ### Levels and powers -/

namespace Level

/-- The greatest power that an expression of a level is read with. -/
def maxPower : Level → Nat
  | ternary => 2
  | coalesce => 4
  | or => 5
  | and => 7
  | comparison => 9
  | additive => 11
  | multiplicative => 13
  | unary | power => 17
  | primary | atom => 19

/-- A bound on the left powers of what may follow an expression of a level and not belong to it. -/
def bound : Level → Nat
  | ternary => 2
  | coalesce => 3
  | or => 6
  | and => 8
  | comparison => 10
  | additive => 12
  | multiplicative => 14
  | unary | power => 15
  | primary | atom => 20

theorem maxPower_le_tighter (l : Level) : l.maxPower ≤ l.tighter.maxPower := by
  cases l <;> decide

theorem bound_le_tighter (l : Level) : l.bound ≤ l.tighter.bound := by
  cases l <;> decide

/-- The powers of an operator that a level chains. -/
theorem infix?_of_chain? {l : Level} {o : Operator} {op : BinaryOp} (h : l.chain? o = some op) :
    infix? o = some (.binary l.maxPower l.bound op) ∧ l.maxPower < l.bound ∧
      l.bound ≤ l.tighter.maxPower := by
  unfold chain? at h
  split at h
  all_goals cases h
  all_goals exact ⟨rfl, by decide, by decide⟩

end Level

variable {b : Bool} {p q : Nat}

theorem Ends.mono (h : Ends p b rest) (hpq : p ≤ q) : Ends q b rest :=
  fun t ht => ⟨fun r hr => Nat.lt_of_lt_of_le ((h t ht).1 r hr) hpq, (h t ht).2⟩

theorem ends_cons {t : Token} (hq : leftPower? t.kind = some q) (hlt : q < p)
    (hmark : t.kind = .operator .question → b = false) : Ends p b (t :: rest) := by
  intro u hu
  obtain rfl : t = u := by simpa using hu
  refine ⟨fun r hr => ?_, hmark⟩
  cases hr.symm.trans hq
  exact hlt

theorem leftPower?_eq_none {k : Kind} (h : continues k = false) : leftPower? k = none := by
  cases k with
  | operator o => cases o <;> revert h <;> decide
  | _ => rfl

/-- Before a token that continues nothing, all expressions end. -/
theorem ends_of_eq_none {t : Token} (h : leftPower? t.kind = none) : Ends p b (t :: rest) := by
  intro u hu
  obtain rfl : t = u := by simpa using hu
  refine ⟨by simp [h], fun hmark => ?_⟩
  rw [hmark] at h
  cases h

theorem Delimited.eq_none {close : Kind} (hclose : leftPower? close = none)
    (h : Delimited close rest) :
    ∃ t others, rest = t :: others ∧ leftPower? t.kind = none ∧
      (t.kind = .operator .comma ∨ t.kind = close) := by
  obtain ⟨t, others, hrest, hkind⟩ := h
  refine ⟨t, others, hrest, ?_, hkind⟩
  rcases hkind with hkind | hkind
  · rw [hkind]
    rfl
  · rw [hkind, hclose]

/-! ### Where expressions start -/

def startsOperand : Kind → Bool
  | .integer | .float | .boolean | .string | .identifier | .stringStart
  | .keyword .mine | .keyword .naught | .keyword .ne | .keyword .some
  | .operator .minus | .operator .lparen | .operator .lbracket => true
  | _ => false

/-- Tokens that start as an operand does, and not with a name and a colon. -/
def Leads (ts : List Token) : Prop :=
  ∃ t rest, ts = t :: rest ∧ startsOperand t.kind = true ∧
    (t.kind = .identifier → ∀ u ∈ rest.head?, u.kind ≠ .operator .colon)

theorem leads_cons {t : Token} (h : startsOperand t.kind = true) (hne : t.kind ≠ .identifier) :
    Leads (t :: ts) :=
  ⟨t, ts, rfl, h, fun hkind => absurd hkind hne⟩

theorem Leads.append {t : Token} {ts' : List Token} (h : Leads ts)
    (ht : t.kind ≠ .operator .colon) : Leads (ts ++ t :: ts') := by
  obtain ⟨first, rest, rfl, hstarts, hcolon⟩ := h
  refine ⟨first, rest ++ t :: ts', rfl, hstarts, fun hkind => ?_⟩
  cases rest with
  | nil => simpa using ht
  | cons u rest => simpa using hcolon hkind

/-- Such tokens do not start as an argument with a name does. -/
theorem Leads.unnamed (h : Leads ts) :
    ((next eof ts).kind == .identifier && starts (.operator .colon) ts.tail) = false := by
  obtain ⟨t, rest, rfl, -, hcolon⟩ := h
  by_cases hkind : t.kind = .identifier
  · cases rest with
    | nil => simp [starts]
    | cons u rest => simpa [starts] using fun _ => hcolon hkind u rfl
  · simp [next, hkind]

theorem leads_of_tokenAtom? {t : Token} {e : Expr} (h : tokenAtom? t = some e) : Leads [t] := by
  refine ⟨t, [], rfl, ?_, by simp⟩
  unfold tokenAtom? at h
  split at h
  case h_7 => cases h
  all_goals next hkind => rw [hkind]; rfl

theorem leads_of_unary? {t : Token} {op : UnaryOp} (h : unary? t.kind = some op) :
    Leads (t :: ts) := by
  unfold unary? at h
  split at h
  case h_4 => cases h
  all_goals next hkind => exact leads_cons (by rw [hkind]; rfl) (by simp [hkind])

/-- An expression starts as its first operand does. -/
theorem Derives.leads {l : Level} {b : Bool} {e : Expr} (h : Derives l b ts e) : Leads ts := by
  induction h with
  | pass _ ih => exact ih
  | ternary _ hquestion _ _ _ ih => exact ih.append (by simp [hquestion])
  | coalesce _ ht _ ih => exact ih.append (by simp [ht])
  | chain hop _ ht _ ih =>
    refine ih.append fun hcolon => ?_
    cases ht.symm.trans hcolon
    cases (Level.infix?_of_chain? hop).1
  | unary ht => exact leads_of_unary? (by rwa [unaryOp?_eq_unary?] at ht)
  | power _ ht _ ih => exact ih.append (by simp [ht])
  | member haccess _ ht _ ih =>
    refine ih.append fun hcolon => ?_
    cases ht.symm.trans hcolon
    cases haccess
  | call _ hstart _ _ _ _ ih => exact ih.append (by simp [hstart])
  | index _ hstart _ _ ih => exact ih.append (by simp [hstart])
  | token h => exact leads_of_tokenAtom? h
  | naught ht => exact leads_cons (by rw [ht]; rfl) (by simp [ht])
  | interpolation hstart => exact leads_cons (by rw [hstart]; rfl) (by simp [hstart])
  | group hstart => exact leads_cons (by rw [hstart]; rfl) (by simp [hstart])
  | list hstart => exact leads_cons (by rw [hstart]; rfl) (by simp [hstart])

theorem Leads.starts {close : Kind} (h : Leads ts) (hclose : startsOperand close = false) :
    ∃ t rest, ts = t :: rest ∧ t.kind ≠ close := by
  obtain ⟨t, rest, hts, hstarts, -⟩ := h
  refine ⟨t, rest, hts, fun hkind => ?_⟩
  rw [hkind, hclose] at hstarts
  cases hstarts

/-- An argument does not start with the end of its call. -/
theorem Labelled.starts (a : Labelled) (hlabels : a.Labels) (hleads : Leads a.run.tokens) :
    ∃ t ts, a.tokens = t :: ts ∧ t.kind ≠ .operator .rparen := by
  obtain ⟨_ | ⟨name, colon⟩, run⟩ := a
  · exact hleads.starts rfl
  · exact ⟨name, colon :: run.tokens, rfl, by simp [(hlabels name colon rfl).1]⟩

theorem Labelled.length_run_le (a : Labelled) : a.run.tokens.length ≤ a.tokens.length := by
  obtain ⟨_ | ⟨name, colon⟩, run⟩ := a
  · exact Nat.le_refl _
  · simp only [Labelled.tokens, List.length_cons]
    omega

theorem Fragment.Marked.starts {part : Fragment} (hmarked : part.Marked) :
    ∃ t ts, part.tokens = t :: ts ∧ t.kind ≠ .stringEnd := by
  cases part with
  | text t =>
    have ht : t.kind = .string := hmarked
    exact ⟨t, [], rfl, by simp [ht]⟩
  | hole start stop run => exact ⟨start, run.tokens ++ [stop], rfl, by simp [hmarked.1]⟩

/-! ### Reading what is derived -/

namespace Expr

/-- What does not continue an expression is left alone. -/
theorem readMore_ends {fuel : Nat} {e : Expr} (hfuel : 0 < fuel) (h : Ends p b rest) :
    Expr.readMore eof fuel p e rest = .ok (e, rest) := by
  obtain _ | fuel := fuel
  · omega
  cases rest with
  | nil => rfl
  | cons t others =>
    have hpower := (h t rfl).1
    unfold Expr.readMore
    dsimp only
    split
    case h_1 hkind | h_2 hkind | h_3 hkind | h_4 hkind | h_5 hkind =>
      exact if_pos (hpower _ (by rw [hkind]; rfl))
    case h_6 o _ _ _ _ _ hkind =>
      split
      next => rfl
      next i hi => exact if_pos (hpower _ (by rw [hkind]; exact leftPower?_of_infix? hi))
    case h_7 => rfl

/-- Before what does not belong to it, an expression of a level is read, with the powers that the
level admits, and the reading goes on behind it. The fuel is more than twice the tokens, and what is
left of it is short by at most one for each. -/
def Accepted (eof : Token) (l : Level) (isOpen : Bool) (ts : List Token) (e : Expr) : Prop :=
  ∀ fuel power rest, 2 * ts.length < fuel → power ≤ l.maxPower → Ends l.bound isOpen rest →
    ∃ fuel' e', fuel ≤ fuel' + ts.length ∧ Expr.bare e' = e ∧
      Expr.readWith eof fuel power (ts ++ rest) = Expr.readMore eof fuel' power e' rest

variable {fuel : Nat} {l : Level} {t : Token} {e : Expr}

/-- The whole of an expression is read where nothing of the power asked for follows it. -/
theorem Accepted.whole (h : Accepted eof l b ts e) (fuel : Nat) (hfuel : 2 * ts.length < fuel)
    (hp : p ≤ l.maxPower) (hl : Ends l.bound b rest) (hends : Ends p b rest) :
    ∃ e', Expr.bare e' = e ∧ Expr.readWith eof fuel p (ts ++ rest) = .ok (e', rest) := by
  obtain ⟨fuel', e', hfuel', he', hread⟩ := h fuel p rest hfuel hp hl
  exact ⟨e', he', by rw [hread, readMore_ends (by omega) hends]⟩

/-- An expression is read whole before a token that continues nothing. -/
theorem Accepted.before (h : Accepted eof .ternary b ts e) (fuel : Nat)
    (hfuel : 2 * ts.length < fuel) (ht : leftPower? t.kind = none) (rest : List Token) :
    ∃ e', Expr.bare e' = e ∧
      Expr.readWith eof fuel 0 (ts ++ t :: rest) = .ok (e', t :: rest) :=
  h.whole fuel hfuel (Nat.zero_le _) (ends_of_eq_none ht) (ends_of_eq_none ht)

theorem Accepted.pass (h : Accepted eof l.tighter b ts e) : Accepted eof l b ts e :=
  fun fuel power rest hfuel hpower hends =>
    h fuel power rest hfuel (Nat.le_trans hpower l.maxPower_le_tighter)
      (hends.mono l.bound_le_tighter)

/-! #### Rules -/

/-- An operator is taken with its right operand. -/
theorem readMore_operation {left right : Expr} {ts₁ : List Token} {o : Operator} {i : Infix}
    (hi : infix? o = some i) (ht : t.kind = .operator o) (hp : p ≤ i.left)
    (hright : Expr.readWith eof fuel i.right ts = .ok (right, ts₁)) :
    Expr.readMore eof (fuel + 1) p left (t :: ts) =
      Expr.readMore eof fuel p (i.build left right (left.span.through right.span)) ts₁ := by
  have hstep : Expr.readMore eof (fuel + 1) p left (t :: ts) =
      Expr.readWith eof fuel i.right ts >>= fun taken =>
        Expr.readMore eof fuel p (i.build left taken.1 (left.span.through taken.1.span))
          taken.2 := by
    rw [Expr.readMore.eq_def]
    dsimp only
    rw [ht]
    cases o <;> cases hi <;> exact if_neg (Nat.not_lt.mpr hp)
  rw [hstep, hright]
  rfl

/-- An operator is read between operands whose levels its powers admit. -/
theorem Accepted.operation {o : Operator} {i : Infix} {l m r : Level} {b' : Bool}
    {ts' : List Token} {e e' e'' : Expr} (h : Accepted eof l b' ts e)
    (h' : Accepted eof r b ts' e') (hi : infix? o = some i) (ht : t.kind = .operator o)
    (hbuild : ∀ left right span, left.bare = e → right.bare = e' →
      (i.build left right span).bare = e'')
    (hleft : i.left < l.bound) (hright : i.right ≤ r.maxPower) (hmax : m.maxPower ≤ i.left)
    (hmaxl : m.maxPower ≤ l.maxPower) (hbound : m.bound ≤ r.bound) (hboundi : m.bound ≤ i.right) :
    Accepted eof m b (ts ++ t :: ts') e'' := by
  intro fuel power rest hfuel hpower hends
  simp only [List.length_append, List.length_cons] at hfuel ⊢
  have hnext : Ends l.bound b' (t :: (ts' ++ rest)) := by
    refine ends_cons (by rw [ht, leftPower?_of_infix? hi]) hleft fun hmark => ?_
    rw [ht] at hmark
    cases hmark
    cases hi
  obtain ⟨fuel₁, left, hfuel₁, hbare, hread⟩ :=
    h fuel power (t :: (ts' ++ rest)) (by omega) (Nat.le_trans hpower hmaxl) hnext
  obtain _ | fuel₂ := fuel₁
  · omega
  obtain ⟨right, hbare', hread'⟩ := h'.whole fuel₂ (by omega) hright (hends.mono hbound)
    (hends.mono hboundi)
  refine ⟨fuel₂, i.build left right (left.span.through right.span), by omega,
    hbuild _ _ _ hbare hbare', ?_⟩
  rw [List.append_assoc, List.cons_append, hread,
    readMore_operation hi ht (Nat.le_trans hpower hmax) hread']

/-- A choice ends with its last part. -/
theorem Accepted.ternary {b₁ b₂ : Bool} {ts₁ ts₂ : List Token} {question colon : Token}
    {e₁ e₂ : Expr} (h : Accepted eof .coalesce false ts e)
    (hquestion : question.kind = .operator .question) (h₁ : Accepted eof .ternary b₁ ts₁ e₁)
    (hcolon : colon.kind = .operator .colon) (h₂ : Accepted eof .ternary b₂ ts₂ e₂) :
    Accepted eof .ternary b₂ (ts ++ question :: (ts₁ ++ colon :: ts₂))
      (.ternary e e₁ e₂ .nowhere) := by
  intro fuel power rest hfuel hpower hends
  simp only [List.length_append, List.length_cons] at hfuel ⊢
  have hnext : Ends Level.coalesce.bound false
      (question :: (ts₁ ++ colon :: (ts₂ ++ rest))) :=
    ends_cons (q := ternaryPower) (by rw [hquestion]; rfl) (by decide) fun _ => rfl
  have hmax : power ≤ Level.coalesce.maxPower := Nat.le_trans hpower (by decide)
  obtain ⟨fuel₁, left, hfuel₁, hbare, hread⟩ := h fuel power _ (by omega) hmax hnext
  obtain _ | fuel₂ := fuel₁
  · omega
  obtain ⟨consequent, hbare₁, hread₁⟩ :=
    h₁.before fuel₂ (by omega) (by rw [hcolon]; rfl) (ts₂ ++ rest)
  obtain ⟨alternate, hbare₂, hread₂⟩ := h₂.whole fuel₂ (by omega) (Nat.le_refl _) hends hends
  refine ⟨fuel₂, .ternary left consequent alternate (left.span.through alternate.span), by omega,
    by rw [Expr.bare, hbare, hbare₁, hbare₂], ?_⟩
  rw [List.append_assoc, List.cons_append, List.append_assoc, List.cons_append, hread,
    Expr.readMore.eq_def]
  simp only [hquestion, hread₁, expect_cons hcolon, bind, Except.bind]
  rw [if_neg (show ¬ ternaryPower < power from Nat.not_lt.2 hpower),
    show Expr.readWith eof fuel₂ ternaryPower _ = _ from hread₂]

/-- An expression goes on with what a call, a subscript or a member adds in one step. -/
theorem Accepted.continued {b' : Bool} {more : List Token} {e e'' : Expr}
    (h : Accepted eof .primary b' ts e)
    (hnext : ∀ t ∈ more.head?, leftPower? t.kind = some postfixPower) (hmore : more ≠ [])
    (hstep : ∀ fuel power left rest, 2 * more.length ≤ fuel → power ≤ postfixPower →
      left.bare = e → ∃ left' : Expr, left'.bare = e'' ∧
        Expr.readMore eof (fuel + 1) power left (more ++ rest) =
          Expr.readMore eof fuel power left' rest) :
    Accepted eof .primary false (ts ++ more) e'' := by
  intro fuel power rest hfuel hpower _
  rw [List.length_append] at hfuel ⊢
  have hlength : 0 < more.length := List.length_pos_iff.mpr hmore
  have hends : Ends Level.primary.bound b' (more ++ rest) := by
    obtain ⟨t, others, rfl⟩ := List.exists_cons_of_ne_nil hmore
    have ht := hnext t rfl
    refine ends_cons ht (by decide) fun hmark => ?_
    rw [hmark] at ht
    cases ht
  obtain ⟨fuel₁, left, hfuel₁, hbare, hread⟩ := h fuel power _ (by omega) hpower hends
  obtain _ | fuel₂ := fuel₁
  · omega
  obtain ⟨left', hbare', hread'⟩ := hstep fuel₂ power left rest (by omega) hpower hbare
  exact ⟨fuel₂, left', by omega, hbare', by rw [List.append_assoc, hread, hread']⟩

theorem Accepted.member {symbol : Operator} {access : Access} {name : Token} {e : Expr}
    (haccess : access? symbol = some access) (h : Accepted eof .primary b ts e)
    (ht : t.kind = .operator symbol) (hname : name.kind = .identifier) :
    Accepted eof .primary false (ts ++ [t, name]) (.member e access name.value .nowhere) := by
  have hsymbol : symbol = .dot ∧ access = .plain ∨ symbol = .questionDot ∧ access = .optional := by
    unfold access? at haccess
    split at haccess <;> cases haccess <;> simp
  refine h.continued ?_ nofun fun fuel power left rest _ hle hbare =>
    ⟨.member left access name.value (left.span.through name.span), by rw [Expr.bare, hbare], ?_⟩
  · obtain ⟨rfl, -⟩ | ⟨rfl, -⟩ := hsymbol <;> simp [ht, leftPower?]
  · rw [Expr.readMore.eq_def]
    obtain ⟨rfl, rfl⟩ | ⟨rfl, rfl⟩ := hsymbol <;>
      simp [ht, if_neg (Nat.not_lt.2 hle), expect_cons hname, bind, Except.bind]

theorem Accepted.index {b' : Bool} {ts' : List Token} {start stop : Token} {e e' : Expr}
    (h : Accepted eof .primary b ts e) (hstart : start.kind = .operator .lbracket)
    (h' : Accepted eof .ternary b' ts' e') (hstop : stop.kind = .operator .rbracket) :
    Accepted eof .primary false (ts ++ start :: (ts' ++ [stop])) (.index e e' .nowhere) := by
  refine h.continued (by simp [hstart, leftPower?]) nofun
    fun fuel power left rest hfuel hle hbare => ?_
  simp only [List.length_append, List.length_cons] at hfuel
  obtain ⟨subscript, hsubscript, hread⟩ :=
    h'.before fuel (by omega) (by rw [hstop]; rfl) rest
  refine ⟨.index left subscript (left.span.through stop.span),
    by rw [Expr.bare, hbare, hsubscript], ?_⟩
  rw [List.cons_append, List.append_assoc, List.singleton_append, Expr.readMore.eq_def]
  simp only [hstart, if_neg (Nat.not_lt.2 hle), hread, expect_cons hstop, bind, Except.bind]

theorem readArgument_accepted {a : Labelled} (hlabels : a.Labels)
    (h : Accepted eof .ternary a.run.isOpen a.run.tokens a.run.expr) (hleads : Leads a.run.tokens)
    (hfuel : 2 * a.run.tokens.length < fuel) (hrest : Delimited (.operator .rparen) rest) :
    ∃ a' : Argument, a'.bare = a.argument ∧
      Expr.readArgument eof (fuel + 1) (a.tokens ++ rest) = .ok (a', rest) := by
  obtain ⟨t, others, rfl, hnone, hkind⟩ := hrest.eq_none rfl
  obtain ⟨value, hvalue, hread⟩ := h.before fuel hfuel hnone others
  obtain ⟨_ | ⟨name, colon⟩, run⟩ := a
  · have hunnamed : ((next eof (run.tokens ++ t :: others)).kind == .identifier &&
        starts (.operator .colon) (run.tokens ++ t :: others).tail) = false := by
      apply Leads.unnamed
      apply hleads.append
      rcases hkind with hkind | hkind <;> simp [hkind]
    refine ⟨.mk none value ((next eof (run.tokens ++ t :: others)).span.through value.span),
      by rw [Argument.bare, hvalue]; rfl, ?_⟩
    simp only [Expr.readArgument, Labelled.tokens, hunnamed, Bool.false_eq_true, if_false, hread]
    rfl
  · obtain ⟨hname, hcolon⟩ := hlabels name colon rfl
    refine ⟨.mk (some name.value) value (name.span.through value.span),
      by rw [Argument.bare, hvalue]; rfl, ?_⟩
    have hnamed : (name.kind == .identifier &&
        starts (.operator .colon) (colon :: (run.tokens ++ t :: others))) = true := by
      simp [hname, starts, hcolon]
    simp only [Expr.readArgument, Labelled.tokens, List.cons_append, next, List.tail_cons, hnamed,
      if_true, hread]
    rfl

/-- Arguments are read one by one up to the parenthesis. -/
theorem Accepted.call {inner : List Token} {start stop : Token} {args : List Labelled} {e : Expr}
    (h : Accepted eof .primary b ts e) (hstart : start.kind = .operator .lparen)
    (hlabels : ∀ a ∈ args, a.Labels) (hleads : ∀ a ∈ args, Leads a.run.tokens)
    (hargs : ∀ a ∈ args, Accepted eof .ternary a.run.isOpen a.run.tokens a.run.expr)
    (hinner : Joined (args.map Labelled.tokens) inner) (hstop : stop.kind = .operator .rparen) :
    Accepted eof .primary false (ts ++ start :: (inner ++ [stop]))
      (.call e (args.map Labelled.argument) .nowhere) := by
  refine h.continued (by simp [hstart, leftPower?]) nofun
    fun fuel power left rest hfuel hle hbare => ?_
  simp only [List.length_append, List.length_cons] at hfuel
  obtain _ | fuel := fuel
  · omega
  have hitem : ∀ a ∈ args, ∀ rest, Delimited (.operator .rparen) rest →
      ∃ a' : Argument, a'.bare = a.argument ∧
        Expr.readArgument eof (fuel + 1) (a.tokens ++ rest) = .ok (a', rest) := by
    intro a ha rest hrest
    have hlength := hinner.length_le (List.mem_map_of_mem ha)
    have hrun := a.length_run_le
    exact readArgument_accepted (hlabels a ha) (hargs a ha) (hleads a ha) (by omega) hrest
  have hstarts : ∀ a ∈ args, ∃ t ts, a.tokens = t :: ts ∧ t.kind ≠ .operator .rparen :=
    fun a ha => a.starts (hlabels a ha) (hleads a ha)
  obtain ⟨args', hargs', hread⟩ :=
    separated_accepted eof rest hstop (by decide) hstarts hitem hinner
  refine ⟨.call left args' (left.span.through stop.span), ?_, ?_⟩
  · rw [Expr.bare, hbare, bareArguments_eq_map, hargs']
  · rw [List.cons_append, List.append_assoc, List.singleton_append, Expr.readMore.eq_def]
    simp only [hstart, if_neg (Nat.not_lt.2 hle), hread, expect_cons hstop, bind, Except.bind]

/-- What is read as an operand is accepted at every level. -/
theorem accepted_of_operand (hts : ts ≠ [])
    (h : ∀ fuel rest, 2 * ts.length ≤ fuel + 1 → Ends l.bound b rest →
      ∃ e' : Expr, e'.bare = e ∧ Expr.readOperand eof (fuel + 1) (ts ++ rest) = .ok (e', rest)) :
    Accepted eof l b ts e := by
  intro fuel power rest hfuel hpower hends
  have hlength : 0 < ts.length := List.length_pos_iff.mpr hts
  obtain ⟨fuel, rfl⟩ : ∃ n, fuel = n + 2 := ⟨fuel - 2, by omega⟩
  obtain ⟨e', he', hread⟩ := h fuel rest (by omega) hends
  refine ⟨fuel + 1, e', by omega, he', ?_⟩
  rw [Expr.readWith, hread]
  rfl

theorem Accepted.unary {op : UnaryOp} (ht : unary? t.kind = some op)
    (h : Accepted eof .unary b ts e) : Accepted eof .unary b (t :: ts) (.unary op e .nowhere) := by
  refine accepted_of_operand nofun fun fuel rest hfuel hends => ?_
  rw [List.length_cons] at hfuel
  obtain ⟨operand, hoperand, hread⟩ : ∃ e' : Expr, e'.bare = e ∧
      Expr.readWith eof fuel unaryPower (ts ++ rest) = .ok (e', rest) :=
    h.whole fuel (by omega) (by decide) hends hends
  refine ⟨.unary op operand (t.span.through operand.span), by rw [Expr.bare, hoperand], ?_⟩
  simp only [Expr.readOperand, List.cons_append, next, ht, List.tail_cons, hread]
  rfl

theorem accepted_token (h : tokenAtom? t = some e) : Accepted eof .atom false [t] e := by
  refine accepted_of_operand nofun fun fuel rest _ _ => ?_
  unfold tokenAtom? at h
  split at h
  case h_7 => cases h
  all_goals
    next hkind =>
      cases h
      simp only [Expr.readOperand, List.cons_append, next, hkind, unary?]
      exact ⟨_, rfl, rfl⟩

theorem accepted_naught {type : TypeExpr} (ht : t.kind = .keyword .naught)
    (h : DerivesType ts type) : Accepted eof .atom true (t :: ts) (.naught type .nowhere) := by
  refine accepted_of_operand nofun fun fuel rest _ hends => ?_
  have hunmarked : Unmarked rest := fun u hu hmark => nomatch (hends u hu).2 hmark
  obtain ⟨type', htype, hread⟩ : ∃ type' : TypeExpr, type'.bare = type ∧
      TypeExpr.read eof (ts ++ rest) = .ok (type'.optionals rest) :=
    h.accepted _ rest (by rw [List.length_append]; omega) fun _ => hunmarked
  rw [TypeExpr.optionals_of_unmarked hunmarked] at hread
  refine ⟨.naught type' (t.span.through type'.span), by rw [Expr.bare, htype], ?_⟩
  simp only [Expr.readOperand, List.cons_append, next, ht, unary?, List.tail_cons, hread]
  rfl

theorem Accepted.group {start stop : Token} (hstart : start.kind = .operator .lparen)
    (h : Accepted eof .ternary b ts e) (hstop : stop.kind = .operator .rparen) :
    Accepted eof .atom false (start :: (ts ++ [stop])) e := by
  refine accepted_of_operand nofun fun fuel rest hfuel _ => ?_
  simp only [List.length_append, List.length_cons] at hfuel
  obtain ⟨inner, hinner, hread⟩ := h.before fuel (by omega) (by rw [hstop]; rfl) rest
  refine ⟨inner, hinner, ?_⟩
  simp only [Expr.readOperand, List.cons_append, List.append_assoc, List.nil_append, next, hstart,
    unary?, List.tail_cons, hread, bind, Except.bind, expect_cons hstop]
  rfl

theorem accepted_list {start stop : Token} {inner : List Token} {elements : List Run}
    (hstart : start.kind = .operator .lbracket) (hleads : ∀ r ∈ elements, Leads r.tokens)
    (helements : ∀ r ∈ elements, Accepted eof .ternary r.isOpen r.tokens r.expr)
    (hinner : Joined (elements.map Run.tokens) inner) (hstop : stop.kind = .operator .rbracket) :
    Accepted eof .atom false (start :: (inner ++ [stop]))
      (.list (elements.map Run.expr) .nowhere) := by
  refine accepted_of_operand nofun fun fuel rest hfuel _ => ?_
  simp only [List.length_append, List.length_cons] at hfuel
  have hitem : ∀ r ∈ elements, ∀ rest, Delimited (.operator .rbracket) rest →
      ∃ e : Expr, e.bare = r.expr ∧
        Expr.readWith eof fuel 0 (r.tokens ++ rest) = .ok (e, rest) := by
    intro r hr rest hrest
    obtain ⟨t, others, rfl, hnone, -⟩ := hrest.eq_none rfl
    have hlength := hinner.length_le (List.mem_map_of_mem hr)
    exact (helements r hr).before fuel (by omega) hnone others
  have hstarts : ∀ r ∈ elements, ∃ t ts, r.tokens = t :: ts ∧ t.kind ≠ .operator .rbracket :=
    fun r hr => (hleads r hr).starts rfl
  obtain ⟨elements', helements', hread⟩ :=
    separated_accepted eof rest hstop (by decide) hstarts hitem hinner
  refine ⟨.list elements' (start.span.through stop.span), ?_, ?_⟩
  · rw [Expr.bare, bareExprs_eq_map, helements']
  · simp only [Expr.readOperand, List.cons_append, List.append_assoc, List.nil_append, next, hstart,
      unary?, List.tail_cons, hread, bind, Except.bind, expect_cons hstop]
    rfl

theorem readPart_accepted {part : Fragment} (hmarked : part.Marked)
    (h : ∀ run, part.run? = some run → Accepted eof .ternary run.isOpen run.tokens run.expr)
    (hfuel : 2 * part.tokens.length ≤ fuel) (rest : List Token) :
    ∃ e : Expr, e.bare = part.expr ∧
      Expr.readPart eof (fuel + 1) (part.tokens ++ rest) = .ok (e, rest) := by
  cases part with
  | text t =>
    have hkind : t.kind = .string := hmarked
    refine ⟨.string t.value t.span, rfl, ?_⟩
    simp only [Expr.readPart, Fragment.tokens, List.cons_append, next, hkind]
    rfl
  | hole start stop run =>
    obtain ⟨hstart, hstop⟩ := hmarked
    simp only [Fragment.tokens, List.length_append, List.length_cons] at hfuel
    obtain ⟨inner, hinner, hread⟩ := (h run rfl).before fuel (by omega) (by rw [hstop]; rfl) rest
    refine ⟨inner, hinner, ?_⟩
    simp only [Expr.readPart, Fragment.tokens, List.cons_append, List.append_assoc,
      List.nil_append, next, hstart, expect_cons hstart, expect_cons hstop, hread, bind,
      Except.bind]
    rfl

/-- The parts of a string are read one by one up to its end. -/
theorem accepted_interpolation {start stop : Token} {parts : List Fragment}
    (hstart : start.kind = .stringStart) (hmarks : ∀ p ∈ parts, p.Marked)
    (hparts : ∀ p ∈ parts, ∀ run, p.run? = some run →
      Accepted eof .ternary run.isOpen run.tokens run.expr)
    (hstop : stop.kind = .stringEnd) :
    Accepted eof .atom false (start :: (parts.flatMap Fragment.tokens ++ [stop]))
      (.interpolation (parts.map Fragment.expr) .nowhere) := by
  refine accepted_of_operand nofun fun fuel rest hfuel _ => ?_
  simp only [List.length_append, List.length_cons] at hfuel
  obtain _ | fuel := fuel
  · omega
  have hitem : ∀ p ∈ parts, ∀ rest, True → ∃ e : Expr, e.bare = p.expr ∧
      Expr.readPart eof (fuel + 1) (p.tokens ++ rest) = .ok (e, rest) := by
    intro p hp rest _
    have hlength : p.tokens.length ≤ (parts.flatMap Fragment.tokens).length :=
      (List.sublist_flatten_of_mem (List.mem_map_of_mem hp)).length_le
    exact readPart_accepted (hmarks p hp) (hparts p hp) (by omega) rest
  obtain ⟨parts', hparts', hread⟩ : ∃ es : List Expr, es.map Expr.bare = parts.map Fragment.expr ∧
      items eof .stringEnd (Expr.readPart eof (fuel + 1))
        ((start :: (parts.flatMap Fragment.tokens ++ stop :: rest)).length + 1)
        (parts.flatMap Fragment.tokens ++ stop :: rest) = .ok (es, stop :: rest) :=
    items_accepted hstop (by simp only [List.length_append, List.length_cons]; omega)
      (fun p hp => (hmarks p hp).starts) hitem (fun _ _ _ => trivial) trivial
  refine ⟨.interpolation parts' (start.span.through stop.span), ?_, ?_⟩
  · rw [Expr.bare, bareExprs_eq_map, hparts']
  · simp only [Expr.readOperand, List.cons_append, List.append_assoc, List.nil_append, next, hstart,
      unary?, List.tail_cons, hread, bind, Except.bind, expect_cons hstop]
    rfl

/-- Whatever is derived is read. -/
theorem accepted_of_derives (h : Derives l b ts e) : Accepted eof l b ts e := by
  induction h with
  | pass _ ih => exact ih.pass
  | ternary _ hquestion _ hcolon _ ih ih₁ ih₂ => exact ih.ternary hquestion ih₁ hcolon ih₂
  -- The rules of operators differ in the levels only, which the powers are compared with.
  | coalesce _ ht _ ih ih' | power _ ht _ ih ih' =>
    refine ih.operation ih' rfl ht ?_ (by decide) (by decide) (by decide) (by decide) (by decide)
      (by decide)
    rintro left right span rfl rfl
    rfl
  | @chain level _ _ _ _ _ _ _ _ _ hop _ ht _ ih ih' =>
    obtain ⟨hi, hlt, hle⟩ := Level.infix?_of_chain? hop
    refine ih.operation ih' hi ht ?_ hlt hle (Nat.le_refl _) (Nat.le_refl _)
      level.bound_le_tighter (Nat.le_refl _)
    rintro left right span rfl rfl
    rfl
  | unary ht _ ih => exact ih.unary (by rwa [unaryOp?_eq_unary?] at ht)
  | member haccess _ ht hname ih => exact ih.member haccess ht hname
  | call _ hstart hlabels hargs hinner hstop ih ihargs =>
    exact ih.call hstart hlabels (fun a ha => (hargs a ha).leads) ihargs hinner hstop
  | index _ hstart _ hstop ih ih' => exact ih.index hstart ih' hstop
  | token h => exact accepted_token h
  | naught ht h => exact accepted_naught ht h
  | interpolation hstart hmarks _ hstop ih => exact accepted_interpolation hstart hmarks ih hstop
  | group hstart _ hstop ih => exact ih.group hstart hstop
  | list hstart helements hinner hstop ih =>
    exact accepted_list hstart (fun r hr => (helements r hr).leads) ih hinner hstop

end Expr

/-- Reading an expression before a token that cannot continue it takes the tokens that the grammar
derives, all of them, and gives the tree that it derives. -/
theorem read_iff_derives (eof : Token) (heof : eof.kind = .eof) (ts follow : List Token)
    (hfollow : ∀ t ∈ follow.head?, continues t.kind = false) (e : Expr) :
    (∃ e', Expr.read eof (ts ++ follow) = .ok (e', follow) ∧ e'.bare = e) ↔
      ∃ isOpen, Derives .ternary isOpen ts e := by
  constructor
  · rintro ⟨e', hread, rfl⟩
    obtain ⟨isOpen, used, hused, hderives, -⟩ := (Expr.sound heof _).readWith hread
    obtain rfl : ts = used := List.append_cancel_right hused
    exact ⟨isOpen, hderives⟩
  · rintro ⟨isOpen, hderives⟩
    have hends (p : Nat) : Ends p isOpen follow := by
      cases follow with
      | nil => nofun
      | cons t rest => exact ends_of_eq_none (leftPower?_eq_none (hfollow t rfl))
    obtain ⟨e', hbare, hread⟩ := (Expr.accepted_of_derives hderives).whole
      (3 * (ts ++ follow).length + 3) (by rw [List.length_append]; omega) (Nat.zero_le _)
      (hends _) (hends _)
    exact ⟨e', hread, hbare⟩

def placeless (kind : Kind) (value : String) : Token := ⟨kind, value, .nowhere⟩

/-- The tokens of `-a ** b ? c : naught int?`. -/
def sampleChoice : List Token :=
  [placeless (.operator .minus) "-", placeless .identifier "a", placeless (.operator .power) "**",
    placeless .identifier "b", placeless (.operator .question) "?", placeless .identifier "c",
    placeless (.operator .colon) ":", placeless (.keyword .naught) "naught",
    placeless .identifier "int", placeless (.operator .question) "?"]

/-- The minus takes the power, and the type after `naught` the last question mark. -/
theorem derives_sampleChoice :
    (placeless .eof "").kind = .eof ∧
      (∀ t ∈ [placeless (.operator .semicolon) ";"].head?, continues t.kind = false) ∧
      ∃ isOpen, Derives .ternary isOpen sampleChoice
        (.ternary
          (.unary .neg
            (.binary (.identifier "a" .nowhere) .pow (.identifier "b" .nowhere) .nowhere) .nowhere)
          (.identifier "c" .nowhere)
          (.naught (.optional (.named "int" .nowhere) .nowhere) .nowhere) .nowhere) := by
  have hfollow : ∀ t ∈ [placeless (.operator .semicolon) ";"].head?, continues t.kind = false := by
    decide
  exact ⟨rfl, hfollow, (read_iff_derives (placeless .eof "") rfl sampleChoice _ hfollow _).mp
    ⟨_, rfl, rfl⟩⟩

end Dragon.Tree
