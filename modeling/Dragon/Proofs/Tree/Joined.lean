import Dragon.Proofs.Tree.Derived
import Dragon.Proofs.Tree.Followed
import Dragon.Proofs.Tree.Nesting
import Dragon.Proofs.Tree.Shifted

/-!
# Programs one after the other

A reading that succeeds takes the same tokens when these are moved down and others follow, unless it
could have gone on with those. So two texts that are programs, with a line feed between them, are
the program of all their statements.
-/
namespace Dragon.Tree

variable {α β : Type} {eof : Token} {fuel fuel' n : Nat}

/-! ### Trees further down -/

def Moving.down (n : Nat) : Moving :=
  ⟨Span.down n, TypeExpr.down n, Expr.down n, Argument.down n, Param.down n, FieldDef.down n,
    Stmt.down n, FunctionDef.down n, Forge.down n, Alternate.down n⟩

theorem downForge_eq_map (forge : Option Forge) :
    downForge n forge = forge.map (Forge.down n) := by
  cases forge <;> rfl

instance : (Moving.down n).Lawful := by
  constructor <;> intros <;>
    simp [Moving.down, Span.down_through, TypeExpr.down, Expr.down, Argument.down, Param.down,
      FieldDef.down, Stmt.down, FunctionDef.down, Forge.down, Alternate.down, downTypes_eq_map,
      downExprs_eq_map, downArguments_eq_map, downBlock_eq_map, downMethods_eq_map,
      downForge_eq_map]

/-! ### Programs -/

/-- No statement starts with an `else`. -/
theorem Stmt.readWith_else {t : Token} (ht : t.kind = .keyword .else_) (rest : List Token)
    (taken : Taken Stmt) : Stmt.readWith eof fuel (t :: rest) ≠ .ok taken := by
  intro h
  cases fuel with
  | zero => cases h
  | succ fuel =>
    simp only [Stmt.readWith, next, ht] at h
    obtain ⟨target, htarget, -⟩ := bind_eq_ok h
    obtain ⟨operand, hoperand, -⟩ := bind_eq_ok htarget
    simp [Expr.readOperand, next, ht, unary?] at hoperand

/-- Items up to the end of the tokens go on with the items that follow there. -/
theorem items_append {M : Moving} {σ : Tail M eof} {close : Kind} {move : α → β}
    {item : List Token → Parsed (Taken α)} {item' : List Token → Parsed (Taken β)} {need : Need}
    {least : Nat} {as : List α} {others : List β} {ts rest rest' : List Token}
    (hitem : ∀ us, us.length ≤ ts.length →
      Follows σ need true true move us (item us) (item' (σ.before us)))
    (hneed : need.Met σ.after) (hclose : ∀ t ∈ ts, t.kind ≠ close)
    (hafter : ∀ fuel', least < fuel' →
      items σ.stop close item' fuel' σ.after = .ok (others, rest'))
    (h : items eof close item fuel ts = .ok (as, rest)) (hfuel : fuel + least ≤ fuel') :
    items σ.stop close item' fuel' (σ.before ts) = .ok (as.map move ++ others, rest') := by
  induction fuel generalizing fuel' ts as with
  | zero => cases h
  | succ fuel ih =>
    cases ts with
    | nil =>
      cases h
      exact hafter fuel' (by omega)
    | cons t ts =>
      obtain _ | fuel' := fuel'
      · omega
      have hopen : t.kind ≠ close := hclose t List.mem_cons_self
      have hstart (u : Token) (us : List Token) (hu : u.kind = t.kind) :
          ((u :: us).isEmpty || starts close (u :: us)) = false := by
        simp [starts, hu, hopen]
      rw [items, hstart t ts rfl] at h
      obtain ⟨⟨a, ts₁⟩, ha, h⟩ := bind_eq_ok h
      obtain ⟨⟨as, ts₂⟩, has, h⟩ := bind_eq_ok h
      cases h
      have hfirst := hitem _ (Nat.le_refl _)
      have hsuffix := (hfirst.left a ts₁ ha).1
      have hrest := ih (fun us hus => hitem us (hus.trans hsuffix.length_le))
        (fun u hu => hclose u (hsuffix.subset hu)) has (show fuel + least ≤ fuel' by omega)
      have hvalue := hfirst.value a ts₁ ha fun _ => hneed
      rw [Tail.before_cons] at hvalue ⊢
      rw [items, hstart _ _ (M.kind_token t), hvalue]
      simp only [Bool.false_eq_true, if_false, bind, Except.bind, hrest]
      rfl

theorem Program.read_eq_ok {file : String} {stream : TokenStream} {p : Program}
    (h : Program.read file stream = .ok p) :
    ∃ rest, items stream.eof .eof (Stmt.readWith stream.eof (stream.tokens.length + 1))
        (stream.tokens.length + 1) stream.tokens = .ok (p.statements, rest) ∧
      p.span = ⟨file, .origin, stream.eof.span.stop⟩ := by
  obtain ⟨⟨statements, rest⟩, hitems, h⟩ := bind_eq_ok h
  cases h
  exact ⟨rest, hitems, rfl⟩

/-- No program starts with an `else`. -/
theorem starts_else_of_items {statements : List Stmt} {ts rest : List Token} {nesting : Nat}
    (h : items eof .eof (Stmt.readWith eof nesting) fuel ts = .ok (statements, rest)) :
    starts (.keyword .else_) (ts.map (Token.down n)) = false := by
  cases ts with
  | nil => rfl
  | cons t ts =>
    by_contra hstarts
    have ht : t.kind = .keyword .else_ := by simpa [starts] using hstarts
    cases fuel with
    | zero => cases h
    | succ fuel =>
      have hopen : ((t :: ts).isEmpty || starts .eof (t :: ts)) = false := by simp [starts, ht]
      rw [items, hopen] at h
      obtain ⟨taken, htaken, -⟩ := bind_eq_ok h
      exact Stmt.readWith_else ht ts taken htaken

/-- Tokens that are programs, one after the other, are the program of all their statements. -/
theorem Program.read_joined {file : String} {ts us : TokenStream} {p q : Program}
    (hkinds : ∀ t ∈ ts.tokens, t.kind ≠ .eof) (hts : ts.eof.kind = .eof)
    (hus : us.eof.kind = .eof)
    (hp : Program.read file ts = .ok p) (hq : Program.read file us = .ok q) (n : Nat) :
    Program.read file ⟨ts.tokens ++ us.tokens.map (Token.down n), us.eof.down n⟩ =
      .ok ⟨p.statements ++ q.statements.map (Stmt.down n),
        ⟨file, .origin, q.span.stop.down n⟩⟩ := by
  obtain ⟨rest, hp, -⟩ := read_eq_ok hp
  obtain ⟨rest', hq, hspan⟩ := read_eq_ok hq
  let nesting := (ts.tokens ++ us.tokens.map (Token.down n)).length + 1
  have hnesting : ts.tokens.length + us.tokens.length + 1 = nesting := by simp [nesting]
  have hsecond (fuel' : Nat) (hfuel : us.tokens.length < fuel') :
      items (us.eof.down n) .eof (Stmt.readWith (us.eof.down n) nesting) fuel'
        (us.tokens.map (Token.down n)) =
      .ok (q.statements.map (Stmt.down n), rest'.map (Token.down n)) := by
    have hitems := (follows_statements (Nat.lt_succ_self _) hfuel (Nat.lt_succ_self _)
      (by omega : us.tokens.length + 1 ≤ nesting)
      (⟨[], us.eof.down n, hus⟩ : Tail (Moving.down n) us.eof)).value q.statements rest' hq
      fun _ => rfl
    rw [Tail.before, Tail.before, List.append_nil, List.append_nil] at hitems
    exact hitems
  let σ : Tail Moving.same ts.eof := ⟨us.tokens.map (Token.down n), us.eof.down n, hts⟩
  have hstatement : Stmt.Followed Moving.same ts.eof (ts.tokens.length + 1) nesting :=
    Stmt.followed (by omega)
  have hboth : items σ.stop .eof (Stmt.readWith σ.stop nesting) nesting (σ.before ts.tokens) = _ :=
    items_append (fun vs hvs => hstatement.readWith (by omega) σ) (starts_else_of_items hq) hkinds
      hsecond hp (show ts.tokens.length + 1 + us.tokens.length ≤ nesting by omega)
  rw [σ.before_same,
    show p.statements.map Moving.same.stmt = p.statements from List.map_id _] at hboth
  exact (congrArg (· >>= _) hboth).trans (by rw [hspan]; rfl)

/-- Two texts that are programs, with a line feed between them, are cut into the tokens of both
and are the program of all their statements, the second ones further down. -/
theorem Program.ofSource_joined {file first second : String} {p q : Program}
    (hfirst : Program.ofSource file first = .ok p)
    (hsecond : Program.ofSource file second = .ok q) :
    let n := first.toList.count '\n' + 1
    let joined := first ++ "\n" ++ second
    ∃ ts us : TokenStream,
      TokenStream.ofSource file first = .ok ts ∧ TokenStream.ofSource file second = .ok us ∧
      TokenStream.ofSource file joined =
        .ok ⟨ts.tokens ++ us.tokens.map (Token.down n), us.eof.down n⟩ ∧
      Program.ofSource file joined =
        .ok ⟨p.statements ++ q.statements.map (Stmt.down n),
          ⟨file, .origin, q.span.stop.down n⟩⟩ := by
  intro n joined
  obtain ⟨ts, hts, hp⟩ := bind_eq_ok hfirst
  obtain ⟨us, hus, hq⟩ := bind_eq_ok hsecond
  have hjoined : TokenStream.ofSource file joined =
      .ok ⟨ts.tokens ++ us.tokens.map (Token.down n), us.eof.down n⟩ :=
    TokenStream.ofSource_line hts hus
  have hkinds : ∀ t ∈ ts.tokens, t.kind ≠ .eof := by
    intro t ht hkind
    obtain ⟨inside, lexeme, hspells⟩ := TokenStream.spells_of_ofSource hts t ht
    rw [hkind] at hspells
    cases hspells
  have hteof := TokenStream.kind_eof_of_ofSource hts
  have hueof := TokenStream.kind_eof_of_ofSource hus
  refine ⟨ts, us, hts, hus, hjoined, ?_⟩
  rw [Program.ofSource, hjoined]
  exact Program.read_joined hkinds hteof hueof hp hq n

/-- A branch with no `else`, a number and a comment at the seam, and a statement two lines down. -/
theorem Program.ofSource_joined_branch :
    ∃ p q : Program, ∃ ts us : TokenStream,
      p.statements.length = 2 ∧ q.statements.length = 1 ∧
      TokenStream.ofSource "" "perchance shall \x7b \x7d\nx = 1; // .5" = .ok ts ∧
      TokenStream.ofSource "" "proclaim 2;" = .ok us ∧
      TokenStream.ofSource "" "perchance shall \x7b \x7d\nx = 1; // .5\nproclaim 2;" =
        .ok ⟨ts.tokens ++ us.tokens.map (Token.down 2), us.eof.down 2⟩ ∧
      Program.ofSource "" "perchance shall \x7b \x7d\nx = 1; // .5\nproclaim 2;" =
        .ok ⟨p.statements ++ q.statements.map (Stmt.down 2),
          ⟨"", .origin, q.span.stop.down 2⟩⟩ := by
  have hfirst : (Program.ofSource "" "perchance shall \x7b \x7d\nx = 1; // .5").toOption.any
      (·.statements.length == 2) = true := by decide +kernel
  have hsecond : (Program.ofSource "" "proclaim 2;").toOption.any
      (·.statements.length == 1) = true := by decide +kernel
  obtain ⟨p, hp, hplength⟩ := exists_of_any hfirst
  obtain ⟨q, hq, hqlength⟩ := exists_of_any hsecond
  obtain ⟨ts, us, hts, hus, htokens, hprogram⟩ := Program.ofSource_joined hp hq
  exact ⟨p, q, ts, us, beq_iff_eq.1 hplength, beq_iff_eq.1 hqlength, hts, hus, htokens, hprogram⟩

end Dragon.Tree
