import Dragon.Proofs.Tree.Blind
import Dragon.Proofs.Tree.Printer

/-!
# Reading inverts printing

The tokens of a statement are read as the statement, whatever comes after them but an `else`, and
the tokens of a program as the program. The tokens that are written have no places, and neither has
what is read from such tokens.
-/
namespace Dragon.Tree

variable {α : Type} {rest ts us : List Token} {fuel : Nat}

/-! ### Tokens without places -/

/-- The mark of the end, without a place. -/
def ending : Token := placeless .eof ""

/-- Nothing follows after the end. -/
def atEnding : Tail Moving.bare ending := ⟨[], ending, rfl⟩

/-- Tokens that have no places. -/
def Placeless (ts : List Token) : Prop := ∀ t ∈ ts, t.bare = t

/-- Tokens without places, the first of which does not continue an expression. -/
def Stops (ts : List Token) : Prop := Placeless ts ∧ ∀ t ∈ ts.head?, continues t.kind = false

theorem before_atEnding (h : Placeless ts) : atEnding.before ts = ts := by
  rw [Tail.before, show atEnding.after = [] from rfl, List.append_nil]
  exact (List.map_congr_left h).trans (List.map_id _)

/-- A reading gives a tree without places from tokens without places. -/
theorem read_placeless {move : α → α} {n : Need} {k s : Bool} {read : List Token → Parsed (Taken α)}
    {a : α} (h : Follows atEnding n k s move ts (read ts) (read (atEnding.before ts)))
    (hts : Placeless ts) (hread : read ts = .ok (a, rest)) : read ts = .ok (move a, rest) := by
  have hsecond := h.value a rest hread fun _ => n.met_nil
  have hrest : Placeless rest := fun t ht => hts t ((h.left a rest hread).1.subset ht)
  rwa [before_atEnding hts, before_atEnding hrest] at hsecond

section Tokens

theorem ok_bind {β : Type} (a : α) (f : α → Parsed β) :
    (Except.ok a >>= f) = f a := rfl

theorem map_ok {β : Type} (f : α → β) (a : α) :
    f <$> (Except.ok a : Parsed α) = .ok (f a) := rfl

theorem pure_ok (a : α) : (pure a : Parsed α) = .ok a := rfl

variable {kind : Kind} {text : String}

theorem placeless_nil : Placeless [] := nofun

theorem placeless_cons : Placeless (placeless kind text :: ts) ↔ Placeless ts :=
  List.forall_mem_cons.trans (and_iff_right rfl)

theorem placeless_append :
    Placeless (ts ++ us) ↔ Placeless ts ∧ Placeless us := List.forall_mem_append

theorem stops_cons :
    Stops (placeless kind text :: ts) ↔ Placeless ts ∧ continues kind = false := by
  rw [Stops, placeless_cons]
  simp [placeless]

theorem expect_placeless :
    expect ending kind (placeless kind text :: ts) = .ok (placeless kind text, ts) :=
  expect_cons rfl

theorem starts_placeless (close : Kind) :
    starts close (placeless kind text :: ts) = (kind == close) := rfl

theorem next_placeless :
    next ending (placeless kind text :: ts) = placeless kind text := rfl

theorem kind_placeless : (placeless kind text).kind = kind := rfl

theorem value_placeless : (placeless kind text).value = text := rfl

theorem span_placeless : (placeless kind text).span = .nowhere := rfl

end Tokens

attribute [local simp] ok_bind map_ok pure_ok placeless_nil placeless_cons placeless_append
  stops_cons expect_placeless starts_placeless next_placeless kind_placeless value_placeless
  span_placeless sign word ident continues

theorem Stops.unmarked (h : Stops rest) : Unmarked rest := by
  cases rest with
  | nil => nofun
  | cons t rest =>
    refine unmarked_cons fun hkind => ?_
    have hstops := h.2 t rfl
    rw [hkind] at hstops
    cases hstops

theorem TypeExpr.reads {type : TypeExpr} (h : type.isPlain = true) (hrest : Unmarked rest) :
    ∃ type' : TypeExpr, type'.bare = type.bare ∧
      TypeExpr.read ending (type.tokens ++ rest) = .ok (type', rest) := by
  obtain ⟨type', htype, hread⟩ := (type.derives_tokens h).accepted
    ((type.tokens ++ rest).length + 1) rest (by rw [List.length_append]; omega) fun _ => hrest
  rw [TypeExpr.optionals_of_unmarked hrest] at hread
  exact ⟨type', htype, hread⟩

theorem TypeExpr.read_printed {type : TypeExpr} (h : type.isPlain = true)
    (hts : Placeless type.tokens) (hrest : Stops rest) :
    TypeExpr.read ending (type.tokens ++ rest) = .ok (type.bare, rest) := by
  obtain ⟨type', htype, hread⟩ := type.reads h hrest.unmarked
  rw [← htype]
  exact read_placeless (TypeExpr.follows_read _) (placeless_append.2 ⟨hts, hrest.1⟩) hread

/-- A printed expression is read back before what does not continue it. -/
theorem Expr.read_printed {e : Expr} (h : e.isPlain = true) (hts : Placeless e.tokens)
    (hrest : Stops rest) : Expr.read ending (e.tokens ++ rest) = .ok (e.bare, rest) := by
  have hends (p : Nat) : Ends p false rest := by
    cases rest with
    | nil => nofun
    | cons t rest => exact ends_of_eq_none (leftPower?_eq_none (hrest.2 t rfl))
  obtain ⟨e', he, hread⟩ := (Expr.accepted_of_derives (e.written h).whole).whole
    (3 * (e.tokens ++ rest).length + 3) (by rw [List.length_append]; omega) (Nat.zero_le _)
    (hends _) (hends _)
  rw [← he]
  exact read_placeless (Expr.follows_read _) (placeless_append.2 ⟨hts, hrest.1⟩) hread

/-! ### Parts of definitions -/

theorem Param.reads {p : Param} (h : p.type.isPlain = true) (hrest : Unmarked rest) :
    ∃ p' : Param, p'.bare = p.bare ∧ Param.read ending (p.tokens ++ rest) = .ok (p', rest) := by
  obtain ⟨type, htype, hread⟩ := TypeExpr.reads h hrest
  refine ⟨⟨p.name, type, Span.nowhere.through type.span⟩, by simp [Param.bare, htype], ?_⟩
  simp [Param.tokens, typedTokens, Param.read, readTyped, hread]

theorem readParams_tokens {ps : List Param} (h : ps.all (·.type.isPlain) = true)
    (hts : Placeless (paramTokens ps)) (hrest : Placeless rest) :
    readParams ending (paramTokens ps ++ rest) = .ok (ps.map Param.bare, rest) := by
  have hstart : ∀ p ∈ ps, ∃ t ts, p.tokens = t :: ts ∧ t.kind ≠ .operator .rparen :=
    fun p _ => ⟨ident p.name, _, rfl, nofun⟩
  have hitem : ∀ p ∈ ps, ∀ rest, Delimited (.operator .rparen) rest →
      ∃ p' : Param, p'.bare = p.bare ∧ Param.read ending (p.tokens ++ rest) = .ok (p', rest) :=
    fun p hp _ hrest => Param.reads (List.all_eq_true.1 h p hp) (hrest.unmarked (by decide))
  obtain ⟨ps', hps, hseparated⟩ := separated_accepted ending rest
    (show (sign .rparen).kind = .operator .rparen from rfl) (by decide) hstart hitem
    (joined_commas (ps.map Param.tokens))
  have hread : readParams ending (paramTokens ps ++ rest) = .ok (ps', rest) := by
    rw [sign] at hseparated
    simp [readParams, paramTokens, hseparated]
  rw [← hps]
  exact read_placeless (n := .nothing) (k := true) (follows_readParams _)
    (placeless_append.2 ⟨hts, hrest⟩) hread

theorem FieldDef.read_printed {f : FieldDef} (h : f.type.isPlain = true)
    (hts : Placeless f.type.tokens) (hrest : Stops rest) :
    FieldDef.read ending (f.tokens ++ rest) = .ok (f.bare, rest) := by
  simp [FieldDef.tokens, typedTokens, FieldDef.read, readTyped, TypeExpr.read_printed h hts hrest,
    FieldDef.bare]

theorem items_cons {close : Kind} {item : List Token → Parsed (Taken α)} {a : α} {as : List α}
    (hopen : (ts.isEmpty || starts close ts) = false) (hitem : item ts = .ok (a, us))
    (hothers : items ending close item fuel us = .ok (as, rest)) :
    items ending close item (fuel + 1) ts = .ok (a :: as, rest) := by
  rw [items, hopen, hitem]
  simp [hothers]

/-- The fields of a matter are read back up to its brace. -/
theorem items_matterFields {fs : List FieldDef} (h : fs.all (·.type.isPlain) = true)
    (hts : Placeless (commas (fs.map FieldDef.tokens))) (hrest : Placeless rest)
    (hfuel : (commas (fs.map FieldDef.tokens)).length < fuel) :
    items ending (.operator .rbrace) (readMatterField ending) fuel
        (commas (fs.map FieldDef.tokens) ++ sign .rbrace :: rest) =
      .ok (fs.map FieldDef.bare, sign .rbrace :: rest) := by
  induction fs generalizing fuel with
  | nil =>
    obtain _ | fuel := fuel
    · omega
    rfl
  | cons f fs ih =>
    obtain _ | fuel := fuel
    · omega
    obtain ⟨hf, hfs⟩ := Bool.and_eq_true_iff.1 h
    cases fs with
    | nil =>
      have hfield : Placeless f.type.tokens := by
        simpa [commas, FieldDef.tokens, typedTokens] using hts
      refine items_cons rfl ?_ (ih hfs placeless_nil ?_)
      · simp [commas, readMatterField, FieldDef.read_printed, hf, hfield, hrest]
      · simp only [List.map_cons, List.map_nil, commas, FieldDef.tokens, typedTokens,
          List.length_cons, List.length_nil] at hfuel ⊢
        omega
    | cons f' fs =>
      rw [List.map_cons, List.map_cons, commas, ← List.map_cons] at hts hfuel ⊢
      simp only [placeless_append, sign, placeless_cons] at hts
      have hfield : Placeless f.type.tokens := by
        simpa [FieldDef.tokens, typedTokens] using hts.1
      have hothers : Placeless (commas ((f' :: fs).map FieldDef.tokens) ++ sign .rbrace :: rest) :=
        placeless_append.2 ⟨hts.2, placeless_cons.2 hrest⟩
      rw [List.append_assoc]
      refine items_cons rfl ?_ (ih hfs hts.2 ?_)
      · rw [readMatterField, List.cons_append, sign,
          FieldDef.read_printed hf hfield (stops_cons.2 ⟨hothers, rfl⟩)]
        rfl
      · rw [List.length_append, List.length_cons] at hfuel
        omega

/-! ### Bodies -/

/-- What may follow a statement. -/
def Next (rest : List Token) : Prop := starts (.keyword .else_) rest = false

/-- A statement whose tokens are read as the statement with fuel enough. -/
def Stmt.ReadsBack (s : Stmt) : Prop :=
  ∀ fuel rest, s.tokens.length ≤ fuel → Next rest → Placeless s.tokens → Placeless rest →
    Stmt.readWith ending fuel (s.tokens ++ rest) = .ok (s.bare, rest)

/-- A statement starts with a keyword or as an operand does. -/
def startsStmt : Kind → Bool
  | .keyword .thine | .keyword .fact | .keyword .don | .keyword .matter | .keyword .guild
  | .keyword .proclaim | .keyword .return_ | .keyword .perchance | .keyword .whilst
  | .keyword .repeateth | .keyword .fortill | .keyword .breaketh => true
  | k => startsOperand k

theorem startsStmt_of_startsOperand {k : Kind} (h : startsOperand k = true) :
    startsStmt k = true := by
  unfold startsStmt
  split <;> first | rfl | exact h

theorem Expr.tokens_start {e : Expr} (h : e.isPlain = true) (ts : List Token) :
    ∃ t rest, e.tokens ++ ts = t :: rest ∧ startsOperand t.kind = true := by
  obtain ⟨t, rest, htokens, hstarts, -⟩ := (e.written h).leads
  exact ⟨t, rest ++ ts, by rw [htokens, List.cons_append], hstarts⟩

/-- A statement starts with a word of its own or with an operand. -/
theorem Stmt.tokens_start {s : Stmt} (h : s.isPlain = true) :
    ∃ t rest, s.tokens = t :: rest ∧ startsStmt t.kind = true := by
  have hexpr {e : Expr} (he : e.isPlain = true) (ts : List Token) :
      ∃ t rest, e.tokens ++ ts = t :: rest ∧ startsStmt t.kind = true := by
    obtain ⟨t, rest, htokens, hstarts⟩ := e.tokens_start he ts
    exact ⟨t, rest, htokens, startsStmt_of_startsOperand hstarts⟩
  cases s with
  | declare mutable => cases mutable <;> exact ⟨_, _, rfl, rfl⟩
  | function definition =>
    obtain ⟨name, params, result, body, span⟩ := definition
    exact ⟨_, _, rfl, rfl⟩
  | return_ value => cases value <;> exact ⟨_, _, rfl, rfl⟩
  | assign target value => exact hexpr (Bool.and_eq_true_iff.1 h).1 _
  | increment target => exact hexpr h _
  | decrement target => exact hexpr h _
  | call callee args callSpan =>
    have hcall : (Expr.call callee args callSpan).isPlain = true := h
    exact hexpr hcall _
  | _ => exact ⟨_, _, rfl, rfl⟩

theorem Stmt.open_tokens {s : Stmt} (h : s.isPlain = true) {close : Kind}
    (hclose : startsStmt close = false) (ts : List Token) :
    ((s.tokens ++ ts).isEmpty || starts close (s.tokens ++ ts)) = false := by
  obtain ⟨t, us, htokens, hstarts⟩ := s.tokens_start h
  have hkind : t.kind ≠ close := by
    rintro rfl
    rw [hclose] at hstarts
    cases hstarts
  simp [htokens, starts, hkind]

/-- A block that is plain and whose statements are read back. -/
structure Block (ss : List Stmt) : Prop where
  plain : blockPlain ss = true
  readsBack : ∀ s ∈ ss, s.ReadsBack

/-- Statements that are read back one by one are read back as a sequence. -/
theorem Block.readItems {ss : List Stmt} {close : Kind} {fuel fuel' : Nat} (h : Block ss)
    (hclose : startsStmt close = false) (hfuel : (stmtTokens ss).length ≤ fuel)
    (hfuel' : (stmtTokens ss).length < fuel') (hts : Placeless (stmtTokens ss))
    (hnext : Next rest) (hrest : Placeless rest)
    (hend : (rest.isEmpty || starts close rest) = true) :
    items ending close (Stmt.readWith ending fuel) fuel' (stmtTokens ss ++ rest) =
      .ok (bareBlock ss, rest) := by
  obtain _ | fuel' := fuel'
  · omega
  induction ss generalizing fuel' with
  | nil => exact if_pos hend
  | cons s ss ih =>
    obtain ⟨hplain, hplains⟩ := Bool.and_eq_true_iff.1 h.plain
    obtain ⟨hreads, hreadss⟩ := List.forall_mem_cons.1 h.readsBack
    rw [stmtTokens] at hfuel hfuel' hts ⊢
    rw [placeless_append] at hts
    obtain ⟨t, us, htokens, -⟩ := s.tokens_start hplain
    rw [List.length_append] at hfuel hfuel'
    obtain ⟨fuel', rfl⟩ : ∃ n, fuel' = n + 1 := by
      rw [htokens, List.length_cons] at hfuel'
      exact ⟨fuel' - 1, by omega⟩
    have hafter : Next (stmtTokens ss ++ rest) := by
      cases ss with
      | nil => exact hnext
      | cons s' ss =>
        rw [stmtTokens, List.append_assoc]
        exact (Bool.or_eq_false_iff.1
          (s'.open_tokens (Bool.and_eq_true_iff.1 hplains).1 rfl _)).2
    rw [List.append_assoc]
    exact items_cons (s.open_tokens hplain hclose _)
      (hreads fuel _ (by omega) hafter hts.1 (placeless_append.2 ⟨hts.2, hrest⟩))
      (ih ⟨hplains, hreadss⟩ (by omega) hts.2 fuel' (by
        rw [htokens, List.length_cons] at hfuel'
        omega))

theorem Block.read {ss : List Stmt} (h : Block ss) (hfuel : (stmtTokens ss).length ≤ fuel)
    (hts : Placeless (stmtTokens ss)) (hrest : Placeless rest) :
    readBlock ending (Stmt.readWith ending fuel) (braced (stmtTokens ss) ++ rest) =
      .ok ((bareBlock ss, .nowhere), rest) := by
  have hitems : items ending (.operator .rbrace) (Stmt.readWith ending fuel)
      ((stmtTokens ss ++ sign .rbrace :: rest).length + 1) (stmtTokens ss ++ sign .rbrace :: rest) =
      _ :=
    h.readItems rfl hfuel (by rw [List.length_append]; omega) hts rfl (placeless_cons.2 hrest) rfl
  have hbraced : braced (stmtTokens ss) ++ rest =
      sign .lbrace :: (stmtTokens ss ++ sign .rbrace :: rest) := by simp [braced]
  rw [hbraced, readBlock, sign, expect_placeless, ok_bind]
  dsimp only
  rw [hitems]
  rfl

theorem placeless_braced : Placeless (braced ts) ↔ Placeless ts := by simp [braced]

theorem stops_braced : Stops (braced ts ++ rest) ↔ Placeless ts ∧ Placeless rest := by
  simp [braced]

theorem length_braced : (braced ts).length = ts.length + 2 := by simp [braced]

theorem starts_braced (kind : Kind) :
    starts kind (braced ts ++ rest) = (.operator .lbrace == kind) := rfl

theorem next_braced : next ending (braced ts ++ rest) = sign .lbrace := rfl

attribute [local simp] placeless_braced stops_braced length_braced starts_braced next_braced

/-! ### Functions, forges and guilds -/

/-- A function whose tokens are read as the function. Its body has fuel enough if it has as much as
the tokens but one. -/
def FunctionDef.ReadsBack (m : FunctionDef) : Prop :=
  ∀ fuel rest, m.tokens.length ≤ fuel + 1 → Placeless m.tokens → Placeless rest →
    FunctionDef.read ending (Stmt.readWith ending fuel) (m.tokens ++ rest) = .ok (m.bare, rest)

theorem FunctionDef.readsBack_mk {name : String} {params : List Param} {result : Option TypeExpr}
    {body : List Stmt} (span : Span) (hparams : params.all (·.type.isPlain) = true)
    (hresult : result.all (·.isPlain) = true) (hbody : Block body) :
    (FunctionDef.mk name params result body span).ReadsBack := by
  intro fuel rest hfuel hts hrest
  have hlength : (stmtTokens body).length ≤ fuel := by
    simp [FunctionDef.tokens] at hfuel
    omega
  cases result with
  | none =>
    simp [FunctionDef.tokens, resultTokens] at hts
    simp [FunctionDef.tokens, FunctionDef.read, FunctionDef.bare, resultTokens, readParams_tokens,
      hparams, hbody.read hlength, hts, hrest]
  | some type =>
    simp [FunctionDef.tokens, resultTokens] at hts
    have htype : type.isPlain = true := hresult
    simp [FunctionDef.tokens, FunctionDef.read, FunctionDef.bare, resultTokens, readParams_tokens,
      TypeExpr.read_printed, hparams, htype, hbody.read hlength, hts, hrest]

section Members

variable {guild : String} {n : Nat} {forge : Option Forge}

/-- Methods are read back up to the brace of the guild. -/
theorem readMembers_methods {ms : List FunctionDef} (h : ∀ m ∈ ms, m.ReadsBack)
    (hfuel : (methodTokens ms).length ≤ fuel + 1) (hn : (methodTokens ms).length < n)
    (hts : Placeless (methodTokens ms)) (hrest : Placeless rest) :
    readMembers ending (Stmt.readWith ending fuel) guild n forge
        (methodTokens ms ++ sign .rbrace :: rest) =
      .ok (⟨[], forge, bareMethods ms⟩, sign .rbrace :: rest) := by
  induction ms generalizing n with
  | nil =>
    obtain _ | n := n
    · omega
    rfl
  | cons m ms ih =>
    obtain _ | n := n
    · omega
    obtain ⟨hm, hms⟩ := List.forall_mem_cons.1 h
    rw [methodTokens] at hfuel hn hts ⊢
    rw [List.length_append] at hfuel hn
    rw [placeless_append] at hts
    have hmethod := hm fuel (methodTokens ms ++ sign .rbrace :: rest) (by omega) hts.1
      (placeless_append.2 ⟨hts.2, placeless_cons.2 hrest⟩)
    obtain ⟨us, hus⟩ : ∃ us, m.tokens = word .don :: us := by
      cases m
      exact ⟨_, rfl⟩
    rw [hus, List.length_cons] at hn
    have hothers := ih hms (by omega) (n := n) (by omega) hts.2
    rw [List.append_assoc]
    generalize methodTokens ms ++ sign .rbrace :: rest = others at hmethod hothers
    rw [hus, List.cons_append, word] at hmethod ⊢
    simp [readMembers, hmethod, hothers, bareMethods]

/-- A forge whose parameters and body are read back. -/
def Forge.ReadsBack : Forge → Prop
  | .mk params body _ => params.all (·.type.isPlain) = true ∧ Block body

theorem readMembers_forge {ms : List FunctionDef} (hforge : ∀ f ∈ forge, f.ReadsBack)
    (h : ∀ m ∈ ms, m.ReadsBack)
    (hfuel : (forgeTokens forge).length + (methodTokens ms).length ≤ fuel + 1)
    (hn : (forgeTokens forge).length + (methodTokens ms).length < n)
    (hts : Placeless (forgeTokens forge)) (hmethods : Placeless (methodTokens ms))
    (hrest : Placeless rest) :
    readMembers ending (Stmt.readWith ending fuel) guild n none
        (forgeTokens forge ++ (methodTokens ms ++ sign .rbrace :: rest)) =
      .ok (⟨[], bareForge forge, bareMethods ms⟩, sign .rbrace :: rest) := by
  obtain _ | n := n
  · omega
  cases forge with
  | none => exact readMembers_methods h (by omega) (by omega) hmethods hrest
  | some forge =>
    obtain ⟨params, body, span⟩ := forge
    obtain ⟨hparams, hbody⟩ := hforge _ rfl
    simp [forgeTokens, Forge.tokens] at hfuel hts hn
    have hothers : readMembers ending (Stmt.readWith ending fuel) guild n
        (bareForge (some (.mk params body span))) (methodTokens ms ++ sign .rbrace :: rest) = _ :=
      readMembers_methods h (by omega) (by omega) hmethods hrest
    have hafter : Placeless (methodTokens ms ++ sign .rbrace :: rest) :=
      placeless_append.2 ⟨hmethods, placeless_cons.2 hrest⟩
    have hblock := hbody.read (show _ ≤ fuel by omega) hts.2 hafter
    generalize methodTokens ms ++ sign .rbrace :: rest = others at hothers hafter hblock
    simp only [bareForge, Forge.bare] at hothers
    simp [readMembers, forgeTokens, Forge.tokens, readParams_tokens, hparams, hblock, hts,
      hafter, hothers, bareForge, Forge.bare]

/-- So are fields and a forge before them. -/
theorem readMembers_tokens (guild : String) {fs : List FieldDef} {ms : List FunctionDef}
    (hfields : fs.all (·.type.isPlain) = true) (hforge : ∀ f ∈ forge, f.ReadsBack)
    (h : ∀ m ∈ ms, m.ReadsBack)
    (hfuel : (forgeTokens forge).length + (methodTokens ms).length ≤ fuel + 1)
    (hn : (fs.flatMap fun f => f.tokens ++ [sign .semicolon]).length +
      ((forgeTokens forge).length + (methodTokens ms).length) < n)
    (hts : Placeless (fs.flatMap fun f => f.tokens ++ [sign .semicolon]))
    (hforged : Placeless (forgeTokens forge)) (hmethods : Placeless (methodTokens ms))
    (hrest : Placeless rest) :
    readMembers ending (Stmt.readWith ending fuel) guild n none
        (fs.flatMap (fun f => f.tokens ++ [sign .semicolon]) ++
          (forgeTokens forge ++ (methodTokens ms ++ sign .rbrace :: rest))) =
      .ok (⟨fs.map FieldDef.bare, bareForge forge, bareMethods ms⟩, sign .rbrace :: rest) := by
  induction fs generalizing n with
  | nil => exact readMembers_forge hforge h hfuel (by simpa using hn) hforged hmethods hrest
  | cons f fs ih =>
    obtain _ | n := n
    · omega
    obtain ⟨hf, hfs⟩ := Bool.and_eq_true_iff.1 hfields
    rw [List.flatMap_cons] at hn hts ⊢
    rw [List.length_append, List.length_append, List.length_singleton] at hn
    simp [FieldDef.tokens, typedTokens] at hts
    have hothers := ih hfs (n := n) (by omega) (by simpa [FieldDef.tokens, typedTokens] using hts.2)
    have hafter : Placeless (fs.flatMap (fun f => f.tokens ++ [sign .semicolon]) ++
        (forgeTokens forge ++ (methodTokens ms ++ sign .rbrace :: rest))) := by
      simp [FieldDef.tokens, typedTokens, hts, hforged, hmethods, hrest]
    rw [List.append_assoc]
    generalize fs.flatMap (fun f => f.tokens ++ [sign .semicolon]) ++
        (forgeTokens forge ++ (methodTokens ms ++ sign .rbrace :: rest)) = others at hothers hafter
    have hread := FieldDef.read_printed hf hts.1
      (show Stops (sign .semicolon :: others) from stops_cons.2 ⟨hafter, rfl⟩)
    simp only [FieldDef.tokens, typedTokens, List.cons_append, ident, sign] at hread
    simp [readMembers, FieldDef.tokens, typedTokens, hread, hothers]

end Members

/-! ### Statements -/

section Simple

variable {e : Expr} (h : e.isPlain = true)
include h

/-- What starts as an operand does is read as a statement without a keyword. -/
theorem readWith_simple (fuel : Nat) (ts : List Token) :
    Stmt.readWith ending (fuel + 1) (e.tokens ++ ts) = Stmt.readSimple ending (e.tokens ++ ts) := by
  obtain ⟨t, rest, htokens, hstarts⟩ := Expr.tokens_start h ts
  rw [htokens, Stmt.readWith]
  simp only [next]
  split <;> first | rfl | (next hkind => rw [hkind] at hstarts; cases hstarts)

theorem starts_semicolon (ts : List Token) :
    starts (.operator .semicolon) (e.tokens ++ ts) = false := by
  obtain ⟨t, rest, htokens, hstarts⟩ := Expr.tokens_start h ts
  rw [htokens]
  refine Bool.eq_false_iff.2 fun hkind => ?_
  rw [show t.kind = .operator .semicolon by simpa [starts] using hkind] at hstarts
  cases hstarts

end Simple

theorem span_next (h : Placeless ts) : (next ending ts).span = .nowhere := by
  cases ts with
  | nil => rfl
  | cons t ts => exact congrArg Token.span (h t List.mem_cons_self).symm

/-- The tokens of a branch behind its keyword. -/
def branchTokens (test : Expr) (body : List Stmt) (alternate : Alternate) : List Token :=
  test.tokens ++ (braced (stmtTokens body) ++ alternate.tokens)

/-- An alternate that is read back behind each test and body that are. -/
def Alternate.ReadsBack (alternate : Alternate) : Prop :=
  ∀ (test : Expr) (body : List Stmt), test.isPlain = true → Block body → ∀ fuel rest,
    (branchTokens test body alternate).length ≤ fuel → Next rest →
    Placeless (branchTokens test body alternate) → Placeless rest →
      Stmt.readBranch ending fuel (branchTokens test body alternate ++ rest) =
        .ok ((test.bare, bareBlock body, alternate.bare, .nowhere), rest)

attribute [local simp] Stmt.tokens Stmt.isPlain Stmt.bare Stmt.readWith Stmt.finish
  Stmt.readDeclare readTyped typedTokens Stmt.readMatter Stmt.readGuild Stmt.readSimple Stmt.readFor
  Alternate.tokens Alternate.isPlain Alternate.bare FunctionDef.isPlain Forge.isPlain
  forgePlain blockPlain methodsPlain Stmt.readBranch TypeExpr.read_printed Expr.read_printed
  span_next

mutual

/-- Every statement is read back. -/
theorem Stmt.readsBack (s : Stmt) (h : s.isPlain = true) : s.ReadsBack := by
  intro fuel rest hfuel hnext hts hrest
  obtain ⟨fuel, rfl⟩ : ∃ n, fuel = n + 1 := by
    obtain ⟨t, us, htokens, -⟩ := s.tokens_start h
    rw [htokens, List.length_cons] at hfuel
    exact ⟨fuel - 1, by omega⟩
  match s with
  | .declare mutable name type value span =>
    simp at h hts
    cases mutable <;> simp [h, hts, hrest]
  | .function definition =>
    have hread := definition.readsBack h fuel rest hfuel hts hrest
    obtain ⟨name, params, result, body, span⟩ := definition
    simp [FunctionDef.tokens] at hread
    simp [FunctionDef.tokens, hread]
  | .matter name fields span =>
    simp only [Stmt.tokens, word, ident, sign, placeless_append, placeless_cons] at hts
    have hlength : (commas (fields.map FieldDef.tokens)).length <
        (commas (fields.map FieldDef.tokens) ++ sign .rbrace :: rest).length + 1 := by
      rw [List.length_append]
      omega
    have hread := items_matterFields h hts.1 hrest hlength
    simp only [sign, List.length_append, List.length_cons] at hread
    simp [hread]
  | .guild name fields forge methods span =>
    simp at h
    obtain ⟨hfields, hts⟩ := placeless_append.1 (placeless_cons.1 (placeless_cons.1
      (placeless_cons.1 hts)))
    rw [placeless_append, placeless_append] at hts
    simp only [Stmt.tokens, List.length_cons, List.length_append] at hfuel
    have hread := readMembers_tokens name
      (n := (fields.flatMap (fun f => f.tokens ++ [sign .semicolon]) ++
        (forgeTokens forge ++ (methodTokens methods ++ sign .rbrace :: rest))).length + 1)
      (by simpa using h.1.1) (readsBack_forge forge h.1.2) (readsBack_methods methods h.2)
      (show _ ≤ fuel + 1 by omega) (by simp only [List.length_append]; omega) hfields hts.1 hts.2.1
      hrest
    simp at hread
    simp [hread]
  | .print value span =>
    simp at h hts
    simp [h, hts, hrest]
  | .assign _ _ _ | .increment _ _ | .decrement _ _ =>
    simp at h hts
    simp [readWith_simple, h, hts, hrest, -Stmt.readWith]
  | .return_ value span =>
    cases value with
    | none => simp
    | some value =>
      simp at h hts
      simp [starts_semicolon, h, hts, hrest]
  | .branch test body alternate span =>
    simp at h hts hfuel
    have hread := alternate.readsBack h.2 test body h.1.1 ⟨h.1.2, readsBack_block body h.1.2⟩ fuel
      rest (by simp [branchTokens]; omega) hnext (by simp [branchTokens, hts]) hrest
    simp only [branchTokens, List.append_assoc] at hread
    simp [hread]
  | .while_ test body span | .repeat_ test body span | .forEach _ test body span =>
    simp at h hts hfuel
    have hbody : Block body := ⟨h.2, readsBack_block body h.2⟩
    have hlength : (stmtTokens body).length ≤ fuel := by omega
    simp [h, hts, hrest, hbody.read hlength]
  | .range iterator low kind high body span =>
    simp at h hts hfuel
    have hbody : Block body := ⟨h.2, readsBack_block body h.2⟩
    have hlength : (stmtTokens body).length ≤ fuel := by omega
    cases kind <;> simp [rangeSign, h, hts, hrest, hbody.read hlength]
  | .break_ span => simp
  | .call callee args callSpan span =>
    have hcall : (Expr.call callee args callSpan).isPlain = true := h
    rw [Stmt.tokens, placeless_append] at hts
    have hread := Expr.read_printed hcall hts.1
      (show Stops (sign .semicolon :: rest) from stops_cons.2 ⟨hrest, rfl⟩)
    rw [sign] at hread
    rw [Stmt.tokens, List.append_assoc, List.singleton_append, readWith_simple hcall]
    simp [-Expr.read_printed, hread, Expr.bare, hts, hrest]

theorem readsBack_block (ss : List Stmt) (h : blockPlain ss = true) :
    ∀ s ∈ ss, s.ReadsBack := by
  match ss with
  | [] => nofun
  | s :: rest =>
    obtain ⟨hs, hrest⟩ := Bool.and_eq_true_iff.1 h
    exact List.forall_mem_cons.2 ⟨s.readsBack hs, readsBack_block rest hrest⟩

theorem FunctionDef.readsBack (m : FunctionDef) (h : m.isPlain = true) : m.ReadsBack := by
  match m with
  | .mk name params result body span =>
    obtain ⟨h, hbody⟩ := Bool.and_eq_true_iff.1 h
    obtain ⟨hparams, hresult⟩ := Bool.and_eq_true_iff.1 h
    exact FunctionDef.readsBack_mk span hparams hresult ⟨hbody, readsBack_block body hbody⟩

theorem readsBack_methods (ms : List FunctionDef) (h : methodsPlain ms = true) :
    ∀ m ∈ ms, m.ReadsBack := by
  match ms with
  | [] => nofun
  | m :: rest =>
    obtain ⟨hm, hrest⟩ := Bool.and_eq_true_iff.1 h
    exact List.forall_mem_cons.2 ⟨m.readsBack hm, readsBack_methods rest hrest⟩

theorem readsBack_forge (forge : Option Forge) (h : forgePlain forge = true) :
    ∀ f ∈ forge, f.ReadsBack := by
  match forge with
  | none => nofun
  | some (.mk params body span) =>
    obtain ⟨hparams, hbody⟩ := Bool.and_eq_true_iff.1 h
    intro f hf
    cases hf
    exact ⟨hparams, hbody, readsBack_block body hbody⟩

theorem Alternate.readsBack (alternate : Alternate) (h : alternate.isPlain = true) :
    alternate.ReadsBack := by
  intro test body htest hbody fuel rest hfuel hnext hts hrest
  simp [branchTokens] at hts hfuel
  obtain _ | fuel := fuel
  · omega
  match alternate with
  | .none =>
    have hlength : (stmtTokens body).length ≤ fuel := by omega
    have helse : starts (.keyword .else_) rest = false := hnext
    simp [branchTokens, htest, hts, hrest, hbody.read hlength, helse]
  | .block body' =>
    simp at hts hfuel h
    have hlength : (stmtTokens body).length ≤ fuel := by omega
    have hlength' : (stmtTokens body').length ≤ fuel := by omega
    have hbody' : Block body' := ⟨h, readsBack_block body' h⟩
    simp [branchTokens, htest, hts, hrest, hbody.read hlength, hbody'.read hlength']
  | .chain test' body' next span =>
    simp at hts hfuel h
    have hlength : (stmtTokens body).length ≤ fuel := by omega
    have hread := next.readsBack h.2 test' body' h.1.1 ⟨h.1.2, readsBack_block body' h.1.2⟩ fuel
      rest (by simp [branchTokens]; omega) hnext (by simp [branchTokens, hts]) hrest
    simp only [branchTokens, List.append_assoc] at hread
    simp [branchTokens, htest, hts, hrest, hbody.read hlength, hread]

end

/-! ### Programs -/

/-- Reading the tokens of a program gives the program, wherever the tokens stand. -/
theorem Program.read_tokens (file : String) (p : Program) (h : p.isPlain = true)
    (stream : TokenStream) (htokens : stream.tokens.map Token.bare = p.tokens) :
    ∃ p', Program.read file stream = .ok p' ∧ p'.bare = p.bare := by
  have hplaceless : Placeless p.tokens := by
    rw [← htokens]
    exact List.forall_mem_map.2 fun t _ => rfl
  have hlength : (stmtTokens p.statements).length = stream.tokens.length := by
    rw [← Program.tokens, ← htokens, List.length_map]
  have hprinted : items ending .eof (Stmt.readWith ending (stream.tokens.length + 1))
      (stream.tokens.length + 1) (stmtTokens p.statements ++ []) = _ :=
    Block.readItems ⟨h, readsBack_block p.statements h⟩ rfl (by omega) (by omega) hplaceless rfl
      placeless_nil rfl
  -- The tokens where they stand are followed by the printed ones, which have no places.
  have hbare := follows_statements (Nat.lt_succ_self stream.tokens.length) (Nat.le_refl _)
    (Nat.lt_succ_self _) (Nat.le_refl _) atEnding
  have hbefore : atEnding.before stream.tokens = stmtTokens p.statements ++ [] :=
    congrArg (· ++ []) htokens
  rw [hbefore] at hbare
  cases hread : items ending .eof (Stmt.readWith ending (stream.tokens.length + 1))
      (stream.tokens.length + 1) stream.tokens with
  | error fault => cases hprinted.symm.trans (hbare.fault fault hread ⟨rfl, rfl⟩)
  | ok taken =>
    obtain ⟨statements, rest⟩ := taken
    have hvalue := hprinted.symm.trans (hbare.value statements rest hread fun _ => rfl)
    have hstatements : statements.map Stmt.bare = bareBlock p.statements :=
      (Prod.ext_iff.1 (Except.ok.inj hvalue)).1.symm
    -- What is read does not depend on the mark of the end.
    have hsame := (follows_statements (Nat.lt_succ_self stream.tokens.length) (Nat.le_refl _)
      (Nat.lt_succ_self _) (Nat.le_refl _) (⟨[], stream.eof, rfl⟩ : Tail Moving.same ending)).value
      statements rest hread fun _ => rfl
    rw [Tail.before_same, List.append_nil,
      show statements.map Moving.same.stmt = statements from List.map_id _] at hsame
    refine ⟨⟨statements, ⟨file, .origin, stream.eof.span.stop⟩⟩, congrArg (· >>= _) hsame, ?_⟩
    rw [Program.bare, Program.bare, hstatements, bareBlock_eq_map]

/-- A guild whose forge takes a function, a test with an alternate, and `(a + b) * (-c) ** d` beside
`x ?? (naught int?)`. -/
def sampleProgram : Program :=
  let at_ : Span := ⟨"sample", ⟨3, 1⟩, ⟨9, 2⟩⟩
  let int : TypeExpr := .named "int" at_
  let name (n : String) : Expr := .identifier n at_
  let unwrapped : Expr :=
    .coalesce (name "x") (.naught (.optional int at_) at_) at_
  let product : Expr :=
    .binary (.binary (name "a") .add (name "b") at_) .mul
      (.binary (.unary .neg (name "c") at_) .pow (name "d") at_) at_
  let body : List Stmt :=
    [.branch (.binary (name "a") .lt (name "b") at_) [.return_ (some product) at_]
      (.chain (.boolean true at_) [.print (.interpolation [.string "x is " at_, name "x"] at_) at_]
        (.block [.range "i" (.integer "0" at_) .halfOpen (name "n") [.break_ at_] at_]) at_) at_,
      .assign (.member (.mine at_) .plain "field" at_) unwrapped at_]
  ⟨[.guild "Smith" [⟨"field", .list int at_, at_⟩]
      (some (.mk [⟨"make", .function [int] (.optional int at_) at_, at_⟩] [] at_))
      [.mk "work" [⟨"a", int, at_⟩, ⟨"b", int, at_⟩] (some int) body at_] at_,
    .matter "Pair" [⟨"left", int, at_⟩, ⟨"right", int, at_⟩] at_,
    .call (.member (name "smith") .optional "work" at_) [.mk (some "a") unwrapped at_] at_ at_],
    at_⟩

/-- The tokens of the sample, each at a place of its own file. -/
def sampleStream : TokenStream :=
  let placed (t : Token) : Token := { t with span := ⟨"other", .origin, .origin⟩ }
  ⟨sampleProgram.tokens.map placed, placed (placeless .eof "")⟩

theorem Program.read_sampleStream :
    sampleProgram.isPlain = true ∧
      sampleStream.tokens.map Token.bare = sampleProgram.tokens ∧
      ∃ p', Program.read "other" sampleStream = .ok p' ∧ p'.bare = sampleProgram.bare := by
  have hplain : sampleProgram.isPlain = true := by decide
  have htokens : sampleStream.tokens.map Token.bare = sampleProgram.tokens := by rfl
  exact ⟨hplain, htokens, Program.read_tokens "other" sampleProgram hplain sampleStream htokens⟩

end Dragon.Tree
