import Dragon.Proofs.Optimize.Inside
import Dragon.Proofs.Optimize.Placed
import Dragon.Proofs.Script.Reads

/-!
# Scopes of scripts

A script can be written for every accepted program, as it is and optimized. In the order of its
text, whatever it names is declared before, in a scope that is still open; and all names that it
declares have different texts, whether they stand for a symbol of the program or are made up for a
loop. Its statements are those of the program, one by one and in the same order.
-/
namespace Dragon.Script

variable {Γ : Context} {names names' : Names} {scope : List Name} {outer scopes : Scopes}

/-! ### What is written -/

/-- A statement is written in some scopes, of which the innermost takes what it declares. -/
structure StmtScoped (Γ : Context) (s : Typed.Stmt) (names : Names) (scope : List Name)
    (outer : Scopes) (w : Stmt) (names' : Names) : Prop where
  gives (depth : Nat) :
    Gives names names' s.entities w.counters (declared (w.pieces depth).flatten)
  walk (depth : Nat) :
    walk (scope :: outer) (w.pieces depth).flatten = some ((w.bound ++ scope) :: outer)
  knows : Knows (Γ.bind s.declared) names' ((w.bound ++ scope) :: outer).flatten
  transcribed {final : Names} (hfinal : names'.KeptIn final) :
    Transcribed final s w ∧ List.Forall₂ (Transcribed final) s.nested w.nested

/-- A block is written in the scope that was entered for it. -/
structure BlockScoped (ss : List Typed.Stmt) (names : Names) (scope : List Name) (outer : Scopes)
    (ws : List Stmt) (names' : Names) : Prop where
  gives (depth : Nat) : Gives names names' (Typed.blockEntities ss) (blockCounters ws)
    (declared (blockPieces depth ws).flatten)
  walk (depth : Nat) :
    ∃ scope', walk (scope :: outer) (blockPieces depth ws).flatten = some (scope' :: outer)
  transcribed {final : Names} (hfinal : names'.KeptIn final) :
    List.Forall₂ (Transcribed final) (Typed.blockInside ss) (blockInside ws)

/-- Methods are written in the scope of their class. -/
structure MethodsScoped (ms : List Typed.Method) (names : Names) (scopes : Scopes)
    (ws : List Method) (names' : Names) : Prop where
  gives (depth : Nat) : Gives names names' (Typed.methodsEntities ms) (methodCounters ws)
    (declared (methodPieces depth ws).flatten)
  walk (depth : Nat) : walk scopes (methodPieces depth ws).flatten = some scopes
  names_eq : ws.map Method.name = ms.map (·.func.name)
  transcribed {final : Names} (hfinal : names'.KeptIn final) :
    List.Forall₂ (Transcribed final) (Typed.methodsInside ms) (methodsInside ws)

/-- An alternate is written where the scope of the branch before it is still open. -/
structure AlternateScoped (a : Typed.Alternate) (names : Names) (scopes : Scopes) (w : Alternate)
    (names' : Names) : Prop where
  gives (depth : Nat) :
    Gives names names' a.entities w.counters (declared (alternatePieces depth w).flatten)
  walk (depth : Nat) (scope : List Name) :
    walk (scope :: scopes) (alternatePieces depth w).flatten = some scopes
  transcribed {final : Names} (hfinal : names'.KeptIn final) :
    List.Forall₂ (Transcribed final) a.inside w.inside

/-- A statement that declares nothing for those after it. -/
theorem StmtScoped.of_quiet {s : Typed.Stmt} {w : Stmt}
    (h : Knows Γ names (scope :: outer).flatten) (hready : Ready names s.entities)
    (hs : s.declared = []) (hw : w.bound = [])
    (hgives : ∀ depth, Gives names names' s.entities w.counters
      (declared (w.pieces depth).flatten))
    (hwalk : ∀ depth, Script.walk (scope :: outer) (w.pieces depth).flatten =
      some (scope :: outer))
    (htranscribed : ∀ {final : Names}, names'.KeptIn final →
      Transcribed final s w ∧ List.Forall₂ (Transcribed final) s.nested w.nested) :
    StmtScoped Γ s names scope outer w names' := by
  refine ⟨hgives, by rwa [hw], ?_, htranscribed⟩
  rw [hs, hw]
  exact h.after hready (hgives 0)

/-- A statement of one line that only reads. -/
theorem StmtScoped.of_line {s : Typed.Stmt} {w : Stmt} {ps : List Piece}
    (h : Knows Γ names (scope :: outer).flatten) (hreads : Reads (scope :: outer).flatten ps)
    (hline : ∀ depth, w.pieces depth = [linePieces depth ps])
    (hs : s.entities = [] ∧ s.declared = []) (hw : w.counters = [] ∧ w.bound = [])
    (htranscribed : ∀ {final : Names}, names.KeptIn final →
      Transcribed final s w ∧ List.Forall₂ (Transcribed final) s.nested w.nested) :
    StmtScoped Γ s names scope outer w names := by
  refine .of_quiet h (hs.1 ▸ .nil names) hs.2 hw.2 (fun depth => ?_) (fun depth => ?_)
    htranscribed
  · rw [hline, hs.1, hw.1, List.flatten_singleton, declared_linePieces, hreads.declared]
    exact .refl names
  · rw [hline, List.flatten_singleton, walk_linePieces, hreads.walk]

theorem Writer.step {α β : Type} {m : Writer α} {f : α → Writer β} {a : α}
    {r : Except Unwritable (β × Names)} (h : m names = .ok (a, names')) (h' : f a names' = r) :
    (m >>= f) names = r :=
  (bind_eq h).trans h'

/-- Names for the next symbols, which the innermost scope takes. -/
theorem nameAll_scoped {α : Type} (entity : α → Entity) (symbol : α → Symbol) (base : α → String)
    (hentity : ∀ a, entity a = .symbol (symbol a).id) (h : Knows Γ names scopes.flatten)
    (as : List α) {es : List Entity} (hready : Ready names (as.map entity ++ es)) : ∃ ns names',
    Writer.nameAll (as.map fun a => (entity a, base a)) names = .ok (ns, names') ∧
      Gives names names' (as.map entity) [] ns ∧ Ready names' es ∧
      Knows (Γ.bind (as.map symbol)) names' (ns.reverse :: scopes).flatten := by
  have hentities : (as.map fun a => (entity a, base a)).map Prod.fst = as.map entity := by
    simp [Function.comp_def]
  obtain ⟨ns, names', hrun, hgives, hlookups⟩ := Writer.nameAll_gives _ (hentities ▸ hready.left)
  rw [hentities] at hgives hlookups
  refine ⟨ns, names', hrun, hgives, hready.after hgives, ?_⟩
  have hknows := h.declare hready.left hgives (as.map symbol) ns
    (List.forall_mem_map.2 fun a ha => hentity a ▸ hlookups _ (List.mem_map_of_mem ha))
  exact hknows.mono (by simp [List.subset_def])

theorem varNames_scoped (h : Knows Γ names scopes.flatten) (vars : List Var) {es : List Entity}
    (hready : Ready names (vars.map .ofVar ++ es)) : ∃ ns names',
    Writer.varNames vars names = .ok (ns, names') ∧
      Gives names names' (vars.map .ofVar) [] ns ∧ Ready names' es ∧
      Knows (Γ.bind (vars.map .var)) names' (ns.reverse :: scopes).flatten := by
  rw [Writer.varNames_eq]
  exact nameAll_scoped .ofVar .var _ (fun _ => rfl) h vars hready

theorem paramNames_scoped (h : Knows Γ names scopes.flatten) (params : List ForgeParam)
    {es : List Entity} (hready : Ready names (params.map .ofParam ++ es)) : ∃ ns names',
    Writer.paramNames params names = .ok (ns, names') ∧
      Gives names names' (params.map .ofParam) [] ns ∧ Ready names' es ∧
      Knows (Γ.bind (params.map .param)) names' (ns.reverse :: scopes).flatten := by
  rw [Writer.paramNames_eq]
  exact nameAll_scoped .ofParam .param _ (fun _ => rfl) h params hready

/-- A name for the next symbol, which is known with it wherever others are. -/
theorem nameOf_scoped (symbol : Symbol) (base : String) {es : List Entity}
    (hready : Ready names (.symbol symbol.id :: es)) : ∃ n names',
    Writer.nameOf (.symbol symbol.id) base names = .ok (n, names') ∧
      Gives names names' [.symbol symbol.id] [] [n] ∧ Ready names' es ∧
      names'.given.lookup (.symbol symbol.id) = some n ∧
      ∀ {Γ : Context} {visible : List Name}, Knows Γ names visible →
        Knows (Γ.bind [symbol]) names' (n :: visible) := by
  have hready : Ready names ([.symbol symbol.id] ++ es) := hready
  obtain ⟨n, names', hrun, hgives, hlookup⟩ :=
    Writer.nameOf_gives (hready.new _ List.mem_cons_self) base
  refine ⟨n, names', hrun, hgives, hready.after hgives, hlookup, fun h => ?_⟩
  exact h.declare hready.left hgives [symbol] [n] (by simpa using hlookup)

theorem limitName_gives (names : Names) (count : Typed.Expr) : ∃ limit names',
    limitName count names = .ok (limit, names') ∧
      Gives names names' [] limit.toList limit.toList := by
  unfold limitName
  split
  · exact ⟨none, names, rfl, .refl names⟩
  · obtain ⟨n, names', hrun, hgives⟩ := Writer.fresh_gives names "n"
    exact ⟨some n, names', Writer.step hrun rfl, hgives⟩

/-- The parameters of a matter's constructor, and the fields that take them. -/
theorem ofFields_gives (fields : List Typed.FieldInit)
    (hready : Ready names (fields.map fun f => .ofField f.field)) : ∃ ns settings names',
    ofFields fields names = .ok ((ns, settings), names') ∧
      Gives names names' (fields.map fun f => .ofField f.field) [] ns ∧
      settings.map (·.field) = fields.map (·.field.name) ∧
      settings.map (·.value) = ns.map .name := by
  induction fields generalizing names with
  | nil => exact ⟨[], [], names, rfl, .refl names, rfl, rfl⟩
  | cons f rest ih =>
    obtain ⟨field, value⟩ := f
    have hready : Ready names ([.ofField field] ++ rest.map fun f => .ofField f.field) := hready
    obtain ⟨n, names₁, hrun, hgives, -⟩ :=
      Writer.nameOf_gives (hready.new _ List.mem_cons_self) field.name
    obtain ⟨ns, settings, names₂, hrun', hgives', hfields, hvalues⟩ := ih (hready.after hgives)
    exact ⟨n :: ns, _, names₂, Writer.step hrun (Writer.step hrun' rfl), hgives.trans hgives',
      congrArg (field.name :: ·) hfields, congrArg (Expr.name n :: ·) hvalues⟩

/-! ### Statements -/

attribute [local simp] Stmt.pieces blockPieces methodPieces alternatePieces
  Typed.Stmt.entities Typed.blockEntities Typed.methodsEntities Typed.Alternate.entities
  Stmt.counters blockCounters methodCounters Alternate.counters Entity.ofVar Symbol.id

/-- A statement is written wherever the names that it needs are visible. -/
def StmtWrites (s : Typed.Stmt) : Prop :=
  ∀ {Γ names scope outer}, s.Placed Γ →
    Knows Γ names (scope :: outer).flatten → Ready names s.entities →
    ∃ w names', ofStmt s names = .ok (w, names') ∧ StmtScoped Γ s names scope outer w names'

def BlockWrites (ss : List Typed.Stmt) : Prop :=
  ∀ {Γ names scope outer}, Typed.blockPlaced Γ ss →
    Knows Γ names (scope :: outer).flatten → Ready names (Typed.blockEntities ss) →
    ∃ ws names', ofBlock ss names = .ok (ws, names') ∧ BlockScoped ss names scope outer ws names'

def MethodsWrite (ms : List Typed.Method) : Prop :=
  ∀ {Γ names scopes ref}, Typed.methodsPlaced Γ ref ms → Knows Γ names scopes.flatten →
    Ready names (Typed.methodsEntities ms) →
    ∃ ws names', ofMethods ms names = .ok (ws, names') ∧ MethodsScoped ms names scopes ws names'

def AlternateWrites (a : Typed.Alternate) : Prop :=
  ∀ {Γ names scopes}, a.Placed Γ → Knows Γ names scopes.flatten →
    Ready names a.entities →
    ∃ w names', ofAlternate a names = .ok (w, names') ∧ AlternateScoped a names scopes w names'

variable {e : Typed.Expr} {v : Var} {body : List Typed.Stmt} {methods : List Typed.Method}
  {alternate : Typed.Alternate}

/-! ### Declarations -/

theorem writes_declare {mutable : Bool} : StmtWrites (.declare mutable v e) := by
  intro Γ names scope outer hs h hready
  obtain ⟨n, names₁, hname, hgives, -, hlookup, hknows⟩ := nameOf_scoped (.var v) v.name hready
  obtain ⟨w, hrun, hw⟩ := (reads_ofExpr (hknows h).of_bind e hs).run
  have hw : Reads ((n :: scope) :: outer).flatten w.pieces := hw
  refine ⟨_, names₁, Writer.step hname (Writer.step hrun rfl),
    fun depth => ?_, fun depth => ?_, hknows h,
    fun hfinal => ⟨.declare (hfinal _ _ hlookup), .nil⟩⟩
  · simpa [hw.declared] using hgives
  · simp [hw.walk, Stmt.bound]

/-- The parameters of a function are in scope in its body. -/
theorem writes_function {f : Func} (hbody : BlockWrites body) :
    StmtWrites (.function f body) := by
  intro Γ names scope outer hs h hready
  -- The parameters are named before the function, though they are written behind its name.
  have hready : Ready names (f.params.map .ofVar ++ .symbol f.id :: Typed.blockEntities body) :=
    hready.perm List.perm_middle.symm
  obtain ⟨ns, names₁, hparams, hgives₁, hready₁, hknows₁⟩ := varNames_scoped h f.params hready
  obtain ⟨n, names₂, hname, hgives₂, hready₂, -, hknows₂⟩ :=
    nameOf_scoped (.func f true) f.name hready₁
  have hfunction := hknows₂ (h.after hready.left hgives₁)
  have hinner : Knows (Typed.bodyContext (Γ.bind [.func f true]) f none) names₂
      (ns.reverse :: (n :: scope) :: outer).flatten :=
    (hknows₂ hknows₁).restrict List.perm_middle.subset List.perm_middle.symm.subset
  obtain ⟨ws, names₃, hrun, hws⟩ := hbody hs hinner hready₂
  refine ⟨_, names₃, Writer.step hparams (Writer.step hname (Writer.step hrun rfl)),
    fun depth => ?_, fun depth => ?_, hfunction.after hready₂ (hws.gives 0),
    fun hfinal => ⟨.function, hws.transcribed hfinal⟩⟩
  · have hgives := hgives₁.trans (hgives₂.trans (hws.gives (depth + 1)))
    simpa [declared_paramPieces] using hgives.perm List.perm_middle List.perm_middle
  · obtain ⟨scope', hwalk⟩ := hws.walk (depth + 1)
    simp [walk_paramPieces, hwalk, Stmt.bound]

variable {ref : ObjectRef} {fields : List Typed.FieldInit} {parameters : Option (List ForgeParam)}

theorem writes_matter : StmtWrites (.object .matter ref fields parameters methods) := by
  intro Γ names scope outer hs h hready
  obtain ⟨n, names₁, hname, hgives₁, hready₁, -, hknows⟩ :=
    nameOf_scoped (.object ref) ref.name hready
  obtain rfl := hs.2.2 rfl
  obtain ⟨ns, settings, names₂, hrun, hgives₂, hfields, hvalues⟩ := ofFields_gives fields hready₁
  have hreads : ∀ s ∈ settings,
      Reads (ns.reverse :: [] :: (n :: scope) :: outer).flatten s.value.pieces := by
    intro s hs
    have hvalue : s.value ∈ ns.map .name := hvalues ▸ List.mem_map_of_mem hs
    obtain ⟨param, hparam, heq⟩ := List.mem_map.1 hvalue
    rw [← heq]
    exact Reads.nil.uses (List.mem_append_left _ (List.mem_reverse.2 hparam))
  refine ⟨_, names₂, Writer.step hname (Writer.step hrun rfl),
    fun depth => ?_, fun depth => ?_, (hknows h).after hready₁ hgives₂,
    fun _ => ⟨.object rfl ⟨hfields, hvalues⟩, .nil⟩⟩
  · simpa [declared_paramPieces, (reads_settings _ hreads).declared] using hgives₁.trans hgives₂
  · simp [walk_paramPieces, (reads_settings _ hreads).walk, Stmt.bound]

theorem writes_guild (hmethods : MethodsWrite methods) :
    StmtWrites (.object .guild ref fields parameters methods) := by
  intro Γ names scope outer hs h hready
  obtain ⟨n, names₁, hname, hgives₁, hready₁, -, hknows₁⟩ :=
    nameOf_scoped (.object ref) ref.name hready
  have hclass : Knows (Γ.bind [.object ref]) names₁ ([] :: (n :: scope) :: outer).flatten :=
    hknows₁ h
  obtain ⟨ns, names₂, hparams, hgives₂, hready₂, hknows₂⟩ :=
    paramNames_scoped hclass (parameters.getD []) hready₁
  have hforge : Knows (Typed.forgeContext (Γ.bind [.object ref]) ref parameters) names₂
      (ns.reverse :: [] :: (n :: scope) :: outer).flatten := hknows₂
  obtain ⟨settings, hfields, hsettings, hsets⟩ := (reads_ofSettings hforge fields hs.1).run
  obtain ⟨ws, names₃, hrun, hws⟩ :=
    hmethods hs.2.1 (hclass.after hready₁.left hgives₂) hready₂
  have hkept : names₂.KeptIn names₃ := (hws.gives 0).kept hready₂
  refine ⟨_, names₃, Writer.step hname (Writer.step hparams
    (Writer.step hfields (Writer.step hrun rfl))), fun depth => ?_, fun depth => ?_, ?_,
    fun hfinal => ⟨.object hws.names_eq (hsets _ (hkept.trans hfinal)), hws.transcribed hfinal⟩⟩
  · simpa [declared_paramPieces, (reads_settings _ hsettings).declared]
      using hgives₁.trans (hgives₂.trans (hws.gives (depth + 1)))
  · simp [walk_paramPieces, (reads_settings _ hsettings).walk, hws.walk, Stmt.bound]
  · exact (hknows₁ h).after hready₁ (hgives₂.trans (hws.gives 0))

/-! ### Branches and loops -/

theorem writes_branch (hbody : BlockWrites body) (halternate : AlternateWrites alternate) :
    StmtWrites (.branch e body alternate) := by
  intro Γ names scope outer hs h hready
  have hready : Ready names (Typed.blockEntities body ++ alternate.entities) := hready
  obtain ⟨t, htest, ht⟩ := (reads_ofExpr h e hs.1).run
  have hentered : Knows Γ names ([] :: scope :: outer).flatten := h
  obtain ⟨ws, names₁, hrun, hws⟩ := hbody hs.2.1 hentered hready.left
  obtain ⟨a, names₂, hrun', ha⟩ :=
    halternate hs.2.2 (h.after hready.left (hws.gives 0)) (hready.after (hws.gives 0))
  refine ⟨_, names₂, Writer.step htest (Writer.step hrun (Writer.step hrun' rfl)),
    .of_quiet h hready rfl rfl (fun depth => ?_) (fun depth => ?_)
    fun hfinal => ⟨.branch, List.rel_append ?_ (ha.transcribed hfinal)⟩⟩
  · simpa [ht.declared] using (hws.gives (depth + 1)).trans (ha.gives depth)
  · obtain ⟨scope', hwalk⟩ := hws.walk (depth + 1)
    simp [ht.walk, hwalk, ha.walk]
  · exact hws.transcribed (((ha.gives 0).kept (hready.after (hws.gives 0))).trans hfinal)

theorem writes_while (hbody : BlockWrites body) : StmtWrites (.while_ e body) := by
  intro Γ names scope outer hs h hready
  obtain ⟨t, htest, ht⟩ := (reads_ofExpr h e hs.1).run
  have hentered : Knows Γ.looping names ([] :: scope :: outer).flatten := h
  obtain ⟨ws, names₁, hrun, hws⟩ := hbody hs.2 hentered hready
  refine ⟨_, names₁, Writer.step htest (Writer.step hrun rfl),
    .of_quiet h hready rfl rfl (fun depth => ?_) (fun depth => ?_)
    fun hfinal => ⟨.while_, hws.transcribed hfinal⟩⟩
  · simpa [ht.declared] using hws.gives (depth + 1)
  · obtain ⟨scope', hwalk⟩ := hws.walk (depth + 1)
    simp [ht.walk, hwalk]

/-- The counters of a loop have names of their own. -/
theorem writes_repeat (hbody : BlockWrites body) : StmtWrites (.repeat_ e body) := by
  intro Γ names scope outer hs h hready
  obtain ⟨i, names₁, hindex, hgives₁⟩ := Writer.fresh_gives names "i"
  obtain ⟨limit, names₂, hlimit, hgives₂⟩ := limitName_gives names₁ e
  have hgives := hgives₁.trans hgives₂
  have hready₀ : Ready names ([] ++ Typed.blockEntities body) := hready
  have hheader : Knows Γ names₂ ((limit.toList ++ [i]) :: scope :: outer).flatten :=
    (h.after (.nil names) hgives).mono (List.subset_append_right _ _)
  obtain ⟨c, hcount, hc⟩ := (reads_ofExpr hheader e hs.1).run
  have hentered : Knows Γ.looping names₂
      ([] :: (limit.toList ++ [i]) :: scope :: outer).flatten := hheader
  obtain ⟨ws, names₃, hrun, hws⟩ := hbody hs.2 hentered (hready₀.after hgives)
  refine ⟨_, names₃, Writer.step hindex (Writer.step hlimit
    (Writer.step hcount (Writer.step hrun rfl))), .of_quiet h hready rfl rfl (fun depth => ?_)
    (fun depth => ?_) fun hfinal => ⟨.repeat_, hws.transcribed hfinal⟩⟩
  · simpa [declared_countPieces hc] using hgives.trans (hws.gives (depth + 1))
  · obtain ⟨scope', hwalk⟩ := hws.walk (depth + 1)
    simp [walk_countPieces hc, hwalk]

theorem writes_range {low high : Typed.Expr} {kind : RangeKind} (hbody : BlockWrites body) :
    StmtWrites (.range v low kind high body) := by
  intro Γ names scope outer hs h hready
  obtain ⟨n, names₁, hname, hgives, hready₁, -, hknows⟩ := nameOf_scoped (.var v) v.name hready
  have hheader : Knows Γ names₁ ([n] :: scope :: outer).flatten := (hknows h).of_bind
  have hentered : Knows (Γ.looping.bind [.var v]) names₁ ([] :: [n] :: scope :: outer).flatten :=
    hknows h
  obtain ⟨ws, names₂, hrun, hws⟩ := hbody hs.2.2 hentered hready₁
  obtain ⟨l, hlow, hl⟩ := (reads_ofExpr hheader low hs.1).run
  obtain ⟨u, hhigh, hu⟩ := (reads_ofExpr hheader high hs.2.1).run
  refine ⟨_, names₂, Writer.step hname (Writer.step hlow
    (Writer.step hhigh (Writer.step hrun rfl))), .of_quiet h hready rfl rfl (fun depth => ?_)
    (fun depth => ?_) fun hfinal => ⟨.range, hws.transcribed hfinal⟩⟩
  · simpa [declared_rangePieces hl hu] using hgives.trans (hws.gives (depth + 1))
  · obtain ⟨scope', hwalk⟩ := hws.walk (depth + 1)
    simp [walk_rangePieces hl hu, hwalk]

theorem writes_forEach (hbody : BlockWrites body) : StmtWrites (.forEach v e body) := by
  intro Γ names scope outer hs h hready
  obtain ⟨n, names₁, hname, hgives, hready₁, -, hknows⟩ := nameOf_scoped (.var v) v.name hready
  have hheader : Knows Γ names₁ ([n] :: scope :: outer).flatten := (hknows h).of_bind
  have hentered : Knows (Γ.looping.bind [.var v]) names₁ ([] :: [n] :: scope :: outer).flatten :=
    hknows h
  obtain ⟨ws, names₂, hrun, hws⟩ := hbody hs.2 hentered hready₁
  obtain ⟨c, hcollection, hc⟩ := (reads_ofExpr hheader e hs.1).run
  refine ⟨_, names₂, Writer.step hname (Writer.step hcollection (Writer.step hrun rfl)),
    .of_quiet h hready rfl rfl (fun depth => ?_) (fun depth => ?_)
    fun hfinal => ⟨.forEach, hws.transcribed hfinal⟩⟩
  · simpa [declared_eachPieces hc] using hgives.trans (hws.gives (depth + 1))
  · obtain ⟨scope', hwalk⟩ := hws.walk (depth + 1)
    simp [walk_eachPieces hc, hwalk]

/-! ### All statements -/

mutual

/-- Every statement is written in scope. -/
theorem scoped_ofStmt (s : Typed.Stmt) : StmtWrites s := by
  intro Γ names scope outer hs h hready
  match s with
  | .declare .. => exact writes_declare hs h hready
  | .function _ body => exact writes_function (scoped_ofBlock body) hs h hready
  | .object .matter .. => exact writes_matter hs h hready
  | .object .guild _ _ _ methods => exact writes_guild (scoped_ofMethods methods) hs h hready
  | .print e =>
    obtain ⟨w, hrun, hw⟩ := (reads_ofExpr h e hs).run
    exact ⟨_, names, Writer.step hrun rfl, .of_line h ((hw.append (.plain _)).text _)
      (fun _ => rfl) ⟨rfl, rfl⟩ ⟨rfl, rfl⟩ fun _ => ⟨.print, .nil⟩⟩
  | .increment e | .decrement e =>
    obtain ⟨w, hrun, hw⟩ := (reads_ofExpr h e hs).run
    refine ⟨_, names, Writer.step hrun rfl, .of_line h (hw.append (.plain _))
      (fun _ => rfl) ⟨rfl, rfl⟩ ⟨rfl, rfl⟩ fun hfinal => ⟨?_, .nil⟩⟩
    have hrooted := (rooted_ofExpr h e hs hrun).later hfinal
    first | exact .increment hrooted | exact .decrement hrooted
  | .call e =>
    obtain ⟨w, hrun, hw⟩ := (reads_ofExpr h e hs).run
    exact ⟨_, names, Writer.step hrun rfl, .of_line h (hw.append (.plain _))
      (fun _ => rfl) ⟨rfl, rfl⟩ ⟨rfl, rfl⟩ fun _ => ⟨.call, .nil⟩⟩
  | .assign target source =>
    obtain ⟨t, hrun, ht⟩ := (reads_ofExpr h target hs.1).run
    obtain ⟨w, hrun', hw⟩ := (reads_ofExpr h source hs.2).run
    exact ⟨_, names, Writer.step hrun (Writer.step hrun' rfl),
      .of_line h (ht.append ((hw.append (.plain _)).text _)) (fun _ => rfl) ⟨rfl, rfl⟩ ⟨rfl, rfl⟩
      fun hfinal => ⟨.assign ((rooted_ofExpr h target hs.1 hrun).later hfinal), .nil⟩⟩
  | .return_ e =>
    obtain ⟨w, hrun, hw⟩ := (reads_ofExpr h e hs.2).run
    exact ⟨_, names, Writer.step hrun rfl, .of_line h ((hw.append (.plain _)).text _)
      (fun _ => rfl) ⟨rfl, rfl⟩ ⟨rfl, rfl⟩ fun _ => ⟨.return_, .nil⟩⟩
  | .shortReturn =>
    exact ⟨_, names, rfl, .of_line h (.plain _) (fun _ => rfl) ⟨rfl, rfl⟩ ⟨rfl, rfl⟩
      fun _ => ⟨.shortReturn, .nil⟩⟩
  | .break_ =>
    exact ⟨_, names, rfl, .of_line h (.plain _) (fun _ => rfl) ⟨rfl, rfl⟩ ⟨rfl, rfl⟩
      fun _ => ⟨.break_, .nil⟩⟩
  | .branch _ body alternate =>
    exact writes_branch (scoped_ofBlock body) (scoped_ofAlternate alternate) hs h hready
  | .while_ _ body => exact writes_while (scoped_ofBlock body) hs h hready
  | .repeat_ _ body => exact writes_repeat (scoped_ofBlock body) hs h hready
  | .range _ _ _ _ body => exact writes_range (scoped_ofBlock body) hs h hready
  | .forEach _ _ body => exact writes_forEach (scoped_ofBlock body) hs h hready
  | .foreignRange .. | .expr _ | .bare .. | .misplaced .. => exact hs.elim

theorem scoped_ofBlock (ss : List Typed.Stmt) : BlockWrites ss := by
  intro Γ names scope outer hss h hready
  match ss with
  | [] => exact ⟨[], names, rfl, fun _ => .refl names, fun _ => ⟨scope, rfl⟩, fun _ => .nil⟩
  | s :: rest =>
    have hready : Ready names (s.entities ++ Typed.blockEntities rest) := hready
    obtain ⟨w, names₁, hrun, hw⟩ := scoped_ofStmt s hss.1 h hready.left
    have hready₁ := hready.after (hw.gives 0)
    obtain ⟨ws, names₂, hrun', hws⟩ := scoped_ofBlock rest hss.2 hw.knows hready₁
    refine ⟨w :: ws, names₂, Writer.step hrun (Writer.step hrun' rfl),
      fun depth => ?_, fun depth => ?_, fun hfinal => ?_⟩
    · simpa using (hw.gives depth).trans (hws.gives depth)
    · obtain ⟨scope', hwalk⟩ := hws.walk depth
      exact ⟨scope', by simp [hw.walk, hwalk]⟩
    · obtain ⟨hfirst, hnested⟩ := hw.transcribed (((hws.gives 0).kept hready₁).trans hfinal)
      exact .cons hfirst (List.rel_append hnested (hws.transcribed hfinal))

theorem scoped_ofMethods (ms : List Typed.Method) : MethodsWrite ms := by
  intro Γ names scopes ref hms h hready
  match ms with
  | [] => exact ⟨[], names, rfl, fun _ => .refl names, fun _ => rfl, rfl, fun _ => .nil⟩
  | .mk f body :: rest =>
    have hready : Ready names (f.params.map .ofVar ++ Typed.blockEntities body ++
      Typed.methodsEntities rest) := hready
    obtain ⟨ns, names₁, hparams, hgives₁, hready₁, hknows₁⟩ :=
      varNames_scoped h f.params hready.left
    obtain ⟨b, names₂, hbody, hb⟩ := scoped_ofBlock body hms.1 hknows₁ hready₁
    have hgives (depth : Nat) := hgives₁.trans (hb.gives depth)
    have hready₂ := hready.after (hgives 0)
    obtain ⟨ws, names₃, hrest, hws⟩ :=
      scoped_ofMethods rest hms.2 (h.after hready.left (hgives 0)) hready₂
    refine ⟨_, names₃, Writer.step hparams (Writer.step hbody
      (Writer.step hrest rfl)), fun depth => ?_, fun depth => ?_,
      congrArg (f.name :: ·) hws.names_eq, fun hfinal => ?_⟩
    · simpa [declared_paramPieces] using (hgives (depth + 1)).trans (hws.gives depth)
    · obtain ⟨scope', hwalk⟩ := hb.walk (depth + 1)
      simp [walk_paramPieces, hwalk, hws.walk]
    · exact List.rel_append (hb.transcribed (((hws.gives 0).kept hready₂).trans hfinal))
        (hws.transcribed hfinal)

theorem scoped_ofAlternate (a : Typed.Alternate) : AlternateWrites a := by
  intro Γ names scopes ha h hready
  match a with
  | .none => exact ⟨.none, names, rfl, fun _ => .refl names, fun _ _ => rfl, fun _ => .nil⟩
  | .block body =>
    have hentered : Knows Γ names ([] :: scopes).flatten := h
    obtain ⟨ws, names₁, hbody, hws⟩ := scoped_ofBlock body ha hentered hready
    refine ⟨_, names₁, Writer.step hbody rfl, fun depth => ?_, fun depth scope => ?_,
      hws.transcribed⟩
    · simpa using hws.gives (depth + 1)
    · obtain ⟨scope', hwalk⟩ := hws.walk (depth + 1)
      simp [hwalk]
  | .chain test body alternate =>
    have hready : Ready names (Typed.blockEntities body ++ alternate.entities) := hready
    obtain ⟨t, htest, ht⟩ := (reads_ofExpr h test ha.1).run
    have hentered : Knows Γ names ([] :: scopes).flatten := h
    obtain ⟨ws, names₁, hbody, hws⟩ := scoped_ofBlock body ha.2.1 hentered hready.left
    obtain ⟨w, names₂, halternate, hw⟩ := scoped_ofAlternate alternate ha.2.2
      (h.after hready.left (hws.gives 0)) (hready.after (hws.gives 0))
    refine ⟨_, names₂, Writer.step htest (Writer.step hbody
      (Writer.step halternate rfl)), fun depth => ?_, fun depth scope => ?_,
      fun hfinal => .cons .branch (List.rel_append ?_ (hw.transcribed hfinal))⟩
    · simpa [ht.declared] using (hws.gives (depth + 1)).trans (hw.gives depth)
    · obtain ⟨scope', hwalk⟩ := hws.walk (depth + 1)
      simp [ht.walk, hwalk, hw.walk]
    · exact hws.transcribed (((hw.gives 0).kept (hready.after (hws.gives 0))).trans hfinal)

end

/-! ### Programs -/

/-- The script of a program, with the names that were given for it, seen as the pieces of its
text. -/
structure WellScoped (p : Typed.Program) (script : List Stmt) (names : Names) : Prop where
  text : written (scriptPieces script) = scriptText script
  /-- In the order of the text, whatever is used is declared in a scope that is open. -/
  walk : ∃ globals, walk [[]] (scriptPieces script) = some [globals]
  /-- No two declarations are of the same name. -/
  once : ((declared (scriptPieces script)).map Name.text).Nodup
  /-- What is declared are the names of symbols and the counters of loops. -/
  declared : (declared (scriptPieces script)).Perm
    (names.given.map Prod.snd ++ blockCounters script)
  /-- The symbols with names are those that the program declares, each of them once. -/
  symbols : (names.given.map Prod.fst).Perm (Typed.blockEntities p.statements)
  different : (Typed.blockEntities p.statements).Nodup

/-- The script of a placed program can be written in scope. -/
theorem exists_wellScoped {p : Typed.Program} (hplaced : p.Placed)
    (hnodup : (Typed.blockEntities p.statements).Nodup) : ∃ script names,
    ofBlock p.statements ⟨0, []⟩ = .ok (script, names) ∧ WellScoped p script names ∧
      List.Forall₂ (Transcribed names) p.inside (blockInside script) := by
  have hknows : Knows .initial ⟨0, []⟩ ([[]] : Scopes).flatten := knows_initial _ _
  obtain ⟨script, names, hrun, hscoped⟩ :=
    scoped_ofBlock p.statements hplaced hknows ⟨hnodup, fun _ _ => rfl⟩
  have hdeclared : declared (scriptPieces script) = declared (blockPieces 0 script).flatten :=
    declared_joined _ _
  have hgives := hscoped.gives 0
  rw [← hdeclared] at hgives
  obtain ⟨scope, hwalk⟩ := hscoped.walk 0
  obtain ⟨new, hnew, hsymbols, hnames⟩ := hgives.given
  obtain rfl : names.given = new := hnew.trans (List.append_nil _)
  refine ⟨script, names, hrun, ⟨written_scriptPieces script, ⟨scope, ?_⟩, ?_, hnames, hsymbols,
    hnodup⟩, hscoped.transcribed fun _ _ hn => hn⟩
  · rw [scriptPieces, walk_joined, hwalk]
  · -- Names with the same text have the same number, and all numbers are different.
    refine List.pairwise_map.2 ((List.pairwise_map.1 hgives.nodup_numbers).imp ?_)
    exact fun hnumber htext => hnumber (Name.number_eq_of_text_eq htext)

theorem ofProgram_of_ofBlock {p : Typed.Program} {script : List Stmt} {names : Names}
    (h : ofBlock p.statements ⟨0, []⟩ = .ok (script, names)) : ofProgram p = .ok script := by
  show (ofBlock p.statements ⟨0, []⟩).map (·.1) = .ok script
  rw [h]
  rfl

end Dragon.Script

namespace Dragon

open Script

/-- The script of an accepted program, as it is or optimized, with the names in it. -/
theorem exists_transcript_of_accepted {tree : Tree.Program} {program : Typed.Program}
    (haccepted : (Checked.ofTree tree).result = .ok program) (optimize : Bool) :
    let p := if optimize then program.optimize.value else program
    ∃ script names, ofBlock p.statements ⟨0, []⟩ = .ok (script, names) ∧
      WellScoped p script names ∧
      List.Forall₂ (Transcribed names) p.inside (blockInside script) := by
  have hplaced := Typed.Program.placed_of_accepted haccepted
  refine exists_wellScoped ?_ (nodup_declares haccepted optimize).2
  cases optimize with
  | false => exact hplaced
  | true => exact Typed.Program.placed_optimize hplaced

/-- Whether it is optimized or not, an accepted program has a script, all names of which are
declared once and used only where they are in scope. -/
theorem wellScoped_of_accepted (tree : Tree.Program) (program p : Typed.Program)
    (haccepted : (Checked.ofTree tree).result = .ok program)
    (hp : p = program ∨ p = program.optimize.value) :
    ∃ script names, ofBlock p.statements ⟨0, []⟩ = .ok (script, names) ∧
      WellScoped p script names := by
  obtain ⟨optimize, rfl⟩ : ∃ optimize, p = if optimize then program.optimize.value else program :=
    hp.elim (⟨false, ·⟩) (⟨true, ·⟩)
  obtain ⟨script, names, hrun, hscoped, -⟩ := exists_transcript_of_accepted haccepted optimize
  exact ⟨script, names, hrun, hscoped⟩

/-- Names that are used again inside, names that look like those of scripts, and a branch whose
statements take its place. -/
def shadows : String :=
  "guild B \x7b n: int; forge(n: int) \x7b mine.n = n; \x7d \x7d" ++
  " don i(i_1: int) -> int \x7b return i(i_1: i_1); \x7d" ++
  " repeateth i(i_1: 2) \x7b fact i: int = 1; proclaim i; \x7d" ++
  " perchance 1 < 2 \x7b thine n: int = 0; proclaim n; \x7d"

theorem wellScoped_shadows :
    ∃ tree program, Tree.Program.ofSource "" shadows = .ok tree ∧
      (Checked.ofTree tree).result = .ok program ∧
      program.optimize.value.statements.length = 5 ∧
      ∀ p, p = program ∨ p = program.optimize.value →
        ∃ script names, ofBlock p.statements ⟨0, []⟩ = .ok (script, names) ∧
          WellScoped p script names := by
  have haccepts : accepts shadows (·.optimize.value.statements.length == 5) = true := by
    refine Chars.accepts (.append (.append (.append .lit .lit) .lit) .lit) ?_
    decide +kernel
  obtain ⟨tree, program, htree, hprogram, hlength⟩ := exists_of_accepts haccepts
  exact ⟨tree, program, htree, hprogram, beq_iff_eq.1 hlength,
    fun p hp => wellScoped_of_accepted tree program p hprogram hp⟩

end Dragon
