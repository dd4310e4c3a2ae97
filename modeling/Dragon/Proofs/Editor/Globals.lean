import Dragon.Proofs.Editor.Queries

/-!
# The names that a document knows

The check of a program stops at the first statement that it does not accept. At the top there are
then the names that the statements before it declare, in order, and the name of that statement if it
is a function, a matter or a guild: those are bound before what is in them is checked, and variables
after. What is declared further inside is never there.
-/
namespace Dragon

namespace Tree

/-- The name of a function, a matter or a guild. -/
def Stmt.definedName? : Stmt → Option String
  | .function (.mk name ..) | .matter name .. | .guild name .. => some name
  | _ => none

/-- The name that a statement declares in the scope that it stands in. -/
def Stmt.declaredName? : Stmt → Option String
  | .declare _ name .. => some name
  | t => t.definedName?

/-- The names that statements have bound when their check has stopped at number `k`. -/
def boundNames (ts : List Stmt) (k : Nat) : List String :=
  let earlier := (ts.take k).filterMap Stmt.declaredName?
  earlier ++ ((ts[k]?.bind Stmt.definedName?).filter (· ∉ earlier)).toList

end Tree

/-! ### Scopes by their names -/

namespace Scope

/-- The names of the innermost frame. -/
def names (scope : Scope) : List String := (scope.head?.map (·.bindings.map (·.name))).getD []

/-- A scope that differs from another by names that have been bound in its innermost frame. -/
structure Extends (scope scope' : Scope) (added : List String) : Prop where
  length : scope'.length = scope.length
  tail : scope'.tail = scope.tail
  names : scope'.names = scope.names ++ added

variable {scope scope' scope'' : Scope} {added added' : List String}

theorem Extends.refl (scope : Scope) : scope.Extends scope [] := ⟨rfl, rfl, by simp⟩

theorem Extends.trans (h : scope.Extends scope' added) (h' : scope'.Extends scope'' added') :
    scope.Extends scope'' (added ++ added') where
  length := h'.length.trans h.length
  tail := h'.tail.trans h.tail
  names := by rw [h'.names, h.names, List.append_assoc]

theorem Extends.ne_nil (h : scope.Extends scope' added) (hne : scope ≠ []) : scope' ≠ [] :=
  List.ne_nil_of_length_pos (h.length ▸ List.length_pos_iff.2 hne)

theorem extends_push (hne : scope ≠ []) (b : Binding) : scope.Extends (scope.push b) [b.name] := by
  obtain ⟨frame, outer, rfl⟩ := List.exists_cons_of_ne_nil hne
  exact ⟨rfl, rfl, by simp [push, Scope.names]⟩

theorem extends_replace (scope : Scope) (name : String) (symbol : Symbol) :
    scope.Extends (scope.replace name symbol) [] := by
  refine ⟨?_, tail_replace name symbol, ?_⟩
  · cases scope <;> rfl
  · cases scope with
    | nil => rfl
    | cons frame outer =>
      have hname (b : Binding) :
          (if b.name = name then { b with symbol } else b).name = b.name := by
        split <;> rfl
      simp [replace, Frame.update, Scope.names, hname]

theorem unbound_iff (hne : scope ≠ []) (name : String) :
    scope.Unbound name ↔ name ∉ scope.names := by
  obtain ⟨frame, outer, rfl⟩ := List.exists_cons_of_ne_nil hne
  simp [Unbound, Scope.names, Frame.find?]

end Scope

namespace Check

variable {α β : Type} {m : Check α} {f : α → Check β} {name : String}

/-! ### One statement -/

/-- A check that binds no name in the scope that it starts in. -/
def Nameless (m : Check α) : Prop :=
  ∀ s, Ends m s (fun _ s' => s.scope.Extends s'.scope [])
    fun _ s' => ∃ scope, scope <:+ s'.scope ∧ s.scope.Extends scope []

theorem Confined.nameless (h : Confined (fun _ _ => True) m) : Nameless m := by
  refine fun s => (h s).mono (fun _ s' h' => ?_) fun _ s' h' => ⟨_, h'.1, .refl _⟩
  rw [h']
  exact .refl _

theorem Nameless.bind (hm : Nameless m) (hf : ∀ a, Nameless (f a)) : Nameless (m >>= f) := by
  refine fun s => .bind ((hm s).mono (fun a s₁ h₁ => ?_) fun _ _ h => h)
  refine (hf a s₁).mono (fun _ s₂ h₂ => h₁.trans h₂) fun _ s₂ h₂ => ?_
  obtain ⟨scope, hsuffix, h₂⟩ := h₂
  exact ⟨scope, hsuffix, h₁.trans h₂⟩

theorem update_nameless (name : String) (symbol : Symbol) : Nameless (update name symbol) := by
  refine fun s => (update_ends name symbol s).mono (fun _ s' h => ?_) fun _ _ h => h.elim
  rw [h]
  exact Scope.extends_replace _ name symbol

/-- A check that binds a name first, so that it is there even if the check fails later on. -/
def Opens (name : String) (m : Check α) : Prop :=
  ∀ s, s.scope ≠ [] →
    Ends m s (fun _ s' => name ∉ s.scope.names ∧ s.scope.Extends s'.scope [name]) fun _ s' =>
      ∃ scope, scope <:+ s'.scope ∧
        s.scope.Extends scope ((some name).filter (· ∉ s.scope.names)).toList

/-- A check that binds a name last, so that it is not there if the check fails. -/
def Closes (name : String) (m : Check α) : Prop :=
  ∀ s, s.scope ≠ [] → Ends m s (fun _ s' => s.scope.Extends s'.scope [name])
    fun _ s' => ∃ scope, scope <:+ s'.scope ∧ s.scope.Extends scope []

theorem declare_opens (name : String) (symbol : Symbol) (span : Span) :
    Opens name (declare name symbol span) := by
  refine fun s hne => (declare_ends name symbol span s).mono (fun _ s' h => ?_) fun _ s' h => ?_
  · obtain ⟨hunbound, place, hscope⟩ := h
    rw [hscope]
    exact ⟨(Scope.unbound_iff hne name).1 hunbound, Scope.extends_push hne _⟩
  · obtain ⟨hbound, hscope, -⟩ := h
    rw [Scope.unbound_iff hne, not_not] at hbound
    refine ⟨s.scope, hscope ▸ List.suffix_refl _, ?_⟩
    simpa [Option.filter_some, hbound] using Scope.Extends.refl s.scope

theorem Opens.bind (hm : Opens name m) (hf : ∀ a, Nameless (f a)) : Opens name (m >>= f) := by
  refine fun s hne => .bind ((hm s hne).mono (fun a s₁ h₁ => ?_) fun _ _ h => h)
  obtain ⟨hnew, h₁⟩ := h₁
  refine (hf a s₁).mono (fun _ s₂ h₂ => ⟨hnew, h₁.trans h₂⟩) fun _ s₂ h₂ => ?_
  obtain ⟨scope, hsuffix, h₂⟩ := h₂
  refine ⟨scope, hsuffix, ?_⟩
  simpa [Option.filter_some, hnew] using h₁.trans h₂

theorem declare_closes (name : String) (symbol : Symbol) (span : Span) :
    Closes name (declare name symbol span) := by
  refine fun s hne => (declare_ends name symbol span s).mono (fun _ s' h => ?_) fun _ s' h => ?_
  · obtain ⟨-, place, hscope⟩ := h
    rw [hscope]
    exact Scope.extends_push hne _
  · exact ⟨s.scope, h.2.1 ▸ List.suffix_refl _, .refl _⟩

theorem Closes.after (hm : Confined (fun _ _ => True) m) (hf : ∀ a, Closes name (f a)) :
    Closes name (m >>= f) := by
  refine fun s hne => .bind ((hm s).mono (fun a s₁ h₁ => ?_) fun _ _ h => ⟨_, h.1, .refl _⟩)
  have hrest := hf a s₁ (h₁ ▸ hne)
  rwa [h₁] at hrest

theorem Closes.map (hm : Closes name m) (g : α → β) : Closes name (m >>= fun a => pure (g a)) :=
  fun s hne => .bind ((hm s hne).mono (fun _ _ h => .pure h) fun _ _ h => h)

theorem declareFunction_opens (name : String) (ps : List Tree.Param)
    (result : Option Tree.TypeExpr) (span : Span) :
    Opens name (declareFunction name ps result span) := by
  refine fun s hne => .bind (.fresh ?_)
  refine (declare_opens name _ span).bind (fun _ => ?_) _ hne
  exact (signature_confined _ name ps result false).nameless.bind fun f =>
    (update_nameless name (.func f true)).bind fun _ => (Confined.pure f).nameless

theorem declareObject_opens (name : String) (parameters : Option (List ForgeParam))
    (span : Span) : Opens name (declareObject name parameters span) := by
  refine fun s hne => .bind (.fresh (.bind (.modify ?_)))
  exact (declare_opens name _ span).bind (fun _ => (Confined.pure _).nameless) _ hne

/-- The names that a statement leaves behind if it is accepted, and if it is not. -/
def Records (t : Tree.Stmt) : Prop :=
  ∀ s, s.scope ≠ [] → Ends (stmt t) s (fun _ s' => s.scope.Extends s'.scope t.declaredName?.toList)
    fun _ s' => ∃ scope, scope <:+ s'.scope ∧
      s.scope.Extends scope (t.definedName?.filter (· ∉ s.scope.names)).toList

/-- A statement at the top leaves its name behind, if it comes that far. -/
theorem stmt_records {t : Tree.Stmt} (ht : t.Numerals fun _ _ => True) : Records t := by
  have opened {name : String} (hname : t.definedName? = some name)
      (hdeclared : t.declaredName? = some name) (h : Opens name (stmt t)) : Records t := by
    intro s hne
    rw [hname, hdeclared]
    exact (h s hne).mono (fun _ _ h' => h'.2) fun _ _ h' => h'
  cases t with
  | declare mutable name type value span =>
    have hcloses : Closes name (stmt (.declare mutable name type value span)) :=
      .after (resolve_looks type).confined fun t => .after (.require _ _ _) fun _ =>
      .after (valueFor_looks t ht).confined fun _ => .after (newVar_confined name t mutable)
      fun v => (declare_closes name (.var v) span).map _
    exact hcloses
  | function definition =>
    obtain ⟨name, ps, result, body, span⟩ := definition
    exact opened rfl rfl ((declareFunction_opens name ps result span).bind fun f =>
      ((body_confined f.params ps (block_bounded body ht) _).bind fun _ =>
      (emit_confined _).bind fun _ => .pure _).nameless)
  | matter name definitions span =>
    exact opened rfl rfl ((declareObject_opens name none span).bind fun ref =>
      ((objectFields_confined ref definitions span).bind fun _ => .pure _).nameless)
  | guild name definitions definition methodDefs span =>
    exact opened rfl rfl ((declareObject_opens name (some []) span).bind fun ref =>
      ((objectFields_confined ref definitions span).bind fun fields =>
      (addMethods_confined ref methodDefs).bind fun _ =>
      (initialFields_confined ref fields ht.1 span).bind fun _ =>
      (Looks.objectInfo ref).confined.bind fun known =>
      (methods_confined ref known.methods methodDefs ht.2).bind fun _ => .pure _).nameless)
  | _ => exact fun s _ => ((stmt_reaches _ ht).confined rfl).nameless s

/-! ### Programs -/

/-- The number of the first statement that is not accepted, or of all statements. -/
def stopsAt (s : State) : List Tree.Stmt → Nat
  | [] => 0
  | t :: rest =>
    match stmt t s with
    | .ok _ s' => stopsAt s' rest + 1
    | .error _ _ => 0

/-- Accepted statements leave all names behind that they declare. -/
theorem block_records {ts : List Tree.Stmt} (hts : Tree.blockNumerals (fun _ _ => True) ts)
    {s s' : State} (hne : s.scope ≠ []) {accepted : List Typed.Stmt}
    (h : block ts s = .ok accepted s') :
    s.scope.Extends s'.scope (ts.filterMap Tree.Stmt.declaredName?) := by
  induction ts generalizing s accepted with
  | nil =>
    cases h
    exact .refl _
  | cons t rest ih =>
    obtain ⟨a, s₁, ha, hrest⟩ := bind_eq_ok.1 h
    obtain ⟨as, s₂, has, hpure⟩ := bind_eq_ok.1 hrest
    cases hpure
    have hfirst : s.scope.Extends s₁.scope t.declaredName?.toList :=
      (stmt_records hts.1 s hne).ensures a s₁ ha
    rw [← List.singleton_append, List.filterMap_append]
    exact hfirst.trans (ih hts.2 (hfirst.ne_nil hne) has)

theorem bind_eq_error {s s' : State} {e : CheckFailure} :
    (m >>= f) s = .error e s' ↔
      m s = .error e s' ∨ ∃ a s₁, m s = .ok a s₁ ∧ f a s₁ = .error e s' := by
  show EStateM.bind m f s = _ ↔ _
  unfold EStateM.bind
  cases m s with
  | ok a s₁ => simp
  | error e' s₁ => simp

/-- A check accepts the statements before the one that it stops at, and fails as that one does. -/
theorem block_stopsAt (s : State) (ts : List Tree.Stmt) :
    ∃ accepted s₁, block (ts.take (stopsAt s ts)) s = .ok accepted s₁ ∧
      match ts[stopsAt s ts]? with
      | none => block ts s = .ok accepted s₁
      | some t => ∃ e s₂, stmt t s₁ = .error e s₂ ∧ block ts s = .error e s₂ := by
  induction ts generalizing s with
  | nil => exact ⟨[], s, rfl, rfl⟩
  | cons t rest ih =>
    cases ht : stmt t s with
    | error e s₂ =>
      have hstops : stopsAt s (t :: rest) = 0 := by rw [stopsAt, ht]
      rw [hstops]
      exact ⟨[], s, rfl, e, s₂, ht, bind_eq_error.2 (.inl ht)⟩
    | ok a s' =>
      have hstops : stopsAt s (t :: rest) = stopsAt s' rest + 1 := by rw [stopsAt, ht]
      obtain ⟨accepted, s₁, htake, hrest⟩ := ih s'
      rw [hstops, List.take_succ_cons, List.getElem?_cons_succ]
      refine ⟨a :: accepted, s₁, bind_eq_ok.2 ⟨a, s', ht, bind_eq_ok.2 ⟨_, _, htake, rfl⟩⟩, ?_⟩
      cases hnext : rest[stopsAt s' rest]? with
      | none =>
        rw [hnext] at hrest
        exact bind_eq_ok.2 ⟨a, s', ht, bind_eq_ok.2 ⟨_, _, hrest, rfl⟩⟩
      | some u =>
        rw [hnext] at hrest
        obtain ⟨e, s₂, hu, hblock⟩ := hrest
        exact ⟨e, s₂, hu, bind_eq_error.2 (.inr ⟨a, s', ht, bind_eq_error.2 (.inl hblock)⟩)⟩

/-- What is left of a program's own names when its check has stopped. -/
theorem block_leaves {ts : List Tree.Stmt} (hts : Tree.blockNumerals (fun _ _ => True) ts) :
    ∃ scope, State.initial.scope.Extends scope (Tree.boundNames ts (stopsAt .initial ts)) ∧
      Ends (block ts) .initial (fun _ s' => scope <:+ s'.scope) fun _ s' => scope <:+ s'.scope := by
  have hne : State.initial.scope ≠ [] := List.cons_ne_nil _ _
  obtain ⟨accepted, s₁, htake, hstops⟩ := block_stopsAt .initial ts
  have htaken : Tree.blockNumerals (fun _ _ => True) (ts.take (stopsAt .initial ts)) :=
    Tree.blockNumerals_iff.2 fun t ht => Tree.blockNumerals_iff.1 hts t (List.mem_of_mem_take ht)
  have hearlier := block_records htaken hne htake
  have hnames : s₁.scope.names = (ts.take (stopsAt .initial ts)).filterMap
      Tree.Stmt.declaredName? := hearlier.names
  unfold Tree.boundNames Ends
  extract_lets earlier
  cases hnext : ts[stopsAt .initial ts]? with
  | none =>
    rw [hnext] at hstops
    rw [hstops]
    refine ⟨s₁.scope, ?_, List.suffix_refl _⟩
    simpa using hearlier
  | some t =>
    rw [hnext] at hstops
    obtain ⟨e, s₂, hfails, hblock⟩ := hstops
    rw [hblock]
    have ht := Tree.blockNumerals_iff.1 hts t (List.mem_of_getElem? hnext)
    obtain ⟨scope, hsuffix, hlast⟩ :=
      (stmt_records ht s₁ (hearlier.ne_nil hne)).of_error hfails
    rw [hnames] at hlast
    exact ⟨scope, hearlier.trans hlast, hsuffix⟩

end Check

/-- The names at the top once a program has been checked. -/
theorem Checked.globals_eq {tree : Tree.Program}
    (htree : Tree.blockNumerals (fun _ _ => True) tree.statements) :
    ∃ own, (ofTree tree).state.globals = [own, Library.frame] ∧ own.bindings.map (·.name) =
      Tree.boundNames tree.statements (Check.stopsAt .initial tree.statements) := by
  obtain ⟨scope, hextends, hends⟩ := Check.block_leaves htree
  have hsuffix : scope <:+ (ofTree tree).state.scope := by
    unfold Check.Ends at hends
    unfold ofTree EStateM.run
    cases hrun : Check.block tree.statements .initial with
    | ok statements state => simpa only [hrun] using hends
    | error failure state => simpa only [hrun] using hends
  rw [Check.State.globals_of_suffix hextends.length hsuffix]
  obtain ⟨own, outer, rfl⟩ :=
    List.exists_cons_of_ne_nil (hextends.ne_nil (List.cons_ne_nil _ _))
  obtain rfl : outer = [Library.frame] := hextends.tail
  exact ⟨own, rfl, hextends.names⟩

namespace Editor

/-- The names that a document knows, in order, are those that the statements before the first one
that is not accepted declare, and then the name of that one if it is new and the statement is a
function, a matter or a guild. -/
theorem globals_names {name source : String} {tree : Tree.Program}
    (h : Tree.Program.ofSource name source = .ok tree) :
    ∃ own objects,
      (analyze name source).document.globals = some ⟨[own, Library.frame], objects⟩ ∧
      own.bindings.map (·.name) =
        Tree.boundNames tree.statements (Check.stopsAt .initial tree.statements) := by
  obtain ⟨stream, hstream, -⟩ := Tree.bind_eq_ok h
  have hnumerals : Tree.blockNumerals (fun _ _ => True) tree.statements :=
    Tree.numerals_of_ofSource hstream (fun _ _ => trivial) h
  obtain ⟨own, hglobals, hnames⟩ := Checked.globals_eq hnumerals
  refine ⟨own, (Checked.ofTree tree).state.objects, ?_, hnames⟩
  rw [(analyze_of_tree h).2, hglobals]

/-- The check stops at the guild: its forge leaves a field without a value. -/
def unfinishedGuild : String :=
  "thine a: int = 1; whilst shall \x7b thine b: int = 2; \x7d matter M \x7b x: int \x7d " ++
  "don f(n: int) \x7b fact c: int = n; \x7d guild G \x7b y: int; forge(z: int) \x7b\x7d \x7d " ++
  "fact d: int = 3;"

theorem globals_names_unfinishedGuild :
    ∃ tree, Tree.Program.ofSource "" unfinishedGuild = .ok tree ∧
      Check.stopsAt .initial tree.statements = 4 ∧ tree.statements.length = 6 ∧
      ∃ own objects,
        (analyze "" unfinishedGuild).document.globals = some ⟨[own, Library.frame], objects⟩ ∧
        own.bindings.map (·.name) = ["a", "M", "f", "G"] := by
  have hany : (Tree.Program.ofSource "" unfinishedGuild).toOption.any (fun tree =>
      Check.stopsAt .initial tree.statements == 4 && tree.statements.length == 6 &&
        Tree.boundNames tree.statements 4 == ["a", "M", "f", "G"]) = true := by
    have hchars : Chars unfinishedGuild _ := .append (.append .lit .lit) .lit
    rw [hchars.tree]
    decide +kernel
  obtain ⟨tree, htree, htest⟩ := exists_of_any hany
  simp only [Bool.and_eq_true, beq_iff_eq] at htest
  obtain ⟨⟨hstops, hlength⟩, hbound⟩ := htest
  have hnames := globals_names htree
  rw [hstops, hbound] at hnames
  exact ⟨tree, htree, hstops, hlength, hnames⟩

end Editor

end Dragon
