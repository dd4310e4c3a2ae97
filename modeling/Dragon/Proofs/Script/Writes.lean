import Dragon.Proofs.Optimize.Targets
import Dragon.Proofs.Script.Scoped

/-!
# What a script writes to

Followed back through elements and fields, every target of an accepted program begins with the
object itself or with a variable that is declared as one that changes. Its name is declared by `let`
in the script and by nothing else, so that a script never writes to a constant, a parameter, a
function or a class.
-/
namespace Dragon

namespace Typed

/-- A variable of the program that is declared as one that changes, and by nothing else. -/
structure Program.Varies (p : Program) (v : Var) : Prop where
  own : v.intrinsic = false
  declared : ∃ init, .declare true v init ∈ p.inside
  only : ∀ s ∈ p.inside, v ∈ s.variables → ∃ init, s = .declare true v init

theorem Expr.root_of_isMutable (e : Expr) (h : Check.isMutable e = true) :
    (∃ type, e.root = .self type) ∨ ∃ v, e.root = .var v ∧ v.mutable = true := by
  match e with
  | .self type => exact .inl ⟨type, rfl⟩
  | .var v => exact .inr ⟨v, rfl, h⟩
  | .subscript collection _ _ => exact collection.root_of_isMutable (Bool.and_eq_true_iff.1 h).2
  | .member base .plain (.field _) _ => exact base.root_of_isMutable h

theorem Expr.placed_root {Γ : Context} (e : Expr) (h : e.Placed Γ) : e.root.Placed Γ := by
  cases e with
  | subscript collection => exact collection.placed_root ((Expr.each_pair rfl).1 h).2.1
  | member base => exact base.placed_root ((Expr.each_one rfl).1 h).2
  | _ => exact h

theorem Stmt.placed_target {Γ : Context} {s : Stmt} {t : Storing × Expr} (h : s.Placed Γ)
    (ht : s.target? = some t) : t.2.Placed Γ := by
  match s with
  | .assign target source =>
    cases ht
    exact h.1
  | .increment target | .decrement target =>
    cases ht
    exact h

theorem Stmt.variables_optimized (s : Stmt) : s.optimized.variables = s.variables := by
  cases s with
  | object kind ref fields parameters methods =>
    cases kind with
    | matter => rfl
    | guild =>
      have hparams := congrArg (List.flatMap Func.params) (func_optimizeMethods methods)
      rw [List.flatMap_map, List.flatMap_map] at hparams
      exact hparams
  | _ => rfl

end Typed

open Typed

/-- Parameters and the variables of loops never change. -/
theorem Check.Makes.declare_of_mutable {t : Tree.Stmt} {s : Stmt} {v : Var} (h : Makes t s)
    (hv : v ∈ s.variables) (hmutable : v.mutable = true) :
    v.intrinsic = false ∧ ∃ init, s = .declare true v init := by
  cases h with
  | declare hdeclared hown =>
    obtain rfl := List.mem_singleton.1 hv
    exact ⟨hown, _, by rw [← hdeclared, hmutable]⟩
  | function hf => simp [hf.params v hv] at hmutable
  | guild hmethods =>
    obtain ⟨m, hm, hv⟩ := List.mem_flatMap.1 hv
    simp [(hmethods m hm).params v hv] at hmutable
  | range hfixed | forEach hfixed =>
    obtain rfl := List.mem_singleton.1 hv
    simp [hfixed] at hmutable
  | _ => cases hv

theorem ComesTo.declare_of_mutable {optimize : Bool} {t : Tree.Stmt} {s : Stmt} {v : Var}
    (h : ComesTo optimize t s) (hv : v ∈ s.variables) (hmutable : v.mutable = true) :
    v.intrinsic = false ∧ ∃ init, s = .declare true v init := by
  obtain ⟨s₀, hbecomes, rfl⟩ := h
  cases optimize with
  | false => exact hbecomes.makes.declare_of_mutable hv hmutable
  | true =>
    have hv : v ∈ s₀.optimized.variables := hv
    rw [s₀.variables_optimized] at hv
    obtain ⟨hown, init, rfl⟩ := hbecomes.makes.declare_of_mutable hv hmutable
    exact ⟨hown, init.optimize.value, rfl⟩

/-- The variables that every program finds defined are constants. -/
theorem mutable_of_initial {v : Var} (hv : .var v ∈ Context.initial.symbols) :
    v.mutable = false := by
  have hall : Context.initial.symbols.all (fun symbol => match symbol with
    | .var v => !v.mutable
    | _ => true) = true := by decide
  simpa using List.all_eq_true.1 hall _ hv

/-- What the targets of an accepted program, as it is or optimized, begin with. -/
theorem root_of_target {tree : Tree.Program} {program : Program}
    (haccepted : (Checked.ofTree tree).result = .ok program) (optimize : Bool) :
    let p := if optimize then program.optimize.value else program
    ∀ s ∈ p.inside, ∀ t, s.target? = some t →
      (∃ type, t.2.root = .self type) ∨ ∃ v, t.2.root = .var v ∧ p.Varies v := by
  intro p s hs t ht
  obtain ⟨_, -, -, hstored⟩ := exists_targets_of_accepted haccepted optimize
  obtain ⟨_, -, hstored⟩ := exists_of_mem_right hstored (List.mem_filterMap.2 ⟨s, hs, ht⟩)
  obtain hself | ⟨v, hroot, hmutable⟩ := t.2.root_of_isMutable hstored.changes
  · exact .inl hself
  refine .inr ⟨v, hroot, ?_⟩
  obtain ⟨_, -, -, hcomes⟩ := exists_inside_of_accepted haccepted optimize
  have honly : ∀ s ∈ p.inside, v ∈ s.variables →
      v.intrinsic = false ∧ ∃ init, s = .declare true v init := by
    intro s hs hv
    obtain ⟨_, -, hcomes⟩ := exists_of_mem_right hcomes hs
    exact hcomes.declare_of_mutable hv hmutable
  have hplaced : p.Placed := by
    have hprogram := Program.placed_of_accepted haccepted
    cases optimize with
    | false => exact hprogram
    | true => exact Program.placed_optimize hprogram
  -- The variable is in scope where the target stands, and so is a constant of the library or
  -- declared by a statement of the program. The flag of a variable tells what declares it.
  obtain ⟨Γ, hΓ, hvars⟩ := blockPlaced_inside p.statements hplaced s hs
  have hv : .var v ∈ Γ.symbols := by
    have hplaced := t.2.placed_root (s.placed_target hΓ ht)
    rw [hroot] at hplaced
    exact hplaced.here
  obtain hv | ⟨s', hs', hv⟩ := hvars v hv
  · rw [mutable_of_initial hv] at hmutable
    cases hmutable
  · obtain ⟨hown, init, rfl⟩ := honly s' hs' hv
    exact ⟨hown, ⟨init, hs'⟩, fun s hs hv => (honly s hs hv).2⟩

namespace Script

/-! ### Declarations -/

/-- By what a name is declared. -/
inductive Binder where
  | let_ | const | parameter | function | class_
  deriving DecidableEq, Repr

def Method.binds : Method → List (Name × Binder)
  | .mk _ params _ => params.map (·, .parameter)

/-- The names that a statement declares, other than by statements in it. -/
def Stmt.binds : Stmt → List (Name × Binder)
  | .declare mutable name _ => [(name, if mutable then .let_ else .const)]
  | .function name params _ => (name, .function) :: params.map (·, .parameter)
  | .type name params _ methods =>
    (name, .class_) :: (params.map (·, .parameter) ++ methods.flatMap Method.binds)
  | .repeat_ index limit _ _ => (index, .let_) :: limit.toList.map (·, .let_)
  | .range iterator _ _ _ _ => [(iterator, .let_)]
  | .forEach iterator _ _ => [(iterator, .const)]
  | .log _ | .increment _ | .decrement _ | .assign .. | .return_ _ | .branch .. | .while_ ..
  | .break_ | .expr _ => []

/-- All declarations of a script. -/
def bindings (script : List Stmt) : List (Name × Binder) := (blockInside script).flatMap Stmt.binds

mutual

/-- No expression declares a name. -/
theorem Expr.declared_pieces (e : Expr) : declared e.pieces = [] := by
  cases e with
  | template parts => simp [Expr.pieces, declared_partPieces parts]
  | group e | not e | minus e | member e => simp [Expr.pieces, e.declared_pieces]
  | binary _ l r | subscript l r => simp [Expr.pieces, l.declared_pieces, r.declared_pieces]
  | ternary test c a =>
    simp [Expr.pieces, test.declared_pieces, c.declared_pieces, a.declared_pieces]
  | list es | construct _ es | encode es =>
    simp [Expr.pieces, declared_joined, declared_exprPieces es]
  | call callee args =>
    simp [Expr.pieces, declared_joined, callee.declared_pieces, declared_exprPieces args]
  | _ => rfl

theorem declared_exprPieces (es : List Expr) : declared (exprPieces es).flatten = [] := by
  match es with
  | [] => rfl
  | e :: rest => simp [exprPieces, e.declared_pieces, declared_exprPieces rest]

theorem declared_partPieces (parts : List Part) : declared (partPieces parts) = [] := by
  match parts with
  | [] => rfl
  | .text _ :: rest => simp [partPieces, declared_partPieces rest]
  | .hole e :: rest => simp [partPieces, e.declared_pieces, declared_partPieces rest]

end

theorem declared_settingPieces (depth : Nat) (settings : List Setting) :
    declared (settings.map (settingPieces depth)).flatten = [] := by
  induction settings with
  | nil => rfl
  | cons s rest ih => simp [settingPieces, s.value.declared_pieces, ih]

/-- The names that some statements declare, other than by statements in them. -/
def boundNames (ws : List Stmt) : List Name := (ws.flatMap Stmt.binds).map Prod.fst

theorem boundNames_cons (w : Stmt) (ws : List Stmt) :
    boundNames (w :: ws) = w.binds.map Prod.fst ++ boundNames ws := by
  simp [boundNames]

theorem boundNames_append (ws ws' : List Stmt) :
    boundNames (ws ++ ws') = boundNames ws ++ boundNames ws' := by
  simp [boundNames]

attribute [local simp] Stmt.nested Stmt.binds Stmt.pieces boundNames_cons boundNames_append
  Expr.declared_pieces declared_paramPieces Function.comp_def

mutual

theorem Stmt.perm_declared (depth : Nat) (w : Stmt) :
    (boundNames (w :: w.nested)).Perm (declared (w.pieces depth).flatten) := by
  cases w with
  | function _ params body => simpa using (perm_declared_block (depth + 1) body).append_left params
  | type _ params settings methods =>
    -- The settings of the constructor stand before the methods and declare nothing.
    simpa [declared_settingPieces] using
      (perm_declared_methods (depth + 1) methods).append_left params
  | branch _ body alternate =>
    simpa using (perm_declared_block (depth + 1) body).append (alternate.perm_declared depth)
  | while_ _ body => simpa using perm_declared_block (depth + 1) body
  | repeat_ _ limit _ body =>
    cases limit <;> simpa [countPieces] using perm_declared_block (depth + 1) body
  | range _ _ _ _ body => simpa [rangePieces] using perm_declared_block (depth + 1) body
  | forEach _ _ body => simpa [eachPieces] using perm_declared_block (depth + 1) body
  | return_ value => cases value <;> simp [boundNames]
  | _ => simp [boundNames]

theorem perm_declared_block (depth : Nat) (ws : List Stmt) :
    (boundNames (blockInside ws)).Perm (declared (blockPieces depth ws).flatten) := by
  match ws with
  | [] => exact .nil
  | w :: rest =>
    rw [blockInside, ← List.cons_append, boundNames_append, blockPieces, List.flatten_append,
      declared_append]
    exact (w.perm_declared depth).append (perm_declared_block depth rest)

/-- The text has the parameters of a method with its body, after the methods before it. -/
theorem perm_declared_methods (depth : Nat) (ws : List Method) :
    ((ws.flatMap Method.binds).map Prod.fst ++ boundNames (methodsInside ws)).Perm
      (declared (methodPieces depth ws).flatten) := by
  match ws with
  | [] => exact .nil
  | .mk name params body :: rest =>
    have h := ((perm_declared_block (depth + 1) body).append
      (perm_declared_methods depth rest)).append_left params
    refine .trans ?_ (by simpa [methodPieces] using h)
    simpa [methodsInside, Method.binds] using
      (List.perm_append_comm_assoc _ _ _).append_left params

theorem Alternate.perm_declared (depth : Nat) (w : Alternate) :
    (boundNames w.inside).Perm (declared (alternatePieces depth w).flatten) := by
  match w with
  | .none => exact .nil
  | .block body =>
    simpa [Alternate.inside, alternatePieces] using perm_declared_block (depth + 1) body
  | .chain _ body alternate =>
    simpa [Alternate.inside, alternatePieces] using
      (perm_declared_block (depth + 1) body).append (alternate.perm_declared depth)

end

/-- Declarations of the same name are the same. -/
theorem WellScoped.eq_of_text_eq {p : Program} {script : List Stmt} {names : Names}
    (h : WellScoped p script names) {b b' : Name × Binder} (hb : b ∈ bindings script)
    (hb' : b' ∈ bindings script) (htext : b.1.text = b'.1.text) : b = b' := by
  have hperm : ((bindings script).map Prod.fst).Perm (Script.declared (scriptPieces script)) := by
    rw [scriptPieces, declared_joined]
    exact perm_declared_block 0 script
  have honce : ((bindings script).map fun b => b.1.text).Nodup := by
    have honce := (hperm.map Name.text).nodup_iff.2 h.once
    rwa [List.map_map] at honce
  exact List.inj_on_of_nodup_map honce hb hb' htext

/-! ### Writes -/

def Stmt.target? : Stmt → Option (Storing × Expr)
  | .assign target _ => some (.assign, target)
  | .increment target => some (.increment, target)
  | .decrement target => some (.decrement, target)
  | _ => none

def targets (script : List Stmt) : List (Storing × Expr) :=
  (blockInside script).filterMap Stmt.target?

/-- What a statement writes to: loops count, and the constructor of a class sets its fields. -/
def Stmt.writes : Stmt → List Expr
  | .assign target _ | .increment target | .decrement target => [target]
  | .type _ _ settings _ => settings.map fun s => .member .this "." s.field
  | .repeat_ index _ _ _ => [.name index]
  | .range iterator _ _ _ _ => [.name iterator]
  | _ => []

def writes (script : List Stmt) : List Expr := (blockInside script).flatMap Stmt.writes

theorem Transcribed.target {final : Names} {s : Typed.Stmt} {w : Stmt}
    (h : Transcribed final s w) :
    Option.Rel (fun t u => u.1 = t.1 ∧ Rooted final t.2 u.2) s.target? w.target? := by
  cases h with
  | increment h | decrement h | assign h => exact .some ⟨rfl, h⟩
  | _ => exact .none

/-- A name that the script declares by `let` and by nothing else. -/
structure Varies (script : List Stmt) (n : Name) : Prop where
  declared : (n, .let_) ∈ bindings script
  only : ∀ b ∈ bindings script, b.1.text = n.text → b = (n, .let_)

theorem WellScoped.varies {p : Program} {script : List Stmt} {names : Names}
    (h : WellScoped p script names) {w : Stmt} {n : Name} (hw : w ∈ blockInside script)
    (hn : (n, .let_) ∈ w.binds) : Varies script n :=
  have hdeclared := List.mem_flatMap.2 ⟨w, hw, hn⟩
  ⟨hdeclared, fun _ hb htext => h.eq_of_text_eq hb hdeclared htext⟩

/-- If targets begin with `this` or with a name that varies, so does everything that is written. -/
theorem WellScoped.root_of_mem_writes {p : Program} {script : List Stmt} {names : Names}
    (h : WellScoped p script names)
    (htargets : ∀ u ∈ targets script,
      u.2.root = .this ∨ ∃ n, u.2.root = .name n ∧ Varies script n) :
    ∀ e ∈ writes script, e.root = .this ∨ ∃ n, e.root = .name n ∧ Varies script n := by
  intro e he
  obtain ⟨w, hw, he⟩ := List.mem_flatMap.1 he
  have htarget (u : Storing × Expr) (hu : w.target? = some u) :=
    htargets u (List.mem_filterMap.2 ⟨w, hw, hu⟩)
  match w with
  | .assign target _ | .increment target | .decrement target =>
    obtain rfl := List.mem_singleton.1 he
    exact htarget _ rfl
  | .type _ _ settings _ =>
    obtain ⟨s, -, rfl⟩ := List.mem_map.1 he
    exact .inl rfl
  | .repeat_ index _ _ _ | .range index _ _ _ _ =>
    obtain rfl := List.mem_singleton.1 he
    exact .inr ⟨index, rfl, h.varies hw List.mem_cons_self⟩

/-- A target of a program and the same target in its script: both begin with the object itself, or
with a variable that changes and its name. -/
structure Traced (p : Program) (script : List Stmt) (t : Storing × Typed.Expr)
    (u : Storing × Expr) : Prop where
  storing : u.1 = t.1
  root : (∃ type, t.2.root = .self type ∧ u.2.root = .this) ∨
    ∃ v n, t.2.root = .var v ∧ p.Varies v ∧ u.2.root = .name n ∧
      (∃ init, .declare true n init ∈ blockInside script) ∧ Varies script n

/-- The name of a variable that changes is the one that its declaration gives it. -/
theorem WellScoped.traced {p : Program} {script : List Stmt} {names : Names}
    (h : WellScoped p script names)
    (htranscribed : List.Forall₂ (Transcribed names) p.inside (blockInside script))
    {t : Storing × Typed.Expr} {u : Storing × Expr} (hstoring : u.1 = t.1)
    (hrooted : Rooted names t.2 u.2)
    (hroot : (∃ type, t.2.root = .self type) ∨ ∃ v, t.2.root = .var v ∧ p.Varies v) :
    Traced p script t u := by
  refine ⟨hstoring, ?_⟩
  unfold Rooted at hrooted
  obtain ⟨type, hself⟩ | ⟨v, hvar, hvaries⟩ := hroot
  · rw [hself] at hrooted
    exact .inl ⟨type, hself, hrooted⟩
  · rw [hvar] at hrooted
    obtain ⟨n, hlookup, hname⟩ := hrooted hvaries.own
    obtain ⟨init, hinit⟩ := hvaries.declared
    obtain ⟨w, hw, hdeclare⟩ := exists_of_mem_left htranscribed hinit
    cases hdeclare with
    | declare hgiven =>
      obtain rfl := Option.some.inj (hlookup.symm.trans hgiven)
      exact .inr ⟨v, n, hvar, hvaries, hname, ⟨_, hw⟩, h.varies hw List.mem_cons_self⟩

end Script

open Script

/-- In an accepted program, as it is or optimized, every target begins with the object itself or
with a variable that a declaration introduces as one that changes, never with a constant, a
parameter, the variable of a loop, a function or anything of the library. In the script it begins
with `this` or with the name of that variable, which is declared by `let`. Nothing that the script
writes to, its counters and fields included, begins with a name declared in any other way. -/
theorem writes_of_accepted {tree : Tree.Program} {program : Program}
    (haccepted : (Checked.ofTree tree).result = .ok program) (optimize : Bool) :
    let p := if optimize then program.optimize.value else program
    ∃ script, ofProgram p = .ok script ∧
      List.Forall₂ (Traced p script) p.targets (targets script) ∧
      ∀ e ∈ writes script, e.root = .this ∨ ∃ n, e.root = .name n ∧ Varies script n := by
  intro p
  obtain ⟨script, names, hrun, hscoped, htranscribed⟩ :=
    exists_transcript_of_accepted haccepted optimize
  have htraced : List.Forall₂ (Traced p script) p.targets (targets script) := by
    have hroots := (List.forall₂_and_left _ _).2
      ⟨root_of_target haccepted optimize, htranscribed⟩
    refine List.rel_filterMap (fun s w hsw => ?_) hroots
    obtain ⟨hroot, hstmt⟩ := hsw
    have htarget := hstmt.target
    generalize s.target? = t, w.target? = u at hroot htarget ⊢
    cases htarget with
    | some h => exact .some (hscoped.traced htranscribed h.1 h.2 (hroot _ rfl))
    | none => exact .none
  refine ⟨script, ofProgram_of_ofBlock hrun, htraced, hscoped.root_of_mem_writes fun u hu => ?_⟩
  obtain ⟨t, -, htu⟩ := exists_of_mem_right htraced hu
  obtain ⟨_, -, hthis⟩ | ⟨_, n, -, -, hname, -, hvaries⟩ := htu.root
  · exact .inl hthis
  · exact .inr ⟨n, hname, hvaries⟩

/-- Elements of a field and of a variable are stored, beside a parameter and the variable of a loop
by the same name as the variable, and loops count. -/
def keepers : String :=
  "guild Keeper \x7b sums: [int]; forge() \x7b mine.sums = [0]; \x7d" ++
  " don add(n: int) \x7b mine.sums[0] = n; \x7d \x7d thine n: [int] = [1]; n[0] = 2;" ++
  " fortill n in 1 ..< 3 \x7b repeateth 2 \x7b\x7d \x7d n[0]++;"

theorem writes_keepers :
    ∃ tree program, Tree.Program.ofSource "" keepers = .ok tree ∧
      (Checked.ofTree tree).result = .ok program ∧ program.targets.length = 3 ∧
      ∃ script, ofProgram program = .ok script ∧
        List.Forall₂ (Traced program script) program.targets (targets script) ∧
        ∀ e ∈ writes script, e.root = .this ∨ ∃ n, e.root = .name n ∧ Varies script n := by
  have haccepts : accepts keepers (·.targets.length == 3) = true := by
    refine Chars.accepts (.append (.append .lit .lit) .lit) ?_
    decide +kernel
  obtain ⟨tree, program, htree, hprogram, hlength⟩ := exists_of_accepts haccepts
  exact ⟨tree, program, htree, hprogram, beq_iff_eq.1 hlength, writes_of_accepted hprogram false⟩

end Dragon
