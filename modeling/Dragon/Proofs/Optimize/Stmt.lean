import Dragon.Proofs.Meaning.Stmt
import Dragon.Proofs.Optimize.Plain
import Dragon.Proofs.Source

/-!
# Optimized statements

Optimized statements refine the ones they come from, as long as all expressions are plain: what is
left of a statement does whatever the statement did. From this follows the main result, that a list
of statements that runs to completion still does after optimization, with the same output, the same
signal and the same store.
-/
namespace Dragon.Typed

mutual

def Stmt.plain : Stmt → Bool
  | .declare _ _ init => init.plain
  | .print e | .increment e | .decrement e | .return_ e | .call e | .expr e => e.plain
  | .assign target source => target.plain && source.plain
  | .branch test body alternate => test.plain && plainBlock body && alternate.plain
  | .while_ test body => test.plain && plainBlock body
  | .repeat_ count body => count.plain && plainBlock body
  | .range _ low _ high body | .foreignRange _ low _ high body =>
    low.plain && high.plain && plainBlock body
  | .forEach _ collection body => collection.plain && plainBlock body
  | .function _ _ | .object _ _ _ _ _ | .shortReturn | .break_ | .bare _ _ | .misplaced _ _ => true

def plainBlock : List Stmt → Bool
  | [] => true
  | s :: rest => s.plain && plainBlock rest

def Alternate.plain : Alternate → Bool
  | .none => true
  | .block body => plainBlock body
  | .chain test body alternate => test.plain && plainBlock body && alternate.plain

end

end Dragon.Typed

namespace Dragon.Meaning

open Typed

variable {w : World} {fuel : Nat} {e e' : Expr} {m m' : Memory}

/-! ### Sequences -/

theorem followed_normal (x : Run Signal) : followed x (pure .normal) = x := by
  unfold followed
  refine (bind_congr fun s => ?_).trans (bind_pure x)
  cases s <;> rfl

theorem followed_assoc (x y z : Run Signal) :
    followed (followed x y) z = followed x (followed y z) := by
  refine (bind_assoc _ _ _).trans (congrArg (x >>= ·) ?_)
  funext s
  cases s <;> rfl

@[simp] theorem execBlock_singleton (s : Stmt) : execBlock w fuel [s] = exec w fuel s :=
  followed_normal _

theorem execBlock_append (xs ys : List Stmt) :
    execBlock w fuel (xs ++ ys) = followed (execBlock w fuel xs) (execBlock w fuel ys) := by
  induction xs with
  | nil => rfl
  | cons s xs ih =>
    rw [List.cons_append, execBlock, ih, execBlock, followed_assoc]

/-! ### Evaluation within statements -/

theorem refines_evaluate (he : ∀ store, Refines (eval w store e) (eval w store e')) :
    Refines (evaluate w e) (evaluate w e') := by
  intro m r hr
  unfold evaluate at hr ⊢
  cases hval : eval w m.store e m.calls with
  | error f => simp [hval, Except.map] at hr
  | ok p => rwa [he m.store m.calls p hval, ← hval]

theorem refines_one {s : Stmt} {x : Run Signal} (h : Refines x (exec w fuel s)) :
    Refines x (execBlock w fuel (Residue.one s).statements) :=
  h.trans (.of_eq (execBlock_singleton s).symm)

theorem refines_truth (he : ∀ store, Refines (eval w store e) (eval w store e')) :
    Refines (truth w e) (truth w e') :=
  (refines_evaluate he).bind fun _ => .refl _

theorem refines_whole (he : ∀ store, Refines (eval w store e) (eval w store e')) :
    Refines (whole w e) (whole w e') :=
  (refines_evaluate he).bind fun _ => .refl _

/-- Evaluation changes nothing but the calls. -/
theorem evaluate_eq_ok {d : Datum} :
    evaluate w e m = .ok (d, m') ↔
      ∃ calls, eval w m.store e m.calls = .ok (d, calls) ∧ m' = { m with calls } := by
  unfold evaluate
  cases eval w m.store e m.calls with
  | error f => simp [Except.map]
  | ok p =>
    constructor
    · intro h
      cases h
      exact ⟨_, rfl, rfl⟩
    · rintro ⟨calls, hp, rfl⟩
      cases hp
      rfl

/-- A literal truth value decides without an effect. -/
theorem truth_of_truth? {c : Bool} (he : e.truth? = some c) : truth w e m = .ok (c, m) := by
  obtain rfl := eq_truth_of_truth? he
  exact bind_eq_ok.2 ⟨_, m, evaluate_eq_ok.2 ⟨m.calls, eval_truth c, rfl⟩, rfl⟩

theorem whole_eq_ok {n : Int} : whole w e m = .ok (n, m') ↔ evaluate w e m = .ok (.int n, m') := by
  unfold whole
  rw [bind_eq_ok]
  constructor
  · rintro ⟨d, m₁, hd, hn⟩
    obtain ⟨k, hk, hpair⟩ := lift_eq_ok.1 hn
    cases hpair
    cases d <;> simp only [wholeOf, reduceCtorEq, Except.ok.injEq] at hk
    subst hk
    exact hd
  · intro h
    exact ⟨_, _, h, rfl⟩

theorem whole_of_integer? {v : Value} {n : Int} (hv : e.integer? = some v)
    (hn : whole w e m = .ok (n, m')) : v = .int n ∧ m' = m := by
  obtain ⟨calls, he, rfl⟩ := evaluate_eq_ok.1 (whole_eq_ok.1 hn)
  have hnum : e.number? = some v := by
    unfold Expr.integer? at hv
    split at hv <;> simp_all [Expr.number?]
  obtain ⟨rfl, ⟨k, -, rfl, hk⟩ | ⟨x, -, -, hx⟩⟩ := number?_cases hnum he
  · cases hk
    exact ⟨rfl, rfl⟩
  · cases hx

/-! ### Loops that are never run -/

theorem rounds_idle {more : Int → Run Bool} {body : Int → Run Signal} {i : Int}
    (hmore : ∀ m b m', more i m = .ok (b, m') → b = false ∧ m' = m) :
    Refines (rounds more body fuel i) (pure .normal) := by
  cases fuel with
  | zero =>
    intro m r h
    exact absurd h fault_ne_ok
  | succ fuel =>
    intro m r h
    obtain ⟨b, m₁, hb, hr⟩ := bind_eq_ok.1 h
    obtain ⟨rfl, rfl⟩ := hmore m b m₁ hb
    exact hr

theorem compare?_int {op : BinaryOp} {a b : Int}
    (h : Value.compare? op (.int a) (.int b) = some true)
    (hop : op = .le ∨ op = .gt ∨ op = .ge) : compareInts op a b = .ok true := by
  have hs : comparison? op (some (Double.orderWhole a b)) = some true := h
  obtain rfl | rfl | rfl := hop
  all_goals
    simp only [compareInts, Except.ok.injEq]
    exact compareInts_of_comparison? hs rfl

theorem refines_idle {count : Expr} {v : Value} {body : Int → Run Signal}
    (hv : idle? count = some v) :
    Refines (do let n ← whole w count; rounds (fun i => pure (decide (i < n))) body fuel 0)
      (pure .normal) := by
  obtain ⟨hint, hle⟩ := Option.filter_eq_some_iff.1 hv
  intro m r hrun
  obtain ⟨n, m₁, hn, hr⟩ := bind_eq_ok.1 hrun
  obtain ⟨rfl, rfl⟩ := whole_of_integer? hint hn
  have hle : n ≤ 0 := by
    have hcmp := compare?_int (by simpa using hle) (.inl rfl)
    simpa [compareInts] using hcmp
  refine rounds_idle (fun m b m' h => ?_) m₁ r hr
  cases h
  simp [hle]

theorem within_of_emptyRange {kind : RangeKind} {low high : Expr} {a b : Int}
    (h : emptyRange kind low high = true) (ha : low.integer? = some (.int a))
    (hb : high.integer? = some (.int b)) : within kind a b = false := by
  unfold emptyRange at h
  rw [ha, hb] at h
  cases kind with
  | closed =>
    have hcmp := compare?_int (by simpa using h) (.inr (.inl rfl))
    simpa [within, compareInts] using hcmp
  | halfOpen =>
    have hcmp := compare?_int (by simpa using h) (.inr (.inr rfl))
    simpa [within, compareInts] using hcmp

theorem refines_false {test : Expr} {body : List Stmt} (h : test.truth? = some false) :
    Refines (exec w fuel (.while_ test body)) (pure .normal) := by
  refine rounds_idle fun m b m' hb => ?_
  cases (truth_of_truth? h).symm.trans hb
  exact ⟨rfl, rfl⟩

theorem refines_emptyList {v : Var} {collection : Expr} {body : List Stmt}
    (h : collection.isEmptyList = true) :
    Refines (exec w fuel (.forEach v collection body)) (pure .normal) := by
  obtain ⟨t, rfl⟩ : ∃ t, collection = .emptyList t := by
    cases collection <;> simp_all [Expr.isEmptyList]
  intro m r hrun
  obtain ⟨c, m₁, hc, hrest⟩ := bind_eq_ok.1 hrun
  obtain ⟨calls, heval, rfl⟩ := evaluate_eq_ok.1 hc
  cases heval
  exact hrest

/-- A loop over an empty range does nothing. -/
theorem refines_emptyRange {kind : RangeKind} {low high : Expr} {id : Nat} {body : Run Signal}
    (h : emptyRange kind low high = true) :
    Refines (rangeLoop w fuel id low kind high body) (pure .normal) := by
  obtain ⟨u, v, hu, hv⟩ : ∃ u v, low.integer? = some u ∧ high.integer? = some v := by
    unfold emptyRange at h
    split at h
    next u v hu hv => exact ⟨u, v, hu, hv⟩
    next => cases h
  intro m r hrun
  obtain ⟨a, m₁, ha, hr⟩ := bind_eq_ok.1 hrun
  obtain ⟨rfl, rfl⟩ := whole_of_integer? hu ha
  refine rounds_idle (fun m b m' hmore => ?_) m₁ r hr
  obtain ⟨k, m₂, hk, hb⟩ := bind_eq_ok.1 hmore
  obtain ⟨rfl, rfl⟩ := whole_of_integer? hv hk
  cases hb
  exact ⟨within_of_emptyRange h hu hv, rfl⟩

/-! ### Assignments -/

theorem eq_var_of_target {id : Nat} (h : target e = .ok id) :
    ∃ v, e = .var v ∧ v.id = id := by
  cases e <;> simp only [target, reduceCtorEq, Except.ok.injEq] at h
  exact ⟨_, rfl, h⟩

/-- What has the name of a variable evaluates to its value. -/
theorem eval_of_sameName {v : Var} {store : Store} {calls : List Call} {p : Datum × List Call}
    (h : (Expr.var v).sameName e = true) (he : eval w store e calls = .ok p) :
    store v.id = some p.1 ∧ p.2 = calls := by
  have hread {id : Nat} (hid : id = v.id) (hr : read store id calls = .ok p) :
      store v.id = some p.1 ∧ p.2 = calls := by
    subst hid
    unfold read at hr
    cases hd : store v.id with
    | some d =>
      rw [hd] at hr
      cases hr
      exact ⟨rfl, rfl⟩
    | none =>
      rw [hd] at hr
      exact absurd hr fault_ne_ok
  have hname : e.named? = some (v.id, none) := by
    simp only [Expr.sameName, Bool.and_eq_true, beq_iff_eq] at h
    exact h.2.symm
  cases e <;> simp only [Expr.named?, Option.some.injEq, Prod.mk.injEq, reduceCtorEq] at hname
  case var | param | func => exact hread hname.1 he
  case object => exact absurd he fault_ne_ok
  case field => simp at hname

theorem set_self {store : Store} {id : Nat} {d : Datum} (h : store id = some d) :
    store.set id d = store := by
  funext i
  unfold Store.set
  split_ifs with hi
  · rw [hi, h]
  · rfl

/-- Assigning a variable to itself does nothing. -/
theorem refines_selfAssignment {source : Expr} (h : e.sameName source = true) :
    Refines (exec w fuel (.assign e source)) (pure .normal) := by
  intro m r hrun
  obtain ⟨id, m₀, hid, hrest⟩ := bind_eq_ok.1 hrun
  obtain ⟨d, m₁, hd, hr⟩ := bind_eq_ok.1 hrest
  obtain ⟨_, htarget, hpair⟩ := lift_eq_ok.1 hid
  cases hpair
  obtain ⟨v, rfl, rfl⟩ := eq_var_of_target htarget
  obtain ⟨calls, heval, rfl⟩ := evaluate_eq_ok.1 hd
  obtain ⟨hstore, rfl⟩ := eval_of_sameName h heval
  cases hr
  simp only [set_self hstore]
  rfl

theorem optimize_of_target {id : Nat} (h : target e = .ok id) : e.optimize.value = e := by
  obtain ⟨v, rfl, -⟩ := eq_var_of_target h
  rfl

theorem refines_assign {source : Expr} (hs : source.plain = true) :
    Refines (exec w fuel (.assign e source))
      (execBlock w fuel (Stmt.assign e source).optimize.value.statements) := by
  cases h : target e with
  | ok id =>
    have hsource : Refines (exec w fuel (.assign e source))
        (exec w fuel (.assign e source.optimize.value)) :=
      (Refines.refl _).bind fun _ => (refines_evaluate fun _ => refines_optimize hs).bind
        fun _ => .refl _
    simp only [Stmt.optimize, Logged.value_bind, optimize_of_target h]
    split_ifs with hname
    · exact hsource.trans (refines_selfAssignment hname)
    · exact refines_one hsource
  | error f =>
    intro m r hrun
    obtain ⟨id, m₁, hid, -⟩ := bind_eq_ok.1 hrun
    simp [lift_eq_ok, h] at hid

theorem refines_move (k : Int) : Refines (move w e k) (move w e.optimize.value k) := by
  cases h : target e with
  | ok id =>
    rw [optimize_of_target h]
    exact .refl _
  | error f =>
    intro m r hrun
    obtain ⟨id, m₁, hid, -⟩ := bind_eq_ok.1 hrun
    simp [lift_eq_ok, h] at hid

/-! ### Branches -/

theorem branching_of_truth? {c : Bool} {x y : Run Signal} (he : e.truth? = some c) :
    branching (truth w e) x y = if c then x else y := by
  funext m
  have hbind : branching (truth w e) x y m = (if c then x else y) m := by
    show (truth w e m >>= fun p => (if p.1 then x else y) p.2) = _
    rw [truth_of_truth? he]
    rfl
  exact hbind

theorem execBlock_residue (alternate : Alternate) :
    execBlock w fuel alternate.residue.statements = execAlternate w fuel alternate := by
  cases alternate with
  | none => rfl
  | block body => rfl
  | chain test body alternate => exact followed_normal _

theorem execAlternate_ofBlock (body : List Stmt) :
    execAlternate w fuel (.ofBlock body) = execBlock w fuel body := by
  cases body <;> rfl

theorem execBlock_branched (test : Expr) (body : List Stmt) (alternate : Alternate) :
    execBlock w fuel (branched test body alternate).value.statements =
      branching (truth w test) (execBlock w fuel body) (execAlternate w fuel alternate) := by
  unfold branched
  split
  next h => rw [branching_of_truth? h]; rfl
  next h => rw [branching_of_truth? h]; exact execBlock_residue alternate
  next => exact followed_normal _

theorem execAlternate_chained (test : Expr) (body : List Stmt) (alternate : Alternate) :
    execAlternate w fuel (chained test body alternate).value =
      branching (truth w test) (execBlock w fuel body) (execAlternate w fuel alternate) := by
  unfold chained
  split
  next h => rw [branching_of_truth? h]; exact execAlternate_ofBlock body
  next h => rw [branching_of_truth? h]; rfl
  next => rfl

/-! ### Statements -/

theorem refines_range (w : World) (fuel id : Nat) (kind : RangeKind) {low high : Expr}
    {x y : Run Signal} (hlow : low.plain = true) (hhigh : high.plain = true) (hx : Refines x y) :
    Refines (rangeLoop w fuel id low kind high x)
      (rangeLoop w fuel id low.optimize.value kind high.optimize.value y) :=
  .rangeLoop (Nat.le_refl fuel) (refines_whole fun _ => refines_optimize hlow)
    (refines_whole fun _ => refines_optimize hhigh) hx

mutual

/-- What is left of a plain statement refines it. -/
theorem refines_optimizeStmt (w : World) (fuel : Nat) (s : Stmt) (hs : s.plain = true) :
    Refines (exec w fuel s) (execBlock w fuel s.optimize.value.statements) := by
  cases s with
  | declare _ _ e | print e | return_ e | call e | expr e =>
    exact refines_one ((refines_evaluate fun _ => refines_optimize hs).bind fun _ => .refl _)
  | increment e | decrement e => exact refines_one (refines_move _)
  | function f body =>
    unfold Stmt.optimize
    split <;> exact refines_one (.refl _)
  | object kind ref fields parameters methods => cases kind <;> exact refines_one (.refl _)
  | assign e source =>
    simp only [Stmt.plain, Bool.and_eq_true] at hs
    exact refines_assign hs.2
  | branch test body alternate =>
    simp only [Stmt.plain, Bool.and_eq_true] at hs
    simp only [Stmt.optimize, Logged.value_bind, execBlock_branched]
    exact (refines_truth fun _ => refines_optimize hs.1.1).branching
      (refines_optimizeBlock w fuel body hs.1.2)
      (refines_optimizeAlternate w fuel alternate hs.2)
  | while_ test body =>
    simp only [Stmt.plain, Bool.and_eq_true] at hs
    have hbody := refines_optimizeBlock w fuel body hs.2
    have hloop : Refines (exec w fuel (.while_ test body))
        (exec w fuel (.while_ test.optimize.value (optimizeBlock body).value)) :=
      .rounds (fun _ => refines_truth fun _ => refines_optimize hs.1) (fun _ => hbody)
        (Nat.le_refl fuel) 0
    simp only [Stmt.optimize, Logged.value_bind]
    split_ifs with hfalse
    · exact hloop.trans (refines_false (by simpa using hfalse))
    · exact refines_one hloop
  | repeat_ count body =>
    simp only [Stmt.plain, Bool.and_eq_true] at hs
    have hbody := refines_optimizeBlock w fuel body hs.2
    have hloop : Refines (exec w fuel (.repeat_ count body))
        (exec w fuel (.repeat_ count.optimize.value (optimizeBlock body).value)) :=
      (refines_whole fun _ => refines_optimize hs.1).bind fun n =>
        .rounds (fun _ => .refl _) (fun _ => hbody) (Nat.le_refl fuel) 0
    simp only [Stmt.optimize, Logged.value_bind]
    split
    next v hv => exact hloop.trans (refines_idle hv)
    next => exact refines_one hloop
  | range iterator low _ high body | foreignRange iterator low _ high body =>
    simp only [Stmt.plain, Bool.and_eq_true] at hs
    have hloop (kind : RangeKind) := refines_range w fuel iterator.id kind hs.1.1 hs.1.2
      (refines_optimizeBlock w fuel body hs.2)
    simp only [Stmt.optimize, Logged.value_bind]
    split_ifs with hempty
    · exact (hloop _).trans (refines_emptyRange hempty)
    · exact refines_one (hloop _)
  | forEach iterator collection body =>
    simp only [Stmt.plain, Bool.and_eq_true] at hs
    have hbody := refines_optimizeBlock w fuel body hs.2
    have hloop : Refines (exec w fuel (.forEach iterator collection body))
        (exec w fuel (.forEach iterator collection.optimize.value (optimizeBlock body).value)) :=
      (refines_evaluate fun _ => refines_optimize hs.1).bind fun c => (Refines.refl _).bind
        fun ds => .eachOf (fun d => (Refines.refl _).followed hbody) ds
    simp only [Stmt.optimize, Logged.value_bind]
    split_ifs with hempty
    · exact hloop.trans (refines_emptyList hempty)
    · exact refines_one hloop
  | shortReturn | break_ => exact refines_one (.refl _)
  | bare | misplaced =>
    intro m r h
    exact absurd h fault_ne_ok

theorem refines_optimizeBlock (w : World) (fuel : Nat) (ss : List Stmt)
    (hss : plainBlock ss = true) :
    Refines (execBlock w fuel ss) (execBlock w fuel (optimizeBlock ss).value) := by
  cases ss with
  | nil => exact .refl _
  | cons s rest =>
    simp only [plainBlock, Bool.and_eq_true] at hss
    simp only [optimizeBlock, Logged.value_bind, Logged.value_pure, execBlock_append]
    exact (refines_optimizeStmt w fuel s hss.1).followed (refines_optimizeBlock w fuel rest hss.2)

theorem refines_optimizeAlternate (w : World) (fuel : Nat) (alternate : Alternate)
    (halt : alternate.plain = true) :
    Refines (execAlternate w fuel alternate) (execAlternate w fuel alternate.optimize.value) := by
  cases alternate with
  | none => exact .refl _
  | block body =>
    simp only [Alternate.optimize, Logged.value_bind, Logged.value_pure, execAlternate_ofBlock]
    exact refines_optimizeBlock w fuel body halt
  | chain test body alternate =>
    simp only [Alternate.plain, Bool.and_eq_true] at halt
    simp only [Alternate.optimize, Logged.value_bind, execAlternate_chained]
    exact (refines_truth fun _ => refines_optimize halt.1.1).branching
      (refines_optimizeBlock w fuel body halt.1.2)
      (refines_optimizeAlternate w fuel alternate halt.2)

end

/-! ### Programs -/

/-- Optimization keeps the meaning of statements: whatever a list of plain statements comes to from
a memory, the optimized list comes to the same from there, and to nothing else. -/
theorem completes_optimizeBlock (w : World) (ss : List Stmt) (hplain : plainBlock ss = true)
    (m : Memory) (r : Signal × Memory) (hrun : Completes w ss m r) :
    Completes w (optimizeBlock ss).value m r ∧
      ∀ r', Completes w (optimizeBlock ss).value m r' → r' = r := by
  obtain ⟨fuel, hfuel⟩ := hrun
  have hopt : Completes w (optimizeBlock ss).value m r :=
    ⟨fuel, refines_optimizeBlock w fuel ss hplain m r hfuel⟩
  exact ⟨hopt, fun r' hr' => hr'.unique hopt⟩

section Counting

/-- A world that is never asked. -/
def silentWorld : World where
  reply _ _ := .absent
  member _ _ _ _ := .error .mismatch
  self := .absent
  text _ := ""

def emptyMemory : Memory := ⟨fun _ => none, [], []⟩

/-- Counts up to a break in a loop without an end, and has a loop that is never run. -/
def counting : List Stmt := analyzed <|
  "thine n: int = 3 * 0; repeateth 0 \x7b\x7d" ++
  "whilst 0 < 1 \x7b n++; perchance n + 0 >= 2 \x7b breaketh; \x7d n = n; proclaim n; \x7d"

theorem completes_counting :
    ∃ memory, Completes silentWorld counting emptyMemory (.normal, memory) ∧
      Completes silentWorld (optimizeBlock counting).value emptyMemory (.normal, memory) ∧
      memory.output = [.int 1] ∧ memory.store 16 = some (.int 2) := by
  have hall : (plainBlock counting && (execBlock silentWorld 3 counting emptyMemory).toOption.any
      fun r => r.1.isNormal && (r.2.output.length == 1 && r.2.output.all (·.isInt 1)) &&
        (r.2.store 16).any (·.isInt 2)) = true := by decide +kernel
  obtain ⟨hplain, hrun⟩ := Bool.and_eq_true_iff.1 hall
  obtain ⟨⟨signal, memory⟩, hblock, htest⟩ := exists_of_any hrun
  simp only [Bool.and_eq_true, beq_iff_eq] at htest
  obtain ⟨⟨hsignal, hlength, houtput⟩, hstore⟩ := htest
  obtain rfl : signal = .normal := Signal.eq_normal hsignal
  obtain ⟨d, hd⟩ : ∃ d, memory.output = [d] := List.length_eq_one_iff.1 hlength
  obtain ⟨n, hn, hvalue⟩ := (Option.any_eq_true _ _).1 hstore
  have hcompletes : Completes silentWorld counting emptyMemory (.normal, memory) := ⟨3, hblock⟩
  have hopt := (completes_optimizeBlock silentWorld counting hplain emptyMemory _ hcompletes).1
  refine ⟨memory, hcompletes, hopt, ?_, ?_⟩
  · rw [hd, Datum.eq_int (List.all_eq_true.1 houtput d (by simp [hd]))]
  · rw [hn, Datum.eq_int hvalue]

end Counting

end Dragon.Meaning
