import Dragon.Proofs.Meaning.Stmt
import Dragon.Proofs.Optimize.Exact
import Dragon.Proofs.Optimize.Normal

/-!
# Dead statements

Dead are statements that are known to do nothing, and branches of which it is known whether they are
taken. An optimized program has none, at any depth; and a statement that is not dead once its parts
are optimized stays where it is.
-/
namespace Dragon

namespace Typed

/-- Literal bounds between which there is nothing. -/
def Vacant (kind : RangeKind) (low high : Expr) : Prop :=
  ∃ a b, low = .whole a ∧ high = .whole b ∧ ∀ i, a ≤ i → Meaning.within kind i b = false

/-- A branch that is decided by a literal, or that has an alternate that is or one without
statements; a loop that is never run; an assignment of something to itself. -/
def Stmt.Dead : Stmt → Prop
  | .branch test _ alternate =>
    (∃ b, test = .truth b) ∨ alternate = .block [] ∨
      ∃ b body alternate', alternate = .chain (.truth b) body alternate'
  | .while_ test _ => test = .truth false
  | .repeat_ count _ => ∃ n ≤ 0, count = .whole n
  | .range _ low kind high _ => Vacant kind low high
  | .foreignRange _ low _ high _ => Vacant .halfOpen low high
  | .forEach _ collection _ => ∃ type, collection = .emptyList type
  | .assign target source => ∃ name, target.named? = some name ∧ source.named? = some name
  | _ => False

/-! ### What the rules look at -/

section Rules

variable {e e' : Expr} {a b : Int} {kind : RangeKind}

theorem truth?_eq_some_iff {b : Bool} : e.truth? = some b ↔ e = .truth b := by
  constructor
  · intro h
    unfold Expr.truth? at h
    split at h
    · cases h
      rfl
    · cases h
  · rintro rfl
    rfl

theorem integer?_eq_some (he : e.Fits) {v : Value} (h : e.integer? = some v) :
    ∃ n, v = .int n ∧ e = .whole n := by
  unfold Expr.integer? at h
  split at h
  · cases h
    exact (Expr.number?_eq_some_iff rfl he).1 rfl
  · cases h

theorem isEmptyList_iff : e.isEmptyList = true ↔ ∃ type, e = .emptyList type := by
  cases e <;> simp [Expr.isEmptyList]

theorem sameName_iff :
    e.sameName e' = true ↔ ∃ name, e.named? = some name ∧ e'.named? = some name := by
  simp only [Expr.sameName, Bool.and_eq_true, beq_iff_eq, Option.isSome_iff_exists]
  constructor
  · rintro ⟨⟨name, hname⟩, hsame⟩
    exact ⟨name, hname, hsame ▸ hname⟩
  · rintro ⟨name, hname, hname'⟩
    exact ⟨⟨name, hname⟩, hname.trans hname'.symm⟩

theorem comparison?_orderWhole :
    comparison? .le (some (Double.orderWhole a b)) = some (decide (a ≤ b)) ∧
      comparison? .gt (some (Double.orderWhole a b)) = some (decide (b < a)) ∧
      comparison? .ge (some (Double.orderWhole a b)) = some (decide (b ≤ a)) := by
  unfold Double.orderWhole
  split_ifs with hlt heq
  all_goals
    refine ⟨congrArg some ?_, congrArg some ?_, congrArg some ?_⟩
    all_goals
      simp
      omega

theorem isSome_idle?_whole : (idle? (.whole a)).isSome = true ↔ a ≤ 0 := by
  unfold idle?
  rw [Option.isSome_filter]
  show (comparison? .le (some (Double.orderWhole a 0)) == some true) = true ↔ _
  simp [comparison?_orderWhole]

/-- A range is empty when its first member would be past its end. -/
theorem emptyRange_whole :
    emptyRange kind (.whole a) (.whole b) = true ↔
      ∀ i, a ≤ i → Meaning.within kind i b = false := by
  cases kind with
  | closed =>
    show (comparison? .gt (some (Double.orderWhole a b)) == some true) = true ↔ _
    simp only [comparison?_orderWhole, Meaning.within, beq_iff_eq, Option.some.injEq,
      decide_eq_true_eq, decide_eq_false_iff_not]
    exact ⟨fun h i hi => by omega, fun h => by simpa using h a le_rfl⟩
  | halfOpen =>
    show (comparison? .ge (some (Double.orderWhole a b)) == some true) = true ↔ _
    simp only [comparison?_orderWhole, Meaning.within, beq_iff_eq, Option.some.injEq,
      decide_eq_true_eq, decide_eq_false_iff_not]
    exact ⟨fun h i hi => by omega, fun h => by simpa using h a le_rfl⟩

theorem emptyRange_of_vacant {low high : Expr} (h : Vacant kind low high) :
    emptyRange kind low high = true := by
  obtain ⟨a, b, rfl, rfl, hnone⟩ := h
  exact emptyRange_whole.2 hnone

/-- A range that is found empty has no number in it. -/
theorem vacant_of_emptyRange {low high : Expr} (hlow : low.Fits) (hhigh : high.Fits)
    (h : emptyRange kind low high = true) : Vacant kind low high := by
  cases hl : low.integer? with
  | none => simp [emptyRange, hl] at h
  | some u =>
    cases hu : high.integer? with
    | none => simp [emptyRange, hl, hu] at h
    | some v =>
      obtain ⟨a, rfl, rfl⟩ := integer?_eq_some hlow hl
      obtain ⟨b, rfl, rfl⟩ := integer?_eq_some hhigh hu
      exact ⟨a, b, rfl, rfl, emptyRange_whole.1 h⟩

end Rules

/-! ### One statement -/

namespace Stmt

variable {s : Stmt} {ss : List Stmt}

/-- A normal statement is not dead. -/
theorem Normal.not_dead (h : s.Normal) : ¬ s.Dead := by
  cases s with
  | branch test body alternate =>
    obtain ⟨-, -, halternate, htest⟩ := h
    rintro (⟨b, rfl⟩ | rfl | ⟨b, body, alternate', rfl⟩)
    · cases htest
    · exact halternate.2 rfl
    · cases halternate.2.2.2
  | while_ test body =>
    rintro rfl
    exact h.2.2 rfl
  | repeat_ count body =>
    rintro ⟨n, hn, rfl⟩
    have hidle := isSome_idle?_whole.2 hn
    rw [h.2.2] at hidle
    cases hidle
  | range iterator low kind high body | foreignRange iterator low kind high body =>
    intro hvacant
    exact Bool.false_ne_true (h.2.2.2.symm.trans (emptyRange_of_vacant hvacant))
  | forEach iterator collection body =>
    intro hempty
    exact Bool.false_ne_true (h.2.2.symm.trans (isEmptyList_iff.2 hempty))
  | assign target source =>
    intro hsame
    exact Bool.false_ne_true (h.2.2.symm.trans (sameName_iff.2 hsame))
  | _ => exact id

/-- If its literals have the types of their values, only a dead statement does nothing. -/
theorem dead_of_isIdle (hs : ∀ e ∈ s.direct, e.Fits) (h : s.isIdle = true) : s.Dead := by
  match s with
  | .assign target source => exact sameName_iff.1 h
  | .while_ test body => exact truth?_eq_some_iff.1 (beq_iff_eq.1 h)
  | .repeat_ count body =>
    obtain ⟨v, hv⟩ := Option.isSome_iff_exists.1 h
    obtain ⟨n, rfl, hn⟩ := integer?_eq_some (hs count List.mem_cons_self)
      (Option.filter_eq_some_iff.1 hv).1
    subst hn
    exact ⟨n, isSome_idle?_whole.1 h, rfl⟩
  | .range _ low _ high _ | .foreignRange _ low _ high _ =>
    obtain ⟨hlow, hhigh⟩ := List.forall_mem_cons.1 hs
    exact vacant_of_emptyRange hlow (List.forall_mem_singleton.1 hhigh) h
  | .forEach iterator collection body => exact isEmptyList_iff.1 h

/-- Only dead statements give way to others or to none. -/
theorem Left.dead_or_same (h : s.Left ss) (hs : ∀ e ∈ s.direct, e.Fits) : s.Dead ∨ ss = [s] := by
  cases h with
  | same => exact .inr rfl
  | nothing hidle => exact .inl (dead_of_isIdle hs hidle)
  | body hknown | other hknown => exact .inl (.inl ⟨_, truth?_eq_some_iff.1 hknown⟩)

end Stmt

/-! ### Statements at every depth -/

mutual

/-- In a normal statement everything is normal. -/
theorem Stmt.normal_nested (s : Stmt) (hs : s.Normal)
    (hregular : ∀ s' ∈ s :: s.nested, s'.Regular) : ∀ s' ∈ s.nested, s'.Normal := by
  obtain ⟨hself, hnested⟩ := List.forall_mem_cons.1 hregular
  cases s with
  | function f body => exact normal_blockInside body (hs hself) hnested
  | object kind ref fields parameters methods =>
    cases kind with
    | matter =>
      obtain rfl := hself.1 rfl
      exact nofun
    | guild => exact normal_methodsInside methods hs.2 hself.2 hnested
  | branch test body alternate =>
    obtain ⟨hbody, halternate⟩ := List.forall_mem_append.1 hnested
    exact List.forall_mem_append.2
      ⟨normal_blockInside body hs.2.1 hbody, alternate.normal_inside hs.2.2.1 halternate⟩
  | while_ _ body | repeat_ _ body | forEach _ _ body =>
    exact normal_blockInside body hs.2.1 hnested
  | range _ _ _ _ body | foreignRange _ _ _ _ body =>
    exact normal_blockInside body hs.2.2.1 hnested
  | _ => exact nofun

theorem normal_blockInside (ss : List Stmt) (hss : blockNormal ss)
    (hregular : ∀ s ∈ blockInside ss, s.Regular) : ∀ s ∈ blockInside ss, s.Normal := by
  match ss with
  | [] => exact nofun
  | s :: rest =>
    obtain ⟨hs, hrest⟩ := List.forall_mem_append.1
      (show ∀ s' ∈ (s :: s.nested) ++ blockInside rest, _ from hregular)
    exact List.forall_mem_cons.2 ⟨hss.1, List.forall_mem_append.2
      ⟨s.normal_nested hss.1 hs, normal_blockInside rest hss.2 hrest⟩⟩

theorem normal_methodsInside (ms : List Method) (hms : methodsNormal ms)
    (hown : ∀ m ∈ ms, m.func.intrinsic = false)
    (hregular : ∀ s ∈ methodsInside ms, s.Regular) : ∀ s ∈ methodsInside ms, s.Normal := by
  match ms with
  | [] => exact nofun
  | .mk f body :: rest =>
    obtain ⟨hf, hown⟩ := List.forall_mem_cons.1 hown
    obtain ⟨hbody, hrest⟩ := List.forall_mem_append.1 hregular
    exact List.forall_mem_append.2 ⟨normal_blockInside body (hms.1 hf) hbody,
      normal_methodsInside rest hms.2 hown hrest⟩

theorem Alternate.normal_inside (a : Alternate) (ha : a.Normal)
    (hregular : ∀ s ∈ a.inside, s.Regular) : ∀ s ∈ a.inside, s.Normal := by
  match a with
  | .none => exact nofun
  | .block body => exact normal_blockInside body ha.1 hregular
  | .chain test body alternate =>
    obtain ⟨-, hregular⟩ := List.forall_mem_cons.1 hregular
    obtain ⟨hbody, halternate⟩ := List.forall_mem_append.1 hregular
    -- As a statement by itself, such an `if` is normal as well.
    exact List.forall_mem_cons.2 ⟨ha, List.forall_mem_append.2
      ⟨normal_blockInside body ha.2.1 hbody, alternate.normal_inside ha.2.2.1 halternate⟩⟩

end

end Typed

open Typed

/-- An accepted program has no dead statements once it is optimized, however deep in blocks, bodies
of functions and methods of guilds; and a statement that is not dead when its parts are optimized
is not removed. -/
theorem not_dead_of_accepted {tree : Tree.Program} {program : Program}
    (haccepted : (Checked.ofTree tree).result = .ok program) :
    (∀ s ∈ program.optimize.value.inside, ¬ s.Dead) ∧
      ∀ s ∈ program.inside, s.optimized.Dead ∨ s.optimize.value.statements = [s.optimized] := by
  constructor
  · intro s hs
    have hnormal : blockNormal program.optimize.value.statements :=
      normal_optimizeBlock program.statements
    exact (normal_blockInside _ hnormal (regular_of_accepted haccepted true) s hs).not_dead
  · intro s hs
    obtain ⟨t, -, ht⟩ := exists_of_mem_right (sound_of_accepted haccepted).2 hs
    have hcomes : ComesTo true t s.optimized := ⟨s, ht, rfl⟩
    refine s.left_optimize.dead_or_same fun e he => ?_
    exact (hcomes.each_direct (fun _ _ h => h.coherent)
      (fun e he => (e.replaces_optimize he).coherent) e he).here

/-- Statements that are dead from the start, that are once their parts are optimized and that have
others in them, in a function in the method of a guild in a function. -/
def ruins : String :=
  "don f() \x7b guild G \x7b don m(x: int) \x7b don g() \x7b thine y: int = 1;" ++
  " perchance 1 < 2 \x7b y = y + 0; \x7d else \x7b y = 2; \x7d" ++
  " repeateth 1 - 1 \x7b whilst shant \x7b y = 3; \x7d \x7d" ++
  " perchance y < 2 \x7b y = 4; \x7d else perchance shant \x7b y = 5; \x7d \x7d \x7d \x7d \x7d"

theorem not_dead_ruins :
    ∃ tree program, Tree.Program.ofSource "" ruins = .ok tree ∧
      (Checked.ofTree tree).result = .ok program ∧
      program.inside.length = 14 ∧ program.optimize.value.inside.length = 6 ∧
      (∀ s ∈ program.optimize.value.inside, ¬ s.Dead) ∧
      ∀ s ∈ program.inside, s.optimized.Dead ∨ s.optimize.value.statements = [s.optimized] := by
  have haccepts : accepts ruins (fun p =>
      p.inside.length == 14 && p.optimize.value.inside.length == 6) = true := by
    refine Chars.accepts (.append (.append (.append .lit .lit) .lit) .lit) ?_
    decide +kernel
  obtain ⟨tree, program, htree, hprogram, hlengths⟩ := exists_of_accepts haccepts
  obtain ⟨hlength, hleft⟩ := Bool.and_eq_true_iff.1 hlengths
  exact ⟨tree, program, htree, hprogram, beq_iff_eq.1 hlength, beq_iff_eq.1 hleft,
    not_dead_of_accepted hprogram⟩

end Dragon
