import Dragon.Proofs.Typing.Placed

/-!
# The statements of a program at every depth

Each statement has the expressions that stand directly in it, and the variables that it declares for
others. In a placed program each of them is placed as well, and no variable is known to it that
neither surrounds the program nor is declared in it.
-/
namespace Dragon.Typed

mutual

/-- The statements in a statement. An `if` that is the alternate of another is one of them. -/
def Stmt.nested : Stmt → List Stmt
  | .function _ body | .while_ _ body | .repeat_ _ body | .range _ _ _ _ body
  | .foreignRange _ _ _ _ body | .forEach _ _ body => blockInside body
  | .object _ _ _ _ methods => methodsInside methods
  | .branch _ body alternate => blockInside body ++ alternate.inside
  | .declare .. | .print _ | .increment _ | .decrement _ | .assign .. | .return_ _ | .shortReturn
  | .break_ | .call _ | .expr _ | .bare .. | .misplaced .. => []

def blockInside : List Stmt → List Stmt
  | [] => []
  | s :: rest => s :: (s.nested ++ blockInside rest)

def methodsInside : List Method → List Stmt
  | [] => []
  | .mk _ body :: rest => blockInside body ++ methodsInside rest

def Alternate.inside : Alternate → List Stmt
  | .none => []
  | .block body => blockInside body
  | .chain test body alternate =>
    .branch test body alternate :: (blockInside body ++ alternate.inside)

end

/-- The statements of a program, at every depth. -/
def Program.inside (p : Program) : List Stmt := blockInside p.statements

theorem blockInside_append (ss ss' : List Stmt) :
    blockInside (ss ++ ss') = blockInside ss ++ blockInside ss' := by
  induction ss with
  | nil => rfl
  | cons s rest ih => simp only [List.cons_append, blockInside, ih, List.append_assoc]

/-- The expressions that stand directly in a statement. -/
def Stmt.direct : Stmt → List Expr
  | .object _ _ fields _ _ => fields.filterMap (·.value)
  | .declare _ _ e | .print e | .increment e | .decrement e | .return_ e | .call e | .expr e
  | .branch e _ _ | .while_ e _ | .repeat_ e _ | .forEach _ e _ => [e]
  | .assign e e' | .range _ e _ e' _ | .foreignRange _ e _ e' _ => [e, e']
  | .function .. | .shortReturn | .break_ | .bare .. | .misplaced .. => []

def Method.params (m : Method) : List Var := m.func.params

/-- The variables that a statement declares, for those after it or for those in it. -/
def Stmt.variables : Stmt → List Var
  | .declare _ v _ | .range v _ _ _ _ | .foreignRange v _ _ _ _ | .forEach v _ _ => [v]
  | .function f _ => f.params
  | .object _ _ _ _ methods => methods.flatMap Method.params
  | _ => []

/-! ### Placed programs -/

/-- Every variable of a context is one of another context or declared by some statements. -/
def VarsFrom (Γ : Context) (ss : List Stmt) (Γ' : Context) : Prop :=
  ∀ v, .var v ∈ Γ'.symbols → .var v ∈ Γ.symbols ∨ ∃ s ∈ ss, v ∈ s.variables

/-- A statement that is placed where only the variables of a context and of some statements are
known. -/
def PlacedAmong (Γ : Context) (ss : List Stmt) (s : Stmt) : Prop :=
  ∃ Γ', s.Placed Γ' ∧ VarsFrom Γ ss Γ'

section Placed

variable {Γ Γ' : Context} {s : Stmt} {ss ss' : List Stmt}

theorem VarsFrom.refl (Γ : Context) (ss : List Stmt) : VarsFrom Γ ss Γ := fun _ hv => .inl hv

theorem VarsFrom.bind {symbols : List Symbol}
    (h : ∀ v, .var v ∈ symbols → ∃ s ∈ ss, v ∈ s.variables) : VarsFrom Γ ss (Γ.bind symbols) := by
  intro v hv
  obtain hv | hv := List.mem_append.1 hv
  · exact .inr (h v hv)
  · exact .inl hv

theorem VarsFrom.declared (hs : s ∈ ss) : VarsFrom Γ ss (Γ.bind s.declared) := by
  refine .bind fun v hv => ⟨s, hs, ?_⟩
  cases s <;> simp_all [Stmt.declared, Stmt.variables]

theorem VarsFrom.iterator {v : Var} (hs : s ∈ ss) (hv : v ∈ s.variables) :
    VarsFrom Γ ss (Γ.looping.bind [.var v]) := by
  intro u hu
  obtain hu | hu := List.mem_cons.1 hu
  · exact .inr ⟨s, hs, (Symbol.var.inj hu).symm ▸ hv⟩
  · exact .inl hu

theorem VarsFrom.body {f : Func} {guild : Option ObjectRef} (hΓ : VarsFrom Γ ss Γ') (hs : s ∈ ss)
    (hf : f.params ⊆ s.variables) : VarsFrom Γ ss (bodyContext Γ' f guild) := by
  intro v hv
  obtain hv | hv := List.mem_append.1 hv
  · obtain ⟨u, hu, huv⟩ := List.mem_map.1 hv
    exact .inr ⟨s, hs, hf (Symbol.var.inj huv ▸ hu)⟩
  · exact hΓ v hv

theorem PlacedAmong.self (h : s.Placed Γ) : PlacedAmong Γ ss s := ⟨Γ, h, .refl Γ ss⟩

/-- A context further inside knows more variables, which the statements around it declare. -/
theorem PlacedAmong.widen (h : PlacedAmong Γ' ss s) (hΓ : VarsFrom Γ ss' Γ') (hss : ss ⊆ ss') :
    PlacedAmong Γ ss' s := by
  obtain ⟨Γ'', hplaced, hvars⟩ := h
  refine ⟨Γ'', hplaced, fun v hv => ?_⟩
  obtain hv | ⟨s', hs', hv⟩ := hvars v hv
  · exact hΓ v hv
  · exact .inr ⟨s', hss hs', hv⟩

/-- Two parts of a statement, of which neither knows what the other declares. -/
theorem PlacedAmong.append (hss : ∀ s ∈ ss, PlacedAmong Γ ss s)
    (hss' : ∀ s ∈ ss', PlacedAmong Γ ss' s) : ∀ s ∈ ss ++ ss', PlacedAmong Γ (ss ++ ss') s := by
  refine List.forall_mem_append.2 ⟨fun s hs => ?_, fun s hs => ?_⟩
  · exact (hss s hs).widen (.refl _ _) (List.subset_append_left _ _)
  · exact (hss' s hs).widen (.refl _ _) (List.subset_append_right _ _)

end Placed

mutual

/-- All that is nested in a placed statement is placed among its variables. -/
theorem Stmt.placed_nested {Γ : Context} (s : Stmt) (hs : s.Placed Γ) :
    ∀ s' ∈ s.nested, PlacedAmong Γ (s :: s.nested) s' := by
  cases s with
  | function f body =>
    intro s' hs'
    have hname : VarsFrom Γ (.function f body :: blockInside body) (Γ.bind [.func f true]) :=
      .declared (s := .function f body) List.mem_cons_self
    exact (blockPlaced_inside body hs s' hs').widen
      (hname.body List.mem_cons_self (List.Subset.refl _)) (List.subset_cons_self _ _)
  | object kind ref fields parameters methods =>
    intro s' hs'
    have hparams : ∀ m ∈ methods,
        m.params ⊆ (Stmt.object kind ref fields parameters methods).variables :=
      fun m hm v hv => List.mem_flatMap.2 ⟨m, hm, hv⟩
    exact (methodsPlaced_inside ref methods hs.2.1 hparams s' hs').widen
      (.declared (s := .object kind ref fields parameters methods) List.mem_cons_self)
      (List.Subset.refl _)
  | branch test body alternate =>
    intro s' hs'
    exact (PlacedAmong.append (fun s' hs' => blockPlaced_inside body hs.2.1 s' hs')
      (fun s' hs' => alternate.placed_inside hs.2.2 s' hs') s' hs').widen (.refl _ _)
      (List.subset_cons_self _ _)
  | while_ e body | repeat_ e body =>
    intro s' hs'
    exact (blockPlaced_inside body hs.2 s' hs').widen (fun v hv => .inl hv)
      (List.subset_cons_self _ _)
  | range iterator low kind high body =>
    intro s' hs'
    exact (blockPlaced_inside body hs.2.2 s' hs').widen
      (.iterator List.mem_cons_self List.mem_cons_self) (List.subset_cons_self _ _)
  | forEach iterator collection body =>
    intro s' hs'
    exact (blockPlaced_inside body hs.2 s' hs').widen
      (.iterator List.mem_cons_self List.mem_cons_self) (List.subset_cons_self _ _)
  | foreignRange | expr | bare | misplaced => exact hs.elim
  | _ => exact nofun

theorem blockPlaced_inside {Γ : Context} (ss : List Stmt) (hss : blockPlaced Γ ss) :
    ∀ s ∈ blockInside ss, PlacedAmong Γ (blockInside ss) s := by
  match ss with
  | [] => exact nofun
  | s :: rest =>
    refine List.forall_mem_cons.2 ⟨.self hss.1, List.forall_mem_append.2
      ⟨fun s' hs' => ?_, fun s' hs' => ?_⟩⟩
    · exact (s.placed_nested hss.1 s' hs').widen (.refl _ _)
        (List.cons_subset_cons _ (List.subset_append_left _ _))
    · exact (blockPlaced_inside rest hss.2 s' hs').widen (.declared List.mem_cons_self)
        fun s hs => List.mem_cons_of_mem _ (List.mem_append_right _ hs)

/-- Parameters of methods are declared by the guild that they belong to. -/
theorem methodsPlaced_inside {Γ : Context} {owner : Stmt} (ref : ObjectRef) (ms : List Method)
    (hms : methodsPlaced Γ ref ms) (hparams : ∀ m ∈ ms, m.params ⊆ owner.variables) :
    ∀ s ∈ methodsInside ms, PlacedAmong Γ (owner :: methodsInside ms) s := by
  match ms with
  | [] => exact nofun
  | .mk f body :: rest =>
    obtain ⟨hf, hrest⟩ := List.forall_mem_cons.1 hparams
    refine List.forall_mem_append.2 ⟨fun s hs => ?_, fun s hs => ?_⟩
    · exact (blockPlaced_inside body hms.1 s hs).widen
        ((VarsFrom.refl _ _).body List.mem_cons_self hf)
        fun s hs => List.mem_cons_of_mem _ (List.mem_append_left _ hs)
    · exact (methodsPlaced_inside ref rest hms.2 hrest s hs).widen (.refl _ _)
        (List.cons_subset_cons _ (List.subset_append_right _ _))

theorem Alternate.placed_inside {Γ : Context} (a : Alternate) (ha : a.Placed Γ) :
    ∀ s ∈ a.inside, PlacedAmong Γ a.inside s := by
  match a with
  | .none => exact nofun
  | .block body => exact blockPlaced_inside body ha
  | .chain test body alternate =>
    refine List.forall_mem_cons.2 ⟨.self ha, fun s hs => ?_⟩
    exact (PlacedAmong.append (fun s hs => blockPlaced_inside body ha.2.1 s hs)
      (fun s hs => alternate.placed_inside ha.2.2 s hs) s hs).widen (.refl _ _)
      (List.subset_cons_self _ _)

end

end Dragon.Typed
