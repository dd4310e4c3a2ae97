import Dragon.Proofs.Source
import Dragon.Proofs.Typing.Declaration
import Dragon.Proofs.Typing.Inside

/-!
# Accepted programs

Accepted programs are well typed, all of them and everywhere in them: at the top, in nested blocks,
in the bodies of functions and methods and in the values that forges give to fields. The table of
objects by which a program is judged is the one at the end of its check. The statements of such a
program at every depth are those of its source, one by one and in the same order.
-/
namespace Dragon

/-! ### Statements of the source -/

namespace Tree

mutual

/-- The statements in a statement. An `if` that is the alternate of another is one of them. A forge
has none, since what it assigns is kept with the fields. -/
def Stmt.nested : Stmt → List Stmt
  | .function (.mk _ _ _ body _) | .while_ _ body _ | .repeat_ _ body _ | .range _ _ _ _ body _
  | .forEach _ _ body _ => blockInside body
  | .guild _ _ _ methods _ => functionsInside methods
  | .branch _ body alternate _ => blockInside body ++ alternate.inside
  | .declare .. | .matter .. | .print .. | .assign .. | .increment .. | .decrement ..
  | .return_ .. | .break_ _ | .call .. => []

def blockInside : List Stmt → List Stmt
  | [] => []
  | s :: rest => s :: (s.nested ++ blockInside rest)

def functionsInside : List FunctionDef → List Stmt
  | [] => []
  | .mk _ _ _ body _ :: rest => blockInside body ++ functionsInside rest

def Alternate.inside : Alternate → List Stmt
  | .none => []
  | .block body => blockInside body
  | .chain test body alternate span =>
    .branch test body alternate span :: (blockInside body ++ alternate.inside)

end

/-- The statements of a program, at every depth. -/
def Program.inside (p : Program) : List Stmt := blockInside p.statements

end Tree

open Typed

namespace Check

variable {α : Type} {s s' s₂ : State} {Γ : Context}

theorem Ensures.run {m : Check α} : Ensures m s fun a s' => m s = .ok a s' := fun _ _ h => h

theorem Ensures.both {P Q : α → State → Prop} (hP : Ensures m s P) (hQ : Ensures m s Q) :
    Ensures m s fun a s' => P a s' ∧ Q a s' :=
  fun a s' ha => ⟨hP a s' ha, hQ a s' ha⟩

/-- The check of a statement can give another one. -/
def Becomes (t : Tree.Stmt) (st : Stmt) : Prop :=
  ∃ s Γ s', Valid s Γ ∧ stmt t s = .ok st s'

/-- A statement is well typed, and the statements in it come from those of the source. -/
def StmtSound (ts : List Tree.Stmt) (T : Objects) (Γ : Context) (st : Stmt) : Prop :=
  st.WellTyped T Γ ∧ List.Forall₂ Becomes ts st.nested

/-- What the check of some statements comes to. -/
def BlockSound (ts : List Tree.Stmt) : Prop :=
  ∀ {s Γ}, Valid s Γ → Ensures (block ts) s fun ss s' => ∃ Γ', Outcome s Γ' (fun T =>
    blockWellTyped T Γ ss ∧ List.Forall₂ Becomes (Tree.blockInside ts) (blockInside ss)) s'

/-- A variable has a value of its type, and is in scope afterwards. -/
theorem declaration_sound (valid : Valid s Γ) (mutable : Bool) (name : String)
    (type : Tree.TypeExpr) (value : Tree.Expr) (span : Span) :
    Ensures (declaration mutable name type value span) s fun st s' =>
      Outcome s (Γ.bind st.declared) (fun T => StmtSound [] T Γ st) s' := by
  refine (resolve_aligned type).ensures fun t ht => Yields.require.ensures fun _ hz => ?_
  refine (valueFor_yields valid ht value).ensures fun init hinit => ?_
  refine .bind (.bind (fresh_ensures (.pure (.bind (declare_ensures fun place events => ?_)))))
  have hvalues : t.HasValues := by
    rintro rfl
    simp [Ty.is] at hz
  have hnext := valid.advance (Nat.le_succ _)
  have hvar : (Symbol.var ⟨s.next, name, t, mutable, false⟩).Proper := ht
  have hbound := hnext.bind (List.forall_mem_singleton.2 hvar) (by simp)
  have hfollows : Follows s { s with next := s.next + 1 } :=
    (Follows.refl s).advance (Nat.le_succ _)
  refine .pure ⟨hfollows.push _ _, hbound.push List.mem_cons_self events, fun T hT => ?_⟩
  exact ⟨⟨hinit.1.2 T (hT.before (hfollows.push _ _)), hinit.2, hvalues, rfl⟩, .nil⟩

/-- A result suits its function, and only a function without one returns none. -/
theorem checkReturn_sound (valid : Valid s Γ) (value : Option Tree.Expr) (span : Span) :
    Yields (checkReturn value span) s fun st =>
      (st.declared = [] ∧ st.nested = []) ∧ ∀ T, Extends s T → st.WellTyped T Γ := by
  refine Yields.flags.bind fun flags hflags => ?_
  rw [valid.flags] at hflags
  split
  next => exact .fail _ _
  next f hf =>
    rw [hflags] at hf
    cases value with
    | none =>
      refine Yields.require.bind fun _ hz => .pure ⟨⟨rfl, rfl⟩, fun T _ => ?_⟩
      exact ⟨f, hf, Ty.is_eq_true.1 hz⟩
    | some e =>
      refine Yields.require.bind fun _ hz => ?_
      have hvalues : f.result.HasValues := by
        intro h
        simp [h, Ty.is] at hz
      refine (valueFor_yields valid (valid.function f hf) e).bind fun v hv => .pure ⟨⟨rfl, rfl⟩, ?_⟩
      exact fun T hT => ⟨f, hf, hvalues, hv.1.2 T hT, hv.2⟩

/-- A statement whose check leaves the state alone, with nothing declared and none in it. -/
theorem Yields.outcome {m : Check Stmt} (valid : Valid s Γ)
    (h : Yields m s fun st =>
      (st.declared = [] ∧ st.nested = []) ∧ ∀ T, Extends s T → st.WellTyped T Γ) :
    Ensures m s fun st s' => Outcome s (Γ.bind st.declared) (fun T => StmtSound [] T Γ st) s' := by
  refine Ensures.mono h fun st s' hst => ?_
  obtain ⟨rfl, ⟨hdeclared, hnested⟩, hwell⟩ := hst
  rw [hdeclared]
  exact .here valid fun T hT => ⟨hwell T hT, hnested ▸ .nil⟩

/-- The body of a function or method, given what its statements come to. -/
theorem body_sound {f : Func} {guild : Option ObjectRef} (valid : Valid s Γ) (hsigned : f.Signed)
    (haligned : f.type.Aligned) (ps : List Tree.Param) {body : List Tree.Stmt}
    (hbody : BlockSound body) :
    Ensures (nested (fun _ => ⟨false, some f, guild⟩) do
        declareParams f.params ps
        block body) s
      fun b s' => Outcome s Γ (fun T => blockWellTyped T (bodyContext Γ f guild) b ∧
        List.Forall₂ Becomes (Tree.blockInside body) (blockInside b)) s' := by
  have hinner := valid.enter (fun _ => ⟨false, some f, guild⟩) fun g hg => by
    cases hg
    exact hsigned.aligned_result haligned
  have hparams := hinner.bind (hsigned.aligned_params haligned) (by simp)
  refine nested_outcome valid (.bind ?_)
  refine (declareParams_ensures hparams f.params ps fun v hv => ?_).mono fun _ s₁ h₁ => ?_
  · exact List.mem_append_left _ (List.mem_map_of_mem hv)
  · refine (hbody h₁.2).mono fun b s₂ h₂ => ?_
    obtain ⟨Γ₂, h₂⟩ := h₂
    exact ⟨Γ₂, h₁.1.trans h₂.follows, h₂.valid, h₂.holds⟩

/-- A block of its own, given what its statements come to. -/
theorem nestedBlock_sound (valid : Valid s Γ) (change : Flags → Flags)
    (hchange : ∀ flags, (change flags).function = flags.function) {body : List Tree.Stmt}
    (hbody : BlockSound body) :
    Ensures (nested change (block body)) s fun b s' =>
      Outcome s Γ (fun T => blockWellTyped T (Γ.within (change Γ.flags)) b ∧
        List.Forall₂ Becomes (Tree.blockInside body) (blockInside b)) s' :=
  nested_outcome valid (hbody (valid.enter change fun f hf => valid.function f (hchange _ ▸ hf)))

/-- The body of a loop with an iterator. -/
theorem iteration_sound (valid : Valid s Γ) (v : Var) (hv : v.type.Aligned) (name : String)
    (span : Span) {body : List Tree.Stmt}
    (hbody : BlockSound body) :
    Ensures (nested inLoop do
        declare name (.var v) span
        block body) s
      fun b s' => Outcome s Γ (fun T => blockWellTyped T (Γ.looping.bind [.var v]) b ∧
        List.Forall₂ Becomes (Tree.blockInside body) (blockInside b)) s' := by
  have hproper : (Symbol.var v).Proper := hv
  have hinner := (valid.enter inLoop valid.function).bind
    (List.forall_mem_singleton.2 hproper) (by simp)
  refine nested_outcome valid (.bind (declare_ensures fun place events => ?_))
  refine (hbody (hinner.push List.mem_cons_self events)).mono fun b s₂ h₂ => ?_
  obtain ⟨Γ₂, h₂⟩ := h₂
  exact ⟨Γ₂, ((Follows.refl _).push _ _).trans h₂.follows, h₂.valid, h₂.holds⟩

theorem Outcome.emit {R : Objects → Prop} (h : Outcome s Γ R s') (events : List Event) :
    Outcome s Γ R { s' with events } :=
  ⟨{ h.follows with }, { h.valid with }, h.holds⟩

/-- Two outcomes in a row, of which the first one leaves the context. -/
theorem Outcome.within {R : Objects → Prop} (h : Outcome s' Γ R s₂) (hs : Follows s s') :
    Outcome s Γ R s₂ :=
  { h with follows := hs.trans h.follows }

/-- An `if` that is the alternate of another is checked as one by itself. -/
theorem stmt_of_alternate {test : Tree.Expr} {body : List Tree.Stmt} {alt : Tree.Alternate}
    {span : Span} {a : Alternate} (h : alternate (.chain test body alt span) s = .ok a s') :
    ∃ t b a', a = .chain t b a' ∧
      stmt (.branch test body alt span) s = .ok (.branch t b a') s' := by
  simp only [alternate, bind_eq_ok] at h
  obtain ⟨t, s₁, ht, u, s₂, hu, b, s₃, hb, a', s₄, ha, hpure⟩ := h
  cases hpure
  refine ⟨t, b, a', rfl, ?_⟩
  simp only [stmt, bind_eq_ok]
  exact ⟨t, s₁, ht, u, s₂, hu, b, s₃, hb, a', s', ha, rfl⟩

theorem branch_sound {test : Tree.Expr} {body : List Tree.Stmt} {alt : Tree.Alternate}
    {span : Span} (valid : Valid s Γ) (hbody : BlockSound body)
    (halt : ∀ {s Γ}, Valid s Γ → Ensures (alternate alt) s fun a s' => Outcome s Γ (fun T =>
      a.WellTyped T Γ ∧ List.Forall₂ Becomes alt.inside a.inside) s') :
    Ensures (stmt (.branch test body alt span)) s fun st s' => Outcome s (Γ.bind st.declared)
      (fun T => StmtSound (Tree.blockInside body ++ alt.inside) T Γ st) s' := by
  refine (expr_sound valid test).ensures fun t ht => Yields.require.ensures fun _ hbool => ?_
  refine .bind ((nestedBlock_sound valid id (fun _ => rfl) hbody).mono fun b s₁ h₁ => ?_)
  refine .bind ((halt h₁.valid).mono fun a s₂ h₂ => .pure ?_)
  refine (h₁.after h₂).imp fun T hT h =>
    ⟨⟨?_, Ty.is_eq_true.1 hbool, h.1.1, h.2.1⟩, List.rel_append h.1.2 h.2.2⟩
  exact ht.2 T (hT.before (h₁.follows.trans h₂.follows))

mutual

/-- Whatever statement is accepted is well typed, and so is all that is nested in it. -/
theorem stmt_sound {s : State} {Γ : Context} (valid : Valid s Γ) (t : Tree.Stmt) :
    Ensures (stmt t) s fun st s' =>
      Outcome s (Γ.bind st.declared) (fun T => StmtSound t.nested T Γ st) s' := by
  match t with
  | .declare mutable name type value span =>
    exact declaration_sound valid mutable name type value span
  | .function (.mk name ps result body span) =>
    refine .bind ((declareFunction_ensures valid name ps result span).mono fun f s₁ h₁ => ?_)
    obtain ⟨hfollows, hvalid, hsigned, haligned⟩ := h₁
    refine .bind ((body_sound hvalid hsigned haligned ps
      (block_sound body)).mono fun b s₂ h₂ => ?_)
    refine .bind (emit_ensures (.pure ?_))
    exact ((h₂.within hfollows).imp fun T _ h => ⟨⟨hsigned, h.1⟩, h.2⟩).emit _
  | .matter name definitions span =>
    refine .bind ((declareObject_ensures valid name none span (by simp)).mono fun ref s₁ h₁ => ?_)
    refine .bind ((objectFields_ensures h₁ List.nodup_nil definitions span).mono
      fun fields s₂ h₂ => .pure ?_)
    refine ⟨h₂.1.follows, h₂.1.valid, fun T hT =>
      ⟨⟨?_, by simp, fun _ => rfl, ?_, trivial⟩, .nil⟩⟩
    · rw [h₂.1.valid.get? h₂.1.entry hT]
      simp [Function.comp_def]
    · intro init hinit
      obtain ⟨f, -, rfl⟩ := List.mem_map.1 hinit
      trivial
  | .guild name definitions definition methodDefs span =>
    refine .bind ((declareObject_ensures valid name (some []) span (by simp)).mono
      fun ref s₁ h₁ => ?_)
    refine .bind ((objectFields_ensures h₁ List.nodup_nil definitions span).mono
      fun fields s₂ h₂ => ?_)
    refine .bind ((addMethods_ensures h₂.1 methodDefs (by simp)).mono fun _ s₃ h₃ => ?_)
    obtain ⟨funcs, hbuilt, hlen, hsigned⟩ := h₃
    refine .bind ((initialFields_ensures hbuilt rfl h₂.2 definition span).mono
      fun inits s₄ h₄ => ?_)
    obtain ⟨parameters, hbuilt, hfields, hinits⟩ := h₄
    refine hbuilt.objectInfo.ensures fun known hknown => ?_
    subst hknown
    refine .bind ((methods_sound hbuilt.valid ref funcs methodDefs hsigned).mono
      fun ms s₅ h₅ => .pure ?_)
    obtain ⟨hfuncs, houtcome⟩ := h₅
    refine ⟨hbuilt.follows.trans houtcome.follows, houtcome.valid, fun T hT => ?_⟩
    have hT₄ := hT.before houtcome.follows
    obtain ⟨hmethods, hinside⟩ := houtcome.holds T hT
    refine ⟨⟨?_, by simp, nofun, hinits T hT₄, hmethods⟩, hinside (by simpa using hlen)⟩
    rw [hbuilt.valid.get? hbuilt.entry hT₄, hfuncs (by simpa using hlen), hfields]
  | .print value span =>
    refine Yields.outcome valid ((expr_sound valid value).value _ fun v hv =>
      .pure ⟨⟨rfl, rfl⟩, ?_⟩)
    exact fun T hT => ⟨hv.1.2 T hT, hv.2⟩
  | .return_ value span => exact Yields.outcome valid (checkReturn_sound valid value span)
  | .call callee args span outer =>
    exact Yields.outcome valid ((expr_sound valid _).bind fun e he => .pure ⟨⟨rfl, rfl⟩, he.2⟩)
  | .assign target value span =>
    refine Yields.outcome valid ((expr_sound valid target).bind fun t ht => ?_)
    refine Yields.require.bind fun _ _ => ?_
    refine (valueFor_yields valid ht.1 value).bind fun v hv => .pure ⟨⟨rfl, rfl⟩, fun T hT => ?_⟩
    exact ⟨ht.2 T hT, hv.1.2 T hT, hv.2⟩
  | .increment target span | .decrement target span =>
    refine Yields.outcome valid ((expr_sound valid target).bind fun t ht => ?_)
    refine Yields.require.bind fun _ hnum => Yields.require.bind fun _ _ => .pure ⟨⟨rfl, rfl⟩, ?_⟩
    exact fun T hT => ⟨ht.2 T hT, hnum⟩
  | .branch test body alt span =>
    exact branch_sound valid (block_sound body) fun valid => alternate_sound valid alt
  | .while_ test body span =>
    refine (expr_sound valid test).ensures fun t ht => Yields.require.ensures fun _ hbool => ?_
    refine .bind ((nestedBlock_sound valid inLoop (fun _ => rfl) (block_sound body)).mono
      fun b s₁ h₁ => .pure ?_)
    exact h₁.imp fun T hT h =>
      ⟨⟨ht.2 T (hT.before h₁.follows), Ty.is_eq_true.1 hbool, h.1⟩, h.2⟩
  | .repeat_ count body span =>
    refine (expr_sound valid count).ensures fun n hn => Yields.require.ensures fun _ hint => ?_
    refine .bind ((nestedBlock_sound valid inLoop (fun _ => rfl) (block_sound body)).mono
      fun b s₁ h₁ => .pure ?_)
    exact h₁.imp fun T hT h =>
      ⟨⟨hn.2 T (hT.before h₁.follows), Ty.is_eq_true.1 hint, h.1⟩, h.2⟩
  | .range iterator low kind high body span =>
    refine (expr_sound valid low).ensures fun l hl => Yields.require.ensures fun _ hintl => ?_
    refine (expr_sound valid high).ensures fun h hh => Yields.require.ensures fun _ hinth => ?_
    refine .bind (.bind (fresh_ensures (.pure ?_)))
    have hfollows : Follows s { s with next := s.next + 1 } :=
      (Follows.refl s).advance (Nat.le_succ _)
    have hint : Ty.int.Aligned := trivial
    refine .bind ((iteration_sound (valid.advance (Nat.le_succ _)) _ hint iterator span
      (block_sound body)).mono fun b s₁ h₁ => .pure ?_)
    refine (h₁.within hfollows).imp fun T hT hb => ?_
    have hs := hT.before (hfollows.trans h₁.follows)
    exact ⟨⟨hl.2 T hs, Ty.is_eq_true.1 hintl, hh.2 T hs, Ty.is_eq_true.1 hinth, rfl, hb.1⟩, hb.2⟩
  | .forEach iterator collection body span =>
    refine (expr_sound valid collection).ensures fun c hc => ?_
    split
    next => exact .fail _ _
    next element helement =>
      have htype := Ty.eq_list helement
      have haligned : element.Aligned := by
        have h := hc.1
        rw [htype] at h
        exact h
      refine .bind (.bind (fresh_ensures (.pure ?_)))
      have hfollows : Follows s { s with next := s.next + 1 } :=
        (Follows.refl s).advance (Nat.le_succ _)
      refine .bind ((iteration_sound (valid.advance (Nat.le_succ _)) _ haligned iterator span
        (block_sound body)).mono fun b s₁ h₁ => .pure ?_)
      refine (h₁.within hfollows).imp fun T hT hb => ?_
      exact ⟨⟨hc.2 T (hT.before (hfollows.trans h₁.follows)), htype, hb.1⟩, hb.2⟩
  | .break_ span =>
    refine Yields.outcome valid (Yields.flags.bind fun flags hflags => ?_)
    refine Yields.require.bind fun _ hloop => .pure ⟨⟨rfl, rfl⟩, fun T _ => ?_⟩
    rw [hflags, valid.flags] at hloop
    exact hloop

theorem block_sound (ts : List Tree.Stmt) : BlockSound ts := by
  intro s Γ valid
  match ts with
  | [] => exact .pure ⟨Γ, .here valid fun _ _ => ⟨trivial, .nil⟩⟩
  | t :: rest =>
    refine .bind ((Ensures.run.both (stmt_sound valid t)).mono fun st s₁ h₁ => ?_)
    obtain ⟨hrun, h₁⟩ := h₁
    refine .bind ((block_sound rest h₁.valid).mono fun ss s₂ h₂ => .pure ?_)
    obtain ⟨Γ', h₂⟩ := h₂
    refine ⟨Γ', (h₁.after h₂).imp fun T _ h => ⟨⟨h.1.1, h.2.1⟩, ?_⟩⟩
    exact .cons ⟨s, Γ, s₁, valid, hrun⟩ (List.rel_append h.1.2 h.2.2)

theorem alternate_sound {s : State} {Γ : Context} (valid : Valid s Γ) (t : Tree.Alternate) :
    Ensures (alternate t) s fun a s' => Outcome s Γ (fun T =>
      a.WellTyped T Γ ∧ List.Forall₂ Becomes t.inside a.inside) s' := by
  match t with
  | .none => exact .pure (.here valid fun _ _ => ⟨trivial, .nil⟩)
  | .block body =>
    exact .bind ((nestedBlock_sound valid id (fun _ => rfl) (block_sound body)).mono
      fun b s₁ h₁ => .pure h₁)
  | .chain test body alt span =>
    intro a s' hrun
    obtain ⟨t, b, a', rfl, hbranch⟩ := stmt_of_alternate hrun
    have houtcome := branch_sound valid (block_sound body) (fun valid => alternate_sound valid alt)
      _ s' hbranch
    exact houtcome.imp fun T _ h => ⟨h.1, .cons ⟨s, Γ, s', valid, hbranch⟩ h.2⟩

theorem methods_sound {s : State} {Γ : Context} (valid : Valid s Γ) (ref : ObjectRef)
    (fs : List Func) (definitions : List Tree.FunctionDef)
    (hsigned : ∀ f ∈ fs, f.Signed ∧ f.type.Aligned) :
    Ensures (methods ref fs definitions) s fun ms s' =>
      (fs.length = definitions.length → ms.map Method.func = fs) ∧
        Outcome s Γ (fun T => methodsWellTyped T Γ ref ms ∧ (fs.length = definitions.length →
          List.Forall₂ Becomes (Tree.functionsInside definitions) (methodsInside ms))) s' := by
  match fs, definitions with
  | f :: fs, .mk name ps result body span :: rest =>
    obtain ⟨hf, haligned⟩ := hsigned f List.mem_cons_self
    refine .bind ((body_sound valid hf haligned ps
      (block_sound body)).mono fun b s₁ h₁ => ?_)
    refine .bind (emit_ensures (.bind ?_))
    have h₁ := h₁.emit (.analyzed true name :: s₁.events)
    refine (methods_sound h₁.valid ref fs rest fun g hg =>
      hsigned g (List.mem_cons_of_mem _ hg)).mono fun ms s₂ h₂ => .pure ⟨fun hlen => ?_, ?_⟩
    · rw [List.map_cons, h₂.1 (by simpa using hlen)]
      rfl
    · exact (h₁.after h₂.2).imp fun T _ h => ⟨⟨hf, h.1.1, h.2.1⟩, fun hlen =>
        List.rel_append h.1.2 (h.2.2 (by simpa using hlen))⟩
  | [], [] => exact .pure ⟨fun _ => rfl, .here valid fun _ _ => ⟨trivial, fun _ => .nil⟩⟩
  | [], _ :: _ | _ :: _, [] => exact .pure ⟨by simp, .here valid fun _ _ => ⟨trivial, by simp⟩⟩

end

/-! ### Programs -/

/-- The library is valid at the start. -/
theorem valid_initial : Valid .initial .initial where
  seen frame hframe b hb := by
    obtain rfl | hframe := List.mem_cons.1 hframe
    · cases hb
    · obtain rfl := List.mem_singleton.1 hframe
      exact List.mem_map_of_mem hb
  flags := rfl
  known := by simp [State.initial]
  declared ref href := by simp [Context.initial, Library.frame, Library.functions] at href
  symbols := by
    simp [Context.initial, Library.frame, Library.functions, Library.pi, Library.intrinsic,
      Symbol.Proper, Ty.Aligned, Ty.allAligned]
  objects := by simp [State.initial]
  function f hf := by cases hf

end Check

/-- The statements of an accepted program are well typed, and they are those of its source. -/
theorem sound_of_accepted {tree : Tree.Program} {program : Program}
    (haccepted : (Checked.ofTree tree).result = .ok program) :
    blockWellTyped (Checked.ofTree tree).state.objects .initial program.statements ∧
      List.Forall₂ Check.Becomes tree.inside program.inside := by
  obtain ⟨Γ, houtcome⟩ := Check.block_sound tree.statements Check.valid_initial _ _
    (Checked.block_of_accepted haccepted)
  exact houtcome.holds _ fun _ _ => rfl

/-- What the checker accepts is well typed, by the objects that it knows in the end. -/
theorem wellTyped_of_accepted (tree : Tree.Program) (program : Program)
    (haccepted : (Checked.ofTree tree).result = .ok program) :
    program.WellTyped (Checked.ofTree tree).state.objects :=
  (sound_of_accepted haccepted).1

/-- A guild with a forge and a method, an empty list that takes the type of its variable, and a
value for an optional that is empty. -/
def purses : String :=
  "guild Purse \x7b coins: [int]; forge(first: int) \x7b mine.coins = [first]; \x7d" ++
  " don spare(n: int) -> int? \x7b" ++
  " perchance n < 0 \x7b return some mine.coins[0]; \x7d return naught int; \x7d \x7d" ++
  " thine all: [Purse] = []; all = [Purse(first: 2)];" ++
  " proclaim \"$\x7ball[0].spare(n: 1) ?? 0\x7d\";"

theorem wellTyped_purses :
    ∃ tree program, Tree.Program.ofSource "" purses = .ok tree ∧
      (Checked.ofTree tree).result = .ok program ∧ program.statements.length = 4 ∧
      program.WellTyped (Checked.ofTree tree).state.objects := by
  have haccepts : accepts purses (·.statements.length == 4) = true := by
    refine Chars.accepts (.append (.append (.append (.append .lit .lit) .lit) .lit) .lit) ?_
    decide +kernel
  obtain ⟨tree, program, htree, hprogram, hlength⟩ := exists_of_accepts haccepts
  exact ⟨tree, program, htree, hprogram, beq_iff_eq.1 hlength,
    wellTyped_of_accepted tree program hprogram⟩

end Dragon
