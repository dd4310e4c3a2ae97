import Dragon.Proofs.Optimize.Reduct

/-!
# Normal forms

A program is normal if no rule of optimization has anything left to do in it, whatever the depth: no
operation on literals that has a result, no operand that does not matter, no statement without an
effect and no branch that is decided. Optimized programs are normal, and normal programs are what
they are optimized to, so optimizing a second time changes nothing and reports nothing.
-/
namespace Dragon.Typed

/-! ### Expressions -/

mutual

/-- Callees and the objects of members are not looked at. -/
def Expr.Normal : Expr → Prop
  | .unary op e _ => e.Normal ∧ e.UnarySettled op
  | .binary op l r type => l.Normal ∧ r.Normal ∧ Expr.BinarySettled op l r type
  | .ternary test c a _ => test.Normal ∧ c.Normal ∧ a.Normal ∧ test.truth? = none
  | .coalesce o f _ => o.Normal ∧ f.Normal ∧ o.isDecided = false
  | .list elements _ => elementsNormal elements
  | .subscript c i _ => c.Normal ∧ i.Normal
  | .call _ args _ | .construct _ args _ => argsNormal args
  | .template parts _ => partsNormal parts
  | .foreignUnary _ e _ => e.Normal
  | .foreignBinary _ l r _ => l.Normal ∧ r.Normal
  | .misplaced shown optimized => shown = optimized
  | .var _ | .param _ | .func _ | .self _ | .literal .. | .emptyOptional _ | .emptyList _
  | .member .. | .foreignMember .. | .object _ | .field _ => True

def elementsNormal : List Expr → Prop
  | [] => True
  | e :: rest => e.Normal ∧ elementsNormal rest

def argsNormal : List Arg → Prop
  | [] => True
  | .mk _ value :: rest => value.Normal ∧ argsNormal rest

def partsNormal : List Part → Prop
  | [] => True
  | .text _ :: rest => partsNormal rest
  | .hole e :: rest => e.Normal ∧ partsNormal rest

end

namespace Expr

variable {e l r test o f : Expr} {type : Ty}

/-! ### Settled operations are left alone -/

theorem negate_of_settled (h : e.UnarySettled .neg) : e.negate type = unary .neg e type := by
  obtain ⟨hnumber, hnegation⟩ := h
  unfold negate
  rw [hnumber]
  cases e with
  | unary op inner t =>
    cases op with
    | neg => cases hnegation
    | _ => rfl
  | _ => rfl

theorem applyUnary_of_settled {op : UnaryOp} (h : e.UnarySettled op) :
    applyUnary op e type = unary op e type := by
  cases op with
  | neg => exact negate_of_settled h
  | not =>
    have hboolean : e.boolean? = none := h
    simp [applyUnary, invert, hboolean]
  | some => rfl

theorem combine_of_settled {op : BinaryOp} (hfold : fold? op l r type = none)
    (hidentity : type.isNumeric = true → identity? op l r type = none) :
    combine op l r type = pure (binary op l r type) := by
  unfold combine
  rw [hfold]
  by_cases hnumeric : type.isNumeric = true
  · simp [hnumeric, hidentity hnumeric]
  · simp [hnumeric]

theorem applyBinary_of_settled {op : BinaryOp} (h : BinarySettled op l r type) :
    applyBinary op l r type = pure (binary op l r type) := by
  cases op with
  | and =>
    obtain ⟨hl, hr⟩ := h
    simp [applyBinary, conjoin, hl, hr]
  | or =>
    obtain ⟨hl, hr⟩ := h
    simp [applyBinary, disjoin, hl, hr]
  | _ => exact combine_of_settled h.1 h.2

theorem choose_of_undecided (h : test.truth? = none) :
    test.choose l r type = ternary test l r type := by
  simp [choose, h]

theorem orElse_of_undecided (h : o.isDecided = false) : o.orElse f type = coalesce o f type := by
  cases o with
  | unary op inner t =>
    cases op with
    | some => cases h
    | _ => rfl
  | emptyOptional t => cases h
  | _ => rfl

/-! ### Simplified operations are normal -/

theorem Reduct.normal {operands : List Expr} {operation : Expr} {settled : Prop}
    (h : Reduct operands operation settled e) (hoperands : ∀ a ∈ operands, a.Normal)
    (hsame : settled → operation.Normal) : e.Normal := by
  cases h with
  | literal v type => trivial
  | operand h => exact hoperands _ h
  | inner h => exact (hoperands _ h).1
  | negated type h hsettled => exact ⟨hoperands _ h, hsettled⟩
  | same h => exact hsame h

theorem normal_applyUnary (op : UnaryOp) (he : e.Normal) (type : Ty) :
    (applyUnary op e type).Normal :=
  (reduct_applyUnary op e type).normal (by simpa using he) fun h => ⟨he, h⟩

theorem normal_applyBinary (op : BinaryOp) (hl : l.Normal) (hr : r.Normal) (type : Ty) :
    (applyBinary op l r type).value.Normal :=
  (reduct_applyBinary op l r type).normal (by simpa using ⟨hl, hr⟩) fun h => ⟨hl, hr, h⟩

theorem normal_choose (htest : test.Normal) (hl : l.Normal) (hr : r.Normal) (type : Ty) :
    (test.choose l r type).Normal :=
  (reduct_choose test l r type).normal (by simpa using ⟨htest, hl, hr⟩)
    fun h => ⟨htest, hl, hr, h⟩

theorem normal_orElse (ho : o.Normal) (hf : f.Normal) (type : Ty) : (o.orElse f type).Normal :=
  (reduct_orElse o f type).normal (by simpa using ⟨ho, hf⟩) fun h => ⟨ho, hf, h⟩

end Expr

mutual

/-- Optimized expressions are normal. -/
theorem Expr.normal_optimize (e : Expr) : e.optimize.value.Normal := by
  cases e with
  | unary op e t => exact Expr.normal_applyUnary op e.normal_optimize t
  | binary op l r t => exact Expr.normal_applyBinary op l.normal_optimize r.normal_optimize t
  | ternary test c a t =>
    exact Expr.normal_choose test.normal_optimize c.normal_optimize a.normal_optimize t
  | coalesce o f t => exact Expr.normal_orElse o.normal_optimize f.normal_optimize t
  | list elements t => exact normal_optimizeAll elements
  | subscript c i t => exact ⟨c.normal_optimize, i.normal_optimize⟩
  | call _ args t | construct _ args t => exact normal_optimizeArgs args
  | template parts t => exact normal_optimizeParts parts
  | foreignUnary symbol e t => exact e.normal_optimize
  | foreignBinary symbol l r t => exact ⟨l.normal_optimize, r.normal_optimize⟩
  | misplaced shown optimized => exact rfl
  | _ => trivial

theorem normal_optimizeAll (es : List Expr) : elementsNormal (optimizeAll es).value := by
  cases es with
  | nil => trivial
  | cons e rest => exact ⟨e.normal_optimize, normal_optimizeAll rest⟩

theorem normal_optimizeArgs (args : List Arg) : argsNormal (optimizeArgs args).value := by
  match args with
  | [] => trivial
  | .mk name value :: rest => exact ⟨value.normal_optimize, normal_optimizeArgs rest⟩

theorem normal_optimizeParts (parts : List Part) : partsNormal (optimizeParts parts).value := by
  match parts with
  | [] => trivial
  | .text s :: rest => exact normal_optimizeParts rest
  | .hole e :: rest => exact ⟨e.normal_optimize, normal_optimizeParts rest⟩

end

mutual

/-- Normal expressions are left alone, without a report. -/
theorem Expr.optimize_of_normal (e : Expr) (he : e.Normal) : e.optimize = pure e := by
  cases e with
  | unary op e t =>
    rw [Expr.optimize, e.optimize_of_normal he.1]
    exact congrArg pure (Expr.applyUnary_of_settled he.2)
  | binary op l r t =>
    rw [Expr.optimize, l.optimize_of_normal he.1, r.optimize_of_normal he.2.1]
    exact Expr.applyBinary_of_settled he.2.2
  | ternary test c a t =>
    obtain ⟨htest, hc, ha, htruth⟩ := he
    rw [Expr.optimize, test.optimize_of_normal htest, c.optimize_of_normal hc,
      a.optimize_of_normal ha]
    exact congrArg pure (Expr.choose_of_undecided htruth)
  | coalesce o f t =>
    rw [Expr.optimize, o.optimize_of_normal he.1, f.optimize_of_normal he.2.1]
    exact congrArg pure (Expr.orElse_of_undecided he.2.2)
  | list elements t =>
    rw [Expr.optimize, optimizeAll_of_normal elements he]
    rfl
  | call _ args t | construct _ args t =>
    rw [Expr.optimize, optimizeArgs_of_normal args he]
    rfl
  | template parts t =>
    rw [Expr.optimize, optimizeParts_of_normal parts he]
    rfl
  | foreignUnary symbol e t =>
    rw [Expr.optimize, e.optimize_of_normal he]
    rfl
  | subscript l r t | foreignBinary _ l r t =>
    rw [Expr.optimize, l.optimize_of_normal he.1, r.optimize_of_normal he.2]
    rfl
  | misplaced shown optimized =>
    obtain rfl : shown = optimized := he
    rfl
  | _ => rfl

theorem optimizeAll_of_normal (es : List Expr) (hes : elementsNormal es) :
    optimizeAll es = pure es := by
  cases es with
  | nil => rfl
  | cons e rest =>
    rw [optimizeAll, e.optimize_of_normal hes.1, optimizeAll_of_normal rest hes.2]
    rfl

theorem optimizeArgs_of_normal (args : List Arg) (hargs : argsNormal args) :
    optimizeArgs args = pure args := by
  match args with
  | [] => rfl
  | .mk name value :: rest =>
    rw [optimizeArgs, value.optimize_of_normal hargs.1, optimizeArgs_of_normal rest hargs.2]
    rfl

theorem optimizeParts_of_normal (parts : List Part) (hparts : partsNormal parts) :
    optimizeParts parts = pure parts := by
  match parts with
  | [] => rfl
  | .text s :: rest =>
    rw [optimizeParts, optimizeParts_of_normal rest hparts]
    rfl
  | .hole e :: rest =>
    rw [optimizeParts, e.optimize_of_normal hparts.1, optimizeParts_of_normal rest hparts.2]
    rfl

end

/-- The negation that a difference from zero becomes may be optimized as a new expression: its
operand does not change again. -/
theorem Expr.optimize_negated (e : Expr) (t : Ty) :
    (unary .neg e.optimize.value t).optimize = pure (e.optimize.value.negate t) := by
  rw [Expr.optimize, Expr.optimize_of_normal _ e.normal_optimize]
  rfl

/-! ### Statements -/

/-- The values that a forge gives to fields are normal. -/
def fieldsNormal (fields : List FieldInit) : Prop :=
  ∀ f ∈ fields, ∀ e, f.value = some e → e.Normal

mutual

def Stmt.Normal : Stmt → Prop
  | .declare _ _ e | .print e | .increment e | .decrement e | .return_ e | .call e | .expr e =>
    e.Normal
  | .function f body => f.intrinsic = false → blockNormal body
  | .object .matter _ _ _ _ => True
  | .object .guild _ fields _ methods => fieldsNormal fields ∧ methodsNormal methods
  | .assign target source => target.Normal ∧ source.Normal ∧ target.sameName source = false
  | .branch test body alternate =>
    test.Normal ∧ blockNormal body ∧ alternate.Normal ∧ test.truth? = none
  | .while_ test body => test.Normal ∧ blockNormal body ∧ test.truth? ≠ some false
  | .repeat_ count body => count.Normal ∧ blockNormal body ∧ idle? count = none
  | .range _ low kind high body =>
    low.Normal ∧ high.Normal ∧ blockNormal body ∧ emptyRange kind low high = false
  | .foreignRange _ low _ high body =>
    low.Normal ∧ high.Normal ∧ blockNormal body ∧ emptyRange .halfOpen low high = false
  | .forEach _ collection body =>
    collection.Normal ∧ blockNormal body ∧ collection.isEmptyList = false
  | .shortReturn | .break_ | .bare .. => True
  | .misplaced shown optimized => shown = optimized

def blockNormal : List Stmt → Prop
  | [] => True
  | s :: rest => s.Normal ∧ blockNormal rest

def methodsNormal : List Method → Prop
  | [] => True
  | .mk f body :: rest => (f.intrinsic = false → blockNormal body) ∧ methodsNormal rest

def Alternate.Normal : Alternate → Prop
  | .none => True
  | .block body => blockNormal body ∧ body ≠ []
  | .chain test body alternate =>
    test.Normal ∧ blockNormal body ∧ alternate.Normal ∧ test.truth? = none

end

/-- Nothing in a program is left to optimize. -/
def Program.Normal (p : Program) : Prop := blockNormal p.statements

theorem blockNormal_append {ss ts : List Stmt} :
    blockNormal (ss ++ ts) ↔ blockNormal ss ∧ blockNormal ts := by
  induction ss with
  | nil => simp [blockNormal]
  | cons s rest ih => simp [blockNormal, ih, and_assoc]

theorem blockNormal_singleton {s : Stmt} : blockNormal [s] ↔ s.Normal := by
  simp [blockNormal]

/-! ### Optimized statements are normal -/

theorem normal_optimizeFields (fields : List FieldInit) :
    fieldsNormal (optimizeFields fields).value := by
  rw [optimizeFields_eq]
  refine List.forall_mem_map.2 fun f _ e he => ?_
  obtain ⟨value, -, rfl⟩ := Option.map_eq_some_iff.1 he
  exact value.normal_optimize

theorem normal_optimizeBody {f : Func} {body : List Stmt}
    (h : blockNormal (optimizeBlock body).value) (hintrinsic : f.intrinsic = false) :
    blockNormal (optimizeBody f body).value := by
  rwa [optimizeBody, hintrinsic, if_neg (by simp)]

theorem normal_ofBlock {body : List Stmt} (h : blockNormal body) :
    (Alternate.ofBlock body).Normal := by
  cases body with
  | nil => trivial
  | cons s rest => exact ⟨h, by simp⟩

section Branches

variable {test : Expr} {body : List Stmt} {alternate : Alternate}

theorem normal_residue (h : alternate.Normal) : blockNormal alternate.residue.statements := by
  cases alternate with
  | none => trivial
  | block body => exact h.1
  | chain test body alternate => exact blockNormal_singleton.2 h

theorem normal_chained (htest : test.Normal) (hbody : blockNormal body)
    (halternate : alternate.Normal) : (chained test body alternate).value.Normal := by
  unfold chained
  split
  next => exact normal_ofBlock hbody
  next => exact halternate
  next htruth => exact ⟨htest, hbody, halternate, htruth⟩

theorem normal_branched (htest : test.Normal) (hbody : blockNormal body)
    (halternate : alternate.Normal) :
    blockNormal (branched test body alternate).value.statements := by
  unfold branched
  split
  next => exact hbody
  next => exact normal_residue halternate
  next htruth => exact blockNormal_singleton.2 ⟨htest, hbody, halternate, htruth⟩

end Branches

mutual

/-- What is left of a statement is normal. -/
theorem Stmt.normal_optimize (s : Stmt) : blockNormal s.optimize.value.statements := by
  match s with
  | .declare _ _ e | .print e | .increment e | .decrement e | .return_ e | .call e | .expr e =>
    exact blockNormal_singleton.2 e.normal_optimize
  | .function f body =>
    rw [Stmt.optimize_function]
    have hbody : (Stmt.function f _).Normal := normal_optimizeBody (normal_optimizeBlock body)
    exact blockNormal_singleton.2 hbody
  | .object .matter ref fields parameters methods => exact blockNormal_singleton.2 trivial
  | .object .guild ref fields parameters methods =>
    exact blockNormal_singleton.2 ⟨normal_optimizeFields fields, normal_optimizeMethods methods⟩
  | .assign target source =>
    simp only [Stmt.optimize, Logged.value_bind]
    split_ifs with hsame
    · trivial
    · refine blockNormal_singleton.2 ⟨target.normal_optimize, source.normal_optimize, ?_⟩
      simpa using hsame
  | .branch test body alternate =>
    exact normal_branched test.normal_optimize (normal_optimizeBlock body)
      alternate.normal_optimize
  | .while_ test body =>
    simp only [Stmt.optimize, Logged.value_bind]
    split_ifs with hfalse
    · trivial
    · refine blockNormal_singleton.2 ⟨test.normal_optimize, normal_optimizeBlock body, ?_⟩
      simpa using hfalse
  | .repeat_ count body =>
    simp only [Stmt.optimize, Logged.value_bind]
    split
    next => trivial
    next hidle =>
      exact blockNormal_singleton.2 ⟨count.normal_optimize, normal_optimizeBlock body, hidle⟩
  | .range _ low _ high body | .foreignRange _ low _ high body =>
    simp only [Stmt.optimize, Logged.value_bind]
    split_ifs with hempty
    · trivial
    · refine blockNormal_singleton.2 ⟨low.normal_optimize, high.normal_optimize,
        normal_optimizeBlock body, ?_⟩
      simpa using hempty
  | .forEach iterator collection body =>
    simp only [Stmt.optimize, Logged.value_bind]
    split_ifs with hempty
    · trivial
    · refine blockNormal_singleton.2 ⟨collection.normal_optimize, normal_optimizeBlock body, ?_⟩
      simpa using hempty
  | .shortReturn | .break_ | .bare .. => exact blockNormal_singleton.2 trivial
  | .misplaced shown optimized => exact blockNormal_singleton.2 rfl

theorem normal_optimizeBlock (ss : List Stmt) : blockNormal (optimizeBlock ss).value := by
  match ss with
  | [] => trivial
  | s :: rest => exact blockNormal_append.2 ⟨s.normal_optimize, normal_optimizeBlock rest⟩

theorem normal_optimizeMethods (ms : List Method) : methodsNormal (optimizeMethods ms).value := by
  match ms with
  | [] => trivial
  | .mk f body :: rest =>
    rw [optimizeMethods_cons]
    exact ⟨normal_optimizeBody (normal_optimizeBlock body), normal_optimizeMethods rest⟩

theorem Alternate.normal_optimize (a : Alternate) : a.optimize.value.Normal := by
  match a with
  | .none => trivial
  | .block body => exact normal_ofBlock (normal_optimizeBlock body)
  | .chain test body alternate =>
    exact normal_chained test.normal_optimize (normal_optimizeBlock body)
      alternate.normal_optimize

end

/-! ### Normal statements are left alone -/

theorem optimizeFields_of_normal {fields : List FieldInit} (h : fieldsNormal fields) :
    optimizeFields fields = pure fields := by
  induction fields with
  | nil => rfl
  | cons f rest ih =>
    have hrest := ih fun g hg => h g (List.mem_cons_of_mem _ hg)
    obtain ⟨field, value⟩ := f
    cases value with
    | none =>
      rw [optimizeFields, hrest]
      rfl
    | some value =>
      rw [optimizeFields, value.optimize_of_normal (h _ List.mem_cons_self value rfl), hrest]
      rfl

theorem optimizeBody_of_normal {f : Func} {body : List Stmt}
    (h : f.intrinsic = false → optimizeBlock body = pure body) :
    optimizeBody f body = pure body := by
  unfold optimizeBody
  cases hintrinsic : f.intrinsic with
  | true => rfl
  | false => rw [if_neg (by simp), h hintrinsic]

mutual

/-- Normal statements are left alone, without a report. -/
theorem Stmt.optimize_of_normal (s : Stmt) (hs : s.Normal) : s.optimize = pure (.one s) := by
  match s with
  | .declare _ _ e | .print e | .increment e | .decrement e | .return_ e | .call e | .expr e =>
    rw [Stmt.optimize, e.optimize_of_normal hs]
    rfl
  | .function f body =>
    rw [Stmt.optimize_function, optimizeBody_of_normal fun hintrinsic =>
      optimizeBlock_of_normal body (hs hintrinsic)]
    rfl
  | .object .matter ref fields parameters methods => rfl
  | .object .guild ref fields parameters methods =>
    rw [Stmt.optimize, optimizeFields_of_normal hs.1, optimizeMethods_of_normal methods hs.2]
    rfl
  | .assign target source =>
    obtain ⟨htarget, hsource, hsame⟩ := hs
    rw [Stmt.optimize, target.optimize_of_normal htarget, source.optimize_of_normal hsource]
    show (if target.sameName source = true then _ else _) = _
    rw [if_neg (by simp [hsame])]
    rfl
  | .branch test body alternate =>
    obtain ⟨htest, hbody, halternate, htruth⟩ := hs
    rw [Stmt.optimize, test.optimize_of_normal htest, optimizeBlock_of_normal body hbody,
      alternate.optimize_of_normal halternate]
    show branched test body alternate = _
    rw [branched, htruth]
  | .while_ test body =>
    obtain ⟨htest, hbody, hfalse⟩ := hs
    rw [Stmt.optimize, test.optimize_of_normal htest, optimizeBlock_of_normal body hbody]
    show (if (test.truth? == some false) = true then _ else _) = _
    rw [if_neg (by simpa using hfalse)]
    rfl
  | .repeat_ count body =>
    obtain ⟨hcount, hbody, hidle⟩ := hs
    rw [Stmt.optimize, count.optimize_of_normal hcount, optimizeBlock_of_normal body hbody]
    show (match idle? count with
      | some times => _
      | none => _) = _
    rw [hidle]
    rfl
  | .range _ low _ high body | .foreignRange _ low _ high body =>
    obtain ⟨hlow, hhigh, hbody, hempty⟩ := hs
    rw [Stmt.optimize, low.optimize_of_normal hlow, high.optimize_of_normal hhigh,
      optimizeBlock_of_normal body hbody]
    show (if emptyRange _ low high = true then _ else _) = _
    rw [if_neg (by simp [hempty])]
    rfl
  | .forEach iterator collection body =>
    obtain ⟨hcollection, hbody, hempty⟩ := hs
    rw [Stmt.optimize, collection.optimize_of_normal hcollection,
      optimizeBlock_of_normal body hbody]
    show (if collection.isEmptyList = true then _ else _) = _
    rw [if_neg (by simp [hempty])]
    rfl
  | .shortReturn | .break_ | .bare .. => rfl
  | .misplaced shown optimized =>
    obtain rfl : shown = optimized := hs
    rfl

theorem optimizeBlock_of_normal (ss : List Stmt) (hss : blockNormal ss) :
    optimizeBlock ss = pure ss := by
  match ss with
  | [] => rfl
  | s :: rest =>
    rw [optimizeBlock, s.optimize_of_normal hss.1, optimizeBlock_of_normal rest hss.2]
    rfl

theorem optimizeMethods_of_normal (ms : List Method) (hms : methodsNormal ms) :
    optimizeMethods ms = pure ms := by
  match ms with
  | [] => rfl
  | .mk f body :: rest =>
    rw [optimizeMethods_cons, optimizeMethods_of_normal rest hms.2, optimizeBody_of_normal
      fun hintrinsic => optimizeBlock_of_normal body (hms.1 hintrinsic)]
    rfl

theorem Alternate.optimize_of_normal (a : Alternate) (ha : a.Normal) : a.optimize = pure a := by
  match a with
  | .none => rfl
  | .block [] => exact absurd rfl ha.2
  | .block (s :: rest) =>
    rw [Alternate.optimize, optimizeBlock_of_normal (s :: rest) ha.1]
    rfl
  | .chain test body alternate =>
    obtain ⟨htest, hbody, halternate, htruth⟩ := ha
    rw [Alternate.optimize, test.optimize_of_normal htest, optimizeBlock_of_normal body hbody,
      alternate.optimize_of_normal halternate]
    show chained test body alternate = _
    rw [chained, htruth]

end

/-! ### Programs -/

/-- An optimized program is normal, and optimizing it again gives the same program with nothing to
report: the same statements, bodies of functions and methods and values of fields, everywhere. -/
theorem optimize_optimize (p : Program) :
    p.optimize.value.Normal ∧ p.optimize.value.optimize = pure p.optimize.value := by
  have hnormal : blockNormal p.optimize.value.statements := normal_optimizeBlock p.statements
  refine ⟨hnormal, ?_⟩
  rw [Program.optimize, optimizeBlock_of_normal _ hnormal]
  rfl

end Dragon.Typed
