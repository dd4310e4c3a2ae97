import Dragon.Proofs.Optimize.Formed
import Dragon.Proofs.Script.Naming
import Dragon.Proofs.Script.Operands

/-!
# Operator trees of typed expressions, and what is written for them

The tree of an expression has the operations of the script language for its own, without what makes
an optional of a value, and with quotients of whole numbers truncated. Whatever names are given
already, what is written for an expression has its templates, and if it has none the text is read as
its tree.
-/
namespace Dragon

namespace Script

/-! ### Trees -/

/-- What a name of the library is read as. -/
def libraryTerm (name : String) : Term :=
  match name with
  | "π" => .name "Math.PI"
  | "sin" => .name "Math.sin"
  | "cos" => .name "Math.cos"
  | "exp" => .name "Math.exp"
  | "ln" => .name "Math.log"
  | "sqrt" => .name "Math.sqrt"
  | "hypot" => .name "Math.hypot"
  | "bytes" => .arrow "s" (bytesTerm [.name "s"])
  | name => .name name

/-- A number with its sign in front. -/
def signedTerm (negative : Bool) (magnitude : Term) : Term :=
  if negative then .minus magnitude else magnitude

def floatMagnitude (x : Float) : Term :=
  if x.isInf then .name "Infinity"
  else .number (String.ofList (floatLayout.decimal (Decimal.Binary.ofBits x.toBits).shortest))

/-- A literal of a type. -/
def literalTerm (value : Typed.Value) (type : Ty) : Term :=
  if type.is .bool then .bool value.holds
  else match value with
    | .int n => signedTerm (n < 0) (.number (String.ofList (Decimal.digitsOf n.natAbs)))
    | .float x =>
      if x.isNaN then .name "NaN" else signedTerm (Decimal.isNegative x) (floatMagnitude x)
    | .bool b => .bool b
    | .string s => .string (s.toList.flatMap units)

/-- Quotients of whole numbers are truncated. -/
def binaryTerm (op : BinaryOp) (left right : Term) (type : Ty) : Term :=
  if op == .div && type.is .int then .call false (.name "Math.trunc") [.binary .div left right]
  else .binary op left right

def Names.term (names : Names) (entity : Entity) : Option Term :=
  (names.given.lookup entity).map fun n => .name n.text

mutual

/-- The operations of an expression, with the names that its symbols have. -/
def operatorTree (names : Names) : Typed.Expr → Option Term
  | .var v => if v.intrinsic then some (libraryTerm v.name) else names.term (.symbol v.id)
  | .param p => names.term (.symbol p.id)
  | .func f => if f.intrinsic then some (libraryTerm f.name) else names.term (.symbol f.id)
  | .self _ => some .this
  | .literal value type => some (literalTerm value type)
  | .unary .some operand _ => operatorTree names operand
  | .unary .not operand _ => do
    let t ← operatorTree names operand
    some (.not t)
  | .unary .neg operand _ => do
    let t ← operatorTree names operand
    some (.minus t)
  | .binary op left right type => do
    let l ← operatorTree names left
    let r ← operatorTree names right
    some (binaryTerm op l r type)
  | .ternary test consequent alternate _ => do
    let t ← operatorTree names test
    let c ← operatorTree names consequent
    let a ← operatorTree names alternate
    some (.ternary t c a)
  | .coalesce optional fallback _ => do
    let o ← operatorTree names optional
    let f ← operatorTree names fallback
    some (.coalesce o f)
  | .emptyOptional _ => some .null
  | .list elements _ => do
    let ts ← elementTrees names elements
    some (.array ts)
  | .emptyList _ => some (.array [])
  | .subscript collection index _ => do
    let c ← operatorTree names collection
    let i ← operatorTree names index
    some (.subscript false c i)
  | .member object .plain member _ => do
    let o ← operatorTree names object
    some (.member false o member.name)
  | .member object .optional member _ => do
    let o ← operatorTree names object
    some (.optionalMember o member.name)
  | .call callee args _ => do
    let ts ← argTrees names args
    if isEncoder callee then some (bytesTerm ts)
    else
      let f ← operatorTree names callee
      some (.call false f ts)
  | .construct object args _ => do
    let ts ← argTrees names args
    let n ← names.given.lookup (.symbol object.id)
    some (.construct n.text ts)
  | .template .. | .foreignUnary .. | .foreignBinary .. | .foreignMember .. | .object _ | .field _
  | .misplaced .. => none

def elementTrees (names : Names) : List Typed.Expr → Option (List Term)
  | [] => some []
  | e :: rest => do
    let t ← operatorTree names e
    let ts ← elementTrees names rest
    some (t :: ts)

def argTrees (names : Names) : List Typed.Arg → Option (List Term)
  | [] => some []
  | .mk _ value :: rest => do
    let t ← operatorTree names value
    let ts ← argTrees names rest
    some (t :: ts)

end

/-! ### Writers -/

/-- All names that are given are made of identifiers. -/
def Names.Spelled (names : Names) : Prop :=
  ∀ x n, names.given.lookup x = some n → IsIdentifier n.base.toList

/-- A writer that keeps the names that are given, gives identifiers only, and writes what has a
property whatever names are given later. -/
def Emits (m : Writer α) (P : Names → α → Prop) : Prop :=
  ∀ names : Names, names.Spelled → ∃ a names', m names = .ok (a, names') ∧
    names.KeptIn names' ∧ names'.Spelled ∧ ∀ later, names'.KeptIn later → P later a

theorem lookup_cons_eq (entity x : Entity) (n : Name) (given : List (Entity × Name)) :
    ((entity, n) :: given).lookup x = if x = entity then some n else given.lookup x := by
  by_cases hx : x = entity
  · simp [hx]
  · have hbeq : (x == entity) = false := by simpa using hx
    rw [List.lookup_cons, hbeq, if_neg hx]

namespace Emits

variable {α β : Type} {m : Writer α} {f : α → Writer β} {P : Names → α → Prop}
  {Q : Names → β → Prop}

theorem bind (hm : Emits m P) (hf : ∀ a, Emits (f a) fun names b => P names a → Q names b) :
    Emits (m >>= f) Q := by
  intro names hnames
  obtain ⟨a, names₁, hrun, hkept, hspelled, ha⟩ := hm names hnames
  obtain ⟨b, names₂, hrun', hkept', hspelled', hb⟩ := hf a names₁ hspelled
  refine ⟨b, names₂, (Writer.bind_eq hrun).trans hrun', ?_, hspelled', fun later hlater => ?_⟩
  · exact fun x n hn => hkept' x n (hkept x n hn)
  · exact hb later hlater (ha later fun x n hn => hlater x n (hkept' x n hn))

theorem pure {a : α} (h : ∀ names, P names a) : Emits (pure a) P :=
  fun names hnames => ⟨a, names, rfl, fun _ _ hn => hn, hnames, fun later _ => h later⟩

theorem mono {Q : Names → α → Prop} (hm : Emits m P) (h : ∀ names a, P names a → Q names a) :
    Emits m Q := by
  intro names hnames
  obtain ⟨a, names', hrun, hkept, hspelled, ha⟩ := hm names hnames
  exact ⟨a, names', hrun, hkept, hspelled, fun later hlater => h later a (ha later hlater)⟩

/-- A step of which only that it is made matters. -/
theorem next (hm : Emits m P) (hf : ∀ a, Emits (f a) Q) : Emits (m >>= f) Q :=
  hm.bind fun a => (hf a).mono fun _ _ hb _ => hb

/-- What is written comes from a run of the writer. -/
theorem traced (hm : Emits m P) :
    Emits m fun later a => P later a ∧ ∃ names names', m names = .ok (a, names') := by
  intro names hnames
  obtain ⟨a, names', hrun, hkept, hspelled, ha⟩ := hm names hnames
  exact ⟨a, names', hrun, hkept, hspelled, fun later hlater =>
    ⟨ha later hlater, names, names', hrun⟩⟩

theorem nameOf (entity : Entity) {base : String} (h : IsIdentifier base.toList) :
    Emits (Writer.nameOf entity base) fun names n =>
      names.given.lookup entity = some n ∧ IsIdentifier n.base.toList := by
  intro names hnames
  unfold Writer.nameOf
  split
  next name hname =>
    exact ⟨name, names, rfl, fun _ _ hn => hn, hnames,
      fun later hlater => ⟨hlater _ _ hname, hnames _ _ hname⟩⟩
  next hnone =>
    refine ⟨_, _, rfl, fun x n hn => ?_, fun x n hn => ?_, fun later hlater => ⟨?_, h⟩⟩
    · have hx : x ≠ entity := by
        rintro rfl
        rw [hnone] at hn
        cases hn
      rw [lookup_cons_eq, if_neg hx, hn]
    · rw [lookup_cons_eq] at hn
      split at hn
      · cases hn
        exact h
      · exact hnames x n hn
    · refine hlater _ _ ?_
      rw [lookup_cons_eq, if_pos rfl]

end Emits

/-! ### Operands -/

/-- An optional member, which what follows would run into. -/
def endsChain : Typed.Expr → Bool
  | .member _ .optional _ _ => true
  | _ => false

def isLiteral : Typed.Expr → Bool
  | .literal .. => true
  | _ => false

/-- What is written for an expression is read as its tree: by itself, and as an operand if it needs
no parentheses there. -/
def ReadsAs (names : Names) (e : Typed.Expr) (w : Expr) : Prop :=
  ∃ t, operatorTree names e = some t ∧ Standing w.text t ∧
    (needsGroup e = false → Operand (endsChain e) (!isLiteral e) w.text t)

variable {names : Names} {e : Typed.Expr} {w : Expr} {t : Term}

theorem Operand.weaken {text : String} (h : Operand false true text t) (mayChain dotted : Bool) :
    Operand mayChain dotted text t := by
  obtain ⟨hstarts, ts, htight, hcuts⟩ := h
  refine ⟨hstarts, ts, fun fuel rest hfuel => ?_, hcuts.mono fun rest hrest c hc => ?_⟩
  · obtain ⟨form, fuel', hfree, hchain, hread⟩ := htight fuel rest hfuel
    exact ⟨form, fuel', hfree, fun h => absurd (hchain h) (by simp), hread⟩
  · obtain hmem | ⟨-, hdot⟩ := hrest c hc
    · exact .inl hmem
    · exact .inr ⟨rfl, hdot⟩

theorem ReadsAs.of_operand (h : Operand false true w.text t)
    (htree : operatorTree names e = some t) : ReadsAs names e w :=
  ⟨t, htree, h.standing, fun _ => h.weaken _ _⟩

theorem ReadsAs.of_standing (h : Standing w.text t) (htree : operatorTree names e = some t)
    (hgroup : needsGroup e = true) : ReadsAs names e w :=
  ⟨t, htree, h, fun hno => absurd hgroup (by simp [hno])⟩

/-- With the parentheses that it needs, what is written is an operand. -/
theorem ReadsAs.grouped (h : ReadsAs names e w) :
    ∃ t, operatorTree names e = some t ∧
      Operand (endsChain e) (!isLiteral e) (grouped e w).text t := by
  obtain ⟨t, htree, hstanding, hoperand⟩ := h
  refine ⟨t, htree, ?_⟩
  unfold Script.grouped
  split
  · exact hstanding.group.weaken _ _
  next hgroup => exact hoperand (by simpa using hgroup)

/-- Only what is optional ends in a chain. -/
theorem endsChain_eq_false (he : e.Fits) (htype : e.type.Bare) : endsChain e = false := by
  cases e with
  | member object access member type =>
    cases access with
    | plain => rfl
    | optional =>
      obtain ⟨-, rfl⟩ := he
      have hbare : (Typed.accessType .optional member.type).Bare := htype
      unfold Typed.accessType at hbare
      split at hbare <;> simp_all [Ty.Bare, Ty.layers]
  | _ => rfl

theorem isLiteral_eq_false (he : e.Fits) {ref : ObjectRef} (htype : e.type = .object ref) :
    isLiteral e = false := by
  cases e with
  | literal value type =>
    obtain rfl : type = value.type := he
    cases value <;> cases htype
  | _ => rfl

/-! ### Literals and names of the library -/

theorem operand_NaN : Operand false true "NaN" (.name "NaN") :=
  operand_word (by decide)
    (tight_name (by decide +kernel) (by decide))

theorem operand_Infinity : Operand false true "Infinity" (.name "Infinity") :=
  operand_word (by decide)
    (tight_name (by decide +kernel) (by decide))

/-- A number with its sign, if it has one. -/
theorem readsAs_signed {text : String} {type : Ty} {value : Typed.Value} {negative : Bool}
    (htext : w.text = if negative = true then "-" ++ text else text)
    (hsigned : needsGroup (.literal value type) = negative)
    (htree : literalTerm value type = signedTerm negative t)
    (h : Operand false false text t) : ReadsAs names (.literal value type) w := by
  refine ⟨_, congrArg some htree, ?_⟩
  cases negative with
  | true =>
    rw [htext]
    exact ⟨h.minus, fun hno => absurd hsigned (by simp [hno])⟩
  | false =>
    rw [htext]
    exact ⟨h.standing, fun _ => h⟩

theorem readsAs_int {n : Int} {type : Ty} (hbool : type.is .bool = false) :
    ReadsAs names (.literal (.int n) type) (ofLiteral (.int n) type) := by
  have hw : ofLiteral (.int n) type = .int n := if_neg (by simp [hbool])
  have htext : (ofLiteral (.int n) type).text = if decide (n < 0) = true then
      "-" ++ String.ofList (Decimal.digitsOf n.natAbs)
      else String.ofList (Decimal.digitsOf n.natAbs) := by
    rw [hw]
    show Typed.intText n = _
    simp only [Typed.intText, decide_eq_true_eq]
  have hsigned : needsGroup (.literal (.int n) type) = decide (n < 0) := by
    rw [needsGroup, hw]
    rfl
  refine readsAs_signed htext hsigned (if_neg (by simp [hbool])) (operand_numeral ?_)
  rw [String.toList_ofList]
  exact isNumeral_digitsOf _

theorem readsAs_float {x : Float} {type : Ty} (hbool : type.is .bool = false) :
    ReadsAs names (.literal (.float x) type) (ofLiteral (.float x) type) := by
  have hw : ofLiteral (.float x) type = .float x := if_neg (by simp [hbool])
  have htree : literalTerm (.float x) type = if x.isNaN then .name "NaN"
      else signedTerm (Decimal.isNegative x) (floatMagnitude x) := if_neg (by simp [hbool])
  by_cases hnan : x.isNaN = true
  · rw [if_pos hnan] at htree
    have htext : (ofLiteral (.float x) type).text = "NaN" := by
      rw [hw]
      exact if_pos hnan
    refine .of_operand ?_ (congrArg some htree)
    rw [htext]
    exact operand_NaN
  rw [if_neg hnan] at htree
  have hsigned : needsGroup (.literal (.float x) type) = Decimal.isNegative x := by
    have hnumber : x.isNaN = false := Bool.eq_false_of_not_eq_true hnan
    rw [needsGroup, hw]
    simp only [isSigned, hnumber, Bool.not_false, Bool.true_and]
  have htext : (ofLiteral (.float x) type).text = if Decimal.isNegative x = true then
      "-" ++ (if x.isInf then "Infinity"
        else String.ofList (floatLayout.decimal (Decimal.Binary.ofBits x.toBits).shortest))
      else if x.isInf then "Infinity"
        else String.ofList (floatLayout.decimal (Decimal.Binary.ofBits x.toBits).shortest) := by
    rw [hw]
    exact if_neg hnan
  refine readsAs_signed htext hsigned htree ?_
  unfold floatMagnitude
  split
  · exact operand_Infinity.weaken false false
  · refine operand_numeral ?_
    rw [String.toList_ofList]
    exact isNumeral_shortest x

theorem readsAs_literal (value : Typed.Value) :
    ReadsAs names (.literal value value.type) (ofLiteral value value.type) := by
  cases value with
  | int n => exact readsAs_int rfl
  | float x => exact readsAs_float rfl
  | bool b => exact .of_operand (operand_bool _) rfl
  | string s => exact .of_operand (operand_string s) rfl

/-- The constant and the functions of the library that stand under `Math`. -/
theorem operand_libraryName {name : String} (h : name ∈ "π" :: libraryFunctions)
    (hbytes : name ≠ "bytes") :
    Operand false true (libraryName name).text (libraryTerm name) := by
  simp only [libraryFunctions, List.mem_cons, List.not_mem_nil, or_false] at h
  obtain rfl | rfl | rfl | rfl | rfl | rfl | rfl | rfl := h
  · exact operand_math "PI" (by decide)
  · exact operand_math "sin" (by decide)
  · exact operand_math "cos" (by decide)
  · exact operand_math "exp" (by decide)
  · exact operand_math "log" (by decide)
  · exact operand_math "sqrt" (by decide)
  · exact operand_math "hypot" (by decide)
  · exact absurd rfl hbytes

/-! ### Operations -/

section Operations

attribute [local simp] operatorTree

variable {left right test consequent alternate : Typed.Expr} {l r c a : Expr} {type : Ty}

theorem readsAs_some (h : ReadsAs names e w) : ReadsAs names (.unary .some e type) w := by
  obtain ⟨t, htree, hstanding, -⟩ := h
  exact .of_standing hstanding htree rfl

theorem readsAs_not (h : ReadsAs names e w) :
    ReadsAs names (.unary .not e type) (.not (grouped e w)) := by
  obtain ⟨t, htree, hoperand⟩ := h.grouped
  exact .of_standing hoperand.not (by simp [htree]) rfl

theorem readsAs_minus (h : ReadsAs names e w) :
    ReadsAs names (.unary .neg e type) (.minus (grouped e w)) := by
  obtain ⟨t, htree, hoperand⟩ := h.grouped
  exact .of_standing hoperand.minus (by simp [htree]) rfl

/-- An operation of grouped operands is read as that operation. -/
theorem readsAs_binary (op : BinaryOp) (hl : ReadsAs names left l) (hr : ReadsAs names right r) :
    ReadsAs names (.binary op left right type)
      (ofBinary op (grouped left l) (grouped right r) type) := by
  obtain ⟨t, htree, hoperand⟩ := hl.grouped
  obtain ⟨t', htree', hoperand'⟩ := hr.grouped
  have htree :
      operatorTree names (.binary op left right type) = some (binaryTerm op t t' type) := by
    simp [htree, htree']
  refine .of_standing ?_ htree rfl
  unfold ofBinary binaryTerm
  split
  next hquotient =>
    have htrunc : Operand false true "Math.trunc" (.name "Math.trunc") :=
      operand_math "trunc" (by decide)
    have hquotient := hoperand.operation (.binary .div) hoperand'
    exact (htrunc.call (.cons hquotient .nil)).standing
  next => exact hoperand.operation (.binary op) hoperand'

theorem readsAs_coalesce (hl : ReadsAs names left l) (hr : ReadsAs names right r) :
    ReadsAs names (.coalesce left right type)
      (.binary "??" (grouped left l) (grouped right r)) := by
  obtain ⟨t, htree, hoperand⟩ := hl.grouped
  obtain ⟨t', htree', hoperand'⟩ := hr.grouped
  refine .of_standing (hoperand.operation .coalesce hoperand') ?_ rfl
  simp [htree, htree', Operation.apply]

theorem readsAs_ternary (ht : ReadsAs names test w) (hc : ReadsAs names consequent c)
    (ha : ReadsAs names alternate a) :
    ReadsAs names (.ternary test consequent alternate type)
      (.ternary (grouped test w) (grouped consequent c) (grouped alternate a)) := by
  obtain ⟨t, htree, hoperand⟩ := ht.grouped
  obtain ⟨t', htree', hoperand'⟩ := hc.grouped
  obtain ⟨t'', htree'', hoperand''⟩ := ha.grouped
  refine .of_standing (hoperand.ternary hoperand'.standing hoperand''.standing) ?_ rfl
  simp [htree, htree', htree'']

theorem readsAs_subscript (he : left.Fits) (hbare : left.type.Bare) (hl : ReadsAs names left l)
    (hr : ReadsAs names right r) :
    ReadsAs names (.subscript left right type) (.subscript (grouped left l) r) := by
  obtain ⟨t, htree, hoperand⟩ := hl.grouped
  obtain ⟨t', htree', hstanding, -⟩ := hr
  rw [endsChain_eq_false he hbare] at hoperand
  refine .of_operand (hoperand.subscript hstanding) ?_
  simp [htree, htree']

/-- A member is asked of what is no chain; an optional member begins one. -/
theorem readsAs_member {access : Access} {member : Member}
    (he : (Typed.Expr.member e access member type).FormedHere) (hobject : e.Fits)
    (h : ReadsAs names e w) :
    ReadsAs names (.member e access member type)
      (.member (grouped e w) access.text member.name) := by
  obtain ⟨⟨⟨ref, href⟩, -⟩, hname⟩ := he
  obtain ⟨t, htree, hoperand⟩ := h.grouped
  cases access with
  | plain =>
    have hbare : e.type.Bare := by
      rw [href]
      rfl
    rw [endsChain_eq_false hobject hbare, isLiteral_eq_false hobject href] at hoperand
    refine .of_operand (hoperand.member hname) ?_
    simp [htree]
  | optional =>
    have hchain := hoperand.optionalMember hname
    refine ⟨.optionalMember t member.name, ?_, hchain.standing, fun _ => hchain⟩
    simp [htree]

/-- What is written for the arguments or elements of an expression is read as their trees. -/
def AllReadAs (trees : Option (List Term)) (ws : List Expr) : Prop :=
  ∃ ts, trees = some ts ∧ List.Forall₂ Standing (exprTexts ws) ts

theorem readsAs_list {elements : List Typed.Expr} {ws : List Expr}
    (h : AllReadAs (elementTrees names elements) ws) :
    ReadsAs names (.list elements type) (.list ws) := by
  obtain ⟨ts, htrees, hstanding⟩ := h
  refine .of_operand (operand_list hstanding) ?_
  simp [htrees]

theorem readsAs_encode {args : List Typed.Arg} {ws : List Expr} (hencoder : isEncoder e = true)
    (h : AllReadAs (argTrees names args) ws) :
    ReadsAs names (.call e args type) (.encode ws) := by
  obtain ⟨ts, htrees, hstanding⟩ := h
  refine .of_operand (operand_encode hstanding) ?_
  simp [htrees, hencoder]

theorem readsAs_call {args : List Typed.Arg} {ws : List Expr} (hencoder : isEncoder e = false)
    (he : e.Fits) (hbare : e.type.Bare) (hargs : AllReadAs (argTrees names args) ws)
    (h : ReadsAs names e w) : ReadsAs names (.call e args type) (.call (grouped e w) ws) := by
  obtain ⟨t, htree, hoperand⟩ := h.grouped
  obtain ⟨ts, htrees, hstanding⟩ := hargs
  rw [endsChain_eq_false he hbare] at hoperand
  refine .of_operand (hoperand.call hstanding) ?_
  simp [htrees, htree, hencoder]

theorem readsAs_construct {object : ObjectRef} {args : List Typed.Arg} {ws : List Expr} {n : Name}
    (hlookup : names.given.lookup (.symbol object.id) = some n) (hn : IsIdentifier n.base.toList)
    (h : AllReadAs (argTrees names args) ws) :
    ReadsAs names (.construct object args type) (.construct n ws) := by
  obtain ⟨ts, htrees, hstanding⟩ := h
  refine .of_operand (operand_construct hn hstanding) ?_
  simp [htrees, hlookup]

theorem readsAs_name {entity : Entity} {n : Name} (htree : operatorTree names e = names.term entity)
    (hlookup : names.given.lookup entity = some n) (hn : IsIdentifier n.base.toList) :
    ReadsAs names e (.name n) := by
  refine .of_operand (operand_name hn) ?_
  rw [htree, Names.term, hlookup]
  rfl

end Operations

/-! ### Expressions -/

/-- What is written for an expression has its templates, and if it has none, the text is read as its
tree. -/
structure Rendered (names : Names) (e : Typed.Expr) (w : Expr) : Prop where
  readsAs : e.templates = [] → ReadsAs names e w
  written : Written e w

/-- What is written for the arguments or elements of an expression, by their templates and trees. -/
structure AllRendered (templates : List (List Typed.Part)) (trees : Option (List Term))
    (ws : List Expr) : Prop where
  readAs : templates = [] → AllReadAs trees ws
  inert : exprsInert ws
  matched : Matches templates (exprsTemplates ws)

theorem AllRendered.nil : AllRendered [] (some []) [] := ⟨fun _ => ⟨[], rfl, .nil⟩, trivial, .nil⟩

theorem AllRendered.cons {templates : List (List Typed.Part)} {trees : Option (List Term)}
    {ws : List Expr} (hw : Rendered names e w) (hws : AllRendered templates trees ws) :
    AllRendered (e.templates ++ templates)
      (do let t ← operatorTree names e; let ts ← trees; some (t :: ts)) (w :: ws) := by
  refine ⟨fun hplain => ?_, ⟨hw.written.inert, hws.inert⟩,
    hw.written.templates.append hws.matched⟩
  obtain ⟨hfirst, hothers⟩ := List.append_eq_nil_iff.1 hplain
  obtain ⟨t, htree, hstanding, -⟩ := hw.readsAs hfirst
  obtain ⟨ts, htrees, hrest⟩ := hws.readAs hothers
  refine ⟨t :: ts, ?_, .cons hstanding hrest⟩
  rw [htree, htrees]
  rfl

theorem rendered_name {entity : Entity} {n : Name}
    (htree : operatorTree names e = names.term entity) (hplain : e.templates = [])
    (hn : names.given.lookup entity = some n ∧ IsIdentifier n.base.toList) :
    Rendered names e (.name n) :=
  ⟨fun _ => readsAs_name htree hn.1 hn.2, .name hplain hn.2⟩

theorem written_literal (value : Typed.Value) :
    Written (.literal value value.type) (ofLiteral value value.type) := by
  cases value <;> exact ⟨trivial, .nil⟩

theorem rendered_func {f : Func} (hintrinsic : f.intrinsic = true)
    (hf : f.name ∈ libraryFunctions) : Rendered names (.func f) (libraryName f.name) := by
  have hinert : ∀ name ∈ libraryFunctions, Inert name.toList := by decide
  refine ⟨fun _ => ?_, .libraryName rfl (hinert f.name hf)⟩
  have htree : operatorTree names (.func f) = some (libraryTerm f.name) := if_pos hintrinsic
  by_cases hbytes : f.name = "bytes"
  · rw [hbytes] at htree ⊢
    exact .of_standing standing_encoder htree
      (by simp [needsGroup, isEncoder, hintrinsic, hbytes])
  · exact .of_operand (operand_libraryName (List.mem_cons_of_mem _ hf) hbytes) htree

mutual

/-- Every expression of the form is written, and read as its operator tree. -/
theorem emits_ofExpr (e : Typed.Expr) (he : e.Formed) : Emits (ofExpr e) (Rendered · e) := by
  match e with
  | .var v =>
    have hspelled : (Symbol.var v).Spelled := he.here.2
    unfold ofExpr
    split
    next hintrinsic =>
      rw [Symbol.Spelled, if_pos hintrinsic] at hspelled
      rw [hspelled]
      refine .pure fun names => ⟨fun _ => ?_, .libraryName rfl (by show Inert _; decide)⟩
      refine .of_operand (operand_libraryName (by simp) (by decide)) ?_
      rw [operatorTree, if_pos hintrinsic, hspelled]
    next hown =>
      rw [Symbol.Spelled, if_neg hown] at hspelled
      exact (Emits.nameOf _ hspelled).bind fun n => .pure fun names hn =>
        rendered_name (if_neg hown) rfl hn
  | .param p =>
    exact (Emits.nameOf _ he.here.2).bind fun n => .pure fun names hn => rendered_name rfl rfl hn
  | .func f =>
    have hspelled : (Symbol.func f true).Spelled := he.here.2
    unfold ofExpr
    split
    next hintrinsic =>
      rw [Symbol.Spelled, if_pos hintrinsic] at hspelled
      exact .pure fun names => rendered_func hintrinsic hspelled
    next hown =>
      rw [Symbol.Spelled, if_neg hown] at hspelled
      exact (Emits.nameOf _ hspelled).bind fun n => .pure fun names hn =>
        rendered_name (if_neg hown) rfl hn
  | .self type => exact .pure fun names => ⟨fun _ => .of_operand operand_this rfl, trivial, .nil⟩
  | .literal value type =>
    obtain rfl : type = value.type := he.here.1
    exact .pure fun names => ⟨fun _ => readsAs_literal value, written_literal value⟩
  | .unary .some operand type =>
    exact (emits_ofExpr operand (Typed.Expr.each_unary.1 he).2).mono fun names w h =>
      ⟨fun hplain => readsAs_some (h.readsAs hplain), h.written.inert, h.written.templates⟩
  | .unary .not operand type =>
    refine (emits_ofExpr operand (Typed.Expr.each_unary.1 he).2).bind fun w => ?_
    refine .pure fun names h => ?_
    have hwritten := h.written.grouped
    exact ⟨fun hplain => readsAs_not (h.readsAs hplain), hwritten.inert, hwritten.templates⟩
  | .unary .neg operand type =>
    refine (emits_ofExpr operand (Typed.Expr.each_unary.1 he).2).bind fun w => ?_
    refine .pure fun names h => ?_
    have hwritten := h.written.grouped
    exact ⟨fun hplain => readsAs_minus (h.readsAs hplain), hwritten.inert, hwritten.templates⟩
  | .binary op left right type =>
    obtain ⟨-, hleft, hright⟩ := Typed.Expr.each_binary.1 he
    refine (emits_ofExpr left hleft).bind fun l => (emits_ofExpr right hright).bind fun r => ?_
    refine .pure fun names hr hl => ⟨fun hplain => ?_,
      .binary op hl.written.grouped hr.written.grouped⟩
    obtain ⟨hleft, hright⟩ := List.append_eq_nil_iff.1 hplain
    exact readsAs_binary op (hl.readsAs hleft) (hr.readsAs hright)
  | .ternary test consequent alternate type =>
    obtain ⟨-, htest, hconsequent, halternate⟩ := Typed.Expr.each_ternary.1 he
    refine (emits_ofExpr test htest).bind fun t =>
      (emits_ofExpr consequent hconsequent).bind fun c => ?_
    refine (emits_ofExpr alternate halternate).bind fun a => .pure fun names ha hc ht => ?_
    have ht' := ht.written.grouped
    have hc' := hc.written.grouped
    have ha' := ha.written.grouped
    refine ⟨fun hplain => ?_, ⟨ht'.inert, hc'.inert, ha'.inert⟩,
      (ht'.templates.append hc'.templates).append ha'.templates⟩
    obtain ⟨hplain, halternate⟩ := List.append_eq_nil_iff.1 hplain
    obtain ⟨htest, hconsequent⟩ := List.append_eq_nil_iff.1 hplain
    exact readsAs_ternary (ht.readsAs htest) (hc.readsAs hconsequent) (ha.readsAs halternate)
  | .coalesce optional fallback type =>
    obtain ⟨-, hleft, hright⟩ := Typed.Expr.each_coalesce.1 he
    refine (emits_ofExpr optional hleft).bind fun l => ?_
    refine (emits_ofExpr fallback hright).bind fun r => ?_
    refine .pure fun names hr hl => ?_
    have hl' := hl.written.grouped
    have hr' := hr.written.grouped
    refine ⟨fun hplain => ?_, ⟨by decide, hl'.inert, hr'.inert⟩,
      hl'.templates.append hr'.templates⟩
    obtain ⟨hleft, hright⟩ := List.append_eq_nil_iff.1 hplain
    exact readsAs_coalesce (hl.readsAs hleft) (hr.readsAs hright)
  | .emptyOptional type =>
    exact .pure fun names => ⟨fun _ => .of_operand operand_null rfl, trivial, .nil⟩
  | .list elements type =>
    exact (emits_ofExprs elements he.part).bind fun ws => .pure fun names h =>
      ⟨fun hplain => readsAs_list (h.readAs hplain), h.inert, h.matched⟩
  | .emptyList type =>
    exact .pure fun names => ⟨fun _ => .of_operand (operand_list .nil) rfl, trivial, .nil⟩
  | .subscript collection index type =>
    obtain ⟨hhere, hleft, hright⟩ := (Typed.Expr.each_pair rfl).1 he
    refine (emits_ofExpr collection hleft).bind fun l => ?_
    refine (emits_ofExpr index hright).bind fun r => ?_
    refine .pure fun names hr hl => ?_
    have hl' := hl.written.grouped
    refine ⟨fun hplain => ?_, ⟨hl'.inert, hr.written.inert⟩,
      hl'.templates.append hr.written.templates⟩
    obtain ⟨hnone, hnone'⟩ := List.append_eq_nil_iff.1 hplain
    exact readsAs_subscript hleft.here.1 hhere.1 (hl.readsAs hnone) (hr.readsAs hnone')
  | .member object access member type =>
    obtain ⟨hhere, hobject⟩ := (Typed.Expr.each_one rfl).1 he
    refine (emits_ofExpr object hobject).bind fun w => .pure fun names h => ?_
    have hwritten := h.written.grouped
    refine ⟨fun hplain => readsAs_member hhere hobject.here.1 (h.readsAs hplain),
      ⟨hwritten.inert, ?_, ?_⟩, hwritten.templates⟩
    · cases access <;> decide
    · exact inertName_of_isIdentifier hhere.2
  | .call callee args type =>
    obtain ⟨params, paramNames, htype⟩ := he.here.1
    obtain ⟨hcallee, hargs⟩ := List.forall_mem_cons.1 he.part
    have hbare : callee.type.Bare := by
      rw [htype]
      rfl
    refine (emits_ofArgs args hargs).bind fun ws => ?_
    split
    next hencoder =>
      refine .pure fun names h => ⟨fun hplain => ?_, h.inert, ?_⟩
      · exact readsAs_encode hencoder (h.readAs (List.append_eq_nil_iff.1 hplain).2)
      · show Matches (callee.templates ++ Typed.argTemplates args) (exprsTemplates ws)
        rw [templates_of_isEncoder hencoder]
        exact h.matched
    next hencoder =>
      rw [Bool.not_eq_true] at hencoder
      refine (emits_ofExpr callee hcallee).bind fun w => .pure fun names h hargs => ?_
      have hwritten := h.written.grouped
      refine ⟨fun hplain => ?_, ⟨hwritten.inert, hargs.inert⟩,
        hwritten.templates.append hargs.matched⟩
      obtain ⟨hleft, hright⟩ := List.append_eq_nil_iff.1 hplain
      exact readsAs_call hencoder hcallee.here.1 hbare (hargs.readAs hright) (h.readsAs hleft)
  | .construct object args type =>
    refine (emits_ofArgs args he.part).bind fun ws => (Emits.nameOf _ he.here.2).bind fun n => ?_
    exact .pure fun names ⟨hlookup, hn⟩ h =>
      ⟨fun hplain => readsAs_construct hlookup hn (h.readAs hplain),
        ⟨inertName_of_isIdentifier hn, h.inert⟩, h.matched⟩
  | .template parts type =>
    exact (emits_ofParts parts he.part).bind fun ps => .pure fun names h =>
      ⟨nofun, h.1, .cons h.2.1 h.2.2⟩
  | .foreignUnary .. | .foreignBinary .. | .foreignMember .. | .object _ | .field _
  | .misplaced .. => exact he.here.2.elim

theorem emits_ofExprs (es : List Typed.Expr) (hes : ∀ e ∈ es, e.Formed) :
    Emits (ofExprs es) fun names ws =>
      AllRendered (Typed.elementTemplates es) (elementTrees names es) ws := by
  match es with
  | [] => exact .pure fun names => .nil
  | e :: rest =>
    obtain ⟨he, hrest⟩ := List.forall_mem_cons.1 hes
    exact (emits_ofExpr e he).bind fun w => (emits_ofExprs rest hrest).bind fun ws =>
      .pure fun names hws hw => .cons hw hws

theorem emits_ofArgs (args : List Typed.Arg) (hargs : ∀ e ∈ args.map Typed.Arg.value, e.Formed) :
    Emits (ofArgs args) fun names ws =>
      AllRendered (Typed.argTemplates args) (argTrees names args) ws := by
  match args with
  | [] => exact .pure fun names => .nil
  | .mk _ value :: rest =>
    obtain ⟨hvalue, hrest⟩ := List.forall_mem_cons.1 hargs
    exact (emits_ofExpr value hvalue).bind fun w => (emits_ofArgs rest hrest).bind fun ws =>
      .pure fun names hws hw => .cons hw hws

theorem emits_ofParts (parts : List Typed.Part)
    (hparts : ∀ e ∈ parts.filterMap Typed.Part.value?, e.Formed) :
    Emits (ofParts parts) fun _ ps => partsInert ps ∧ List.Forall₂ Renders parts ps ∧
      Matches (Typed.partTemplates parts) (innerTemplates ps) := by
  match parts with
  | [] => exact .pure fun _ => ⟨trivial, .nil, .nil⟩
  | .text _ :: rest =>
    exact (emits_ofParts rest hparts).bind fun ps => .pure fun _ hps =>
      ⟨hps.1, .cons rfl hps.2.1, hps.2.2⟩
  | .hole e :: rest =>
    obtain ⟨he, hrest⟩ := List.forall_mem_cons.1 hparts
    refine (emits_ofExpr e he).traced.bind fun w => (emits_ofParts rest hrest).bind
      fun ps => .pure fun _ hps ⟨hw, hrun⟩ => ?_
    exact ⟨⟨hw.written.inert, hps.1⟩, .cons hrun hps.2.1, hw.written.templates.append hps.2.2⟩

end

end Script

end Dragon
