import Dragon.Proofs.Optimize.Plain
import Dragon.Proofs.Script.Grouping
import Dragon.Proofs.Tree.Grammar

/-!
# Optionals in scripts

A script has no tags: what makes an optional of a value is not written, and an empty optional is
`null`. An optional that holds an empty one is therefore taken for an empty one, and gets a fallback
that it should not get. This is about expressions without names, made of literals, empty optionals,
`some`, fallbacks and choices. The script of the optimized form always comes to what the expression
means; the script of the expression as it stands does so as long as no fallback in it is misread.
-/
namespace Dragon

/-! ### Results -/

namespace Script

/-- What a script without names can come to. Numbers are whole and not negative. -/
inductive Result where
  | null
  | bool (b : Bool)
  | number (n : Nat)
  | string (units : List Nat)
  deriving DecidableEq, Repr

def Result.truthy : Result → Bool
  | null => false
  | bool b => b
  | number n => n != 0
  | string units => !units.isEmpty

/-- The number that a numeral of digits stands for, if it is in the range where all whole numbers
are doubles. -/
def exactNumber? (text : String) : Option Nat :=
  if text.toList.all Char.isDigit then
    (some (Nat.ofDigitChars 10 text.toList 0)).filter (· ≤ Typed.largestExact)
  else none

/-- The result of a term. A fallback is for `null` and for nothing else. -/
def Term.result? : Term → Option Result
  | .null => some .null
  | .bool b => some (.bool b)
  | .number text => (exactNumber? text).map .number
  | .string units => some (.string units)
  | .coalesce optional fallback => do
    let r ← optional.result?
    if r = .null then fallback.result? else some r
  | .ternary test consequent alternate => do
    let r ← test.result?
    if r.truthy then consequent.result? else alternate.result?
  | _ => none

/-- The result of the text that is written for an expression. -/
def resultOf (names : Names) (e : Typed.Expr) : Option Result :=
  match ofExpr e names with
  | .ok (w, _) => (Term.read w.text).bind Term.result?
  | .error _ => none

end Script

/-- The result that stands for a datum in a script. Tags are not written. -/
def Meaning.Datum.result? : Datum → Option Script.Result
  | .int (.ofNat n) => if n ≤ Typed.largestExact then some (.number n) else none
  | .bool b => some (.bool b)
  | .string s => some (.string (s.toList.flatMap Script.units))
  | .absent => some .null
  | .present d => d.result?
  | _ => none

/-! ### Closed expressions -/

/-- Literals of whole numbers, truth values and strings, empty optionals, and what is made of them
by `some`, fallbacks and choices. -/
def Tree.Expr.isClosed : Tree.Expr → Bool
  | .integer .. | .boolean .. | .string .. | .naught .. => true
  | .unary .some operand _ => operand.isClosed
  | .coalesce optional fallback _ => optional.isClosed && fallback.isClosed
  | .ternary test consequent alternate _ =>
    test.isClosed && consequent.isClosed && alternate.isClosed
  | _ => false

/-- What closed expressions are checked to be. -/
inductive Typed.Expr.Closed : Expr → Prop where
  | int {n : Nat} (h : n ≤ largestExact) : Closed (.literal (.int n) .int)
  | bool (b : Bool) : Closed (.literal (.bool b) .bool)
  | string (s : String) : Closed (.literal (.string s) .string)
  | empty (base : Ty) : Closed (.emptyOptional (.optional base))
  | some {e : Expr} (he : e.Closed) : Closed (.unary .some e (.optional e.type))
  | coalesce {o f : Expr} {t : Ty} (ho : o.Closed) (hf : f.Closed)
      (hoptional : o.type = .optional t) (hfallback : f.type.assignable t = true) :
      Closed (.coalesce o f t)
  | ternary {test c a : Expr} (htest : test.Closed) (hc : c.Closed) (ha : a.Closed)
      (hbool : test.type = .bool) (hsame : c.type.equivalent a.type = true) :
      Closed (.ternary test c a c.type)

namespace Typed.Expr.Closed

variable {e : Expr}

theorem isEmptyList_eq_false (he : e.Closed) : e.isEmptyList = false := by
  cases he <;> rfl

theorem templates_eq_nil (he : e.Closed) : e.templates = [] := by
  induction he with
  | int | bool | string | empty => rfl
  | some _ ih => exact ih
  | coalesce _ _ _ _ ho hf => rw [templates, ho, hf, List.append_nil]
  | ternary _ _ _ _ _ htest hc ha => rw [templates, htest, hc, ha, List.append_nil, List.append_nil]

theorem formed (he : e.Closed) : e.Formed := by
  induction he with
  | int | bool | string | empty => exact (each_leaf rfl).2 ⟨by trivial, trivial⟩
  | some _ ih => exact each_unary.2 ⟨⟨⟨_, rfl, Ty.assignable_refl _⟩, trivial⟩, ih⟩
  | coalesce _ _ hoptional hfallback ho hf =>
    exact each_coalesce.2 ⟨⟨⟨hoptional ▸ Ty.assignable_refl _, hfallback⟩, trivial⟩, ho, hf⟩
  | ternary _ _ _ _ hsame htest hc ha =>
    exact each_ternary.2 ⟨⟨⟨Ty.assignable_refl _,
      Ty.assignable_of_equivalent (Ty.equivalent_symm _ _ hsame)⟩, trivial⟩, htest, hc, ha⟩

end Typed.Expr.Closed

namespace Check

variable {s : State}

theorem coerce_ensures {e : Typed.Expr} {target : Ty} (span : Span)
    (he : e.isEmptyList = false) :
    Ensures (coerce e target span) s fun v _ => v = e ∧ e.type.assignable target = true := by
  unfold coerce
  rw [he, Bool.false_and, if_neg Bool.false_ne_true]
  exact .bind (.require fun hassignable => .pure ⟨rfl, hassignable⟩)

theorem unify_eq {c a : Typed.Expr} (hc : c.isEmptyList = false) (ha : a.isEmptyList = false) :
    unify c a = (c, a) := by
  simp [unify, hc, ha]

theorem integer_closed (text : String) (span : Span) :
    Ensures (integer text span) s fun t _ => t.Closed := by
  unfold integer
  split
  next => exact nofun
  next n _ => exact .bind (.require fun hn => .pure (.int (by simpa using hn)))

/-- A closed expression that is accepted is closed when it is checked. -/
theorem expr_closed (e : Tree.Expr) (he : e.isClosed = true) (s : State) :
    Ensures (expr e) s fun t _ => t.Closed := by
  match e with
  | .integer text span => exact integer_closed text span
  | .boolean b _ => exact .pure (.bool b)
  | .string value _ => exact .pure (.string value)
  | .naught type _ => exact .bind fun base _ _ => .pure (.empty base)
  | .unary .some operand _ =>
    refine .bind ((expr_closed operand he s).mono fun o s₁ ho => ?_)
    refine (asValue_yields o _).ensures ?_
    rintro _ ⟨rfl, -⟩
    exact .pure (.some ho)
  | .coalesce optional fallback span =>
    obtain ⟨hoptional, hfallback⟩ := Bool.and_eq_true_iff.1 he
    refine .bind ((expr_closed optional hoptional s).mono fun o s₁ ho => ?_)
    split
    next => exact .fail _ _
    next base hbase =>
      refine .bind ((expr_closed fallback hfallback s₁).mono fun f s₂ hf => ?_)
      refine (asValue_yields f _).ensures ?_
      rintro _ ⟨rfl, -⟩
      refine .bind ((coerce_ensures _ hf.isEmptyList_eq_false).mono ?_)
      rintro _ _ ⟨rfl, hassignable⟩
      exact .pure (.coalesce ho hf (Ty.eq_optional hbase) hassignable)
  | .ternary test consequent alternate span =>
    simp only [Tree.Expr.isClosed, Bool.and_eq_true] at he
    obtain ⟨⟨htest, hconsequent⟩, halternate⟩ := he
    refine .bind ((expr_closed test htest s).mono fun t s₁ ht => ?_)
    refine .bind (.require fun hbool => ?_)
    refine .bind ((expr_closed consequent hconsequent s₁).mono fun c s₂ hc => ?_)
    refine (asValue_yields c _).ensures ?_
    rintro _ ⟨rfl, -⟩
    refine .bind ((expr_closed alternate halternate s₂).mono fun a s₃ ha => ?_)
    refine (asValue_yields a _).ensures ?_
    rintro _ ⟨rfl, -⟩
    rw [unify_eq hc.isEmptyList_eq_false ha.isEmptyList_eq_false]
    refine .bind (.require fun hsame => ?_)
    exact .pure (.ternary ht hc ha (Ty.is_eq_true.1 hbool) hsame)

end Check

/-! ### Meanings -/

namespace Meaning

open Typed (Expr)

/-- An expression that means a datum, without a call. -/
def Means (w : World) (store : Store) (calls : List Call) (e : Expr) (d : Datum) : Prop :=
  eval w store e calls = .ok (d, calls)

/-- A datum of a type, as far as closed expressions have data of it. -/
def Datum.Fits : Datum → Ty → Prop
  | _, .any => True
  | .int _, .int | .bool _, .bool | .string _, .string | .absent, .optional _ => True
  | .present d, .optional base => d.Fits base
  | _, _ => False

/-- A datum written out, with a tag wherever it has one. -/
inductive Denotes : Expr → Datum → Prop where
  | int {n : Nat} (h : n ≤ Typed.largestExact) : Denotes (.literal (.int n) .int) (.int n)
  | bool (b : Bool) : Denotes (.literal (.bool b) .bool) (.bool b)
  | string (s : String) : Denotes (.literal (.string s) .string) (.string s)
  | absent (t : Ty) : Denotes (.emptyOptional t) .absent
  | present {e : Expr} {d : Datum} (h : Denotes e d) (t : Ty) :
      Denotes (.unary .some e t) (.present d)

/-- An expression means a datum of its type, and is optimized to that datum written out. -/
structure Settles (w : World) (store : Store) (calls : List Call) (e : Expr) (d : Datum) :
    Prop where
  means : Means w store calls e d
  fits : d.Fits e.type
  denotes : Denotes e.optimize.value d

variable {w : World} {store : Store} {calls : List Call} {e o f test c a : Expr} {d d' : Datum}
  {s t : Ty}

/-! ### Data of a type -/

theorem Datum.fits_any (d : Datum) : d.Fits .any := by
  cases d <;> trivial

theorem Datum.fits_congr (d : Datum) (s t : Ty) (h : s.equivalent t = true) :
    d.Fits s ↔ d.Fits t := by
  match s, t with
  | .prim p, .prim q =>
    obtain rfl : p = q := by simpa [Ty.equivalent] using h
    rfl
  | .optional s, .optional t =>
    cases d with
    | present d => exact d.fits_congr s t h
    | _ => rfl
  | .list _, .list _ | .function .., .function .. | .object _, .object _ => cases d <;> rfl

theorem Datum.Fits.of_assignable (hd : d.Fits s) (h : s.assignable t = true) : d.Fits t := by
  cases s with
  | function ps r names => cases d <;> cases hd
  | _ =>
    unfold Ty.assignable at h
    obtain hany | hequivalent := Bool.or_eq_true_iff.1 h
    · exact Ty.is_eq_true.1 hany ▸ d.fits_any
    · exact (d.fits_congr _ _ hequivalent).1 hd

theorem Datum.Fits.exists_bool (h : d.Fits .bool) : ∃ b, d = .bool b := by
  cases d with
  | bool b => exact ⟨b, rfl⟩
  | _ => cases h

theorem Datum.Fits.cases_optional (h : d.Fits (.optional t)) :
    d = .absent ∨ ∃ content, d = .present content ∧ content.Fits t := by
  cases d with
  | absent => exact .inl rfl
  | present content => exact .inr ⟨content, rfl, h⟩
  | _ => cases h

theorem Datum.optional_of_result? (h : d.result? = some .null) :
    d = .absent ∨ ∃ content, d = .present content := by
  cases d with
  | absent => exact .inl rfl
  | present content => exact .inr ⟨content, rfl⟩
  | int n =>
    unfold result? at h
    split at h <;> simp_all
  | _ => cases h

/-- What reads as an empty optional is of an optional type, or of the type of anything. -/
theorem Datum.Fits.of_null (h : d.Fits t) (hnull : d.result? = some .null) :
    t = .any ∨ ∃ base, t = .optional base := by
  cases t with
  | optional base => exact .inr ⟨base, rfl⟩
  | prim p =>
    cases p with
    | any => exact .inl rfl
    | _ => obtain rfl | ⟨content, rfl⟩ := optional_of_result? hnull <;> cases h
  | _ => obtain rfl | ⟨content, rfl⟩ := optional_of_result? hnull <;> cases h

/-! ### Data written out -/

theorem Denotes.orElse_absent (h : Denotes e .absent) (f : Expr) (t : Ty) : e.orElse f t = f := by
  cases h
  rfl

theorem Denotes.orElse_present (h : Denotes e (.present d)) (f : Expr) (t : Ty) :
    Denotes (e.orElse f t) d := by
  cases h with
  | present h => exact h

theorem Denotes.choose {b : Bool} (h : Denotes e (.bool b)) (c a : Expr) (t : Ty) :
    e.choose c a t = if b then c else a := by
  cases h
  cases b <;> rfl

/-! ### What closed expressions mean -/

theorem Means.unique (h : Means w store calls e d) (h' : Means w store calls e d') : d = d' := by
  have hpair := h.symm.trans h'
  cases hpair
  rfl

theorem Means.some (h : Means w store calls e d) (t : Ty) :
    Means w store calls (.unary .some e t) (.present d) :=
  bind_eq_ok.2 ⟨d, calls, h, rfl⟩

theorem Means.fallback (ho : Means w store calls o .absent) (hf : Means w store calls f d)
    (t : Ty) : Means w store calls (.coalesce o f t) d :=
  bind_eq_ok.2 ⟨.absent, calls, ho, hf⟩

theorem Means.content (ho : Means w store calls o (.present d)) (f : Expr) (t : Ty) :
    Means w store calls (.coalesce o f t) d :=
  bind_eq_ok.2 ⟨.present d, calls, ho, rfl⟩

theorem Means.choice {b : Bool} (htest : Means w store calls test (.bool b))
    (h : Means w store calls (if b then c else a) d) (t : Ty) :
    Means w store calls (.ternary test c a t) d := by
  refine bind_eq_ok.2 ⟨b, calls, test_eq_ok.2 htest, ?_⟩
  cases b <;> exact h

/-- Every closed expression means something, and is optimized to what it means. -/
theorem exists_settles (w : World) (store : Store) (calls : List Call) (he : e.Closed) :
    ∃ d, Settles w store calls e d := by
  -- Operands are optimized to data written out, so a fold always finds the form it looks for.
  induction he with
  | int h => exact ⟨_, rfl, trivial, .int h⟩
  | bool b => exact ⟨_, rfl, trivial, .bool b⟩
  | string s => exact ⟨_, rfl, trivial, .string s⟩
  | empty base => exact ⟨_, rfl, trivial, .absent _⟩
  | some _ ih =>
    obtain ⟨d, hd⟩ := ih
    exact ⟨.present d, hd.means.some _, hd.fits, .present hd.denotes _⟩
  | @coalesce o f t _ _ hoptional hfallback iho ihf =>
    obtain ⟨d, hd⟩ := iho
    obtain ⟨d', hd'⟩ := ihf
    obtain rfl | ⟨content, rfl, hcontent⟩ := (hoptional ▸ hd.fits).cases_optional
    · refine ⟨d', hd.means.fallback hd'.means t, hd'.fits.of_assignable hfallback, ?_⟩
      simpa [Expr.optimize, hd.denotes.orElse_absent] using hd'.denotes
    · refine ⟨content, hd.means.content f t, hcontent, ?_⟩
      simpa [Expr.optimize] using hd.denotes.orElse_present _ t
  | @ternary test c a _ _ _ hbool hsame ihtest ihc iha =>
    obtain ⟨d, hd⟩ := ihtest
    obtain ⟨d₁, hd₁⟩ := ihc
    obtain ⟨d₂, hd₂⟩ := iha
    obtain ⟨b, rfl⟩ := (hbool ▸ hd.fits).exists_bool
    cases b with
    | true =>
      refine ⟨d₁, hd.means.choice hd₁.means _, hd₁.fits, ?_⟩
      simpa [Expr.optimize, hd.denotes.choose] using hd₁.denotes
    | false =>
      refine ⟨d₂, hd.means.choice hd₂.means _, (d₂.fits_congr _ _ hsame).2 hd₂.fits, ?_⟩
      simpa [Expr.optimize, hd.denotes.choose] using hd₂.denotes

end Meaning

/-! ### Results of what is written -/

namespace Script

open Meaning (World Store Call Datum Means Denotes Settles)

variable {names : Names} {e o f test c a : Typed.Expr} {d : Datum} {ty : Ty}

theorem exactNumber?_digitsOf {n : Nat} (h : n ≤ Typed.largestExact) :
    exactNumber? (String.ofList (Decimal.digitsOf n)) = some n := by
  have hdigits : (Decimal.digitsOf n).all Char.isDigit = true :=
    List.all_eq_true.2 (Decimal.isDigit_digitsOf n)
  have hvalue : Nat.ofDigitChars 10 (Decimal.digitsOf n) 0 = n :=
    Nat.ofDigitChars_ten_toDigits
  simp [exactNumber?, String.toList_ofList, hdigits, hvalue, h]

theorem resultOf_eq {t : Term} (he : e.Formed) (hplain : e.templates = [])
    (htree : ∀ names, operatorTree names e = some t) (hnames : names.Spelled) :
    resultOf names e = t.result? := by
  obtain ⟨w, names', hwrite, -, -, hreads⟩ := emits_ofExpr e he names hnames
  obtain ⟨t', htree', hstanding, -⟩ := (hreads names' fun _ _ hn => hn).readsAs hplain
  obtain rfl : t = t' := Option.some.inj ((htree names').symm.trans htree')
  simp [resultOf, hwrite, hstanding.read]

/-- The tree of a closed expression does not depend on names. -/
theorem exists_operatorTree (he : e.Closed) : ∃ t, ∀ names, operatorTree names e = some t := by
  induction he with
  | int | bool | string | empty => exact ⟨_, fun _ => rfl⟩
  | some _ ih => exact ih
  | coalesce _ _ _ _ iho ihf =>
    obtain ⟨t₁, ho⟩ := iho
    obtain ⟨t₂, hf⟩ := ihf
    exact ⟨.coalesce t₁ t₂, fun names => by simp [operatorTree, ho, hf]⟩
  | ternary _ _ _ _ _ ihtest ihc iha =>
    obtain ⟨t₁, htest⟩ := ihtest
    obtain ⟨t₂, hc⟩ := ihc
    obtain ⟨t₃, ha⟩ := iha
    exact ⟨.ternary t₁ t₂ t₃, fun names => by simp [operatorTree, htest, hc, ha]⟩

theorem resultOf_some (he : e.Closed) (hnames : names.Spelled) :
    resultOf names (.unary .some e (.optional e.type)) = resultOf names e := by
  obtain ⟨t, htree⟩ := exists_operatorTree he
  have hsome := he.some
  rw [resultOf_eq he.formed he.templates_eq_nil htree hnames,
    resultOf_eq hsome.formed hsome.templates_eq_nil htree hnames]

/-- In a script only `null` asks for the fallback. -/
theorem resultOf_coalesce (h : (Typed.Expr.coalesce o f ty).Closed) (hnames : names.Spelled) :
    resultOf names (.coalesce o f ty) =
      (resultOf names o).bind fun r => if r = .null then resultOf names f else some r := by
  have hformed := h.formed
  have hplain := h.templates_eq_nil
  cases h with
  | coalesce ho hf _ _ =>
    obtain ⟨t₁, ho₁⟩ := exists_operatorTree ho
    obtain ⟨t₂, hf₁⟩ := exists_operatorTree hf
    have htree (names) : operatorTree names (.coalesce o f ty) = some (.coalesce t₁ t₂) := by
      simp [operatorTree, ho₁, hf₁]
    rw [resultOf_eq hformed hplain htree hnames,
      resultOf_eq ho.formed ho.templates_eq_nil ho₁ hnames,
      resultOf_eq hf.formed hf.templates_eq_nil hf₁ hnames]
    rfl

theorem resultOf_ternary (h : (Typed.Expr.ternary test c a ty).Closed) (hnames : names.Spelled) :
    resultOf names (.ternary test c a ty) =
      (resultOf names test).bind fun r =>
        if r.truthy then resultOf names c else resultOf names a := by
  have hformed := h.formed
  have hplain := h.templates_eq_nil
  cases h with
  | ternary htest hc ha _ _ =>
    obtain ⟨t₁, ht₁⟩ := exists_operatorTree htest
    obtain ⟨t₂, hc₁⟩ := exists_operatorTree hc
    obtain ⟨t₃, ha₁⟩ := exists_operatorTree ha
    have htree (names) :
        operatorTree names (.ternary test c a c.type) = some (.ternary t₁ t₂ t₃) := by
      simp [operatorTree, ht₁, hc₁, ha₁]
    rw [resultOf_eq hformed hplain htree hnames,
      resultOf_eq htest.formed htest.templates_eq_nil ht₁ hnames,
      resultOf_eq hc.formed hc.templates_eq_nil hc₁ hnames,
      resultOf_eq ha.formed ha.templates_eq_nil ha₁ hnames]
    rfl

/-! ### Data written out -/

theorem templates_of_denotes (h : Denotes e d) : e.templates = [] := by
  induction h with
  | present _ _ ih => exact ih
  | _ => rfl

theorem exists_result_of_denotes (h : Denotes e d) : ∃ r, d.result? = some r := by
  induction h with
  | int h => exact ⟨_, if_pos h⟩
  | present _ _ ih => exact ih
  | _ => exact ⟨_, rfl⟩

theorem operatorTree_of_denotes (h : Denotes e d) :
    ∃ t, (∀ names, operatorTree names e = some t) ∧ t.result? = d.result? := by
  induction h with
  | @int n h =>
    refine ⟨.number (String.ofList (Decimal.digitsOf n)), fun _ => rfl, ?_⟩
    have hresult : (Datum.int n).result? = some (.number n) := if_pos h
    rw [Term.result?, exactNumber?_digitsOf h, hresult]
    rfl
  | bool b => cases b <;> exact ⟨_, fun _ => rfl, rfl⟩
  | present _ _ ih => exact ih
  | _ => exact ⟨_, fun _ => rfl, rfl⟩

theorem resultOf_of_denotes (he : e.Formed) (h : Denotes e d) (hnames : names.Spelled) :
    resultOf names e = d.result? := by
  obtain ⟨t, htree, hresult⟩ := operatorTree_of_denotes h
  rw [resultOf_eq he (templates_of_denotes h) htree hnames, hresult]

/-! ### Misread fallbacks -/

/-- A fallback that a script takes and the program does not: what the optional holds reads as an
empty optional, and what stands in for it does not. -/
inductive Misread (w : World) (store : Store) (calls : List Call) : Typed.Expr → Prop where
  | intro {o f : Typed.Expr} {content d : Datum} {type : Ty}
      (ho : Means w store calls o (.present content)) (hcontent : content.result? = some .null)
      (hf : Means w store calls f d) (hd : d.result? ≠ some .null) :
      Misread w store calls (.coalesce o f type)

/-- The scripts of an expression and of its optimized form come to the same. -/
def Agrees (names : Names) (e : Typed.Expr) : Prop :=
  resultOf names e = resultOf names e.optimize.value

variable {w : World} {store : Store} {calls : List Call}

theorem resultOf_optimize (he : e.Closed) (hd : Settles w store calls e d)
    (hnames : names.Spelled) : resultOf names e.optimize.value = d.result? :=
  resultOf_of_denotes (e.formed_optimize he.formed) hd.denotes hnames

theorem agrees_iff (he : e.Closed) (hd : Settles w store calls e d) (hnames : names.Spelled) :
    Agrees names e ↔ resultOf names e = d.result? := by
  rw [Agrees, resultOf_optimize he hd hnames]

/-- The datum that an expression settles on is the one it means. -/
theorem settles_of_means (he : e.Closed) (hd : Means w store calls e d) :
    Settles w store calls e d := by
  obtain ⟨d', hd'⟩ := Meaning.exists_settles w store calls he
  exact hd.unique hd'.means ▸ hd'

theorem agrees_some (he : e.Closed) (hd : Settles w store calls e d) (hnames : names.Spelled)
    (h : Agrees names e) : Agrees names (.unary .some e (.optional e.type)) := by
  have hsome := settles_of_means he.some (hd.means.some (.optional e.type))
  have hresult := (agrees_iff he hd hnames).1 h
  exact (agrees_iff he.some hsome hnames).2 ((resultOf_some he hnames).trans hresult)

theorem agrees_ternary {d₁ d₂ : Datum} (h : (Typed.Expr.ternary test c a ty).Closed)
    (hd : Settles w store calls test d) (hd₁ : Settles w store calls c d₁)
    (hd₂ : Settles w store calls a d₂) (hnames : names.Spelled) (htest : Agrees names test)
    (hc : Agrees names c) (ha : Agrees names a) : Agrees names (.ternary test c a ty) := by
  have hresult := resultOf_ternary h hnames
  have hclosed := h
  cases h with
  | ternary htest' hc' ha' hbool hsame =>
    obtain ⟨b, rfl⟩ := (hbool ▸ hd.fits).exists_bool
    have htruth : resultOf names test = some (.bool b) := (agrees_iff htest' hd hnames).1 htest
    rw [htruth, Option.bind_some] at hresult
    cases b with
    | true =>
      have hmeans : Means w store calls (.ternary test c a c.type) d₁ :=
        hd.means.choice hd₁.means _
      rw [agrees_iff hclosed (settles_of_means hclosed hmeans) hnames, hresult]
      exact (agrees_iff hc' hd₁ hnames).1 hc
    | false =>
      have hmeans : Means w store calls (.ternary test c a c.type) d₂ :=
        hd.means.choice hd₂.means _
      rw [agrees_iff hclosed (settles_of_means hclosed hmeans) hnames, hresult]
      exact (agrees_iff ha' hd₂ hnames).1 ha

variable (w store calls)

theorem agrees_coalesce_iff (h : (Typed.Expr.coalesce o f ty).Closed) (hnames : names.Spelled)
    (ho : Agrees names o) (hf : Agrees names f) :
    Agrees names (.coalesce o f ty) ↔ ¬ Misread w store calls (.coalesce o f ty) := by
  have hresult := resultOf_coalesce h hnames
  have hclosed := h
  cases h with
  | coalesce ho' hf' hoptional hfallback =>
    obtain ⟨d, hd⟩ := Meaning.exists_settles w store calls ho'
    obtain ⟨d', hd'⟩ := Meaning.exists_settles w store calls hf'
    have hoptional' := (agrees_iff ho' hd hnames).1 ho
    have hfallback' := (agrees_iff hf' hd' hnames).1 hf
    rw [hoptional', hfallback'] at hresult
    obtain rfl | ⟨content, rfl, -⟩ := (hoptional ▸ hd.fits).cases_optional
    · have hmeans := hd.means.fallback hd'.means ty
      rw [agrees_iff hclosed (settles_of_means hclosed hmeans) hnames, hresult]
      have hsound : ¬ Misread w store calls (.coalesce o f ty) := by
        rintro ⟨hpresent, -, -, -⟩
        cases hd.means.unique hpresent
      exact iff_of_true rfl hsound
    · have hmeans := hd.means.content f ty
      obtain ⟨r, hheld⟩ := exists_result_of_denotes hd.denotes
      have hr : content.result? = some r := hheld
      rw [agrees_iff hclosed (settles_of_means hclosed hmeans) hnames, hresult, hheld,
        Option.bind_some, hr]
      by_cases hnull : r = .null
      · -- Both the script and the misreading depend on the fallback alone.
        subst hnull
        rw [if_pos rfl]
        constructor
        · rintro heq ⟨hpresent, -, hmeans', hne⟩
          exact hne (hd'.means.unique hmeans' ▸ heq)
        · intro hsound
          by_contra hne
          exact hsound ⟨hd.means, hr, hd'.means, hne⟩
      · rw [if_neg hnull]
        refine iff_of_true rfl ?_
        rintro ⟨hpresent, hcontent, -, -⟩
        cases hd.means.unique hpresent
        exact hnull (Option.some.inj (hr.symm.trans hcontent))

/-! ### Expressions in expressions -/

theorem mem_inside_self (he : e.Closed) : e ∈ e.inside := by
  cases he <;> exact List.mem_cons_self

/-- What stands in a closed expression is closed. -/
theorem closed_inside (he : e.Closed) : ∀ u ∈ e.inside, u.Closed := by
  induction he with
  | int h => exact List.forall_mem_singleton.2 (.int h)
  | bool b => exact List.forall_mem_singleton.2 (.bool b)
  | string s => exact List.forall_mem_singleton.2 (.string s)
  | empty base => exact List.forall_mem_singleton.2 (.empty base)
  | some he ih => exact List.forall_mem_cons.2 ⟨he.some, ih⟩
  | coalesce ho hf hoptional hfallback iho ihf =>
    exact List.forall_mem_cons.2
      ⟨.coalesce ho hf hoptional hfallback, List.forall_mem_append.2 ⟨iho, ihf⟩⟩
  | ternary htest hc ha hbool hsame ihtest ihc iha =>
    exact List.forall_mem_cons.2 ⟨.ternary htest hc ha hbool hsame,
      List.forall_mem_append.2 ⟨List.forall_mem_append.2 ⟨ihtest, ihc⟩, iha⟩⟩

/-- All results in an expression survive optimization exactly if no fallback in it is misread. -/
theorem agrees_inside_iff (he : e.Closed) (hnames : names.Spelled) :
    (∀ u ∈ e.inside, Agrees names u) ↔ ∀ u ∈ e.inside, ¬ Misread w store calls u := by
  induction he with
  | int | bool | string | empty =>
    refine iff_of_true (List.forall_mem_singleton.2 rfl) (List.forall_mem_singleton.2 ?_)
    intro h
    cases h
  | @some e he ih =>
    rw [Typed.Expr.inside, List.forall_mem_cons, List.forall_mem_cons, ← ih]
    constructor
    · rintro ⟨-, hinside⟩
      refine ⟨?_, hinside⟩
      intro h
      cases h
    · rintro ⟨-, hinside⟩
      obtain ⟨d, hd⟩ := Meaning.exists_settles w store calls he
      exact ⟨agrees_some he hd hnames (hinside e (mem_inside_self he)), hinside⟩
  | @coalesce o f t ho hf hoptional hfallback iho ihf =>
    rw [Typed.Expr.inside, List.forall_mem_cons, List.forall_mem_cons, List.forall_mem_append,
      List.forall_mem_append, ← iho, ← ihf]
    apply and_congr_left
    rintro ⟨hinside, hinside'⟩
    exact agrees_coalesce_iff w store calls (.coalesce ho hf hoptional hfallback) hnames
      (hinside o (mem_inside_self ho)) (hinside' f (mem_inside_self hf))
  | @ternary test c a htest hc ha hbool hsame ihtest ihc iha =>
    rw [Typed.Expr.inside, List.forall_mem_cons, List.forall_mem_cons, List.forall_mem_append,
      List.forall_mem_append, List.forall_mem_append, List.forall_mem_append, ← ihtest, ← ihc,
      ← iha]
    apply and_congr_left
    rintro ⟨⟨hinside, hinside'⟩, hinside''⟩
    have hread : ¬ Misread w store calls (.ternary test c a c.type) := by
      intro h
      cases h
    refine iff_of_true ?_ hread
    obtain ⟨d, hd⟩ := Meaning.exists_settles w store calls htest
    obtain ⟨d₁, hd₁⟩ := Meaning.exists_settles w store calls hc
    obtain ⟨d₂, hd₂⟩ := Meaning.exists_settles w store calls ha
    exact agrees_ternary (.ternary htest hc ha hbool hsame) hd hd₁ hd₂ hnames
      (hinside test (mem_inside_self htest)) (hinside' c (mem_inside_self hc))
      (hinside'' a (mem_inside_self ha))

theorem exists_resultOf_of_denotes (he : e.Closed) (h : Denotes e d) (hnames : names.Spelled) :
    ∃ r, resultOf names e = some r := by
  obtain ⟨r, hr⟩ := exists_result_of_denotes h
  exact ⟨r, (resultOf_of_denotes he.formed h hnames).trans hr⟩

/-- The script of a closed expression has a result. -/
theorem exists_resultOf (he : e.Closed) (hnames : names.Spelled) :
    ∃ r, resultOf names e = some r := by
  induction he with
  | int h => exact exists_resultOf_of_denotes (.int h) (.int h) hnames
  | bool b => exact exists_resultOf_of_denotes (.bool b) (.bool b) hnames
  | string s => exact exists_resultOf_of_denotes (.string s) (.string s) hnames
  | empty base => exact exists_resultOf_of_denotes (.empty base) (.absent _) hnames
  | some he ih =>
    obtain ⟨r, hr⟩ := ih
    exact ⟨r, (resultOf_some he hnames).trans hr⟩
  | @coalesce o f t ho hf hoptional hfallback iho ihf =>
    obtain ⟨r, hr⟩ := iho
    obtain ⟨r', hr'⟩ := ihf
    have hresult := resultOf_coalesce (.coalesce ho hf hoptional hfallback) hnames
    rw [hr, hr', Option.bind_some] at hresult
    by_cases hnull : r = .null
    · exact ⟨r', hresult.trans (if_pos hnull)⟩
    · exact ⟨r, hresult.trans (if_neg hnull)⟩
  | @ternary test c a htest hc ha hbool hsame ihtest ihc iha =>
    obtain ⟨r, hr⟩ := ihtest
    obtain ⟨r₁, hr₁⟩ := ihc
    obtain ⟨r₂, hr₂⟩ := iha
    have hresult := resultOf_ternary (.ternary htest hc ha hbool hsame) hnames
    rw [hr, hr₁, hr₂, Option.bind_some] at hresult
    by_cases htruthy : r.truthy = true
    · exact ⟨r₁, hresult.trans (if_pos htruthy)⟩
    · exact ⟨r₂, hresult.trans (if_neg htruthy)⟩

/-- A fallback is misread only where it is optional itself, or anything. -/
theorem Misread.type_eq {u : Typed.Expr} (h : Misread w store calls u) (hu : u.Closed) :
    u.type = .any ∨ ∃ base, u.type = .optional base := by
  obtain ⟨ho, hnull, hf, hd⟩ := h
  cases hu with
  | coalesce ho' hf' hoptional hfallback =>
    have hfits := (settles_of_means ho' ho).fits
    rw [hoptional] at hfits
    exact Datum.Fits.of_null hfits hnull

/-- The script of an accepted closed expression has a result, and the script of its optimized form
has the one that the expression means. They are the same, in the expression and in all expressions
inside it, exactly if no fallback inside it is misread; and only a fallback that is optional itself,
or anything, can be misread. -/
theorem results_agree_iff {e : Tree.Expr} (he : e.isClosed = true) {s s' : Check.State}
    {t : Typed.Expr} (ht : Check.expr e s = .ok t s') {names : Names} (hnames : names.Spelled) :
    (∃ r r', (∃ d, Means w store calls t d ∧ d.result? = some r) ∧
      resultOf names t.optimize.value = some r ∧ resultOf names t = some r') ∧
    ((∀ u ∈ t.inside, resultOf names u = resultOf names u.optimize.value) ↔
      ∀ u ∈ t.inside, ¬ Misread w store calls u) ∧
    ∀ u ∈ t.inside, Misread w store calls u → u.type = .any ∨ ∃ base, u.type = .optional base := by
  have hclosed : t.Closed := Check.expr_closed e he s t s' ht
  obtain ⟨d, hd⟩ := Meaning.exists_settles w store calls hclosed
  obtain ⟨r, hr⟩ := exists_result_of_denotes hd.denotes
  obtain ⟨r', hr'⟩ := exists_resultOf hclosed hnames
  refine ⟨⟨r, r', ⟨d, hd.means, hr⟩, ?_, hr'⟩, agrees_inside_iff w store calls hclosed hnames, ?_⟩
  · rw [resultOf_optimize hclosed hd hnames, hr]
  · exact fun u hu h => h.type_eq w store calls (closed_inside hclosed u hu)

/-! ### A misread fallback -/

/-- An optional that holds an empty one, with a fallback: `some naught int ?? some 1`. -/
def emptyHeld (span : Span) : Tree.Expr :=
  .coalesce (.unary .some (.naught (.named "int" span) span) span)
    (.unary .some (.integer "1" span) span) span

def emptyHeldTyped : Typed.Expr :=
  .coalesce (.unary .some (.emptyOptional (.optional .int)) (.optional (.optional .int)))
    (.unary .some (.literal (.int 1) .int) (.optional .int)) (.optional .int)

/-- It stands where it is not chosen: `shall ? some some 2 ?? naught int : …`. -/
def heldChoice (span : Span) : Tree.Expr :=
  .ternary (.boolean true span)
    (.coalesce (.unary .some (.unary .some (.integer "2" span) span) span)
      (.naught (.named "int" span) span) span)
    (emptyHeld span) span

def heldChoiceTyped : Typed.Expr :=
  .ternary (.literal (.bool true) .bool)
    (.coalesce
      (.unary .some (.unary .some (.literal (.int 2) .int) (.optional .int))
        (.optional (.optional .int)))
      (.emptyOptional (.optional .int)) (.optional .int))
    emptyHeldTyped (.optional .int)

/-- A world in which nothing is known. -/
def blankWorld : World :=
  ⟨fun _ _ => .absent, fun _ _ _ _ => .ok .absent, .absent, fun _ => ""⟩

theorem results_heldChoice :
    (heldChoice .nowhere).isClosed = true ∧
      Check.expr (heldChoice .nowhere) .initial = .ok heldChoiceTyped .initial ∧
      (∃ d, Means blankWorld (fun _ => none) [] heldChoiceTyped d ∧
        d.result? = some (.number 2)) ∧
      resultOf ⟨0, []⟩ heldChoiceTyped = some (.number 2) ∧
      ∃ u ∈ heldChoiceTyped.inside, Misread blankWorld (fun _ => none) [] u ∧
        (u.type = .any ∨ ∃ base, u.type = .optional base) := by
  have hclosed : (heldChoice .nowhere).isClosed = true := rfl
  have hcheck : Check.expr (heldChoice .nowhere) .initial = .ok heldChoiceTyped .initial := by
    with_unfolding_all rfl
  have hspelled : Names.Spelled ⟨0, []⟩ := by
    simp [Names.Spelled]
  obtain ⟨⟨r, r', ⟨d, hmeans, hd⟩, hoptimized, -⟩, hagree, htype⟩ :=
    results_agree_iff blankWorld (fun _ => none) [] hclosed hcheck hspelled
  have hnumber : resultOf ⟨0, []⟩ heldChoiceTyped.optimize.value = some (.number 2) := by
    decide +kernel
  obtain rfl : r = .number 2 := Option.some.inj (hoptimized.symm.trans hnumber)
  have hmem : emptyHeldTyped ∈ heldChoiceTyped.inside := by
    simp [heldChoiceTyped, emptyHeldTyped, Typed.Expr.inside]
  have hdiffer : resultOf ⟨0, []⟩ emptyHeldTyped ≠
      resultOf ⟨0, []⟩ emptyHeldTyped.optimize.value := by
    decide +kernel
  have hmisread : ¬ ∀ u ∈ heldChoiceTyped.inside, ¬ Misread blankWorld (fun _ => none) [] u :=
    fun hsound => hdiffer (hagree.2 hsound emptyHeldTyped hmem)
  push Not at hmisread
  obtain ⟨u, hu, hmisread⟩ := hmisread
  have hresult : resultOf ⟨0, []⟩ heldChoiceTyped = some (.number 2) := by
    decide +kernel
  exact ⟨hclosed, hcheck, ⟨d, hmeans, hd⟩, hresult, u, hu, hmisread, htype u hu hmisread⟩

/-- The script of an optional that holds an empty one gets the fallback, the optimized one not. -/
theorem results_emptyHeld :
    (emptyHeld .nowhere).isClosed = true ∧
      Check.expr (emptyHeld .nowhere) .initial = .ok emptyHeldTyped .initial ∧
      resultOf ⟨0, []⟩ emptyHeldTyped = some (.number 1) ∧
      resultOf ⟨0, []⟩ emptyHeldTyped.optimize.value = some .null := by
  refine ⟨rfl, ?_, ?_, ?_⟩
  · with_unfolding_all rfl
  · decide +kernel
  · decide +kernel

end Script

end Dragon
