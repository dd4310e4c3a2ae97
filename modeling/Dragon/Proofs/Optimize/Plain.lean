import Dragon.Proofs.Optimize.Expr

/-!
# Plain expressions make no calls and do no arithmetic with doubles

Optimization does no damage to plain expressions, so that an optimized one refines what it comes
from.
-/
namespace Dragon.Typed

mutual

def Expr.plain : Expr → Bool
  | .unary _ operand _ => operand.plain
  | .binary _ left right type => !type.is .float && left.plain && right.plain
  | .ternary test consequent alternate _ => test.plain && consequent.plain && alternate.plain
  | .coalesce optional fallback _ => optional.plain && fallback.plain
  | .list elements _ => plainAll elements
  | .subscript collection index _ => collection.plain && index.plain
  | .member object _ _ _ => object.plain
  | .call _ _ _ | .construct _ _ _ => false
  | .template parts _ => plainParts parts
  | _ => true

def plainAll : List Expr → Bool
  | [] => true
  | e :: rest => e.plain && plainAll rest

def plainParts : List Part → Bool
  | [] => true
  | .text _ :: rest => plainParts rest
  | .hole e :: rest => e.plain && plainParts rest

end

end Dragon.Typed

namespace Dragon.Meaning

open Typed

variable {α β : Type} {w : World} {store : Store} {x : Eval α} {D E : List Call → List Damage}

/-- An evaluation without calls and without damage. -/
def Unharmed (x : Eval α) (D : List Call → List Damage) : Prop :=
  ∀ h a h₁, x h = .ok (a, h₁) → h₁ = h ∧ D h = []

namespace Unharmed

theorem bind {f : α → Eval β} {F : α → List Call → List Damage} (hx : Unharmed x D)
    (hf : ∀ a, Unharmed (f a) (F a)) :
    Unharmed (x >>= f) (fun h => D h ++ afterwards x F h) := by
  intro h b h₂ hrun
  obtain ⟨a, h₁, ha, hb⟩ := bind_eq_ok.1 hrun
  obtain ⟨rfl, hD⟩ := hx h a h₁ ha
  obtain ⟨rfl, hF⟩ := hf a h₁ b h₂ hb
  exact ⟨rfl, by simp [hD, afterwards_of_ok ha, hF]⟩

theorem congr (hx : Unharmed x D) (hD : ∀ h, E h = D h) : Unharmed x E := by
  obtain rfl : E = D := funext hD
  exact hx

theorem silent (hx : Unharmed x D) : Unharmed x (fun _ => []) :=
  fun h a h₁ ha => ⟨(hx h a h₁ ha).1, rfl⟩

theorem lift (e : Except Fault α) : Unharmed (lift e) (fun _ => []) := by
  intro h a h₁ ha
  obtain ⟨b, -, hpair⟩ := lift_eq_ok.1 ha
  cases hpair
  exact ⟨rfl, rfl⟩

theorem pure (a : α) : Unharmed (pure a) (fun _ => []) := lift (.ok a)

theorem fault (f : Fault) : Unharmed (fault f : Eval α) (fun _ => []) := lift (.error f)

theorem inspect (o : Datum) (access : Access) (m : Member) :
    Unharmed (inspect w o access m) (fun _ => []) := by
  intro h a h₁ ha
  exact lift (w.member h o access m) h a h₁ ha

theorem test {x : Eval Datum} (hx : Unharmed x D) : Unharmed (test x) D :=
  (hx.bind fun d => lift (truthOf d)).congr fun h => by simp

theorem shortCircuit (b : Bool) {x y : Eval Datum} (hx : Unharmed x D) (hy : Unharmed y E) :
    Unharmed (shortCircuit b x y) (fun h =>
      D h ++ afterwards (Meaning.test x) (fun c => if c = b then fun _ => [] else E) h) := by
  refine hx.test.bind fun c => ?_
  split_ifs
  · exact pure _
  · exact (hy.test.bind fun d => pure (Datum.bool d)).congr fun h => by simp

theorem choice {x y z : Eval Datum} {F : List Call → List Damage} (hx : Unharmed x D)
    (hy : Unharmed y E) (hz : Unharmed z F) :
    Unharmed (choice x y z)
      (fun h => D h ++ afterwards (Meaning.test x) (fun c => if c then E else F) h) := by
  refine hx.test.bind fun c => ?_
  split_ifs
  · exact hy
  · exact hz

theorem content {x y : Eval Datum} (hx : Unharmed x D) (hy : Unharmed y E) :
    Unharmed (x >>= content y)
      (fun h => D h ++ afterwards x (fun
        | .absent => E
        | _ => fun _ => []) h) := by
  refine hx.bind fun d => ?_
  cases d with
  | absent => exact hy
  | present d => exact pure d
  | _ => exact fault _

/-- What an unharmed evaluation is simplified to makes no calls either. -/
theorem callsOf_eq_nil {x : Eval Datum} {e : Expr} {h : List Call} {a : Datum}
    (hx : Unharmed x D) (hsim : Simulates w x (eval w store e) D) (ha : x h = .ok (a, h)) :
    callsOf (eval w store e) h = [] := by
  obtain ⟨-, hD⟩ := hx h a h ha
  obtain ⟨c, k, hc, hrun, hk, hlen⟩ := hsim h h a h ha (by simp [hD]) (.inr ⟨rfl, hD⟩)
  obtain rfl : c = [] := by simpa using hc
  rw [callsOf_of_ok hrun, eq_of_sublist hk hlen hD]
  rfl

/-- Whole numbers are never altered. -/
theorem alteration_of_not_float {s : Shortcut} {op : BinaryOp} {t : Ty} (ht : t.is .float = false)
    (a b : Datum) : alteration s op t a b = [] := by
  unfold alteration
  split
  next d hd =>
    obtain ⟨m, n, k, rfl, rfl, rfl, hk, rfl⟩ | ⟨x, y, z, rfl, _⟩ | ⟨_, _, _, _, _, _, rfl⟩ |
      ⟨_, _, _, rfl⟩ := operate_cases hd
    · simp [differ]
    · cases ht
    · simp [differ]
    · simp [differ]
  next => rfl

theorem operation {op : BinaryOp} {t : Ty} {x y : Eval Datum} {l r : Expr}
    (ht : t.is .float = false) (hx : Unharmed x D) (hy : Unharmed y E)
    (hl : Simulates w x (eval w store l) D) (hr : Simulates w y (eval w store r) E) :
    Unharmed (operation op t x y)
      (operationDamage op t x y D E l r (eval w store l) (eval w store r)) := by
  intro h p h₂ hp
  obtain ⟨a, h₁, b, h₂, d, ha, hb, hd, ⟨⟩⟩ := operation_eq_ok.1 hp
  obtain ⟨rfl, hD⟩ := hx h a h₁ ha
  obtain ⟨rfl, hE⟩ := hy h₁ b h₂ hb
  refine ⟨rfl, ?_⟩
  unfold operationDamage
  split
  · simp [hD, hE, afterwards_of_ok ha]
  · simp [hD, hE, afterwards_of_ok ha, hx.callsOf_eq_nil hl ha,
      hy.callsOf_eq_nil hr hb, alteration_of_not_float ht]

end Unharmed

mutual

/-- Plain expressions come to no harm. -/
theorem unharmed_of_plain (w : World) (store : Store) (e : Expr) (he : e.plain = true) :
    Unharmed (eval w store e) (damage w store e) := by
  cases e with
  | var v | param v | func v =>
    unfold eval read
    split
    · exact .pure _
    · exact .fault _
  | self t | emptyOptional t | emptyList t => exact .pure _
  | literal v t =>
    unfold eval
    split
    · exact .pure _
    · exact .fault _
  | unary op e t =>
    refine ((unharmed_of_plain w store e he).bind fun d => .lift (operateUnary op d)).congr ?_
    simp [damage]
  | binary op l r t =>
    simp only [Expr.plain, Bool.and_eq_true, Bool.not_eq_true'] at he
    obtain ⟨⟨ht, hl⟩, hr⟩ := he
    have hl := unharmed_of_plain w store l hl
    have hr := unharmed_of_plain w store r hr
    cases op
    case and => exact hl.shortCircuit false hr
    case or => exact hl.shortCircuit true hr
    all_goals exact hl.operation ht hr (simulates_optimize w store l) (simulates_optimize w store r)
  | ternary c l r t =>
    simp only [Expr.plain, Bool.and_eq_true] at he
    have hc := unharmed_of_plain w store c he.1.1
    exact hc.choice (unharmed_of_plain w store l he.1.2) (unharmed_of_plain w store r he.2)
  | coalesce o f t =>
    simp only [Expr.plain, Bool.and_eq_true] at he
    exact (unharmed_of_plain w store o he.1).content (unharmed_of_plain w store f he.2)
  | list es t =>
    refine ((unharmed_of_plainAll w store es he).bind fun ds => .pure (Datum.list ds)).congr ?_
    simp [damage]
  | subscript c i t =>
    simp only [Expr.plain, Bool.and_eq_true] at he
    have hc := unharmed_of_plain w store c he.1
    have hi := unharmed_of_plain w store i he.2
    refine (hc.bind fun c => hi.bind fun i => .lift (elementAt c i)).congr ?_
    simp [damage]
  | member o access m t =>
    have ho := (unharmed_of_plain w store o he).silent
    refine (ho.bind fun o => .inspect o access m).congr ?_
    simp [damage]
  | call f args t => cases he
  | construct o args t => cases he
  | template parts t =>
    have hparts := unharmed_of_plainParts w store parts he
    refine (hparts.bind fun s => .pure (Datum.string s)).congr ?_
    simp [damage]
  | _ => exact .fault _

theorem unharmed_of_plainAll (w : World) (store : Store) (es : List Expr)
    (hes : plainAll es = true) : Unharmed (evalAll w store es) (damageAll w store es) := by
  cases es with
  | nil => exact .pure _
  | cons e rest =>
    simp only [plainAll, Bool.and_eq_true] at hes
    have he := unharmed_of_plain w store e hes.1
    have hrest := unharmed_of_plainAll w store rest hes.2
    refine (he.bind fun d => hrest.bind fun ds => .pure (d :: ds)).congr ?_
    simp [damageAll]

theorem unharmed_of_plainParts (w : World) (store : Store) (parts : List Part)
    (hparts : plainParts parts = true) :
    Unharmed (evalParts w store parts) (damageParts w store parts) := by
  match parts with
  | [] => exact .pure _
  | .text s :: rest =>
    have hrest := unharmed_of_plainParts w store rest hparts
    refine (hrest.bind fun t => .pure (s ++ t)).congr ?_
    simp [damageParts]
  | .hole e :: rest =>
    simp only [plainParts, Bool.and_eq_true] at hparts
    have he := unharmed_of_plain w store e hparts.1
    have hrest := unharmed_of_plainParts w store rest hparts.2
    refine (he.bind fun d => hrest.bind fun t => .pure (w.text d ++ t)).congr ?_
    simp [damageParts]

end

/-- An optimized plain expression has the result of the one it comes from. -/
theorem refines_optimize {e : Expr} (he : e.plain = true) :
    Refines (eval w store e) (eval w store e.optimize.value) := by
  rintro h ⟨a, h₁⟩ ha
  obtain ⟨rfl, hD⟩ := unharmed_of_plain w store e he h a h₁ ha
  obtain ⟨c, k, hc, hrun, hk, hlen⟩ :=
    simulates_optimize w store e h₁ h₁ a h₁ ha (by simp [hD]) (.inr ⟨rfl, hD⟩)
  rw [hrun, eq_of_sublist hk hlen hD, ← hc]

end Dragon.Meaning
