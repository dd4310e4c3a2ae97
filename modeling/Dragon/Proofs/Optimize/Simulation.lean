import Dragon.Proofs.Optimize.Damage
import Dragon.Proofs.Optimize.Simplify

/-!
# Evaluations that follow others up to damage

The second evaluation has the result of the first one and makes its calls but for those that are
lost.

A lost call is a difference that a world with a memory can tell. The second evaluation therefore
starts either where the first one did and nothing is lost, or in a world without a memory.
-/
namespace Dragon.Meaning

open Typed

/-- A world that always answers the same call in the same way. -/
def World.Functional (w : World) : Prop :=
  ∀ h h', w.reply h = w.reply h' ∧ w.member h = w.member h'

/-- Whether an evaluation with some damage ahead can be followed from another point. -/
def Comparable (w : World) (h h' : List Call) (ds : List Damage) : Prop :=
  w.Functional ∨ h' = h ∧ ds = []

def Simulates {α : Type} (w : World) (x y : Eval α) (D : List Call → List Damage) : Prop :=
  ∀ h h' a h₁, x h = .ok (a, h₁) → .altered ∉ D h → Comparable w h h' (D h) →
    ∃ c k, h₁ = h ++ c ∧ y h' = .ok (a, h' ++ k) ∧ k.Sublist c ∧
      c.length = k.length + (D h).length

variable {α β : Type} {w : World} {x y z : Eval α} {D E : List Call → List Damage}

theorem afterwards_of_ok {a : α} {h h₁ : List Call} {F : α → List Call → List Damage}
    (hx : x h = .ok (a, h₁)) : afterwards x F h = F a h₁ := by
  simp [afterwards, hx]

theorem afterwards_eq_nil {F : α → List Call → List Damage} (hF : ∀ a h, F a h = [])
    (x : Eval α) (h : List Call) : afterwards x F h = [] := by
  unfold afterwards
  split
  · exact hF _ _
  · rfl

@[simp] theorem afterwards_nil (x : Eval α) (h : List Call) :
    afterwards x (fun _ _ => []) h = [] := afterwards_eq_nil (fun _ _ => rfl) x h

/-- Where nothing is lost, all calls are made. -/
theorem eq_of_sublist {c k : List Call} {ds : List Damage} (hk : k.Sublist c)
    (hlen : c.length = k.length + ds.length) (hds : ds = []) : k = c :=
  hk.eq_of_length (by simp [hlen, hds])

namespace Comparable

variable {h h' c k : List Call} {ds es : List Damage}

theorem left (hc : Comparable w h h' (ds ++ es)) : Comparable w h h' ds :=
  hc.imp_right fun ⟨heq, hnil⟩ => ⟨heq, (List.append_eq_nil_iff.1 hnil).1⟩

/-- After the calls of the first part, the second part can still be followed. -/
theorem right (hc : Comparable w h h' (ds ++ es)) (hk : ds = [] → k = c) :
    Comparable w (h ++ c) (h' ++ k) es := by
  refine hc.imp_right fun ⟨heq, hnil⟩ => ?_
  obtain ⟨hds, hes⟩ := List.append_eq_nil_iff.1 hnil
  exact ⟨by rw [heq, hk hds], hes⟩

end Comparable

namespace Simulates

/-- Evaluations in sequence add up their damage. -/
theorem bind {f g : α → Eval β} {F : α → List Call → List Damage} (hx : Simulates w x y D)
    (hf : ∀ a, Simulates w (f a) (g a) (F a)) :
    Simulates w (x >>= f) (y >>= g) (fun h => D h ++ afterwards x F h) := by
  intro h h' b h₂ hb halt hcomp
  obtain ⟨a, h₁, ha, hb⟩ := bind_eq_ok.1 hb
  simp only [afterwards_of_ok ha, List.mem_append, not_or] at halt hcomp ⊢
  obtain ⟨c, k, rfl, hy, hk, hlen⟩ := hx h h' a h₁ ha halt.1 hcomp.left
  obtain ⟨c', k', rfl, hg, hk', hlen'⟩ :=
    hf a (h ++ c) (h' ++ k) b h₂ hb halt.2 (hcomp.right (eq_of_sublist hk hlen))
  refine ⟨c ++ c', k ++ k', by simp, bind_eq_ok.2 ⟨a, h' ++ k, hy, by simpa using hg⟩,
    hk.append hk', ?_⟩
  simp only [List.length_append]
  omega

theorem refines (hx : Simulates w x y D) (hy : Refines y z) : Simulates w x z D := by
  intro h h' a h₁ ha halt hcomp
  obtain ⟨c, k, hc, hrun, hk, hlen⟩ := hx h h' a h₁ ha halt hcomp
  exact ⟨c, k, hc, hy h' _ hrun, hk, hlen⟩

theorem congr (hx : Simulates w x y D) (hD : ∀ h, E h = D h) : Simulates w x y E := by
  obtain rfl : E = D := funext hD
  exact hx

/-- What only has a result, or a fault, follows itself. -/
theorem lift (e : Except Fault α) : Simulates w (lift e) (lift e) (fun _ => []) := by
  intro h h' a h₁ ha _ _
  obtain ⟨b, rfl, hpair⟩ := lift_eq_ok.1 ha
  cases hpair
  exact ⟨[], [], by simp, by simpa using lift_eq_ok.2 ⟨a, rfl, rfl⟩, .refl _, rfl⟩

theorem pure (a : α) : Simulates w (pure a) (pure a) (fun _ => []) := lift (.ok a)

theorem fault (f : Fault) : Simulates w (fault f : Eval α) (Meaning.fault f) (fun _ => []) :=
  lift (.error f)

theorem perform (c : Call) : Simulates w (perform w c) (perform w c) (fun _ => []) := by
  intro h h' a h₁ ha _ hcomp
  have hreply : w.reply h' c = w.reply h c := by
    obtain hfun | ⟨rfl, -⟩ := hcomp
    · rw [(hfun h' h).1]
    · rfl
  cases ha
  exact ⟨[c], [c], rfl, by simp [Meaning.perform, hreply], .refl _, rfl⟩

theorem inspect (o : Datum) (access : Access) (m : Member) :
    Simulates w (inspect w o access m) (inspect w o access m) (fun _ => []) := by
  intro h h' a h₁ ha halt hcomp
  have hmember : w.member h' o access m = w.member h o access m := by
    obtain hfun | ⟨rfl, -⟩ := hcomp
    · rw [(hfun h' h).2]
    · rfl
  unfold Meaning.inspect at ha ⊢
  rw [hmember]
  exact lift _ h h' a h₁ ha halt hcomp

theorem test {x y : Eval Datum} (hx : Simulates w x y D) : Simulates w (test x) (test y) D :=
  (hx.bind fun d => lift (truthOf d)).congr fun h => by simp

theorem shortCircuit (b : Bool) {x₁ x₂ y₁ y₂ : Eval Datum} (hx : Simulates w x₁ x₂ D)
    (hy : Simulates w y₁ y₂ E) :
    Simulates w (shortCircuit b x₁ y₁) (shortCircuit b x₂ y₂) (fun h =>
      D h ++ afterwards (Meaning.test x₁) (fun c => if c = b then fun _ => [] else E) h) := by
  refine hx.test.bind fun c => ?_
  split_ifs
  · exact pure _
  · exact (hy.test.bind fun d => pure (Datum.bool d)).congr fun h => by simp

theorem choice {x₁ x₂ y₁ y₂ z₁ z₂ : Eval Datum} {F : List Call → List Damage}
    (hx : Simulates w x₁ x₂ D) (hy : Simulates w y₁ y₂ E) (hz : Simulates w z₁ z₂ F) :
    Simulates w (choice x₁ y₁ z₁) (choice x₂ y₂ z₂)
      (fun h => D h ++ afterwards (Meaning.test x₁) (fun c => if c then E else F) h) := by
  refine hx.test.bind fun c => ?_
  split_ifs
  · exact hy
  · exact hz

/-- The content of an optional with its fallback. -/
theorem content {x₁ x₂ y₁ y₂ : Eval Datum} (hx : Simulates w x₁ x₂ D) (hy : Simulates w y₁ y₂ E) :
    Simulates w (x₁ >>= content y₁) (x₂ >>= content y₂)
      (fun h => D h ++ afterwards x₁ (fun
        | .absent => E
        | _ => fun _ => []) h) := by
  refine hx.bind fun d => ?_
  cases d with
  | absent => exact hy
  | present d => exact pure d
  | _ => exact fault _

end Simulates

/-! ### Evaluation -/

mutual

/-- In a world without a memory, the calls so far do not matter to an evaluation. -/
theorem simulates_self (w : World) (store : Store) (e : Expr) :
    Simulates w (eval w store e) (eval w store e) (fun _ => []) := by
  cases e with
  | var v | param v | func v =>
    unfold eval read
    split
    · exact .pure _
    · exact .fault _
  | self t | emptyOptional t | emptyList t => exact .pure _
  | literal v t =>
    unfold eval
    split
    · exact .pure _
    · exact .fault _
  | unary op e t =>
    refine ((simulates_self w store e).bind fun d => .lift (operateUnary op d)).congr ?_
    simp
  | binary op l r t =>
    have hl := simulates_self w store l
    have hr := simulates_self w store r
    cases op
    case and => exact (hl.shortCircuit false hr).congr (by simp)
    case or => exact (hl.shortCircuit true hr).congr (by simp)
    all_goals
      refine (hl.bind fun a => hr.bind fun b => .lift (operate _ t a b)).congr ?_
      simp
  | ternary c l r t =>
    have hc := simulates_self w store c
    exact (hc.choice (simulates_self w store l) (simulates_self w store r)).congr (by simp)
  | coalesce o f t =>
    refine ((simulates_self w store o).content (simulates_self w store f)).congr fun h => ?_
    exact (afterwards_eq_nil (fun d h => by cases d <;> rfl) _ h).symm
  | list es t =>
    refine ((simulates_selfAll w store es).bind fun ds => .pure (Datum.list ds)).congr ?_
    simp
  | subscript c i t =>
    have hc := simulates_self w store c
    have hi := simulates_self w store i
    refine (hc.bind fun c => hi.bind fun i => .lift (elementAt c i)).congr ?_
    simp
  | member o access m t =>
    refine ((simulates_self w store o).bind fun o => .inspect o access m).congr ?_
    simp
  | call f args t =>
    have hf := simulates_self w store f
    have hargs := simulates_selfArgs w store args
    refine (hf.bind fun f => hargs.bind fun ds => .perform ⟨.function f, ds⟩).congr ?_
    simp
  | construct o args t =>
    have hargs := simulates_selfArgs w store args
    refine (hargs.bind fun ds => .perform ⟨.constructor o.id, ds⟩).congr ?_
    simp
  | template parts t =>
    refine ((simulates_selfParts w store parts).bind fun s => .pure (Datum.string s)).congr ?_
    simp
  | _ => exact .fault _

theorem simulates_selfAll (w : World) (store : Store) (es : List Expr) :
    Simulates w (evalAll w store es) (evalAll w store es) (fun _ => []) := by
  cases es with
  | nil => exact .pure _
  | cons e rest =>
    have he := simulates_self w store e
    have hrest := simulates_selfAll w store rest
    refine (he.bind fun d => hrest.bind fun ds => .pure (d :: ds)).congr ?_
    simp

theorem simulates_selfArgs (w : World) (store : Store) (args : List Arg) :
    Simulates w (evalArgs w store args) (evalArgs w store args) (fun _ => []) := by
  match args with
  | [] => exact .pure _
  | .mk name e :: rest =>
    have he := simulates_self w store e
    have hrest := simulates_selfArgs w store rest
    refine (he.bind fun d => hrest.bind fun ds => .pure (d :: ds)).congr ?_
    simp

theorem simulates_selfParts (w : World) (store : Store) (parts : List Part) :
    Simulates w (evalParts w store parts) (evalParts w store parts) (fun _ => []) := by
  match parts with
  | [] => exact .pure _
  | .text s :: rest =>
    have hrest := simulates_selfParts w store rest
    refine (hrest.bind fun t => .pure (s ++ t)).congr ?_
    simp
  | .hole e :: rest =>
    have he := simulates_self w store e
    have hrest := simulates_selfParts w store rest
    refine (he.bind fun d => hrest.bind fun t => .pure (w.text d ++ t)).congr ?_
    simp

end

/-- An evaluation has the same result and the same calls from another point on. -/
theorem eval_transport {store : Store} {e : Expr} {a : Datum} {h h' k : List Call}
    (hw : w.Functional ∨ h' = h) (he : eval w store e h = .ok (a, h ++ k)) :
    eval w store e h' = .ok (a, h' ++ k) := by
  have hcomp : Comparable w h h' [] := hw.imp_right fun heq => ⟨heq, rfl⟩
  obtain ⟨c, k', hc, hrun, hk', hlen⟩ := simulates_self w store e h h' a _ he (by simp) hcomp
  obtain rfl : k = c := List.append_cancel_left hc
  rw [hrun, eq_of_sublist hk' hlen rfl]

end Dragon.Meaning
