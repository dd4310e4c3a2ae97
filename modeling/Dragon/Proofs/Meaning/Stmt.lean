import Dragon.Proofs.Meaning.Expr

/-!
# The meaning of statements

A statement changes the store, adds to what was put out, and ends with a signal that says whether
the next one runs. Bodies of functions are not run: a call is answered by the world.

The rounds that one loop may take are limited. A list of statements runs to completion when some
limit is high enough for it.
-/
namespace Dragon.Meaning

open Typed (Expr Stmt Alternate)

structure Memory where
  store : Store
  output : List Datum
  calls : List Call

inductive Signal where
  | normal
  | broke
  | returned (d : Option Datum)

def Signal.isNormal : Signal → Bool
  | normal => true
  | _ => false

theorem Signal.eq_normal {s : Signal} (h : s.isNormal = true) : s = normal := by
  cases s with
  | normal => rfl
  | _ => cases h

abbrev Run := Step Memory

/-! ### Elementary steps -/

def evaluate (w : World) (e : Expr) : Run Datum := fun m =>
  (eval w m.store e m.calls).map fun (d, calls) => (d, { m with calls })

def Store.set (store : Store) (id : Nat) (d : Datum) : Store :=
  fun i => if i = id then some d else store i

def bindTo (id : Nat) (d : Datum) : Run Signal := fun m =>
  .ok (.normal, { m with store := m.store.set id d })

def put (d : Datum) : Run Signal := fun m => .ok (.normal, { m with output := m.output ++ [d] })

def truth (w : World) (e : Expr) : Run Bool := do lift (truthOf (← evaluate w e))

def wholeOf : Datum → Except Fault Int
  | .int n => .ok n
  | _ => .error .mismatch

def whole (w : World) (e : Expr) : Run Int := do lift (wholeOf (← evaluate w e))

def elementsOf : Datum → Except Fault (List Datum)
  | .list ds => .ok ds
  | _ => .error .mismatch

/-- Only variables are assigned to: a list is a value and has no places of its own. -/
def target : Expr → Except Fault Nat
  | .var v => .ok v.id
  | _ => .error .mismatch

def moved (by_ : Int) : Datum → Except Fault Datum
  | .int n => .ok (.int (n + by_))
  | .float x => .ok (.float (x + Float.ofInt by_))
  | _ => .error .mismatch

def move (w : World) (e : Expr) (by_ : Int) : Run Signal := do
  let id ← lift (target e)
  let d ← lift (moved by_ (← evaluate w e))
  bindTo id d

/-! ### Sequences and loops -/

/-- The second step only runs when the first one ends in a normal way. -/
def followed (x y : Run Signal) : Run Signal := do
  match ← x with
  | .normal => y
  | .broke => pure .broke
  | .returned d => pure (.returned d)

def branching (x : Run Bool) (y z : Run Signal) : Run Signal := do if ← x then y else z

/-- A round of a loop, and what comes after it. -/
def round (x rest : Run Signal) : Run Signal := do
  match ← x with
  | .normal => rest
  | .broke => pure .normal
  | .returned d => pure (.returned d)

/-- Rounds with rising numbers, as long as there are more. -/
def rounds (more : Int → Run Bool) (body : Int → Run Signal) : Nat → Int → Run Signal
  | 0, _ => fault .unfinished
  | fuel + 1, i =>
    branching (more i) (round (body i) (rounds more body fuel (i + 1))) (pure .normal)

def eachOf (body : Datum → Run Signal) : List Datum → Run Signal
  | [] => pure .normal
  | d :: ds => round (body d) (eachOf body ds)

def within : RangeKind → Int → Int → Bool
  | .closed, i, high => decide (i ≤ high)
  | .halfOpen, i, high => decide (i < high)

/-- The upper end of a range is asked for before every round. -/
def rangeLoop (w : World) (fuel : Nat) (id : Nat) (low : Expr) (kind : RangeKind) (high : Expr)
    (body : Run Signal) : Run Signal := do
  let first ← whole w low
  rounds (fun i => do return within kind i (← whole w high))
    (fun i => followed (bindTo id (.int i)) body) fuel first

/-! ### Statements -/

mutual

def exec (w : World) (fuel : Nat) : Stmt → Run Signal
  | .declare _ v init => do
    let d ← evaluate w init
    bindTo v.id d
  | .function f _ => bindTo f.id (.function f.id)
  | .object _ _ _ _ _ => pure .normal
  | .print e => do
    let d ← evaluate w e
    put d
  | .increment e => move w e 1
  | .decrement e => move w e (-1)
  | .assign e source => do
    let id ← lift (target e)
    let d ← evaluate w source
    bindTo id d
  | .return_ e => do
    let d ← evaluate w e
    pure (.returned (some d))
  | .shortReturn => pure (.returned none)
  | .branch test body alternate =>
    branching (truth w test) (execBlock w fuel body) (execAlternate w fuel alternate)
  | .while_ test body => rounds (fun _ => truth w test) (fun _ => execBlock w fuel body) fuel 0
  | .repeat_ count body => do
    let n ← whole w count
    rounds (fun i => pure (decide (i < n))) (fun _ => execBlock w fuel body) fuel 0
  | .range iterator low kind high body =>
    rangeLoop w fuel iterator.id low kind high (execBlock w fuel body)
  | .foreignRange iterator low _ high body =>
    rangeLoop w fuel iterator.id low .halfOpen high (execBlock w fuel body)
  | .forEach iterator collection body => do
    let ds ← lift (elementsOf (← evaluate w collection))
    eachOf (fun d => followed (bindTo iterator.id d) (execBlock w fuel body)) ds
  | .break_ => pure .broke
  | .call e | .expr e => do
    let _ ← evaluate w e
    pure .normal
  | .bare _ _ | .misplaced _ _ => fault .mismatch

def execBlock (w : World) (fuel : Nat) : List Stmt → Run Signal
  | [] => pure .normal
  | s :: rest => followed (exec w fuel s) (execBlock w fuel rest)

def execAlternate (w : World) (fuel : Nat) : Alternate → Run Signal
  | .none => pure .normal
  | .block body => execBlock w fuel body
  | .chain test body alternate =>
    branching (truth w test) (execBlock w fuel body) (execAlternate w fuel alternate)

end

/-- A list of statements ends without a fault, with this signal and this memory. -/
def Completes (w : World) (ss : List Stmt) (m : Memory) (r : Signal × Memory) : Prop :=
  ∃ fuel, execBlock w fuel ss m = .ok r

/-! ### Refinement -/

namespace Refines

variable {x x' y y' : Run Signal} {more more' : Int → Run Bool} {body body' : Int → Run Signal}

theorem followed (hx : Refines x x') (hy : Refines y y') :
    Refines (followed x y) (followed x' y') := by
  refine hx.bind fun s => ?_
  cases s with
  | normal => exact hy
  | broke => exact refl _
  | returned d => exact refl _

theorem round (hx : Refines x x') (hy : Refines y y') : Refines (round x y) (round x' y') := by
  refine hx.bind fun s => ?_
  cases s with
  | normal => exact hy
  | broke => exact refl _
  | returned d => exact refl _

theorem branching {c c' : Run Bool} (hc : Refines c c') (hx : Refines x x') (hy : Refines y y') :
    Refines (branching c x y) (branching c' x' y') := by
  refine hc.bind fun b => ?_
  split
  · exact hx
  · exact hy

/-- More rounds never hurt: what a loop has come to stays as it is. -/
theorem rounds (hmore : ∀ i, Refines (more i) (more' i)) (hbody : ∀ i, Refines (body i) (body' i))
    {fuel fuel' : Nat} (hfuel : fuel ≤ fuel') (i : Int) :
    Refines (rounds more body fuel i) (rounds more' body' fuel' i) := by
  induction fuel generalizing fuel' i with
  | zero =>
    intro m r h
    exact absurd h fault_ne_ok
  | succ fuel ih =>
    obtain _ | k := fuel'
    · omega
    exact (hmore i).branching ((hbody i).round (ih (by omega) (i + 1))) (refl _)

theorem eachOf {body body' : Datum → Run Signal} (hbody : ∀ d, Refines (body d) (body' d))
    (ds : List Datum) : Refines (eachOf body ds) (eachOf body' ds) := by
  induction ds with
  | nil => exact refl _
  | cons d ds ih => exact (hbody d).round ih

theorem rangeLoop {w : World} {fuel fuel' id : Nat} {low low' high high' : Expr} {kind : RangeKind}
    (hfuel : fuel ≤ fuel') (hlow : Refines (whole w low) (whole w low'))
    (hhigh : Refines (whole w high) (whole w high')) (hx : Refines x x') :
    Refines (rangeLoop w fuel id low kind high x) (rangeLoop w fuel' id low' kind high' x') := by
  refine hlow.bind fun first => ?_
  refine rounds (fun i => hhigh.bind fun _ => refl _) (fun i => ?_) hfuel first
  exact (refl _).followed hx

end Refines

mutual

theorem exec_mono (w : World) {fuel fuel' : Nat} (hfuel : fuel ≤ fuel') (s : Stmt) :
    Refines (exec w fuel s) (exec w fuel' s) := by
  cases s with
  | branch test body alternate =>
    exact (Refines.refl _).branching (execBlock_mono w hfuel body)
      (execAlternate_mono w hfuel alternate)
  | while_ test body =>
    exact .rounds (fun _ => .refl _) (fun _ => execBlock_mono w hfuel body) hfuel 0
  | repeat_ count body =>
    refine (Refines.refl _).bind fun n => ?_
    exact .rounds (fun _ => .refl _) (fun _ => execBlock_mono w hfuel body) hfuel 0
  | range iterator low kind high body | foreignRange iterator low kind high body =>
    exact .rangeLoop hfuel (.refl _) (.refl _) (execBlock_mono w hfuel body)
  | forEach iterator collection body =>
    refine (Refines.refl _).bind fun c => (Refines.refl _).bind fun ds => ?_
    exact .eachOf (fun d => (Refines.refl _).followed (execBlock_mono w hfuel body)) ds
  | _ => exact .refl _

theorem execBlock_mono (w : World) {fuel fuel' : Nat} (hfuel : fuel ≤ fuel') (ss : List Stmt) :
    Refines (execBlock w fuel ss) (execBlock w fuel' ss) := by
  cases ss with
  | nil => exact .refl _
  | cons s rest => exact (exec_mono w hfuel s).followed (execBlock_mono w hfuel rest)

theorem execAlternate_mono (w : World) {fuel fuel' : Nat} (hfuel : fuel ≤ fuel')
    (alternate : Alternate) :
    Refines (execAlternate w fuel alternate) (execAlternate w fuel' alternate) := by
  cases alternate with
  | none => exact .refl _
  | block body => exact execBlock_mono w hfuel body
  | chain test body alternate =>
    exact (Refines.refl _).branching (execBlock_mono w hfuel body)
      (execAlternate_mono w hfuel alternate)

end

/-- A list of statements completes in at most one way. -/
theorem Completes.unique {w : World} {ss : List Stmt} {m : Memory} {r r' : Signal × Memory}
    (hr : Completes w ss m r) (hr' : Completes w ss m r') : r = r' := by
  obtain ⟨n, hn⟩ := hr
  obtain ⟨k, hk⟩ := hr'
  have hn := execBlock_mono w (Nat.le_max_left n k) ss m r hn
  have hk := execBlock_mono w (Nat.le_max_right n k) ss m r' hk
  exact Except.ok.inj (hn.symm.trans hk)

end Dragon.Meaning
