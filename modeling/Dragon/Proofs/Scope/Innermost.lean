import Dragon.Scope.Library
import Dragon.Scope.Nest
import Mathlib.Data.List.Induction

/-!
# Trees of scopes are maps to the innermost binding

A history says what was done to a tree: which scopes were opened inside which, and which
declarations succeeded or were refused. All that a tree answers can be told from its history, and a
declaration changes the answers for its own name where no nearer scope binds it, and no others.
-/
namespace Dragon

namespace Nest

/-! ### Histories -/

/-- One thing that was done to a tree of scopes. -/
inductive Event where
  | opened (parent : Nat)
  | bound (scope : Nat) (b : Binding)
  | refused (scope : Nat) (b : Binding)

/-- What was done to a tree, the last thing first. -/
abbrev History := List Event

/-- The trees that come of opening scopes and declaring names, in any order and in any of the
scopes that there are. The first scope is there from the start. -/
inductive Built : History → Nest → Prop
  | root (flags : Flags) : Built [] (root ⟨flags, []⟩)
  | opened {past : History} {n : Nest} {i : Nat} (hn : Built past n) (hi : i < n.frames.length)
      (change : Flags → Flags) : Built (.opened i :: past) (n.child i change)
  | bound {past : History} {n n' : Nest} {i : Nat} {b : Binding} (hn : Built past n)
      (hi : i < n.frames.length) (hb : n.declare i b = .ok n') : Built (.bound i b :: past) n'
  | refused {past : History} {n : Nest} {i : Nat} {b previous : Binding} (hn : Built past n)
      (hi : i < n.frames.length) (hb : n.declare i b = .error previous) :
      Built (.refused i b :: past) n

namespace History

/-- The first successful declaration of a name in a scope. -/
def first? (scope : Nat) (name : String) : History → Option Binding
  | [] => none
  | .bound i b :: past =>
    (first? scope name past).or (if i = scope ∧ b.name = name then some b else none)
  | .opened _ :: past | .refused _ _ :: past => first? scope name past

/-- How many scopes there are. They are numbered in the order in which they were opened. -/
def size : History → Nat
  | [] => 1
  | .opened _ :: past => size past + 1
  | .bound _ _ :: past | .refused _ _ :: past => size past

/-- The scope that a scope was opened in. The first one was opened in none. -/
def parent? (scope : Nat) : History → Option Nat
  | [] => none
  | .opened i :: past => if scope = size past then some i else parent? scope past
  | .bound _ _ :: past | .refused _ _ :: past => parent? scope past

/-- A scope on the path from another one to the root, with no binding of a name nearer than it. -/
inductive Sees (past : History) (name : String) : Nat → Nat → Prop
  | here (scope : Nat) : Sees past name scope scope
  | outer {scope parent target : Nat} (hfree : past.first? scope name = none)
      (hparent : past.parent? scope = some parent) (hsees : Sees past name parent target) :
      Sees past name scope target

end History

open History

/-! ### What a history tells -/

/-- A tree is as a history tells it. -/
structure Told (past : History) (n : Nest) : Prop where
  size : n.frames.length = past.size
  frame : ∀ i nested, n.frames[i]? = some nested →
    nested.parent = past.parent? i ∧ ∀ name, nested.frame.find? name = past.first? i name
  smaller : ∀ i parent, past.parent? i = some parent → parent < i
  outside : ∀ i, past.size ≤ i → past.parent? i = none ∧ ∀ name, past.first? i name = none

variable {past : History} {n n' : Nest} {i scope : Nat} {b previous : Binding} {name : String}

theorem find?_push (f : Frame) (b : Binding) (name : String) :
    Frame.find? { f with bindings := f.bindings ++ [b] } name =
      (f.find? name).or (if b.name = name then some b else none) := by
  by_cases h : b.name = name <;> simp [Frame.find?, List.find?_append, h]

/-- A declaration in a scope that there is. -/
theorem declare_eq {nested : Nested} (hi : n.frames[i]? = some nested) (b : Binding) :
    n.declare i b = match nested.frame.find? b.name with
      | some previous => .error previous
      | none => .ok ⟨n.frames.set i
          { nested with frame := { nested.frame with
            bindings := nested.frame.bindings ++ [b] } }⟩ := by
  unfold declare Frame.declare
  rw [hi]
  dsimp only
  cases nested.frame.find? b.name <;> rfl

namespace Told

theorem root (flags : Flags) : Told [] (root ⟨flags, []⟩) where
  size := rfl
  frame i nested h := by
    cases i with
    | zero =>
      cases h
      exact ⟨rfl, fun _ => rfl⟩
    | succ i => cases h
  smaller i parent h := by cases h
  outside i _ := ⟨rfl, fun _ => rfl⟩

theorem opened (h : Told past n) (hi : i < n.frames.length) (change : Flags → Flags) :
    Told (.opened i :: past) (n.child i change) where
  size := by simp [child, h.size, History.size]
  frame j nested hj := by
    have hsize := h.size
    have hlength := (List.getElem?_eq_some_iff.1 hj).1
    by_cases hlast : j < n.frames.length
    · rw [child, List.getElem?_append_left hlast] at hj
      rw [parent?, if_neg (by omega)]
      exact h.frame j nested hj
    · obtain rfl : j = n.frames.length := by
        rw [child, List.length_append, List.length_singleton] at hlength
        omega
      rw [child, List.getElem?_concat_length] at hj
      cases hj
      rw [parent?, if_pos hsize]
      exact ⟨rfl, fun name => ((h.outside _ (Nat.le_of_eq hsize.symm)).2 name).symm⟩
  smaller j parent hj := by
    rw [parent?] at hj
    split at hj
    next heq =>
      cases hj
      rw [heq, ← h.size]
      exact hi
    next => exact h.smaller j parent hj
  outside j hj := by
    obtain ⟨hparent, hfirst⟩ := h.outside j (Nat.le_of_succ_le hj)
    refine ⟨?_, hfirst⟩
    rw [parent?, if_neg (Nat.ne_of_gt hj), hparent]

theorem bound (h : Told past n) (hi : i < n.frames.length) (hb : n.declare i b = .ok n') :
    Told (.bound i b :: past) n' := by
  have hframe := List.getElem?_eq_getElem hi
  rw [declare_eq hframe] at hb
  split at hb
  next => cases hb
  next hfree =>
    cases hb
    refine ⟨by simp [h.size, History.size], fun j nested hj => ?_, h.smaller, fun j hj => ?_⟩
    · rw [List.getElem?_set] at hj
      split at hj
      next heq =>
        subst heq
        cases hj
        obtain ⟨hparent, hfind⟩ := h.frame i _ hframe
        refine ⟨hparent, fun name => ?_⟩
        rw [find?_push, hfind, first?]
        simp
      next hne =>
        obtain ⟨hparent, hfind⟩ := h.frame j nested hj
        refine ⟨hparent, fun name => ?_⟩
        rw [hfind, first?, if_neg (fun h => hne h.1), Option.or_none]
    · obtain ⟨hparent, hfirst⟩ := h.outside j hj
      have hne : i ≠ j := Nat.ne_of_lt (Nat.lt_of_lt_of_le hi (h.size ▸ hj))
      refine ⟨hparent, fun name => ?_⟩
      rw [first?, hfirst, if_neg (fun h => hne h.1), Option.or_none]

theorem of_built (h : Built past n) : Told past n := by
  induction h with
  | root flags => exact root flags
  | opened _ hi change ih => exact ih.opened hi change
  | bound _ hi hb ih => exact ih.bound hi hb
  | refused _ _ _ ih => exact ⟨ih.size, ih.frame, ih.smaller, ih.outside⟩

/-! ### Lookups -/

/-- With enough fuel, a path goes on from the parent. -/
theorem pathWith_eq (h : Told past n) {fuel : Nat} (hfuel : i < fuel) :
    n.pathWith fuel i = match n.frames[i]? with
      | none => []
      | some nested => nested.frame :: (past.parent? i).elim [] n.path := by
  induction i using Nat.strongRecOn generalizing fuel with
  | ind i ih =>
    obtain ⟨fuel, rfl⟩ := Nat.exists_eq_add_one_of_ne_zero (Nat.ne_zero_of_lt hfuel)
    rw [pathWith]
    cases hframe : n.frames[i]? with
    | none => rfl
    | some nested =>
      dsimp only
      rw [(h.frame i nested hframe).1]
      cases hparent : past.parent? i with
      | none => rfl
      | some parent =>
        have hlt := h.smaller i parent hparent
        have hsame := (ih parent hlt (Nat.lt_of_lt_of_le hlt (Nat.le_of_lt_succ hfuel))).trans
          (ih parent hlt (Nat.lt_succ_self parent)).symm
        exact congrArg (nested.frame :: ·) hsame

/-- A name means what its own scope says, or else what the scope around it says. -/
theorem lookup?_eq (h : Told past n) (scope : Nat) (name : String) :
    n.lookup? scope name = ((past.first? scope name).map (·.symbol)).or
      ((past.parent? scope).bind (n.lookup? · name)) := by
  rw [lookup?, path, h.pathWith_eq (Nat.lt_succ_self scope)]
  cases hframe : n.frames[scope]? with
  | none =>
    obtain ⟨hparent, hfirst⟩ := h.outside scope (h.size ▸ List.getElem?_eq_none_iff.1 hframe)
    rw [hparent, hfirst]
    rfl
  | some nested =>
    dsimp only
    rw [Scope.lookup?, List.findSome?_cons, (h.frame scope nested hframe).2]
    cases past.first? scope name with
    | some b => rfl
    | none =>
      cases past.parent? scope with
      | none => rfl
      | some parent => rfl

/-- What a name means is what the nearest scope that binds it says. -/
theorem lookup?_eq_some_iff (h : Told past n) {symbol : Symbol} :
    n.lookup? scope name = some symbol ↔ ∃ target b, past.Sees name scope target ∧
      past.first? target name = some b ∧ b.symbol = symbol := by
  constructor
  · induction scope using Nat.strongRecOn with
    | ind scope ih =>
      intro hlookup
      rw [h.lookup?_eq] at hlookup
      cases hfirst : past.first? scope name with
      | some b =>
        rw [hfirst] at hlookup
        exact ⟨scope, b, .here scope, hfirst, Option.some.inj hlookup⟩
      | none =>
        rw [hfirst] at hlookup
        obtain ⟨parent, hparent, hlookup⟩ := Option.bind_eq_some_iff.1 hlookup
        obtain ⟨target, b, hsees, hb⟩ := ih parent (h.smaller _ _ hparent) hlookup
        exact ⟨target, b, .outer hfirst hparent hsees, hb⟩
  · rintro ⟨target, b, hsees, hb, rfl⟩
    induction hsees with
    | here scope =>
      rw [h.lookup?_eq, hb]
      rfl
    | outer hfree hparent _ ih =>
      rw [h.lookup?_eq, hfree, hparent]
      exact ih hb

/-! ### Declarations -/

theorem declare_eq_error_iff (h : Told past n) (hi : i < n.frames.length) :
    n.declare i b = .error previous ↔ past.first? i b.name = some previous := by
  have hframe := List.getElem?_eq_getElem hi
  rw [declare_eq hframe, (h.frame i _ hframe).2]
  cases past.first? i b.name <;> simp

end Told

/-- A new binding is what its name means in the scopes that see the place it is made in. -/
theorem lookup?_of_sees (h : Told (.bound i b :: past) n) (hfree : past.first? i b.name = none)
    (hsees : past.Sees b.name scope i) : n.lookup? scope b.name = some b.symbol := by
  induction hsees with
  | here scope =>
    rw [h.lookup?_eq, first?, hfree, if_pos ⟨rfl, rfl⟩]
    rfl
  | @outer scope parent target hnearer hparent _ ih =>
    rw [h.lookup?_eq, first?, hnearer]
    by_cases hhere : target = scope
    · rw [if_pos ⟨hhere, rfl⟩]
      rfl
    · rw [if_neg (fun h => hhere h.1), parent?, hparent]
      exact ih h hfree

/-- Every other lookup is as it was. -/
theorem lookup?_of_not_sees (h : Told past n) (h' : Told (.bound i b :: past) n')
    (hsees : ¬ (name = b.name ∧ past.Sees name scope i)) :
    n'.lookup? scope name = n.lookup? scope name := by
  induction scope using Nat.strongRecOn with
  | ind scope ih =>
    have hhere : ¬ (i = scope ∧ b.name = name) := by
      rintro ⟨rfl, rfl⟩
      exact hsees ⟨rfl, .here i⟩
    rw [h.lookup?_eq, h'.lookup?_eq, first?, if_neg hhere, Option.or_none, parent?]
    cases hfirst : past.first? scope name with
    | some _ => rfl
    | none =>
      cases hparent : past.parent? scope with
      | none => rfl
      | some parent =>
        refine ih parent (h.smaller _ _ hparent) ?_
        rintro ⟨hname, houter⟩
        exact hsees ⟨hname, .outer hfirst hparent houter⟩

/-- A frame that binds no name twice comes of its declarations. -/
theorem built_root (flags : Flags) (bindings : List Binding)
    (hnodup : (bindings.map (·.name)).Nodup) :
    Built (bindings.reverse.map (.bound 0)) (root ⟨flags, bindings⟩) := by
  induction bindings using List.reverseRecOn with
  | nil => exact .root flags
  | append_singleton bindings b ih =>
    rw [List.map_append, List.nodup_append] at hnodup
    have hfree : Frame.find? ⟨flags, bindings⟩ b.name = none := by
      rw [Frame.find?, List.find?_eq_none]
      intro other hother hname
      exact hnodup.2.2 _ (List.mem_map_of_mem hother) _ (List.mem_singleton_self _)
        (beq_iff_eq.1 hname)
    rw [List.reverse_append, List.map_append]
    refine (ih hnodup.1).bound (Nat.zero_lt_one) ?_
    rw [declare_eq rfl, hfree]
    rfl

/-! ### Innermost bindings -/

/-- The tree that is there after a declaration, whether or not it succeeds. -/
def declared (n : Nest) (i : Nat) (b : Binding) : Nest := (n.declare i b).toOption.getD n

/-- In a tree that is built in any way, a name means what the first successful declaration of it
in the nearest scope says. A declaration fails if and only if its own scope binds the name, with
what that scope binds it to, and then all lookups are as before. If it does not fail, it is what
its name means in its own scope and in those inside it that have no nearer binding, and all other
lookups are as before. -/
theorem innermost_of_built (h : Built past n) :
    (∀ scope name symbol, n.lookup? scope name = some symbol ↔
      ∃ target b, past.Sees name scope target ∧ past.first? target name = some b ∧
        b.symbol = symbol) ∧
    ∀ i b, i < n.frames.length →
      (∀ previous, n.declare i b = .error previous ↔ past.first? i b.name = some previous) ∧
      (∀ previous, past.first? i b.name = some previous →
        ∀ scope name, (n.declared i b).lookup? scope name = n.lookup? scope name) ∧
      (past.first? i b.name = none → ∀ scope name,
        (name = b.name ∧ past.Sees name scope i →
          (n.declared i b).lookup? scope name = some b.symbol) ∧
        (¬ (name = b.name ∧ past.Sees name scope i) →
          (n.declared i b).lookup? scope name = n.lookup? scope name)) := by
  have htold := Told.of_built h
  refine ⟨fun scope name symbol => htold.lookup?_eq_some_iff, fun i b hi => ?_⟩
  have herror : ∀ previous,
      n.declare i b = .error previous ↔ past.first? i b.name = some previous :=
    fun previous => htold.declare_eq_error_iff hi
  refine ⟨herror, fun previous hbound scope name => ?_, fun hfree scope name => ?_⟩
  · rw [declared, (herror previous).2 hbound]
    rfl
  · cases hb : n.declare i b with
    | error previous =>
      rw [(herror previous).1 hb] at hfree
      cases hfree
    | ok n' =>
      rw [declared, hb]
      have htold' := htold.bound hi hb
      constructor
      · rintro ⟨rfl, hsees⟩
        exact lookup?_of_sees htold' hfree hsees
      · exact lookup?_of_not_sees htold htold'

/-- The `π` of a scope inside the library hides that of the library there and only there. A second
one is refused, and what is then declared outside is seen inside. -/
theorem innermost_of_built_library : ∃ past n,
    let inner : Binding := ⟨"π", .var ⟨16, "π", .int, true, false⟩, none⟩
    let outer : Binding := ⟨"ale", .var ⟨17, "ale", .int, true, false⟩, none⟩
    Built past n ∧ n.lookup? 1 "π" = some inner.symbol ∧
      n.lookup? 0 "π" = some (.var Library.pi) ∧
      n.declare 1 inner = .error inner ∧
      (n.declared 0 outer).lookup? 1 "ale" = some outer.symbol := by
  have hroot := built_root {} Library.frame.bindings (by decide)
  have hchild := hroot.opened Nat.zero_lt_one id
  have h := hchild.bound (i := 1) (b := ⟨"π", .var ⟨16, "π", .int, true, false⟩, none⟩)
    Nat.one_lt_two rfl
  obtain ⟨hlookup, hdeclare⟩ := innermost_of_built h
  refine ⟨_, _, h, (hlookup 1 "π" _).2 ⟨1, _, .here 1, rfl, rfl⟩,
    (hlookup 0 "π" _).2 ⟨0, _, .here 0, rfl, rfl⟩, (hdeclare 1 _ Nat.one_lt_two).1 _ |>.2 rfl, ?_⟩
  exact ((hdeclare 0 _ Nat.zero_lt_two).2.2 rfl 1 "ale").1
    ⟨rfl, .outer rfl rfl (.here 0)⟩

end Nest

end Dragon
