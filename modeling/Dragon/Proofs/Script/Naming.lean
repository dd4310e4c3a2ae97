import Dragon.Proofs.Script.Entities
import Dragon.Proofs.Typing.Placed
import Mathlib.Data.List.Perm.Basic

/-!
# Giving names

Names are numbered one after the other, so names that are given along the way have exactly the
numbers between the counts before and after. An entity that is not known gets a new name, and keeps
it.
-/
namespace Dragon

namespace Script

variable {names names' names'' : Names} {es es' : List Entity} {cs cs' ds ds' : List Name}

/-! ### Steps of naming -/

/-- Names are given to entities and counters; `declared` are all of them. -/
structure Gives (names names' : Names) (entities : List Entity) (counters declared : List Name) :
    Prop where
  numbers : ∃ k, names'.count = names.count + k ∧
    (declared.map Name.number).Perm (List.range' (names.count + 1) k)
  given : ∃ new, names'.given = new ++ names.given ∧ (new.map Prod.fst).Perm entities ∧
    declared.Perm (new.map Prod.snd ++ counters)

namespace Gives

theorem refl (names : Names) : Gives names names [] [] [] :=
  ⟨⟨0, rfl, .refl _⟩, [], rfl, .refl _, .refl _⟩

theorem trans (h : Gives names names' es cs ds) (h' : Gives names' names'' es' cs' ds') :
    Gives names names'' (es ++ es') (cs ++ cs') (ds ++ ds') := by
  obtain ⟨⟨k, hk, hnumbers⟩, new, hnew, hes, hds⟩ := h
  obtain ⟨⟨k', hk', hnumbers'⟩, new', hnew', hes', hds'⟩ := h'
  refine ⟨⟨k + k', by omega, ?_⟩, new' ++ new, ?_, ?_, ?_⟩
  · have hrange : List.range' (names.count + 1) (k + k') =
        List.range' (names.count + 1) k ++ List.range' (names'.count + 1) k' := by
      rw [hk, Nat.add_right_comm, List.range'_append_1]
    rw [hrange, List.map_append]
    exact hnumbers.append hnumbers'
  · rw [hnew', hnew, List.append_assoc]
  · rw [List.map_append]
    exact List.perm_append_comm.trans (hes.append hes')
  · refine List.perm_iff_count.2 fun n => ?_
    have hcount := hds.count_eq n
    have hcount' := hds'.count_eq n
    simp only [List.map_append, List.count_append] at hcount hcount' ⊢
    omega

theorem perm (h : Gives names names' es cs ds) (hes : es.Perm es') (hds : ds.Perm ds') :
    Gives names names' es' cs ds' := by
  obtain ⟨⟨k, hk, hnumbers⟩, new, hnew, hentities, hdeclared⟩ := h
  exact ⟨⟨k, hk, ((hds.map _).symm).trans hnumbers⟩, new, hnew, hentities.trans hes,
    hds.symm.trans hdeclared⟩

/-- Other entities keep their names. -/
theorem lookup (h : Gives names names' es cs ds) {x : Entity} (hx : x ∉ es) :
    names'.given.lookup x = names.given.lookup x := by
  obtain ⟨new, hnew, hes, -⟩ := h.given
  have hnone : new.lookup x = none := by
    refine List.lookup_eq_none_iff.2 fun p hp => ?_
    have hne : x ≠ p.1 := fun heq => hx (hes.mem_iff.1 (heq ▸ List.mem_map_of_mem hp))
    simpa using hne
  rw [hnew, List.lookup_append, hnone, Option.none_or]

/-- No two names have the same number. -/
theorem nodup_numbers (h : Gives names names' es cs ds) : (ds.map Name.number).Nodup := by
  obtain ⟨k, -, hnumbers⟩ := h.numbers
  exact hnumbers.nodup_iff.2 List.nodup_range'

end Gives

/-- Different entities that have no names yet. -/
structure Ready (names : Names) (entities : List Entity) : Prop where
  nodup : entities.Nodup
  new : ∀ x ∈ entities, names.given.lookup x = none

namespace Ready

theorem nil (names : Names) : Ready names [] := ⟨List.nodup_nil, fun _ hx => nomatch hx⟩

theorem left (h : Ready names (es ++ es')) : Ready names es :=
  ⟨(List.nodup_append.1 h.nodup).1, fun x hx => h.new x (List.mem_append_left _ hx)⟩

theorem perm (h : Ready names es) (hes : es.Perm es') : Ready names es' :=
  ⟨hes.nodup_iff.1 h.nodup, fun x hx => h.new x (hes.mem_iff.2 hx)⟩

/-- When some have been given names, the others are left. -/
theorem after (h : Ready names (es ++ es')) (hgives : Gives names names' es cs ds) :
    Ready names' es' := by
  obtain ⟨-, hnodup, hdisjoint⟩ := List.nodup_append.1 h.nodup
  refine ⟨hnodup, fun x hx => ?_⟩
  have hother : x ∉ es := fun hmem => hdisjoint x hmem x hx rfl
  rw [hgives.lookup hother]
  exact h.new x (List.mem_append_right _ hx)

end Ready

/-- The names that are given stay as they are. -/
def Names.KeptIn (names names' : Names) : Prop :=
  ∀ x n, names.given.lookup x = some n → names'.given.lookup x = some n

theorem Names.KeptIn.trans (h : names.KeptIn names') (h' : names'.KeptIn names'') :
    names.KeptIn names'' :=
  fun x n hn => h' x n (h x n hn)

/-- No name is taken from what has one. -/
theorem Gives.kept (h : Gives names names' es cs ds) (hready : Ready names es) :
    names.KeptIn names' := by
  intro x n hn
  have hother : x ∉ es := fun hmem => by
    rw [hready.new x hmem] at hn
    cases hn
  exact (h.lookup hother).trans hn

/-! ### Writers of names -/

namespace Writer

variable {α β : Type} {m : Writer α} {f : α → Writer β}

theorem bind_eq {a : α} (h : m names = .ok (a, names')) : (m >>= f) names = f a names' := by
  show (m names >>= fun p => f p.1 p.2) = _
  rw [h]
  rfl

theorem fresh_gives (names : Names) (base : String) : ∃ n names',
    fresh base names = .ok (n, names') ∧ Gives names names' [] [n] [n] :=
  ⟨_, _, rfl, ⟨1, rfl, .refl _⟩, [], rfl, .refl _, .refl _⟩

theorem nameOf_known {x : Entity} {n : Name} (h : names.given.lookup x = some n) (base : String) :
    nameOf x base names = .ok (n, names) := by
  unfold nameOf
  rw [h]

theorem nameOf_gives {x : Entity} (h : names.given.lookup x = none) (base : String) : ∃ n names',
    nameOf x base names = .ok (n, names') ∧ Gives names names' [x] [] [n] ∧
      names'.given.lookup x = some n := by
  unfold nameOf
  rw [h]
  refine ⟨_, _, rfl, ⟨⟨1, rfl, .refl _⟩, [_], rfl, .refl _, .refl _⟩, ?_⟩
  simp

/-- Names for entities in order. -/
def nameAll : List (Entity × String) → Writer (List Name)
  | [] => pure []
  | (x, base) :: rest => do
    let n ← nameOf x base
    let ns ← nameAll rest
    pure (n :: ns)

theorem nameAll_gives (items : List (Entity × String))
    (h : Ready names (items.map Prod.fst)) : ∃ ns names',
    nameAll items names = .ok (ns, names') ∧ Gives names names' (items.map Prod.fst) [] ns ∧
      ∀ x ∈ items.map Prod.fst, ∃ n ∈ ns, names'.given.lookup x = some n := by
  induction items generalizing names with
  | nil => exact ⟨[], names, rfl, .refl names, by simp⟩
  | cons item rest ih =>
    obtain ⟨x, base⟩ := item
    obtain ⟨n, names₁, hrun, hgives, hlookup⟩ := nameOf_gives (h.new x List.mem_cons_self) base
    have hready : Ready names ([x] ++ rest.map Prod.fst) := h
    obtain ⟨ns, names₂, hrun', hgives', hlookups⟩ := ih (hready.after hgives)
    refine ⟨n :: ns, names₂, ?_, hgives.trans hgives', ?_⟩
    · rw [nameAll, bind_eq hrun, bind_eq hrun']
      rfl
    · have hother : x ∉ rest.map Prod.fst := (List.nodup_cons.1 h.nodup).1
      refine List.forall_mem_cons.2 ⟨⟨n, List.mem_cons_self, ?_⟩, fun y hy => ?_⟩
      · rw [hgives'.lookup hother, hlookup]
      · obtain ⟨m, hm, hy⟩ := hlookups y hy
        exact ⟨m, List.mem_cons_of_mem _ hm, hy⟩

theorem varNames_eq (vars : List Var) :
    varNames vars = nameAll (vars.map fun v => (.ofVar v, v.name)) := by
  induction vars with
  | nil => rfl
  | cons v rest ih =>
    rw [varNames, ih]
    rfl

theorem paramNames_eq (params : List ForgeParam) :
    paramNames params = nameAll (params.map fun p => (.ofParam p, p.name)) := by
  induction params with
  | nil => rfl
  | cons p rest ih =>
    rw [paramNames, ih]
    rfl

end Writer

/-! ### Symbols with names -/

end Script

/-- Whether a symbol is one of the library. -/
def Symbol.intrinsic : Symbol → Bool
  | var v => v.intrinsic
  | func f _ => f.intrinsic
  | param _ | object _ => false

namespace Script

/-- A symbol of the library, or one that has a visible name. -/
def Visible (names : Names) (visible : List Name) (symbol : Symbol) : Prop :=
  symbol.intrinsic = true ∨
    ∃ n ∈ visible, names.given.lookup (.symbol symbol.id) = some n

/-- All symbols of a context are visible. -/
def Knows (Γ : Context) (names : Names) (visible : List Name) : Prop :=
  ∀ symbol ∈ Γ.symbols, Visible names visible symbol

variable {Γ : Context} {visible visible' : List Name}

theorem knows_initial (names : Names) (visible : List Name) : Knows .initial names visible := by
  intro symbol hsymbol
  have hall : Context.initial.symbols.all Symbol.intrinsic = true := by decide
  exact .inl (List.all_eq_true.1 hall symbol hsymbol)

namespace Knows

theorem mono (h : Knows Γ names visible) (hvisible : visible ⊆ visible') :
    Knows Γ names visible' := by
  intro symbol hsymbol
  obtain hlibrary | ⟨n, hn, hlookup⟩ := h symbol hsymbol
  · exact .inl hlibrary
  · exact .inr ⟨n, hvisible hn, hlookup⟩

/-- Symbols keep the names that they have. -/
theorem after (h : Knows Γ names visible) (hready : Ready names es)
    (hgives : Gives names names' es cs ds) : Knows Γ names' visible := by
  intro symbol hsymbol
  obtain hlibrary | ⟨n, hn, hlookup⟩ := h symbol hsymbol
  · exact .inl hlibrary
  · exact .inr ⟨n, hn, hgives.kept hready _ _ hlookup⟩

theorem bind (h : Knows Γ names visible) {symbols : List Symbol}
    (hsymbols : ∀ symbol ∈ symbols, Visible names visible symbol) :
    Knows (Γ.bind symbols) names visible :=
  List.forall_mem_append.2 ⟨hsymbols, h⟩

/-- New symbols with the names that were given to them. -/
theorem declare (h : Knows Γ names visible) (hready : Ready names es)
    (hgives : Gives names names' es cs ds) (symbols : List Symbol) (ns : List Name)
    (hnames : ∀ symbol ∈ symbols, ∃ n ∈ ns,
      names'.given.lookup (.symbol symbol.id) = some n) :
    Knows (Γ.bind symbols) names' (ns ++ visible) := by
  refine ((h.after hready hgives).mono (List.subset_append_right _ _)).bind fun symbol hsymbol => ?_
  obtain ⟨n, hn, hlookup⟩ := hnames symbol hsymbol
  exact .inr ⟨n, List.mem_append_left _ hn, hlookup⟩

/-- Fewer symbols, and more names. -/
theorem restrict {Γ' : Context} (h : Knows Γ names visible) (hsymbols : Γ'.symbols ⊆ Γ.symbols)
    (hvisible : visible ⊆ visible') : Knows Γ' names visible' :=
  fun symbol hsymbol => h.mono hvisible symbol (hsymbols hsymbol)

theorem of_bind {symbols : List Symbol} (h : Knows (Γ.bind symbols) names visible) :
    Knows Γ names visible :=
  fun symbol hsymbol => h symbol (List.mem_append_right _ hsymbol)

end Knows

end Script

end Dragon
