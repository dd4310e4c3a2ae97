import Dragon.Editor.Document
import Dragon.Proofs.Check.Top
import Dragon.Proofs.Token.Joined
import Dragon.Proofs.Tree.Derived
import Dragon.Proofs.Tree.Nesting

/-!
# Questions about a document

Hovering and completion read the names at the top of a program as its check has left them. They fail
exactly for a function whose signature could not be resolved: it is bound, but has no type to show.
-/
namespace Dragon

/-- What is left at the top once a program has been checked. -/
theorem Checked.incomplete_iff {N : Kind → String → Prop} {tree : Tree.Program}
    (htree : Tree.blockNumerals N tree.statements) (name : String) :
    (ofTree tree).state.globals.Incomplete name ↔
      Check.Unfinishes tree.statements .initial name := by
  have hinitial : Check.State.initial.scope.Settled := ⟨{}, rfl, by simp⟩
  have hends := Check.block_finishes hinitial htree
  unfold Check.Ends at hends
  unfold ofTree EStateM.run
  cases hrun : Check.block tree.statements .initial with
  | error failure state =>
    rw [hrun] at hends
    exact hends name
  | ok statements state =>
    rw [hrun] at hends
    obtain ⟨hsettled, hnot⟩ := hends
    have hglobals := Check.State.globals_of_suffix hsettled.length (List.suffix_refl _)
    refine iff_of_false ?_ (hnot name)
    show ¬ state.globals.Incomplete name
    rw [hglobals]
    exact hsettled.not_incomplete name

namespace Editor

/-- Only a function without a type can not be shown. -/
theorem display_eq_error_iff (objects : Objects) (name : String) (symbol : Symbol) :
    (∃ e, display objects name symbol = .error e) ↔ ¬ symbol.Complete := by
  cases symbol with
  | func f complete => cases complete <;> simp [display, Symbol.Complete]
  | _ => simp [display, Symbol.Complete]

/-- The first binding of a name, when another one comes first. -/
theorem find?_cons_of_ne {b c : Binding} (rest : List Binding) (hne : c.name ≠ b.name) :
    (c :: rest).find? (·.name == b.name) = rest.find? (·.name == b.name) :=
  List.find?_cons_of_neg (by simpa using hne)

/-- The names of bindings can be listed unless the first binding of one can not be shown. -/
theorem symbolItems_eq_error_iff (objects : Objects) (seen : List String) (bs : List Binding) :
    (∃ e, symbolItems objects seen bs = .error e) ↔
      ∃ b, bs.find? (·.name == b.name) = some b ∧ ¬ b.symbol.Complete ∧ b.name ∉ seen := by
  induction bs generalizing seen with
  | nil => simp [symbolItems]
  | cons c rest ih =>
    rw [symbolItems]
    by_cases hseen : c.name ∈ seen
    · rw [if_pos (by simpa using hseen), ih]
      constructor
      · rintro ⟨b, hb, hsymbol, hname⟩
        have hne : c.name ≠ b.name := fun h => hname (h ▸ hseen)
        exact ⟨b, (find?_cons_of_ne rest hne).trans hb, hsymbol, hname⟩
      · rintro ⟨b, hb, hsymbol, hname⟩
        have hne : c.name ≠ b.name := fun h => hname (h ▸ hseen)
        exact ⟨b, (find?_cons_of_ne rest hne).symm.trans hb, hsymbol, hname⟩
    · rw [if_neg (by simpa using hseen)]
      by_cases hc : c.symbol.Complete
      · obtain ⟨detail, hdetail⟩ : ∃ detail, display objects c.name c.symbol = .ok detail := by
          cases hdisplay : display objects c.name c.symbol with
          | ok detail => exact ⟨detail, rfl⟩
          | error e => exact absurd hc ((display_eq_error_iff objects c.name _).1 ⟨e, hdisplay⟩)
        have hrest : (∃ e, (do
            let detail ← display objects c.name c.symbol
            let items ← symbolItems objects (c.name :: seen) rest
            pure ((⟨c.name, .ofRole (roleOf objects c.symbol), some detail⟩ : Item) :: items)) =
              .error e) ↔ ∃ e, symbolItems objects (c.name :: seen) rest = .error e := by
          rw [hdetail]
          cases symbolItems objects (c.name :: seen) rest with
          | ok items => exact iff_of_false nofun nofun
          | error e => exact iff_of_true ⟨e, rfl⟩ ⟨e, rfl⟩
        rw [hrest, ih]
        constructor
        · rintro ⟨b, hb, hsymbol, hname⟩
          obtain ⟨hne, hname⟩ := not_or.1 (mt List.mem_cons.2 hname)
          exact ⟨b, (find?_cons_of_ne rest (Ne.symm hne)).trans hb, hsymbol, hname⟩
        · rintro ⟨b, hb, hsymbol, hname⟩
          have hne : c.name ≠ b.name := by
            intro h
            rw [List.find?_cons_of_pos (by simpa using h)] at hb
            cases hb
            exact hsymbol hc
          refine ⟨b, (find?_cons_of_ne rest hne).symm.trans hb, hsymbol, ?_⟩
          simpa using ⟨Ne.symm hne, hname⟩
      · obtain ⟨e, he⟩ := (display_eq_error_iff objects c.name c.symbol).2 hc
        refine iff_of_true ⟨e, ?_⟩ ⟨c, List.find?_cons_of_pos (by simp), hc, hseen⟩
        rw [he]
        rfl

/-- What a name means in a scope is the first binding of it in all frames. -/
theorem lookup?_eq_find? (scope : Scope) (name : String) :
    scope.lookup? name =
      ((scope.flatMap (·.bindings)).find? (·.name == name)).map (·.symbol) := by
  induction scope with
  | nil => rfl
  | cons frame outer ih =>
    rw [Scope.lookup?_cons, List.flatMap_cons, List.find?_append, ih, Frame.find?]
    cases frame.bindings.find? (·.name == name) <;> rfl

theorem Symbol.not_complete_iff (symbol : Symbol) :
    ¬ symbol.Complete ↔ ∃ f, symbol = .func f false := by
  cases symbol with
  | func f complete => simp [Symbol.Complete]
  | _ => simp [Symbol.Complete]

theorem Document.describe_eq_error_iff {d : Document} {globals : Globals}
    (hglobals : d.globals = some globals) {word : String} (hword : word ≠ "") :
    (∃ e, d.describe word = .error e) ↔ globals.scope.Incomplete word := by
  have hempty : word.isEmpty = false := by simpa using hword
  rw [Document.describe, hglobals]
  simp only [hempty, Bool.false_eq_true, if_false]
  cases hlookup : globals.scope.lookup? word with
  | none => simp [Scope.Incomplete, hlookup]
  | some symbol =>
    have hdisplay := display_eq_error_iff globals.objects word symbol
    rw [Symbol.not_complete_iff] at hdisplay
    have hincomplete : globals.scope.Incomplete word ↔ ∃ f, symbol = .func f false := by
      simp [Scope.Incomplete, hlookup]
    rw [hincomplete, ← hdisplay]
    dsimp only
    cases display globals.objects word symbol with
    | ok text => exact iff_of_false nofun nofun
    | error e => exact iff_of_true ⟨e, rfl⟩ ⟨e, rfl⟩

theorem completions_eq_error_iff {d : Document} {globals : Globals}
    (hglobals : d.globals = some globals) :
    (∃ e, completions (some d) = .error e) ↔
      ∃ name, globals.scope.Incomplete name ∧ name ∉ words := by
  have hitems := symbolItems_eq_error_iff globals.objects words
    (globals.scope.flatMap (·.bindings))
  have hcompletions : (∃ e, completions (some d) = .error e) ↔
      ∃ e, symbolItems globals.objects words (globals.scope.flatMap (·.bindings)) = .error e := by
    simp only [completions, Option.bind_some, hglobals]
    cases symbolItems globals.objects words (globals.scope.flatMap (·.bindings)) with
    | ok items => exact iff_of_false nofun nofun
    | error e => exact iff_of_true ⟨e, rfl⟩ ⟨e, rfl⟩
  rw [hcompletions, hitems]
  constructor
  · rintro ⟨b, hb, hsymbol, hname⟩
    obtain ⟨f, hf⟩ := (Symbol.not_complete_iff b.symbol).1 hsymbol
    refine ⟨b.name, ⟨f, ?_⟩, hname⟩
    rw [lookup?_eq_find?, hb, Option.map_some, hf]
  · rintro ⟨name, ⟨f, hlookup⟩, hname⟩
    rw [lookup?_eq_find?] at hlookup
    obtain ⟨b, hb, hf⟩ := Option.map_eq_some_iff.1 hlookup
    obtain rfl : b.name = name := by simpa using List.find?_some hb
    exact ⟨b, hb, (Symbol.not_complete_iff b.symbol).2 ⟨f, hf⟩, hname⟩

theorem analyze_of_tree {name source : String} {tree : Tree.Program}
    (h : Tree.Program.ofSource name source = .ok tree) :
    (analyze name source).document.tree = some tree ∧
      (analyze name source).document.globals =
        some ⟨(Checked.ofTree tree).state.globals, (Checked.ofTree tree).state.objects⟩ := by
  unfold analyze
  rw [h]
  dsimp only
  split <;> exact ⟨rfl, rfl⟩

/-- Names of functions in source texts are not empty. -/
theorem ne_empty_of_unfinishes {name source word : String} {tree : Tree.Program}
    (h : Tree.Program.ofSource name source = .ok tree)
    (hword : Check.Unfinishes tree.statements .initial word) : word ≠ "" := by
  have hnamed : Tree.blockNamed (· ≠ "") tree.statements := by
    refine Tree.named_of_ofSource ?_ h
    rintro s ⟨c, rest, hs, -⟩ rfl
    simp at hs
  obtain ⟨before, t, after, accepted, s₁, heq, -, ht⟩ := hword
  have hmem := Tree.blockNamed_iff.1 hnamed t (by simp [heq])
  match t, ht, hmem with
  | .function (.mk f ps result body span), ht, hmem => exact ht.1 ▸ hmem.1

/-- Hovering over a word and completion fail just for a function at the top that is left without a
type: all statements before it are accepted, its name is not bound yet, and some name in its
parameters or its result is not that of a type. Completion does not come to it if it is called
like a type. -/
theorem queries_eq_error_iff (name source : String) :
    let d := (analyze name source).document
    (∀ word, (∃ e, d.describe word = .error e) ↔
      ∃ tree, d.tree = some tree ∧ Check.Unfinishes tree.statements .initial word) ∧
    ((∃ e, completions (some d) = .error e) ↔
      ∃ tree f, d.tree = some tree ∧ Check.Unfinishes tree.statements .initial f ∧ f ∉ words) := by
  intro d
  cases htree : Tree.Program.ofSource name source with
  | error fault =>
    have hd : d = ⟨source, none, none, [fault.diagnostic]⟩ := by
      simp only [d, analyze, htree]
    rw [hd]
    exact ⟨fun word => iff_of_false nofun (by simp), iff_of_false nofun (by simp)⟩
  | ok tree =>
    obtain ⟨hdtree, hglobals⟩ := analyze_of_tree htree
    obtain ⟨stream, hstream, -⟩ := Tree.bind_eq_ok htree
    have hnumerals : Tree.blockNumerals (fun _ _ => True) tree.statements :=
      Tree.numerals_of_ofSource hstream (fun _ _ => trivial) htree
    have hleft := Checked.incomplete_iff hnumerals
    constructor
    · intro word
      by_cases hword : word = ""
      · subst hword
        have hempty : d.describe "" = .ok none := by
          rw [Document.describe, hglobals]
          rfl
        refine iff_of_false (by simp [hempty]) ?_
        rintro ⟨tree', htree', hunfinished⟩
        cases hdtree.symm.trans htree'
        exact ne_empty_of_unfinishes htree hunfinished rfl
      · rw [Document.describe_eq_error_iff hglobals hword, hleft, hdtree]
        simp
    · rw [completions_eq_error_iff hglobals, hdtree]
      simp [hleft]

/-- A parameter of a type that is not declared: the document is analyzed, with a diagnostic, and
neither hovering over the function nor completion gives an answer. -/
theorem queries_stub :
    let analysis := analyze "" "don f(x: nope) \x7b\x7d"
    analysis.failure.isNone = true ∧ analysis.document.diagnostics.length = 1 ∧
      analysis.document.describe "f" = .error ⟨"f"⟩ ∧
      completions (some analysis.document) = .error ⟨"f"⟩ := by
  decide +kernel

end Editor

end Dragon
