import Dragon.Proofs.Optimize.Inside
import Dragon.Proofs.Optimize.Placed

/-!
# Jumps and references to objects

Where jumps, references to the object itself and parameters of forges stand. Each of them is taken
with all that encloses it, and what encloses it has to have a meaning for it. In a placed program it
has, by the flags and the symbols of the context, and optimization keeps programs placed.
-/
namespace Dragon

namespace Typed

/-! ### Sites -/

/-- What needs to be enclosed by something. -/
inductive Subject where
  | break_
  | return_
  | self (type : Ty)
  | param (p : ForgeParam)

/-- What can enclose a statement or an expression. Branches do not count. -/
inductive Enclosure where
  /-- The body of a loop. -/
  | loop
  /-- The body of a function. -/
  | function (f : Func)
  /-- The body of a method of an object. -/
  | method (kind : ObjectKind) (ref : ObjectRef) (f : Func)
  /-- The value of a field of an object, and the parameters of its forge. -/
  | value (kind : ObjectKind) (ref : ObjectRef) (parameters : List ForgeParam)

def Enclosure.isLoop : Enclosure → Bool
  | loop => true
  | _ => false

/-- An occurrence of a subject, with all that encloses it from the inside out. -/
structure Site where
  subject : Subject
  around : List Enclosure

/-- The function, method or value that something belongs to, if it is not at the top level. -/
def owner (around : List Enclosure) : Option Enclosure := around.find? (!·.isLoop)

/-- Whether a subject means something where it is. A jump out of a loop crosses nothing else; a
result is that of a function or method; an object refers to itself in its own methods and values;
and the parameters of a forge are used for the values of the same object. -/
def Site.Allowed (site : Site) : Prop :=
  match site.subject with
  | .break_ => site.around.head? = some .loop
  | .return_ => ∃ f, owner site.around = some (.function f) ∨
      ∃ ref, owner site.around = some (.method .guild ref f)
  | .self type => ∃ ref, type = .object ref ∧
      ((∃ f, owner site.around = some (.method .guild ref f)) ∨
        ∃ parameters, owner site.around = some (.value .guild ref parameters))
  | .param p => ∃ ref parameters,
      site.around.head? = some (.value .guild ref parameters) ∧ p ∈ parameters

/-- The subject that an expression is. -/
def Expr.subject? : Expr → Option Subject
  | .self type => some (.self type)
  | .param p => some (.param p)
  | _ => none

/-- The subjects in an expression. -/
def Expr.subjects (e : Expr) : List Subject := e.inside.filterMap Expr.subject?

def Expr.sites (around : List Enclosure) (e : Expr) : List Site := e.subjects.map (⟨·, around⟩)

def fieldSites (around : List Enclosure) : List FieldInit → List Site
  | [] => []
  | ⟨_, none⟩ :: rest => fieldSites around rest
  | ⟨_, some value⟩ :: rest => value.sites around ++ fieldSites around rest

mutual

/-- The sites of a statement that some things are around. -/
def Stmt.sites (around : List Enclosure) : Stmt → List Site
  | .declare _ _ e | .print e | .increment e | .decrement e | .call e | .expr e => e.sites around
  | .function f body => blockSites (.function f :: around) body
  | .object kind ref fields parameters methods =>
    fieldSites (.value kind ref (parameters.getD []) :: around) fields ++
      methodsSites around kind ref methods
  | .assign target source => target.sites around ++ source.sites around
  | .return_ e => ⟨.return_, around⟩ :: e.sites around
  | .shortReturn => [⟨.return_, around⟩]
  | .branch test body alternate =>
    test.sites around ++ (blockSites around body ++ alternate.sites around)
  | .while_ e body | .repeat_ e body | .forEach _ e body =>
    e.sites around ++ blockSites (.loop :: around) body
  | .range _ low _ high body | .foreignRange _ low _ high body =>
    low.sites around ++ (high.sites around ++ blockSites (.loop :: around) body)
  | .break_ => [⟨.break_, around⟩]
  | .bare .. | .misplaced .. => []

def blockSites (around : List Enclosure) : List Stmt → List Site
  | [] => []
  | s :: rest => s.sites around ++ blockSites around rest

def methodsSites (around : List Enclosure) (kind : ObjectKind) (ref : ObjectRef) :
    List Method → List Site
  | [] => []
  | .mk f body :: rest =>
    blockSites (.method kind ref f :: around) body ++ methodsSites around kind ref rest

def Alternate.sites (around : List Enclosure) : Alternate → List Site
  | .none => []
  | .block body => blockSites around body
  | .chain test body alternate =>
    test.sites around ++ (blockSites around body ++ alternate.sites around)

end

/-- The sites of a program, where nothing is around. -/
def Program.sites (p : Program) : List Site := blockSites [] p.statements

/-! ### Placed programs -/

/-- What a context admits is allowed by what is around. -/
structure Admits (around : List Enclosure) (Γ : Context) : Prop where
  break_ : Γ.flags.inLoop = true → Site.Allowed ⟨.break_, around⟩
  return_ : Γ.flags.function.isSome = true → Site.Allowed ⟨.return_, around⟩
  self : ∀ ref, Γ.flags.guild = some ref → Site.Allowed ⟨.self (.object ref), around⟩
  param : ∀ p, .param p ∈ Γ.symbols → Site.Allowed ⟨.param p, around⟩

/-- No parameter of a forge can be named, as in all statements. -/
def NoParams (Γ : Context) : Prop := ∀ p, .param p ∉ Γ.symbols

section Contexts

variable {Γ : Context} {around : List Enclosure} {symbols : List Symbol}

theorem NoParams.bind (h : NoParams Γ) (symbols : List Symbol)
    (hsymbols : ∀ p, .param p ∉ symbols) :
    NoParams (Γ.bind symbols) :=
  fun p hp => (List.mem_append.1 hp).elim (hsymbols p) (h p)

theorem noParams_body (h : NoParams Γ) (f : Func) (guild : Option ObjectRef) :
    NoParams (bodyContext Γ f guild) :=
  h.bind (f.params.map .var) (by simp)

theorem noParams_declared (h : NoParams Γ) (s : Stmt) :
    NoParams (Γ.bind s.declared) :=
  h.bind s.declared (by cases s <;> simp [Stmt.declared])

theorem Admits.bind (h : Admits around Γ) (hparams : NoParams (Γ.bind symbols)) :
    Admits around (Γ.bind symbols) :=
  ⟨h.break_, h.return_, h.self, fun p hp => (hparams p hp).elim⟩

theorem Admits.looping (h : Admits around Γ) (hparams : NoParams Γ) :
    Admits (.loop :: around) Γ.looping :=
  ⟨fun _ => rfl, h.return_, h.self, fun p hp => (hparams p hp).elim⟩

theorem admits_function (hparams : NoParams Γ) (f : Func) :
    Admits (.function f :: around) (bodyContext Γ f none) :=
  ⟨nofun, fun _ => ⟨f, .inl rfl⟩, nofun, fun p hp => (noParams_body hparams f none p hp).elim⟩

theorem admits_method (hparams : NoParams Γ) (ref : ObjectRef) (f : Func) :
    Admits (.method .guild ref f :: around) (bodyContext Γ f (some ref)) where
  break_ := nofun
  return_ _ := ⟨f, .inr ⟨ref, rfl⟩⟩
  self := by
    rintro ref' ⟨⟩
    exact ⟨ref, rfl, .inl ⟨f, rfl⟩⟩
  param p hp := (noParams_body hparams f (some ref) p hp).elim

theorem admits_value (hparams : NoParams Γ) (ref : ObjectRef)
    (parameters : Option (List ForgeParam)) :
    Admits (.value .guild ref (parameters.getD []) :: around) (forgeContext Γ ref parameters) where
  break_ := nofun
  return_ := nofun
  self := by
    rintro ref' ⟨⟩
    exact ⟨ref, rfl, .inr ⟨_, rfl⟩⟩
  param p hp := by
    obtain hp | hp := List.mem_append.1 hp
    · obtain ⟨p', hp', heq⟩ := List.mem_map.1 hp
      cases heq
      exact ⟨ref, _, rfl, hp'⟩
    · exact (hparams p hp).elim

theorem noParams_initial : NoParams .initial := by
  simp [NoParams, Context.initial, Library.frame]

theorem admits_initial : Admits [] .initial :=
  ⟨nofun, nofun, nofun, fun p hp => (noParams_initial p hp).elim⟩

end Contexts

section Expressions

variable {Γ : Context} {around : List Enclosure}

theorem Expr.subjects_allowed (h : Admits around Γ) (e : Expr) (he : e.Placed Γ) :
    ∀ subject ∈ e.subjects, Site.Allowed ⟨subject, around⟩ := by
  intro subject hsubject
  obtain ⟨e', hinside, heq⟩ := List.mem_filterMap.1 hsubject
  have hplaced := he e' hinside
  cases e' with
  | self type =>
    cases heq
    obtain ⟨ref, href, rfl⟩ := hplaced
    exact h.self ref href
  | param p =>
    cases heq
    exact h.param p hplaced
  | _ => cases heq

theorem Expr.sites_allowed (h : Admits around Γ) (e : Expr) (he : e.Placed Γ) :
    ∀ site ∈ e.sites around, site.Allowed :=
  List.forall_mem_map.2 (e.subjects_allowed h he)

/-- Only the fields of guilds have values. -/
theorem fieldSites_allowed {kind : ObjectKind} (h : kind = .guild → Admits around Γ)
    (fields : List FieldInit) (hfields : ∀ f ∈ fields, f.Placed Γ kind) :
    ∀ site ∈ fieldSites around fields, site.Allowed := by
  induction fields with
  | nil => exact nofun
  | cons f rest ih =>
    obtain ⟨hf, hrest⟩ := List.forall_mem_cons.1 hfields
    obtain ⟨field, value⟩ := f
    cases value with
    | none => exact ih hrest
    | some value =>
      cases kind with
      | matter => exact hf.elim
      | guild => exact List.forall_mem_append.2 ⟨value.sites_allowed (h rfl) hf, ih hrest⟩

end Expressions

mutual

theorem Stmt.sites_allowed {Γ : Context} {around : List Enclosure} (h : Admits around Γ)
    (hparams : NoParams Γ) (s : Stmt) (hs : s.Placed Γ) :
    ∀ site ∈ s.sites around, site.Allowed := by
  match s with
  | .declare _ _ e | .print e | .increment e | .decrement e | .call e =>
    exact e.sites_allowed h hs
  | .function f body =>
    have hinner := hparams.bind [.func f true] (by simp)
    exact blockSites_allowed (admits_function hinner f) (noParams_body hinner f none) body hs
  | .object kind ref fields parameters methods =>
    have hinner := hparams.bind [.object ref] (by simp)
    obtain ⟨hfields, hmethods, hmatter⟩ := hs
    refine List.forall_mem_append.2 ⟨fieldSites_allowed (fun hkind => ?_) fields hfields, ?_⟩
    · exact hkind ▸ admits_value hinner ref parameters
    · cases kind with
      | matter =>
        rw [hmatter rfl]
        exact nofun
      | guild => exact methodsSites_allowed hinner ref methods hmethods
  | .assign target source =>
    exact List.forall_mem_append.2 ⟨target.sites_allowed h hs.1, source.sites_allowed h hs.2⟩
  | .return_ e => exact List.forall_mem_cons.2 ⟨h.return_ hs.1, e.sites_allowed h hs.2⟩
  | .shortReturn => exact List.forall_mem_singleton.2 (h.return_ hs)
  | .branch test body alternate =>
    exact List.forall_mem_append.2 ⟨test.sites_allowed h hs.1, List.forall_mem_append.2
      ⟨blockSites_allowed h hparams body hs.2.1, alternate.sites_allowed h hparams hs.2.2⟩⟩
  | .while_ e body | .repeat_ e body =>
    exact List.forall_mem_append.2
      ⟨e.sites_allowed h hs.1, blockSites_allowed (h.looping hparams) hparams body hs.2⟩
  | .range iterator low kind high body =>
    have hinner : NoParams (Γ.looping.bind [.var iterator]) :=
      hparams.bind [.var iterator] (by simp)
    exact List.forall_mem_append.2 ⟨low.sites_allowed h hs.1, List.forall_mem_append.2
      ⟨high.sites_allowed h hs.2.1,
        blockSites_allowed ((h.looping hparams).bind hinner) hinner body hs.2.2⟩⟩
  | .forEach iterator collection body =>
    have hinner : NoParams (Γ.looping.bind [.var iterator]) :=
      hparams.bind [.var iterator] (by simp)
    exact List.forall_mem_append.2 ⟨collection.sites_allowed h hs.1,
      blockSites_allowed ((h.looping hparams).bind hinner) hinner body hs.2⟩
  | .break_ => exact List.forall_mem_singleton.2 (h.break_ hs)
  | .foreignRange .. | .expr _ | .bare .. | .misplaced .. => exact hs.elim

theorem blockSites_allowed {Γ : Context} {around : List Enclosure} (h : Admits around Γ)
    (hparams : NoParams Γ) (ss : List Stmt) (hss : blockPlaced Γ ss) :
    ∀ site ∈ blockSites around ss, site.Allowed := by
  match ss with
  | [] => exact nofun
  | s :: rest =>
    have hrest := noParams_declared hparams s
    exact List.forall_mem_append.2
      ⟨s.sites_allowed h hparams hss.1, blockSites_allowed (h.bind hrest) hrest rest hss.2⟩

theorem methodsSites_allowed {Γ : Context} {around : List Enclosure} (hparams : NoParams Γ)
    (ref : ObjectRef) (ms : List Method) (hms : methodsPlaced Γ ref ms) :
    ∀ site ∈ methodsSites around .guild ref ms, site.Allowed := by
  match ms with
  | [] => exact nofun
  | .mk f body :: rest =>
    exact List.forall_mem_append.2
      ⟨blockSites_allowed (admits_method hparams ref f) (noParams_body hparams f (some ref)) body
        hms.1, methodsSites_allowed hparams ref rest hms.2⟩

theorem Alternate.sites_allowed {Γ : Context} {around : List Enclosure} (h : Admits around Γ)
    (hparams : NoParams Γ) (a : Alternate) (ha : a.Placed Γ) :
    ∀ site ∈ a.sites around, site.Allowed := by
  match a with
  | .none => exact nofun
  | .block body => exact blockSites_allowed h hparams body ha
  | .chain test body alternate =>
    exact List.forall_mem_append.2 ⟨test.sites_allowed h ha.1, List.forall_mem_append.2
      ⟨blockSites_allowed h hparams body ha.2.1, alternate.sites_allowed h hparams ha.2.2⟩⟩

end

theorem Program.sites_allowed {p : Program} (hp : p.Placed) : ∀ site ∈ p.sites, site.Allowed :=
  blockSites_allowed admits_initial noParams_initial p.statements hp

end Typed

/-! ### Accepted programs -/

/-- Whether it is optimized or not, an accepted program has jumps, references to the object itself
and parameters of forges only where they are allowed, and no two things that it declares, the
parameters of forges among them, are the same. -/
theorem sites_allowed_of_accepted (tree : Tree.Program) (program p : Typed.Program)
    (haccepted : (Checked.ofTree tree).result = .ok program)
    (hp : p = program ∨ p = program.optimize.value) :
    (∀ site ∈ p.sites, site.Allowed) ∧ (Typed.blockEntities p.statements).Nodup := by
  have hplaced := Typed.Program.placed_of_accepted haccepted
  obtain rfl | rfl := hp
  · exact ⟨Typed.Program.sites_allowed hplaced, (nodup_declares haccepted false).2⟩
  · exact ⟨Typed.Program.sites_allowed (Typed.Program.placed_optimize hplaced),
      (nodup_declares haccepted true).2⟩

/-- A guild in a function, with a function in its method, a jump in a branch of a loop, and a
branch that is never run. -/
def towers : String :=
  "don f() \x7b guild T \x7b h: int; forge(n: int) \x7b mine.h = n; \x7d don m() -> T \x7b" ++
  " don g() \x7b return; \x7d whilst shall \x7b perchance mine.h < 9 \x7b breaketh; \x7d \x7d" ++
  " return mine; \x7d \x7d perchance shant \x7b return; \x7d \x7d"

theorem sites_allowed_towers :
    ∃ tree program, Tree.Program.ofSource "" towers = .ok tree ∧
      (Checked.ofTree tree).result = .ok program ∧ program.sites.length = 7 ∧
      program.optimize.value.sites.length = 6 ∧
      ∀ p, p = program ∨ p = program.optimize.value →
        (∀ site ∈ p.sites, site.Allowed) ∧ (Typed.blockEntities p.statements).Nodup := by
  have haccepts : accepts towers (fun p =>
      p.sites.length == 7 && p.optimize.value.sites.length == 6) = true := by
    refine Chars.accepts (.append (.append .lit .lit) .lit) ?_
    decide +kernel
  obtain ⟨tree, program, htree, hprogram, hlengths⟩ := exists_of_accepts haccepts
  obtain ⟨hsites, hoptimized⟩ := Bool.and_eq_true_iff.1 hlengths
  exact ⟨tree, program, htree, hprogram, beq_iff_eq.1 hsites, beq_iff_eq.1 hoptimized,
    fun p hp => sites_allowed_of_accepted tree program p hprogram hp⟩

end Dragon
