import Dragon.Proofs.Token.Written
import Dragon.Proofs.Tree.Printer

/-!
# Descriptions of types and how they are read

A description is cut into the tokens of a type expression, except that two question marks in a row
are one token of their own; and question marks behind a function are taken by its result. So a type
is read back from its description just when it has no optional directly around an optional or a
function.
-/
namespace Dragon

/-- A word that is cut as an identifier. -/
def IsName (name : String) : Prop := IsIdentifierName name ∧ wordKind name = .identifier

/-! ### Tokens of types -/

namespace Tree

variable {ts : List Token}

theorem arePlain_eq_true {types : List TypeExpr} (h : ∀ t ∈ types, t.isPlain = true) :
    arePlain types = true := by
  induction types with
  | nil => rfl
  | cons t rest ih =>
    obtain ⟨ht, hrest⟩ := List.forall_mem_cons.1 h
    rw [arePlain, ht, ih hrest]
    rfl

theorem Joined.forall_kind {runs : List (List Token)} (h : Joined runs ts) {K : Kind → Prop}
    (hruns : ∀ run ∈ runs, ∀ t ∈ run, K t.kind) (hcomma : K (.operator .comma)) :
    ∀ t ∈ ts, K t.kind := by
  induction h with
  | none => nofun
  | one run => exact hruns run List.mem_cons_self
  | more hkind _ ih =>
    obtain ⟨hrun, hruns⟩ := List.forall_mem_cons.1 hruns
    exact List.forall_mem_append.2 ⟨hrun, List.forall_mem_cons.2 ⟨hkind ▸ hcomma, ih hruns⟩⟩

/-- Types are derived with single question marks, none of them behind a function. -/
theorem DerivesType.plain {type : TypeExpr} (h : DerivesType ts type) :
    type.isPlain = true ∧ ∀ t ∈ ts, t.kind ≠ .operator .coalesce := by
  induction h with
  | named hkind => exact ⟨rfl, by simp [hkind]⟩
  | list hstart _ hstop ih => exact ⟨ih.1, by simpa [hstart, hstop, or_imp, forall_and] using ih.2⟩
  | optional _ hbase hmark ih =>
    exact ⟨by simp [TypeExpr.isPlain, hbase, ih.1], by simpa [hmark, or_imp, forall_and] using ih.2⟩
  | @function start stop arrow inner ts params result hstart _ hinner hstop harrow _ ihparams ih =>
    have hparams : arePlain (params.map Prod.snd) = true :=
      arePlain_eq_true (List.forall_mem_map.2 fun p hp => (ihparams p hp).1)
    have hkinds : ∀ t ∈ inner, t.kind ≠ .operator .coalesce :=
      hinner.forall_kind (K := (· ≠ .operator .coalesce))
        (List.forall_mem_map.2 fun p hp => (ihparams p hp).2) (by decide)
    refine ⟨by simp [TypeExpr.isPlain, hparams, ih.1], ?_⟩
    simpa [hstart, hstop, harrow, or_imp, forall_and] using ⟨hkinds, ih.2⟩

end Tree

namespace Ty

/-! ### Shapes -/

mutual

/-- The type expression that a type is written as, apart from places. -/
def shape : Ty → Tree.TypeExpr
  | prim p => .named p.name .nowhere
  | list element => .list element.shape .nowhere
  | optional base => .optional base.shape .nowhere
  | function params result _ => .function (shapes params) result.shape .nowhere
  | object ref => .named ref.name .nowhere

def shapes : List Ty → List Tree.TypeExpr
  | [] => []
  | t :: rest => t.shape :: shapes rest

end

mutual

/-- The names of the objects in a type. -/
def objectNames : Ty → List String
  | prim _ => []
  | list element => element.objectNames
  | optional base => base.objectNames
  | function params result _ => allObjectNames params ++ result.objectNames
  | object ref => [ref.name]

def allObjectNames : List Ty → List String
  | [] => []
  | t :: rest => t.objectNames ++ allObjectNames rest

end

/-- Whether a question mark behind a type is not only its own. -/
def takesMark : Ty → Bool
  | optional _ | function .. => true
  | _ => false

mutual

/-- Whether no optional in a type is directly around an optional or a function. -/
def isUnambiguous : Ty → Bool
  | prim _ | object _ => true
  | list element => element.isUnambiguous
  | optional base => !base.takesMark && base.isUnambiguous
  | function params result _ => areUnambiguous params && result.isUnambiguous

def areUnambiguous : List Ty → Bool
  | [] => true
  | t :: rest => t.isUnambiguous && areUnambiguous rest

end

/-! ### Tokens of descriptions -/

def signContent (o : Operator) : Kind × String := (.operator o, o.text)

/-- The tokens that question marks in a row are cut into. -/
def questions : Nat → List (Kind × String)
  | 0 => []
  | 1 => [signContent .question]
  | n + 2 => signContent .coalesce :: questions n

mutual

/-- The tokens of a description with question marks behind it. -/
def marked : Ty → Nat → List (Kind × String)
  | prim p, n => (.identifier, p.name) :: questions n
  | list element, n =>
    signContent .lbracket :: (element.marked 0 ++ signContent .rbracket :: questions n)
  | optional base, n => base.marked (n + 1)
  | function params result _, n => signContent .lparen ::
      (allMarked params ++ signContent .rparen :: signContent .arrow :: result.marked n)
  | object ref, n => (.identifier, ref.name) :: questions n

def allMarked : List Ty → List (Kind × String)
  | [] => []
  | [t] => t.marked 0
  | t :: rest => t.marked 0 ++ signContent .comma :: allMarked rest

end

variable {follow : List Char} {ts : List (Kind × String)}

/-- What follows a description: no word, no question mark and no point. -/
def Parted (follow : List Char) : Prop :=
  ∀ c ∈ follow.head?, Text.isWordChar c = false ∧ c ≠ '?' ∧ c ≠ '.'

theorem lexes_sign (o : Operator)
    (hstart : Operator.atStart? (o.text.toList ++ follow) = some o)
    (ho : o ∉ [.slash, .lbrace, .rbrace]) (h : Lexes [] follow ts) :
    Lexes [] (o.text.toList ++ follow) (signContent o :: ts) := by
  simp only [List.mem_cons, List.not_mem_nil, or_false, not_or] at ho
  have hdepths : depthsAfter o [] = [] := by cases o <;> rfl
  refine Lexes.operator o hstart (fun h => absurd h ho.1) (fun h => absurd h ho.2.2) ?_
  rwa [hdepths]

theorem lexes_questions (hfollow : Parted follow) (h : Lexes [] follow ts) (n : Nat) :
    Lexes [] (List.replicate n '?' ++ follow) (questions n ++ ts) := by
  induction n using questions.induct with
  | case1 => exact h
  | case2 =>
    refine lexes_sign .question ?_ (by decide) h
    cases follow with
    | nil => rfl
    | cons c more =>
      obtain ⟨-, hmark, hpoint⟩ := hfollow c rfl
      simp [Operator.atStart?, Operator.all, Operator.text, List.isPrefixOf, Ne.symm hmark,
        Ne.symm hpoint]
  | case3 n ih => exact lexes_sign .coalesce rfl (by decide) ih

/-- A name with question marks behind it. -/
theorem lexes_name {name : String} (hname : IsName name) (hfollow : Parted follow)
    (h : Lexes [] follow ts) (n : Nat) :
    Lexes [] (name.toList ++ (List.replicate n '?' ++ follow))
      ((.identifier, name) :: questions n ++ ts) := by
  have hend : ∀ c ∈ (List.replicate n '?' ++ follow).head?, Text.isWordChar c = false := by
    intro c hc
    cases n with
    | zero => exact (hfollow c hc).1
    | succ n =>
      obtain rfl : '?' = c := by simpa [List.replicate_succ] using hc
      decide
  have hword := (lexes_questions hfollow h n).word hname.1 hend
  rwa [hname.2] at hword

theorem isName_prim (p : Prim) : IsName p.name := by
  unfold IsName IsIdentifierName
  cases p <;> decide

theorem toList_describe_list (element : Ty) :
    (list element).describe.toList = '[' :: (element.describe.toList ++ [']']) := by
  simp [describe, toString]

theorem toList_describe_optional (base : Ty) :
    (optional base).describe.toList = base.describe.toList ++ ['?'] := by
  simp [describe, toString]

theorem toList_describe_function (params : List Ty) (result : Ty) (names : List String) :
    (function params result names).describe.toList = '(' :: ((describeAll params).toList ++
      ')' :: '-' :: '>' :: result.describe.toList) := by
  simp [describe, toString]

theorem toList_describeAll (t u : Ty) (rest : List Ty) :
    (describeAll (t :: u :: rest)).toList = t.describe.toList ++
      ',' :: ' ' :: (describeAll (u :: rest)).toList := by
  simp [describeAll, toString]

theorem parted_cons {c : Char} (hc : Text.isWordChar c = false ∧ c ≠ '?' ∧ c ≠ '.')
    (cs : List Char) : Parted (c :: cs) := by
  rintro d ⟨⟩
  exact hc

mutual

/-- A description is cut into its tokens, before question marks as well. -/
theorem lexes_describe (t : Ty) (hnames : ∀ name ∈ t.objectNames, IsName name)
    {follow : List Char} {ts : List (Kind × String)} (hfollow : Parted follow)
    (h : Lexes [] follow ts) (n : Nat) :
    Lexes [] (t.describe.toList ++ (List.replicate n '?' ++ follow)) (t.marked n ++ ts) := by
  match t with
  | prim p =>
    rw [describe]
    exact lexes_name (isName_prim p) hfollow h n
  | object ref =>
    rw [describe]
    exact lexes_name (hnames _ (by simp [objectNames])) hfollow h n
  | list element =>
    have hclose : Lexes [] (']' :: (List.replicate n '?' ++ follow))
        (signContent .rbracket :: (questions n ++ ts)) :=
      lexes_sign .rbracket rfl (by decide) (lexes_questions hfollow h n)
    have hopen : Lexes [] ('[' :: (element.describe.toList ++
        ']' :: (List.replicate n '?' ++ follow))) _ :=
      lexes_sign .lbracket rfl (by decide)
        (lexes_describe element hnames (parted_cons (by decide) _) hclose 0)
    rw [toList_describe_list, marked]
    simpa using hopen
  | optional base =>
    -- The marks behind a type are cut in pairs, so that of the optional is counted with the others.
    have hbase := lexes_describe base hnames hfollow h (n + 1)
    rw [toList_describe_optional, marked]
    simpa [List.replicate_succ] using hbase
  | function params result names =>
    obtain ⟨hparams, hresult⟩ := List.forall_mem_append.1 hnames
    have harrow : Lexes [] ('-' :: '>' :: (result.describe.toList ++
        (List.replicate n '?' ++ follow))) _ :=
      lexes_sign .arrow rfl (by decide) (lexes_describe result hresult hfollow h n)
    have hclose : Lexes [] (')' :: _) _ := lexes_sign .rparen rfl (by decide) harrow
    have hopen : Lexes [] ('(' :: _) _ := lexes_sign .lparen rfl (by decide)
      (lexes_describeAll params hparams (parted_cons (by decide) _) hclose)
    rw [toList_describe_function, marked]
    simpa using hopen

theorem lexes_describeAll (params : List Ty)
    (hnames : ∀ name ∈ allObjectNames params, IsName name) {follow : List Char}
    {ts : List (Kind × String)} (hfollow : Parted follow) (h : Lexes [] follow ts) :
    Lexes [] ((describeAll params).toList ++ follow) (allMarked params ++ ts) := by
  match params with
  | [] => exact h
  | [t] => exact lexes_describe t (by simpa [allObjectNames] using hnames) hfollow h 0
  | t :: u :: rest =>
    obtain ⟨hfirst, hothers⟩ := List.forall_mem_append.1 hnames
    have hcomma : Lexes [] (',' :: ' ' :: _) _ := lexes_sign .comma rfl (by decide)
      (lexes_describeAll (u :: rest) hothers hfollow h).blank
    have ht := lexes_describe t hfirst (parted_cons (by decide) _) hcomma 0
    rw [toList_describeAll, allMarked]
    · simpa using ht
    · nofun

end

/-! ### Reading descriptions -/

section Derived

open Dragon.Tree

theorem marked_one {t : Ty} (h : t.takesMark = false) :
    t.marked 1 = t.marked 0 ++ [signContent .question] := by
  cases t with
  | prim | object => simp [marked, questions]
  | list element => simp [marked, questions]
  | optional | function => cases h

theorem isFunction_shape {t : Ty} (h : t.takesMark = false) : t.shape.isFunction = false := by
  cases t with
  | function => cases h
  | _ => rfl

theorem exists_sign {ts : List Token} {o : Operator} {others : List (Kind × String)}
    (h : ts.map (fun t => (t.kind, t.value)) = signContent o :: others) :
    ∃ t rest, ts = t :: rest ∧ t.kind = .operator o ∧
      rest.map (fun t => (t.kind, t.value)) = others := by
  obtain ⟨t, rest, rfl, ht, hrest⟩ := List.map_eq_cons_iff.1 h
  exact ⟨t, rest, rfl, congrArg Prod.fst ht, hrest⟩

mutual

/-- The tokens of a description derive the type, unless question marks mislead. -/
theorem derives_marked (t : Ty) (h : t.isUnambiguous = true) {ts : List Token}
    (hts : ts.map (fun t => (t.kind, t.value)) = t.marked 0) : DerivesType ts t.shape := by
  have hnamed {name : String} (h : ts.map (fun t => (t.kind, t.value)) = [(.identifier, name)]) :
      DerivesType ts (.named name .nowhere) := by
    obtain ⟨t, rest, rfl, ht, hrest⟩ := List.map_eq_cons_iff.1 h
    obtain rfl := List.map_eq_nil_iff.1 hrest
    injection ht with hkind hvalue
    rw [← hvalue]
    exact .named hkind
  match t with
  | prim p => exact hnamed hts
  | object ref => exact hnamed hts
  | list element =>
    obtain ⟨start, rest, rfl, hstart, hrest⟩ := exists_sign hts
    obtain ⟨inner, rest, rfl, hinner, hrest⟩ := List.map_eq_append_iff.1 hrest
    obtain ⟨stop, rest, rfl, hstop, hrest⟩ := exists_sign hrest
    obtain rfl := List.map_eq_nil_iff.1 hrest
    exact .list hstart (derives_marked element h hinner) hstop
  | optional base =>
    obtain ⟨hmark, hbase⟩ := Bool.and_eq_true_iff.1 h
    have hmark : base.takesMark = false := by simpa using hmark
    rw [marked, marked_one hmark] at hts
    obtain ⟨inner, rest, rfl, hinner, hrest⟩ := List.map_eq_append_iff.1 hts
    obtain ⟨mark, rest, rfl, hkind, hrest⟩ := exists_sign hrest
    obtain rfl := List.map_eq_nil_iff.1 hrest
    exact .optional (derives_marked base hbase hinner) (isFunction_shape hmark) hkind
  | function params result names =>
    obtain ⟨hparams, hresult⟩ := Bool.and_eq_true_iff.1 h
    obtain ⟨start, rest, rfl, hstart, hrest⟩ := exists_sign hts
    obtain ⟨inner, rest, rfl, hinner, hrest⟩ := List.map_eq_append_iff.1 hrest
    obtain ⟨stop, rest, rfl, hstop, hrest⟩ := exists_sign hrest
    obtain ⟨arrow, rest, rfl, harrow, hrest⟩ := exists_sign hrest
    obtain ⟨runs, hshapes, hruns, hjoined⟩ := derives_allMarked params hparams hinner
    rw [shape, ← hshapes]
    exact .function hstart hruns hjoined hstop harrow (derives_marked result hresult hrest)

theorem derives_allMarked (params : List Ty) (h : areUnambiguous params = true) {ts : List Token}
    (hts : ts.map (fun t => (t.kind, t.value)) = allMarked params) :
    ∃ runs : List (List Token × TypeExpr), runs.map Prod.snd = shapes params ∧
      (∀ p ∈ runs, DerivesType p.1 p.2) ∧ Joined (runs.map Prod.fst) ts := by
  match params with
  | [] =>
    obtain rfl := List.map_eq_nil_iff.1 hts
    exact ⟨[], rfl, nofun, .none⟩
  | [t] =>
    have ht := derives_marked t (Bool.and_eq_true_iff.1 h).1 hts
    exact ⟨[(ts, t.shape)], rfl, by simpa using ht, .one ts⟩
  | t :: u :: rest =>
    obtain ⟨ht, hothers⟩ := Bool.and_eq_true_iff.1 h
    obtain ⟨first, others, rfl, hfirst, hrest⟩ := List.map_eq_append_iff.1 hts
    obtain ⟨comma, others, rfl, hcomma, hrest⟩ := exists_sign hrest
    obtain ⟨runs, hshapes, hruns, hjoined⟩ := derives_allMarked (u :: rest) hothers hrest
    refine ⟨(first, t.shape) :: runs, congrArg (t.shape :: ·) hshapes,
      List.forall_mem_cons.2 ⟨derives_marked t ht hfirst, hruns⟩, ?_⟩
    obtain ⟨run, runs, rfl⟩ : ∃ run more, runs = run :: more := by
      cases runs with
      | nil => cases hshapes
      | cons run more => exact ⟨run, more, rfl⟩
    exact .more hcomma hjoined

end

theorem coalesce_mem_marked (t : Ty) (n : Nat) : signContent .coalesce ∈ t.marked (n + 2) := by
  match t with
  | prim _ | object _ => simp [marked, questions]
  | list element => simp [marked, questions]
  | optional base => exact coalesce_mem_marked base (n + 1)
  | function params result _ =>
    simp [marked, coalesce_mem_marked result n]

mutual

/-- Without two question marks in a row, and none behind a function, a type is unambiguous. -/
theorem isUnambiguous_of_marked (t : Ty) (hplain : t.shape.isPlain = true) (n : Nat)
    (hmarks : signContent .coalesce ∉ t.marked n) : t.isUnambiguous = true := by
  match t with
  | prim _ | object _ => rfl
  | list element =>
    simp only [marked, List.mem_cons, List.mem_append, not_or] at hmarks
    exact isUnambiguous_of_marked element hplain 0 hmarks.2.1
  | optional base =>
    obtain ⟨hbase, hplain⟩ := Bool.and_eq_true_iff.1 hplain
    have hmark : base.takesMark = false := by
      cases base with
      | optional inner => exact absurd (coalesce_mem_marked inner n) hmarks
      | function => cases hbase
      | _ => rfl
    rw [isUnambiguous, hmark, isUnambiguous_of_marked base hplain (n + 1) hmarks]
    rfl
  | function params result _ =>
    obtain ⟨hparams, hresult⟩ := Bool.and_eq_true_iff.1 hplain
    simp only [marked, List.mem_cons, List.mem_append, not_or] at hmarks
    rw [isUnambiguous, areUnambiguous_of_marked params hparams hmarks.2.1,
      isUnambiguous_of_marked result hresult n hmarks.2.2.2.2]
    rfl

/-- Without two question marks in a row nothing is ambiguous. -/
theorem areUnambiguous_of_marked (params : List Ty) (hplain : arePlain (shapes params) = true)
    (hmarks : signContent .coalesce ∉ allMarked params) : areUnambiguous params = true := by
  match params with
  | [] => rfl
  | [t] =>
    rw [areUnambiguous, isUnambiguous_of_marked t (Bool.and_eq_true_iff.1 hplain).1 0 hmarks]
    rfl
  | t :: u :: rest =>
    obtain ⟨ht, hothers⟩ := Bool.and_eq_true_iff.1 hplain
    rw [allMarked, List.mem_append, List.mem_cons, not_or, not_or] at hmarks
    · rw [areUnambiguous, isUnambiguous_of_marked t ht 0 hmarks.1,
        areUnambiguous_of_marked (u :: rest) hothers hmarks.2.2]
      rfl
    · nofun

end

/-- The description of a type is cut into tokens, and these are read as the type and nothing else
just when no optional in it is directly around an optional or a function. -/
theorem read_describe_iff {t : Ty} (hnames : ∀ name ∈ t.objectNames, IsName name)
    (file : String) :
    (∃ stream type, TokenStream.ofSource file t.describe = .ok stream ∧
      TypeExpr.read stream.eof stream.tokens = .ok (type, []) ∧ type.bare = t.shape) ↔
      t.isUnambiguous = true := by
  have hlexes : Lexes [] t.describe.toList (t.marked 0) := by
    have hnil : Parted [] := nofun
    simpa using lexes_describe t hnames hnil .nil 0
  obtain ⟨stream, hstream, htokens⟩ : ∃ stream, TokenStream.ofSource file t.describe = .ok stream ∧
      stream.tokens.map (fun t => (t.kind, t.value)) = t.marked 0 :=
    ⟨_, TokenStream.ofSource_of_cut hlexes.1, by rw [Piece.map_place, hlexes.2]⟩
  constructor
  · rintro ⟨stream', type, hstream', hread, hshape⟩
    obtain rfl : stream = stream' := Except.ok.inj (hstream.symm.trans hstream')
    obtain ⟨used, hused, hderives, -⟩ :=
      TypeExpr.readWith_derived (TokenStream.kind_eof_of_ofSource hstream) hread
    rw [List.append_nil] at hused
    rw [hshape, ← hused] at hderives
    -- Whatever is read was derived, and nothing is derived with a mark that misleads.
    obtain ⟨hplain, hkinds⟩ := hderives.plain
    refine isUnambiguous_of_marked t hplain 0 fun hmem => ?_
    rw [← htokens] at hmem
    obtain ⟨token, hmem, htoken⟩ := List.mem_map.1 hmem
    exact hkinds token hmem (congrArg Prod.fst htoken)
  · intro h
    obtain ⟨type, htype, hread⟩ := (derives_marked t h htokens).accepted
      (stream.tokens.length + 1) [] (Nat.le_succ _) nofun
    rw [List.append_nil] at hread
    exact ⟨stream, type, hstream, hread, htype⟩

/-- A function on lists of optional purses. -/
def purseHandler : Ty :=
  .function [.list (.optional (.object ⟨0, "Purse"⟩)), .int] (.optional .bool) ["purses", "n"]

/-- The handler is read back from its description, an optional one is not. -/
theorem read_describe_purseHandler :
    purseHandler.describe = "([Purse?], int)->bool?" ∧
      (∀ name ∈ purseHandler.objectNames, IsName name) ∧
      (∃ stream type, TokenStream.ofSource "" purseHandler.describe = .ok stream ∧
        TypeExpr.read stream.eof stream.tokens = .ok (type, []) ∧
        type.bare = purseHandler.shape) ∧
      ¬ ∃ stream type, TokenStream.ofSource "" (optional purseHandler).describe = .ok stream ∧
        TypeExpr.read stream.eof stream.tokens = .ok (type, []) ∧
        type.bare = (optional purseHandler).shape := by
  have hname : IsName "Purse" := by
    unfold IsName IsIdentifierName
    decide
  have hnames : ∀ name ∈ purseHandler.objectNames, IsName name := by
    simpa [purseHandler, objectNames, allObjectNames] using hname
  have hunread := (read_describe_iff (t := optional purseHandler) hnames "").not.2
  exact ⟨by decide, hnames, (read_describe_iff hnames "").2 rfl, hunread (by decide)⟩

end Derived

end Ty

end Dragon
