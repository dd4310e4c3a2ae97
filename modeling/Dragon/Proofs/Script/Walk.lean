import Dragon.Proofs.Script.Pieces

/-!
# Walking through a script

Walking through the text of a script with the names that are declared so far, scope by scope. A name
that is used has to be declared in a scope that is still open, and the names of a scope are gone
when it is left.
-/
namespace Dragon.Script

/-- The names that are declared in the open scopes, the innermost first. -/
abbrev Scopes := List (List Name)

def Piece.walk (scopes : Scopes) : Piece → Option Scopes
  | text _ => some scopes
  | uses n => if n ∈ scopes.flatten then some scopes else none
  | declares n =>
    match scopes with
    | [] => none
    | scope :: outer => some ((n :: scope) :: outer)
  | enter => some ([] :: scopes)
  | leave =>
    match scopes with
    | [] => none
    | _ :: outer => some outer

/-- The open scopes after some pieces, unless a name is out of scope. -/
def walk (scopes : Scopes) (ps : List Piece) : Option Scopes := ps.foldlM Piece.walk scopes

section Walk

variable (scopes outer : Scopes) (scope : List Name) (ps : List Piece)

@[simp] theorem walk_nil : walk scopes [] = some scopes := rfl

@[simp] theorem walk_text (s : String) : walk scopes (.text s :: ps) = walk scopes ps := rfl

@[simp] theorem walk_enter : walk scopes (.enter :: ps) = walk ([] :: scopes) ps := rfl

@[simp] theorem walk_leave : walk (scope :: outer) (.leave :: ps) = walk outer ps := rfl

@[simp] theorem walk_declares (n : Name) :
    walk (scope :: outer) (.declares n :: ps) = walk ((n :: scope) :: outer) ps := rfl

theorem walk_uses {scopes : Scopes} {n : Name} (h : n ∈ scopes.flatten) :
    walk scopes (.uses n :: ps) = walk scopes ps := by
  simp [walk, Piece.walk, List.mem_flatten.1 h]

@[simp] theorem walk_append (qs : List Piece) :
    walk scopes (ps ++ qs) = (walk scopes ps).bind (walk · qs) :=
  List.foldlM_append

end Walk

/-! ### Declarations -/

def Piece.declared? : Piece → Option Name
  | declares n => some n
  | _ => none

/-- The names that are declared anywhere in some pieces. -/
def declared (ps : List Piece) : List Name := ps.filterMap Piece.declared?

section Declared

variable (ps : List Piece)

@[simp] theorem declared_nil : declared [] = [] := rfl

attribute [simp] Piece.declared?

@[simp] theorem declared_cons (p : Piece) :
    declared (p :: ps) = p.declared?.toList ++ declared ps := by
  cases p <;> rfl

@[simp] theorem declared_append (qs : List Piece) :
    declared (ps ++ qs) = declared ps ++ declared qs :=
  List.filterMap_append

end Declared

/-! ### Expressions -/

def Piece.Reads (visible : List Name) : Piece → Prop
  | text _ => True
  | uses n => n ∈ visible
  | declares _ | enter | leave => False

/-- Pieces that use visible names, and do nothing else. -/
def Reads (visible : List Name) (ps : List Piece) : Prop := ∀ p ∈ ps, p.Reads visible

namespace Reads

variable {visible : List Name} {ps qs : List Piece}

theorem nil : Reads visible [] := fun _ hp => nomatch hp

theorem text (s : String) (h : Reads visible ps) : Reads visible (.text s :: ps) :=
  List.forall_mem_cons.2 ⟨trivial, h⟩

theorem uses {n : Name} (hn : n ∈ visible) (h : Reads visible ps) : Reads visible (.uses n :: ps) :=
  List.forall_mem_cons.2 ⟨hn, h⟩

theorem append (h : Reads visible ps) (h' : Reads visible qs) : Reads visible (ps ++ qs) :=
  List.forall_mem_append.2 ⟨h, h'⟩

theorem plain (s : String) : Reads visible [.text s] := nil.text s

theorem mono {visible' : List Name} (h : Reads visible ps) (hvisible : visible ⊆ visible') :
    Reads visible' ps := by
  intro p hp
  have hreads := h p hp
  cases p with
  | text s => trivial
  | uses n => exact hvisible hreads
  | declares n | enter | leave => exact hreads.elim

theorem joined (separator : String) {runs : List (List Piece)}
    (h : ∀ run ∈ runs, Reads visible run) : Reads visible (joined separator runs) := by
  unfold Script.joined
  induction runs with
  | nil => exact nil
  | cons run rest ih =>
    have hrun := h run List.mem_cons_self
    have hrest := ih fun r hr => h r (List.mem_cons_of_mem _ hr)
    cases rest with
    | nil =>
      rw [List.intercalate_singleton]
      exact hrun
    | cons next rest =>
      rw [List.intercalate_cons_cons]
      exact (hrun.append (plain separator)).append hrest

/-- Where only visible names are used, the scopes stay as they are. -/
theorem walk {scopes : Scopes} (h : Reads scopes.flatten ps) : walk scopes ps = some scopes := by
  induction ps with
  | nil => rfl
  | cons p rest ih =>
    obtain ⟨hp, hrest⟩ := List.forall_mem_cons.1 h
    cases p with
    | text s => exact ih hrest
    | uses n => rw [walk_uses _ hp, ih hrest]
    | declares n | enter | leave => exact hp.elim

theorem declared (h : Reads visible ps) : declared ps = [] := by
  induction ps with
  | nil => rfl
  | cons p rest ih =>
    obtain ⟨hp, hrest⟩ := List.forall_mem_cons.1 h
    cases p with
    | text s | uses n => exact ih hrest
    | declares n | enter | leave => exact hp.elim

end Reads

/-! ### Parameters and lines -/

/-- The texts between lines make no difference. -/
theorem walk_joined (scopes : Scopes) (separator : String) (runs : List (List Piece)) :
    walk scopes (joined separator runs) = walk scopes runs.flatten := by
  unfold joined
  induction runs generalizing scopes with
  | nil => rfl
  | cons run rest ih =>
    cases rest with
    | nil => simp
    | cons next rest =>
      rw [List.intercalate_cons_cons, List.append_assoc, walk_append, List.flatten_cons,
        walk_append]
      congr 1
      funext scopes
      exact ih scopes

theorem declared_joined (separator : String) (runs : List (List Piece)) :
    declared (joined separator runs) = declared runs.flatten := by
  unfold joined
  induction runs with
  | nil => rfl
  | cons run rest ih =>
    cases rest with
    | nil => simp
    | cons next rest =>
      rw [List.intercalate_cons_cons, declared_append, ih]
      simp

theorem walk_paramPieces (scopes : Scopes) (params : List Name) :
    walk scopes (paramPieces params) = some (params.reverse :: scopes) := by
  have hparams (scope : List Name) :
      walk (scope :: scopes) (params.map fun n => [Piece.declares n]).flatten =
        some ((params.reverse ++ scope) :: scopes) := by
    induction params generalizing scope with
    | nil => rfl
    | cons n rest ih => simpa using ih (n :: scope)
  simp [paramPieces, walk_joined, hparams]

theorem declared_paramPieces (params : List Name) : declared (paramPieces params) = params := by
  have hparams : declared (params.map fun n => [Piece.declares n]).flatten = params := by
    induction params with
    | nil => rfl
    | cons n rest ih => simpa using ih
  simp [paramPieces, declared_joined, hparams]

/-! ### Headers of loops -/

section Headers

variable {scopes : Scopes} {index iterator : Name} {limit : Option Name}
  {count low high collection : Expr}

theorem walk_countPieces (h : Reads ((limit.toList ++ [index]) :: scopes).flatten count.pieces) :
    walk scopes (countPieces index limit count) =
      some ([] :: (limit.toList ++ [index]) :: scopes) := by
  cases limit with
  | none =>
    have hindex : index ∈ ([index] :: scopes).flatten := by simp
    have hcount : walk ([index] :: scopes) count.pieces = some ([index] :: scopes) := h.walk
    simp [countPieces, walk_uses _ hindex, hcount]
  | some n =>
    have hindex : index ∈ ([n, index] :: scopes).flatten := by simp
    have hlimit : n ∈ ([n, index] :: scopes).flatten := by simp
    have hcount : walk ([n, index] :: scopes) count.pieces = some ([n, index] :: scopes) := h.walk
    simp [countPieces, walk_uses _ hindex, walk_uses _ hlimit, hcount]

theorem walk_rangePieces {kind : RangeKind} (hlow : Reads ([iterator] :: scopes).flatten low.pieces)
    (hhigh : Reads ([iterator] :: scopes).flatten high.pieces) :
    walk scopes (rangePieces iterator low kind high) = some ([] :: [iterator] :: scopes) := by
  have hiterator : iterator ∈ ([iterator] :: scopes).flatten := by simp
  simp [rangePieces, walk_uses _ hiterator, hlow.walk, hhigh.walk]

theorem walk_eachPieces (h : Reads ([iterator] :: scopes).flatten collection.pieces) :
    walk scopes (eachPieces iterator collection) = some ([] :: [iterator] :: scopes) := by
  simp [eachPieces, h.walk]

variable {visible : List Name}

theorem declared_countPieces (h : Reads visible count.pieces) :
    declared (countPieces index limit count) = index :: limit.toList := by
  cases limit <;> simp [countPieces, h.declared]

theorem declared_rangePieces {kind : RangeKind} (hlow : Reads visible low.pieces)
    (hhigh : Reads visible high.pieces) :
    declared (rangePieces iterator low kind high) = [iterator] := by
  simp [rangePieces, hlow.declared, hhigh.declared]

theorem declared_eachPieces (h : Reads visible collection.pieces) :
    declared (eachPieces iterator collection) = [iterator] := by
  simp [eachPieces, h.declared]

end Headers

@[simp] theorem walk_linePieces (scopes : Scopes) (depth : Nat) (ps : List Piece) :
    walk scopes (linePieces depth ps) = walk scopes ps := rfl

@[simp] theorem declared_linePieces (depth : Nat) (ps : List Piece) :
    declared (linePieces depth ps) = declared ps := rfl

/-! ### Names -/

/-- Names are told apart by their numbers, whatever they are made of otherwise. -/
theorem Name.number_eq_of_text_eq {n m : Name} (h : n.text = m.text) : n.number = m.number := by
  have hdigits (k : Nat) : ∀ c ∈ (Decimal.digitsOf k).reverse, (c != '_') = true := by
    intro c hc
    have hdigit := Nat.isDigit_of_mem_toDigits (by decide) (by decide) (List.mem_reverse.1 hc)
    exact bne_iff_ne.2 fun heq => by simp [heq, Char.isDigit] at hdigit
  have hlast (n : Name) : n.text.toList.reverse.takeWhile (· != '_') =
      (Decimal.digitsOf n.number).reverse := by
    simp [Name.text, List.takeWhile_append_of_pos (hdigits n.number)]
  have hsame : Decimal.digitsOf n.number = Decimal.digitsOf m.number := by
    rw [← List.reverse_inj, ← hlast n, ← hlast m, h]
  calc
    n.number = Nat.ofDigitChars 10 (Decimal.digitsOf n.number) 0 :=
      Nat.ofDigitChars_ten_toDigits.symm
    _ = Nat.ofDigitChars 10 (Decimal.digitsOf m.number) 0 := by rw [hsame]
    _ = m.number := Nat.ofDigitChars_ten_toDigits

/-! ### What statements declare -/

mutual

/-- The names of counters and limits in a statement and the blocks in it. -/
def Stmt.counters : Stmt → List Name
  | .repeat_ index limit _ body => index :: limit.toList ++ blockCounters body
  | .function _ _ body | .while_ _ body | .range _ _ _ _ body | .forEach _ _ body =>
    blockCounters body
  | .type _ _ _ methods => methodCounters methods
  | .branch _ body alternate => blockCounters body ++ alternate.counters
  | .declare .. | .log _ | .increment _ | .decrement _ | .assign .. | .return_ _ | .break_
  | .expr _ => []

def blockCounters : List Stmt → List Name
  | [] => []
  | s :: rest => s.counters ++ blockCounters rest

def methodCounters : List Method → List Name
  | [] => []
  | .mk _ _ body :: rest => blockCounters body ++ methodCounters rest

def Alternate.counters : Alternate → List Name
  | .none => []
  | .block body => blockCounters body
  | .chain _ body alternate => blockCounters body ++ alternate.counters

end

/-- The names that a statement declares for those after it. -/
def Stmt.bound : Stmt → List Name
  | .declare _ name _ | .function name _ _ | .type name _ _ _ => [name]
  | _ => []

end Dragon.Script
