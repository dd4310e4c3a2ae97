import Dragon.Highlight.Machine
import Dragon.Proofs.Token.Factored

/-!
# Turns of the highlighter

The pieces of a text do not show the stack of modes, so a turn keeps it beside its piece. Marks say
where strings are entered and left and where interpolations begin and end. What the highlighter does
with a text is what it does with the part that it takes first and then with the rest; a part that
changes no stack and puts no mark can be skipped, or put in front.
-/
namespace Dragon.Highlight

/-! ### Turns -/

/-- A piece that the highlighter takes after the text `done`, and the stacks around it. -/
structure Turn where
  done : List Char
  style : Style
  text : List Char
  before : List Mode
  after : List Mode
  deriving DecidableEq, Repr

def Turn.piece (t : Turn) : Piece := ⟨t.done.length, t.style, String.ofList t.text⟩

/-- The turns from a place on, with the text before it. -/
def turns (done : List Char) (stack : List Mode) : List Char → List Turn
  | [] => []
  | c :: rest =>
    let s := step done.getLast? stack (c :: rest)
    let more := s.length - 1
    let taken := c :: rest.take more
    ⟨done, s.style, taken, stack, s.stack⟩ :: turns (done ++ taken) s.stack (rest.drop more)
termination_by cs => cs.length
decreasing_by
  simp only [List.length_drop, List.length_cons]
  omega

theorem map_piece_turns (done : List Char) (stack : List Mode) (cs : List Char) :
    (turns done stack cs).map Turn.piece = pieces done.length done.getLast? stack cs := by
  fun_induction turns done stack cs with
  | case1 => rw [pieces, List.map_nil]
  | case2 done stack c rest s more taken ih =>
    have hlast : (done ++ taken).getLast? = taken.getLast? := by
      simp [taken, List.getLast?_append, List.getLast?_cons]
    rw [List.length_append, hlast] at ih
    rw [pieces, List.map_cons, ih]
    rfl

/-- The stack after some turns that start with a stack. -/
def stackAfter (stack : List Mode) (ts : List Turn) : List Mode :=
  ts.foldl (fun _ t => t.after) stack

/-! ### Marks -/

inductive Role where
  | enters
  | leaves
  | interpolates
  deriving DecidableEq, Repr

/-- A place where a string is entered or left or an interpolation begins or ends, and the text
that does it. -/
structure Mark where
  role : Role
  place : Pos
  text : String
  deriving DecidableEq, Repr

def Turn.mark (t : Turn) (role : Role) : Mark := ⟨role, .after t.done, String.ofList t.text⟩

def Turn.marks (t : Turn) : List Mark :=
  (if t.after = .string :: t.before then [t.mark .enters] else []) ++
    (if t.before = .string :: t.after then [t.mark .leaves] else []) ++
    if t.style = .interpolation then [t.mark .interpolates] else []

/-- A turn that leaves the stack as it is puts no mark. -/
theorem Turn.marks_of_stay {t : Turn} (hstack : t.after = t.before)
    (hstyle : t.style ≠ .interpolation) : t.marks = [] := by
  simp [marks, hstack, hstyle]

/-! ### Runs to the end of the text -/

/-- The highlighter takes the text `text` in one turn. -/
structure Takes (done : List Char) (stack : List Mode) (text rest : List Char) (style : Style)
    (stack' : List Mode) : Prop where
  ne_nil : text ≠ []
  step_eq : step done.getLast? stack (text ++ rest) = ⟨style, text.length, stack'⟩

/-- The highlighter takes a text in one turn that is no error, puts no mark and keeps the stack. -/
def Quiet (done : List Char) (stack : List Mode) (text rest : List Char) : Prop :=
  ∃ style, Takes done stack text rest style stack ∧ style ≠ .error ∧ style ≠ .interpolation

/-- From a place on there are no errors, and the highlighter puts the marks and ends with the
stack `last`. -/
structure Finishes (done : List Char) (stack : List Mode) (cs : List Char) (marks : List Mark)
    (last : List Mode) : Prop where
  clean : ∀ t ∈ turns done stack cs, t.style ≠ .error
  marks_eq : (turns done stack cs).flatMap Turn.marks = marks
  last_eq : stackAfter stack (turns done stack cs) = last

variable {done text rest cs : List Char} {stack stack' last : List Mode} {style : Style}
  {marks : List Mark}

theorem turns_of_takes (h : Takes done stack text rest style stack') :
    turns done stack (text ++ rest) =
      ⟨done, style, text, stack, stack'⟩ :: turns (done ++ text) stack' rest := by
  obtain ⟨hne, hstep⟩ := h
  obtain ⟨c, text, rfl⟩ := List.exists_cons_of_ne_nil hne
  rw [List.cons_append] at hstep ⊢
  rw [turns, hstep]
  simp

theorem finishes_nil (done : List Char) (stack : List Mode) : Finishes done stack [] [] stack := by
  constructor <;> simp [turns, stackAfter]

theorem Finishes.of_takes (h : Takes done stack text rest style stack') (hstyle : style ≠ .error)
    (hrest : Finishes (done ++ text) stack' rest marks last) :
    Finishes done stack (text ++ rest)
      (Turn.marks ⟨done, style, text, stack, stack'⟩ ++ marks) last := by
  have hturns := turns_of_takes h
  constructor
  · rw [hturns]
    exact List.forall_mem_cons.2 ⟨hstyle, hrest.clean⟩
  · rw [hturns, List.flatMap_cons, hrest.marks_eq]
  · rw [hturns]
    exact hrest.last_eq

/-- Quiet text plays no part in how the rest finishes. -/
theorem Quiet.finishes_iff (h : Quiet done stack text rest) :
    Finishes done stack (text ++ rest) marks last ↔
      Finishes (done ++ text) stack rest marks last := by
  obtain ⟨style, htakes, herror, hinterpolation⟩ := h
  have hmarks : Turn.marks ⟨done, style, text, stack, stack⟩ = [] :=
    Turn.marks_of_stay rfl hinterpolation
  constructor
  · rintro ⟨hclean, hput, hlast⟩
    rw [turns_of_takes htakes] at hclean hput hlast
    rw [List.flatMap_cons, hmarks] at hput
    exact ⟨(List.forall_mem_cons.1 hclean).2, hput, hlast⟩
  · intro hrest
    have hfinishes := hrest.of_takes htakes herror
    rwa [hmarks] at hfinishes

/-! ### Characters of a class -/

/-- If the text starts with a character of the class, all that follow are taken with it. -/
def QuietAt (done : List Char) (stack : List Mode) (test : Char → Bool) (cs : List Char) : Prop :=
  ∀ c ∈ cs.head?, test c = true → Quiet done stack (cs.takeWhile test) (cs.dropWhile test)

theorem QuietAt.finishes_iff {test : Char → Bool} (h : QuietAt done stack test cs) :
    Finishes done stack cs marks last ↔
      Finishes (done ++ cs.takeWhile test) stack (cs.dropWhile test) marks last := by
  cases cs with
  | nil => simp
  | cons c rest =>
    by_cases hc : test c = true
    · rw [← (h c rfl hc).finishes_iff, List.takeWhile_append_dropWhile]
    · rw [List.takeWhile_cons_of_neg hc, List.dropWhile_cons_of_neg hc, List.append_nil]

/-- A text of the class can be put in front, also when more of the class follows it. -/
theorem Finishes.of_quietAt {test : Char → Bool} (hquiet : QuietAt done stack test (text ++ rest))
    (hquiet' : QuietAt (done ++ text) stack test rest) (htext : ∀ c ∈ text, test c = true)
    (h : Finishes (done ++ text) stack rest marks last) :
    Finishes done stack (text ++ rest) marks last := by
  rw [hquiet'.finishes_iff] at h
  rwa [hquiet.finishes_iff, List.takeWhile_append_of_pos htext,
    List.dropWhile_append_of_pos htext, ← List.append_assoc]

end Dragon.Highlight
