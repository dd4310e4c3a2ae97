import Dragon.Diagnostic.Render
import Dragon.Proofs.Token.Joined

/-!
# Places as they are counted and as they are shown

A token's line is counted by line feeds alone, while the line that is shown for it is cut at every
line break. The two agree for a token exactly if the line breaks before it are line feeds, each with
or without a carriage return before it; at any other break, the line that is shown has ended before
the token starts.
-/
namespace Dragon

namespace Text

/-- All line breaks of a text are line feeds, or carriage returns directly before one. -/
def OnlyFeeds : List Char → Prop
  | [] => True
  | c :: rest =>
    (isLineBreak c = true → c = '\n' ∨ c = '\r' ∧ rest.head? = some '\n') ∧ OnlyFeeds rest

/-! ### Displayed lines -/

theorem ne_of_not_break {c : Char} (hc : isLineBreak c = false) : c ≠ '\n' := by
  rintro rfl
  exact absurd hc (by decide)

theorem splitLines_pair (rest : List Char) :
    splitLines ('\r' :: '\n' :: rest) = splitLines ('\n' :: rest) := by
  simp [splitLines, show isLineBreak '\n' = true by decide]

theorem splitLines_break {c : Char} {rest : List Char} (hc : isLineBreak c = true)
    (hpair : c = '\r' → rest.head? ≠ some '\n') :
    splitLines (c :: rest) = [] :: splitLines rest := by
  rw [splitLines, if_pos hc]
  rintro rest' hr rfl
  exact hpair hr rfl

theorem splitLines_plain {c : Char} {rest line : List Char} {lines : List (List Char)}
    (hc : isLineBreak c = false) (hrest : splitLines rest = line :: lines) :
    splitLines (c :: rest) = (c :: line) :: lines := by
  rw [splitLines, hc, hrest]
  · rfl
  · rintro rest' rfl
    exact absurd hc (by decide)

/-- The first line of a text is what stands before its first line break. -/
theorem splitLines_cons (c : Char) (rest : List Char) :
    ∃ lines, splitLines (c :: rest) = (c :: rest).takeWhile (!isLineBreak ·) :: lines := by
  induction rest generalizing c with
  | nil =>
    cases hc : isLineBreak c with
    | true => exact ⟨[], by simp [splitLines, hc]⟩
    | false => exact ⟨[], by simp [splitLines, hc]⟩
  | cons d rest ih =>
    obtain ⟨lines, hlines⟩ := ih d
    cases hc : isLineBreak c with
    | true =>
      rw [List.takeWhile_cons_of_neg (by simp [hc])]
      by_cases hpair : c = '\r' ∧ d = '\n'
      · obtain ⟨rfl, rfl⟩ := hpair
        exact ⟨splitLines rest, rfl⟩
      · refine ⟨_, splitLines_break hc ?_⟩
        simpa using hpair
    | false =>
      rw [List.takeWhile_cons_of_pos (by simp [hc])]
      exact ⟨lines, splitLines_plain hc hlines⟩

/-- The lines that a text ends and the line that is open at its end. -/
inductive Opens : List Char → List (List Char) → List Char → Prop
  | nil : Opens [] [] []
  | pair {rest : List Char} {closed : List (List Char)} {opened : List Char}
      (h : Opens ('\n' :: rest) closed opened) : Opens ('\r' :: '\n' :: rest) closed opened
  | ended {c : Char} {rest : List Char} {closed : List (List Char)} {opened : List Char}
      (hc : isLineBreak c = true) (hpair : c = '\r' → rest.head? ≠ some '\n')
      (h : Opens rest closed opened) : Opens (c :: rest) ([] :: closed) opened
  | opened {c : Char} {rest opened : List Char} (hc : isLineBreak c = false)
      (h : Opens rest [] opened) : Opens (c :: rest) [] (c :: opened)
  | closed {c : Char} {rest line : List Char} {closed : List (List Char)} {opened : List Char}
      (hc : isLineBreak c = false) (h : Opens rest (line :: closed) opened) :
      Opens (c :: rest) ((c :: line) :: closed) opened

theorem exists_opens (before : List Char) : ∃ closed opened, Opens before closed opened := by
  induction before with
  | nil => exact ⟨[], [], .nil⟩
  | cons c rest ih =>
    obtain ⟨closed, opened, h⟩ := ih
    cases hc : isLineBreak c with
    | false =>
      cases closed with
      | nil => exact ⟨[], c :: opened, .opened hc h⟩
      | cons line closed => exact ⟨(c :: line) :: closed, opened, .closed hc h⟩
    | true =>
      by_cases hpair : c = '\r' ∧ rest.head? = some '\n'
      · obtain ⟨rfl, hhead⟩ := hpair
        obtain ⟨rest, rfl⟩ := List.head?_eq_some_iff.1 hhead
        exact ⟨closed, opened, .pair h⟩
      · exact ⟨[] :: closed, opened, .ended hc (fun hr hhead => hpair ⟨hr, hhead⟩) h⟩

namespace Opens

variable {before opened : List Char} {closed : List (List Char)}

/-- What follows a text stands in the line that is open at its end. -/
theorem splitLines_append (h : Opens before closed opened) {c : Char} (hc : c ≠ '\n')
    {rest line : List Char} {lines : List (List Char)}
    (hlines : splitLines (c :: rest) = line :: lines) :
    splitLines (before ++ c :: rest) = closed ++ (opened ++ line) :: lines := by
  induction h with
  | nil => exact hlines
  | pair _ ih => exact (splitLines_pair _).trans ih
  | @ended d before closed opened hd hpair _ ih =>
    have hpair' : d = '\r' → (before ++ c :: rest).head? ≠ some '\n' := by
      intro hr
      cases before with
      | nil => simpa using hc
      | cons e before => exact hpair hr
    exact (splitLines_break hd hpair').trans (congrArg ([] :: ·) ih)
  | opened hd _ ih => exact splitLines_plain hd ih
  | closed hd _ ih => exact splitLines_plain hd ih

/-- A text ends at least as many lines as it has line feeds, and as many just if it has no other
line breaks. -/
theorem count_le (h : Opens before closed opened) :
    before.count '\n' ≤ closed.length ∧
      (before.count '\n' = closed.length ↔ OnlyFeeds before) := by
  induction h with
  | nil => simp [OnlyFeeds]
  | pair _ ih => simpa [OnlyFeeds] using ih
  | @ended c before closed opened hc hpair _ ih =>
    obtain ⟨hle, hiff⟩ := ih
    by_cases hfeed : c = '\n'
    · simp [OnlyFeeds, hfeed, hle, hiff]
    · have hcount : (c :: before).count '\n' = before.count '\n' := by simp [hfeed]
      have hnot : ¬ OnlyFeeds (c :: before) := by
        rintro ⟨hstray, -⟩
        obtain rfl | ⟨hr, hhead⟩ := hstray hc
        · exact hfeed rfl
        · exact hpair hr hhead
      rw [hcount, List.length_cons]
      exact ⟨by omega, by simp only [hnot, iff_false]; omega⟩
  | @opened c before opened hc _ ih =>
    simpa [OnlyFeeds, hc, ne_of_not_break hc] using ih
  | @closed c before line closed opened hc _ ih =>
    simpa [OnlyFeeds, hc, ne_of_not_break hc] using ih

/-- Without other line breaks, the open line is also the one that places are counted in. -/
theorem advance_eq (h : Opens before closed opened) (hfeeds : OnlyFeeds before) (p : Pos) :
    p.advance before = if closed = [] then ⟨p.line, p.column + opened.length⟩
      else ⟨p.line + closed.length, opened.length + 1⟩ := by
  induction h generalizing p with
  | nil => rfl
  | @pair rest closed opened hrest ih =>
    have hclosed : closed ≠ [] := by
      rintro rfl
      cases hrest with
      | opened hc => exact absurd hc (by decide)
    have hadvance := ih hfeeds.2 (p.step '\r')
    rw [if_neg hclosed] at hadvance ⊢
    exact hadvance
  | @ended c before closed opened hc hpair _ ih =>
    obtain rfl : c = '\n' := by
      obtain hfeed | ⟨hr, hhead⟩ := hfeeds.1 hc
      · exact hfeed
      · exact absurd hhead (hpair hr)
    have hadvance := ih hfeeds.2 (p.step '\n')
    rw [show p.advance ('\n' :: before) = (p.step '\n').advance before from rfl, hadvance]
    by_cases hclosed : closed = []
    · simp [hclosed, Pos.step, Nat.add_comm]
    · simp [hclosed, Pos.step]
      omega
  | @opened c before opened hc _ ih =>
    have hstep : p.step c = ⟨p.line, p.column + 1⟩ := if_neg (ne_of_not_break hc)
    have hadvance := ih hfeeds.2 (p.step c)
    rw [show p.advance (c :: before) = (p.step c).advance before from rfl, hadvance, hstep]
    simp
    omega
  | @closed c before line closed opened hc _ ih =>
    have hstep : p.step c = ⟨p.line, p.column + 1⟩ := if_neg (ne_of_not_break hc)
    have hadvance := ih hfeeds.2 (p.step c)
    rw [show p.advance (c :: before) = (p.step c).advance before from rfl, hadvance, hstep]
    simp

end Opens

end Text

namespace Pos

/-- The place at which the character after a text is shown: in the last line, and in its last
column, if there is one more character. -/
def shownAfter (before : List Char) : Pos :=
  let lines := Text.splitLines (before ++ ['x'])
  ⟨lines.length, (lines.getLast?.getD []).length⟩

theorem shownAfter_of_opens {before opened : List Char} {closed : List (List Char)}
    (h : Text.Opens before closed opened) :
    shownAfter before = ⟨closed.length + 1, opened.length + 1⟩ := by
  have hlines : Text.splitLines (before ++ ['x']) = closed ++ [opened ++ ['x']] :=
    h.splitLines_append (by decide) rfl
  simp [shownAfter, hlines]

/-- Places are shown where they are counted just if all line breaks before are line feeds. -/
theorem after_eq_shownAfter_iff (before : List Char) :
    Pos.after before = shownAfter before ↔ Text.OnlyFeeds before := by
  obtain ⟨closed, opened, h⟩ := Text.exists_opens before
  obtain ⟨-, hcount⟩ := h.count_le
  rw [shownAfter_of_opens h]
  constructor
  · intro heq
    have hline := congrArg Pos.line heq
    exact hcount.1 (Nat.succ.inj hline)
  · intro hfeeds
    have hadvance := h.advance_eq hfeeds origin
    rw [show origin = Pos.after [] from rfl, advance_after, List.nil_append] at hadvance
    rw [hadvance]
    by_cases hclosed : closed = []
    · simp [hclosed, Pos.after, Nat.add_comm]
    · simp [hclosed, Pos.after, Nat.add_comm]

/-- Where it differs, the line that is counted comes before the line that is shown. -/
theorem line_after_lt {before : List Char} (hstray : ¬ Text.OnlyFeeds before) :
    (Pos.after before).line < (shownAfter before).line := by
  obtain ⟨closed, opened, h⟩ := Text.exists_opens before
  obtain ⟨hle, hcount⟩ := h.count_le
  have hne : before.count '\n' ≠ closed.length := mt hcount.1 hstray
  rw [shownAfter_of_opens h]
  simp only [Pos.after]
  omega

theorem line_after_le (before : List Char) :
    (Pos.after before).line ≤ (shownAfter before).line := by
  by_cases hfeeds : Text.OnlyFeeds before
  · rw [(after_eq_shownAfter_iff before).2 hfeeds]
  · exact (line_after_lt hfeeds).le

theorem after_append {text : List Char} (htext : '\n' ∉ text) (before : List Char) :
    Pos.after (before ++ text) =
      ⟨(Pos.after before).line, (Pos.after before).column + text.length⟩ := by
  have htake : text.reverse.takeWhile (· != '\n') = text.reverse :=
    List.takeWhile_eq_self_iff.2 fun c hc => by
      have hne : c ≠ '\n' := fun heq => htext (heq ▸ List.mem_reverse.1 hc)
      simpa using hne
  simp only [Pos.after, List.count_append, List.count_eq_zero_of_not_mem htext, List.reverse_append,
    List.takeWhile_append, htake, if_pos, List.length_append, List.length_reverse]
  congr 1
  omega

end Pos

/-- A text is shown at a place: the line of the place has the text from the column on, up to the
end of the line. -/
def ShownAt (lines : List String) (place : Pos) (text : List Char) : Prop :=
  ∃ line, Text.lineAt? lines place.line = some line ∧
    text.takeWhile (!Text.isLineBreak ·) <+: line.toList.drop (place.column - 1)

/-- A token on one line is shown on that line, where it stands in it. -/
theorem shownAt_shownAfter {source : String} {before lexeme rest : List Char}
    (hsource : source.toList = before ++ (lexeme ++ rest)) (hne : lexeme ≠ [])
    (hlexeme : '\n' ∉ lexeme) :
    ShownAt (Text.lines source) (Pos.shownAfter before) lexeme := by
  obtain ⟨c, lexeme, rfl⟩ := List.exists_cons_of_ne_nil hne
  obtain ⟨closed, opened, hopens⟩ := Text.exists_opens before
  obtain ⟨lines, hlines⟩ := Text.splitLines_cons c (lexeme ++ rest)
  have hc : c ≠ '\n' := fun heq => hlexeme (heq ▸ List.mem_cons_self)
  have hsplit := hopens.splitLines_append hc hlines
  rw [← List.cons_append, ← hsource] at hsplit
  refine ⟨String.ofList (opened ++ (c :: (lexeme ++ rest)).takeWhile (!Text.isLineBreak ·)), ?_, ?_⟩
  · have hpos : (1 : Int) ≤ (closed.length + 1 : Nat) := by omega
    rw [Pos.shownAfter_of_opens hopens, Text.lines, hsplit, Text.lineAt?, if_pos hpos]
    simp
  · rw [Pos.shownAfter_of_opens hopens, String.toList_ofList, Nat.add_sub_cancel,
      List.drop_left, ← List.cons_append, List.takeWhile_append]
    split
    next hall =>
      rw [List.IsPrefix.eq_of_length (List.takeWhile_prefix _) hall]
      exact List.prefix_append _ _
    next => exact List.prefix_refl _

/-- There is a line at every place up to one that is shown. -/
theorem exists_lineAt_of_le {lines : List String} {place : Pos} {text : List Char}
    (h : ShownAt lines place text) {n : Nat} (hpos : 1 ≤ n) (hn : n ≤ place.line) :
    ∃ line, Text.lineAt? lines n = some line := by
  obtain ⟨line, hline, -⟩ := h
  have hplace : place.line ≤ lines.length := by
    unfold Text.lineAt? at hline
    split at hline
    · obtain ⟨hlength, -⟩ := List.getElem?_eq_some_iff.1 hline
      omega
    · cases hline
  have hn' : ((n : Int) - 1).toNat < lines.length := by omega
  exact ⟨_, (if_pos (by omega)).trans (List.getElem?_eq_getElem hn')⟩

/-! ### Tokens -/

/-- Every token of a row stands somewhere in its text. -/
theorem Factored.mem {file : String} {inside : Bool} {before text : List Char} {tokens : List Token}
    (h : Factored file inside before text tokens) {t : Token} (ht : t ∈ tokens) :
    ∃ inside first lexeme rest, before ++ text = first ++ (lexeme ++ rest) ∧
      Spells inside t.kind lexeme t.value ∧ t.span.start = Pos.after first ∧
      (t.kind ≠ .stringStart → t.span.stop = Pos.after (first ++ lexeme.dropLast)) := by
  induction h with
  | last hgap => cases ht
  | @token inside before gap lexeme rest u tokens hinside hgap hspells hfile hstart hstop _ ih =>
    obtain rfl | ht := List.mem_cons.1 ht
    · exact ⟨inside, before ++ gap, lexeme, rest, by simp, hspells, hstart, hstop⟩
    · obtain ⟨inside', first, lexeme', rest', htext, htoken⟩ := ih ht
      exact ⟨inside', first, lexeme', rest', by simpa using htext, htoken⟩

/-- The carets under a token are at least as many as its characters, and as many unless it is the
start of a string, which is marked together with the text after it. -/
theorem Render.caretCount_token {t : Token} {inside : Bool} {before lexeme : List Char}
    (hspells : Spells inside t.kind lexeme t.value) (hstart : t.span.start = Pos.after before)
    (hstop : t.kind ≠ .stringStart → t.span.stop = Pos.after (before ++ lexeme.dropLast))
    (line : String) :
    lexeme.length ≤ caretCount t.span line ∧
      (t.kind ≠ .stringStart → caretCount t.span line = lexeme.length) := by
  have hpos : 0 < lexeme.length := List.length_pos_iff.2 hspells.ne_nil
  by_cases hkind : t.kind = .stringStart
  · refine ⟨?_, fun hne => absurd hkind hne⟩
    rw [hkind] at hspells
    generalize t.value = value at hspells
    cases hspells
    exact Nat.le_max_left 1 _
  · have hlast : '\n' ∉ lexeme.dropLast := fun h =>
      hspells.newline_notMem (List.dropLast_subset _ h)
    have hcount : caretCount t.span line = lexeme.length := by
      rw [caretCount, hstart, hstop hkind, Pos.after_append hlast]
      simp only [if_true, List.length_dropLast]
      omega
    exact ⟨hcount.ge, fun _ => hcount⟩

theorem Render.excerpt_infix_label {colored : Bool} {linesOf : String → List String}
    {severity : Severity} {l : Label} {line : String}
    (hline : Text.lineAt? (linesOf l.span.file) l.span.start.line = some line) :
    excerpt colored severity l.span line <:+: label colored linesOf severity l := by
  unfold label
  rw [hline]
  dsimp only
  generalize excerpt colored severity l.span line = lines
  exact List.infix_append [_, _] lines _

/-- The text of a token is shown, in a line that is counted as the token's line just if all line
breaks before the token are line feeds, or carriage returns before them; if there are others, the
line that is shown for the token's place ended before it. -/
theorem TokenStream.shownAt_start_iff {file source : String} {stream : TokenStream}
    (h : ofSource file source = .ok stream) :
    ∀ t ∈ stream.tokens, ∃ inside before lexeme rest,
      source.toList = before ++ (lexeme ++ rest) ∧ Spells inside t.kind lexeme t.value ∧
      t.span.start = Pos.after before ∧
      ShownAt (Text.lines source) (Pos.shownAfter before) lexeme ∧
      (t.span.start = Pos.shownAfter before ↔ Text.OnlyFeeds before) ∧
      (¬ Text.OnlyFeeds before → t.span.start.line < (Pos.shownAfter before).line) ∧
      ∃ line, Text.lineAt? (Text.lines source) t.span.start.line = some line ∧
        lexeme.length ≤ Render.caretCount t.span line ∧
        (t.kind ≠ .stringStart → Render.caretCount t.span line = lexeme.length) ∧
        ∀ colored severity message, Render.excerpt colored severity t.span line <:+:
          Render.label colored (fun _ => Text.lines source) severity ⟨t.span, message⟩ := by
  intro t ht
  obtain ⟨inside, before, lexeme, rest, htext, hspells, hstart, hstop⟩ := (factored h).mem ht
  rw [List.nil_append] at htext
  have hshown := shownAt_shownAfter htext hspells.ne_nil hspells.newline_notMem
  obtain ⟨line, hline⟩ :
      ∃ line, Text.lineAt? (Text.lines source) t.span.start.line = some line := by
    rw [hstart]
    exact exists_lineAt_of_le hshown (Nat.le_add_left 1 _) (Pos.line_after_le before)
  obtain ⟨hle, hcount⟩ := Render.caretCount_token hspells hstart hstop line
  refine ⟨inside, before, lexeme, rest, htext, hspells, hstart, hshown, ?_, ?_, line, hline, hle,
    hcount, fun colored severity message => ?_⟩
  · rw [hstart]
    exact Pos.after_eq_shownAfter_iff before
  · rw [hstart]
    exact Pos.line_after_lt
  · exact @Render.excerpt_infix_label colored (fun _ => Text.lines source) severity
      ⟨t.span, message⟩ line hline

/-- A comment, a carriage return before a line feed, and a tab before the last token. -/
theorem TokenStream.shownAt_start_spaced :
    ∃ stream, ofSource "" "x // one\r\n\ty" = .ok stream ∧
      stream.tokens.map (·.value) = ["x", "y"] ∧
      ∀ t ∈ stream.tokens, ∃ inside before lexeme rest,
        "x // one\r\n\ty".toList = before ++ (lexeme ++ rest) ∧
        Spells inside t.kind lexeme t.value ∧ t.span.start = Pos.after before ∧
        ShownAt (Text.lines "x // one\r\n\ty") (Pos.shownAfter before) lexeme ∧
        (t.span.start = Pos.shownAfter before ↔ Text.OnlyFeeds before) := by
  have hany : (ofSource "" "x // one\r\n\ty").toOption.any
      (fun s => s.tokens.map (·.value) == ["x", "y"]) = true := by decide +kernel
  obtain ⟨stream, hstream, hvalues⟩ := exists_of_any hany
  refine ⟨stream, hstream, beq_iff_eq.1 hvalues, fun t ht => ?_⟩
  obtain ⟨inside, before, lexeme, rest, htext, hspells, hstart, hshown, hiff, -⟩ :=
    shownAt_start_iff hstream t ht
  exact ⟨inside, before, lexeme, rest, htext, hspells, hstart, hshown, hiff⟩

/-- After a line separator in a comment, the line shown for a name is an empty one before it. -/
theorem TokenStream.not_shownAt_separated :
    ∃ stream t, ofSource "" "//\u2028\nproclaim x;" = .ok stream ∧ t ∈ stream.tokens ∧
      t.value = "x" ∧
      Text.lineAt? (Text.lines "//\u2028\nproclaim x;") t.span.start.line = some "" ∧
      ¬ ShownAt (Text.lines "//\u2028\nproclaim x;") t.span.start "x".toList := by
  have hany : (ofSource "" "//\u2028\nproclaim x;").toOption.any (fun s => s.tokens.any fun t =>
      t.value == "x" && t.span.start.line == 2) = true := by decide +kernel
  obtain ⟨stream, hstream, hany⟩ := exists_of_any hany
  obtain ⟨t, ht, htoken⟩ := List.any_eq_true.1 hany
  simp only [Bool.and_eq_true, beq_iff_eq] at htoken
  obtain ⟨hvalue, hline⟩ := htoken
  have hempty : Text.lineAt? (Text.lines "//\u2028\nproclaim x;") (2 : Nat) = some "" := by
    decide +kernel
  refine ⟨stream, t, hstream, ht, hvalue, hline ▸ hempty, ?_⟩
  rintro ⟨line, hshown, htext⟩
  rw [hline, hempty] at hshown
  cases hshown
  have hx : "x".toList.takeWhile (!Text.isLineBreak ·) = ['x'] := by decide
  rw [hx] at htext
  simp at htext

end Dragon
