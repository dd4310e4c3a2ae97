import Dragon.Proofs.Source
import Dragon.Proofs.Token.Spelling

/-!
# A source text is its tokens and the gaps between them

`Factored` reads a text from its start: a gap, a token with its place, a gap, and so on to a last
gap. Places are those of the first and the last character of a token, found by counting the line
feeds and characters in front of them. The stream of every text that can be cut is such a reading of
it.
-/
namespace Dragon

/-! ### Places -/

/-- The place of the character after a text: its line is one more than the line feeds of the text,
its column one more than the characters after the last of them. -/
def Pos.after (before : List Char) : Pos :=
  ⟨before.count '\n' + 1, (before.reverse.takeWhile (· != '\n')).length + 1⟩

theorem Pos.step_after (before : List Char) (c : Char) :
    (Pos.after before).step c = Pos.after (before ++ [c]) := by
  unfold step after
  by_cases hc : c = '\n'
  · simp [hc]
  · simp [hc]

theorem Pos.advance_after (before text : List Char) :
    (Pos.after before).advance text = Pos.after (before ++ text) := by
  induction text generalizing before with
  | nil => simp [advance]
  | cons c rest ih =>
    calc (Pos.after before).advance (c :: rest)
        = ((Pos.after before).step c).advance rest := rfl
      _ = (Pos.after (before ++ [c])).advance rest := by rw [step_after]
      _ = Pos.after (before ++ c :: rest) := by rw [ih, List.append_assoc, List.singleton_append]

theorem Pos.back_after {before : List Char} {c : Char} (hc : c ≠ '\n') :
    (Pos.after (before ++ [c])).back = Pos.after before := by
  simp [back, after, hc]

/-- The place before the end of a text without line feeds is that of its last character. -/
theorem Pos.back_after_append {before text : List Char} (hne : text ≠ []) (htext : '\n' ∉ text) :
    (Pos.after (before ++ text)).back = Pos.after (before ++ text.dropLast) := by
  have hlast : text.getLast hne ≠ '\n' := fun h => htext (h ▸ List.getLast_mem hne)
  have happend := List.dropLast_concat_getLast hne
  rw [← happend, ← List.append_assoc, back_after hlast, happend]

/-! ### Readings of a text -/

/-- The text `rest`, which comes after `before`, is a row of gaps and tokens that ends with a gap.
The flag says whether the row starts inside a string, where there are no gaps. -/
inductive Factored (file : String) :
    (inside : Bool) → (before rest : List Char) → List Token → Prop
  | last {before gap : List Char} (hgap : IsGap [] gap) : Factored file false before gap []
  | token {inside : Bool} {before gap lexeme rest : List Char} {t : Token} {tokens : List Token}
      (hinside : inside = true → gap = [])
      (hgap : IsGap (lexeme ++ rest) gap)
      (hspells : Spells inside t.kind lexeme t.value)
      (hfile : t.span.file = file)
      (hstart : t.span.start = Pos.after (before ++ gap))
      (hstop : t.kind ≠ .stringStart →
        t.span.stop = Pos.after (before ++ gap ++ lexeme.dropLast))
      (hrest : Factored file (t.kind.inside inside) (before ++ gap ++ lexeme) rest tokens) :
      Factored file inside before (gap ++ (lexeme ++ rest)) (t :: tokens)

/-- Pieces in a row are placed where they stand. The gap is what has been read of the text since
the last token. -/
theorem factored_place (file : String) (before gap : List Char) {inside : Bool}
    {pieces : List Piece} (hrow : Row [] inside pieces) (hinside : inside = true → gap = [])
    (hgap : IsGap (Piece.texts pieces) gap) :
    Factored file inside before (gap ++ Piece.texts pieces)
      (Piece.place file (Pos.after (before ++ gap)) pieces) := by
  induction pieces generalizing inside before gap with
  | nil =>
    obtain rfl : inside = false := hrow
    rw [Piece.texts_nil, List.append_nil]
    exact .last hgap
  | cons p rest ih =>
    obtain ⟨hp, hrest⟩ := hrow
    unfold Piece.Fits at hp
    unfold Piece.inside at hrest
    rw [Piece.texts_cons] at hgap ⊢
    rw [List.append_nil] at hp
    unfold Piece.place
    extract_lets stop
    have hstop : stop = Pos.after (before ++ gap ++ p.text) := Pos.advance_after _ _
    cases hkind : p.kind with
    | none =>
      rw [hkind] at hp hrest
      obtain ⟨rfl, htext⟩ := hp
      have hrest' := ih before (gap ++ p.text) hrest (by simp) (hgap.append htext)
      rwa [List.append_assoc, ← List.append_assoc before, ← hstop] at hrest'
    | some kind =>
      rw [hkind] at hp hrest
      obtain ⟨hspells, hahead⟩ := hp
      refine .token hinside hgap hspells rfl rfl ?_ ?_
      · intro hne
        show ((stop.advance p.ahead).back) = _
        rw [hahead hne, hstop]
        exact Pos.back_after_append hspells.ne_nil hspells.newline_notMem
      · have hrest' := ih (before ++ gap ++ p.text) [] hrest (fun _ => rfl) .nil
        rwa [List.append_nil, ← hstop] at hrest'

/-! ### Source texts -/

namespace TokenStream

variable {file source : String} {stream : TokenStream}

/-- The tokens of a text that is cut without a fault. -/
theorem ofSource_of_cut (h : (cut [] source.toList).fault = none) :
    ofSource file source = .ok ⟨Piece.place file .origin (cut [] source.toList).pieces,
      ⟨.eof, "", ⟨file, Pos.origin.advance source.toList,
        (Pos.origin.advance source.toList).back⟩⟩⟩ := by
  have htexts : (cut [] source.toList).pieces.flatMap (·.text) = source.toList := by
    obtain ⟨htexts, -⟩ := begins_of_cut [] source.toList h
    rw [List.append_nil] at htexts
    exact htexts.symm
  rw [ofSource, ofChars, h, htexts]

theorem fault_of_ofSource (h : ofSource file source = .ok stream) :
    (cut [] source.toList).fault = none := by
  unfold ofSource ofChars at h
  dsimp only at h
  split at h
  next hfault => exact hfault
  next => cases h

theorem kind_eof_of_ofSource (h : ofSource file source = .ok stream) :
    stream.eof.kind = .eof := by
  rw [ofSource_of_cut (fault_of_ofSource h)] at h
  cases h
  rfl

theorem factored (h : ofSource file source = .ok stream) :
    Factored file false [] source.toList stream.tokens := by
  have hfault := fault_of_ofSource h
  obtain ⟨htexts, hrow⟩ := begins_of_cut [] source.toList hfault
  rw [ofSource_of_cut hfault] at h
  cases h
  have hplace := factored_place file [] [] hrow (fun _ => rfl) .nil
  rw [List.append_nil] at htexts
  rwa [List.nil_append, ← htexts] at hplace

/-- Cutting a source text loses nothing, and every token carries its place: the text is a row of
gaps and of the tokens' spellings, and the end of the stream stands at its end. -/
theorem factored_of_ofSource (h : ofSource file source = .ok stream) :
    Factored file false [] source.toList stream.tokens ∧
      stream.eof.kind = .eof ∧ stream.eof.value = "" ∧ stream.eof.span.file = file ∧
      stream.eof.span.start = Pos.after source.toList := by
  refine ⟨factored h, kind_eof_of_ofSource h, ?_⟩
  rw [ofSource_of_cut (fault_of_ofSource h)] at h
  cases h
  exact ⟨rfl, rfl, Pos.advance_after [] _⟩

end TokenStream

/-- Numbers with underscores, a comment, an escape, and a string in the interpolation of a
string. -/
def layered : String :=
  "x = 1_0.5; // half\n\ty = \"a\\n$\x7b f(\"b\") // c\n\x7dd\";"

def layeredValues : List String :=
  ["x", "=", "10.5", ";", "y", "=", "\"", "a\n", "$\x7b", "f", "(", "b", ")", "\x7d", "d", "\"",
    ";"]

theorem TokenStream.factored_layered :
    ∃ stream, ofSource "" layered = .ok stream ∧ stream.tokens.map (·.value) = layeredValues ∧
      Factored "" false [] layered.toList stream.tokens ∧
      stream.eof.kind = .eof ∧ stream.eof.value = "" ∧ stream.eof.span.file = "" ∧
      stream.eof.span.start = Pos.after layered.toList := by
  have hany : (ofSource "" layered).toOption.any
      (fun s => s.tokens.map (·.value) == layeredValues) = true := by decide +kernel
  obtain ⟨stream, hstream, hvalues⟩ := exists_of_any hany
  exact ⟨stream, hstream, beq_iff_eq.1 hvalues, factored_of_ofSource hstream⟩

end Dragon
