import Dragon.Proofs.Token.Factored
import Mathlib.Data.Prod.Lex

/-!
# The order of tokens

Positions are ordered by their line, then by their column, so later characters have greater
positions, and the tokens of a text stand one after another. Only the token that starts a string
with interpolations is shown together with the text after it.
-/
namespace Dragon

/-! ### Positions -/

namespace Pos

def key (p : Pos) : Nat ×ₗ Nat := toLex (p.line, p.column)

theorem key_injective : Function.Injective key := by
  rintro ⟨line, column⟩ ⟨line', column'⟩ h
  simpa [key] using h

instance : LinearOrder Pos := LinearOrder.lift' key key_injective

theorem lt_iff {p q : Pos} : p < q ↔ p.line < q.line ∨ p.line = q.line ∧ p.column < q.column :=
  Prod.Lex.toLex_lt_toLex

theorem lt_step (p : Pos) (c : Char) : p < p.step c := by
  unfold step
  split
  · exact lt_iff.2 (.inl (Nat.lt_succ_self _))
  · exact lt_iff.2 (.inr ⟨rfl, Nat.lt_succ_self _⟩)

theorem after_le_append (before text : List Char) : after before ≤ after (before ++ text) := by
  induction text generalizing before with
  | nil => rw [List.append_nil]
  | cons c rest ih =>
    have hrest := ih (before ++ [c])
    rw [← step_after, List.append_assoc] at hrest
    exact (lt_step _ c).le.trans hrest

theorem after_lt_append (before : List Char) {text : List Char} (hne : text ≠ []) :
    after before < after (before ++ text) := by
  obtain ⟨c, rest, rfl⟩ := List.exists_cons_of_ne_nil hne
  have hrest := after_le_append (before ++ [c]) rest
  rw [← step_after, List.append_assoc] at hrest
  exact (lt_step _ c).trans_le hrest

/-- Going back from the end of a text does not pass its first character. -/
theorem after_le_back (before : List Char) {text : List Char} (hne : text ≠ []) :
    after before ≤ (after (before ++ text)).back := by
  have hinit := after_le_append before text.dropLast
  rw [← List.dropLast_concat_getLast hne, ← List.append_assoc]
  by_cases hc : text.getLast hne = '\n'
  · -- At the start of a line there is no column to go back to.
    refine hinit.trans (le_of_lt (lt_iff.2 (.inl ?_)))
    simp [back, after, hc]
  · rwa [back_after hc]

theorem origin_le_back_after (text : List Char) : origin ≤ (after text).back := by
  by_cases hne : text = []
  · subst hne
    exact le_refl origin
  · exact after_le_back [] hne

end Pos

/-! ### Tokens -/

/-- Tokens of a file that stand one after another. -/
structure Laid (file : String) (ts : List Token) : Prop where
  file : ∀ t ∈ ts, t.span.file = file
  proper : ∀ t ∈ ts, t.kind ≠ .stringStart → t.span.start ≤ t.span.stop
  starts : ts.Pairwise fun t u => t.span.start < u.span.start
  apart : ts.Pairwise fun t u => t.kind ≠ .stringStart → t.span.stop < u.span.start

theorem Laid.sublist {file : String} {ts ts' : List Token} (h : Laid file ts)
    (hsublist : ts'.Sublist ts) : Laid file ts' where
  file t ht := h.file t (hsublist.subset ht)
  proper t ht := h.proper t (hsublist.subset ht)
  starts := h.starts.sublist hsublist
  apart := h.apart.sublist hsublist

/-- A token lies between two positions. -/
structure Token.Between (low high : Pos) (t : Token) : Prop where
  low : low ≤ t.span.start
  high : t.kind ≠ .stringStart → t.span.stop ≤ high

/-- Tokens lie in order since the gaps and tokens of the text do. -/
theorem laid_of_factored {file : String} {inside : Bool} {before rest : List Char}
    {ts : List Token} (h : Factored file inside before rest ts) :
    Laid file ts ∧ ∀ t ∈ ts, t.Between (.after before) (Pos.after (before ++ rest)).back := by
  induction h with
  | last hgap => exact ⟨⟨by simp, by simp, .nil, .nil⟩, by simp⟩
  | @token inside before gap lexeme rest t ts hinside hgap hspells hfile hstart hstop hrest ih =>
    obtain ⟨hlaid, hbetween⟩ := ih
    have hne : lexeme ≠ [] := hspells.ne_nil
    -- The position of the last character of the token, and the one after it.
    have hsplit : before ++ gap ++ lexeme = before ++ gap ++ lexeme.dropLast ++
        [lexeme.getLast hne] := by
      rw [List.append_assoc _ lexeme.dropLast, List.dropLast_concat_getLast]
    have hlast : Pos.after (before ++ gap ++ lexeme.dropLast) <
        Pos.after (before ++ gap ++ lexeme) := by
      rw [hsplit]
      exact Pos.after_lt_append _ (by simp)
    refine ⟨⟨List.forall_mem_cons.2 ⟨hfile, hlaid.file⟩,
      List.forall_mem_cons.2 ⟨fun hkind => ?_, hlaid.proper⟩,
      .cons (fun u hu => ?_) hlaid.starts, .cons (fun u hu hkind => ?_) hlaid.apart⟩,
      List.forall_mem_cons.2 ⟨⟨?_, fun hkind => ?_⟩, fun u hu => ⟨?_, ?_⟩⟩⟩
    · rw [hstart, hstop hkind]
      exact Pos.after_le_append _ _
    · rw [hstart]
      exact (Pos.after_lt_append _ hne).trans_le (hbetween u hu).low
    · rw [hstop hkind]
      exact hlast.trans_le (hbetween u hu).low
    · rw [hstart]
      exact Pos.after_le_append _ _
    · have hback := Pos.after_le_back (before ++ gap ++ lexeme.dropLast)
        (List.cons_ne_nil (lexeme.getLast hne) rest)
      rw [List.append_cons, ← hsplit] at hback
      rwa [hstop hkind, ← List.append_assoc, ← List.append_assoc]
    · have hbefore := Pos.after_le_append before (gap ++ lexeme)
      rw [← List.append_assoc] at hbefore
      exact hbefore.trans (hbetween u hu).low
    · rw [← List.append_assoc, ← List.append_assoc]
      exact (hbetween u hu).high

/-- The tokens of a source text lie between its start and the mark of its end. -/
theorem TokenStream.laid_of_ofSource {file source : String} {stream : TokenStream}
    (h : ofSource file source = .ok stream) :
    Laid file stream.tokens ∧ Pos.origin ≤ stream.eof.span.stop ∧
      ∀ t ∈ stream.tokens, t.Between .origin stream.eof.span.stop := by
  obtain ⟨hlaid, hbetween⟩ := laid_of_factored (factored h)
  have hstop : stream.eof.span.stop = (Pos.after source.toList).back := by
    rw [ofSource_of_cut (fault_of_ofSource h)] at h
    cases h
    exact congrArg Pos.back (Pos.advance_after [] _)
  rw [hstop]
  exact ⟨hlaid, Pos.origin_le_back_after _, hbetween⟩

end Dragon
