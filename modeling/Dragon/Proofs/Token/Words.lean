import Dragon.Proofs.Token.Spelling

/-!
# Identifiers

Every identifier is a letter or an underscore, and after it letters, digits, other numerals and
underscores, wherever in a text it was cut from.
-/
namespace Dragon

/-- A name that is an identifier. -/
def IsIdentifierName (name : String) : Prop := IsIdentifier name.toList

theorem mem_place {file : String} {start : Pos} {pieces : List Piece} {t : Token}
    (ht : t ∈ Piece.place file start pieces) :
    ∃ p ∈ pieces, p.kind = some t.kind ∧ t.value = p.value := by
  induction pieces generalizing start with
  | nil => cases ht
  | cons p rest ih =>
    have hrest {start : Pos} (ht : t ∈ Piece.place file start rest) :
        ∃ q ∈ p :: rest, q.kind = some t.kind ∧ t.value = q.value := by
      obtain ⟨q, hq, h⟩ := ih ht
      exact ⟨q, List.mem_cons_of_mem _ hq, h⟩
    unfold Piece.place at ht
    dsimp only at ht
    split at ht
    · exact hrest ht
    next kind hkind =>
      obtain rfl | ht := List.mem_cons.1 ht
      · exact ⟨p, List.mem_cons_self, hkind, rfl⟩
      · exact hrest ht

/-- Every token of a source text is spelled by a piece of it. -/
theorem TokenStream.spells_of_ofSource {file source : String} {stream : TokenStream}
    (h : ofSource file source = .ok stream) :
    ∀ t ∈ stream.tokens, ∃ inside lexeme, Spells inside t.kind lexeme t.value := by
  intro t ht
  unfold ofSource ofChars at h
  dsimp only at h
  split at h
  next hfault =>
    cases h
    obtain ⟨p, hp, hkind, hvalue⟩ := mem_place ht
    obtain ⟨inside, hspells⟩ := (begins_of_cut _ _ hfault).2.spells hp hkind
    exact ⟨inside, p.text, hvalue ▸ hspells⟩
  next => cases h

theorem TokenStream.isIdentifier_of_ofSource {file source : String} {stream : TokenStream}
    (h : ofSource file source = .ok stream) :
    ∀ t ∈ stream.tokens, t.kind = .identifier → IsIdentifierName t.value := by
  intro t ht hkind
  obtain ⟨inside, lexeme, hspells⟩ := spells_of_ofSource h t ht
  rw [hkind] at hspells
  cases hspells with
  | identifier hword => exact hword

end Dragon
