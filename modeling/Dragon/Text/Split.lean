/-!
# Texts cut at every occurrence of a character

No part holds the character, and the parts put together with the character between them give the
text back.
-/
namespace Dragon.Text

/-- The parts of a text between the occurrences of a character. -/
def splitBy (mark : Char) : List Char → List (List Char)
  | [] => [[]]
  | c :: rest =>
    if c = mark then [] :: splitBy mark rest
    else match splitBy mark rest with
      | [] => [[c]]
      | part :: more => (c :: part) :: more

theorem splitBy_ne_nil (mark : Char) (cs : List Char) : splitBy mark cs ≠ [] := by
  cases cs with
  | nil => simp [splitBy]
  | cons c rest =>
    rw [splitBy]
    split
    · simp
    · split <;> simp

theorem not_mem_of_mem_splitBy {mark : Char} {cs part : List Char}
    (h : part ∈ splitBy mark cs) : mark ∉ part := by
  induction cs generalizing part with
  | nil => simp_all [splitBy]
  | cons c rest ih =>
    rw [splitBy] at h
    by_cases hc : c = mark
    · rw [if_pos hc] at h
      rcases List.mem_cons.1 h with rfl | h
      · simp
      · exact ih h
    · rw [if_neg hc] at h
      cases hs : splitBy mark rest with
      | nil => exact absurd hs (splitBy_ne_nil mark rest)
      | cons first more =>
        rw [hs] at h ih
        rcases List.mem_cons.1 h with rfl | h
        · simp [Ne.symm hc, ih]
        · exact ih (List.mem_cons_of_mem _ h)

theorem intercalate_splitBy (mark : Char) (cs : List Char) :
    [mark].intercalate (splitBy mark cs) = cs := by
  induction cs with
  | nil => simp [splitBy]
  | cons c rest ih =>
    rw [splitBy]
    cases h : splitBy mark rest with
    | nil => exact absurd h (splitBy_ne_nil mark rest)
    | cons part more =>
      rw [h] at ih
      by_cases hc : c = mark
      · rw [if_pos hc, List.intercalate_cons_cons, ih, hc]
        simp
      · rw [if_neg hc]
        cases more with
        | nil => simpa using ih
        | cons next others =>
          rw [List.intercalate_cons_cons] at ih ⊢
          simp [← ih]

end Dragon.Text
