import Dragon.Proofs.Editor.Queries

/-!
# Completion agrees with lookup

No label is offered twice, the labels are the words of the language and the names in scope, and what
is said of a name is said of the symbol that it means.
-/
namespace Dragon.Editor

/-- Some items are those of the first bindings of the names that are not in `seen`. -/
structure Offers (objects : Objects) (seen : List String) (bs : List Binding)
    (items : List Item) : Prop where
  nodup : (items.map (·.label)).Nodup
  mem_iff : ∀ name, name ∈ items.map (·.label) ↔ name ∉ seen ∧ name ∈ bs.map (·.name)
  shown : ∀ item ∈ items, ∃ b detail, bs.find? (·.name == item.label) = some b ∧
    display objects item.label b.symbol = .ok detail ∧
    item.kind = .ofRole (roleOf objects b.symbol) ∧ item.detail = some detail

variable {objects : Objects} {seen : List String} {b : Binding} {bs : List Binding}
  {items : List Item}

theorem Offers.ne (h : Offers objects (b.name :: seen) bs items) {item : Item}
    (hitem : item ∈ items) : b.name ≠ item.label := by
  intro heq
  exact ((h.mem_iff item.label).1 (List.mem_map_of_mem hitem)).1 (heq ▸ List.mem_cons_self)

/-- A binding of a name that was seen before offers nothing. -/
theorem Offers.skip (h : Offers objects seen bs items) (hseen : b.name ∈ seen) :
    Offers objects seen (b :: bs) items where
  nodup := h.nodup
  mem_iff name := by
    rw [h.mem_iff, List.map_cons, List.mem_cons]
    refine and_congr_right fun hname => (or_iff_right ?_).symm
    rintro rfl
    exact hname hseen
  shown item hitem := by
    obtain ⟨c, detail, hc, hshown⟩ := h.shown item hitem
    have hne : b.name ≠ item.label := fun heq =>
      ((h.mem_iff item.label).1 (List.mem_map_of_mem hitem)).1 (heq ▸ hseen)
    exact ⟨c, detail, (List.find?_cons_of_neg (by simpa using hne)).trans hc, hshown⟩

theorem Offers.cons {detail : String} (h : Offers objects (b.name :: seen) bs items)
    (hseen : b.name ∉ seen) (hdetail : display objects b.name b.symbol = .ok detail) :
    Offers objects seen (b :: bs)
      (⟨b.name, .ofRole (roleOf objects b.symbol), some detail⟩ :: items) where
  nodup := by
    refine List.nodup_cons.2 ⟨fun hmem => ?_, h.nodup⟩
    exact ((h.mem_iff b.name).1 hmem).1 List.mem_cons_self
  mem_iff name := by
    rw [List.map_cons, List.mem_cons, h.mem_iff, List.map_cons, List.mem_cons, List.mem_cons]
    by_cases hname : name = b.name
    · subst hname
      simp [hseen]
    · simp [hname]
  shown item hitem := by
    rcases List.mem_cons.1 hitem with rfl | hitem
    · exact ⟨b, detail, List.find?_cons_of_pos (by simp), hdetail, rfl, rfl⟩
    · obtain ⟨c, shown, hc, hshown⟩ := h.shown item hitem
      exact ⟨c, shown, (List.find?_cons_of_neg (by simpa using h.ne hitem)).trans hc, hshown⟩

/-- Of the bindings of a name only the innermost is offered. -/
theorem offers_symbolItems (h : symbolItems objects seen bs = .ok items) :
    Offers objects seen bs items := by
  induction bs generalizing seen items with
  | nil =>
    cases h
    exact ⟨.nil, by simp, by simp⟩
  | cons b rest ih =>
    rw [symbolItems] at h
    split at h
    next hseen => exact (ih h).skip (by simpa using hseen)
    next hseen =>
      obtain ⟨detail, hdetail, h⟩ := Tree.bind_eq_ok h
      obtain ⟨items, hitems, h⟩ := Tree.bind_eq_ok h
      cases h
      exact (ih hitems).cons (by simpa using hseen) hdetail

/-! ### Words -/

/-- Nothing gets lost where a word is inserted. -/
theorem perm_insertWord (word : String) (list : List String) :
    (insertWord word list).Perm (word :: list) := by
  induction list with
  | nil => exact .refl _
  | cons first rest ih =>
    rw [insertWord]
    split
    · exact .refl _
    · exact (ih.cons first).trans (.swap word first rest)

theorem perm_words : words.Perm vocabulary := by
  rw [words]
  induction vocabulary with
  | nil => exact .refl _
  | cons word rest ih => exact (perm_insertWord word _).trans (ih.cons word)

theorem nodup_words : words.Nodup := by
  rw [perm_words.nodup_iff]
  decide

/-- The words of the language are those with a kind of their own and the names of types. -/
theorem mem_words_iff (word : String) :
    word ∈ words ↔ wordKind word ≠ .identifier ∨ word ∈ typeNames := by
  have hkind : wordKind word ≠ .identifier ↔
      word ∈ Keyword.all.map (·.text) ∨ word ∈ ["shall", "shant"] := by
    unfold wordKind
    split
    next k hk =>
      have htext : k.text = word := by simpa using List.find?_some hk
      have hmem : word ∈ Keyword.all.map (·.text) :=
        List.mem_map.2 ⟨k, List.mem_of_find?_eq_some hk, htext⟩
      simp [hmem]
    next hnone =>
      have hnot : word ∉ Keyword.all.map (·.text) := by
        rw [List.mem_map]
        rintro ⟨k, hmem, htext⟩
        exact List.find?_eq_none.1 hnone k hmem (by simpa using htext)
      split <;> simp_all
  rw [perm_words.mem_iff, vocabulary, List.mem_append, List.mem_append, hkind]

/-! ### Answers -/

/-- What hovering says of a name that means something. -/
theorem Document.describe_eq {d : Document} {globals : Globals} {word text : String}
    {symbol : Symbol} (hglobals : d.globals = some globals) (hword : word ≠ "")
    (hlookup : globals.scope.lookup? word = some symbol)
    (htext : display globals.objects word symbol = .ok text) :
    d.describe word =
      .ok (some s!"**{(roleOf globals.objects symbol).text}** \x60{text}\x60") := by
  have hempty : word.isEmpty = false := by simpa using hword
  rw [Document.describe, hglobals]
  simp only [hempty, Bool.false_eq_true, if_false, hlookup, htext]
  rfl

theorem completions_eq_ok {d : Option Document} (h : completions d = .ok items) :
    ∃ named, items = words.map (fun w => ⟨w, .keyword, none⟩) ++ named ∧
      ((d.bind (·.globals) = none ∧ named = []) ∨
        ∃ document globals, d = some document ∧ document.globals = some globals ∧
          Offers globals.objects words (globals.scope.flatMap (·.bindings)) named) := by
  rw [completions] at h
  cases hglobals : d.bind (·.globals) with
  | none =>
    rw [hglobals] at h
    cases h
    exact ⟨[], (List.append_nil _).symm, .inl ⟨rfl, rfl⟩⟩
  | some globals =>
    rw [hglobals] at h
    obtain ⟨named, hnamed, h⟩ := Tree.bind_eq_ok h
    cases h
    obtain ⟨document, hd, hdocument⟩ := Option.bind_eq_some_iff.1 hglobals
    exact ⟨named, rfl, .inr ⟨document, globals, hd, hdocument, offers_symbolItems hnamed⟩⟩

/-- Whenever completion answers, no label comes twice, and the labels are the words of the language
and the names that are bound at the top of the document or around it. An item whose label is not
such a word shows the symbol that its label means, and so does hovering over it. -/
theorem completions_agree {d : Option Document} (h : completions d = .ok items) :
    (items.map (·.label)).Nodup ∧
    (∀ label, label ∈ items.map (·.label) ↔
      wordKind label ≠ .identifier ∨ label ∈ typeNames ∨
        ∃ document globals, d = some document ∧ document.globals = some globals ∧
          ∃ frame ∈ globals.scope, label ∈ frame.bindings.map (·.name)) ∧
    ∀ item ∈ items, wordKind item.label = .identifier → item.label ∉ typeNames →
      ∃ document globals symbol text, d = some document ∧ document.globals = some globals ∧
        globals.scope.lookup? item.label = some symbol ∧
        display globals.objects item.label symbol = .ok text ∧
        item.detail = some text ∧ item.kind = .ofRole (roleOf globals.objects symbol) ∧
        (item.label ≠ "" → document.describe item.label =
          .ok (some s!"**{(roleOf globals.objects symbol).text}** \x60{text}\x60")) := by
  obtain ⟨named, rfl, hnamed⟩ := completions_eq_ok h
  have hwords : (words.map fun w => (⟨w, .keyword, none⟩ : Item)).map (·.label) = words := by
    rw [List.map_map]
    exact List.map_id' words
  have hword {item : Item} (hitem : item ∈ words.map fun w => ⟨w, .keyword, none⟩) :
      wordKind item.label ≠ .identifier ∨ item.label ∈ typeNames := by
    obtain ⟨w, hw, rfl⟩ := List.mem_map.1 hitem
    exact (mem_words_iff w).1 hw
  simp only [List.map_append, hwords, List.mem_append, mem_words_iff, or_assoc]
  rcases hnamed with ⟨hnone, rfl⟩ | ⟨document, globals, rfl, hdocument, hoffers⟩
  · have hunbound {document : Document} {globals : Globals} (hd : d = some document)
        (hglobals : document.globals = some globals) : False := by
      rw [hd, Option.bind_some, hglobals] at hnone
      cases hnone
    refine ⟨by simpa using nodup_words, fun label => ?_, fun item hitem hkind htype => ?_⟩
    · refine or_congr_right (or_congr_right (iff_of_false (by simp) ?_))
      rintro ⟨document, globals, hd, hglobals, -⟩
      exact hunbound hd hglobals
    · simp only [List.not_mem_nil, or_false] at hitem
      exact ((hword hitem).elim (absurd hkind) (absurd · htype))
  · refine ⟨?_, fun label => ?_, fun item hitem hkind htype => ?_⟩
    · refine List.nodup_append.2 ⟨nodup_words, hoffers.nodup, ?_⟩
      rintro label hlabel _ hmem rfl
      exact ((hoffers.mem_iff label).1 hmem).1 hlabel
    · have hbound : (∃ document' globals', some document = some document' ∧
          document'.globals = some globals' ∧
          ∃ frame ∈ globals'.scope, label ∈ frame.bindings.map (·.name)) ↔
          label ∈ (globals.scope.flatMap (·.bindings)).map (·.name) := by
        constructor
        · rintro ⟨document', globals', hd, hglobals, frame, hframe, hlabel⟩
          cases hd
          rw [hdocument] at hglobals
          cases hglobals
          rw [List.map_flatMap, List.mem_flatMap]
          exact ⟨frame, hframe, hlabel⟩
        · intro hlabel
          rw [List.map_flatMap, List.mem_flatMap] at hlabel
          exact ⟨document, globals, rfl, hdocument, hlabel⟩
      rw [hoffers.mem_iff, mem_words_iff, hbound, ← or_assoc, ← or_assoc]
      tauto
    · rcases hitem with hitem | hitem
      · exact ((hword hitem).elim (absurd hkind) (absurd · htype))
      obtain ⟨b, detail, hb, hdetail, hshown⟩ := hoffers.shown item hitem
      have hlookup : globals.scope.lookup? item.label = some b.symbol := by
        rw [lookup?_eq_find?, hb, Option.map_some]
      exact ⟨document, globals, b.symbol, detail, rfl, hdocument, hlookup, hdetail, hshown.2,
        hshown.1, fun hne => Document.describe_eq hdocument hne hlookup hdetail⟩

/-- A variable among the names of the library. -/
theorem completions_agree_variable :
    let document := (analyze "" "thine gold: int = 1;").document
    ∃ items, completions (some document) = .ok items ∧ (items.map (·.label)).Nodup ∧
      ∃ item ∈ items, ∃ globals symbol text, document.globals = some globals ∧
        globals.scope.lookup? "gold" = some symbol ∧
        display globals.objects "gold" symbol = .ok text ∧ item = ⟨"gold", .value, some text⟩ := by
  intro document
  have hany : (completions (some document)).toOption.any
      (·.any fun item => item.label == "gold" && item.kind == .value) = true := by
    decide +kernel
  obtain ⟨items, hitems, hany⟩ := exists_of_any hany
  obtain ⟨item, hitem, hlabel⟩ := List.any_eq_true.1 hany
  obtain ⟨hnodup, -, hshown⟩ := completions_agree hitems
  obtain ⟨label, kind, detail⟩ := item
  obtain ⟨rfl, rfl⟩ : label = "gold" ∧ kind = .value := by simpa using hlabel
  obtain ⟨_, globals, symbol, text, hd, hglobals, hlookup, htext, rfl, -⟩ :=
    hshown _ hitem (show wordKind "gold" = .identifier by decide)
      (show "gold" ∉ typeNames by decide)
  cases hd
  exact ⟨items, hitems, hnodup, _, hitem, globals, symbol, text, hglobals, hlookup, htext, rfl⟩

end Dragon.Editor
