import Dragon.Proofs.Check.Confined
import Dragon.Proofs.Compile
import Dragon.Proofs.Token.Written
import Dragon.Proofs.Tree.Derived
import Dragon.Proofs.Tree.Nesting

/-!
# Errors and their places

An error of the syntax or of the analysis has a place in the source text, with one exception: a
number with a digit that is not decimal and an integer with too many digits are tokens like any
other, and the analysis fails where it looks for the value, without a place.
-/
namespace Dragon

/-- The failure of an integer that starts with too many digits, or of a number one of whose digits
is not decimal. -/
inductive Token.Unreadable (t : Token) : CheckFailure → Prop
  | overlong (hkind : t.kind = .integer) (hlimit : Check.digitLimit < Check.leadingDigits t.value) :
      Unreadable t (.overlongInteger (Check.leadingDigits t.value))
  | integer (hkind : t.kind = .integer) (hlimit : Check.leadingDigits t.value ≤ Check.digitLimit)
      (hdigit : HasOtherDigit t.value.toList) : Unreadable t (.unreadableInteger t.value)
  | float (hkind : t.kind = .float) (hdigit : HasOtherDigit t.value.toList) :
      Unreadable t (.unreadableFloat t.value)

theorem Token.Unreadable.down {t : Token} {failure : CheckFailure} (h : t.Unreadable failure)
    (n : Nat) : (t.down n).Unreadable failure := by
  cases h with
  | overlong hkind hlimit => exact .overlong hkind hlimit
  | integer hkind hlimit hdigit => exact .integer hkind hlimit hdigit
  | float hkind hdigit => exact .float hkind hdigit

variable {file source : String} {stream : TokenStream} {tree : Tree.Program}

namespace TokenStream

/-- A token of a source text has no value as a number just when it is unreadable. -/
theorem unreadable_iff (hstream : ofSource file source = .ok stream) {t : Token}
    (ht : t ∈ stream.tokens) {failure : CheckFailure} :
    t.Unreadable failure ↔
      (t.kind = .integer ∧ Check.integerValue t.value = .error failure) ∨
      (t.kind = .float ∧ Check.floatValue? t.value = none ∧
        failure = .unreadableFloat t.value) := by
  have hinteger (hkind : t.kind = .integer) := Check.integerValue_eq_error_iff
    ((isFloat_of_ofSource hstream ht (.inl hkind)).2 hkind) failure
  have hfloat (hkind : t.kind = .float) :
      Check.floatValue? t.value = none ↔ HasOtherDigit t.value.toList :=
    Check.floatValue?_eq_none_iff (isFloat_of_ofSource hstream ht (.inr hkind)).1
  constructor
  · intro h
    cases h with
    | overlong hkind hlimit => exact .inl ⟨hkind, (hinteger hkind).2 (.inl ⟨hlimit, rfl⟩)⟩
    | integer hkind hlimit hdigit =>
      exact .inl ⟨hkind, (hinteger hkind).2 (.inr ⟨hlimit, hdigit, rfl⟩)⟩
    | float hkind hdigit => exact .inr ⟨hkind, (hfloat hkind).2 hdigit, rfl⟩
  · rintro (⟨hkind, hvalue⟩ | ⟨hkind, hvalue, rfl⟩)
    · obtain ⟨hlimit, rfl⟩ | ⟨hlimit, hdigit, rfl⟩ := (hinteger hkind).1 hvalue
      · exact .overlong hkind hlimit
      · exact .integer hkind hlimit hdigit
    · exact .float hkind ((hfloat hkind).1 hvalue)

end TokenStream

/-! ### Failures of the analysis -/

/-- The analysis of a source text fails with a violation, or at an unreadable token. -/
theorem Checked.failure_cases (hstream : TokenStream.ofSource file source = .ok stream)
    (htree : Tree.Program.ofSource file source = .ok tree) {failure : CheckFailure}
    (h : (ofTree tree).result = .error failure) :
    (∃ fault, failure = .violation fault) ∨ ∃ t ∈ stream.tokens, t.Unreadable failure := by
  have hnumerals :
      Tree.blockNumerals (fun k text => ∃ t ∈ stream.tokens, t.kind = k ∧ t.value = text)
        tree.statements :=
    Tree.numerals_of_ofSource hstream (fun t ht => ⟨t, ht, rfl, rfl⟩) htree
  have hends := Check.block_bounded tree.statements hnumerals .initial
  unfold ofTree EStateM.run at h
  cases hrun : Check.block tree.statements .initial with
  | ok statements state =>
    rw [hrun] at h
    cases h
  | error e state =>
    rw [hrun] at h
    cases h
    obtain ⟨-, hfrom⟩ := hends.of_error hrun
    cases hfrom with
    | violation fault => exact .inl ⟨fault, rfl⟩
    | integer hmem hvalue =>
      obtain ⟨t, ht, hkind, rfl⟩ := hmem
      exact .inr ⟨t, ht, (TokenStream.unreadable_iff hstream ht).2 (.inl ⟨hkind, hvalue⟩)⟩
    | float hmem hvalue =>
      obtain ⟨t, ht, hkind, rfl⟩ := hmem
      exact .inr ⟨t, ht, (TokenStream.unreadable_iff hstream ht).2 (.inr ⟨hkind, hvalue, rfl⟩)⟩

/-- What is accepted by the analysis passes all stages after it. -/
theorem finish_ne_error {p : Typed.Program} (hchecked : (Checked.ofTree tree).result = .ok p)
    (stage : Stage) (optimize : Bool) (error : CompileError) :
    (finish stage optimize p).value ≠ .error error := by
  intro herror
  cases stage with
  | parsed => cases herror
  | analyzed => cases herror
  | optimized => cases herror
  | script =>
    obtain ⟨script, names, hrun, -⟩ := exists_transcript_of_accepted hchecked optimize
    rw [finish_script, scriptOf, Script.ofProgram_of_ofBlock hrun] at herror
    cases herror

/-! ### A number on its own -/

/-- A number as an expression. -/
inductive Token.Writes (t : Token) : Tree.Expr → Prop
  | integer (hkind : t.kind = .integer) : Writes t (.integer t.value t.span)
  | float (hkind : t.kind = .float) : Writes t (.float t.value t.span)

/-- The program that proclaims a number, read from its three tokens. -/
theorem read_proclaimed {start t stop eof : Token} {e : Tree.Expr}
    (hstart : start.kind = .keyword .proclaim) (ht : t.Writes e)
    (hstop : stop.kind = .operator .semicolon) :
    Tree.Program.read file ⟨[start, t, stop], eof⟩ =
      .ok ⟨[.print e (start.span.through stop.span)], ⟨file, .origin, eof.span.stop⟩⟩ := by
  obtain ⟨kind, text, span⟩ := start
  obtain ⟨kind', text', span'⟩ := t
  obtain ⟨kind'', text'', span''⟩ := stop
  obtain rfl : kind = .keyword .proclaim := hstart
  obtain rfl : kind'' = .operator .semicolon := hstop
  cases ht with
  | integer hkind =>
    obtain rfl : kind' = .integer := hkind
    rfl
  | float hkind =>
    obtain rfl : kind' = .float := hkind
    rfl

/-- The analysis fails at the only expression of a program that proclaims it. -/
theorem Checked.proclaimed {e : Tree.Expr} {span whole : Span} {failure : CheckFailure}
    (h : Check.expr e = throw failure) :
    (ofTree ⟨[.print e span], whole⟩).result = .error failure := by
  have hblock : Check.block [.print e span] .initial = .error failure .initial := by
    rw [Check.block, Check.stmt, h]
    rfl
  unfold ofTree EStateM.run
  rw [hblock]

/-- Proclaiming an unreadable number fails at it. -/
theorem compile_proclaimed {start t stop eof : Token} {failure : CheckFailure}
    (hsource : TokenStream.ofSource file source = .ok ⟨[start, t, stop], eof⟩)
    (hstart : start.kind = .keyword .proclaim) (hstop : stop.kind = .operator .semicolon)
    (ht : t.Unreadable failure) {stage : Stage} (hstage : stage ≠ .parsed) (optimize : Bool) :
    (compile stage optimize file source).value = .error (.rejected failure) := by
  have htree {e : Tree.Expr} (he : t.Writes e) :
      Tree.Program.ofSource file source =
        .ok ⟨[.print e (start.span.through stop.span)], ⟨file, .origin, eof.span.stop⟩⟩ := by
    rw [Tree.Program.ofSource, hsource]
    exact read_proclaimed hstart he hstop
  obtain ⟨hkind, hvalue⟩ | ⟨hkind, hvalue, rfl⟩ :=
    (TokenStream.unreadable_iff hsource (by simp)).1 ht
  · refine compile_rejected optimize (htree (.integer hkind)) (Checked.proclaimed ?_) hstage
    rw [Check.expr, Check.integer, hvalue]
  · refine compile_rejected optimize (htree (.float hkind)) (Checked.proclaimed ?_) hstage
    rw [Check.expr, Check.float, hvalue]

/-- A text that is cut in one piece is one token. -/
theorem TokenStream.ofSource_piece (file : String) {text : String} {p : Piece} {kind : Kind}
    (hcut : cut [] text.toList = ⟨[p], none⟩) (hkind : p.kind = some kind) :
    ∃ t eof, ofSource file text = .ok ⟨[t], eof⟩ ∧ t.kind = kind := by
  rw [ofSource_of_cut (by rw [hcut]), hcut]
  simp [Piece.place, hkind]

/-- A text of one token between two lines, as the operand of a statement. -/
theorem TokenStream.ofSource_proclaimed {numeral : String} {t : Token}
    (hstream : ofSource file numeral = .ok stream) (htokens : stream.tokens = [t]) :
    ∃ start stop eof,
      ofSource file ("proclaim\n" ++ numeral ++ "\n;") = .ok ⟨[start, t.down 1, stop], eof⟩ ∧
      start.kind = .keyword .proclaim ∧ stop.kind = .operator .semicolon := by
  obtain ⟨start, eof, hfirst, hstart⟩ := ofSource_piece file
    (show cut [] "proclaim".toList = ⟨[.verbatim (.keyword .proclaim) "proclaim".toList], none⟩ by
      decide +kernel) rfl
  obtain ⟨stop, eof', hlast, hstop⟩ := ofSource_piece file
    (show cut [] ";".toList = ⟨[.verbatim (.operator .semicolon) ";".toList], none⟩ by
      decide +kernel) rfl
  have hlines : "proclaim\n" ++ numeral ++ "\n;" =
      "proclaim" ++ "\n" ++ (numeral ++ "\n" ++ ";") := by
    rw [String.ext_iff]
    simp
  have hsource := ofSource_line hfirst (ofSource_line hstream hlast)
  rw [← hlines, htokens] at hsource
  exact ⟨start, _, _, hsource, hstart, hstop⟩

/-- Digits on their own are one integer. -/
theorem TokenStream.ofSource_digits (file : String) {digits : List Char} (h : IsDigits digits) :
    ∃ stream t, ofSource file (String.ofList digits) = .ok stream ∧ stream.tokens = [t] ∧
      t.kind = .integer ∧ t.value = String.ofList digits := by
  obtain ⟨hne, hdigits⟩ := h
  obtain ⟨c, rest, rfl⟩ := List.exists_cons_of_ne_nil hne
  obtain ⟨hc, hrest⟩ := List.forall_mem_cons.1 hdigits
  have htail : NumberTail.atStart rest = ⟨rest, [], []⟩ := by
    simpa using NumberTail.atStart_append hrest .none .none halted_nil
  have hbare : (c :: rest).filter (· != '_') = c :: rest :=
    List.filter_eq_self.2 fun d hd => by simpa using ne_of_isDigit (hdigits d hd) (by decide)
  obtain ⟨hfault, hcontents⟩ := Lexes.number hc rest halted_nil .nil
  simp only [htail, NumberTail.text, List.append_nil, hbare] at hfault hcontents
  rw [← Piece.map_place file .origin, List.map_eq_singleton_iff] at hcontents
  obtain ⟨t, htokens, ht⟩ := hcontents
  obtain ⟨hkind, hvalue⟩ := Prod.mk.inj ht
  exact ⟨_, t, ofSource_of_cut hfault, htokens, hkind, hvalue⟩

/-- An integer with too many digits fails whatever its value is. -/
theorem compile_overlong (file : String) {digits : List Char}
    (hdigits : ∀ c ∈ digits, Text.isDecimal c = true) (hlimit : Check.digitLimit < digits.length)
    {stage : Stage} (hstage : stage ≠ .parsed) (optimize : Bool) :
    (compile stage optimize file ("proclaim\n" ++ String.ofList digits ++ "\n;")).value =
      .error (.rejected (.overlongInteger digits.length)) := by
  have hne : digits ≠ [] := List.ne_nil_of_length_pos (Nat.zero_lt_of_lt hlimit)
  obtain ⟨stream, t, hstream, htokens, hkind, hvalue⟩ := TokenStream.ofSource_digits file
    ⟨hne, fun c hc => Text.isDigit_of_isDecimal (hdigits c hc)⟩
  have hleading : Check.leadingDigits t.value = digits.length := by
    rw [hvalue, Check.leadingDigits, String.toList_ofList, List.takeWhile_eq_self_iff.2 hdigits]
  have hoverlong : t.Unreadable (.overlongInteger digits.length) := by
    rw [← hleading] at hlimit ⊢
    exact .overlong hkind hlimit
  obtain ⟨start, stop, eof, hsource, hstart, hstop⟩ :=
    TokenStream.ofSource_proclaimed hstream htokens
  exact compile_proclaimed hsource hstart hstop (hoverlong.down 1) hstage optimize

/-! ### All source texts -/

/-- A compilation fails without a place only past the syntax and only at an integer of the
source text with too many digits or at a number of it with a digit which is not decimal; and each
such number makes one fail, already where it is the whole of what is proclaimed. -/
theorem compile_unlocated (file : String) :
    (∀ source stage optimize error,
      (compile stage optimize file source).value = .error error → error.diagnostic? = none →
      stage ≠ .parsed ∧ ∃ stream failure, TokenStream.ofSource file source = .ok stream ∧
        error = .rejected failure ∧ ∃ t ∈ stream.tokens, t.Unreadable failure) ∧
    (∀ numeral stream t failure, TokenStream.ofSource file numeral = .ok stream →
      stream.tokens = [t] → t.Unreadable failure →
      ∀ stage optimize, stage ≠ .parsed →
        (compile stage optimize file ("proclaim\n" ++ numeral ++ "\n;")).value =
          .error (.rejected failure)) := by
  constructor
  · intro source stage optimize error herror hplace
    cases htree : Tree.Program.ofSource file source with
    | error fault =>
      rw [compile_malformed optimize htree] at herror
      cases herror
      cases hplace
    | ok tree =>
      have hstage : stage ≠ .parsed := by
        rintro rfl
        rw [compile, htree] at herror
        cases herror
      refine ⟨hstage, ?_⟩
      cases hchecked : (Checked.ofTree tree).result with
      | ok p =>
        rw [compile_accepted optimize htree hchecked hstage] at herror
        exact absurd herror (finish_ne_error hchecked stage optimize error)
      | error failure =>
        rw [compile_rejected optimize htree hchecked hstage] at herror
        cases herror
        obtain ⟨stream, hstream, -⟩ := Tree.bind_eq_ok htree
        refine ⟨stream, failure, hstream, rfl, ?_⟩
        obtain ⟨fault, rfl⟩ | hunreadable := Checked.failure_cases hstream htree hchecked
        · cases hplace
        · exact hunreadable
  · intro numeral stream t failure hstream htokens ht stage optimize hstage
    obtain ⟨start, stop, eof, hsource, hstart, hstop⟩ :=
      TokenStream.ofSource_proclaimed hstream htokens
    exact compile_proclaimed hsource hstart hstop (ht.down 1) hstage optimize

/-- A fraction whose only digit is a superscript. -/
theorem compile_unlocated_fraction :
    (compile .analyzed false "" ("proclaim\n" ++ "1_0.²" ++ "\n;")).value =
      .error (.rejected (.unreadableFloat "10.²")) := by
  have hnumeral : TokenStream.ofSource "" "1_0.²" = .ok
      ⟨[⟨.float, "10.²", ⟨"", ⟨1, 1⟩, ⟨1, 5⟩⟩⟩], ⟨.eof, "", ⟨"", ⟨1, 6⟩, ⟨1, 5⟩⟩⟩⟩ := by
    decide +kernel
  have hdigit : HasOtherDigit "10.²".toList := ⟨'²', by decide, by decide, by decide⟩
  exact (compile_unlocated "").2 _ _ _ _ hnumeral rfl (.float rfl hdigit) _ _ (by decide)

/-- A superscript is taken for a number, and no place is named where it can not be read. -/
theorem compile_superscript :
    (compile .script true "" "proclaim ²;").value =
        .error (.rejected (.unreadableInteger "²")) ∧
      (CompileError.rejected (.unreadableInteger "²")).diagnostic? = none := by
  have hsource : TokenStream.ofSource "" "proclaim ²;" = .ok
      ⟨[⟨.keyword .proclaim, "proclaim", ⟨"", ⟨1, 1⟩, ⟨1, 8⟩⟩⟩,
        ⟨.integer, "²", ⟨"", ⟨1, 10⟩, ⟨1, 10⟩⟩⟩,
        ⟨.operator .semicolon, ";", ⟨"", ⟨1, 11⟩, ⟨1, 11⟩⟩⟩],
        ⟨.eof, "", ⟨"", ⟨1, 12⟩, ⟨1, 11⟩⟩⟩⟩ := by
    decide +kernel
  have hdigit : HasOtherDigit "²".toList := ⟨'²', by decide, by decide, by decide⟩
  have hstage : Stage.script ≠ .parsed := by decide
  exact ⟨compile_proclaimed hsource rfl rfl (.integer rfl (by decide) hdigit) hstage true, rfl⟩

end Dragon
