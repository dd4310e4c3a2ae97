import Dragon.Proofs.Token.Joined
import Dragon.Proofs.Tree.Followed

/-!
# Marks come in pairs

The marks of strings and interpolations nest, and so do the braces inside of an interpolation; the
text of an interpolated string is chunks, no two in a row, and at least one interpolation. So no
reading of the tokens of a text misses such a mark.
-/
namespace Dragon

/-- Where tokens stand: in code, which may be that of an interpolation, or in the text of a string,
where a chunk may stand right before them and an interpolation somewhere before. -/
inductive Region where
  | code (inside : Bool)
  | text (chunk hole : Bool)

/-- The kinds that open or close something. -/
def Kind.isMark : Kind → Bool
  | .stringStart | .stringEnd | .interpStart | .interpEnd | .operator .lbrace
  | .operator .rbrace => true
  | _ => false

/-- Tokens that stand in a region and close all that they open. Braces are free outside of
interpolations. -/
inductive Bracketed : Region → List Token → Prop
  | done {inside} : Bracketed (.code inside) []
  | token {inside t ts} (hkind : t.kind.isMark = false) (hts : Bracketed (.code inside) ts) :
    Bracketed (.code inside) (t :: ts)
  | brace {t ts} (hkind : t.kind = .operator .lbrace ∨ t.kind = .operator .rbrace)
    (hts : Bracketed (.code false) ts) : Bracketed (.code false) (t :: ts)
  | braces {start inner stop ts} (hstart : start.kind = .operator .lbrace)
    (hinner : Bracketed (.code true) inner) (hstop : stop.kind = .operator .rbrace)
    (hts : Bracketed (.code true) ts) : Bracketed (.code true) (start :: (inner ++ stop :: ts))
  | string {inside start body stop ts} (hstart : start.kind = .stringStart)
    (hbody : Bracketed (.text false false) body) (hstop : stop.kind = .stringEnd)
    (hts : Bracketed (.code inside) ts) :
    Bracketed (.code inside) (start :: (body ++ stop :: ts))
  | ended {chunk} : Bracketed (.text chunk true) []
  | chunk {hole t ts} (hkind : t.kind = .string) (hvalue : t.value ≠ "")
    (hts : Bracketed (.text true hole) ts) : Bracketed (.text false hole) (t :: ts)
  | hole {chunk hole start inner stop ts} (hstart : start.kind = .interpStart)
    (hinner : Bracketed (.code true) inner) (hstop : stop.kind = .interpEnd)
    (hts : Bracketed (.text false true) ts) :
    Bracketed (.text chunk hole) (start :: (inner ++ stop :: ts))

/-- The tokens that are left in open interpolations, given by the braces that are open in each. -/
inductive Remains : List Nat → List Token → Prop
  | outside {ts} (hts : Bracketed (.code false) ts) : Remains [] ts
  | brace {inner stop d ds ts} (hinner : Bracketed (.code true) inner)
    (hstop : stop.kind = .operator .rbrace) (hts : Remains (d :: ds) ts) :
    Remains ((d + 1) :: ds) (inner ++ stop :: ts)
  | hole {inner stop body quote ds ts} (hinner : Bracketed (.code true) inner)
    (hstop : stop.kind = .interpEnd) (hbody : Bracketed (.text false true) body)
    (hquote : quote.kind = .stringEnd) (hts : Remains ds ts) :
    Remains (0 :: ds) (inner ++ stop :: (body ++ quote :: ts))

variable {t : Token} {ts us rest : List Token} {r : Region}

/-! ### Depths -/

/-- The depths of braces in the open interpolations, after a token. -/
def Token.depths (t : Token) (ds : List Int) : List Int :=
  match t.kind, ds with
  | .interpStart, ds => 0 :: ds
  | .interpEnd, _ :: ds => ds
  | .operator .lbrace, d :: ds => (d + 1) :: ds
  | .operator .rbrace, d :: ds => (d - 1) :: ds
  | _, ds => ds

/-- No depth is below zero, now or after any of the tokens. -/
def Steady : List Int → List Token → Prop
  | ds, [] => ∀ d ∈ ds, 0 ≤ d
  | ds, t :: ts => (∀ d ∈ ds, 0 ≤ d) ∧ Steady (t.depths ds) ts

theorem Steady.nonneg {ds : List Int} (h : Steady ds ts) : ∀ d ∈ ds, 0 ≤ d := by
  cases ts with
  | nil => exact h
  | cons t ts => exact h.1

theorem Token.depths_of_not_isMark (h : t.kind.isMark = false) (ds : List Int) :
    t.depths ds = ds := by
  unfold Token.depths
  split <;> simp_all [Kind.isMark]

/-- The depths that tokens in a region are read at. -/
def Region.Fits : Region → List Int → Prop
  | .code false, ds => ds = []
  | .code true, ds => ds ≠ []
  | .text _ _, _ => True

/-- Among bracketed tokens no depth falls below zero. -/
theorem Bracketed.steady (h : Bracketed r ts) {ds : List Int} (hds : r.Fits ds)
    (hrest : Steady ds rest) : Steady ds (ts ++ rest) := by
  induction h generalizing ds rest with
  | done | ended => exact hrest
  | token hkind _ ih =>
    refine ⟨hrest.nonneg, ?_⟩
    rw [Token.depths_of_not_isMark hkind]
    exact ih hds hrest
  | @brace t ts hkind _ ih =>
    obtain rfl : ds = [] := hds
    refine ⟨hrest.nonneg, ?_⟩
    rw [show t.depths [] = [] by rcases hkind with h | h <;> simp [Token.depths, h]]
    exact ih rfl hrest
  | @braces start inner stop ts hstart _ hstop _ ihinner ih =>
    obtain ⟨d, ds, rfl⟩ := List.exists_cons_of_ne_nil hds
    have hopened : start.depths (d :: ds) = (d + 1) :: ds := by simp [Token.depths, hstart]
    have hclosed : stop.depths ((d + 1) :: ds) = d :: ds := by simp [Token.depths, hstop]
    obtain ⟨hd, hnonneg⟩ := List.forall_mem_cons.1 hrest.nonneg
    rw [List.cons_append, List.append_assoc]
    refine ⟨hrest.nonneg, ?_⟩
    rw [hopened]
    refine ihinner (List.cons_ne_nil _ _) ⟨List.forall_mem_cons.2 ⟨by omega, hnonneg⟩, ?_⟩
    rw [hclosed]
    exact ih (List.cons_ne_nil _ _) hrest
  | @string inside start body stop ts hstart _ hstop _ ihbody ih =>
    have hsame (t : Token) (h : t.kind = .stringStart ∨ t.kind = .stringEnd) :
        t.depths ds = ds := by
      rcases h with h | h <;> simp [Token.depths, h]
    rw [List.cons_append, List.append_assoc]
    refine ⟨hrest.nonneg, ?_⟩
    rw [hsame start (.inl hstart)]
    refine ihbody trivial ⟨hrest.nonneg, ?_⟩
    rw [hsame stop (.inr hstop)]
    exact ih hds hrest
  | chunk hkind hvalue _ ih =>
    refine ⟨hrest.nonneg, ?_⟩
    rw [Token.depths_of_not_isMark (by rw [hkind]; rfl)]
    exact ih trivial hrest
  | @hole chunk hole start inner stop ts hstart _ hstop _ ihinner ih =>
    have hopened : start.depths ds = 0 :: ds := by simp [Token.depths, hstart]
    have hclosed : stop.depths (0 :: ds) = ds := by simp [Token.depths, hstop]
    rw [List.cons_append, List.append_assoc]
    refine ⟨hrest.nonneg, ?_⟩
    rw [hopened]
    refine ihinner (List.cons_ne_nil _ _)
      ⟨List.forall_mem_cons.2 ⟨Int.le_refl 0, hrest.nonneg⟩, ?_⟩
    rw [hclosed]
    exact ih trivial hrest

/-! ### Strings -/

open Dragon.Tree in
theorem Tree.strung_cons : Strung (t :: ts) ↔
    (t.kind = .stringStart ∨ t.kind = .interpEnd → Continues ts) ∧ Strung ts := by
  constructor
  · exact fun h => ⟨h t ts List.suffix_rfl, h.suffix (List.suffix_cons t ts)⟩
  · rintro ⟨ht, hts⟩ u us hsuffix
    rcases List.suffix_cons_iff.1 hsuffix with heq | hsuffix
    · cases heq
      exact ht
    · exact hts u us hsuffix

open Dragon.Tree in
/-- Strings are in order in the tokens from a region on, and so is the string around them. -/
def Region.Strung : Region → List Token → Prop
  | .code _, ts => Tree.Strung ts
  | .text true _, ts => Tree.Strung ts ∧
    (starts .interpStart ts = true ∨ starts .stringEnd ts = true)
  | .text false _, ts => Tree.Strung ts ∧ Continues ts

open Dragon.Tree in
/-- Strings in bracketed tokens go on where they have to. -/
theorem Bracketed.strung (h : Bracketed r ts) (hrest : Tree.Strung rest)
    (hstop : ∀ chunk hole, r = .text chunk hole → starts .stringEnd rest = true) :
    r.Strung (ts ++ rest) := by
  have hcons {t : Token} {ts : List Token} (hkind : t.kind ≠ .stringStart ∧ t.kind ≠ .interpEnd)
      (hts : Tree.Strung ts) : Tree.Strung (t :: ts) :=
    strung_cons.2 ⟨fun h => (h.elim hkind.1 hkind.2).elim, hts⟩
  induction h generalizing rest with
  | done => exact hrest
  | @token inside t ts hkind _ ih =>
    refine hcons ?_ (ih hrest nofun)
    constructor <;> intro h <;> simp [h, Kind.isMark] at hkind
  | brace hkind _ ih => exact hcons (by rcases hkind with h | h <;> simp [h]) (ih hrest nofun)
  | braces hstart _ hstop' _ ihinner ih =>
    rw [List.cons_append, List.append_assoc]
    exact hcons (by simp [hstart])
      (ihinner (hcons (by simp [hstop']) (ih hrest nofun)) nofun)
  | @string inside start body stop ts hstart _ hstop' _ ihbody ih =>
    rw [List.cons_append, List.append_assoc]
    have hafter : Tree.Strung (stop :: (ts ++ rest)) := hcons (by simp [hstop']) (ih hrest nofun)
    obtain ⟨hbody, hcontinues⟩ := ihbody hafter fun _ _ _ => by simp [starts, hstop']
    exact strung_cons.2 ⟨fun _ => hcontinues, hbody⟩
  | @ended chunk =>
    have hend := hstop chunk true rfl
    cases chunk with
    | true => exact ⟨hrest, .inr hend⟩
    | false =>
      cases rest with
      | nil => cases hend
      | cons t rest => exact ⟨hrest, .inr (.inl (by simpa [starts] using hend))⟩
  | @chunk hole t ts hkind hvalue _ ih =>
    obtain ⟨hts, hstarts⟩ := ih hrest fun _ _ _ => hstop false hole rfl
    exact ⟨hcons (by simp [hkind]) hts, .inr (.inr ⟨hkind, hstarts⟩)⟩
  | @hole chunk hole start inner stop ts hstart _ hstop' _ ihinner ih =>
    obtain ⟨hts, hcontinues⟩ := ih hrest fun _ _ _ => hstop chunk hole rfl
    have hinner : Tree.Strung (inner ++ stop :: (ts ++ rest)) :=
      ihinner (strung_cons.2 ⟨fun _ => hcontinues, hts⟩) nofun
    rw [List.cons_append, List.append_assoc]
    cases chunk with
    | true => exact ⟨hcons (by simp [hstart]) hinner, .inl (by simp [starts, hstart])⟩
    | false => exact ⟨hcons (by simp [hstart]) hinner, .inl hstart⟩

/-! ### The cut -/

/-- Text that may stand in a string before an interpolation or the end. -/
def IsChunk (us : List Token) : Prop :=
  ∀ hole body, Bracketed (.text true hole) body → Bracketed (.text false hole) (us ++ body)

section Remains

variable {depths ds : List Nat} {d : Nat}

namespace Remains

/-- What closes all that it opens may stand before the tokens that are left. -/
theorem append (h : Remains depths ts) (us : List Token) (hus : ∀ vs,
    Bracketed (.code !depths.isEmpty) vs → Bracketed (.code !depths.isEmpty) (us ++ vs)) :
    Remains depths (us ++ ts) := by
  cases h with
  | outside hts => exact .outside (hus _ hts)
  | brace hinner hstop hts =>
    rw [← List.append_assoc]
    exact .brace (hus _ hinner) hstop hts
  | hole hinner hstop hbody hquote hts =>
    rw [← List.append_assoc]
    exact .hole (hus _ hinner) hstop hbody hquote hts

theorem token (h : Remains depths ts) (ht : t.kind.isMark = false) : Remains depths (t :: ts) :=
  h.append [t] fun _ hvs => .token ht hvs

theorem lbrace (h : Remains ((d + 1) :: ds) ts) (ht : t.kind = .operator .lbrace) :
    Remains (d :: ds) (t :: ts) := by
  cases h with
  | @brace inner stop _ _ ts hinner hstop hts =>
    have hgroup := hts.append (t :: (inner ++ [stop])) fun vs hvs => by
      simpa using Bracketed.braces ht hinner hstop hvs
    simpa using hgroup

variable {start stop : Token}

theorem string (h : Remains (0 :: ds) ts) (ht : t.kind = .stringStart) (hus : IsChunk us)
    (hstart : start.kind = .interpStart) : Remains ds (t :: (us ++ start :: ts)) := by
  cases h with
  | @hole inner stop body quote _ ts hinner hstop hbody hquote hts =>
    have hwhole := hus false _ (.hole hstart hinner hstop hbody)
    have hgroup := hts.append (t :: (us ++ start :: (inner ++ stop :: (body ++ [quote]))))
      fun vs hvs => by simpa using Bracketed.string ht hwhole hquote hvs
    simpa using hgroup

theorem close (h : Remains ds ts) (ht : t.kind = .interpEnd) (hus : IsChunk us)
    (hstop : stop.kind = .stringEnd) : Remains (0 :: ds) (t :: (us ++ stop :: ts)) := by
  have hbody := hus true [] .ended
  rw [List.append_nil] at hbody
  exact .hole .done ht hbody hstop h

theorem next (h : Remains (0 :: ds) ts) (ht : t.kind = .interpEnd) (hus : IsChunk us)
    (hstart : start.kind = .interpStart) : Remains (0 :: ds) (t :: (us ++ start :: ts)) := by
  cases h with
  | @hole inner stop body quote _ ts hinner hstop hbody hquote hts =>
    have hgroup := Remains.hole .done ht (hus true _ (.hole hstart hinner hstop hbody)) hquote hts
    simpa using hgroup

end Remains

variable {c : Char} {cs cs' : List Char} {pieces : List Piece} {depths' : List Nat} {file : String}

theorem isChunk_place (s : Stretch) (at_ : Pos) : IsChunk (Piece.place file at_ s.chunk) := by
  intro hole body hbody
  rw [Stretch.chunk]
  split
  · cases hbody with
    | ended => exact .ended
    | hole hstart hinner hstop hts => exact .hole hstart hinner hstop hts
  next hvalue =>
    refine .chunk rfl (fun hempty => hvalue ?_) hbody
    have hnil : s.value = [] := by
      simpa using congrArg String.toList (show String.ofList s.value = "" from hempty)
    rw [hnil]
    rfl

/-- The tokens of a mark, a chunk and another mark. -/
theorem remains_marks {p q : Piece} {kind kind' : Kind} {s : Stretch} {at_ : Pos}
    (hp : p.kind = some kind) (hq : q.kind = some kind')
    (h : ∀ t us u, t.kind = kind → IsChunk us → u.kind = kind' →
      Remains depths (t :: (us ++ u :: ts))) :
    Remains depths (Piece.place file at_ (p :: s.chunk ++ [q]) ++ ts) := by
  obtain ⟨_, text, value, ahead⟩ := p
  obtain ⟨_, text', value', ahead'⟩ := q
  cases hp
  cases hq
  rw [List.cons_append, Piece.place, Piece.place_append, List.cons_append, List.append_assoc]
  exact h _ _ _ rfl (isChunk_place s _) rfl

/-- An operator that opens or closes a brace changes the innermost depth. -/
theorem Remains.operator {o : Operator} (ho : Operator.atStart? (c :: cs) = some o)
    (hclose : ¬ (c == '\x7d' && depths.head? == some 0) = true)
    (hts : Remains (depthsAfter o depths) ts) (ht : t.kind = .operator o) :
    Remains depths (t :: ts) := by
  by_cases hmark : (Kind.operator o).isMark = false
  · have hsame : depthsAfter o depths = depths := by
      unfold depthsAfter
      split <;> first | rfl | cases hmark
    rw [hsame] at hts
    exact hts.token (ht ▸ hmark)
  have hbrace : o = .lbrace ∨ o = .rbrace := by
    cases o <;> simp [Kind.isMark] at hmark ⊢
  cases depths with
  | nil =>
    have hoff : depthsAfter o [] = [] := by cases o <;> rfl
    rw [hoff] at hts
    cases hts with
    | outside hts => exact .outside (.brace (by simpa [ht] using hbrace) hts)
  | cons d ds =>
    rcases hbrace with rfl | rfl
    · exact hts.lbrace ht
    · cases d with
      | zero =>
        have hstart : Operator.rbrace.text.toList <+: c :: cs := by simpa using List.find?_some ho
        have hc : '\x7d' = c := (List.cons_prefix_cons.1 hstart).1
        exact absurd (by simp [← hc]) hclose
      | succ d => exact .brace .done ht hts

theorem Remains.takes (h : Takes depths cs pieces depths' cs') (hts : Remains depths' ts)
    (at_ : Pos) : Remains depths (Piece.place file at_ pieces ++ ts) := by
  cases h with
  | blanks | comment => exact hts
  | string => exact hts.token rfl
  | opens => exact remains_marks rfl rfl fun _ _ _ => hts.string
  | closes => exact remains_marks rfl rfl fun _ _ _ => hts.close
  | reopens => exact remains_marks rfl rfl fun _ _ _ => hts.next
  | number rest =>
    refine hts.token ?_
    show (NumberTail.kind _).isMark = false
    obtain h | h := (NumberTail.atStart rest).kind_cases <;> rw [h] <;> rfl
  | word rest =>
    refine hts.token ?_
    show (wordKind _).isMark = false
    obtain ⟨k, h⟩ | h | h := wordKind_cases _ <;> rw [h] <;> rfl
  | operator ho _ hclose => exact hts.operator ho hclose rfl

/-- The tokens of a text that can be cut close the interpolations that are open. -/
theorem remains_cut (depths : List Nat) (cs : List Char) (h : (cut depths cs).fault = none)
    (at_ : Pos) : Remains depths (Piece.place file at_ (cut depths cs).pieces) := by
  fun_induction cut depths cs generalizing at_ with
  | case1 depths =>
    cases depths with
    | nil => exact .outside .done
    | cons d ds => cases h
  | case2 depths c rest pieces depths' rest' hstep tail ih =>
    rw [Piece.place_append]
    exact Remains.takes (takes_of_step hstep) (ih h _) at_
  | case3 => cases h

end Remains

/-- Where strings are in order, no reading misses one of their marks. -/
theorem Tree.Program.marked_read {name : String} {stream : TokenStream} {fault : SyntaxFault}
    (heof : stream.eof.kind = .eof) (hstrung : Strung stream.tokens)
    (h : Program.read name stream = .error fault) : missesMark fault.cause = false := by
  have hmarked := (follows_statements (Nat.lt_succ_self _) (Nat.le_refl _) (Nat.lt_succ_self _)
    (Nat.le_refl _) (⟨[], stream.eof, heof⟩ : Tail .same stream.eof)).marked rfl hstrung
  cases hread : items stream.eof .eof (Stmt.readWith stream.eof (stream.tokens.length + 1))
      (stream.tokens.length + 1) stream.tokens with
  | error fault' =>
    have heq := (congrArg (· >>= _) hread).symm.trans h
    cases heq
    exact hmarked fault hread
  | ok taken =>
    have heq := (congrArg (· >>= _) hread).symm.trans h
    cases heq

/-- The tokens of a text close all that they open: strings and interpolations nest, the text of an
interpolated string is chunks that are not empty, no two in a row, and at least one interpolation,
and the braces inside of an interpolation come in pairs. No depth of braces falls below zero at any
token. Whatever else is wrong with the tokens, no reading of them misses the start of an
interpolation or the end of a string. -/
theorem TokenStream.bracketed_of_ofSource {file source : String} {stream : TokenStream}
    (h : TokenStream.ofSource file source = .ok stream) :
    Bracketed (.code false) stream.tokens ∧ Steady [] stream.tokens ∧
      ∀ name fault, Tree.Program.read name stream = .error fault →
        ∀ found, fault.cause ≠ .expected .interpStart found ∧
          fault.cause ≠ .expected .stringEnd found := by
  have heof := kind_eof_of_ofSource h
  have hts : Bracketed (.code false) stream.tokens := by
    have hfault := fault_of_ofSource h
    rw [ofSource_of_cut hfault] at h
    cases h
    cases remains_cut [] source.toList hfault .origin with
    | outside hts => exact hts
  have hnil : Tree.Strung [] := fun t rest hsuffix => by simp at hsuffix
  have hstrung : Tree.Strung (stream.tokens ++ []) := hts.strung hnil nofun
  have hsteady : Steady [] (stream.tokens ++ []) := hts.steady rfl nofun
  rw [List.append_nil] at hstrung hsteady
  refine ⟨hts, hsteady, fun name fault hread found => ?_⟩
  have hmarked := Tree.Program.marked_read heof hstrung hread
  constructor <;> intro hcause <;> rw [hcause] at hmarked <;> cases hmarked

/-- Interpolations in the text of an interpolation, with braces, and a chunk between two; but no
statement. -/
theorem TokenStream.bracketed_nested :
    let source := "\x7d \"a$\x7b\x7b \"$\x7bx\x7d\" \x7d\x7db$\x7by\x7d$\x7bz\x7d\" "
    ∃ stream, TokenStream.ofSource "" source = .ok stream ∧ stream.tokens.length = 20 ∧
      Bracketed (.code false) stream.tokens ∧ Steady [] stream.tokens := by
  intro source
  have hany : (TokenStream.ofSource "" source).toOption.any (·.tokens.length == 20) = true := by
    decide +kernel
  obtain ⟨stream, hstream, hlength⟩ := exists_of_any hany
  obtain ⟨hbracketed, hsteady, -⟩ := bracketed_of_ofSource hstream
  exact ⟨stream, hstream, beq_iff_eq.1 hlength, hbracketed, hsteady⟩

end Dragon
