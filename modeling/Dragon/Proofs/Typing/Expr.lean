import Dragon.Proofs.Check.Yields
import Dragon.Proofs.Type.Basic
import Dragon.Proofs.Typing.Parts

/-!
# Checked expressions are well typed

The state of the check is related to the context of the rules: what is in scope is declared, objects
in scope are in the table, and all types are aligned. An expression is checked in one state and
judged by the table of a later one, which has the same entries for all numbers that were taken at
the time.
-/
namespace Dragon

/-! ### Valid states -/

/-- A symbol that is complete and has an aligned type. -/
def Symbol.Proper : Symbol → Prop
  | var v => v.type.Aligned
  | param p => p.type.Aligned
  | func f complete => complete = true ∧ f.type.Aligned
  | object _ => True

structure ObjectInfo.Proper (o : ObjectInfo) : Prop where
  fields : ∀ f ∈ o.fields, f.type.Aligned
  methods : ∀ m ∈ o.methods, m.type.Aligned
  parameters : ∀ ps, o.parameters = some ps → ∀ p ∈ ps, p.type.Aligned

theorem ObjectInfo.Proper.of_has {info : ObjectInfo} (hinfo : info.Proper) {m : Member}
    (hm : info.Has m) : m.type.Aligned := by
  cases m with
  | field f => exact hinfo.fields f hm
  | method f => exact hinfo.methods f hm

/-- Every symbol that can be found in a scope is one of some. -/
def Scope.Within (scope : Scope) (symbols : List Symbol) : Prop :=
  ∀ frame ∈ scope, ∀ b ∈ frame.bindings, b.symbol ∈ symbols

namespace Check

open Typed

structure Valid (s : State) (Γ : Context) : Prop where
  seen : s.scope.Within Γ.symbols
  flags : s.scope.flags = Γ.flags
  known : ∀ info ∈ s.objects, info.ref.id < s.next
  declared : ∀ ref, .object ref ∈ Γ.symbols → ∃ info, s.objects.get? ref.id = some info
  symbols : ∀ symbol ∈ Γ.symbols, symbol.Proper
  objects : ∀ info ∈ s.objects, info.Proper
  function : ∀ f, Γ.flags.function = some f → f.result.Aligned

/-- A table with the entries of a state for all numbers that it has given out. -/
def Extends (s : State) (T : Objects) : Prop := ∀ id < s.next, T.get? id = s.objects.get? id

/-- An expression that is well typed by all later tables. -/
def Sound (s : State) (Γ : Context) (e : Expr) : Prop :=
  e.type.Aligned ∧ ∀ T, Extends s T → e.WellTyped T Γ

variable {s : State} {Γ : Context} {T : Objects}

theorem Valid.lookup (valid : Valid s Γ) {name : String} {symbol : Symbol}
    (h : s.scope.lookup? name = some symbol) : symbol ∈ Γ.symbols := by
  obtain ⟨frame, hframe, hfind⟩ := List.exists_of_findSome?_eq_some h
  obtain ⟨b, hb, rfl⟩ := Option.map_eq_some_iff.1 hfind
  exact valid.seen frame hframe b (List.mem_of_find?_eq_some hb)

theorem mem_of_get? {id : Nat} {info : ObjectInfo} (h : T.get? id = some info) : info ∈ T :=
  List.mem_of_find?_eq_some h

theorem id_of_get? {id : Nat} {info : ObjectInfo} (h : T.get? id = some info) :
    info.ref.id = id := by
  simpa using List.find?_some h

/-- What the table of a valid state says of an object stays true. -/
theorem Valid.get? (valid : Valid s Γ) {id : Nat} {info : ObjectInfo}
    (h : s.objects.get? id = some info) (hT : Extends s T) : T.get? id = some info := by
  have hid : info.ref.id < s.next := valid.known info (mem_of_get? h)
  rw [id_of_get? h] at hid
  rw [hT id hid, h]

/-! ### Types -/

mutual

/-- Types that are written know the names of all parameters of a function or of none. -/
theorem resolve_aligned (t : Tree.TypeExpr) : Yields (resolve t) s Ty.Aligned := by
  cases t with
  | named name span =>
    unfold resolve
    split
    · exact .pure trivial
    · refine (Yields.lookup name).bind fun symbol _ => ?_
      split
      · exact .fail _ _
      · exact .pure trivial
      · exact .fail _ _
  | list element span => exact (resolve_aligned element).bind fun t ht => .pure ht
  | optional base span => exact (resolve_aligned base).bind fun t ht => .pure ht
  | function params result span =>
    exact (resolveAll_aligned params).bind fun ps hps => (resolve_aligned result).bind fun r hr =>
      .pure ⟨.inl rfl, hps, hr⟩

theorem resolveAll_aligned (ts : List Tree.TypeExpr) : Yields (resolveAll ts) s Ty.allAligned := by
  cases ts with
  | nil => exact .pure trivial
  | cons t rest =>
    exact (resolve_aligned t).bind fun t ht => (resolveAll_aligned rest).bind fun ts hts =>
      .pure ⟨ht, hts⟩

end

/-! ### Rules -/

theorem asValue_yields (e : Expr) (span : Span) :
    Yields (asValue e span) s fun v => v = e ∧ e.type.HasValues := by
  refine Yields.require.bind fun _ h => .pure ⟨rfl, fun hz => ?_⟩
  simp [hz, Ty.is] at h

theorem emptyList_sound {t : Ty} (ht : t.element?.isSome = true) (haligned : t.Aligned) :
    Sound s Γ (.emptyList t) := by
  refine ⟨haligned, fun T _ => ?_⟩
  cases t <;> simp_all [Ty.element?, Expr.WellTyped]

theorem hasValues_of_element? {t : Ty} (ht : t.element?.isSome = true) : t.HasValues := by
  rintro rfl
  cases ht

/-- What is stored suits its target. -/
theorem coerce_yields {e : Expr} {target : Ty} (span : Span) (he : Sound s Γ e)
    (hvalue : e.type.HasValues) (htarget : target.Aligned) :
    Yields (coerce e target span) s fun v => Sound s Γ v ∧ v.Suits target := by
  unfold coerce
  split
  next h =>
    simp only [Bool.and_eq_true] at h
    exact .pure ⟨emptyList_sound h.2 htarget, hasValues_of_element? h.2, Ty.assignable_refl target⟩
  next => exact Yields.require.bind fun _ h => .pure ⟨he, hvalue, h⟩

/-- Two values are brought to one type without losing their soundness. -/
theorem unify_sound {a b : Expr} (ha : Sound s Γ a) (hb : Sound s Γ b) (hva : a.type.HasValues)
    (hvb : b.type.HasValues) :
    (Sound s Γ (unify a b).1 ∧ (unify a b).1.type.HasValues) ∧
      Sound s Γ (unify a b).2 ∧ (unify a b).2.type.HasValues := by
  unfold unify
  split
  next h =>
    simp only [Bool.and_eq_true] at h
    exact ⟨⟨emptyList_sound h.2 hb.1, hvb⟩, hb, hvb⟩
  next =>
    split
    next h =>
      simp only [Bool.and_eq_true] at h
      exact ⟨⟨ha, hva⟩, emptyList_sound h.2 ha.1, hva⟩
    next => exact ⟨⟨ha, hva⟩, hb, hvb⟩

theorem integer_sound (text : String) (span : Span) :
    Yields (integer text span) s (Sound s Γ) := by
  unfold integer
  split
  · exact .throw _
  · exact Yields.require.bind fun _ _ => .pure ⟨trivial, fun _ _ => rfl⟩

theorem float_sound (text : String) : Yields (float text) s (Sound s Γ) := by
  unfold float
  split
  · exact .throw _
  · exact .pure ⟨trivial, fun _ _ => rfl⟩

theorem symbolValue_sound (valid : Valid s Γ) (name : String) (span : Span) {symbol : Symbol}
    (h : symbol ∈ Γ.symbols) : Yields (symbolValue name span symbol) s (Sound s Γ) := by
  have hproper := valid.symbols symbol h
  cases symbol with
  | var v => exact .pure ⟨hproper, fun _ _ => h⟩
  | param p => exact .pure ⟨hproper, fun _ _ => h⟩
  | func f complete =>
    obtain ⟨rfl, haligned⟩ := hproper
    exact .pure ⟨haligned, fun _ _ => h⟩
  | object o => exact .fail _ _

theorem identify_yields (valid : Valid s Γ) (name : String) (span : Span) :
    Yields (identify name span) s (· ∈ Γ.symbols) := by
  refine (Yields.lookup name).bind fun symbol h => ?_
  split
  next symbol => exact .pure (valid.lookup h.symm)
  next => exact .fail _ _

theorem unary_sound (op : UnaryOp) {e : Expr} (span : Span) (he : Sound s Γ e)
    (hvalue : e.type.HasValues) : Yields (unary op e span) s (Sound s Γ) := by
  cases op with
  | neg => exact Yields.require.bind fun _ h => .pure ⟨he.1, fun T hT => ⟨he.2 T hT, h, rfl⟩⟩
  | not =>
    exact Yields.require.bind fun _ h =>
      .pure ⟨trivial, fun T hT => ⟨he.2 T hT, Ty.is_eq_true.1 h, rfl⟩⟩
  | some => exact .pure ⟨he.1, fun T hT => ⟨he.2 T hT, hvalue, rfl⟩⟩

/-- Operations have the types that the rules give them. -/
theorem binary_sound (op : BinaryOp) {l r : Expr} (spanl spanr span : Span) (hl : Sound s Γ l)
    (hr : Sound s Γ r) (hvl : l.type.HasValues) (hvr : r.type.HasValues) :
    Yields (binary op l r spanl spanr span) s (Sound s Γ) := by
  -- Numbers and texts are primitive, and there equivalent types are equal.
  have hprim {a b : Ty} (ha : a.isNumeric = true ∨ a = .string) (h : a.equivalent b = true) :
      b = a := by
    rw [Ty.isNumeric_eq_true] at ha
    obtain (rfl | rfl) | rfl := ha <;> exact Ty.eq_of_equivalent_prim h
  cases op with
  | and | or =>
    refine Yields.require.bind fun _ hbl => Yields.require.bind fun _ hbr => .pure ⟨trivial, ?_⟩
    exact fun T hT => ⟨hl.2 T hT, hr.2 T hT, Ty.is_eq_true.1 hbl, Ty.is_eq_true.1 hbr, rfl⟩
  | eq | ne =>
    obtain ⟨⟨hl, hvl⟩, hr, hvr⟩ := unify_sound hl hr hvl hvr
    refine Yields.require.bind fun _ h => .pure ⟨trivial, ?_⟩
    exact fun T hT => ⟨hl.2 T hT, hr.2 T hT, hvl, hvr, h, rfl⟩
  | lt | le | gt | ge =>
    refine Yields.require.bind fun _ hnum => Yields.require.bind fun _ h => .pure ⟨trivial, ?_⟩
    exact fun T hT => ⟨hl.2 T hT, hr.2 T hT, hnum, hprim (.inl hnum) h, rfl⟩
  | add =>
    refine Yields.require.bind fun _ hnum => Yields.require.bind fun _ h => .pure ⟨hl.1, ?_⟩
    have hnum : l.type.isNumeric = true ∨ l.type = .string := by
      simpa [Ty.is_eq_true] using hnum
    exact fun T hT => ⟨hl.2 T hT, hr.2 T hT, hnum, hprim hnum h, rfl⟩
  | sub | mul | div | pow =>
    refine Yields.require.bind fun _ hnum => Yields.require.bind fun _ h => .pure ⟨hl.1, ?_⟩
    exact fun T hT => ⟨hl.2 T hT, hr.2 T hT, hnum, hprim (.inl hnum) h, rfl⟩

theorem subscript_sound {c i : Expr} (span : Span) (hc : Sound s Γ c) (hi : Sound s Γ i)
    (hint : i.type = .int) : Yields (subscript c i span) s (Sound s Γ) := by
  unfold subscript
  split
  next element helement =>
    obtain ⟨halign, hwell⟩ := hc
    have htype := Ty.eq_list helement
    rw [htype] at halign
    exact .pure ⟨halign, fun T hT => ⟨hwell T hT, hi.2 T hT, hint, .inl htype⟩⟩
  next =>
    refine Yields.require.bind fun _ h => .pure ⟨trivial, fun T hT => ?_⟩
    exact ⟨hc.2 T hT, hi.2 T hT, hint, .inr ⟨Ty.is_eq_true.1 h, rfl⟩⟩

/-! ### Members -/

/-- Members are asked of an object, or of an optional one. -/
theorem receiver_yields {o : Expr} (access : Access) (span : Span) :
    Yields (receiver o access span) s fun ref => o.type = receiverType access ref := by
  cases access with
  | plain =>
    simp only [receiver, receiverType]
    split
    next ref h => exact .pure (Ty.eq_object h)
    next => exact .fail _ _
  | optional =>
    simp only [receiver, receiverType]
    split
    next ref h =>
      obtain ⟨base, hbase, href⟩ := Option.bind_eq_some_iff.1 h
      exact .pure (by rw [Ty.eq_optional hbase, Ty.eq_object href])
    next => exact .fail _ _

theorem memberType_eq (access : Access) (m : Member) :
    memberType access m = accessType access m.type := by
  cases access <;> cases h : m.type <;> simp [memberType, accessType, h, Ty.base?]

theorem aligned_accessType {access : Access} {t : Ty} (ht : t.Aligned) :
    (accessType access t).Aligned := by
  cases access <;> cases t <;> exact ht

theorem has_of_member? {info : ObjectInfo} {name : String} {m : Member}
    (h : info.member? name = some m) : info.Has m := by
  unfold ObjectInfo.member? at h
  split at h
  next f hf =>
    cases h
    exact List.mem_of_find?_eq_some hf
  next =>
    obtain ⟨f, hf, rfl⟩ := Option.map_eq_some_iff.1 h
    exact List.mem_of_find?_eq_some hf

/-- What a state says of an object of which it knows anything. -/
theorem get?_of_member? {ref : ObjectRef} {name : String} {m : Member}
    (h : ((s.objects.get? ref.id).getD ⟨ref, [], none, []⟩).member? name = some m) :
    ∃ info, s.objects.get? ref.id = some info ∧ info.member? name = some m := by
  cases hget : s.objects.get? ref.id with
  | none => simp [hget, ObjectInfo.member?] at h
  | some info => exact ⟨info, rfl, by simpa [hget] using h⟩

/-- A member of an object in scope is a member by all later tables. -/
theorem member_sound (valid : Valid s Γ) {o : Expr} (access : Access) (name : String)
    (objectSpan span : Span) (ho : Sound s Γ o) :
    Yields (member o access name objectSpan span) s (Sound s Γ) := by
  refine (receiver_yields access objectSpan).bind fun ref htype => ?_
  refine (Yields.objectInfo ref).bind fun info hinfo => ?_
  split
  next => exact .fail _ _
  next m hm =>
    rw [hinfo] at hm
    obtain ⟨info, hget, hm⟩ := get?_of_member? hm
    have hhas := has_of_member? hm
    have haligned := (valid.objects info (mem_of_get? hget)).of_has hhas
    refine .pure ⟨?_, fun T hT => ⟨ho.2 T hT, ref, info, htype, valid.get? hget hT, hhas, ?_⟩⟩
    · show (memberType access m).Aligned
      rw [memberType_eq]
      exact aligned_accessType haligned
    · exact memberType_eq access m

/-! ### Lists -/

/-- A sound expression that has values. -/
def SoundValue (s : State) (Γ : Context) (e : Expr) : Prop := Sound s Γ e ∧ e.type.HasValues

/-- A list has the type of one of its elements, and the others are stored as such. -/
theorem list_sound {es : List Expr} {spans : List Span} (hes : ∀ e ∈ es, SoundValue s Γ e)
    (hne : es ≠ []) (hlen : es.length = spans.length) :
    Yields (list es spans) s (Sound s Γ) := by
  unfold list
  extract_lets decisive type elements
  have htype : type.Aligned := by
    cases hd : decisive with
    | none => simp [type, hd, Ty.Aligned]
    | some e =>
      have hmem : e ∈ es := by
        cases hfind : es.find? (!·.isEmptyList) with
        | some e' =>
          obtain rfl : e' = e := by simpa [decisive, hfind] using hd
          exact List.mem_of_find?_eq_some hfind
        | none => exact List.mem_of_mem_head? (by simpa [decisive, hfind] using hd)
      simpa [type, hd] using (hes e hmem).1.1
  have helements : ∀ e ∈ elements, SoundValue s Γ e := by
    intro e he
    simp only [elements] at he
    split at he
    next hlist =>
      obtain ⟨e', he', rfl⟩ := List.mem_map.1 he
      split
      · exact ⟨emptyList_sound hlist htype, hasValues_of_element? hlist⟩
      · exact hes e' he'
    next => exact hes e he
  have hlength : elements.length = es.length := by
    simp only [elements]
    split <;> simp
  split
  next => exact .fail _ _
  next hfind =>
    refine .pure ⟨htype, fun T hT => ⟨?_, ?_, type, rfl, fun e he => ⟨(helements e he).2, ?_⟩⟩⟩
    · exact elementsWellTyped_iff.2 fun e he => (helements e he).1.2 T hT
    · intro hnil
      rw [hnil] at hlength
      exact hne (List.length_eq_zero_iff.1 hlength.symm)
    · obtain ⟨i, hi, rfl⟩ := List.getElem_of_mem he
      have hspan : i < spans.length := by omega
      have hzip : (elements[i], spans[i]) ∈ elements.zip spans := by
        rw [← List.getElem_zip (h := by simp; omega)]
        exact List.getElem_mem _
      simpa using List.find?_eq_none.1 hfind _ hzip

/-! ### Arguments -/

/-- An argument for a parameter that may have a name. -/
def Fills (a : Arg) (slot : Option String × Ty) : Prop :=
  (∀ n, slot.1 = some n → a.name = some n) ∧ a.value.Suits slot.2

theorem expectName_yields (given wanted : Option String) (span : Span) :
    Yields (expectName given wanted span) s fun _ => ∀ n, wanted = some n → given = some n := by
  unfold expectName
  split
  · exact .pure (by simp)
  · exact .fail _ _
  · refine Yields.require.mono fun _ h n hn => ?_
    simp_all

/-- Arguments with names fill the parameters one by one. -/
theorem suits_of_zip {args : List Arg} {params : List Ty} {names : List String}
    (hlen : names.length = params.length)
    (h : args.Forall₂ (fun a p => Fills a (some p.1, p.2)) (names.zip params)) :
    args.Forall₂ (fun a t => a.value.Suits t) params ∧ args.map Arg.name = names.map some := by
  induction names generalizing params args with
  | nil =>
    obtain rfl : params = [] := List.length_eq_zero_iff.1 hlen.symm
    cases h
    exact ⟨.nil, rfl⟩
  | cons n names ih =>
    cases params with
    | nil => cases hlen
    | cons t params =>
      cases h with
      | cons ha hrest =>
        obtain ⟨hsuits, hnames⟩ := ih (by simpa using hlen) hrest
        exact ⟨.cons ha.2 hsuits, by simp [ha.1 n rfl, hnames]⟩

/-- Arguments that fill the slots of a function with aligned parameters fill its parameters. -/
theorem suits_of_fills {args : List Arg} {params : List Ty} {names : List String}
    (h : args.Forall₂ Fills (slots params names))
    (haligned : names = [] ∨ names.length = params.length) :
    args.Forall₂ (fun a t => a.value.Suits t) params ∧
      (names = [] ∨ args.map Arg.name = names.map some) := by
  unfold slots at h
  split at h
  next hnil =>
    rw [List.forall₂_map_right_iff] at h
    exact ⟨h.imp fun a t ha => ha.2, .inl (by simpa using hnil)⟩
  next hnil =>
    have hlen : names.length = params.length := haligned.resolve_left (by simpa using hnil)
    rw [List.forall₂_map_right_iff] at h
    exact (suits_of_zip hlen h).imp id .inr

theorem slots_aligned {params : List Ty} (names : List String) (h : Ty.allAligned params) :
    ∀ slot ∈ slots params names, slot.2.Aligned := by
  have hall := Ty.allAligned_iff.1 h
  intro slot hslot
  unfold slots at hslot
  split at hslot
  · obtain ⟨t, ht, rfl⟩ := List.mem_map.1 hslot
    exact hall t ht
  · obtain ⟨⟨n, t⟩, hp, rfl⟩ := List.mem_map.1 hslot
    exact hall t (List.of_mem_zip hp).2

/-- A call of what has the type of a function. -/
theorem call_sound {callee : Expr} {args : List Arg} {params : List Ty} {result : Ty}
    {names : List String} (hcallee : Sound s Γ callee)
    (htype : callee.type = .function params result names)
    (hargs : args.Forall₂ Fills (slots params names))
    (hwell : ∀ T, Extends s T → argsWellTyped T Γ args) :
    Sound s Γ (.call callee args result) := by
  have haligned := hcallee.1
  rw [htype] at haligned
  obtain ⟨hnames, -, hresult⟩ := haligned
  obtain ⟨hsuits, hgiven⟩ := suits_of_fills hargs hnames
  exact ⟨hresult, fun T hT => ⟨hcallee.2 T hT, hwell T hT, params, names, htype, hsuits, hgiven⟩⟩

/-- A construction of an object in scope. -/
theorem construct_sound (valid : Valid s Γ) {ref : ObjectRef} {info : ObjectInfo} {args : List Arg}
    (href : .object ref ∈ Γ.symbols) (hinfo : s.objects.get? ref.id = some info)
    (hargs : args.Forall₂ Fills (info.signature.map fun (n, t) => (some n, t)))
    (hwell : ∀ T, Extends s T → argsWellTyped T Γ args) :
    Sound s Γ (.construct ref args (.object ref)) := by
  rw [List.forall₂_map_right_iff] at hargs
  have hsuits : args.Forall₂ (fun a p => a.name = some p.1 ∧ a.value.Suits p.2) info.signature :=
    hargs.imp fun a p ha => ⟨ha.1 p.1 rfl, ha.2⟩
  exact ⟨trivial, fun T hT => ⟨hwell T hT, href, rfl, info, valid.get? hinfo hT, hsuits⟩⟩

/-! ### Expressions -/

theorem Yields.value {α : Type} {x : Check Expr} {k : Expr → Check α} {R : α → Prop}
    (hx : Yields x s (Sound s Γ)) (span : Span)
    (hk : ∀ v, SoundValue s Γ v → Yields (k v) s R) :
    Yields (x >>= fun e => asValue e span >>= k) s R := by
  refine hx.bind fun e he => (asValue_yields e span).bind fun v hv => ?_
  rw [hv.1]
  exact hk e ⟨he, hv.2⟩

theorem signature_aligned {info : ObjectInfo} (h : info.Proper) :
    ∀ slot ∈ info.signature.map fun (n, t) => (some n, t), slot.2.Aligned := by
  intro slot hslot
  obtain ⟨p, hp, rfl⟩ := List.mem_map.1 hslot
  unfold ObjectInfo.signature at hp
  split at hp
  next ps hps =>
    obtain ⟨q, hq, rfl⟩ := List.mem_map.1 hp
    exact h.parameters ps hps q hq
  next =>
    obtain ⟨f, hf, rfl⟩ := List.mem_map.1 hp
    exact h.fields f hf

/-- A call of a value that is a function. -/
theorem callValue_sound {c : Expr} {args : List Tree.Argument} (span failing : Span)
    (hc : Sound s Γ c)
    (hargs : ∀ slots : List (Option String × Ty), args.length = slots.length →
      (∀ slot ∈ slots, slot.2.Aligned) → Yields (exprArguments args slots) s fun as =>
        as.Forall₂ Fills slots ∧ ∀ T, Extends s T → argsWellTyped T Γ as) :
    Yields (match c.type with
      | .function params result names => do
        let slots := slots params names
        expectCount args.length slots.length span
        let args ← exprArguments args slots
        pure (.call c args result)
      | type => fail (.notCallable type) failing) s (Sound s Γ) := by
  split
  next params result names htype =>
    have haligned : Ty.allAligned params := by
      have h := hc.1
      rw [htype] at h
      exact h.2.1
    refine Yields.require.bind fun _ hcount => ?_
    refine (hargs _ (by simpa using hcount) (slots_aligned names haligned)).bind
      fun as has => .pure ?_
    exact call_sound hc htype has.1 has.2
  next => exact .fail _ _

/-- What is applied is an object in scope, which is constructed, or a value. -/
theorem application_sound (valid : Valid s Γ) (callee : Tree.Expr) {args : List Tree.Argument}
    (span : Span) (hcallee : Yields (expr callee) s (Sound s Γ))
    (hargs : ∀ slots : List (Option String × Ty), args.length = slots.length →
      (∀ slot ∈ slots, slot.2.Aligned) → Yields (exprArguments args slots) s fun as =>
        as.Forall₂ Fills slots ∧ ∀ T, Extends s T → argsWellTyped T Γ as) :
    Yields (expr (.call callee args span)) s (Sound s Γ) := by
  by_cases hname : ∃ name nameSpan, callee = .identifier name nameSpan
  · obtain ⟨name, nameSpan, rfl⟩ := hname
    refine (identify_yields valid name nameSpan).bind fun symbol hsymbol => ?_
    split
    next ref =>
      refine (Yields.objectInfo ref).bind fun info hinfo => ?_
      obtain ⟨info', hget⟩ := valid.declared ref hsymbol
      rw [hget] at hinfo
      obtain rfl : info = info' := hinfo
      have haligned := signature_aligned (valid.objects info (mem_of_get? hget))
      refine Yields.require.bind fun _ hcount => ?_
      refine (hargs _ (by simpa using hcount) haligned).bind fun as has => .pure ?_
      exact construct_sound valid hsymbol hget has.1 has.2
    next =>
      exact (symbolValue_sound valid name nameSpan hsymbol).bind fun c hc =>
        callValue_sound span nameSpan hc hargs
  · rw [expr]
    · exact hcallee.value _ fun c hc => callValue_sound span callee.span hc.1 hargs
    · exact fun name nameSpan h => hname ⟨name, nameSpan, h⟩

/-- A part of an interpolated string is a text by itself or a value. -/
theorem parts_sound (e : Tree.Expr) {rest : List Tree.Expr}
    (he : Yields (expr e) s (Sound s Γ))
    (hrest : Yields (exprParts rest) s fun ps => ∀ T, Extends s T → partsWellTyped T Γ ps) :
    Yields (exprParts (e :: rest)) s fun ps => ∀ T, Extends s T → partsWellTyped T Γ ps := by
  by_cases htext : ∃ value span, e = .string value span
  · obtain ⟨value, span, rfl⟩ := htext
    exact hrest.bind fun ps hps => .pure fun T hT => hps T hT
  · rw [exprParts]
    · refine he.value _ fun v hv => hrest.bind fun ps hps => .pure ?_
      exact fun T hT => ⟨hv.1.2 T hT, hv.2, hps T hT⟩
    · exact fun value span h => htext ⟨value, span, h⟩

mutual

/-- Whatever expression is accepted is sound. -/
theorem expr_sound (valid : Valid s Γ) (e : Tree.Expr) : Yields (expr e) s (Sound s Γ) := by
  match e with
  | .integer text span => exact integer_sound text span
  | .float text span => exact float_sound text
  | .boolean value span => exact .pure ⟨trivial, fun _ _ => rfl⟩
  | .string value span => exact .pure ⟨trivial, fun _ _ => rfl⟩
  | .interpolation parts span =>
    exact (exprParts_sound valid parts).bind fun ps hps =>
      .pure ⟨trivial, fun T hT => ⟨hps T hT, rfl⟩⟩
  | .identifier name span =>
    exact (identify_yields valid name span).bind fun symbol h =>
      symbolValue_sound valid name span h
  | .mine span =>
    refine Yields.flags.bind fun f hf => ?_
    rw [valid.flags] at hf
    split
    next => exact .fail _ _
    next ref href => exact .pure ⟨trivial, fun _ _ => ⟨ref, hf ▸ href, rfl⟩⟩
  | .naught type span =>
    exact (resolve_aligned type).bind fun t ht => .pure ⟨ht, fun _ _ => ⟨t, rfl⟩⟩
  | .list [] span => exact .pure ⟨trivial, fun _ _ => ⟨_, rfl⟩⟩
  | .list (first :: rest) span =>
    refine (expr_sound valid first).value _ fun v hv => ?_
    refine (exprValues_sound valid rest).bind fun vs hvs => ?_
    refine list_sound (fun e he => ?_) (by simp) (by simp [hvs.1])
    obtain rfl | he := List.mem_cons.1 he
    · exact hv
    · exact hvs.2 e he
  | .unary op operand span =>
    exact (expr_sound valid operand).value _ fun v hv => unary_sound op _ hv.1 hv.2
  | .binary left op right span =>
    refine (expr_sound valid left).value _ fun l hl => ?_
    refine (expr_sound valid right).value _ fun r hr => ?_
    exact binary_sound op _ _ _ hl.1 hr.1 hl.2 hr.2
  | .ternary test consequent alternate span =>
    refine (expr_sound valid test).bind fun t ht => Yields.require.bind fun _ hbool => ?_
    refine (expr_sound valid consequent).value _ fun c hc => ?_
    refine (expr_sound valid alternate).value _ fun a ha => ?_
    obtain ⟨⟨hc, hvc⟩, ha, hva⟩ := unify_sound hc.1 ha.1 hc.2 ha.2
    refine Yields.require.bind fun _ hsame => .pure ⟨hc.1, fun T hT => ?_⟩
    exact ⟨ht.2 T hT, hc.2 T hT, ha.2 T hT, Ty.is_eq_true.1 hbool, hvc, hva, hsame, rfl⟩
  | .coalesce optional fallback span =>
    refine (expr_sound valid optional).bind fun o ho => ?_
    split
    next => exact .fail _ _
    next base hbase =>
      have htype := Ty.eq_optional hbase
      have haligned : base.Aligned := by
        have h := ho.1
        rw [htype] at h
        exact h
      refine (expr_sound valid fallback).value _ fun f hf => ?_
      refine (coerce_yields _ hf.1 hf.2 haligned).bind fun f hf => .pure ⟨haligned, fun T hT => ?_⟩
      exact ⟨ho.2 T hT, hf.1.2 T hT, htype, hf.2⟩
  | .call callee args span =>
    exact application_sound valid callee span (expr_sound valid callee)
      (exprArguments_sound valid args)
  | .index collection index span =>
    refine (expr_sound valid collection).value _ fun c hc => ?_
    refine (expr_sound valid index).value _ fun i hi => Yields.require.bind fun _ hint => ?_
    exact subscript_sound _ hc.1 hi.1 (Ty.is_eq_true.1 hint)
  | .member object access name span =>
    exact (expr_sound valid object).value _ fun o ho => member_sound valid access name _ _ ho.1

theorem exprValues_sound (valid : Valid s Γ) (es : List Tree.Expr) :
    Yields (exprValues es) s fun vs => vs.length = es.length ∧ ∀ v ∈ vs, SoundValue s Γ v := by
  match es with
  | [] => exact .pure ⟨rfl, by simp⟩
  | e :: rest =>
    refine (expr_sound valid e).value _ fun v hv => ?_
    refine (exprValues_sound valid rest).bind fun vs hvs => .pure ⟨by simp [hvs.1], ?_⟩
    simpa [hv] using hvs.2

theorem exprParts_sound (valid : Valid s Γ) (parts : List Tree.Expr) :
    Yields (exprParts parts) s fun ps => ∀ T, Extends s T → partsWellTyped T Γ ps := by
  match parts with
  | [] => exact .pure fun _ _ => trivial
  | e :: rest =>
    exact parts_sound e (expr_sound valid e) (exprParts_sound valid rest)

theorem exprArguments_sound (valid : Valid s Γ) (args : List Tree.Argument)
    (slots : List (Option String × Ty)) (hlen : args.length = slots.length)
    (haligned : ∀ slot ∈ slots, slot.2.Aligned) :
    Yields (exprArguments args slots) s fun as =>
      as.Forall₂ Fills slots ∧ ∀ T, Extends s T → argsWellTyped T Γ as := by
  match args, slots with
  | [], [] => exact .pure ⟨.nil, fun _ _ => trivial⟩
  | .mk name value span :: args, (wanted, type) :: params =>
    refine (expectName_yields name wanted span).bind fun _ hname => ?_
    refine (expr_sound valid value).value _ fun v hv => ?_
    refine (coerce_yields _ hv.1 hv.2 (haligned _ List.mem_cons_self)).bind fun v hv => ?_
    refine (exprArguments_sound valid args params (by simpa using hlen)
      fun slot hslot => haligned slot (by simp [hslot])).bind fun as has => .pure ?_
    exact ⟨.cons ⟨hname, hv.2⟩ has.1, fun T hT => ⟨hv.1.2 T hT, has.2 T hT⟩⟩

end

end Check

end Dragon
