import FluentPlan.Proofs.Code.Agreement
import FluentPlan.Proofs.Param.Offset

/-!
What arguments say of values. A value that an element has of a parameter is written as arguments;
they are parsed and read, and give a value that stands for it: the same one, the name of the same
charset, or a reference to a variable among texts that are listed.
-/

namespace FluentPlan

open Script Java Text

namespace ParamKind

/-- Kinds of values that code can say. The constants of an enumeration are dotted names, which tell
its members apart. -/
def isLasting : ParamKind → Bool
  | bool | int | long | text | url | duration _ | holdDuration _ _ | textArray | textList
  | charset => true
  | enum type javaClass =>
    type.isNamed && isIdentifier (simpleName javaClass).toList &&
      !literalWords.contains (simpleName javaClass) &&
      type.members.all fun m => isIdentifier m.1.toList
  | _ => false

/-- Equal values, and names of the same charset. -/
inductive Agree (kind : ParamKind) : Value → Value → Prop
  | same (v : Value) : Agree kind v v
  | charset {s t c : String} (hk : kind = .charset)
      (hs : (Charset.ofName? s).map Charset.canonical = some c)
      (ht : (Charset.ofName? t).map Charset.canonical = some c) : Agree kind (.text s) (.text t)

theorem Agree.eq {kind : ParamKind} (hk : kind ≠ .charset) {v w : Value} (h : kind.Agree v w) :
    v = w := by
  cases h with
  | same => rfl
  | charset hc => exact absurd hc hk

theorem eq_of_isVariadic {kind : ParamKind} (h : kind.isVariadic = true) :
    kind = .textArray ∨ kind = .textList := by
  cases kind <;> first | exact .inl rfl | exact .inr rfl | cases h

theorem isExact_or_of_isLasting {kind : ParamKind} (h : kind.isLasting = true) :
    kind.isExact = true ∨ kind = .charset ∨ kind.isVariadic = true := by
  cases kind with
  | enum type javaClass =>
    simp only [isLasting, Bool.and_eq_true] at h
    exact .inl h.1.1.1
  | _ => first | exact .inl rfl | exact .inr (.inl rfl) | exact .inr (.inr rfl) | cases h

theorem readsBack_of_isLasting {kind : ParamKind} (hk : kind.isLasting = true) {raw : String}
    {v : Value} (he : raw.isEmpty = false) (hd : isDynamic raw = false)
    (h : kind.read raw = .ok v) : kind.ReadsBack v := by
  refine readsBack_of_read he hd h ?_
  rintro x rfl
  have hfits := fits_of_read h
  cases kind <;> first | cases hfits | cases hk

theorem ReadsBack.ne_nothing {kind : ParamKind} {v : Value} (h : kind.ReadsBack v) :
    v ≠ .texts [] := by
  rintro rfl
  have hfits := fits_of_read h.read
  have hempty := h.nonempty
  cases kind with
  | textArray | textList => simp [Param.formatValue] at hempty
  | _ => cases hfits

end ParamKind

namespace Param

open ParamKind

/-- Whether the default of a parameter is missing, that of its kind, or read from some text. -/
def HasReadDefault (p : Param) : Prop :=
  p.default = none ∨ p.default = p.kind.ownDefault ∨
    ∃ raw, raw.isEmpty = false ∧ p.parse (some raw) = .ok p.default

/-- Whether arguments give a parameter a value: one of them, or any number where it takes all that
remain. -/
def Takes (p : Param) (args : List Expr) (w : Option Value) : Prop :=
  if p.kind.isVariadic then p.fromArgs args = .ok w
  else ∃ a, args = [a] ∧ p.fromArg a = .ok w

/-! ### Values that are found -/

theorem found_of_parse {p : Param} {raw : String} (he : raw.isEmpty = false) {v : Option Value}
    (h : p.parse (some raw) = .ok v) : p.Found v := by
  simp only [parse, he, Bool.false_eq_true, if_false] at h
  split_ifs at h with hd
  · cases h
    exact .dynamic hd
  · split at h
    · next w hr =>
      cases h
      exact .read he (by simpa using hd) hr
    · cases h

/-- What an element can hold of a parameter and code can say: a value that is found, texts that are
listed one by one, or none at all where that is the default. -/
inductive Sayable (p : Param) : Value → Prop
  | found {v : Value} (hk : p.kind ≠ .textList) (h : p.Found (some v)) : Sayable p v
  | listed (hk : p.kind = .textList) (items : List String) : Sayable p (.texts items)
  | nothing (hk : p.kind = .textArray) (hd : p.default = some (.texts [])) : Sayable p (.texts [])

theorem sayable_of_default {p : Param} (hk : p.kind ≠ .textList) (h : p.HasReadDefault) {v : Value}
    (hv : p.default = some v) : p.Sayable v := by
  obtain hnone | hown | ⟨raw, he, hraw⟩ := h
  · rw [hnone] at hv
    cases hv
  · rw [hown] at hv
    cases hkind : p.kind with
    | bool =>
      rw [hkind] at hv
      cases hv
      have hread : p.kind.read "false" = .ok (.bool false) := by rw [hkind]; rfl
      exact .found hk (.read (by decide) (by decide) hread)
    | duration unit | holdDuration unit offset =>
      rw [hkind] at hv
      cases hv
      have hin : Duration.inRange 0 = true := by decide
      have hread : p.kind.read (toString (0 : Int)) = .ok (.duration 0) := by
        simp only [hkind, ParamKind.read, readDuration, integerOfText?_toString, span,
          Int.zero_mul, hin, if_true]
      exact .found hk (.read (not_isEmpty_toString 0) (not_isDynamic_toString 0) hread)
    | textArray =>
      rw [hkind] at hown hv
      cases hv
      exact .nothing hkind hown
    | textList => exact absurd hkind hk
    | _ =>
      rw [hkind] at hv
      cases hv
  · exact .found hk (hv ▸ found_of_parse he hraw)

theorem sayable_of_parse {p : Param} (hk : p.kind ≠ .textList) (h : p.HasReadDefault)
    {raw : Option String} {v : Value} (hv : p.parse raw = .ok (some v)) : p.Sayable v := by
  rcases found_parse hv with hd | hfound
  · exact sayable_of_default hk h hd.symm
  · exact .found hk hfound

theorem Sayable.counted {p : Param} {unit : TimeUnit} (hp : p.Counts unit) {v : Value}
    (h : p.Sayable v) : Counted unit (some v) := by
  cases h with
  | found hk h => exact h.counted hp
  | listed hk | nothing hk => rcases hp with hp | ⟨key, hp⟩ <;> rw [hk] at hp <;> cases hp

theorem Counted.sayable {p : Param} {unit : TimeUnit} (hp : p.Counts unit) {v : Value}
    (h : Counted unit (some v)) : p.Sayable v := by
  have hk : p.kind ≠ .textList := by
    rintro hk
    rcases hp with hp | ⟨key, hp⟩ <;> rw [hk] at hp <;> cases hp
  cases h with
  | dynamic ht => exact .found hk (.dynamic ht)
  | units n hr =>
    refine .found hk (.read (not_isEmpty_toString n) (not_isDynamic_toString n) ?_)
    simp only [hp.read, readDuration, integerOfText?_toString, span, hr, if_true]

/-! ### Arguments -/

theorem readableValue_of_fits {kind : ParamKind} (hk : kind.isLasting = true) {v : Value}
    (h : kind.fits v = true) (hne : v ≠ .texts []) : ReadableValue kind v := by
  cases kind with
  | int | long =>
    cases v with
    | integer n => exact ⟨n, rfl⟩
    | _ => cases h
  | textArray | textList =>
    cases v with
    | texts items => exact fun hnil => hne (by rw [hnil])
    | _ => cases h
  | enum type javaClass =>
    cases v with
    | member m =>
      obtain ⟨x, hx, he⟩ := List.any_eq_true.mp h
      obtain rfl := of_decide_eq_true he
      simp only [isLasting, Bool.and_eq_true, Bool.not_eq_true', List.all_eq_true] at hk
      obtain ⟨⟨⟨-, hclass⟩, hword⟩, hname⟩ := hk
      exact (isDotted_of_isIdentifier hclass (by simpa using hword)).append (hname x hx)
    | _ => cases h
  | double | float | displayName | plain | classRef | children => cases hk
  | _ => trivial

/-- The text of a value fills the parentheses of a call with the expressions of the value. -/
theorem Sayable.fills {p : Param} {v : Value} (h : p.Sayable v)
    (hp : p.kind.isLasting = true)
    {indent : List Char} (hi : indent.all isIndent = true) (blocks : Bool) :
    Fills (p.render (some v) indent blocks) (p.exprs (some v)) := by
  have hnothing (hk : p.kind = .textArray ∨ p.kind = .textList) :
      Fills (p.render (some (.texts [])) indent blocks) (p.exprs (some (.texts []))) := by
    have hempty : p.render (some (.texts [])) indent blocks = [] ∧
        p.exprs (some (.texts [])) = [] := by
      rcases hk with hk | hk <;> simp [render, renderValue, exprs, valueExprs, hk, joinWith]
    rw [hempty.1, hempty.2]
    exact fills_nil
  have hsome (hfits : p.kind.fits v = true) (hne : v ≠ .texts []) :
      Fills (p.render (some v) indent blocks) (p.exprs (some v)) := by
    have hread := readableValue_of_fits hp hfits hne
    have hread : p.Readable (some v) := by cases v <;> first | exact hread | trivial
    exact (lists_render hread hi blocks).fills
  cases h with
  | found hk h =>
    cases h with
    | @dynamic t ht =>
      have hread : p.Readable (some (.dynamic t)) := trivial
      exact (lists_render hread hi blocks).fills
    | read he hd h => exact hsome (fits_of_read h) (readsBack_of_isLasting hp he hd h).ne_nothing
  | listed hk items =>
    by_cases hnil : items = []
    · subst hnil
      exact hnothing (.inr hk)
    · exact hsome (by rw [hk]; rfl) fun h => hnil (Value.texts.inj h)
  | nothing hk hd => exact hnothing (.inl hk)

/-- The text of a value, as the arguments of a call, is parsed to the expressions of the value. -/
theorem Sayable.exists_parse {p : Param} {v : Value} (h : p.Sayable v)
    (hp : p.kind.isLasting = true) {name : String} (hn : isPlainName name = true)
    {indent : List Char} (hi : indent.all isIndent = true) (blocks : Bool) :
    ∃ pos args,
      Script.parse
          (String.ofList (name.toList ++ '(' :: p.render (some v) indent blocks ++ [')'])) =
        .ok ⟨[], .call ⟨pos, name, args⟩ []⟩ ∧
      args.map Expr.unplaced = p.exprs (some v) := by
  have hw := (isDotted_of_isPlainName hn).writes_call (h.fills hp hi blocks)
  obtain ⟨⟨definitions, expr⟩, hq, hu⟩ := parse_of_writes hw hn (.inl rfl)
  rw [List.append_nil] at hq
  simp only [Program.unplaced, Program.mk.injEq, List.map_eq_nil_iff] at hu
  obtain ⟨rfl, hu⟩ := hu
  rw [Expr.unplaced, Call.unplacedAll_of_forall (Call.unplaced_exprs p (some v))] at hu
  obtain ⟨pos, args, rfl, hargs⟩ := Expr.eq_call_of_unplaced hu
  exact ⟨pos, args, hq, by rw [← Expr.unplacedAll_eq_map, hargs]⟩

/-- A value that was read for another one. It is the same where the kind says values as they are,
and what is found where it is stored agrees with that other one. -/
structure Echoed (p : Param) (v w : Value) : Prop where
  exact : p.kind.isExact = true ∨ p.kind = .textList → w = v
  reread : ∃ v', p.reread (some w) = .ok (some v') ∧ p.kind.Agree v v'

theorem reread_of_found {p : Param} (hp : p.kind.isLasting = true) (hk : p.kind ≠ .textList)
    {v : Value} (h : p.Found (some v)) : p.reread (some v) = .ok (some v) := by
  cases h with
  | dynamic ht => rw [reread, if_neg hk, stored, parse_of_isDynamic p ht]
  | read he hd h => exact reread_of_readsBack hk (readsBack_of_isLasting hp he hd h)

theorem valueExprs_of_not_isDynamic {p : Param} {v : Value} (h : v.isDynamic = false) :
    p.exprs (some v) = valueExprs p.kind v := by
  cases v <;> first | rfl | cases h

theorem takes_of_fromArg {p : Param} (hk : p.kind.isVariadic = false) {a : Expr} {w : Option Value}
    (h : p.fromArg a = .ok w) : p.Takes [a] w := by
  rw [Takes, hk]
  exact ⟨a, rfl, h⟩

theorem takes_of_fromArgs {p : Param} (hk : p.kind.isVariadic = true) {args : List Expr}
    {w : Option Value} (h : p.fromArgs args = .ok w) : p.Takes args w := by
  rwa [Takes, hk, if_pos rfl]

theorem Takes.unique {p : Param} {args : List Expr} {w w' : Option Value} (h : p.Takes args w)
    (h' : p.Takes args w') : w = w' := by
  unfold Takes at h h'
  split_ifs at h h' with hk
  · rw [h] at h'
    exact Except.ok.inj h'
  · obtain ⟨a, rfl, ha⟩ := h
    obtain ⟨b, hab, hb⟩ := h'
    cases hab
    rw [ha] at hb
    exact Except.ok.inj hb

/-- A value of a kind that takes one argument is read from its expression. -/
theorem exists_fromArg {p : Param} (hp : p.kind.isLasting = true)
    (hk : p.kind.isExact = true ∨ p.kind = .charset) {v : Value} (h : p.Found (some v)) {a : Expr}
    (ha : p.exprs (some v) = [a.unplaced]) : ∃ w, p.fromArg a = .ok (some w) ∧ p.Echoed v w := by
  have hlist : p.kind ≠ .textList := by
    rintro hl
    rw [hl] at hk
    rcases hk with hk | hk <;> cases hk
  have hsame (hf : p.fromArg a = .ok (some v)) : ∃ w, p.fromArg a = .ok (some w) ∧ p.Echoed v w :=
    ⟨v, hf, fun _ => rfl, v, reread_of_found hp hlist h, .same v⟩
  cases h with
  | @dynamic t ht =>
    obtain ⟨pos, rfl⟩ := Expr.eq_text_of_unplaced (List.singleton_inj.mp ha).symm
    exact hsame (by simp only [fromArg, ht, if_true])
  | read he hd h =>
    have hback := readsBack_of_isLasting hp he hd h
    rw [valueExprs_of_not_isDynamic hback.static] at ha
    rcases hk with hk | hk
    · exact hsame (fromArg_of_readsBack hk hback ha)
    · have hfits := fits_of_read h
      rw [hk] at hback hfits ha
      cases v with
      | text s =>
        obtain ⟨t, hfrom, ht, hcan, -⟩ := fromArg_charset hk hback (List.singleton_inj.mp ha).symm
        obtain ⟨c, hc⟩ := Option.isSome_iff_exists.mp hfits
        have hcs : (Charset.ofName? s).map Charset.canonical = some c.canonical := by rw [hc]; rfl
        refine ⟨.text t, hfrom, fun hexact => ?_, .text t, ?_, .charset hk hcs (hcan ▸ hcs)⟩
        · rw [hk] at hexact
          rcases hexact with hexact | hexact <;> cases hexact
        · exact reread_of_readsBack hlist (hk ▸ ht)
      | _ => cases hfits

theorem exprs_texts {p : Param} (hk : p.kind.isVariadic = true) (items : List String) :
    p.exprs (some (.texts items)) = items.map (.text .start) := by
  rcases eq_of_isVariadic hk with hk | hk <;> simp only [exprs, valueExprs, hk]

/-- What a kind that takes all remaining arguments says is texts. -/
theorem Found.exists_items {p : Param} (hk : p.kind.isVariadic = true) {v : Value}
    (h : p.Found (some v)) :
    ∃ items : List String, p.exprs (some v) = items.map (.text .start) := by
  cases h with
  | @dynamic t ht => exact ⟨[t], rfl⟩
  | read he hd h =>
    have hfits := fits_of_read h
    cases v with
    | texts items => exact ⟨items, exprs_texts hk items⟩
    | _ => rcases eq_of_isVariadic hk with hk | hk <;> rw [hk] at hfits <;> cases hfits

/-- Texts that are listed are read from their expressions. -/
theorem Sayable.exists_fromArgs {p : Param} (hk : p.kind.isVariadic = true) {v : Value}
    (h : p.Sayable v) {args : List Expr} (ha : args.map Expr.unplaced = p.exprs (some v)) :
    ∃ w, p.fromArgs args = .ok (some w) ∧ p.Echoed v w := by
  have harray (hl : p.kind = .textArray) (w : Value) :
      p.kind.isExact = true ∨ p.kind = .textList → w = v := by
    rw [hl]
    rintro (h | h) <;> cases h
  have hread := fun {items : List String} (he : p.exprs (some v) = items.map (.text .start)) =>
    fromArgs_of_unplaced p (ha.trans he)
  cases h with
  | found hl h =>
    have hl := (eq_of_isVariadic hk).resolve_right hl
    obtain ⟨items, hitems⟩ := h.exists_items hk
    have hfrom := hread hitems
    exact ⟨_, hfrom, harray hl _, v, (reread_of_fromArgs (.inr ⟨hl, h⟩) ha hfrom).2, .same v⟩
  | listed hl items =>
    have hfrom := hread (exprs_texts hk items)
    exact ⟨_, hfrom, fun _ => rfl, _, (reread_of_fromArgs (.inl ⟨hl, items, rfl⟩) ha hfrom).2,
      .same _⟩
  | nothing hl hd =>
    refine ⟨_, hread (exprs_texts hk []), harray hl _, _, ?_, .same _⟩
    simp [reread, hl, stored, formatValue, parse, hd]

/-- The expressions of a value give the parameter a value that stands for it. -/
theorem Sayable.exists_takes {p : Param} {v : Value} (h : p.Sayable v)
    (hp : p.kind.isLasting = true) {args : List Expr}
    (ha : args.map Expr.unplaced = p.exprs (some v)) :
    ∃ w, p.Takes args (some w) ∧ p.Echoed v w := by
  cases hvar : p.kind.isVariadic with
  | true =>
    obtain ⟨w, hw, hecho⟩ := h.exists_fromArgs hvar ha
    exact ⟨w, takes_of_fromArgs hvar hw, hecho⟩
  | false =>
    have hk : p.kind.isExact = true ∨ p.kind = .charset := by
      rcases isExact_or_of_isLasting hp with hk | hk | hk
      · exact .inl hk
      · exact .inr hk
      · rw [hvar] at hk
        cases hk
    cases h with
    | found hl h =>
      obtain ⟨e, he⟩ : ∃ e, p.exprs (some v) = [e] := exists_exprs_eq hvar (some v)
      rw [he] at ha
      obtain ⟨a, rfl, rfl⟩ := List.map_eq_singleton_iff.mp ha
      obtain ⟨w, hw, hecho⟩ := exists_fromArg hp hk h he
      exact ⟨w, takes_of_fromArg hvar hw, hecho⟩
    | listed hl | nothing hl =>
      rw [hl] at hvar
      cases hvar

end Param

end FluentPlan
