import FluentPlan.Proofs.Param.Reread

/-!
Arguments that come back. The value of a parameter becomes an expression, the expression a value that
is stored, and what is read there looks like the value that stood at the beginning.
-/

namespace FluentPlan

open Script Number Text

/-- Whether the members of an enumeration are told apart by their names. -/
def EnumType.isNamed (t : EnumType) : Bool :=
  t.members.all fun m => t.ofName? m.1 = some (t.toMember m)

theorem EnumType.isNamed_of_isTold {t : EnumType} (h : t.isTold = true) : t.isNamed = true :=
  List.all_eq_true.mpr fun m hm => (Bool.and_eq_true_iff.mp (List.all_eq_true.mp h m hm)).1

/-- Whether the one argument that says a value of a kind says that very value. -/
def ParamKind.isExact : ParamKind → Bool
  | bool | int | long | double | text | displayName | url | duration _ | holdDuration _ _ => true
  | enum type _ => type.isNamed
  | _ => false

namespace Param

open ParamKind

/-- Values of parameters that look alike in code. -/
structure Alike (p : Param) (v : Option Value) (q : Param) (w : Option Value) : Prop where
  mandatory : p.mandatory = q.mandatory
  default : p.isDefault? v = q.isDefault? w
  dynamic : (Arg.scalar p v).isDynamic = (Arg.scalar q w).isDynamic
  render : ∀ (indent : List Char) (blocks : Bool), p.render v indent blocks = q.render w indent blocks

theorem Alike.refl (p : Param) (v : Option Value) : Alike p v p v := ⟨rfl, rfl, rfl, fun _ _ => rfl⟩

/-- Whether a value that is stored is read as one that looks like another. -/
def Returns (x y : Param × Option Value) : Prop :=
  y.2 ≠ none ∧ ∃ w, y.1.reread y.2 = .ok w ∧ Alike x.1 x.2 y.1 w

/-! ### Arguments -/

/-- Whether a parameter takes `null` for its argument. -/
def takesNull (p : Param) : Bool := p.kind = .text || p.kind = .displayName || p.kind = .url

theorem fromArg_null {p : Param} (h : p.takesNull = true) (pos : Position) :
    p.fromArg (.null pos) = .ok none := by
  obtain ⟨kind, prop, default, required, mandatory⟩ := p
  simp only [takesNull, Bool.or_eq_true, decide_eq_true_eq] at h
  rcases h with (rfl | rfl) | rfl <;> rfl

/-- Only a parameter that takes `null` takes it, for no value. -/
theorem of_fromArg_null {p : Param} {pos : Position} {b : Option Value}
    (h : p.fromArg (.null pos) = .ok b) : b = none ∧ p.takesNull = true := by
  obtain ⟨kind, prop, default, required, mandatory⟩ := p
  cases kind with
  | text | displayName | url =>
    cases h
    exact ⟨rfl, rfl⟩
  | _ => cases h

theorem ne_none_of_fromArg_int {p : Param} (hp : p.kind = .int) {a : Expr} {v : Option Value}
    (h : p.fromArg a = .ok v) : v ≠ none := by
  obtain ⟨kind, prop, default, required, mandatory⟩ := p
  obtain rfl : kind = .int := hp
  rintro rfl
  cases a with
  | number pos t =>
    unfold fromArg argValue at h
    dsimp only at h
    split_ifs at h
    · split at h <;> cases h
    · cases h
  | text pos t =>
    unfold fromArg argValue at h
    dsimp only at h
    split_ifs at h <;> cases h
  | _ => cases h

theorem fromArg_integer {p : Param} (hk : p.kind = .int ∨ p.kind = .long) {n : Int} {t : String}
    (ht : dropMarks ['l', 'L'] t = toString n) (hread : p.kind.read (toString n) = .ok (.integer n))
    (pos : Position) : p.fromArg (.number pos t) = .ok (some (.integer n)) := by
  unfold fromArg argValue
  rcases hk with hk | hk <;> rw [hk] at hread <;>
    simp only [hk, isIntegral_of_dropMarks ht, if_true, ht, hread]

theorem dropMarks_longCode (n : Int) :
    dropMarks ['l', 'L'] (longCode (.integer n)) = toString n := by
  simp only [longCode]
  split_ifs
  · exact dropMarks_toString n
  · exact dropMarks_toString_long n

theorem fromArg_double {p : Param} (hk : p.kind = .double) {x : Number.Double}
    (hx : x.isFinite = true) (ht : Number.Double.ofText? x.text = some x) (pos : Position) :
    p.fromArg (.number pos x.text) = .ok (some (.double x)) := by
  have hmarks : dropMarks ['f', 'F', 'd', 'D', 'l', 'L'] x.text = x.text := by
    refine dropMarks_of_forall fun c hc hm => ?_
    simp only [List.mem_cons, List.not_mem_nil, or_false] at hm
    rcases mem_text_double hx hc with hd | hd
    · rcases hm with rfl | rfl | rfl | rfl | rfl | rfl <;> exact absurd hd (by decide)
    · rcases hm with rfl | rfl | rfl | rfl | rfl | rfl <;> exact absurd hd (by decide)
  have hread : ParamKind.double.read x.text = .ok (.double x) := (readsBack_double hx ht).read
  unfold fromArg argValue
  simp only [hk, hmarks, hread]

theorem durationArg?_of_unplaced {a : Expr} {ms : Int} (h : a.unplaced = durationExpr ms) :
    durationArg? a = some ms := by
  have hcount (n : Int) : readInteger? (dropMarks ['l', 'L'] (toString n)).toList = some n := by
    rw [dropMarks_toString, readInteger?_toString]
  have hfactory {name : String} {u n : Int} (hu : factoryMillis? name = some u)
      (ha : a.unplaced = .call ⟨.start, name, [.number .start (toString n)]⟩ []) :
      durationArg? a = some (n * u) := by
    obtain ⟨pos, as, rfl, has⟩ := Expr.eq_call_of_unplaced ha
    rw [Expr.unplacedAll_eq_map] at has
    obtain ⟨b, rfl, hb⟩ := List.map_eq_singleton_iff.mp has
    obtain ⟨pos', rfl⟩ := Expr.eq_number_of_unplaced hb
    simp only [durationArg?, hu, isIntegral_toString, hcount]
    rfl
  unfold durationExpr at h
  split_ifs at h with h0 h1
  · obtain ⟨pos, rfl⟩ := Expr.eq_name_of_unplaced h
    rw [h0]
    rfl
  · rw [hfactory (u := 1000) (by decide) h]
    congr 1
    omega
  · rw [hfactory (u := 1) (by decide) h, Int.mul_one]

theorem fromArg_duration {p : Param} {unit : TimeUnit}
    (hk : p.kind = .duration unit ∨ ∃ key, p.kind = .holdDuration unit key) {ms : Int}
    (hr : Duration.inRange ms = true) {a : Expr} (h : a.unplaced = durationExpr ms) :
    p.fromArg a = .ok (some (.duration ms)) := by
  have harg : p.argValue a = .ok (some (.duration ms)) := by
    unfold argValue
    rcases hk with hk | ⟨key, hk⟩ <;> simp only [hk, durationArg?_of_unplaced h, hr, if_true]
  unfold fromArg
  split
  · next pos s =>
    unfold durationExpr at h
    split_ifs at h <;> cases h
  · exact harg

theorem afterLead?_append (lead name : String) : afterLead? lead (lead ++ name) = some name := by
  simp [afterLead?, behind?]

theorem fromArg_enum {p : Param} {type : EnumType} {javaClass : String}
    (hk : p.kind = .enum type javaClass) (ht : type.isNamed = true) {m : Member}
    (hm : type.members.any (fun x => type.toMember x = m) = true) (pos : Position) :
    p.fromArg (.name pos (Java.simpleName javaClass ++ "." ++ m.name)) = .ok (some (.member m)) := by
  obtain ⟨x, hx, he⟩ := List.any_eq_true.mp hm
  obtain rfl := of_decide_eq_true he
  have hname : type.ofName? (type.toMember x).name = some (type.toMember x) :=
    of_decide_eq_true (List.all_eq_true.mp ht x hx)
  unfold fromArg argValue
  simp only [hk, afterLead?_append, Option.bind_some, hname]

theorem fromArg_text {p : Param} (hk : p.kind = .text ∨ p.kind = .displayName ∨ p.kind = .url)
    {s : String} (hs : isDynamic s = false) (pos : Position) :
    p.fromArg (.text pos s) = .ok (some (.text s)) := by
  unfold fromArg argValue
  rcases hk with hk | hk | hk <;> simp [hs, hk]

/-- What an argument says of a value, if its kind is exact, is the value. -/
theorem fromArg_of_readsBack {p : Param} (hp : p.kind.isExact = true) {v : Value}
    (hv : p.kind.ReadsBack v) {a : Expr} (ha : valueExprs p.kind v = [a.unplaced]) :
    p.fromArg a = .ok (some v) := by
  have hfits := fits_of_read hv.read
  cases hk : p.kind with
  | bool =>
    rw [hk] at hfits ha
    cases v with
    | bool b =>
      obtain ⟨pos, rfl⟩ := Expr.eq_bool_of_unplaced (List.singleton_inj.mp ha).symm
      unfold fromArg argValue
      rw [hk]
      cases b <;> rfl
    | _ => cases hfits
  | int =>
    have hread := hv.read
    rw [hk] at hfits ha
    cases v with
    | integer n =>
      obtain ⟨pos, rfl⟩ := Expr.eq_number_of_unplaced (List.singleton_inj.mp ha).symm
      rw [hk] at hread
      exact fromArg_integer (.inl hk) (dropMarks_toString n) (by rw [hk]; exact hread) pos
    | _ => cases hfits
  | long =>
    have hread := hv.read
    rw [hk] at hfits ha
    cases v with
    | integer n =>
      obtain ⟨pos, rfl⟩ := Expr.eq_number_of_unplaced (List.singleton_inj.mp ha).symm
      rw [hk] at hread
      exact fromArg_integer (.inr hk) (dropMarks_longCode n) (by rw [hk]; exact hread) pos
    | _ => cases hfits
  | double =>
    have hread := hv.read
    rw [hk] at hfits ha hread
    cases v with
    | double x =>
      obtain ⟨pos, rfl⟩ := Expr.eq_number_of_unplaced (List.singleton_inj.mp ha).symm
      exact fromArg_double hk hfits (ofText?_of_readDouble hread) pos
    | _ => cases hfits
  | text | displayName | url =>
    have hplain := hv.plain
    rw [hk] at hfits ha hplain
    cases v with
    | text s =>
      obtain ⟨pos, rfl⟩ := Expr.eq_text_of_unplaced (List.singleton_inj.mp ha).symm
      exact fromArg_text (by simp [hk]) hplain pos
    | _ => cases hfits
  | duration unit =>
    rw [hk] at hfits ha
    cases v with
    | duration ms => exact fromArg_duration (.inl hk) hfits (List.singleton_inj.mp ha).symm
    | _ => cases hfits
  | holdDuration unit offset =>
    rw [hk] at hfits ha
    cases v with
    | duration ms =>
      exact fromArg_duration (.inr ⟨offset, hk⟩) hfits (List.singleton_inj.mp ha).symm
    | _ => cases hfits
  | enum type javaClass =>
    rw [hk] at hp hfits ha
    cases v with
    | member m =>
      obtain ⟨pos, rfl⟩ := Expr.eq_name_of_unplaced (List.singleton_inj.mp ha).symm
      exact fromArg_enum hk hp hfits pos
    | _ => cases hfits
  | _ => simp [hk, isExact] at hp

/-! ### Charsets -/

/-- Under the name that stands for a constant the same charset is found. -/
theorem exists_nameOfConstant? {cs : Charset} {c : String} (h : cs.constant? = some c) :
    ∃ s, Charset.nameOfConstant? c = some s ∧
      (Charset.ofName? s).map Charset.canonical = some cs.canonical ∧
      isDynamic s = false ∧ trim isBlank s.toList = s.toList ∧ s.toList.contains '\x00' = false := by
  obtain ⟨before, behind, hl, -⟩ := List.lookup_eq_some_iff.mp h
  have hm : (cs.canonical, c) ∈ before ++ (cs.canonical, c) :: behind := by simp
  rw [← hl] at hm
  simp only [List.mem_cons, Prod.mk.injEq, List.not_mem_nil, or_false] at hm
  rcases hm with ⟨hc, rfl⟩ | ⟨hc, rfl⟩ | ⟨hc, rfl⟩ | ⟨hc, rfl⟩ | ⟨hc, rfl⟩ | ⟨hc, rfl⟩ <;> rw [hc]
  · exact ⟨"UTF-8", by decide⟩
  · exact ⟨"US-ASCII", by decide⟩
  · exact ⟨"ISO-8859-1", by decide⟩
  · exact ⟨"UTF-16", by decide⟩
  · exact ⟨"UTF-16BE", by decide⟩
  · exact ⟨"UTF-16LE", by decide⟩

theorem readsBack_charset_of_trimmed {s : String} (hd : isDynamic s = false)
    (ht : trim isBlank s.toList = s.toList) (h0 : s.toList.contains '\x00' = false)
    (hs : (Charset.ofName? s).isSome = true) : charset.ReadsBack (.text s) := by
  refine readsBack_charset hd ?_
  simp only [readCharset, ht, String.ofList_toList, hs, h0, if_true, Bool.false_eq_true, if_false]

theorem eq_of_constant? {a b : Charset} {c : String} (ha : a.constant? = some c)
    (h : b.canonical = a.canonical) : b.constant? = some c := by
  rw [← ha, Charset.constant?, Charset.constant?, h]

theorem alike_charset {p : Param} (hk : p.kind = .charset) {s t : String}
    (hcan : (Charset.ofName? s).map Charset.canonical = (Charset.ofName? t).map Charset.canonical)
    (hcode : charsetCode s = charsetCode t) : Alike p (some (.text s)) p (some (.text t)) := by
  obtain ⟨kind, prop, default, required, mandatory⟩ := p
  subst hk
  have hsame : canonical? (.text s) = canonical? (.text t) := hcan
  refine ⟨rfl, ?_, rfl, fun _ _ => hcode⟩
  cases default with
  | none => rfl
  | some d =>
    unfold isDefault?
    simp only [hsame]

/-- A charset comes back under its own name, or under that of its constant. -/
theorem fromArg_charset {p : Param} (hk : p.kind = .charset) {s : String}
    (hs : ParamKind.charset.ReadsBack (.text s)) {a : Expr} (ha : a.unplaced = charsetExpr s) :
    ∃ t, p.fromArg a = .ok (some (.text t)) ∧ ParamKind.charset.ReadsBack (.text t) ∧
      (Charset.ofName? s).map Charset.canonical = (Charset.ofName? t).map Charset.canonical ∧
      charsetCode s = charsetCode t := by
  unfold charsetExpr at ha
  cases hc : (Charset.ofName? s).bind Charset.constant? with
  | some c =>
    obtain ⟨cs, hcs, hcon⟩ := Option.bind_eq_some_iff.mp hc
    obtain ⟨t, ht, hcan, hd, htrim, h0⟩ := exists_nameOfConstant? hcon
    obtain ⟨ct, hct, hcan⟩ := Option.map_eq_some_iff.mp hcan
    rw [hc] at ha
    obtain ⟨pos, rfl⟩ := Expr.eq_name_of_unplaced ha
    refine ⟨t, ?_, readsBack_charset_of_trimmed hd htrim h0 (by rw [hct]; rfl), ?_, ?_⟩
    · unfold fromArg argValue
      simp only [hk, charsetArg?, afterLead?_append, ht, Option.pure_def, Option.bind_eq_bind,
        Option.bind_some]
    · rw [hcs, hct, Option.map_some, Option.map_some, hcan]
    · simp only [charsetCode, hcs, hct, Option.bind_some, hcon, eq_of_constant? hcon hcan]
  | none =>
    rw [hc] at ha
    obtain ⟨pos, as, rfl, has⟩ := Expr.eq_call_of_unplaced ha
    rw [Expr.unplacedAll_eq_map] at has
    obtain ⟨x, rfl, hx⟩ := List.map_eq_singleton_iff.mp has
    obtain ⟨pos', rfl⟩ := Expr.eq_text_of_unplaced hx
    have hread : ParamKind.charset.read s = .ok (.text s) := hs.read
    refine ⟨s, ?_, hs, rfl, rfl⟩
    unfold fromArg argValue
    simp only [hk, charsetArg?, if_true, hread]

theorem echo_charset {p : Param} (hk : p.kind = .charset) {s : String}
    (hs : ParamKind.charset.ReadsBack (.text s)) {a : Expr} (ha : a.unplaced = charsetExpr s)
    {b : Option Value} (hb : p.fromArg a = .ok b) : Returns (p, some (.text s)) (p, b) := by
  obtain ⟨t, hfrom, hback, hcan, hcode⟩ := fromArg_charset hk hs ha
  rw [hfrom] at hb
  cases hb
  have hback : p.kind.ReadsBack (.text t) := hk ▸ hback
  exact ⟨nofun, _, reread_of_readsBack (by simp [hk]) hback, alike_charset hk hcan hcode⟩

/-! ### Classes -/

theorem toList_dottedClass (s : String) :
    (dottedClass s).toList = s.toList.map fun c => if c = '$' then '.' else c :=
  String.toList_ofList

theorem dottedClass_dottedClass (s : String) : dottedClass (dottedClass s) = dottedClass s := by
  rw [dottedClass, toList_dottedClass, List.map_map, dottedClass]
  congr 2
  funext c
  simp only [Function.comp_apply]
  split_ifs <;> simp_all

/-- The argument of a class names it with points for its nesting marks. -/
theorem fromArg_classRef {p : Param} (hk : p.kind = .classRef) (s : String) (pos : Position) :
    p.fromArg (.name pos (classCode s)) = .ok (some (.text (dottedClass s))) := by
  have hlist : (classCode s).toList = (dottedClass s).toList ++ ".class".toList := by
    rw [classCode_eq]
    simp
  have hsuffix : ".class".toList.isSuffixOf (classCode s).toList = true := by
    rw [List.isSuffixOf_iff_suffix, hlist]
    exact List.suffix_append _ _
  have htake : (classCode s).toList.take ((classCode s).toList.length - 6) =
      (dottedClass s).toList := by
    rw [hlist]
    simp
  unfold fromArg argValue
  simp only [hk, hsuffix, if_true, htake, String.ofList_toList]

/-- A class comes back with points for its nesting marks. -/
theorem echo_classRef {p : Param} (hk : p.kind = .classRef) (hdef : p.default = none) {s : String}
    (hne : s.isEmpty = false) {a : Expr} (ha : a.unplaced = .name .start (classCode s))
    {b : Option Value} (hb : p.fromArg a = .ok b) : Returns (p, some (.text s)) (p, b) := by
  obtain ⟨pos, rfl⟩ := Expr.eq_name_of_unplaced ha
  rw [fromArg_classRef hk] at hb
  cases hb
  have hback : p.kind.ReadsBack (.text (dottedClass s)) := by
    rw [hk]
    refine readsBack_of_eq ?_ ?_ rfl rfl rfl
    · rw [Bool.eq_false_iff] at hne ⊢
      intro he
      refine hne (String.isEmpty_iff.mpr (String.toList_injective ?_))
      have hnil := toList_dottedClass s
      rw [String.isEmpty_iff.mp he] at hnil
      exact List.map_eq_nil_iff.mp hnil.symm
    · refine isDynamic_of_forall fun c hc => ?_
      rw [toList_dottedClass] at hc
      obtain ⟨d, -, rfl⟩ := List.mem_map.mp hc
      split_ifs with hd
      · decide
      · exact hd
  refine ⟨nofun, _, reread_of_readsBack (by simp [hk]) hback, ?_⟩
  have hcode : classCode s = classCode (dottedClass s) := by
    rw [classCode_eq, classCode_eq, dottedClass_dottedClass]
  obtain ⟨kind, prop, default, required, mandatory⟩ := p
  subst hk hdef
  exact ⟨rfl, rfl, rfl, fun _ _ => congrArg String.toList hcode⟩

/-! ### All kinds -/

theorem exists_exprs_eq {p : Param} (hp : p.kind.isVariadic = false) (v : Option Value) :
    ∃ e, p.exprs v = [e] := by
  obtain ⟨kind, prop, default, required, mandatory⟩ := p
  cases v with
  | none => exact ⟨_, rfl⟩
  | some v => cases v <;> cases kind <;> first | exact ⟨_, rfl⟩ | cases hp

/-- Whether a parameter takes one argument and finds its value again where it was stored. -/
def isRestored (p : Param) : Bool :=
  p.kind.isEchoed && !p.kind.isVariadic && p.readsDefault &&
    (p.kind ≠ .classRef || p.default.isNone)

/-- The values in doubles are those that their texts spell. -/
def ReadsDouble (v : Option Value) : Prop :=
  ∀ x, v = some (.double x) → Number.Double.ofText? x.text = some x

/-- A reference comes back as it is, through any parameter. -/
theorem echo_dynamic {p q : Param} (hm : p.mandatory = q.mandatory) (hq : q.kind ≠ .textList)
    {t : String} (ht : isDynamic t = true) {a : Expr} (ha : a.unplaced = .text .start t)
    {b : Option Value} (hb : q.fromArg a = .ok b) : Returns (p, some (.dynamic t)) (q, b) := by
  have hread := reread_of_dynamic hq ht ha hb
  refine ⟨?_, _, hread, hm, rfl, rfl, fun _ _ => rfl⟩
  rintro rfl
  obtain ⟨pos, rfl⟩ := Expr.eq_text_of_unplaced ha
  simp [fromArg, ht] at hb

/-- What the argument of a value says, stored and read again, looks like the value. -/
theorem echo {p : Param} (hp : p.isRestored = true) {v : Value} (hv : p.Found (some v))
    (hx : ReadsDouble (some v)) {a : Expr} (ha : p.exprs (some v) = [a.unplaced])
    {b : Option Value} (hb : p.fromArg a = .ok b) : Returns (p, some v) (p, b) := by
  simp only [isRestored, Bool.and_eq_true, Bool.not_eq_true', Bool.or_eq_true] at hp
  obtain ⟨⟨⟨hecho, hvar⟩, -⟩, hclass⟩ := hp
  have hlist : p.kind ≠ .textList := by
    intro hk
    rw [hk] at hvar
    cases hvar
  cases hv with
  | dynamic ht => exact echo_dynamic rfl hlist ht (List.singleton_inj.mp ha).symm hb
  | read he hd h =>
    have hback := readsBack_of_read he hd h fun x h => hx x (by rw [h])
    have hexpr : valueExprs p.kind v = [a.unplaced] := by
      have hstatic := hback.static
      cases v with
      | dynamic t => cases hstatic
      | _ => exact ha
    cases hexact : p.kind.isExact with
    | true =>
      rw [fromArg_of_readsBack hexact hback hexpr] at hb
      cases hb
      exact ⟨nofun, _, reread_of_readsBack hlist hback, Alike.refl _ _⟩
    | false =>
      have hfits := fits_of_read h
      cases hk : p.kind with
      | charset =>
        rw [hk] at hback hfits hexpr
        cases v with
        | text s => exact echo_charset hk hback (List.singleton_inj.mp hexpr).symm hb
        | _ => cases hfits
      | classRef =>
        rw [hk] at hback hfits hexpr hclass
        cases v with
        | text s =>
          have hdef : p.default = none := by simpa using hclass
          exact echo_classRef hk hdef hback.nonempty (List.singleton_inj.mp hexpr).symm hb
        | _ => cases hfits
      | enum type javaClass =>
        rw [hk] at hecho hexact
        rw [isExact, EnumType.isNamed_of_isTold hecho] at hexact
        cases hexact
      | _ => simp [hk, isEchoed, isVariadic, isExact] at hecho hvar hexact

/-! ### Texts that are listed -/

theorem fromArgs_of_unplaced (p : Param) {items : List String} {as : List Expr}
    (h : as.map Expr.unplaced = items.map (.text .start)) :
    p.fromArgs as = .ok (some (.texts items)) := by
  have hgo (acc : List String) : fromArgs.go p as acc = .ok (some (.texts (acc.reverse ++ items))) := by
    induction as generalizing items acc with
    | nil =>
      obtain rfl := List.map_eq_nil_iff.mp h.symm
      simp [fromArgs.go]
    | cons a as ih =>
      cases items with
      | nil => cases h
      | cons s items =>
        simp only [List.map_cons, List.cons.injEq] at h
        obtain ⟨pos, rfl⟩ := Expr.eq_text_of_unplaced h.1
        rw [fromArgs.go, ih h.2]
        simp
  rw [fromArgs, hgo]
  rfl

/-- Texts that are listed are found again. -/
theorem reread_of_fromArgs {p : Param} {v : Option Value}
    (hv : (p.kind = .textList ∧ ∃ items, v = some (.texts items)) ∨
      (p.kind = .textArray ∧ p.Found v))
    {as : List Expr} (ha : as.map Expr.unplaced = p.exprs v) {b : Option Value}
    (hb : p.fromArgs as = .ok b) : b ≠ none ∧ p.reread b = .ok v := by
  rcases hv with ⟨hk, items, rfl⟩ | ⟨hk, hv⟩
  · have hexpr : p.exprs (some (.texts items)) = items.map (.text .start) := by
      simp only [exprs, valueExprs, hk]
    rw [fromArgs_of_unplaced p (ha.trans hexpr)] at hb
    cases hb
    exact ⟨Option.some_ne_none _, by simp only [reread, hk, if_true, itemsOf]⟩
  · have hlist : p.kind ≠ .textList := by simp [hk]
    cases hv with
    | dynamic ht =>
      next t =>
      rw [fromArgs_of_unplaced p (show as.map Expr.unplaced = [t].map (.text .start) by rw [ha]; rfl)] at hb
      cases hb
      have hs : p.stored (some (.texts [t])) = some t := by
        rw [stored_of_not_isDynamic p rfl, hk]
        simp [formatValue]
      exact ⟨Option.some_ne_none _, by rw [reread, if_neg hlist, hs, parse_of_isDynamic p ht]⟩
    | read he hd h =>
      next raw v =>
      have hback := readsBack_of_read he hd h fun x hx => by
        rw [hk, hx] at h
        cases h
      rw [hk] at h
      cases h
      have hexpr : p.exprs (some (.texts (commaParts raw))) =
          (commaParts raw).map (.text .start) := by
        simp only [exprs, valueExprs, hk]
      rw [fromArgs_of_unplaced p (ha.trans hexpr)] at hb
      cases hb
      exact ⟨Option.some_ne_none _, reread_of_readsBack hlist hback⟩

theorem echo_texts {p : Param} {v : Option Value}
    (hv : (p.kind = .textList ∧ ∃ items, v = some (.texts items)) ∨
      (p.kind = .textArray ∧ p.Found v))
    {as : List Expr} (ha : as.map Expr.unplaced = p.exprs v) {b : Option Value}
    (hb : p.fromArgs as = .ok b) : Returns (p, v) (p, b) :=
  have h := reread_of_fromArgs hv ha hb
  ⟨h.1, v, h.2, Alike.refl p v⟩

end Param

end FluentPlan
