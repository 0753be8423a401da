import FluentPlan.Proofs.Code.Expression
import FluentPlan.Proofs.Number.Comparison
import FluentPlan.Proofs.Number.Text
import FluentPlan.Proofs.Param.Reread
import FluentPlan.Proofs.Requirement.Hoisting

/-!
What calls of one key look like. A key keeps all that is written but the sign of a zero: zeros count
as the same number whatever their sign, and their texts differ. So calls of one key have the same
code just if they write the same zeros.
-/

namespace FluentPlan

open Call Number Text

/-! ### Texts that tell signs -/

/-- Texts that part at some character. What comes behind it does not matter. -/
def Parts (s t : List Char) : Prop :=
  ∃ l a b s' t', s = l ++ a :: s' ∧ t = l ++ b :: t' ∧ a ≠ b

theorem Parts.ne {s t : List Char} (h : Parts s t) : s ≠ t := by
  obtain ⟨l, a, b, s', t', rfl, rfl, hab⟩ := h
  simp [hab]

theorem Parts.append {s t : List Char} (h : Parts s t) (x y : List Char) :
    Parts (s ++ x) (t ++ y) := by
  obtain ⟨l, a, b, s', t', rfl, rfl, hab⟩ := h
  exact ⟨l, a, b, s' ++ x, t' ++ y, by simp, by simp, hab⟩

theorem Parts.behind {s t : List Char} (h : Parts s t) (x : List Char) :
    Parts (x ++ s) (x ++ t) := by
  obtain ⟨l, a, b, s', t', rfl, rfl, hab⟩ := h
  exact ⟨x ++ l, a, b, s', t', by simp, by simp, hab⟩

/-- How texts tell signs: there are as many in both, and the texts are the same if the signs are, and
part if they are not. No sign goes without a zero. -/
structure Tells (x y : List Bool) (s t : List Char) : Prop where
  length : x.length = y.length
  same : x = y → s = t
  parts : x ≠ y → Parts s t
  zero : x ≠ [] → '0' ∈ s ∧ '0' ∈ t

namespace Tells

variable {x y x' y' : List Bool} {s t s' t' : List Char}

theorem const (s : List Char) : Tells [] [] s s :=
  ⟨rfl, fun _ => rfl, fun h => absurd rfl h, fun h => absurd rfl h⟩

theorem of_same (h : x ≠ [] → '0' ∈ s) : Tells x x s s :=
  ⟨rfl, fun _ => rfl, fun hne => absurd rfl hne, fun hne => ⟨h hne, h hne⟩⟩

theorem append (h : Tells x y s t) (h' : Tells x' y' s' t') :
    Tells (x ++ x') (y ++ y') (s ++ s') (t ++ t') where
  length := by rw [List.length_append, List.length_append, h.length, h'.length]
  same := by
    intro heq
    obtain ⟨hx, hx'⟩ := List.append_inj heq h.length
    rw [h.same hx, h'.same hx']
  parts := by
    intro hne
    by_cases hx : x = y
    · rw [h.same hx]
      exact (h'.parts fun hx' => hne (by rw [hx, hx'])).behind t
    · exact (h.parts hx).append s' t'
  zero := by
    intro hne
    by_cases hx : x = []
    · obtain ⟨hs, ht⟩ := h'.zero fun hx' => hne (by rw [hx, hx', List.append_nil])
      exact ⟨List.mem_append_right s hs, List.mem_append_right t ht⟩
    · obtain ⟨hs, ht⟩ := h.zero hx
      exact ⟨List.mem_append_left s' hs, List.mem_append_left t' ht⟩

theorem behind (h : Tells x y s t) (l : List Char) : Tells x y (l ++ s) (l ++ t) :=
  (const l).append h

theorem before (h : Tells x y s t) (l : List Char) : Tells x y (s ++ l) (t ++ l) := by
  simpa using h.append (const l)

end Tells

/-- How lists of texts tell signs, item by item. -/
inductive TellsAll : List Bool → List Bool → List (List Char) → List (List Char) → Prop
  | nil : TellsAll [] [] [] []
  | cons {x y xs ys : List Bool} {s t : List Char} {ss ts : List (List Char)} (head : Tells x y s t)
    (tail : TellsAll xs ys ss ts) : TellsAll (x ++ xs) (y ++ ys) (s :: ss) (t :: ts)

namespace TellsAll

variable {xs ys : List Bool} {ss ts : List (List Char)}

theorem isEmpty_texts (h : TellsAll xs ys ss ts) : ss.isEmpty = ts.isEmpty := by
  cases h <;> rfl

theorem same (h : TellsAll xs ys ss ts) (heq : xs = ys) : ss = ts := by
  induction h with
  | nil => rfl
  | cons head _ ih =>
    obtain ⟨hx, hxs⟩ := List.append_inj heq head.length
    rw [head.same hx, ih hxs]

/-- Texts with something between them tell what they tell one by one. -/
theorem joinWith (sep : List Char) (h : TellsAll xs ys ss ts) :
    Tells xs ys (joinWith sep ss) (joinWith sep ts) := by
  induction h with
  | nil => exact .const []
  | @cons x y xs ys s t ss ts head tail ih =>
    cases tail with
    | nil => simpa [Text.joinWith] using head
    | cons head' tail' => exact (head.before sep).append ih

end TellsAll

/-! ### Arguments -/

/-- The signs of the zeros that a value holds: at most one. -/
def Value.zeroSigns : Value → List Bool
  | double x => x.zeroSign?.toList
  | _ => []

/-- The signs of the zeros that an argument writes. -/
def Arg.zeroSigns (a : Arg) : List Bool :=
  match a with
  | .scalar _ (some v) => if a.isRendered then v.zeroSigns else []
  | _ => []

/-- A kind whose values refer to no class has no data but its name. -/
theorem Param.kind_eq_of_name_eq {p q : Param} (hp : p.classes = [])
    (h : p.kind.name = q.kind.name) : p.kind = q.kind := by
  obtain ⟨k, _, _, _, _⟩ := p
  obtain ⟨l, _, _, _, _⟩ := q
  cases k <;> first
    | cases hp; done
    | cases l <;> first
      | rfl
      | exact absurd h (by simp [ParamKind.name])

/-- In the default registry a property has values of one kind, as far as names of kinds tell. -/
theorem Registry.kind_eq_standard {p q : Param} (hp : p ∈ standard.params)
    (hq : q ∈ standard.params) (hprop : p.prop = q.prop) (hname : p.kind.name = q.kind.name) :
    p.kind = q.kind := by
  by_cases hpc : p.classes = []
  · exact Param.kind_eq_of_name_eq hpc hname
  · exact kind_eq_of_prop_eq_standard p hp hpc q hq hprop hname

/-- Whether an argument is the place of the children, or one of the default registry with a value
that is of its kind and, if it is a number, in the format. -/
inductive Arg.IsRead : Arg → Prop
  | children : IsRead .children
  | scalar {p : Param} {v : Option Value} (param : p ∈ Registry.standard.params) (holds : p.Holds v)
    (proper : ∀ w ∈ v, w.IsProper) : IsRead (.scalar p v)

namespace Param

theorem fits_of_holds {p : Param} {v : Value} (h : p.Holds (some v)) (hd : v.isDynamic = false) :
    p.kind.fits v = true := by
  cases v <;> first | exact h | cases hd

/-- The text of a zero. -/
theorem render_signedZero {p : Param} (hk : p.kind = .double ∨ p.kind = .float) (negative : Bool)
    (indent : List Char) (blocks : Bool) :
    p.render (some (.double (Double.signedZero negative))) indent blocks =
      (if negative then ['-'] else []) ++
        '0' :: '.' :: '0' :: if p.kind = .float then ['f'] else [] := by
  rcases hk with hk | hk <;>
    simp [render, renderValue, doubleCode, hk, Double.toList_text_signedZero]

/-- A value that holds a zero is one of the two, and of a kind of numbers with a fraction. -/
theorem eq_signedZero_of_zeroSigns {p : Param} {v : Value} (hv : p.Holds (some v))
    (hp : v.IsProper) (h : v.zeroSigns ≠ []) :
    (p.kind = .double ∨ p.kind = .float) ∧
      ∃ negative, v = .double (Double.signedZero negative) := by
  cases v with
  | double x =>
    cases x with
    | finite negative m e =>
      cases m with
      | zero =>
        have he : e = Double.minExponent := hp.normal.resolve_left (by decide)
        refine ⟨?_, negative, by rw [he]; rfl⟩
        have hfits := fits_of_holds hv rfl
        cases hk : p.kind <;> rw [hk] at hfits <;> first | (cases hfits; done) | simp
      | succ m => exact absurd rfl h
    | infinite _ | nan => exact absurd rfl h
  | _ => exact absurd rfl h

/-- Values that a key does not tell apart have texts that tell their zeros. -/
theorem tells_render {p q : Param} (hk : p.kind = q.kind) {v w : Option Value} (hv : p.Holds v)
    (hw : q.Holds w) (hpv : ∀ x ∈ v, x.IsProper) (hpw : ∀ x ∈ w, x.IsProper)
    (h : v.map Value.key = w.map Value.key) (indent : List Char) (blocks : Bool) :
    Tells (v.elim [] Value.zeroSigns) (w.elim [] Value.zeroSigns) (p.render v indent blocks)
      (q.render w indent blocks) := by
  have hrender (u : Option Value) : q.render u indent blocks = p.render u indent blocks := by
    unfold render
    rw [hk]
  rw [hrender]
  rcases v with _ | v <;> rcases w with _ | w
  · exact .const _
  · cases h
  · cases h
  · have hpv : v.IsProper := hpv v rfl
    have hcases : v = w ∨ (p.kind = .double ∨ p.kind = .float) ∧ ∃ negative,
        v = .double (Double.signedZero negative) ∧ w = .double (Double.signedZero !negative) := by
      rcases Value.number?_eq_of_key_eq (Option.some.inj h) with rfl | ⟨hsome, hn⟩
      · exact .inl rfl
      · have hstatic {u : Value} (hu : u.number?.isSome = true) : u.isDynamic = false := by
          cases u <;> first | rfl | cases hu
        exact Value.eq_of_key_eq (fits_of_holds hv (hstatic hsome))
          (hk ▸ fits_of_holds hw (hstatic (hn ▸ hsome))) hpv (hpw w rfl) (Option.some.inj h)
    rcases hcases with rfl | ⟨hkind, negative, rfl, rfl⟩
    · refine .of_same fun hne => ?_
      obtain ⟨hkind, negative, rfl⟩ := eq_signedZero_of_zeroSigns hv hpv hne
      rw [render_signedZero hkind]
      exact List.mem_append_right _ List.mem_cons_self
    · rw [render_signedZero hkind, render_signedZero hkind]
      cases negative with
      | false => exact ⟨rfl, nofun, fun _ => ⟨[], '0', '-', _, _, rfl, rfl, by decide⟩, by simp⟩
      | true => exact ⟨rfl, nofun, fun _ => ⟨[], '-', '0', _, _, rfl, rfl, by decide⟩, by simp⟩

end Param

theorem Arg.zeroSigns_scalar (p : Param) (v : Option Value) : (Arg.scalar p v).zeroSigns =
    if (Arg.scalar p v).isRendered then v.elim [] Value.zeroSigns else [] := by
  cases v <;> simp [zeroSigns]

namespace Style

theorem scalars_cons (style : Style) (indent : List Char) (p : Param) (v : Option Value)
    (as : List Arg) : style.scalars indent (.scalar p v :: as) =
      if (Arg.scalar p v).isRendered then
        p.render v indent style.blocks :: style.scalars indent as
      else style.scalars indent as := by
  cases h : (Arg.scalar p v).isRendered <;> simp [scalars, h]

/-- Arguments that a key does not tell apart have texts that tell their zeros. -/
theorem tells_scalars (style : Style) (indent : List Char) {as bs : List Arg}
    (ha : ∀ a ∈ as, a.IsRead) (hb : ∀ b ∈ bs, b.IsRead) (h : as.map Arg.key = bs.map Arg.key) :
    TellsAll (as.flatMap Arg.zeroSigns) (bs.flatMap Arg.zeroSigns) (style.scalars indent as)
      (style.scalars indent bs) := by
  induction as generalizing bs with
  | nil =>
    obtain rfl := List.map_eq_nil_iff.mp h.symm
    exact .nil
  | cons a as ih =>
    obtain ⟨b, bs, rfl, hba, h⟩ := List.map_eq_cons_iff.mp h.symm
    have hrest := ih (fun c hc => ha c (List.mem_cons_of_mem a hc))
      (fun c hc => hb c (List.mem_cons_of_mem b hc)) h.symm
    cases ha a List.mem_cons_self with
    | children =>
      cases hb b List.mem_cons_self with
      | children => exact hrest
      | scalar _ _ _ => cases hba
    | @scalar p v hp hv hpv =>
      cases hb b List.mem_cons_self with
      | children => cases hba
      | @scalar q w hq hw hpw =>
        simp only [Arg.key, ArgKey.scalar.injEq] at hba
        obtain ⟨hname, hprop, hrendered, hvalue⟩ := hba
        have hk := Registry.kind_eq_standard hp hq hprop.symm hname.symm
        rw [List.flatMap_cons, List.flatMap_cons, Arg.zeroSigns_scalar, Arg.zeroSigns_scalar,
          scalars_cons, scalars_cons, hrendered]
        split_ifs
        · exact .cons (Param.tells_render hk hv hw hpv hpw hvalue.symm _ _) hrest
        · exact hrest

end Style

/-! ### Calls -/

namespace Call

/-- Whether all arguments of a call, and of what is nested in it, are read. -/
def IsRead (c : Call) : Prop := ∀ d ∈ c.walk, ∀ a ∈ d.head.args, a.IsRead

theorem IsRead.of_mem_walk {c d : Call} (h : c.IsRead) (hd : d ∈ c.walk) : d.IsRead :=
  fun e he => h e (walk_subset_of_mem_walk hd he)

theorem IsRead.child {c k : Call} (h : c.IsRead) (hk : k ∈ c.children) : k.IsRead :=
  h.of_mem_walk (walk_subset_of_mem_children hk (mem_walk_self k))

theorem IsRead.link {c l : Call} (h : c.IsRead) (hl : l ∈ c.chain) : l.IsRead :=
  h.of_mem_walk (walk_subset_of_mem_chain hl (mem_walk_self l))

mutual

/-- The signs of the zeros that a call writes, in their order. -/
def zeroSigns : Call → List Bool
  | ⟨head, children, chain⟩ =>
    if head.role = .empty then []
    else head.args.flatMap Arg.zeroSigns ++ zeroSignsAll children ++ zeroSignsAll chain

def zeroSignsAll : List Call → List Bool
  | [] => []
  | c :: cs => zeroSigns c ++ zeroSignsAll cs

end

theorem zeroSigns_of_isEmpty {c : Call} (h : c.isEmpty = true) : c.zeroSigns = [] := by
  obtain ⟨head, children, chain⟩ := c
  have hr : head.role = .empty := by simpa [isEmpty] using h
  rw [zeroSigns, if_pos hr]

theorem zeroSigns_eq {c : Call} (h : c.isEmpty = false) : c.zeroSigns =
    c.head.args.flatMap Arg.zeroSigns ++ zeroSignsAll c.children ++ zeroSignsAll c.chain := by
  obtain ⟨head, children, chain⟩ := c
  have hr : head.role ≠ .empty := by simpa [isEmpty] using h
  rw [zeroSigns, if_neg hr]

/-- The code of a call without a comment of its own around it. -/
def bareCode (style : Style) (indent : List Char) (inComment : Bool) (c : Call) : List Char :=
  c.head.method.toList ++ '(' :: Style.arguments inComment indent (indent ++ style.indent)
    (style.scalars (indent ++ style.indent) c.head.args)
    (childCodes style (indent ++ style.indent) inComment c.children) ++
    ')' :: chainCode style (indent ++ style.indent) inComment c.chain

theorem code_eq_bareCode {c : Call} (h : c.isEmpty = false) (style : Style) (indent : List Char)
    (inComment own : Bool) : c.code style indent inComment own =
      if c.head.commented && own && !inComment then
        Java.commentOut indent (c.bareCode style indent true)
      else c.bareCode style indent inComment := by
  obtain ⟨head, children, chain⟩ := c
  have hr : head.role ≠ .empty := by simpa [isEmpty] using h
  rw [code, if_neg hr]
  cases head.commented && own && !inComment <;> simp [bareCode]

/-- What follows for items of one key follows for lists of them. -/
theorem forall₂_of_map_key_eq {R : Call → Call → Prop} {cs ds : List Call}
    (h : ∀ c ∈ cs, ∀ d ∈ ds, c.key = d.key → R c d) (hk : cs.map key = ds.map key) :
    List.Forall₂ R cs ds := by
  induction cs generalizing ds with
  | nil =>
    obtain rfl := List.map_eq_nil_iff.mp hk.symm
    exact .nil
  | cons c cs ih =>
    obtain ⟨d, ds, rfl, hd, hds⟩ := List.map_eq_cons_iff.mp hk.symm
    refine .cons (h c List.mem_cons_self d List.mem_cons_self hd.symm) (ih ?_ hds.symm)
    exact fun c' hc d' hd => h c' (List.mem_cons_of_mem c hc) d' (List.mem_cons_of_mem d hd)

/-- Calls that write the same method, and tell their zeros where nothing is commented out. -/
structure TellsZeros (style : Style) (c d : Call) : Prop where
  isEmpty : c.isEmpty = d.isEmpty
  method : c.head.method = d.head.method
  code : ∀ indent own, Tells c.zeroSigns d.zeroSigns (c.code style indent true own)
    (d.code style indent true own)

variable {style : Style} {cs ds : List Call}

theorem tells_childCodes (h : List.Forall₂ (TellsZeros style) cs ds) (indent : List Char) :
    TellsAll (zeroSignsAll cs) (zeroSignsAll ds)
      ((childCodes style indent true cs).map ChildCode.code)
      ((childCodes style indent true ds).map ChildCode.code) := by
  induction h with
  | nil => exact .nil
  | @cons c d cs ds hcd _ ih =>
    rw [childCodes_cons, childCodes_cons, zeroSignsAll, zeroSignsAll, ← hcd.isEmpty]
    cases hempty : c.isEmpty with
    | true =>
      rw [zeroSigns_of_isEmpty hempty, zeroSigns_of_isEmpty (hcd.isEmpty ▸ hempty)]
      exact ih
    | false => exact .cons (hcd.code indent true) ih

theorem chainCode_cons (style : Style) (indent : List Char) (inComment : Bool) (c : Call)
    (cs : List Call) : chainCode style indent inComment (c :: cs) =
      if c.head.method = "children" ∧
          c.code style indent inComment true = "children()".toList then
        chainCode style indent inComment cs
      else '\n' :: indent ++ ['.'] ++ c.code style indent inComment true ++
        chainCode style indent inComment cs := by
  rw [chainCode]
  simp only [Bool.and_eq_true, decide_eq_true_eq, List.append_assoc, List.cons_append,
    List.nil_append]

/-- A chained call that is left out writes no zero. -/
theorem tells_chainCode (h : List.Forall₂ (TellsZeros style) cs ds) (indent : List Char) :
    Tells (zeroSignsAll cs) (zeroSignsAll ds) (chainCode style indent true cs)
      (chainCode style indent true ds) := by
  have hbare : '0' ∉ "children()".toList := by decide
  induction h with
  | nil =>
    simp only [zeroSignsAll, chainCode]
    exact .const []
  | @cons c d cs ds hcd _ ih =>
    have hcode := hcd.code indent true
    have hlink := (hcode.behind ('\n' :: indent ++ ['.'])).append ih
    rw [chainCode_cons, chainCode_cons, zeroSignsAll, zeroSignsAll, ← hcd.method]
    -- without a zero the texts are the same, so both are left out or none; with one neither is
    by_cases hz : c.zeroSigns = []
    · have hz' : d.zeroSigns = [] := List.length_eq_zero_iff.mp (by rw [← hcode.length, hz]; rfl)
      rw [hz, hz'] at hlink ⊢
      rw [hcode.same (hz.trans hz'.symm)] at hlink ⊢
      split_ifs
      · exact ih
      · exact hlink
    · obtain ⟨hc, hd⟩ := hcode.zero hz
      have hkept {t : List Char} (ht : '0' ∈ t) :
          ¬(c.head.method = "children" ∧ t = "children()".toList) := fun h => hbare (h.2 ▸ ht)
      rw [if_neg (hkept hc), if_neg (hkept hd)]
      exact hlink

/-- Where nothing is commented out again, children stand between commas. -/
theorem joinChildren_inComment (indent : List Char) (ks : List ChildCode) :
    Style.joinChildren true indent ks =
      Text.joinWith (',' :: '\n' :: indent) (ks.map ChildCode.code) := by
  induction ks with
  | nil => rfl
  | cons k ks ih =>
    cases ks with
    | nil => rfl
    | cons l ks =>
      have hcomma : (if k.commented then [','] else Style.commaBefore true (l :: ks)) = [','] := by
        simp [Style.commaBefore]
      have hcons : Style.joinChildren true indent (k :: l :: ks) = k.code ++
          (if k.commented then [','] else Style.commaBefore true (l :: ks)) ++ '\n' :: indent ++
            Style.joinChildren true indent (l :: ks) := rfl
      rw [hcons, hcomma, ih]
      simp [Text.joinWith]

/-- What stands between the parentheses tells the zeros of arguments and children. -/
theorem tells_arguments {xs ys xs' ys' : List Bool} {as bs : List (List Char)}
    {ks ls : List ChildCode} (ha : TellsAll xs ys as bs)
    (hk : TellsAll xs' ys' (ks.map ChildCode.code) (ls.map ChildCode.code))
    (indent childIndent : List Char) :
    Tells (xs ++ xs') (ys ++ ys') (Style.arguments true indent childIndent as ks)
      (Style.arguments true indent childIndent bs ls) := by
  have hempty : ks.isEmpty = ls.isEmpty := by simpa using hk.isEmpty_texts
  unfold Style.arguments
  rw [← hempty, ← ha.isEmpty_texts]
  refine (ha.joinWith [',', ' ']).append ?_
  cases hks : ks.isEmpty with
  | true =>
    obtain rfl := List.isEmpty_iff.mp hks
    obtain rfl := List.isEmpty_iff.mp (hempty ▸ hks)
    cases hk
    exact .const []
  | false =>
    have hcomma (ks : List ChildCode) : Style.commaBefore true ks = [','] := rfl
    have hchildren := ((hk.joinWith (',' :: '\n' :: childIndent)).behind
      ((if as.isEmpty then [] else [',']) ++ '\n' :: childIndent)).before ('\n' :: indent)
    simpa [joinChildren_inComment, hcomma] using hchildren

/-- What calls of one key write where nothing is commented out tells their zeros. -/
theorem tellsZeros_of_key_eq (style : Style) (c : Call) {d : Call} (hc : c.IsRead) (hd : d.IsRead)
    (h : c.key = d.key) : TellsZeros style c d := by
  induction c using Call.induction generalizing d with
  | step c hchildren hchain =>
    rw [key_eq, key_eq d, CallKey.mk.injEq] at h
    obtain ⟨hmethod, -, hempty, hargs, hks, hls⟩ := h
    refine ⟨hempty, hmethod, fun indent own => ?_⟩
    cases he : c.isEmpty with
    | true =>
      rw [zeroSigns_of_isEmpty he, zeroSigns_of_isEmpty (hempty ▸ he), code_of_isEmpty he,
        code_of_isEmpty (hempty ▸ he)]
      exact .const []
    | false =>
      have hkids : List.Forall₂ (TellsZeros style) c.children d.children :=
        forall₂_of_map_key_eq
          (fun k hk k' hk' => hchildren k hk (hc.child hk) (hd.child hk')) hks
      have hlinks : List.Forall₂ (TellsZeros style) c.chain d.chain :=
        forall₂_of_map_key_eq (fun l hl l' hl' => hchain l hl (hc.link hl) (hd.link hl')) hls
      have harguments := tells_arguments
        (style.tells_scalars (indent ++ style.indent) (hc c (mem_walk_self c))
          (hd d (mem_walk_self d)) hargs)
        (tells_childCodes hkids (indent ++ style.indent)) indent (indent ++ style.indent)
      have hall := ((harguments.behind (c.head.method.toList ++ ['('])).before [')']).append
        (tells_chainCode hlinks (indent ++ style.indent))
      have hbare (b : Call) : (if b.head.commented && own && !true then
          Java.commentOut indent (b.bareCode style indent true) else b.bareCode style indent true) =
            b.bareCode style indent true := by
        simp
      rw [zeroSigns_eq he, zeroSigns_eq (hempty ▸ he), code_eq_bareCode he,
        code_eq_bareCode (hempty ▸ he), hbare, hbare, bareCode, bareCode, ← hmethod]
      simpa using hall

/-- Calls that cannot be told apart by what they write. -/
structure RendersAs (c d : Call) : Prop where
  isEmpty : c.isEmpty = d.isEmpty
  method : c.head.method = d.head.method
  commented : c.head.commented = d.head.commented
  code : ∀ (style : Style) (indent : List Char) (inComment own : Bool),
    c.code style indent inComment own = d.code style indent inComment own

theorem childCodes_eq_of_rendersAs (h : List.Forall₂ RendersAs cs ds) (style : Style)
    (indent : List Char) (inComment : Bool) :
    childCodes style indent inComment cs = childCodes style indent inComment ds := by
  induction h with
  | nil => rfl
  | cons hcd _ ih => rw [childCodes_cons, childCodes_cons, hcd.isEmpty, hcd.commented, hcd.code, ih]

theorem chainCode_eq_of_rendersAs (h : List.Forall₂ RendersAs cs ds) (style : Style)
    (indent : List Char) (inComment : Bool) :
    chainCode style indent inComment cs = chainCode style indent inComment ds := by
  induction h with
  | nil => rfl
  | cons hcd _ ih => rw [chainCode_cons, chainCode_cons, hcd.method, hcd.code, ih]

/-- If lists write the same zeros and their calls write as many one by one, these write the same. -/
theorem forall₂_of_zeroSignsAll_eq {R : Call → Call → Prop}
    (h : List.Forall₂ (fun c d => c.zeroSigns.length = d.zeroSigns.length ∧
      (c.zeroSigns = d.zeroSigns → R c d)) cs ds) (hz : zeroSignsAll cs = zeroSignsAll ds) :
    List.Forall₂ R cs ds := by
  induction h with
  | nil => exact .nil
  | cons hcd _ ih =>
    rw [zeroSignsAll, zeroSignsAll] at hz
    obtain ⟨hc, hcs⟩ := List.append_inj hz hcd.1
    exact .cons (hcd.2 hc) (ih hcs)

/-- Calls of one key that write the same zeros write the same. -/
theorem rendersAs_of_key_eq (c : Call) {d : Call} (hc : c.IsRead) (hd : d.IsRead)
    (h : c.key = d.key) (hz : c.zeroSigns = d.zeroSigns) : RendersAs c d := by
  induction c using Call.induction generalizing d with
  | step c hchildren hchain =>
    rw [key_eq, key_eq d, CallKey.mk.injEq] at h
    obtain ⟨hmethod, hcommented, hempty, hargs, hks, hls⟩ := h
    refine ⟨hempty, hmethod, hcommented, fun style indent inComment own => ?_⟩
    cases he : c.isEmpty with
    | true => rw [code_of_isEmpty he, code_of_isEmpty (hempty ▸ he)]
    | false =>
      have htells := style.tells_scalars (indent ++ style.indent) (hc c (mem_walk_self c))
        (hd d (mem_walk_self d)) hargs
      have hpairs : List.Forall₂ (TellsZeros style) c.children d.children :=
        forall₂_of_map_key_eq (fun k hk k' hk' =>
          tellsZeros_of_key_eq style k (hc.child hk) (hd.child hk')) hks
      have hkids := tells_childCodes hpairs indent
      -- both have as many zeros in each part, so the signs agree part by part
      rw [zeroSigns_eq he, zeroSigns_eq (hempty ▸ he)] at hz
      obtain ⟨hz, hzl⟩ := List.append_inj hz (by
        rw [List.length_append, List.length_append, (htells.joinWith []).length,
          (hkids.joinWith []).length])
      obtain ⟨hza, hzk⟩ := List.append_inj hz (htells.joinWith []).length
      have hrender : List.Forall₂ RendersAs c.children d.children :=
        forall₂_of_zeroSignsAll_eq (forall₂_of_map_key_eq (fun k hk k' hk' hkey =>
          ⟨((tellsZeros_of_key_eq style k (hc.child hk) (hd.child hk') hkey).code indent own).length,
            hchildren k hk (hc.child hk) (hd.child hk') hkey⟩) hks) hzk
      have hlinks : List.Forall₂ RendersAs c.chain d.chain :=
        forall₂_of_zeroSignsAll_eq (forall₂_of_map_key_eq (fun l hl l' hl' hkey =>
          ⟨((tellsZeros_of_key_eq style l (hc.link hl) (hd.link hl') hkey).code indent own).length,
            hchain l hl (hc.link hl) (hd.link hl') hkey⟩) hls) hzl
      have hbare (nested : Bool) :
          c.bareCode style indent nested = d.bareCode style indent nested := by
        rw [bareCode, bareCode, hmethod, htells.same hza, childCodes_eq_of_rendersAs hrender,
          chainCode_eq_of_rendersAs hlinks]
      rw [code_eq_bareCode he, code_eq_bareCode (hempty ▸ he), hcommented, hbare, hbare]

end Call

/-! ### Assembled calls -/

namespace Param

theorem isProper_of_read {kind : ParamKind} {raw : String} {v : Value}
    (h : kind.read raw = .ok v) : v.IsProper := by
  have hf := ParamKind.fits_of_read h
  cases v with
  | double x =>
    cases kind with
    | double | float => exact Double.isProper_ofText? (ParamKind.ofText?_of_readDouble h)
    | _ => cases hf
  | _ => trivial

/-- Whether the default of a parameter is no number with a fraction. -/
def hasPlainDefault (p : Param) : Bool :=
  match p.default with
  | some (.double _) => false
  | _ => true

theorem isProper_default {p : Param} (h : p.hasPlainDefault = true) :
    ∀ v ∈ p.default, v.IsProper := by
  intro v hv
  unfold hasPlainDefault at h
  rw [hv] at h
  cases v with
  | double x => cases h
  | _ => trivial

theorem isProper_parse {p : Param} (hp : p.hasPlainDefault = true) {raw : Option String}
    {v : Option Value} (h : p.parse raw = .ok v) : ∀ w ∈ v, w.IsProper := by
  unfold parse at h
  split at h
  · cases h
    exact isProper_default hp
  · split_ifs at h
    · cases h
      exact isProper_default hp
    · cases h
      rintro _ ⟨⟩
      trivial
    · split at h
      · next hr =>
        cases h
        rintro _ ⟨⟩
        exact isProper_of_read hr
      · cases h

/-- Numbers that are read from an element are in the format. -/
theorem isProper_valueOf {p : Param} (hp : p.hasPlainDefault = true) {e : Element} {lead : String}
    {v : Option Value} (h : p.valueOf e lead = .ok v) : ∀ w ∈ v, w.IsProper := by
  unfold valueOf at h
  split at h
  · obtain ⟨entries, -, h⟩ := exists_of_bind_eq_ok h
    cases h
    rintro _ ⟨⟩
    trivial
  · obtain ⟨w, hw, h⟩ := exists_of_bind_eq_ok h
    obtain ⟨d, -, h⟩ := exists_of_bind_eq_ok h
    unfold moveBy at h
    split at h
    · split_ifs at h
      cases h
      rintro _ ⟨⟩
      trivial
    · cases h
      exact isProper_parse hp hw
  · exact isProper_parse hp h

end Param

/-- Defaults of the default registry are of their kind, and none is a number with a fraction. -/
theorem Registry.defaults_standard : ∀ p ∈ standard.params,
    p.hasOwnDefault = true ∧ p.hasPlainDefault = true := by
  decide +kernel

/-- The arguments of an assembled call are read from its element. -/
theorem Element.isRead_assemble {o : Options} {path : String} {e : Element} {c : Call}
    (h : (e.assemble .standard o path).outcome = .ok c) : c.IsRead := by
  have hscalar {s : Signature} (hs : s ∈ Registry.standard.signatures) {p : Param}
      (hp : p ∈ s.allParams) {e : Element} {lead : String} {v : Option Value}
      (hv : p.valueOf e lead = .ok v) : (Arg.scalar p v).IsRead := by
    have hp : p ∈ Registry.standard.params := List.mem_flatMap.mpr ⟨s, hs, hp⟩
    obtain ⟨hown, hplain⟩ := Registry.defaults_standard p hp
    exact .scalar hp (Param.holds_valueOf hown hv) (Param.isProper_valueOf hplain hv)
  refine forall_head_assemble (P := fun head => ∀ a ∈ head.args, a.IsRead)
    { empty := ?_, place := ?_, own := ?_, link := ?_ } e h
  · exact fun _ a ha => absurd ha List.not_mem_nil
  · exact fun _ a ha => List.mem_singleton.mp ha ▸ .children
  · intro s hs e values hv a ha
    rcases mem_placeArgs ha with rfl | ⟨x, hx, rfl⟩
    · exact .children
    · obtain ⟨hp, hx'⟩ := mem_of_valuesOf hv hx
      exact hscalar hs (List.mem_append_left _ (List.mem_of_mem_filter hp)) hx'
  · intro s hs m hm e cs hcs c hc a ha
    obtain ⟨args, rfl, hargs⟩ := exists_chained_of_modifierCalls hcs hc
    obtain ⟨lead, values, hv, ha⟩ := hargs a ha
    rcases mem_argsOf ha with rfl | ⟨x, hx, rfl⟩
    · exact .children
    · obtain ⟨hp, hx'⟩ := mem_of_valuesOf hv hx
      exact hscalar hs (List.mem_append_right _ (List.mem_flatMap.mpr ⟨m, hm, hp⟩)) hx'

/-- A timer with a given rate. -/
def throughputTimer (name : Option String) (rate : String) : Element :=
  ⟨"ConstantThroughputTimer", name, true, .ofList [("throughput", rate)], []⟩

def throughputCall (name : Option String) (rate : String) (x : Double) : Call :=
  ⟨Element.ownHead {} Catalog.Configuration.throughputTimer (throughputTimer name rate)
    [.scalar (Param.ofKind .double "throughput").require (some (.double x))], [], []⟩

theorem assemble_throughputTimer {name : Option String} {rate : String} {x : Double}
    (h : Element.ownCall {} Catalog.Configuration.throughputTimer (throughputTimer name rate) =
      .ok (some ((throughputCall name rate x).head, []))) :
    ((throughputTimer name rate).assemble .standard {} "").outcome =
      .ok (throughputCall name rate x) :=
  Element.assemble_of_ownCall (Registry.resolve?_of_first rfl rfl rfl) h (by rfl)

/-- Calls of one key, in what is assembled with the default registry, have the same code however it
is laid out just if the zeros that they write have the same signs. -/
theorem code_eq_iff_of_key_eq {o o' : Options} {path path' : String} {e e' : Element}
    {root root' : Call} (h : (e.assemble .standard o path).outcome = .ok root)
    (h' : (e'.assemble .standard o' path').outcome = .ok root') {c d : Call} (hc : c ∈ root.walk)
    (hd : d ∈ root'.walk) (hkey : c.key = d.key) :
    (∀ style indent inComment own,
      c.code style indent inComment own = d.code style indent inComment own) ↔
        c.zeroSigns = d.zeroSigns := by
  have hcr : c.IsRead := (Element.isRead_assemble h).of_mem_walk hc
  have hdr : d.IsRead := (Element.isRead_assemble h').of_mem_walk hd
  refine ⟨fun hcode => ?_, fun hz => (rendersAs_of_key_eq c hcr hdr hkey hz).code⟩
  -- comments move text that stands behind a line break; inside a comment nothing is moved again
  by_contra hz
  have htells := (tellsZeros_of_key_eq ⟨[], false⟩ c hcr hdr hkey).code [] true
  exact (htells.parts hz).ne (hcode ⟨[], false⟩ [] true true)

/-- Two texts of one rate. -/
theorem code_eq_iff_of_key_eq_sixty :
    let c := throughputCall none "60" (.ofInt 60)
    let d := throughputCall (some "Slow") "6e1" (.ofInt 60)
    (((throughputTimer none "60").assemble .standard {} "").outcome = .ok c ∧
      ((throughputTimer (some "Slow") "6e1").assemble .standard {} "").outcome = .ok d ∧
      c.key = d.key) ∧
      ∀ style indent inComment own,
        c.code style indent inComment own = d.code style indent inComment own := by
  intro c d
  have hc : ((throughputTimer none "60").assemble .standard {} "").outcome = .ok c :=
    assemble_throughputTimer (by rfl)
  have hd : ((throughputTimer (some "Slow") "6e1").assemble .standard {} "").outcome = .ok d :=
    assemble_throughputTimer (by rfl)
  have hkey : c.key = d.key := by decide
  exact ⟨⟨hc, hd, hkey⟩,
    (code_eq_iff_of_key_eq hc hd (mem_walk_self c) (mem_walk_self d) hkey).mpr (by decide)⟩

/-- A rate of zero and its negative count as the same, but their code differs. -/
theorem exists_key_eq_code_ne :
    let c := throughputCall none "0" (Double.signedZero false)
    let d := throughputCall none "-0" (Double.signedZero true)
    ((throughputTimer none "0").assemble .standard {} "").outcome = .ok c ∧
      ((throughputTimer none "-0").assemble .standard {} "").outcome = .ok d ∧ c.key = d.key ∧
      c.code ⟨[], true⟩ [] false true = "throughputTimer(0.0)".toList ∧
      d.code ⟨[], true⟩ [] false true = "throughputTimer(-0.0)".toList :=
  ⟨assemble_throughputTimer (by rfl), assemble_throughputTimer (by rfl), by decide,
    by decide +kernel, by decide +kernel⟩

end FluentPlan
