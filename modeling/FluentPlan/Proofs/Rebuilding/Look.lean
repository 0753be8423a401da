import FluentPlan.Proofs.Assembly.Head
import FluentPlan.Proofs.Rebuilding.Repeated

/-!
Calls that look alike. The code of a call is made of its method, its arguments, the code of the
children that are not empty, and that of the calls chained to it; calls that agree on these cannot be
told apart.
-/

namespace FluentPlan

open Build

namespace Call

/-- Calls that cannot be told apart, neither by their code nor among other children. -/
structure LooksLike (c d : Call) : Prop where
  code : ∀ (style : Style) (indent : List Char) (inComment own : Bool),
    d.code style indent inComment own = c.code style indent inComment own
  category : d.head.category = c.head.category
  commented : d.head.commented = c.head.commented

theorem LooksLike.isEmpty {c d : Call} (h : c.LooksLike d) : d.isEmpty = c.isEmpty := by
  have hcode := h.code ⟨[], false⟩ [] false false
  cases hc : c.isEmpty with
  | true =>
    rw [code_of_isEmpty hc] at hcode
    cases hd : d.isEmpty with
    | true => rfl
    | false => exact absurd hcode (code_ne_nil hd _ _ _ _)
  | false =>
    cases hd : d.isEmpty with
    | false => rfl
    | true =>
      rw [code_of_isEmpty hd] at hcode
      exact absurd hcode.symm (code_ne_nil hc _ _ _ _)

/-- Chained calls that cannot be told apart. -/
def LinksLike (c d : Call) : Prop :=
  d.head.method = c.head.method ∧ ∀ (style : Style) (indent : List Char) (inComment own : Bool),
    d.code style indent inComment own = c.code style indent inComment own

/-! ### Code -/

/-- The code of a call that stands in no comment of its own. -/
theorem code_of_live (c : Call) (hr : c.head.role ≠ .empty) (hc : c.head.commented = false)
    (style : Style) (indent : List Char) (inComment own : Bool) :
    c.code style indent inComment own =
      c.head.method.toList ++ '(' :: Style.arguments inComment indent (indent ++ style.indent)
        (style.scalars (indent ++ style.indent) c.head.args)
        (childCodes style (indent ++ style.indent) inComment c.children) ++
        ')' :: chainCode style (indent ++ style.indent) inComment c.chain := by
  obtain ⟨head, children, chain⟩ := c
  rw [code, if_neg hr]
  simp [show head.commented = false from hc]

theorem childCodes_filter (style : Style) (indent : List Char) (inComment : Bool)
    (cs : List Call) : childCodes style indent inComment (cs.filter fun c => !c.isEmpty) =
      childCodes style indent inComment cs := by
  induction cs with
  | nil => rfl
  | cons c cs ih => cases hc : c.isEmpty <;> simp [childCodes_cons, hc, ih]

theorem childCodes_congr {cs ds : List Call} (h : List.Forall₂ LooksLike cs ds) (style : Style)
    (indent : List Char) (inComment : Bool) :
    childCodes style indent inComment ds = childCodes style indent inComment cs := by
  induction h with
  | nil => rfl
  | cons hcd _ ih => rw [childCodes_cons, childCodes_cons, hcd.isEmpty, hcd.commented, hcd.code, ih]

theorem chainCode_congr {cs ds : List Call} (h : List.Forall₂ LinksLike cs ds) (style : Style)
    (indent : List Char) (inComment : Bool) :
    chainCode style indent inComment ds = chainCode style indent inComment cs := by
  induction h with
  | nil => rfl
  | cons hcd _ ih => rw [chainCode, chainCode, hcd.1, hcd.2, ih]

theorem chainCode_append (style : Style) (indent : List Char) (inComment : Bool)
    (cs ds : List Call) : chainCode style indent inComment (cs ++ ds) =
      chainCode style indent inComment cs ++ chainCode style indent inComment ds := by
  induction cs with
  | nil => simp [chainCode]
  | cons c cs ih =>
    rw [List.cons_append, chainCode, chainCode, ih]
    split_ifs <;> simp

theorem code_chainedChildren (children : List Call) (style : Style) (indent : List Char)
    (inComment own : Bool) : code style indent inComment own (chainedChildren children) =
      "children".toList ++ '(' :: Style.arguments inComment indent (indent ++ style.indent) []
        (childCodes style (indent ++ style.indent) inComment children) ++ [')'] := by
  rw [code_of_live (chainedChildren children) nofun rfl]
  simp [chainedChildren, chainCode, Style.scalars]

/-- A chained call that would take children leaves no trace without them. -/
theorem chainCode_chainedChildren_nil (style : Style) (indent : List Char) (inComment : Bool) :
    chainCode style indent inComment [chainedChildren []] = [] := by
  rw [chainCode, code_chainedChildren, childCodes]
  rfl

end Call

/-! ### Arguments -/

theorem Param.Alike.isRendered {p q : Param} {v w : Option Value} (h : Alike p v q w) :
    (Arg.scalar q w).isRendered = (Arg.scalar p v).isRendered := by
  simp only [Arg.isRendered, isDefault, h.mandatory, h.default]

namespace Element

theorem scalars_of_allAlike {vs ws : List (Param × Option Value)} (h : AllAlike vs ws)
    (style : Style) (indent : List Char) :
    style.scalars indent (ws.map fun x => .scalar x.1 x.2) =
      style.scalars indent (vs.map fun x => .scalar x.1 x.2) := by
  induction h with
  | nil => rfl
  | cons hxy _ ih =>
    rw [Style.scalars, Style.scalars] at ih ⊢
    rw [List.map_cons, List.map_cons, List.filterMap_cons, List.filterMap_cons]
    simp only [hxy.isRendered, hxy.render, ih]

theorem any_isDynamic_of_allAlike {vs ws : List (Param × Option Value)} (h : AllAlike vs ws) :
    (ws.map fun x => Arg.scalar x.1 x.2).any Arg.isDynamic =
      (vs.map fun x => Arg.scalar x.1 x.2).any Arg.isDynamic := by
  induction h with
  | nil => rfl
  | cons hxy _ ih => rw [List.map_cons, List.map_cons, List.any_cons, List.any_cons, ih, hxy.dynamic]

/-- Calls of a modifier with values that look alike. -/
theorem linksLike_of_echoes {m : Modifier} (hm : ∀ p ∈ m.params, p.kind ≠ .children) {c d : Call}
    (h : Echoes m c d) : c.LinksLike d := by
  obtain ⟨vs, ws, rfl, rfl, halike, hv, hw⟩ := h
  have hargs {us : List (Param × Option Value)} (hu : us.map Prod.fst = m.params) :
      argsOf us = us.map fun x => .scalar x.1 x.2 :=
    argsOf_eq fun x hx => hm x.1 (hu ▸ List.mem_map_of_mem hx)
  refine ⟨rfl, fun style indent inComment own => ?_⟩
  have hscalars (lead : List Char) : style.scalars lead (callArgs m ws) =
      style.scalars lead (callArgs m vs) := by
    rw [callArgs, callArgs, hargs hv, hargs hw, any_isDynamic_of_allAlike halike]
    split_ifs
    · rfl
    · exact scalars_of_allAlike halike style lead
  rw [Call.code_of_live (.chained _ _) (by simp [Call.chained]) rfl,
    Call.code_of_live (.chained _ _) (by simp [Call.chained]) rfl]
  simp only [Call.chained, hscalars]

/-- What the arguments of a signature come to, where the place of the children comes to nothing. -/
theorem flatMap_placeArgs {α : Type} {f : Arg → List α} (hf : f .children = []) {ps : List Param}
    {vs : List (Param × Option Value)}
    (h : vs.map Prod.fst = ps.filter fun p => !p.isChildren) :
    (placeArgs ps vs).flatMap f = vs.flatMap fun x => f (.scalar x.1 x.2) := by
  induction ps generalizing vs with
  | nil =>
    rw [List.map_eq_nil_iff.mp h]
    rfl
  | cons p ps ih =>
    unfold placeArgs
    by_cases hp : p.isChildren = true
    · rw [List.filter_cons_of_neg (by simp [hp])] at h
      rw [if_pos hp, List.flatMap_cons, hf, List.nil_append, ih h]
    · rw [List.filter_cons_of_pos (by simpa using hp)] at h
      obtain ⟨x, xs, rfl, -, hxs⟩ := List.map_eq_cons_iff.mp h
      rw [if_neg hp, List.flatMap_cons, List.flatMap_cons, ih hxs]

theorem scalars_placeArgs {ps : List Param} {vs : List (Param × Option Value)}
    (h : vs.map Prod.fst = ps.filter fun p => !p.isChildren) (style : Style)
    (indent : List Char) : style.scalars indent (placeArgs ps vs) =
      style.scalars indent (vs.map fun x => .scalar x.1 x.2) := by
  rw [Style.scalars, Style.scalars, List.filterMap_eq_flatMap_toList,
    List.filterMap_eq_flatMap_toList, flatMap_placeArgs rfl h, List.flatMap_map]

theorem contains_placeArgs {ps : List Param} {vs : List (Param × Option Value)}
    (h : vs.map Prod.fst = ps.filter fun p => !p.isChildren) :
    (placeArgs ps vs).contains .children = ps.any Param.isChildren := by
  induction ps generalizing vs with
  | nil => rfl
  | cons p ps ih =>
    unfold placeArgs
    by_cases hp : p.isChildren = true
    · simp [hp]
    · rw [List.filter_cons_of_pos (by simpa using hp)] at h
      obtain ⟨x, xs, rfl, -, hxs⟩ := List.map_eq_cons_iff.mp h
      rw [if_neg hp, List.contains_cons, ih hxs, List.any_cons, Bool.eq_false_iff.mpr hp]
      rfl

/-! ### Children -/

theorem code_withChildren (o : Options) (s : Signature) {head : CallHead} (hr : head.role ≠ .empty)
    (hc : head.commented = false) (chain calls : List Call) (style : Style) (indent : List Char)
    (inComment own : Bool) :
    (withChildren o s head chain calls).code style indent inComment own =
      (attach s head chain (Call.order o.categories calls)).code style indent inComment own := by
  unfold withChildren
  cases calls with
  | cons c cs => rfl
  | nil =>
    have horder : Call.order o.categories [] = [] := by simp [Call.order, orderBy]
    rw [List.isEmpty_nil, if_pos rfl, horder, attach]
    split_ifs
    · rw [Call.code_of_live _ hr hc, Call.code_of_live _ hr hc]
      simp only [Call.chainCode_append, Call.chainCode_chainedChildren_nil, List.append_nil]
    · rfl

/-- Heads that cannot be told apart. -/
structure HeadsLike (c d : CallHead) : Prop where
  method : d.method = c.method
  category : d.category = c.category
  builders : c.role = .builder ∧ d.role = .builder
  live : c.commented = false ∧ d.commented = false
  scalars : ∀ (style : Style) (indent : List Char),
    style.scalars indent d.args = style.scalars indent c.args
  place : d.args.contains .children = c.args.contains .children

theorem order_eq_of_looksLike {o : Options} {calls kids : List Call}
    (h : List.Forall₂ Call.LooksLike
      ((Call.order o.categories calls).filter fun c => !c.isEmpty) kids) :
    Call.order o.categories kids = kids := by
  have hsorted := (orderBy_sorted (fun c : Call => c.head.category) o.categories calls).filter
    fun c => !c.isEmpty
  have hkids : kids.Pairwise fun a b =>
      rankIn o.categories a.head.category ≤ rankIn o.categories b.head.category := by
    have hcategories : (kids.map (·.head.category)) =
        (((Call.order o.categories calls).filter fun c => !c.isEmpty).map (·.head.category)) := by
      clear hsorted
      generalize (Call.order o.categories calls).filter (fun c => !c.isEmpty) = cs at h
      induction h with
      | nil => rfl
      | cons hcd _ ih => rw [List.map_cons, List.map_cons, ih, hcd.category]
    let le (a b : String) : Prop := rankIn o.categories a ≤ rankIn o.categories b
    have hmap : (kids.map (·.head.category)).Pairwise le := by
      rw [hcategories]
      exact List.pairwise_map.mpr hsorted
    exact (List.pairwise_map (R := le)).mp hmap
  exact List.mergeSort_of_pairwise (hkids.imp fun hab => decide_eq_true hab)

/-- Calls whose heads, chains and children cannot be told apart. -/
theorem looksLike_withChildren {o : Options} {s t : Signature} (hm : t.childrenMode = s.childrenMode)
    {head headt : CallHead} (hh : HeadsLike head headt) {chain chaint : List Call}
    (hchain : List.Forall₂ Call.LinksLike chain chaint) {calls kids : List Call}
    (hkids : List.Forall₂ Call.LooksLike
      ((Call.order o.categories calls).filter fun c => !c.isEmpty) kids) :
    (withChildren o s head chain calls).LooksLike (withChildren o t headt chaint kids) := by
  have hr : head.role ≠ .empty := by simp [hh.builders.1]
  have hrt : headt.role ≠ .empty := by simp [hh.builders.2]
  have hempty : chaint.isEmpty = chain.isEmpty := by cases hchain <;> rfl
  refine ⟨fun style indent inComment own => ?_, ?_, ?_⟩
  · have hcodes (style : Style) (lead : List Char) (inComment : Bool) :
        Call.childCodes style lead inComment kids =
          Call.childCodes style lead inComment (Call.order o.categories calls) := by
      rw [Call.childCodes_congr hkids, Call.childCodes_filter]
    rw [code_withChildren o t hrt hh.live.2, code_withChildren o s hr hh.live.1,
      order_eq_of_looksLike hkids, attach, attach, hm, hempty, hh.place]
    split_ifs
    · have hplace : Call.LinksLike (.chainedChildren (Call.order o.categories calls))
          (.chainedChildren kids) := by
        refine ⟨rfl, fun style indent inComment own => ?_⟩
        rw [Call.code_chainedChildren, Call.code_chainedChildren, hcodes]
      have hlinks := List.rel_append hchain (.cons hplace .nil)
      rw [Call.code_of_live _ hrt hh.live.2, Call.code_of_live _ hr hh.live.1]
      simp only [hh.method, hh.scalars, Call.chainCode_congr hlinks, Call.childCodes]
    · rw [Call.code_of_live _ hrt hh.live.2, Call.code_of_live _ hr hh.live.1]
      simp only [hh.method, hh.scalars, Call.chainCode_congr hchain, hcodes]
  · rw [head_withChildren, head_withChildren, hh.category]
  · rw [head_withChildren, head_withChildren, hh.live.1, hh.live.2]

end Element

end FluentPlan
