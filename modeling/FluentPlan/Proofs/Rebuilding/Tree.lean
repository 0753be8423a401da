import FluentPlan.Proofs.Code.Assembled
import FluentPlan.Proofs.Rebuilding.Operands
import FluentPlan.Proofs.Rebuilding.Reproduced

/-!
Trees that are made again. What says the call of a plan builds only elements that reproduce the call:
this holds of a call if it holds of those of its children, and so of all that are assembled.
-/

namespace FluentPlan

open Build Script Element

namespace Call

/-- Whether no argument of a call is written as null. -/
def HasNoNull (c : Call) : Prop :=
  ∀ d ∈ c.walk, ∀ a ∈ d.head.args, Expr.null .start ∉ a.exprs

/-- Whether the doubles in a call are what their texts spell. -/
def ReadsDoubles (c : Call) : Prop :=
  ∀ d ∈ c.walk, ∀ p v, Arg.scalar p v ∈ d.head.args → Param.ReadsDouble v

/-- Whether code says all arguments of a call. -/
structure SaysAll (c : Call) : Prop where
  noNull : c.HasNoNull
  doubles : c.ReadsDoubles

theorem SaysAll.of_subset {c d : Call} (h : c.SaysAll) (hw : d.walk ⊆ c.walk) : d.SaysAll :=
  ⟨fun e he => h.noNull e (hw he), fun e he => h.doubles e (hw he)⟩

theorem SaysAll.arg {c d : Call} (h : c.SaysAll) (hd : d ∈ c.walk) {p : Param} {v : Option Value}
    (ha : .scalar p v ∈ d.head.args) (hr : (Arg.scalar p v).isRendered = true) :
    v ≠ none ∧ Param.ReadsDouble v := by
  refine ⟨?_, h.doubles d hd p v ha⟩
  rintro rfl
  refine h.noNull d hd _ ha ?_
  rw [Arg.exprs, if_pos hr]
  exact List.mem_singleton_self _

/-- Whether an expression that says a call builds only elements that reproduce it. -/
structure Recovers (o : Options) (c : Call) : Prop where
  plain : isPlainName c.head.method = true
  reproduces : ∀ {scope : Scope}, scope.registry = .standard → scope.program.definitions = [] →
    ∀ {x : Expr}, x.unplaced = c.toExpr → ∀ {e : Element}, (evaluate scope x).outcome = .ok e →
      Reproduces o c e

end Call

namespace Element

mutual

/-- Whether no name in a tree refers to a variable. -/
def hasStaticNames : Element → Bool
  | ⟨_, name, _, _, children⟩ => name.all (fun n => !isDynamic n) && hasStaticNamesAll children

def hasStaticNamesAll : List Element → Bool
  | [] => true
  | e :: es => e.hasStaticNames && hasStaticNamesAll es

end

/-- What is so of a call and whatever says it, is so of calls and what says them one by one. -/
theorem forall₂_of_elements {P : Call → Element → Prop} {scope : Scope} {cs : List Call}
    (h : ∀ c ∈ cs, ∀ {x : Expr}, x.unplaced = c.toExpr → ∀ {e : Element},
      (evaluate scope x).outcome = .ok e → P c e)
    {xs : List Expr} (hx : xs.map Expr.unplaced = cs.map Call.toExpr) {es : List Element}
    (he : (elements (operands scope xs)).outcome = .ok es) : List.Forall₂ P cs es := by
  induction cs generalizing xs es with
  | nil =>
    obtain rfl := List.map_eq_nil_iff.mp hx
    cases he
    exact .nil
  | cons c cs ih =>
    obtain ⟨x, xs, rfl, hxc, hxs⟩ := List.map_eq_cons_iff.mp hx
    simp only [operands, elements, Logged.outcome_bind] at he
    obtain ⟨e, hxe, he⟩ := exists_of_bind_eq_ok he
    obtain ⟨es', hes, he⟩ := exists_of_bind_eq_ok he
    cases he
    exact .cons (h c List.mem_cons_self hxc hxe)
      (ih (fun d hd => h d (List.mem_cons_of_mem c hd)) hxs hes)

theorem mem_placeArgs_of_mem {ps : List Param} {vs : List (Param × Option Value)}
    (h : vs.map Prod.fst = ps.filter fun p => !p.isChildren) {x : Param × Option Value}
    (hx : x ∈ vs) : .scalar x.1 x.2 ∈ placeArgs ps vs := by
  have hmem : .scalar x.1 x.2 ∈
      (placeArgs ps vs).flatMap fun a => if a = .children then [] else [a] := by
    rw [flatMap_placeArgs (if_pos rfl) h]
    exact List.mem_flatMap.mpr ⟨x, hx, by simp⟩
  obtain ⟨a, ha, hxa⟩ := List.mem_flatMap.mp hmem
  split_ifs at hxa
  · cases hxa
  · rwa [List.mem_singleton.mp hxa]

/-- What the code of an element says of it. -/
theorem told_of_saysAll {o : Options} {s : Signature} (hs : s ∈ Registry.standard.signatures)
    {e : Element} (hn : e.name.all (fun n => !isDynamic n) = true)
    {vs : List (Param × Option Value)} (hv : scalarValues s e = .ok vs)
    {blocks : List (Modifier × List Call)} (hm : blocks.map Prod.fst = s.modifiers)
    (hb : ∀ b ∈ blocks, modifierCalls e b.1 = .ok b.2) {calls : List Call}
    (h : (withChildren o s (ownHead o s e (placeArgs s.params vs)) (blocks.flatMap Prod.snd)
      calls).SaysAll) : Told s e vs blocks where
  values := hv
  modifiers := hm
  calls := hb
  shown := fun x hx hr => by
    refine h.arg (Call.mem_walk_self _) ?_ hr
    rw [head_withChildren]
    exact mem_placeArgs_of_mem (map_fst_of_valuesOf hv) hx
  said := fun b hb' c hc p v ha => by
    have hmem : b.1 ∈ s.modifiers := hm ▸ List.mem_map_of_mem hb'
    have hlink : c ∈ (withChildren o s (ownHead o s e (placeArgs s.params vs))
        (blocks.flatMap Prod.snd) calls).chain :=
      mem_chain_withChildren (List.mem_flatMap.mpr ⟨b, hb', hc⟩)
    refine h.arg (Call.walk_subset_of_mem_chain hlink (Call.mem_walk_self c)) ha ?_
    obtain ⟨args, rfl, hargs⟩ := exists_chained_of_modifierCalls (hb b hb') hc
    obtain ⟨lead, values, hvalues, hv⟩ := hargs _ ha
    rcases mem_argsOf hv with hno | ⟨x, hx, hxa⟩
    · cases hno
    · cases hxa
      have hp := (mem_of_valuesOf hvalues hx).1
      simp [Arg.isRendered, ((Registry.modifiers_standard s hs b.1 hmem).2 x.1 hp).2]
  name := fun n hname => by simpa [hname] using hn

theorem method_of_mem_blocks {s : Signature} (hs : s ∈ Registry.standard.signatures) {e : Element}
    {blocks : List (Modifier × List Call)} (hm : blocks.map Prod.fst = s.modifiers)
    (hb : ∀ b ∈ blocks, modifierCalls e b.1 = .ok b.2) :
    ∀ c ∈ blocks.flatMap Prod.snd, c.head.method ≠ childrenMethod := by
  intro c hc
  obtain ⟨b, hb', hc⟩ := List.mem_flatMap.mp hc
  rw [method_of_modifierCalls (hb b hb') hc]
  exact (Registry.modifiers_standard s hs b.1 (hm ▸ List.mem_map_of_mem hb')).1

/-- What says the call of an element is evaluated by the first form of its method that takes the values
of the element, the calls of its modifiers, and the calls of its children. -/
theorem exists_makesFirst {o : Options} {s : Signature} (hs : s ∈ Registry.standard.signatures)
    {e : Element} {vs : List (Param × Option Value)} (hv : scalarValues s e = .ok vs)
    {blocks : List (Modifier × List Call)} (hm : blocks.map Prod.fst = s.modifiers)
    (hb : ∀ b ∈ blocks, modifierCalls e b.1 = .ok b.2) {calls : List Call}
    (hp : ∀ c ∈ calls, c.isEmpty = false → isPlainName c.head.method = true) {scope : Scope}
    (hr : scope.registry = .standard) (hd : scope.program.definitions = []) {x : Expr}
    (hx : x.unplaced = (withChildren o s (ownHead o s e (placeArgs s.params vs))
      (blocks.flatMap Prod.snd) calls).toExpr)
    {e' : Element} (he : (evaluate scope x).outcome = .ok e') :
    ∃ t line leading children invs tail kids,
      MakesFirst (Registry.standard.forMethod s.method) t line s.method leading children
        (invs ++ tail) e' ∧
      leading.map Expr.unplaced = vs.flatMap (fun x => (Arg.scalar x.1 x.2).exprs) ∧
      List.Forall₂ Says invs (blocks.flatMap Prod.snd) ∧ IsTail tail ∧
      children ++ tail.flatMap (·.args) = operands scope kids ∧
      kids.map Expr.unplaced =
        ((Call.order o.categories calls).filter fun c => !c.isEmpty).map Call.toExpr := by
  have hnone : scope.program.definition? s.method = none := by
    rw [Program.definition?, hd, List.find?_nil]
  obtain ⟨pos, leading, children, invs, tail, heval, hapart⟩ :=
    exists_operands (Call.placed_withChildren o s _ _ calls) (method_of_mem_blocks hs hm hb) hnone hx
  rw [heval, hr] at he
  obtain ⟨t, hfirst⟩ := exists_makesFirst_of_ofCall (hapart.divide fun c hc =>
    hp c ((orderBy_perm _ _ _).mem_iff.mp hc)) he
  obtain ⟨kids, hchildren, hk⟩ := hapart.operands
  exact ⟨t, pos.line, leading, children, invs, tail, kids, hfirst,
    hapart.values.trans (flatMap_placeArgs rfl (map_fst_of_valuesOf hv)), hapart.calls, hapart.last,
    hchildren, hk⟩

theorem isPlainName_method {s : Signature} (hs : s ∈ Registry.standard.signatures) :
    isPlainName s.method = true := by
  have hproper := List.all_eq_true.mp Registry.isProper_standard s hs
  simp only [Signature.isProper, Bool.and_eq_true] at hproper
  exact hproper.1.1

theorem isPlainName_withChildren {o : Options} {e : Element} {s : Signature}
    (hs : s ∈ Registry.standard.signatures) {args : List Arg} {chain calls : List Call} :
    isPlainName (withChildren o s (ownHead o s e args) chain calls).head.method = true := by
  rw [head_withChildren]
  exact isPlainName_method hs

/-- The call of an element recovers if those of its children do. -/
theorem recovers_withChildren {o : Options} {e : Element} {s : Signature}
    (hs : s ∈ Registry.standard.signatures) (hen : e.enabled = true)
    (hn : e.name.all (fun n => !isDynamic n) = true) {head : CallHead} {chain : List Call}
    (hown : ownCall o s e = .ok (some (head, chain))) {calls : List Call}
    (ha : calls ≠ [] → s.acceptsChildren = true)
    (hsay : (withChildren o s head chain calls).SaysAll)
    (hrec : ∀ c ∈ calls, c.isEmpty = false → c.Recovers o) :
    (withChildren o s head chain calls).Recovers o := by
  obtain ⟨vs, hv, ⟨-, -, hnone⟩ | ⟨hdef, links, hlinks, hsome⟩⟩ := ownCall_eq_ok hown
  · cases hnone
  cases hsome
  obtain ⟨blocks, hm, hflat, hb⟩ := exists_blocks hlinks
  rw [← hflat] at hsay ⊢
  have htold := told_of_saysAll hs hn hv hm hb hsay
  have hkids : ∀ c ∈ (Call.order o.categories calls).filter (fun c => !c.isEmpty), c.Recovers o := by
    intro c hc
    obtain ⟨hc, hne⟩ := List.mem_filter.mp hc
    exact hrec c ((orderBy_perm _ _ _).mem_iff.mp hc) (by simpa using hne)
  refine ⟨isPlainName_withChildren hs, fun {scope} hr hd {x} hx {e'} he => ?_⟩
  obtain ⟨t, line, leading, children, invs, tail, kids, hfirst, hexprs, hsaid, htail, hchildren, hk⟩ :=
    exists_makesFirst hs hv hm hb (fun c hc hne => (hrec c hc hne).plain) hr hd hx he
  have hrebuilt := htold.rebuilt_of_makes hexprs hsaid htail hfirst.makes hs hfirst.mem
  have hall := forall₂_of_elements (fun c hc _ hx _ he => (hkids c hc).reproduces hr hd hx he) hk
    (hchildren ▸ hrebuilt.children)
  exact hrebuilt.reproduces hs hen hv hm hdef ha hall

mutual

/-- The call of an element recovers, if it has an effect. -/
theorem recovers_assemble {o : Options} : (e : Element) → e.allEnabled = true →
    e.hasStaticNames = true → ∀ {path : String} {c : Call},
      (assemble .standard o path e).outcome = .ok c → c.SaysAll → c.isEmpty = false → c.Recovers o
  | ⟨kind, name, enabled, properties, children⟩ => by
    intro hen hn path c h hsay hne
    obtain ⟨hen, hkids⟩ := Bool.and_eq_true_iff.mp hen
    obtain ⟨hn, hnames⟩ := Bool.and_eq_true_iff.mp hn
    obtain ⟨s, hs, ⟨-, rfl⟩ | ⟨head, chain, calls, hown, hcalls, rfl⟩⟩ := assemble_eq_ok h
    · cases hne
    · refine recovers_withChildren (Registry.resolve?_eq_ok hs).1 hen hn hown
        (acceptsChildren_of_assembleAll hcalls) hsay ?_
      exact recovers_assembleAll children hkids hnames hcalls fun c hc =>
        hsay.of_subset (walk_subset_withChildren hc)

theorem recovers_assembleAll {o : Options} {s : Signature} : (es : List Element) →
    allEnabledAll es = true → hasStaticNamesAll es = true → ∀ {path : String} {calls : List Call},
      (assembleAll .standard o s path es).outcome = .ok calls → (∀ c ∈ calls, c.SaysAll) →
      ∀ c ∈ calls, c.isEmpty = false → c.Recovers o
  | [] => by
    intro _ _ path calls h hsay c hc
    cases h
    cases hc
  | e :: es => by
    intro hen hn path calls h hsay
    obtain ⟨hen, hrest⟩ := Bool.and_eq_true_iff.mp hen
    obtain ⟨hn, hnames⟩ := Bool.and_eq_true_iff.mp hn
    rcases assembleAll_cons_eq_ok h with ⟨-, h⟩ | ⟨-, -, c, cs, hc, hcs, rfl⟩
    · exact recovers_assembleAll es hrest hnames h hsay
    · intro d hm
      rcases List.mem_cons.mp hm with rfl | hm
      · exact recovers_assemble e hen hn hc (hsay d List.mem_cons_self)
      · exact recovers_assembleAll es hrest hnames hcs
          (fun c hc => hsay c (List.mem_cons_of_mem _ hc)) d hm

end

end Element

end FluentPlan
