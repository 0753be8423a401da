import FluentPlan.Proofs.Rebuilding.Chosen
import FluentPlan.Proofs.Rebuilding.Tree

/-!
Which calls the builder takes. Its forms refuse a call only for values that are required and not there,
and thread groups that ramp up for times with which they would not; what the code of an element builds
is therefore known from the values in its call.
-/

namespace FluentPlan

open Build Script Element Catalog Catalog.Plan

/-! ### Calls that are taken -/

namespace Call

/-- Whether a form takes what a call says by itself. -/
structure IsTaken (c : Call) : Prop where
  /-- What is required is there. -/
  given : ∀ p, Arg.scalar p none ∈ c.head.args → p.required = false
  /-- A thread group says how many threads it has, itself or in a chained call. -/
  counted : c.head.method = anyThreadGroup.method →
    ∃ d ∈ c :: c.chain, ∃ n, Arg.scalar threadCount n ∈ d.head.args
  /-- What ramps up does not do so in no time or in one second. -/
  ramps : ∀ r, Arg.scalar rampTimeParam r ∈ c.head.args →
    r ≠ some (.duration 0) ∧ r ≠ some (.duration 1000)
  /-- What ramps up and holds takes some time. -/
  runs : ∀ r x, Arg.scalar rampTimeParam r ∈ c.head.args → Arg.scalar holdTimeParam x ∈ c.head.args →
    runTime r x ≠ some 0

/-- Whether a form takes what the call of an element says, and the calls chained to it. -/
def OwnTaken (head : CallHead) (chain : List Call) : Prop :=
  IsTaken ⟨head, [], chain⟩ ∧ ∀ l ∈ chain, l.IsTaken

end Call

namespace Registry

/-- How long a group ramps up stands in no call of an element, only in calls that are chained to one, and
these have methods of their own. -/
theorem not_mem_rampTimeParam {s : Signature} (hs : s ∈ standard.signatures) :
    rampTimeParam ∉ s.params ∧ ∀ m ∈ s.modifiers, m.method ≠ anyThreadGroup.method := by
  have hall : (standard.signatures.all fun s => !s.params.contains rampTimeParam &&
      s.modifiers.all fun m => decide (m.method ≠ anyThreadGroup.method)) = true := by
    decide +kernel
  simpa using List.all_eq_true.mp hall s hs

theorem mem_threadGroupForms_of_method {s : Signature} (hs : s ∈ standard.signatures)
    (h : s.method = anyThreadGroup.method) : s ∈ threadGroupForms := by
  rw [← forMethod_threadGroup]
  exact mem_forMethod.mpr ⟨hs, h⟩

end Registry

namespace Element

theorem mem_placeArgs_iff {s : Signature} {e : Element} {vs : List (Param × Option Value)}
    (hv : scalarValues s e = .ok vs) {p : Param} {v : Option Value} :
    Arg.scalar p v ∈ placeArgs s.params vs ↔ (p, v) ∈ vs := by
  refine ⟨fun h => ?_, fun h => mem_placeArgs_of_mem (map_fst_of_valuesOf hv) h⟩
  rcases mem_placeArgs h with hno | ⟨⟨q, w⟩, hx, heq⟩
  · cases hno
  · cases heq
    exact hx

/-- The calls of a modifier say values of its parameters. -/
theorem mem_params_of_modifierCalls {e : Element} {m : Modifier} {cs : List Call}
    (h : modifierCalls e m = .ok cs) {c : Call} (hc : c ∈ cs) {p : Param} {v : Option Value}
    (ha : Arg.scalar p v ∈ c.head.args) : p ∈ m.params := by
  obtain ⟨args, rfl, hargs⟩ := exists_chained_of_modifierCalls h hc
  obtain ⟨lead, values, hvalues, hv⟩ := hargs _ ha
  rcases mem_argsOf hv with hno | ⟨x, hx, heq⟩
  · cases hno
  · cases heq
    exact (mem_of_valuesOf hvalues hx).1

section

variable {o : Options} {s : Signature} (hs : s ∈ Registry.standard.signatures) {e : Element}
  {vs : List (Param × Option Value)} (hv : scalarValues s e = .ok vs)
  {blocks : List (Modifier × List Call)} (hm : blocks.map Prod.fst = s.modifiers)
  (hb : ∀ b ∈ blocks, modifierCalls e b.1 = .ok b.2)

include hs hv hm hb

/-- Where the form of an element requires no more than values, its call is taken if they are all there. -/
theorem ownTaken_iff (hreq : s.RequiresArguments) :
    Call.OwnTaken (ownHead o s e (placeArgs s.params vs)) (blocks.flatMap Prod.snd) ↔
      ∀ x ∈ vs, x.2 ≠ none := by
  have hparam {p : Param} {v : Option Value} (h : (p, v) ∈ vs) : p ∈ s.scalarParams :=
    (mem_of_valuesOf hv h).1
  obtain ⟨hramp, hmods⟩ := Registry.not_mem_rampTimeParam hs
  have hno {p : Param} {v : Option Value} (h : Arg.scalar p v ∈ placeArgs s.params vs) :
      p ≠ rampTimeParam := by
    rintro rfl
    exact hramp (List.mem_of_mem_filter (hparam ((mem_placeArgs_iff hv).mp h)))
  constructor
  · rintro ⟨htaken, -⟩ ⟨p, v⟩ hx hnone
    obtain rfl : v = none := hnone
    obtain ⟨hp, hvalue⟩ := mem_of_valuesOf hv hx
    have hrequired := hreq.default p hp (Param.default_of_valueOf_none hvalue)
    rw [htaken.given p ((mem_placeArgs_iff hv).mpr hx)] at hrequired
    cases hrequired
  · refine fun hgiven => ⟨⟨fun p hp => ?_, fun hmethod => ?_, fun r hr => ?_, fun r x hr => ?_⟩,
      fun l hl => ?_⟩
    · exact absurd rfl (hgiven _ ((mem_placeArgs_iff hv).mp hp))
    · have hcount : threadCount ∈ s.scalarParams := by
        rcases hreq.eq_of_mem (Registry.mem_threadGroupForms_of_method hs hmethod) with rfl | rfl <;>
          decide
      obtain ⟨⟨_, n⟩, hx, rfl⟩ := List.mem_map.mp (map_fst_of_valuesOf hv ▸ hcount)
      exact ⟨_, List.mem_cons_self, n, (mem_placeArgs_iff hv).mpr hx⟩
    · exact absurd rfl (hno hr)
    · exact absurd rfl (hno hr)
    · obtain ⟨b, hbmem, hl⟩ := List.mem_flatMap.mp hl
      have hmod : b.1 ∈ s.modifiers := hm ▸ List.mem_map_of_mem hbmem
      have hlink {p : Param} {v : Option Value} (h : Arg.scalar p v ∈ l.head.args) :=
        mem_params_of_modifierCalls (hb b hbmem) hl h
      have hidle {r : Option Value} (h : Arg.scalar rampTimeParam r ∈ l.head.args) : False := by
        have hrequired := hreq.chained b.1 hmod rampTimeParam (hlink h)
        cases hrequired
      refine ⟨fun p hp => hreq.chained b.1 hmod p (hlink hp), fun h => ?_, fun r hr => (hidle hr).elim,
        fun r x hr => (hidle hr).elim⟩
      exact absurd ((method_of_modifierCalls (hb b hbmem) hl).symm.trans h) (hmods b.1 hmod)

end

/-- A call that says a number of threads and then times is taken if these are times that ramp up. -/
theorem isTaken_count_iff {method : String} (hmethod : method ≠ anyThreadGroup.method)
    {ts : List (Param × Option Value)} (hts : ∀ x ∈ ts, x.2 ≠ none) {n : Option Value} :
    (Call.chained method (((threadCount, n) :: ts).map fun x => .scalar x.1 x.2)).IsTaken ↔
      n ≠ none ∧ (∀ r, (rampTimeParam, r) ∈ ts → r ≠ some (.duration 0) ∧ r ≠ some (.duration 1000)) ∧
        ∀ r x, (rampTimeParam, r) ∈ ts → (holdTimeParam, x) ∈ ts → runTime r x ≠ some 0 := by
  have hmem {p : Param} {v : Option Value} : Arg.scalar p v ∈
      ((threadCount, n) :: ts).map (fun x => Arg.scalar x.1 x.2) ↔ (p, v) ∈ (threadCount, n) :: ts := by
    constructor
    · intro h
      obtain ⟨⟨q, w⟩, hx, heq⟩ := List.mem_map.mp h
      cases heq
      exact hx
    · exact List.mem_map_of_mem (f := fun x : Param × Option Value => Arg.scalar x.1 x.2)
  have htime {p : Param} {v : Option Value} (hp : p ≠ threadCount) :
      (p, v) ∈ (threadCount, n) :: ts ↔ (p, v) ∈ ts := by
    rw [List.mem_cons, or_iff_right]
    intro heq
    exact hp (congrArg Prod.fst heq)
  have hramp : rampTimeParam ≠ threadCount := by decide
  have hhold : holdTimeParam ≠ threadCount := by decide
  constructor
  · intro h
    refine ⟨?_, fun r hr => h.ramps r (hmem.mpr ((htime hramp).mpr hr)), fun r x hr hx =>
      h.runs r x (hmem.mpr ((htime hramp).mpr hr)) (hmem.mpr ((htime hhold).mpr hx))⟩
    rintro rfl
    cases h.given threadCount (hmem.mpr List.mem_cons_self)
  · rintro ⟨hn, hramps, hruns⟩
    refine ⟨fun p hp => ?_, fun h => absurd h hmethod, fun r hr =>
      hramps r ((htime hramp).mp (hmem.mp hr)), fun r x hr hx =>
      hruns r x ((htime hramp).mp (hmem.mp hr)) ((htime hhold).mp (hmem.mp hx))⟩
    rcases List.mem_cons.mp (hmem.mp hp) with heq | hx
    · cases heq
      exact absurd rfl hn
    · exact absurd rfl (hts _ hx)

/-- A thread group that chains its settings is taken if it says them and they ramp up. -/
theorem ownTaken_count_iff {o : Options} {s : Signature} (hs : s ∈ threadGroupForms)
    (hparams : s.scalarParams = [threadGroupName]) {e : Element} {vs : List (Param × Option Value)}
    (hv : scalarValues s e = .ok vs) {m : Modifier} (hmethod : m.method ≠ anyThreadGroup.method)
    {ts : List (Param × Option Value)} (hts : ∀ x ∈ ts, x.2 ≠ none) {n : Option Value} {cs : List Call}
    (hcs : (n = none ∧ cs = []) ∨
      cs = [.chained m.method (((threadCount, n) :: ts).map fun x => .scalar x.1 x.2)])
    {ds : List Call} (hds : ∀ d ∈ ds, d.IsTaken ∧ ∀ k, Arg.scalar threadCount k ∉ d.head.args) :
    Call.OwnTaken (ownHead o s e (placeArgs s.params vs)) (cs ++ ds) ↔
      n ≠ none ∧ (∀ r, (rampTimeParam, r) ∈ ts → r ≠ some (.duration 0) ∧ r ≠ some (.duration 1000)) ∧
        ∀ r x, (rampTimeParam, r) ∈ ts → (holdTimeParam, x) ∈ ts → runTime r x ≠ some 0 := by
  have hown {p : Param} {v : Option Value} (h : Arg.scalar p v ∈ placeArgs s.params vs) :
      p = threadGroupName ∧ v ≠ none := by
    obtain ⟨hp, hvalue⟩ := mem_of_valuesOf hv ((mem_placeArgs_iff hv).mp h)
    obtain rfl : p = threadGroupName := List.mem_singleton.mp (hparams ▸ hp)
    refine ⟨rfl, ?_⟩
    rintro rfl
    cases Param.default_of_valueOf_none hvalue
  have hcount : threadCount ≠ threadGroupName := by decide
  rw [← isTaken_count_iff hmethod hts]
  constructor
  · rintro ⟨hhead, hlinks⟩
    rcases hcs with ⟨-, rfl⟩ | rfl
    · obtain ⟨d, hd, k, hk⟩ := hhead.counted (Registry.method_of_mem_threadGroupForms hs)
      rcases List.mem_cons.mp hd with rfl | hd
      · exact absurd (hown hk).1 hcount
      · exact absurd hk ((hds d hd).2 k)
    · exact hlinks _ List.mem_cons_self
  · intro htaken
    have hne := ((isTaken_count_iff hmethod hts).mp htaken).1
    obtain rfl := hcs.resolve_left fun h => hne h.1
    refine ⟨⟨fun p hp => absurd rfl (hown hp).2, fun _ => ⟨_, List.mem_cons_of_mem _ List.mem_cons_self,
      n, List.mem_cons_self⟩, fun r hr => absurd (hown hr).1 (by decide), fun r x hr =>
      absurd (hown hr).1 (by decide)⟩, List.forall_mem_cons.mpr ⟨htaken, fun d hd => (hds d hd).1⟩⟩

/-- The values of a modifier without a guard were read where its calls were made. -/
theorem valueOf_of_modifierCalls {e : Element} {m : Modifier} (heach : m.each = none)
    (hguard : m.guard = none) {cs : List Call} (h : modifierCalls e m = .ok cs) {p : Param}
    (hp : p ∈ m.params) : ∃ v, p.valueOf e "" = .ok v := by
  rcases modifierCalls_single heach h with ⟨hno, -⟩ | ⟨-, us, hus, -⟩
  · rw [hguard] at hno
    cases hno
  · obtain ⟨⟨_, v⟩, hx, rfl⟩ := List.mem_map.mp (map_fst_of_valuesOf hus ▸ hp)
    exact ⟨v, (mem_of_valuesOf hus hx).2⟩

/-- One of the forms of its method takes what the call of an element says exactly if that call is taken
and its children are built. -/
theorem exists_tryForms_iff_ownTaken {o : Options} {s : Signature}
    (hs : s ∈ Registry.standard.signatures) {e : Element} {vs : List (Param × Option Value)}
    (hv : scalarValues s e = .ok vs) {leading : List Expr}
    (hl : leading.map Expr.unplaced = vs.flatMap fun x => (Arg.scalar x.1 x.2).exprs)
    {blocks : List (Modifier × List Call)} (hm : blocks.map Prod.fst = s.modifiers)
    (hb : ∀ b ∈ blocks, modifierCalls e b.1 = .ok b.2) {invs tail : List (Invocation Operand)}
    (hi : List.Forall₂ Says invs (blocks.flatMap Prod.snd)) (ht : IsTail tail)
    {children : List Operand} (ha : tail ≠ [] → s.acceptsChildren = true)
    (hleading : checkLeading s children = .ok ()) (pos : Position) :
    (∃ made, (tryForms pos s.method leading children (invs ++ tail) []
        (Registry.standard.forMethod s.method)).outcome = .ok made) ↔
      Call.OwnTaken (ownHead o s e (placeArgs s.params vs)) (blocks.flatMap Prod.snd) ∧
        ∃ es, (elements (children ++ tail.flatMap (·.args))).outcome = .ok es := by
  rcases Signature.requiresArguments_of_mem hs with (rfl | rfl) | hreq
  · obtain ⟨⟨_, cs⟩, _, rfl, rfl, hnil⟩ := List.map_eq_cons_iff.mp
      (hm.trans modifiers_rampHoldThreadGroup)
    obtain rfl := List.map_eq_nil_iff.mp hnil
    have hcs : modifierCalls e rampAndHold = .ok cs := hb _ List.mem_cons_self
    obtain ⟨n, hn⟩ := valueOf_of_modifierCalls rfl rfl hcs (show threadCount ∈ _ from by decide)
    obtain ⟨r, hr⟩ := valueOf_of_modifierCalls rfl rfl hcs (show rampTimeParam ∈ _ from by decide)
    obtain ⟨x, hx⟩ := valueOf_of_modifierCalls rfl rfl hcs (show holdTimeParam ∈ _ from by decide)
    have hts : ∀ y ∈ [(rampTimeParam, r), (holdTimeParam, x)], y.2 ≠ none :=
      List.forall_mem_cons.mpr ⟨(Param.counted_parse Param.isTimed_rampTimeParam hr).ne_none,
        List.forall_mem_singleton.mpr (Param.counted_holdTime hx).ne_none⟩
    have hcalls := modifierCalls_count (m := rampAndHold) [(rampTimeParam, r), (holdTimeParam, x)]
      rfl rfl rfl rfl hn (List.forall_mem_cons.mpr ⟨⟨show rampTimeParam.kind ≠ .children by decide, hr⟩,
        List.forall_mem_singleton.mpr ⟨show holdTimeParam.kind ≠ .children by decide, hx⟩⟩) hcs
    have hown := ownTaken_count_iff (o := o) (s := rampHoldThreadGroup) (by decide) rfl hv (by decide)
      hts hcalls (List.forall_mem_nil _)
    rw [List.flatMap_singleton, ← List.append_nil cs, hown]
    refine (exists_tryForms_rampHold_iff hl ht hn hr hv hcs (by simpa using hi) hx hleading pos).trans ?_
    have hapart : rampTimeParam ≠ holdTimeParam := by decide
    simp [hapart, hapart.symm]
  · obtain ⟨⟨_, cs⟩, _, rfl, rfl, hrest⟩ := List.map_eq_cons_iff.mp (hm.trans modifiers_rampThreadGroup)
    obtain ⟨⟨_, ds⟩, _, rfl, rfl, hnil⟩ := List.map_eq_cons_iff.mp hrest
    obtain rfl := List.map_eq_nil_iff.mp hnil
    have hcs : modifierCalls e rampTo = .ok cs := hb _ List.mem_cons_self
    have hds : modifierCalls e holdIterating = .ok ds :=
      hb (holdIterating, ds) (by simp)
    obtain ⟨n, hn⟩ := valueOf_of_modifierCalls rfl rfl hcs (show threadCount ∈ _ from by decide)
    obtain ⟨r, hr⟩ := valueOf_of_modifierCalls rfl rfl hcs (show rampTimeParam ∈ _ from by decide)
    have hts : ∀ y ∈ [(rampTimeParam, r)], y.2 ≠ none :=
      List.forall_mem_singleton.mpr (Param.counted_parse Param.isTimed_rampTimeParam hr).ne_none
    have hcalls := modifierCalls_count (m := rampTo) [(rampTimeParam, r)] rfl rfl rfl rfl hn
      (List.forall_mem_singleton.mpr ⟨show rampTimeParam.kind ≠ .children by decide, hr⟩) hcs
    have hloops : ∀ d ∈ ds, d.IsTaken ∧ ∀ k, Arg.scalar threadCount k ∉ d.head.args := by
      intro d hd
      have hlink {p : Param} {v : Option Value} (h : Arg.scalar p v ∈ d.head.args) :
          p = .int loopCount := List.mem_singleton.mp (mem_params_of_modifierCalls hds hd h)
      refine ⟨⟨fun p hp => ?_, fun h => ?_, fun r hr => ?_, fun r x hr => ?_⟩, fun k hk => ?_⟩
      · rw [hlink hp]
        rfl
      · exact absurd ((method_of_modifierCalls hds hd).symm.trans h) (by decide)
      · exact absurd (hlink hr) (by decide)
      · exact absurd (hlink hr) (by decide)
      · exact absurd (hlink hk) (by decide)
    have hown := ownTaken_count_iff (o := o) (s := rampThreadGroup) (by decide) rfl hv (by decide)
      hts hcalls hloops
    rw [show [(rampTo, cs), (holdIterating, ds)].flatMap Prod.snd = cs ++ ds by simp, hown]
    refine (exists_tryForms_ramp_iff hl ht hn hr hv hcs hds (by simpa using hi) hleading pos).trans ?_
    have hapart : holdTimeParam ≠ rampTimeParam := by decide
    simp [hapart]
  · rw [exists_tryForms_iff hs hv hl hm hb hi ht hreq ha hleading pos, ownTaken_iff hs hv hm hb hreq]

end Element

end FluentPlan
