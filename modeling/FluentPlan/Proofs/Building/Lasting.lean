import FluentPlan.Proofs.Building.Chained
import FluentPlan.Proofs.Building.Origin
import FluentPlan.Proofs.Building.Times

/-!
What chained calls leave behind. What is stored after them, the defaults of the modifiers that are not
called and what the guard of the signature asks for, changes nothing that they wrote. Two calls write
one property only if they call the same modifier, or modifiers whose guards exclude each other.
-/

namespace FluentPlan

open Build Script Catalog Catalog.Plan

/-! ### What lasts -/

namespace Modifier

/-- Whether the guards of two modifiers exclude each other. -/
def excludes (m n : Modifier) : Bool :=
  match m.guard, n.guard with
  | some g, some h => g.excludes h
  | _, _ => false

/-- Whether a modifier may write a key: in its region, or because its guard asks for it. -/
def Touches (m : Modifier) (key : String) : Prop :=
  inRegion m.region key = true ∨ ∃ e ∈ m.guard.elim [] Guard.demand, e.1 = key

theorem exists_guard_of_mem {m : Modifier} {e : String × String}
    (h : e ∈ m.guard.elim [] Guard.demand) : ∃ g, m.guard = some g ∧ e ∈ g.demand := by
  cases hg : m.guard with
  | none =>
    rw [hg] at h
    cases h
  | some g =>
    rw [hg] at h
    exact ⟨g, rfl, h⟩

/-- Properties that say what others say in the region of a modifier and where its guard asks for
something. -/
structure Spared (m : Modifier) (props after : Properties) : Prop where
  region : after.entries.filter (fun e => inRegion m.region e.1) =
    props.entries.filter fun e => inRegion m.region e.1
  demand : ∀ e ∈ m.guard.elim [] Guard.demand, props.get? e.1 = some e.2 → after.get? e.1 = some e.2

end Modifier

/-- A chain calls a modifier at a position. -/
def Build.CallsAt (s : Signature) (chain : List (Invocation Operand)) (i : Nat) (c : Invocation Operand)
    (m : Modifier) : Prop :=
  chain[i]? = some c ∧ c.name ≠ childrenMethod ∧ findModifier s c.pos.line c.name = .ok m

/-- Properties that have what the calls of a chain wrote. -/
structure Build.Lasting (s : Signature) (chain : List (Invocation Operand)) (props : Properties) :
    Prop where
  /-- Each call stores something by itself, though perhaps under no key. -/
  writes : ∀ i c, chain[i]? = some c → ∃ own, writes s (chain.take i) c = .ok own
  /-- The last call that writes a key gives its value. -/
  kept : ∀ i key value, WritesAt s chain i key value →
    (∀ j other, i < j → ¬ WritesAt s chain j key other) → props.get? key = some value
  /-- Two calls that write one key are of one modifier, without a collection, or of modifiers that are
  not meant to be called together. -/
  shared : ∀ i j key v w, i < j → WritesAt s chain i key v → WritesAt s chain j key w →
    ∃ b c m n, CallsAt s chain i b m ∧ CallsAt s chain j c n ∧
      (m = n ∧ m.each = none ∨ m.excludes n = true)
  /-- A list holds the texts of one call, if no other call writes below it. -/
  listed : ∀ i c m p, CallsAt s chain i c m → p ∈ m.params → p.kind = .textList →
    (∀ j key value, j ≠ i → (KeyPattern.below (p.propText ++ "/")).covers key = true →
      ¬ WritesAt s chain j key value) →
    ∃ items, p.fromArgs (c.args.map (·.expr)) = .ok (some (.texts items)) ∧
      props.entries.filter (fun e => (KeyPattern.below (p.propText ++ "/")).covers e.1) =
        itemEntries (p.propText ++ "/") 0 items

/-- A signature under which all that chained calls write lasts. -/
structure Signature.Steady (s : Signature) : Prop where
  modifiers : ∀ m ∈ s.modifiers, m.Steady
  methods_nodup : (s.modifiers.map (·.method)).Nodup
  spared : ∀ m ∈ s.modifiers, ∀ {called : List String} {props stored : Properties},
    called.contains m.method = true → storeUncalled called s.modifiers props = .ok stored →
    m.Spared props (guarded s stored)
  fresh : ∀ m ∈ s.modifiers, ∀ {taken : Param → Bool} {args : List Expr}
    {values : List (Param × Option Value)} {props : Properties},
    bindValues taken s.scalarParams args = .ok values →
    storeAll "" (values.filter fun x => x.1.kind ≠ .displayName) .empty = .ok props →
    props.entries.filter (fun e => inRegion m.region e.1) = []
  excludes : ∀ m ∈ s.modifiers, ∀ n ∈ s.modifiers, m ≠ n → ∀ key, m.Touches key → n.Touches key →
    m.excludes n = true
  unasked : ∀ m ∈ s.modifiers, m.each ≠ none → m.guard.elim [] Guard.demand = []
  listed : ∀ m ∈ s.modifiers, ∀ p ∈ m.params, p.kind = .textList →
    m.region = [.below (p.propText ++ "/")] ∧
    ∀ {i : Nat} {c : Invocation Operand} {own : Properties}, storedAlone m i c = .ok own →
      ∃ items, p.fromArgs (c.args.map (·.expr)) = .ok (some (.texts items)) ∧
        own.entries.filter (fun e => inRegion m.region e.1) = itemEntries (p.propText ++ "/") 0 items

/-! ### Chains of a signature -/

namespace Build

variable {s : Signature} {before chain : List (Invocation Operand)} {c : Invocation Operand}
  {own : Properties}

/-- A call that writes something is one of a modifier. -/
theorem exists_modifier_of_writes (h : writes s before c = .ok own) {key value : String}
    (hk : own.get? key = some value) : c.name ≠ childrenMethod ∧
      ∃ m, findModifier s c.pos.line c.name = .ok m ∧
        storedAlone m (before.countP fun b => b.name = c.name) c = .ok own := by
  unfold writes at h
  split_ifs at h with hc
  · cases h
    cases hk
  · obtain ⟨m, hm, h⟩ := exists_of_bind_eq_ok h
    exact ⟨hc, m, hm, h⟩

theorem CallsAt.mem {i : Nat} {m : Modifier} (h : CallsAt s chain i c m) :
    m ∈ s.modifiers ∧ m.method = c.name :=
  mem_of_findModifier h.2.2

theorem CallsAt.contains {i : Nat} {m : Modifier} (h : CallsAt s chain i c m) :
    ((chain.map (·.name)).filter (· ≠ childrenMethod)).contains m.method = true := by
  rw [List.contains_iff_mem, h.mem.2, List.mem_filter]
  exact ⟨List.mem_map_of_mem (List.mem_of_getElem? h.1), decide_eq_true h.2.1⟩

theorem CallsAt.storedAlone_eq {i : Nat} {m : Modifier} (h : CallsAt s chain i c m)
    (hw : writes s before c = .ok own) :
    storedAlone m (before.countP fun b => b.name = c.name) c = .ok own := by
  rwa [writes, if_neg h.2.1, h.2.2, ok_bind] at hw

/-- The call that writes at a position, with its modifier. -/
theorem WritesAt.exists_callsAt {i : Nat} {key value : String} (h : WritesAt s chain i key value) :
    ∃ c m own, CallsAt s chain i c m ∧ own.get? key = some value ∧
      storedAlone m ((chain.take i).countP fun b => b.name = c.name) c = .ok own := by
  obtain ⟨c, own, hi, hw, hk⟩ := h
  obtain ⟨hc, m, hm, halone⟩ := exists_modifier_of_writes hw hk
  exact ⟨c, m, own, ⟨hi, hc, hm⟩, hk, halone⟩

end Build

namespace Signature.Steady

variable {s : Signature} (hs : s.Steady)

include hs

theorem touches {m : Modifier} (hm : m ∈ s.modifiers) {i : Nat} {c : Invocation Operand}
    {own : Properties} (h : storedAlone m i c = .ok own) {key value : String}
    (hk : own.get? key = some value) : m.Touches key := by
  rcases (hs.modifiers m hm).places h _ (Properties.get?_eq_some_iff.mp hk) with hin | hdemand
  · exact .inl hin.1
  · exact .inr ⟨_, hdemand, rfl⟩

/-- Two calls of a modifier with a collection have different entries of it. -/
theorem each_eq_none {chain : List (Invocation Operand)} {i j : Nat} (hij : i < j) {m : Modifier}
    {b c : Invocation Operand} (hb : CallsAt s chain i b m) (hc : CallsAt s chain j c m)
    {own other : Properties} {key v w : String}
    (hown : storedAlone m ((chain.take i).countP fun x => x.name = b.name) b = .ok own)
    (hother : storedAlone m ((chain.take j).countP fun x => x.name = c.name) c = .ok other)
    (hv : own.get? key = some v) (hw : other.get? key = some w) : m.each = none := by
  by_contra he
  have hplaces {k : Nat} {a : Invocation Operand} {props : Properties} {t : String}
      (h : storedAlone m k a = .ok props) (ht : props.get? key = some t) :
      ∃ tail, key = lead m k ++ tail := by
    rcases (hs.modifiers m hb.mem.1).places h _ (Properties.get?_eq_some_iff.mp ht) with hin | hd
    · exact hin.2
    · rw [hs.unasked m hb.mem.1 he] at hd
      cases hd
  obtain ⟨s₁, h₁⟩ := hplaces hown hv
  obtain ⟨s₂, h₂⟩ := hplaces hother hw
  have hcount := lead_inj he (h₁.symm.trans h₂)
  rw [← hb.mem.2, ← hc.mem.2] at hcount
  -- the earlier call is itself one of those before the later one
  have hlt : (chain.take i).countP (fun x => x.name = m.method) <
      (chain.take j).countP fun x => x.name = m.method := by
    have hsub : (chain.take i ++ [b]).Sublist (chain.take j) := by
      have htake : chain.take (i + 1) = chain.take i ++ [b] := by
        rw [List.take_add_one, hb.1, Option.toList_some]
      exact htake ▸ List.take_sublist_take_left hij
    have hle := hsub.countP_le (p := fun x => decide (x.name = m.method))
    rw [List.countP_append, List.countP_singleton, if_pos (by simpa using hb.mem.2.symm)] at hle
    omega
  omega

variable {line : Nat} {name : String} {leading : List Expr} {children : List Operand}
  {chain : List (Invocation Operand)} {e : Element}

/-- What the calls of a chain wrote is there in the element that is made. -/
theorem lasting (h : Makes s line name leading children chain e) : Lasting s chain e.properties := by
  obtain ⟨values, hbind, hmade⟩ := h.values
  obtain ⟨taken, hbind⟩ := exists_bindValues_of_bindScalars hbind
  obtain ⟨props, first, d, more, stored, hprops, -, hchain, hstored, rfl⟩ := exists_of_construct hmade
  have hover : Overlays s [] props chain d.props :=
    overlays_applyChain hs.modifiers hs.methods_nodup (counts_nil s props) hchain
  have hspared {i : Nat} {c : Invocation Operand} {m : Modifier} (hc : CallsAt s chain i c m) :
      m.Spared d.props (guarded s stored) := hs.spared m hc.mem.1 hc.contains hstored
  refine ⟨fun i c hi => hover.exists_writes hi, fun i key value hw hlast => ?_,
    fun i j key v w hij hv hw => ?_, fun i c m p hc hp hk honly => ?_⟩
  · have hthere : d.props.get? key = some value := by
      obtain ⟨c, own, hi, hown, hget⟩ := hw
      refine hover.get?_of_last hi hown hget fun j b other hij hj hother => ?_
      rw [Option.eq_none_iff_forall_ne_some]
      exact fun t ht => hlast j t hij ⟨b, other, hj, hother, ht⟩
    obtain ⟨c, m, own, hc, hget, halone⟩ := hw.exists_callsAt
    rcases (hs.modifiers m hc.mem.1).places halone _ (Properties.get?_eq_some_iff.mp hget) with
      ⟨hin, -⟩ | hdemand
    · have hregion := get?_of_filter (hspared hc).region hin
      rw [lookup_filter hin] at hregion
      exact hregion.trans hthere
    · exact (hspared hc).demand _ hdemand hthere
  · obtain ⟨b, m, own, hb, hown, halone⟩ := hv.exists_callsAt
    obtain ⟨c, n, other, hc, hother, halone'⟩ := hw.exists_callsAt
    refine ⟨b, c, m, n, hb, hc, ?_⟩
    by_cases hmn : m = n
    · subst hmn
      exact .inl ⟨rfl, hs.each_eq_none hij hb hc halone halone' hown hother⟩
    · exact .inr (hs.excludes m hb.mem.1 n hc.mem.1 hmn key
        (hs.touches hb.mem.1 halone hown) (hs.touches hc.mem.1 halone' hother))
  · obtain ⟨hregion, hitems⟩ := hs.listed m hc.mem.1 p hp hk
    obtain ⟨own, hown⟩ := hover.exists_writes hc.1
    obtain ⟨items, hargs, hentries⟩ := hitems (hc.storedAlone_eq hown)
    have hcovers (key : String) : inRegion m.region key =
        (KeyPattern.below (p.propText ++ "/")).covers key := by
      rw [hregion, inRegion, List.any_cons, List.any_nil, Bool.or_false]
    have hall : d.props.entries.filter (fun e => inRegion m.region e.1) =
        own.entries.filter fun e => inRegion m.region e.1 := by
      refine hover.filter_of_only (hs.fresh m hc.mem.1 hbind hprops) hc.1 hown
        fun j b other hij hj hother key hin => ?_
      rw [Option.eq_none_iff_forall_ne_some]
      exact fun t ht => honly j key t hij (hcovers key ▸ hin) ⟨b, other, hj, hother, ht⟩
    refine ⟨items, hargs, ?_⟩
    simp only [← hcovers]
    rw [(hspared hc).region, hall, hentries]

end Signature.Steady

/-! ### Signatures with a region for each modifier -/

namespace Signature

/-- Whether the guards of different modifiers exclude each other, and those of modifiers with collections
ask for nothing. -/
def isExclusive (s : Signature) : Bool :=
  s.modifiers.all fun m => (m.each.isNone || (m.guard.elim [] Guard.demand).isEmpty) &&
    s.modifiers.all fun n => m = n || m.guard.isNone || n.guard.isNone || m.excludes n

end Signature

theorem Registry.isExclusive_standard :
    standard.signatures.all Signature.isExclusive = true := by decide +kernel

namespace Signature.Restorable

variable {s : Signature} (hs : s.Restorable)

include hs

/-- What a guard asks for is in no region of a modifier. -/
theorem not_inRegion_of_asked {m n : Modifier} (hm : m ∈ s.modifiers) (hn : n ∈ s.modifiers)
    {e : String × String} (he : e ∈ m.guard.elim [] Guard.demand) :
    inRegion n.region e.1 = false := by
  obtain ⟨g, hg, hd⟩ := Modifier.exists_guard_of_mem he
  rw [Bool.eq_false_iff]
  intro hin
  have hno := not_inRegion_of_demand hs hm hg hd
  rw [inRegion_of_modifier hn hin] at hno
  cases hno

/-- What is stored of the modifiers that are not called is in their regions. -/
theorem exists_of_storeUncalled {called : List String} {ms : List Modifier}
    (hms : ∀ m ∈ ms, m ∈ s.modifiers) {props stored : Properties}
    (h : storeUncalled called ms props = .ok stored) :
    ∃ es, stored = props.putAll es ∧ ∀ e ∈ es, ∃ n ∈ s.modifiers,
      called.contains n.method = false ∧ n.guard = none ∧ inRegion n.region e.1 = true := by
  induction ms generalizing props with
  | nil =>
    cases h
    exact ⟨[], rfl, List.forall_mem_nil _⟩
  | cons n ms ih =>
    obtain ⟨hn, hms⟩ := List.forall_mem_cons.mp hms
    have hr := hs.modifiers n hn
    rw [storeUncalled, hr.any_each] at h
    split_ifs at h with hcond
    · exact ih hms h
    · obtain ⟨mid, hmid, h⟩ := exists_of_bind_eq_ok h
      obtain ⟨es, rfl, hes⟩ := ih hms h
      have hplaced : ∀ x ∈ n.params.map fun p => (p, p.default), x.1.isPlaced = true := by
        intro x hx
        obtain ⟨p, hp, rfl⟩ := List.mem_map.mp hx
        exact hr.placed p hp
      simp only [Bool.or_eq_true, not_or, Bool.not_eq_true, Option.isSome_eq_false_iff,
        Option.isNone_iff_eq_none] at hcond
      obtain ⟨⟨hcalled, heach⟩, hguard⟩ := hcond
      have hlead : lead n 0 = "" := by simp only [lead, heach]
      refine ⟨_, by rw [storeAll_eq_ok hplaced hmid, ← Properties.putAll_append], fun e he => ?_⟩
      rcases List.mem_append.mp he with he | he
      · obtain ⟨x, hx, he⟩ := List.mem_flatMap.mp he
        obtain ⟨p, hp, rfl⟩ := List.mem_map.mp hx
        refine ⟨n, hn, hcalled, hguard, hr.inRegion_of_lead hp (i := 0) ?_⟩
        rw [hlead]
        exact Param.inRegion_of_mem_entries (hr.placed p hp) he
      · exact hes e he

/-- Neither the defaults of other modifiers nor the guard of the signature change what a modifier that is
called wrote. -/
theorem spared_modifier {m : Modifier} (hm : m ∈ s.modifiers) {called : List String}
    {props stored : Properties} (hc : called.contains m.method = true)
    (h : storeUncalled called s.modifiers props = .ok stored) :
    m.Spared props (Build.guarded s stored) := by
  obtain ⟨es, rfl, hes⟩ := hs.exists_of_storeUncalled (fun _ hn => hn) h
  have hother : ∀ e ∈ es, inRegion m.region e.1 = false := by
    intro e he
    obtain ⟨n, hn, hno, hguard, hin⟩ := hes e he
    have hne : m ≠ n := fun hmn => by
      rw [hmn, hno] at hc
      cases hc
    have htol := hs.tolerated m hm n hn hne
    rw [Modifier.toleratedBy, hguard] at htol
    cases hmg : m.guard <;> rw [hmg, Bool.or_false] at htol <;>
      exact not_inRegion_of_apart htol hin
  refine ⟨?_, fun e he hget => ?_⟩
  · obtain ⟨own, hown, hout⟩ := exists_guarded_putAll hs (props.putAll es)
    have hguards : ∀ e ∈ own, inRegion m.region e.1 = false := fun e he => by
      rw [Bool.eq_false_iff]
      intro hin
      have hno := hout e he
      rw [inRegion_of_modifier hm hin] at hno
      cases hno
    rw [hown, Properties.filter_putAll_of_not_mem hguards, Properties.filter_putAll_of_not_mem hother]
  · obtain ⟨g, hg, hd⟩ := Modifier.exists_guard_of_mem he
    have hplain := (hs.modifiers m hm).guard_plain g hg
    have hkept : (props.putAll es).get? e.1 = some e.2 := by
      rw [Properties.get?_putAll_of_not_mem fun f hf hkey => ?_, hget]
      obtain ⟨n, hn, -, -, hin⟩ := hes f hf
      rw [hkey, hs.not_inRegion_of_asked hm hn he] at hin
      cases hin
    have haccepts : g.accepts (props.putAll es) = true := by
      cases g with
      | equals k v =>
        rw [List.mem_singleton.mp hd] at hkept
        rw [Guard.accepts, hkept]
        exact decide_eq_true rfl
      | _ => cases hd
    refine Guard.get?_of_demand hd ?_
    unfold Build.guarded
    cases hgs : s.guard with
    | none => exact haccepts
    | some h => exact Guard.accepts_apply hplain (hs.spared m hm g hg h hgs) haccepts

/-- What the parameters of the signature store is in no region of a modifier. -/
theorem filter_scalars {m : Modifier} (hm : m ∈ s.modifiers) {taken : Param → Bool}
    {args : List Expr} {values : List (Param × Option Value)} {props : Properties}
    (hb : bindValues taken s.scalarParams args = .ok values)
    (h : storeAll "" (values.filter fun x => x.1.kind ≠ .displayName) .empty = .ok props) :
    props.entries.filter (fun e => inRegion m.region e.1) = [] := by
  have hmem : ∀ x ∈ values.filter (fun x => x.1.kind ≠ .displayName),
      x.1 ∈ s.scalarParams ∧ x.1.isPlaced = true := by
    intro x hx
    obtain ⟨hx, hk⟩ := List.mem_filter.mp hx
    have hp : x.1 ∈ s.scalarParams := map_fst_of_bindValues hb ▸ List.mem_map_of_mem hx
    exact ⟨hp, placed_of_scalar hs hp (of_decide_eq_true hk)⟩
  obtain rfl := storeAll_eq_ok (fun x hx => (hmem x hx).2) h
  refine Properties.filter_putAll_of_not_mem (fun e he => ?_) .empty
  obtain ⟨x, hx, he⟩ := List.mem_flatMap.mp he
  obtain ⟨hp, hplaced⟩ := hmem x hx
  exact not_inRegion_of_apart (hs.scalars_modifiers m hm x.1 hp).1
    (Param.inRegion_of_mem_entries hplaced he)

/-- Different modifiers that touch one key have guards that exclude each other. -/
theorem excludes_of_touches (hx : s.isExclusive = true) {m n : Modifier} (hm : m ∈ s.modifiers)
    (hn : n ∈ s.modifiers) (hne : m ≠ n) {key : String} (hmk : m.Touches key) (hnk : n.Touches key) :
    m.excludes n = true := by
  have hapart {k l : Modifier} (hk : k ∈ s.modifiers) (hl : l ∈ s.modifiers)
      (hin : inRegion k.region key = true) {e : String × String}
      (he : e ∈ l.guard.elim [] Guard.demand) : e.1 ≠ key := by
    rintro rfl
    rw [hs.not_inRegion_of_asked hl hk he] at hin
    cases hin
  have hsome {k : Modifier} {e : String × String} (he : e ∈ k.guard.elim [] Guard.demand) :
      k.guard.isNone = false := by
    obtain ⟨g, hg, -⟩ := Modifier.exists_guard_of_mem he
    rw [hg]
    rfl
  rcases hmk, hnk with ⟨hmk | ⟨e, he, hek⟩, hnk | ⟨f, hf, hfk⟩⟩
  · have htol := hs.tolerated m hm n hn hne
    rw [Modifier.toleratedBy, Bool.or_eq_true] at htol
    refine htol.resolve_left fun hregions => ?_
    rw [not_inRegion_of_apart hregions hnk] at hmk
    cases hmk
  · exact absurd hfk (hapart hm hn hmk hf)
  · exact absurd hek (hapart hn hm hnk he)
  · have hall := (Bool.and_eq_true_iff.mp (List.all_eq_true.mp hx m hm)).2
    have hpair := List.all_eq_true.mp hall n hn
    simpa [hne, hsome he, hsome hf] using hpair

/-- A call that gives the texts of a list stores them by itself. -/
theorem listed {m : Modifier} (hm : m ∈ s.modifiers) {p : Param} (hp : p ∈ m.params)
    (hk : p.kind = .textList) : m.region = [.below (p.propText ++ "/")] ∧
      ∀ {i : Nat} {c : Invocation Operand} {own : Properties}, storedAlone m i c = .ok own →
        ∃ items, p.fromArgs (c.args.map (·.expr)) = .ok (some (.texts items)) ∧
          own.entries.filter (fun e => inRegion m.region e.1) =
            itemEntries (p.propText ++ "/") 0 items := by
  have hr := hs.modifiers m hm
  have hlisting : m.isListing = true := by
    refine hr.divided.resolve_right fun hdiv => ?_
    have hall := List.all_eq_true.mp (Bool.and_eq_true_iff.mp hdiv).1 p hp
    simp [Param.isRestored, hk, ParamKind.isVariadic] at hall
  unfold Modifier.isListing at hlisting
  split at hlisting
  case h_2 => cases hlisting
  next q hparams =>
  rw [hparams] at hp
  obtain rfl := List.mem_singleton.mp hp
  simp only [Bool.and_eq_true, Bool.not_eq_true', Option.isNone_iff_eq_none] at hlisting
  obtain ⟨⟨⟨hvar, -⟩, hflag⟩, heach⟩ := hlisting
  have hregion : m.region = [.below (p.propText ++ "/")] := by
    simp [Modifier.region, heach, hparams, Param.region, hk]
  refine ⟨hregion, fun {i c own} h => ?_⟩
  obtain ⟨values, hb, rfl⟩ := hr.exists_of_storedAlone h
  have hbind : bindAll [p] c.pos.line c.name (c.args.map (·.expr)) = .ok values := by
    rw [← hb, bound, hflag, hparams]
    rfl
  obtain ⟨b, hargs, rfl⟩ := bindValues_variadic hvar (bindAll_eq_ok hbind)
  obtain ⟨items, rfl⟩ := (Param.failsWithin_go p _ []).2 b hargs
  refine ⟨items, hargs, ?_⟩
  have hentries : p.entries (some (.texts items)) (lead m i) =
      itemEntries (p.propText ++ "/") 0 items := by
    simp [Param.entries, hk, lead, heach, Param.itemsOf]
  have hfilter : ((itemEntries (p.propText ++ "/") 0 items) ++
      m.guard.elim [] Guard.demand).filter (fun e => inRegion m.region e.1) =
      itemEntries (p.propText ++ "/") 0 items := by
    rw [List.filter_append, filter_eq_self_of_inRegion fun e he => ?_,
      filter_eq_nil_of_not_inRegion fun e he => ?_, List.append_nil]
    · exact hs.not_inRegion_of_asked hm hm he
    · simp [hregion, inRegion, Param.covers_itemEntries he]
  rw [List.flatMap_singleton, hentries, Properties.filter_putAll_of_nodup _ ?_, hfilter]
  rw [hfilter]
  exact Param.nodup_itemEntries _ _ _

theorem steady (hx : s.isExclusive = true) : s.Steady where
  modifiers m hm := (hs.modifiers m hm).steady
  methods_nodup := hs.methods_nodup
  spared _ hm _ _ _ hc h := hs.spared_modifier hm hc h
  fresh _ hm _ _ _ _ hb h := hs.filter_scalars hm hb h
  excludes _ hm _ hn hne _ hmk hnk := hs.excludes_of_touches hx hm hn hne hmk hnk
  unasked m hm he := by
    have hnone := (Bool.and_eq_true_iff.mp (List.all_eq_true.mp hx m hm)).1
    simpa [he] using hnone
  listed _ hm _ hp hk := hs.listed hm hp hk

end Signature.Restorable

/-! ### The form that ramps up and holds -/

namespace Catalog.Plan

theorem given_ne_none {p : Param} {unit : TimeUnit} (hp : p.IsTimed unit) {v : Option Value}
    (h : p.Given v) : v ≠ none := by
  rintro rfl
  obtain ⟨w, hw⟩ := Param.exists_countedAs hp h
  obtain ⟨w, rfl⟩ := Option.ne_none_iff_exists'.mp hw.counted.ne_none
  obtain ⟨t, ht⟩ : ∃ t, p.stored (some w) = some t := by cases w <;> exact ⟨_, rfl⟩
  have hnone : none = p.stored (some w) := hw.stored
  rw [ht] at hnone
  cases hnone

/-- What a call that ramps up and holds stores does not depend on what is there: the offset of the time
to hold is the time to ramp up of the same call. -/
theorem exists_of_storeAll_rampAndHold {values : List (Param × Option Value)}
    (hp : values.map Prod.fst = rampAndHold.params) (hg : ∀ x ∈ values, x.1.Given x.2)
    {props after : Properties} (h : storeAll "" values props = .ok after) :
    ∃ es, after = props.putAll es ∧ (∀ e ∈ es, e.1 ∈ timeKeys) ∧
      ∀ other, storeAll "" values other = .ok (other.putAll es) := by
  obtain ⟨⟨_, n⟩, _, rfl, rfl, htwo⟩ := List.map_eq_cons_iff.mp hp
  obtain ⟨⟨_, r⟩, _, rfl, rfl, hone⟩ := List.map_eq_cons_iff.mp htwo
  obtain ⟨⟨_, x⟩, _, rfl, rfl, hnil⟩ := List.map_eq_cons_iff.mp hone
  obtain rfl := List.map_eq_nil_iff.mp hnil
  have hr : r ≠ none := given_ne_none Param.isTimed_rampTimeParam (hg (rampTimeParam, r) (by simp))
  obtain ⟨first, hfirst, h⟩ := exists_of_bind_eq_ok h
  obtain ⟨second, hsecond, h⟩ := exists_of_bind_eq_ok h
  obtain ⟨third, hthird, h⟩ := exists_of_bind_eq_ok h
  obtain rfl : third = after := Except.ok.inj h
  obtain ⟨d, hd, hthird⟩ := exists_of_bind_eq_ok hthird
  obtain ⟨u, hu, hthird⟩ := exists_of_bind_eq_ok hthird
  obtain rfl : holdTimeParam.storeRaw u second "" = third := Except.ok.inj hthird
  obtain rfl : rampTimeParam.storeRaw r first "" = second := Except.ok.inj hsecond
  obtain rfl : threadCount.storeRaw n props "" = first := Except.ok.inj hfirst
  have hoffset (other : Properties) :
      Param.offset? .seconds rampTime (rampTimeParam.storeRaw r other "") "" = .ok d := by
    rw [← hd]
    unfold Param.offset?
    rw [String.empty_append, Param.get?_storeRaw rfl hr, Param.get?_storeRaw rfl hr]
  let entry (p : Param) (v : Option Value) : List (String × String) :=
    (p.prop.bind fun key => (p.stored v).map fun t => ("" ++ key, t)).toList
  have hentry (p : Param) (v : Option Value) (other : Properties) :
      p.storeRaw v other "" = other.putAll (entry p v) := Param.storeRaw_eq p v other ""
  have hkey (p : Param) (v : Option Value) (e : String × String) (he : e ∈ entry p v) :
      e.1 = p.propText := by
    obtain ⟨key, hkey, he⟩ := Option.bind_eq_some_iff.mp (Option.mem_toList.mp he)
    obtain ⟨t, -, rfl⟩ := Option.map_eq_some_iff.mp he
    simp [Param.propText, hkey]
  refine ⟨entry threadCount n ++ entry rampTimeParam r ++ entry holdTimeParam u, ?_,
    fun e he => ?_, fun other => ?_⟩
  · simp only [hentry, Properties.putAll_append]
  · simp only [List.mem_append] at he
    rcases he with (he | he) | he <;> rw [hkey _ _ e he] <;> decide
  · rw [Properties.putAll_append, Properties.putAll_append, ← hentry, ← hentry, ← hentry]
    have hhold : holdTimeParam.store x
        (rampTimeParam.storeRaw r (threadCount.storeRaw n other "") "") "" =
        .ok (holdTimeParam.storeRaw u
          (rampTimeParam.storeRaw r (threadCount.storeRaw n other "") "") "") := by
      change (do
        let d ← Param.offset? .seconds rampTime
          (rampTimeParam.storeRaw r (threadCount.storeRaw n other "") "") ""
        let v ← Param.moveBy x d
        return holdTimeParam.storeRaw v _ "" : Except Failure Properties) = _
      rw [hoffset, ok_bind, hu]
      rfl
    have hcount : threadCount.store n other "" = .ok (threadCount.storeRaw n other "") := rfl
    have hramp : rampTimeParam.store r (threadCount.storeRaw n other "") "" =
        .ok (rampTimeParam.storeRaw r (threadCount.storeRaw n other "") "") := rfl
    rw [storeAll, hcount, ok_bind, storeAll, hramp, ok_bind, storeAll, hhold]
    rfl

theorem region_rampAndHold (key : String) :
    inRegion rampAndHold.region key = true ↔ key ∈ timeKeys := by
  have hregion : rampAndHold.region = timeKeys.map .exact := by decide
  rw [hregion]
  simp [inRegion, KeyPattern.covers]

/-- A call that ramps up and holds puts what it stores by itself. -/
theorem steady_rampAndHold : rampAndHold.Steady where
  method_ne := by decide
  each_of_flag := by decide
  puts {c d after} h := by
    obtain ⟨values, props, hb, hstore, hguard, -, -⟩ :=
      applyModifier_eq_ok (fun hf => by cases hf) h
    obtain ⟨es, hes, -, hall⟩ := exists_of_storeAll_rampAndHold
      (map_fst_of_bindValues (bindAll_eq_ok hb))
      (fun x hx => (given_of_bound (fun hf => by cases hf) hb x hx).2) hstore
    refine ⟨es, ?_, hguard.trans hes⟩
    have hstored : storeAll (lead rampAndHold (d.count rampAndHold.method)) values .empty =
        .ok (.putAll .empty es) := hall .empty
    rw [storedAlone, hb, ok_bind, hstored]
    rfl
  places {i c own} h e he := by
    obtain ⟨values, hb, h⟩ := exists_of_bind_eq_ok h
    obtain ⟨props, hstore, h⟩ := exists_of_bind_eq_ok h
    obtain rfl : props = own := Except.ok.inj h
    obtain ⟨es, rfl, hkeys, -⟩ := exists_of_storeAll_rampAndHold
      (map_fst_of_bindValues (bindAll_eq_ok hb))
      (fun x hx => (given_of_bound (fun hf => by cases hf) hb x hx).2) hstore
    have hmem := Properties.exists_mem_of_get?_putAll (Properties.get?_eq_some_iff.mpr he)
    exact .inl ⟨(region_rampAndHold _).mpr (hkeys _ hmem), e.1, (String.empty_append).symm⟩

theorem steady_rampHoldThreadGroup : rampHoldThreadGroup.Steady where
  modifiers m hm := by
    obtain rfl := List.mem_singleton.mp hm
    exact steady_rampAndHold
  methods_nodup := by decide
  spared m hm called props stored hc h := by
    obtain rfl := List.mem_singleton.mp hm
    have hc : called.contains rampAndHold.method = true := hc
    rw [modifiers_rampHoldThreadGroup, storeUncalled, hc] at h
    obtain rfl : props = stored := Except.ok.inj h
    refine ⟨?_, fun e he => absurd he List.not_mem_nil⟩
    obtain ⟨own, hown, hk⟩ := Guard.exists_apply_eq props
      (rampHoldThreadGroup.guard.getD (.all []))
    have hguarded : guarded rampHoldThreadGroup props = props.putAll own := hown
    rw [hguarded]
    refine Properties.filter_putAll_of_not_mem (fun e he => ?_) props
    rw [Bool.eq_false_iff]
    intro hin
    have hout : ∀ key ∈ timeKeys, key ∉ (rampHoldThreadGroup.guard.getD (.all [])).writes := by
      decide
    exact hout e.1 ((region_rampAndHold _).mp hin) (hk e he)
  fresh m hm taken args values props hb h := by
    obtain ⟨⟨_, w⟩, _, rfl, rfl, hnil⟩ := List.map_eq_cons_iff.mp (map_fst_of_bindValues hb)
    obtain rfl := List.map_eq_nil_iff.mp hnil
    obtain rfl : Properties.empty = props := Except.ok.inj h
    rfl
  excludes m hm n hn hne := by
    rw [List.mem_singleton.mp hm, List.mem_singleton.mp hn] at hne
    exact absurd rfl hne
  unasked m hm _ := by
    obtain rfl := List.mem_singleton.mp hm
    rfl
  listed m hm p hp hk := by
    obtain rfl := List.mem_singleton.mp hm
    have hno : ∀ q ∈ rampAndHold.params, q.kind ≠ .textList := by decide
    exact absurd hk (hno p hp)

end Catalog.Plan

/-- Under all signatures of the catalog what chained calls write lasts. -/
theorem Signature.steady_of_mem {s : Signature} (hs : s ∈ Registry.standard.signatures) :
    s.Steady := by
  rcases Signature.restorable_of_mem hs with rfl | hr
  · exact steady_rampHoldThreadGroup
  · exact hr.steady (List.all_eq_true.mp Registry.isExclusive_standard s hs)

end FluentPlan
