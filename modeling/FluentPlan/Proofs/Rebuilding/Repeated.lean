import Mathlib.Data.List.Forall2
import Mathlib.Tactic.Common
import FluentPlan.Proofs.Rebuilding.Recalled

/-!
Modifiers that are called again. Where an element holds what the calls of a modifier put there, the
modifier is called as often as before, and its calls look alike; one that was not called has its
defaults, and is not called again.
-/

namespace FluentPlan

open Build Script

theorem filter_of_filter {es fs : List (String × String)} {keep sub : String → Bool}
    (h : es.filter (fun e => keep e.1) = fs.filter fun e => keep e.1)
    (hsub : ∀ k, sub k = true → keep k = true) :
    es.filter (fun e => sub e.1) = fs.filter fun e => sub e.1 := by
  have hboth (xs : List (String × String)) : (xs.filter fun e => keep e.1).filter (fun e => sub e.1) =
      xs.filter fun e => sub e.1 := by
    rw [List.filter_filter]
    refine List.filter_congr fun e _ => ?_
    cases hs : sub e.1 with
    | false => rfl
    | true => rw [hsub e.1 hs]; rfl
  rw [← hboth es, h, hboth fs]

theorem Param.exists_mem_entries {p : Param} (hp : p.isPlaced = true) (hk : p.kind ≠ .textList)
    {v : Option Value} (hv : v ≠ none) (lead : String) :
    ∃ t, (lead ++ p.propText, t) ∈ p.entries v lead := by
  obtain ⟨kind, prop, default, required, mandatory⟩ := p
  cases prop with
  | none => simp [isPlaced] at hp
  | some key =>
    obtain ⟨v, rfl⟩ := Option.ne_none_iff_exists'.mp hv
    obtain ⟨t, ht⟩ : ∃ t, stored ⟨kind, some key, default, required, mandatory⟩ (some v) = some t := by
      cases v <;> exact ⟨_, rfl⟩
    refine ⟨t, ?_⟩
    simp [entries, ht, propText]

namespace Element

/-- Whether a call of a modifier says values that look like those of another one. -/
def Echoes (m : Modifier) (c d : Call) : Prop :=
  ∃ vs ws, c = .chained m.method (callArgs m vs) ∧ d = .chained m.method (callArgs m ws) ∧
    AllAlike vs ws ∧ vs.map Prod.fst = m.params ∧ ws.map Prod.fst = m.params

section

variable {b : Modifier × List Call} (hr : b.1.Restorable)
  (hd : ∀ g, b.1.guard = some g → ∀ e ∈ g.demand, inRegion b.1.region e.1 = false)
  {vss : List (List (Param × Option Value))} (hb : List.Forall₂ (Binds b.1) b.2 vss)
  {e : Element} {es : List (String × String)} (he : e.properties = .putAll .empty es)
  (hf : es.filter (fun x => inRegion b.1.region x.1) =
    (blockEntries b.1 0 vss ++ silentEntries b).filter fun x => inRegion b.1.region x.1)

include hr he hf

include hb in
omit he hf in
theorem map_fst_of_mem_block {ys : List (Param × Option Value)} (hys : ys ∈ vss) :
    ys.map Prod.fst = b.1.params := by
  obtain ⟨c, -, inv, -, hbound⟩ := exists_of_forall₂ hb hys
  exact map_fst_of_bound hr hbound

include hd hb in
omit he in
/-- The region of a parameter holds, behind the lead of a call, what the call stored. -/
theorem filter_of_block (hone : b.1.each = none → b.2.length ≤ 1) {i : Nat}
    {ys : List (Param × Option Value)} (hys : vss[i]? = some ys) {y : Param × Option Value}
    (hy : y ∈ ys) :
    es.filter (fun x => inRegion (y.1.region (lead b.1 i)) x.1) =
      y.1.entries y.2 (lead b.1 i) := by
  have hmem := List.mem_of_getElem? hys
  have hym : y.1 ∈ b.1.params := map_fst_of_mem_block hr hb hmem ▸ List.mem_map_of_mem hy
  have hsilent : silentEntries b = [] := by
    obtain ⟨c, hc, -⟩ := exists_of_forall₂ hb hmem
    simp [silentEntries, List.ne_nil_of_mem hc]
  have hlen : b.1.each = none → vss.length ≤ 1 := fun h => hb.length_eq ▸ hone h
  have hown := filter_blockEntries hr hd (fun zs hzs => map_fst_of_mem_block hr hb hzs) hlen
    (k := 0) hys hy
  rw [filter_of_filter hf fun k hk => hr.inRegion_of_lead hym hk, hsilent, List.append_nil]
  rwa [Nat.zero_add] at hown

include hd hb in
/-- The values of each call are read again where the call stored them. -/
theorem valuesOf_of_block (hone : b.1.each = none → b.2.length ≤ 1)
    {i : Nat} {c : Call} (hc : b.2[i]? = some c) {vs : List (Param × Option Value)}
    (hcall : IsCall b.1 c vs) :
    ∃ ws, valuesOf e (lead b.1 i) b.1.params = .ok ws ∧ AllAlike vs ws ∧
      ws.map Prod.fst = b.1.params := by
  obtain ⟨ys, hys, hbinds⟩ := exists_getElem?_of_forall₂ hb hc
  obtain ⟨hret, hfst⟩ := returns_of_binds hr hcall.params hcall.known hcall.default
    (hcall.call ▸ hbinds)
  obtain ⟨ws, hws, halike, hwfst⟩ := valuesOf_of_returns e (lead b.1 i) hret
    fun y hy => Param.valueOf_of_filter (hr.placed y.1 (hfst ▸ List.mem_map_of_mem hy)) he
      (filter_of_block hr hd hb hf hone hys hy)
  rw [hfst] at hws hwfst
  exact ⟨ws, hws, halike, hwfst⟩

include hb in
/-- A modifier that was not called has its defaults. -/
theorem valuesOf_of_silent (heach : b.1.each = none) (hnil : b.2 = []) :
    valuesOf e "" b.1.params = .ok (b.1.params.map fun p => (p, p.default)) := by
  have hblock : blockEntries b.1 0 vss = [] := by
    rw [hnil] at hb
    cases hb
    rfl
  have hlead : lead b.1 0 = "" := by simp [lead, heach]
  have hapart := hr.apart_lead 0
  rw [hlead] at hapart
  have hvalue : ∀ p ∈ b.1.params, p.valueOf e "" = .ok p.default := by
    intro p hp
    obtain ⟨hnone, hdefault, -⟩ := Param.restoresDefault_sound (hr.restoresDefault p hp)
    have hsub (k : String) (hk : inRegion (p.region "") k = true) :
        inRegion b.1.region k = true :=
      hr.inRegion_of_lead hp (i := 0) (by rwa [hlead])
    have hfilter := filter_of_filter hf hsub
    rw [hblock, List.nil_append] at hfilter
    cases hg : b.1.guard with
    | none =>
      have hown : (silentEntries b).filter (fun x => inRegion (p.region "") x.1) =
          p.entries p.default "" := by
        have hvalues := filter_values ""
          (fun x (hx : x ∈ b.1.params.map fun p => (p, p.default)) => by
            obtain ⟨q, hq, rfl⟩ := List.mem_map.mp hx
            exact hr.placed q hq)
          (by
            rw [List.map_map]
            exact (List.map_id b.1.params).symm ▸ hapart) (List.mem_map_of_mem hp)
        rw [List.flatMap_map] at hvalues
        simpa [silentEntries, hnil, heach, hg] using hvalues
      rw [hown] at hfilter
      rw [Param.valueOf_of_filter (hr.placed p hp) he hfilter, hdefault]
    | some g =>
      have hsilent : silentEntries b = [] := by simp [silentEntries, hg]
      rw [hsilent, List.filter_nil, ← p.entries_none ""] at hfilter
      rw [Param.valueOf_of_filter (hr.placed p hp) he hfilter, hnone]
  unfold valuesOf
  rw [mapM_eq_ok_iff, List.forall₂_map_right_iff]
  refine List.forall₂_same.mpr fun p hp => ?_
  rw [hvalue p hp]
  rfl

end

theorem allDefault_defaults {ps : List Param} (h : ∀ p ∈ ps, p.restoresDefault = true) :
    allDefault (ps.map fun p => (p, p.default)) = .ok true := by
  induction ps with
  | nil => rfl
  | cons p ps ih =>
    have hp := (Param.restoresDefault_sound (h p List.mem_cons_self)).2.2
    rw [List.map_cons, allDefault, hp, ok_bind]
    exact ih fun q hq => h q (List.mem_cons_of_mem p hq)

theorem modifierCalls_of_refused {m : Modifier} {e : Element} {g : Guard} (hg : m.guard = some g)
    (ha : g.accepts e.properties = false) : modifierCalls e m = .ok [] := by
  simp [modifierCalls, hg, ha]

theorem modifierCalls_of_valuesOf {m : Modifier} {e : Element} (hm : m.each = none)
    (hg : ∀ g, m.guard = some g → g.accepts e.properties = true)
    {ws : List (Param × Option Value)} (hv : valuesOf e "" m.params = .ok ws) {d : Bool}
    (hd : allDefault ws = .ok d) :
    modifierCalls e m = .ok (if d then [] else [.chained m.method (callArgs m ws)]) := by
  have hacc : m.guard.any (fun g => !g.accepts e.properties) = false := by
    cases h : m.guard with
    | none => rfl
    | some g => simp [hg g h]
  unfold modifierCalls
  rw [if_neg (by simp [hacc]), hm]
  simp only [hv, hd, ok_bind, callArgs]
  cases d with
  | true => rfl
  | false =>
    simp only [Bool.false_eq_true, if_false]
    split_ifs <;> rfl

theorem modifierCalls_of_indices {m : Modifier} {e : Element} {each : String}
    (hm : m.each = some each) (hg : ∀ g, m.guard = some g → g.accepts e.properties = true) {n : Nat}
    (hi : indices e.properties each "" = .ok (List.range n)) {ds : List Call}
    (hd : (List.range n).mapM (fun i => do
      let values ← valuesOf e (entryLead each i) m.params
      return Call.chained m.method (argsOf values)) = .ok ds) : modifierCalls e m = .ok ds := by
  have hacc : m.guard.any (fun g => !g.accepts e.properties) = false := by
    cases h : m.guard with
    | none => rfl
    | some g => simp [hg g h]
  unfold modifierCalls
  rw [if_neg (by simp [hacc]), hm]
  simp only [hi, ok_bind]
  exact hd

section

variable {b : Modifier × List Call} (hr : b.1.Restorable)
  (hd : ∀ g, b.1.guard = some g → ∀ e ∈ g.demand, inRegion b.1.region e.1 = false)
  {vss : List (List (Param × Option Value))} (hb : List.Forall₂ (Binds b.1) b.2 vss)
  {e : Element} {es : List (String × String)} (he : e.properties = .putAll .empty es)
  (hf : es.filter (fun x => inRegion b.1.region x.1) =
    (blockEntries b.1 0 vss ++ silentEntries b).filter fun x => inRegion b.1.region x.1)
  (hcalls : ∀ c ∈ b.2, ∃ vs, IsCall b.1 c vs)

include hr hd hb he hf hcalls

/-- The entries of a collection are numbered like the calls that stored them. -/
theorem indices_of_block {each : String} (heach : b.1.each = some each) :
    indices e.properties each "" = .ok (List.range b.2.length) := by
  have hregion : b.1.region = [.below (each ++ "/")] := by simp [Modifier.region, heach]
  have hcollect := hr.collecting
  simp only [Modifier.isCollecting, heach, Bool.and_eq_true, Bool.not_eq_true'] at hcollect
  have hparams : b.1.params ≠ [] := by simpa using hcollect.1.1.2
  have hsilent : silentEntries b = [] := by simp [silentEntries, heach]
  have hblock := hf
  rw [hsilent, List.append_nil] at hblock
  have hlead (i : Nat) : lead b.1 i = entryLead each i := by simp [lead, heach]
  refine indices_eq_range (fun k hk hc => ?_) fun i hi => ?_
  · obtain ⟨⟨key, t⟩, hmem, rfl⟩ := List.mem_map.mp hk
    have hget := Properties.get?_eq_some_iff.mpr hmem
    rw [he] at hget
    have hin : inRegion b.1.region key = true := by
      rw [hregion]
      simpa [inRegion] using hc
    have hes : (key, t) ∈ es.filter fun x => inRegion b.1.region x.1 :=
      List.mem_filter.mpr ⟨Properties.exists_mem_of_get?_putAll hget, hin⟩
    rw [hblock] at hes
    rcases mem_blockEntries (List.mem_of_mem_filter hes) with ⟨i, zs, x, hi, hx, hent⟩ |
      ⟨-, g, hg, hent⟩
    · have hxm : x.1 ∈ b.1.params := 
        map_fst_of_mem_block hr hb (List.mem_of_getElem? hi) ▸ List.mem_map_of_mem hx
      have hown := Param.inRegion_of_mem_entries (hr.placed x.1 hxm) hent
      rw [hr.region_of_each heach hxm, Nat.zero_add, hlead] at hown
      simp only [inRegion, List.any_cons, List.any_nil, Bool.or_false, KeyPattern.covers,
        decide_eq_true_eq] at hown
      refine ⟨i, ?_, _, hown⟩
      rw [hb.length_eq]
      exact (List.getElem?_eq_some_iff.mp hi).1
    · rw [hd g hg _ hent] at hin
      cases hin
  · obtain ⟨vs, hcall⟩ := hcalls _ (List.getElem_mem hi)
    obtain ⟨ys, hys, hbinds⟩ := exists_getElem?_of_forall₂ hb (List.getElem?_eq_getElem hi)
    obtain ⟨hret, hyfst⟩ := returns_of_binds hr hcall.params hcall.known hcall.default
      (hcall.call ▸ hbinds)
    obtain ⟨p, ps, hps⟩ := List.exists_cons_of_ne_nil hparams
    rw [hps] at hyfst
    obtain ⟨y, ys', rfl, hyp, -⟩ := List.map_eq_cons_iff.mp hyfst
    obtain ⟨x, -, hne, -⟩ := exists_of_forall₂ hret List.mem_cons_self
    have hym : y.1 ∈ b.1.params := by
      rw [hps, hyp]
      exact List.mem_cons_self
    have hlist : y.1.kind ≠ .textList := by
      intro hk
      have hreg := hr.region_of_each heach hym ""
      simp [Param.region, hk] at hreg
    obtain ⟨t, ht⟩ := Param.exists_mem_entries (hr.placed y.1 hym) hlist hne (lead b.1 i)
    rw [← filter_of_block hr hd hb hf (fun h => by rw [heach] at h; cases h) hys List.mem_cons_self]
      at ht
    have hsome := Properties.isSome_get?_putAll (List.mem_of_mem_filter ht)
    obtain ⟨t', ht'⟩ := Option.isSome_iff_exists.mp hsome
    rw [← he, hlead] at ht'
    exact ⟨y.1.propText, List.mem_map_of_mem (Properties.get?_eq_some_iff.mp ht')⟩

/-- A modifier whose guard accepts the element is called as often as before, with values that look
alike. -/
theorem modifierCalls_of_block (hone : b.1.each = none → b.2.length ≤ 1)
    (hacc : ∀ g, b.1.guard = some g → g.accepts e.properties = true) :
    ∃ ds, modifierCalls e b.1 = .ok ds ∧ List.Forall₂ (Echoes b.1) b.2 ds := by
  cases heach : b.1.each with
  | some each =>
    have hflag : b.1.flag = false := by
      rw [Bool.eq_false_iff]
      intro hf
      rw [hr.each_of_flag hf] at heach
      cases heach
    have hindices := indices_of_block hr hd hb he hf hcalls heach
    obtain ⟨ds, hds, hall⟩ := mapM_range'_of_forall (R := Echoes b.1) (l := b.2) (k := 0)
      (f := fun i => do
        let values ← valuesOf e (entryLead each i) b.1.params
        return Call.chained b.1.method (argsOf values)) fun i c hc => by
      obtain ⟨vs, hcall⟩ := hcalls c (List.mem_of_getElem? hc)
      obtain ⟨ws, hws, halike, hfst⟩ := valuesOf_of_block hr hd hb he hf hone hc hcall
      have hlead : lead b.1 i = entryLead each (0 + i) := by simp [lead, heach]
      rw [hlead] at hws
      refine ⟨.chained b.1.method (argsOf ws), by rw [hws]; rfl, vs, ws, hcall.call, ?_, halike,
        hcall.params, hfst⟩
      simp [callArgs, hflag]
    refine ⟨ds, modifierCalls_of_indices heach hacc hindices ?_, hall⟩
    rw [List.range_eq_range']
    exact hds
  | none =>
    have hlead : lead b.1 0 = "" := by simp [lead, heach]
    cases hcs : b.2 with
    | nil =>
      have hv := valuesOf_of_silent hr hb he hf heach hcs
      have hdef := allDefault_defaults hr.restoresDefault
      exact ⟨_, modifierCalls_of_valuesOf heach hacc hv hdef, .nil⟩
    | cons c cs =>
      have hlen := hone heach
      rw [hcs, List.length_cons] at hlen
      obtain rfl : cs = [] := List.length_eq_zero_iff.mp (by omega)
      obtain ⟨vs, hcall⟩ := hcalls c (by rw [hcs]; exact List.mem_cons_self)
      obtain ⟨ws, hws, halike, hfst⟩ := valuesOf_of_block hr hd hb he hf hone (i := 0)
        (by rw [hcs]; rfl) hcall
      rw [hlead] at hws
      have hdef : allDefault ws = .ok false := by
        rw [allDefault_of_allAlike halike]
        exact hcall.default heach
      refine ⟨_, modifierCalls_of_valuesOf heach hacc hws hdef, .cons ?_ .nil⟩
      exact ⟨vs, ws, hcall.call, rfl, halike, hcall.params, hfst⟩

end

end Element
end FluentPlan
