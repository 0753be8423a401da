import FluentPlan.Proofs.Fault.Conversion
import FluentPlan.Proofs.Hoisting.Meaning
import FluentPlan.Proofs.Registration.History
import FluentPlan.Proofs.Requirement.Import

/-!
What hoisted code needs. Calls with the same key need the same, since in the catalog a method tells
what its calls need and a property tells the class of its values. So the copies that hoisting drops
take nothing with them: all that the plan needed is needed by what is left of it or by a helper
method, and the return types of these are all that is needed besides.
-/

namespace FluentPlan

open Call Helper

/-- The same options, but with or without hoisting. -/
def Options.hoisting (o : Options) (b : Bool) : Options := { o with hoist := b }

/-! ### What heads have in common -/

/-- Whether two heads count as the same in keys. -/
def CallHead.SameKey (h k : CallHead) : Prop :=
  h.method = k.method ∧ (h.role = .empty ↔ k.role = .empty) ∧
    h.args.map Arg.key = k.args.map Arg.key

namespace Call

variable {own : CallHead → List String}

theorem mem_walkAll_iff {cs : List Call} {d : Call} : d ∈ walkAll cs ↔ ∃ c ∈ cs, d ∈ c.walk := by
  rw [walkAll_eq_flatMap, List.mem_flatMap]

/-- What the heads that a walk meets have. -/
def collect (own : CallHead → List String) (c : Call) : List String :=
  c.walk.flatMap fun d => own d.head

theorem collect_eq (c : Call) : c.collect own =
    own c.head ++ (c.children.map (collect own)).flatten ++ (c.chain.map (collect own)).flatten := by
  have hall (cs : List Call) :
      (walkAll cs).flatMap (fun d => own d.head) = (cs.map (collect own)).flatten := by
    rw [walkAll_eq_flatMap, List.flatMap_assoc, List.flatMap_def]
    rfl
  rw [collect, walk_eq, List.cons_append, List.flatMap_cons, List.flatMap_append, hall, hall,
    List.append_assoc]

/-- Whether heads that count as the same have the same, among some calls. -/
def Uniform (own : CallHead → List String) (ds : List Call) : Prop :=
  ∀ c ∈ ds, ∀ d ∈ ds, c.head.SameKey d.head → own c.head = own d.head

theorem sameKey_of_key_eq {c d : Call} (h : c.key = d.key) : c.head.SameKey d.head := by
  rw [key_eq, key_eq d, CallKey.mk.injEq] at h
  obtain ⟨hm, -, he, ha, -⟩ := h
  exact ⟨hm, by simpa [isEmpty] using he, ha⟩

/-- Among such calls those with the same key collect the same. -/
theorem collect_eq_of_key_eq {ds : List Call} (hu : Uniform own ds) (c : Call) {d : Call}
    (hc : c.walk ⊆ ds) (hd : d.walk ⊆ ds) (h : c.key = d.key) : c.collect own = d.collect own := by
  induction c using Call.induction generalizing d with
  | step c hchildren hchain =>
    have hown := hu c (hc (mem_walk_self c)) d (hd (mem_walk_self d)) (sameKey_of_key_eq h)
    rw [key_eq, key_eq d, CallKey.mk.injEq] at h
    obtain ⟨-, -, -, -, hks, hls⟩ := h
    have hk : c.children.map (collect own) = d.children.map (collect own) :=
      map_eq_of_map_eq (fun k hk k' hk' => hchildren k hk
        (List.Subset.trans (walk_subset_of_mem_children hk) hc)
        (List.Subset.trans (walk_subset_of_mem_children hk') hd)) hks
    have hl : c.chain.map (collect own) = d.chain.map (collect own) :=
      map_eq_of_map_eq (fun l hl l' hl' => hchain l hl
        (List.Subset.trans (walk_subset_of_mem_chain hl) hc)
        (List.Subset.trans (walk_subset_of_mem_chain hl') hd)) hls
    rw [collect_eq, collect_eq d, hown, hk, hl]

/-- What is lost where calls of a key are replaced is what these collected. -/
theorem collect_subset_replace {key : CallKey} {ref : Call} {kept : List String} (c : Call)
    (h : ∀ d ∈ c.walk, d.key = key → d.collect own ⊆ kept) :
    c.collect own ⊆ (replace key ref c).collect own ++ kept := by
  induction c using Call.induction with
  | step c hchildren hchain =>
    intro x hx
    rw [collect_eq] at hx
    rw [List.mem_append, collect_eq (replace key ref c), head_replace, children_replace,
      chain_replace]
    rcases List.mem_append.mp hx with hx | hx
    · rcases List.mem_append.mp hx with hx | hx
      · exact .inl (List.mem_append_left _ (List.mem_append_left _ hx))
      · obtain ⟨xs, hxs, hx⟩ := List.mem_flatten.mp hx
        obtain ⟨k, hk, rfl⟩ := List.mem_map.mp hxs
        have hsub := walk_subset_of_mem_children hk
        by_cases hkey : k.key = key
        · exact .inr (h k (hsub (mem_walk_self k)) hkey hx)
        · rcases List.mem_append.mp (hchildren k hk (fun d hd => h d (hsub hd)) hx) with hx | hx
          · refine .inl (List.mem_append_left _ (List.mem_append_right _ ?_))
            refine List.mem_flatten.mpr ⟨_, List.mem_map_of_mem (List.mem_map_of_mem hk), ?_⟩
            rwa [replaced_of_key_ne hkey]
          · exact .inr hx
    · obtain ⟨xs, hxs, hx⟩ := List.mem_flatten.mp hx
      obtain ⟨l, hl, rfl⟩ := List.mem_map.mp hxs
      have hsub := walk_subset_of_mem_chain hl
      rcases List.mem_append.mp (hchain l hl (fun d hd => h d (hsub hd)) hx) with hx | hx
      · refine .inl (List.mem_append_right _ ?_)
        exact List.mem_flatten.mpr ⟨_, List.mem_map_of_mem (List.mem_map_of_mem hl), hx⟩
      · exact .inr hx

end Call

/-! ### The loop that hoists -/

namespace Helper.Hoisting

/-- After a step a head is that of the new reference, or one that was there. -/
theorem mem_walkAll_extract {s : Hoisting} {g : Group} {c : Call} (hc : c ∈ s.roots)
    (hg : g.call ∈ c.walk) {d : Call} (hd : d ∈ walkAll (s.extract g).roots) :
    d = reference (s.nameFor g.call) g.call ∨ ∃ e ∈ walkAll s.roots, e.head = d.head := by
  obtain ⟨b, hb, hd⟩ := mem_walkAll_iff.mp hd
  rw [roots_extract] at hb
  rcases List.mem_append.mp hb with hb | hb
  · obtain ⟨a, ha, rfl⟩ := List.mem_map.mp hb
    rcases mem_walk_replace (walk_reference _ _) a hd with rfl | ⟨e, he, rfl⟩
    · exact .inl rfl
    · exact .inr ⟨e, mem_walkAll_iff.mpr ⟨a, ha, he⟩, (head_replace e).symm⟩
  · rw [List.mem_singleton.mp hb] at hd
    exact .inr ⟨d, mem_walkAll_iff.mpr ⟨c, hc, walk_subset_of_mem_walk hg hd⟩, rfl⟩

/-- What holds of every state of the loop: heads that count as the same have the same, all heads
together have what those of the root had at first, and bodies have heads of places in it. -/
structure Kept (own : CallHead → List String) (root : Call) (s : Hoisting) : Prop where
  sound : ∃ ρ, Sound root.key ρ s
  uniform : Uniform own (walkAll s.roots)
  same : ∀ x, (∃ d ∈ walkAll s.roots, x ∈ own d.head) ↔ x ∈ root.collect own
  places : ∀ c ∈ s.roots, ∀ x ∈ c.candidates, ∃ y ∈ root.candidates, y.head = x.head
  bodies : ∀ h ∈ s.helpers, ∃ y ∈ root.candidates, y.head = h.body.head

theorem kept_start {own : CallHead → List String} {root : Call} (hp : root.Plain)
    (hu : Uniform own root.walk) : Kept own root (start root) where
  sound := ⟨fun _ => root.key, sound_start _ hp⟩
  uniform := by
    have hroots : walkAll (start root).roots = root.walk := by simp [start, roots]
    rwa [hroots]
  same := by
    intro x
    have hroots : walkAll (start root).roots = root.walk := by simp [start, roots]
    rw [hroots, collect, List.mem_flatMap]
  places := by
    intro c hc x hx
    rw [List.mem_singleton.mp hc] at hx
    exact ⟨x, hx, rfl⟩
  bodies := fun _ hh => absurd hh List.not_mem_nil

section

variable {own : CallHead → List String} {root : Call} {s : Hoisting} (h : Kept own root s)
  {g : Group} {c : Call} (hc : c ∈ s.roots) (hg : g.call ∈ c.candidates)

include h hc hg

/-- The name of the new reference tells it from all heads that were there. -/
theorem uniform_extract : Uniform own (walkAll (s.extract g).roots) := by
  obtain ⟨ρ, hs⟩ := h.sound
  have hwalk := (mem_walk_of_mem_candidates hg).1
  have hfresh {e d : Call} (he : e ∈ walkAll s.roots) (hd : e.head = d.head) :
      d.head.method ≠ s.nameFor g.call := by
    obtain ⟨b, hb, he⟩ := mem_walkAll_iff.mp he
    exact hd ▸ ne_nameFor (hs.methods_taken b hb e he) g.call
  intro d hd d' hd' hsame
  rcases mem_walkAll_extract hc hwalk hd with rfl | ⟨e, he, hhead⟩ <;>
    rcases mem_walkAll_extract hc hwalk hd' with rfl | ⟨e', he', hhead'⟩
  · rfl
  · exact absurd hsame.1.symm (hfresh he' hhead')
  · exact absurd hsame.1 (hfresh he hhead)
  · rw [← hhead, ← hhead'] at hsame ⊢
    exact h.uniform e he e' he' hsame

/-- The calls of the group have what the body has that is kept of them. -/
theorem collect_subset_extract (hkey : g.call.key = g.key) {b : Call} (hb : b ∈ s.roots) :
    ∀ x ∈ b.collect own, ∃ d ∈ walkAll (s.extract g).roots, x ∈ own d.head := by
  have hwalk := (mem_walk_of_mem_candidates hg).1
  have hin {d : Call} {a : Call} (ha : a ∈ s.roots) (hd : d ∈ a.walk) : d.walk ⊆ walkAll s.roots :=
    fun e he => mem_walkAll_iff.mpr ⟨a, ha, walk_subset_of_mem_walk hd he⟩
  have hgroup (d : Call) (hd : d ∈ b.walk) (hdk : d.key = g.key) :
      d.collect own ⊆ g.call.collect own := by
    rw [collect_eq_of_key_eq h.uniform d (hin hb hd) (hin hc hwalk) (hdk.trans hkey.symm)]
    exact List.Subset.refl _
  have hsub : b.collect own ⊆
      (replace g.key (reference (s.nameFor g.call) g.call) b).collect own ++ g.call.collect own :=
    collect_subset_replace b hgroup
  intro x hx
  rcases List.mem_append.mp (hsub hx) with hx | hx
  · obtain ⟨d, hd, hx⟩ := List.mem_flatMap.mp hx
    refine ⟨d, mem_walkAll_iff.mpr ⟨_, ?_, hd⟩, hx⟩
    rw [roots_extract]
    exact List.mem_append_left _ (List.mem_map_of_mem hb)
  · obtain ⟨d, hd, hx⟩ := List.mem_flatMap.mp hx
    refine ⟨d, mem_walkAll_iff.mpr ⟨g.call, ?_, hd⟩, hx⟩
    rw [roots_extract]
    exact List.mem_append_right _ List.mem_cons_self

theorem kept_extract (hown : ∀ name body, own (reference name body).head = [])
    (hkey : g.call.key = g.key) : Kept own root (s.extract g) where
  sound := by
    obtain ⟨ρ, hs⟩ := h.sound
    obtain ⟨hwalk, hcand⟩ := mem_walk_of_mem_candidates hg
    simp only [isCandidate, Bool.and_eq_true, Bool.not_eq_true'] at hcand
    exact ⟨_, sound_extract hs hc hwalk hkey hcand.1.1⟩
  uniform := uniform_extract h hc hg
  same := by
    intro x
    rw [← h.same x]
    constructor
    · rintro ⟨d, hd, hx⟩
      rcases mem_walkAll_extract hc (mem_walk_of_mem_candidates hg).1 hd with rfl | ⟨e, he, hhead⟩
      · rw [hown] at hx
        cases hx
      · exact ⟨e, he, hhead ▸ hx⟩
    · rintro ⟨e, he, hx⟩
      obtain ⟨b, hb, he⟩ := mem_walkAll_iff.mp he
      exact collect_subset_extract h hc hg hkey hb x (List.mem_flatMap.mpr ⟨e, he, hx⟩)
  places := by
    intro b hb x hx
    rw [roots_extract] at hb
    rcases List.mem_append.mp hb with hb | hb
    · obtain ⟨a, ha, rfl⟩ := List.mem_map.mp hb
      obtain ⟨y, hy, rfl⟩ := exists_candidate_of_replace (places_reference _ _) a hx
      obtain ⟨z, hz, he'⟩ := h.places a ha y hy
      exact ⟨z, hz, he'.trans (head_replace y).symm⟩
    · rw [List.mem_singleton.mp hb] at hx
      obtain ⟨d, hd, hx⟩ := List.mem_flatMap.mp hx
      refine h.places c hc x (List.mem_flatMap.mpr ⟨d, ?_, hx⟩)
      exact walk_subset_of_mem_walk (mem_walk_of_mem_candidates hg).1 hd
  bodies := by
    intro f hf
    rcases List.mem_append.mp hf with hf | hf
    · obtain ⟨f', hf', rfl⟩ := List.mem_map.mp hf
      rw [head_replace]
      exact h.bodies f' hf'
    · rw [List.mem_singleton.mp hf]
      exact h.places c hc g.call hg

end

end Helper.Hoisting

theorem Call.kept_of_hoist {own : CallHead → List String}
    (hown : ∀ name body, own (reference name body).head = []) {root root' : Call}
    {helpers : List Helper} (hp : root.Plain) (hu : Uniform own root.walk)
    (h : root.hoist.outcome = .ok (root', helpers)) :
    (∀ x, (∃ d ∈ walkAll (root' :: helpers.map (·.body)), x ∈ own d.head) ↔
        x ∈ root.collect own) ∧
      ∀ f ∈ helpers, ∃ y ∈ root.candidates, y.head = f.body.head := by
  obtain ⟨t, ht, rfl, rfl⟩ := exists_run_of_hoist h
  have hk := Hoisting.run_induction
    (fun s g hs hkey c hc hg => Hoisting.kept_extract hs hc hg hown hkey)
    (Hoisting.kept_start hp hu) ht
  exact ⟨hk.same, hk.bodies⟩

/-! ### Heads of the catalog -/

namespace Registry

def params (r : Registry) : List Param := r.signatures.flatMap Signature.allParams

/-- In the default registry calls of one method need the same, and no modifier is called as a builder
is. -/
theorem uniform_standard :
    (∀ s ∈ standard.signatures, ∀ t ∈ standard.signatures, s.method = t.method →
      s.imports = t.imports ∧ s.staticImport = t.staticImport ∧ s.dependency = t.dependency) ∧
    (∀ s ∈ standard.signatures, ∀ m ∈ s.modifiers, ∀ t ∈ standard.signatures,
      m.method ≠ t.method) ∧
    ∀ s ∈ standard.signatures, s.method ≠ "children" := by
  decide +kernel

/-- There a property has values of one kind. -/
theorem kind_eq_of_prop_eq_standard : ∀ p ∈ standard.params, p.classes ≠ [] →
    ∀ q ∈ standard.params, p.prop = q.prop → p.kind.name = q.kind.name → p.kind = q.kind := by
  decide +kernel

/-- A return type there is a qualified name. -/
theorem returnType_standard : ∀ s ∈ standard.signatures, Java.isAscii s.returnType = true ∧
    ((Java.bytes s.returnType).map UInt8.toNat).contains '.'.toNat = true := by
  decide +kernel

end Registry

namespace Param

/-- A number refers to no class. -/
theorem imports_of_number (p : Param) {v : Value} (h : v.number?.isSome = true) :
    p.imports (some v) = [] := by
  unfold imports
  split <;> first | rfl | (next heq => cases heq; cases h)

theorem imports_congr {p q : Param} (hk : p.kind = q.kind) {v w : Option Value}
    (hv : v.map Value.key = w.map Value.key) : p.imports v = q.imports w := by
  have hkind (u : Option Value) : p.imports u = q.imports u := by
    unfold imports
    rw [hk]
  rcases v with _ | v <;> rcases w with _ | w
  · exact hkind none
  · cases hv
  · cases hv
  · rcases Value.number?_eq_of_key_eq (Option.some.inj hv) with rfl | ⟨hsome, hnumber⟩
    · exact hkind _
    · rw [imports_of_number p hsome, imports_of_number q (hnumber ▸ hsome)]

end Param

/-- Whether an argument is for one of some parameters, or the place of the children. -/
def Arg.IsOf (ps : List Param) (a : Arg) : Prop := a = .children ∨ ∃ p ∈ ps, ∃ v, a = .scalar p v

/-- Arguments of the default registry with the same key refer to the same classes. -/
theorem Arg.imports_eq_of_key_eq {a b : Arg} (ha : a.IsOf Registry.standard.params)
    (hb : b.IsOf Registry.standard.params) (h : a.key = b.key) : a.imports = b.imports := by
  obtain rfl | ⟨p, hp, v, rfl⟩ := ha <;> obtain rfl | ⟨q, hq, w, rfl⟩ := hb
  · rfl
  · cases h
  · cases h
  · simp only [key, ArgKey.scalar.injEq] at h
    obtain ⟨hname, hprop, hrendered, hv⟩ := h
    have himports : p.imports v = q.imports w := by
      by_cases hpc : p.classes = []
      · by_cases hqc : q.classes = []
        · have hpv := p.imports_subset_classes v
          have hqw := q.imports_subset_classes w
          rw [hpc] at hpv
          rw [hqc] at hqw
          rw [List.subset_nil.mp hpv, List.subset_nil.mp hqw]
        · have hk := Registry.kind_eq_of_prop_eq_standard q hq hqc p hp hprop.symm hname.symm
          exact Param.imports_congr hk.symm hv
      · exact Param.imports_congr
          (Registry.kind_eq_of_prop_eq_standard p hp hpc q hq hprop hname) hv
    simp only [imports, hrendered, himports]

namespace CallHead

/-- What a head needs by itself, as a builder of a signature or as the call of a modifier. -/
inductive Needs (r : Registry) (o : Options) (h : CallHead) : Prop
  | builder (s : Signature) (hs : s ∈ r.signatures) (method : h.method = s.method)
      (imports : h.imports = s.imports)
      (staticImports : h.staticImports = (Element.nonempty s.staticImport).toList)
      (dependencies : h.dependencies =
        ((Element.nonempty s.dependency).map (Element.coordinate o)).toList)
  | link (method : h.method = "children" ∨
        ∃ s ∈ r.signatures, ∃ m ∈ s.modifiers, h.method = m.method)
      (imports : h.imports = []) (staticImports : h.staticImports = [])
      (dependencies : h.dependencies = [])

/-- Whether a head is that of an empty call, or stems from a registry. -/
def IsListed (r : Registry) (o : Options) (h : CallHead) : Prop :=
  h.role = .empty ∨ (h.Needs r o ∧ ∀ a ∈ h.args, a.IsOf r.params)

/-- Heads of one method need the same by themselves. -/
theorem Needs.eq {o : Options} {h k : CallHead} (hh : h.Needs .standard o)
    (hk : k.Needs .standard o) (hm : h.method = k.method) :
    h.imports = k.imports ∧ h.staticImports = k.staticImports ∧
      h.dependencies = k.dependencies := by
  obtain ⟨hsame, hapart, hchildren⟩ := Registry.uniform_standard
  cases hh with
  | builder s hs method imports staticImports dependencies =>
    cases hk with
    | builder t ht method' imports' staticImports' dependencies' =>
      obtain ⟨hi, hst, hd⟩ := hsame s hs t ht (by rw [← method, hm, method'])
      simp only [imports, imports', staticImports, staticImports', dependencies, dependencies', hi,
        hst, hd, and_self]
    | link method' _ _ _ =>
      rcases method' with method' | ⟨t, ht, m, hmem, method'⟩
      · exact absurd (by rw [← method, hm, method']) (hchildren s hs)
      · exact absurd (by rw [← method', ← hm, method]) (hapart t ht m hmem s hs)
  | link method imports staticImports dependencies =>
    cases hk with
    | builder t ht method' _ _ _ =>
      rcases method with method | ⟨s, hs, m, hmem, method⟩
      · exact absurd (by rw [← method', ← hm, method]) (hchildren t ht)
      · exact absurd (by rw [← method, hm, method']) (hapart s hs m hmem t ht)
    | link _ imports' staticImports' dependencies' =>
      exact ⟨imports.trans imports'.symm, staticImports.trans staticImports'.symm,
        dependencies.trans dependencies'.symm⟩

/-- What a head has, unless it is that of an empty call. -/
def whenWritten (field : CallHead → List String) (h : CallHead) : List String :=
  if h.role = .empty then [] else field h

def allImports (h : CallHead) : List String := h.imports ++ h.args.flatMap Arg.imports

theorem whenWritten_eq_of_sameKey {o : Options} {h k : CallHead} (hh : h.IsListed .standard o)
    (hk : k.IsListed .standard o) (hs : h.SameKey k) :
    h.whenWritten allImports = k.whenWritten allImports ∧
      h.whenWritten staticImports = k.whenWritten staticImports ∧
      h.whenWritten dependencies = k.whenWritten dependencies := by
  obtain ⟨hm, hrole, hargs⟩ := hs
  by_cases he : h.role = .empty
  · simp only [whenWritten, if_pos he, if_pos (hrole.mp he), and_self]
  · obtain ⟨hn, ha⟩ := hh.resolve_left he
    obtain ⟨hn', ha'⟩ := hk.resolve_left (mt hrole.mpr he)
    obtain ⟨hi, hst, hd⟩ := hn.eq hn' hm
    have himports : h.args.map Arg.imports = k.args.map Arg.imports := map_eq_of_map_eq
      (fun a hm b hm' => Arg.imports_eq_of_key_eq (ha a hm) (ha' b hm')) hargs
    simp only [whenWritten, if_neg he, if_neg (mt hrole.mpr he), allImports, List.flatMap_def,
      himports, hi, hst, hd, and_self]

end CallHead

namespace Element

theorem isOf_of_valuesOf {s : Signature} {r : Registry} (hs : s ∈ r.signatures) {e : Element}
    {lead : String} {ps : List Param} (hps : ∀ p ∈ ps, p ∈ s.allParams)
    {values : List (Param × Option Value)} (hv : valuesOf e lead ps = .ok values) :
    ∀ x ∈ values, (Arg.scalar x.1 x.2).IsOf r.params := fun x hx =>
  .inr ⟨x.1, List.mem_flatMap.mpr ⟨s, hs, hps _ (mem_of_valuesOf hv hx).1⟩, x.2, rfl⟩

/-- All heads of an assembled call stem from the registry. -/
theorem isListed_assemble {r : Registry} {o : Options} {path : String} {e : Element} {c : Call}
    (h : (e.assemble r o path).outcome = .ok c) : ∀ d ∈ c.walk, d.head.IsListed r o := by
  refine forall_head_assemble { empty := ?_, place := ?_, own := ?_, link := ?_ } e h
  · exact fun _ => .inl rfl
  · exact fun _ => .inr ⟨.link (.inl rfl) rfl rfl rfl,
      fun a ha => .inl (List.mem_singleton.mp ha)⟩
  · intro s hs e values hv
    refine .inr ⟨.builder s hs rfl rfl rfl rfl, fun a ha => ?_⟩
    rcases mem_placeArgs ha with rfl | ⟨x, hx, rfl⟩
    · exact .inl rfl
    · exact isOf_of_valuesOf hs
        (fun p hp => List.mem_append_left _ (List.mem_of_mem_filter hp)) hv x hx
  · intro s hs m hm e cs hcs c hc
    obtain ⟨args, rfl, hargs⟩ := exists_chained_of_modifierCalls hcs hc
    refine .inr ⟨.link (.inr ⟨s, hs, m, hm, rfl⟩) rfl rfl rfl, fun a ha => ?_⟩
    obtain ⟨lead, values, hv, ha⟩ := hargs a ha
    rcases mem_argsOf ha with rfl | ⟨x, hx, rfl⟩
    · exact .inl rfl
    · exact isOf_of_valuesOf hs
        (fun p hp => List.mem_append_right _ (List.mem_flatMap.mpr ⟨m, hm, hp⟩)) hv x hx

/-- What stands at a place of a call with children is one of them or stands at a place in one. -/
theorem mem_candidates_withChildren {o : Options} {s : Signature} {head : CallHead}
    {chain calls : List Call} (hchain : ∀ l ∈ chain, l.candidates = []) {x : Call}
    (hx : x ∈ (withChildren o s head chain calls).candidates) :
    ∃ k ∈ calls, x = k ∧ x.isCandidate = true ∨ x ∈ k.candidates := by
  have horder {k : Call} (hk : k ∈ Call.order o.categories calls) : k ∈ calls :=
    (orderBy_perm _ _ _).mem_iff.mp hk
  have hnone {l : Call} (hl : l ∈ chain) (hx : x ∈ l.candidates) : False := by
    rw [hchain l hl] at hx
    cases hx
  rcases withChildren_cases o s head chain calls with ⟨-, he⟩ | ⟨-, he⟩ | ⟨-, -, he⟩ <;>
    rw [he, mem_candidates_iff] at hx
  · rcases hx with ⟨hk, -⟩ | ⟨k, hk, -⟩ | ⟨l, hl, hx⟩
    · cases hk
    · cases hk
    · exact (hnone hl hx).elim
  · rcases hx with ⟨hk, -⟩ | ⟨k, hk, -⟩ | ⟨l, hl, hx⟩
    · cases hk
    · cases hk
    · rcases List.mem_append.mp hl with hl | hl
      · exact (hnone hl hx).elim
      · rw [List.mem_singleton.mp hl, mem_candidates_iff] at hx
        rcases hx with ⟨hk, hcand⟩ | ⟨k, hk, hx⟩ | ⟨l, hl, -⟩
        · exact ⟨x, horder hk, .inl ⟨rfl, hcand⟩⟩
        · exact ⟨k, horder hk, .inr hx⟩
        · cases hl
  · rcases hx with ⟨hk, hcand⟩ | ⟨k, hk, hx⟩ | ⟨l, hl, hx⟩
    · exact ⟨x, horder hk, .inl ⟨rfl, hcand⟩⟩
    · exact ⟨k, horder hk, .inr hx⟩
    · exact (hnone hl hx).elim

variable {r : Registry} {o : Options}

mutual

/-- What can be hoisted returns what a builder returns. -/
theorem returnType_of_mem_candidates : (e : Element) → ∀ {path : String} {c : Call},
    (assemble r o path e).outcome = .ok c →
      ∀ x ∈ c.candidates, x.head.returnType ∈ r.signatures.map (·.returnType)
  | ⟨kind, name, enabled, properties, children⟩ => by
    intro h x hx
    obtain ⟨s, -, ⟨-, rfl⟩ | ⟨head, chain, calls, ho, hcalls, rfl⟩⟩ := assemble_eq_ok h
    · rw [candidates_eq] at hx
      cases hx
    · obtain ⟨values, hv, ⟨-, -, hsome⟩ | ⟨-, links, hlinks, hsome⟩⟩ := ownCall_eq_ok ho
      · cases hsome
      · cases hsome
        obtain ⟨k, hk, hx⟩ := mem_candidates_withChildren (fun l hl => by
          obtain ⟨cs, hcs, hl⟩ := List.mem_flatten.mp hl
          obtain ⟨m, -, hm⟩ := exists_of_forall₂ hlinks hcs
          obtain ⟨args, rfl, -⟩ := exists_chained_of_modifierCalls hm hl
          rw [candidates_eq]
          rfl) hx
        exact returnType_of_mem_candidatesAll children hcalls k hk x hx

theorem returnType_of_mem_candidatesAll {s : Signature} : (es : List Element) →
    ∀ {path : String} {calls : List Call}, (assembleAll r o s path es).outcome = .ok calls →
      ∀ k ∈ calls, ∀ x, (x = k ∧ x.isCandidate = true ∨ x ∈ k.candidates) →
        x.head.returnType ∈ r.signatures.map (·.returnType)
  | [] => by
    intro h k hk
    cases h
    cases hk
  | e :: es => by
    intro h k hk x hx
    rcases assembleAll_cons_eq_ok h with ⟨-, h⟩ | ⟨-, -, c, cs, hc, hcs, rfl⟩
    · exact returnType_of_mem_candidatesAll es h k hk x hx
    · rcases List.mem_cons.mp hk with rfl | hk
      · rcases hx with ⟨rfl, hcand⟩ | hx
        · obtain ⟨kind, name, enabled, properties, children⟩ := e
          obtain ⟨t, ht, ⟨-, rfl⟩ | ⟨head, chain, calls, ho, -, rfl⟩⟩ := assemble_eq_ok hc
          · cases hcand
          · obtain ⟨values, -, ⟨-, -, hsome⟩ | ⟨-, links, -, hsome⟩⟩ := ownCall_eq_ok ho
            · cases hsome
            · cases hsome
              rw [head_withChildren]
              exact List.mem_map_of_mem (Registry.resolve?_eq_ok ht).1
        · exact returnType_of_mem_candidates e hc x hx
      · exact returnType_of_mem_candidatesAll es hcs k hk x hx

end

/-- Whether groups are hoisted does not matter to assembly. -/
theorem ownCall_hoisting (o : Options) (b : Bool) (s : Signature) (e : Element) :
    ownCall (o.hoisting b) s e = ownCall o s e := rfl

mutual

theorem assemble_hoisting (b : Bool) : (e : Element) → ∀ (path : String),
    assemble r (o.hoisting b) path e = assemble r o path e
  | ⟨kind, name, enabled, properties, children⟩ => by
    intro path
    unfold assemble
    simp only [ownCall_hoisting, assembleAll_hoisting b children]
    rfl

theorem assembleAll_hoisting (b : Bool) : (es : List Element) → ∀ (s : Signature) (path : String),
    assembleAll r (o.hoisting b) s path es = assembleAll r o s path es
  | [] => fun _ _ => by rw [assembleAll, assembleAll]
  | e :: es => by
    intro s path
    unfold assembleAll
    simp only [assemble_hoisting b e, assembleAll_hoisting b es]
    rfl

end

mutual

theorem resolve_hoisting (b : Bool) : (e : Element) → ∀ (path : String),
    resolve r (o.hoisting b) path e = resolve r o path e
  | ⟨kind, name, enabled, properties, children⟩ => by
    intro path
    unfold resolve
    simp only [resolveAll_hoisting b children]

theorem resolveAll_hoisting (b : Bool) : (es : List Element) → ∀ (path : String),
    resolveAll r (o.hoisting b) path es = resolveAll r o path es
  | [] => fun _ => by rw [resolveAll, resolveAll]
  | e :: es => by
    intro path
    unfold resolveAll
    simp only [resolve_hoisting b e, resolveAll_hoisting b es]
    rfl

end

end Element

/-! ### Requirements -/

theorem CallHead.IsListed.mono {r u : Registry} (hr : r.signatures ⊆ u.signatures) {o : Options}
    {h : CallHead} (hl : h.IsListed r o) : h.IsListed u o := by
  rcases hl with he | ⟨hn, ha⟩
  · exact .inl he
  · refine .inr ⟨?_, fun a hm => ?_⟩
    · cases hn with
      | builder s hs method imports staticImports dependencies =>
        exact .builder s (hr hs) method imports staticImports dependencies
      | link method imports staticImports dependencies =>
        exact .link (method.imp_right fun ⟨s, hs, hm⟩ => ⟨s, hr hs, hm⟩) imports staticImports
          dependencies
    · rcases ha a hm with rfl | ⟨p, hp, v, rfl⟩
      · exact .inl rfl
      · obtain ⟨s, hs, hp⟩ := List.mem_flatMap.mp hp
        exact .inr ⟨p, List.mem_flatMap.mpr ⟨s, hr hs, hp⟩, v, rfl⟩

/-- What calls need is what their heads have, except for those of empty calls. -/
theorem Call.mem_flatMap_written_iff {field : CallHead → List String} {cs : List Call} {x : String} :
    x ∈ cs.flatMap (fun c => c.written.flatMap fun d => field d.head) ↔
      ∃ d ∈ walkAll cs, x ∈ d.head.whenWritten field := by
  constructor
  · intro h
    obtain ⟨c, hc, h⟩ := List.mem_flatMap.mp h
    obtain ⟨d, hd, hx⟩ := List.mem_flatMap.mp h
    obtain ⟨hd, hne⟩ := List.mem_filter.mp hd
    refine ⟨d, mem_walkAll_iff.mpr ⟨c, hc, hd⟩, ?_⟩
    rwa [CallHead.whenWritten, if_neg (by simpa [isEmpty] using hne)]
  · rintro ⟨d, hd, hx⟩
    obtain ⟨c, hc, hd⟩ := mem_walkAll_iff.mp hd
    unfold CallHead.whenWritten at hx
    split_ifs at hx with hne
    · cases hx
    · exact List.mem_flatMap.mpr ⟨c, hc, List.mem_flatMap.mpr
        ⟨d, List.mem_filter.mpr ⟨hd, by simpa [isEmpty] using hne⟩, hx⟩⟩

theorem Helper.returnImport_of_mem {r : Registry}
    (hr : r.signatures ⊆ Registry.standard.signatures) {f : Helper}
    (hf : f.body.head.returnType ∈ r.signatures.map (·.returnType)) :
    f.returnImport = [f.body.head.returnType] := by
  obtain ⟨s, hs, he⟩ := List.mem_map.mp hf
  obtain ⟨hascii, hdot⟩ := Registry.returnType_standard s (hr hs)
  rw [Java.map_toNat_bytes hascii, List.contains_iff_mem, List.mem_map] at hdot
  obtain ⟨c, hc, hcn⟩ := hdot
  obtain rfl := Char.toNat_inj.mp hcn
  rw [returnImport, if_pos]
  rw [← he, List.contains_iff_mem]
  exact hc

/-- What is left of an assembled call needs what the call did, and the return types of the helper
methods. -/
theorem requirements_hoist {r : Registry} (hr : r.signatures ⊆ Registry.standard.signatures)
    {o : Options} {path : String} {e : Element} {root root' : Call} {helpers : List Helper}
    (hroot : (e.assemble r o path).outcome = .ok root)
    (h : root.hoist.outcome = .ok (root', helpers)) :
    (requirements root' helpers).staticImports = (requirements root []).staticImports ∧
      (requirements root' helpers).dependencies = (requirements root []).dependencies ∧
      (requirements root' helpers).imports = Text.sortedDistinct
        ((requirements root []).imports ++ helpers.map (·.body.head.returnType)) := by
  have hlisted : ∀ d ∈ root.walk, d.head.IsListed .standard o :=
    fun d hd => (Element.isListed_assemble hroot d hd).mono hr
  have hplain := Element.plain_assemble hroot
  have hsame (field : CallHead → List String)
      (hown : ∀ name body, (reference name body).head.whenWritten field = [])
      (hu : Uniform (CallHead.whenWritten field) root.walk) (x : String) :
      x ∈ (root' :: helpers.map (·.body)).flatMap
          (fun c => c.written.flatMap fun d => field d.head) ↔
        x ∈ [root].flatMap (fun c => c.written.flatMap fun d => field d.head) := by
    rw [mem_flatMap_written_iff, mem_flatMap_written_iff, (kept_of_hoist hown hplain hu h).1 x,
      collect, List.mem_flatMap, walkAll_cons, walkAll_nil, List.append_nil]
  have himports := hsame CallHead.allImports (fun _ _ => rfl) fun a ha b hb hk =>
    (CallHead.whenWritten_eq_of_sameKey (hlisted a ha) (hlisted b hb) hk).1
  have hstatic := hsame CallHead.staticImports (fun _ _ => rfl) fun a ha b hb hk =>
    (CallHead.whenWritten_eq_of_sameKey (hlisted a ha) (hlisted b hb) hk).2.1
  have hdependencies := hsame CallHead.dependencies (fun _ _ => rfl) fun a ha b hb hk =>
    (CallHead.whenWritten_eq_of_sameKey (hlisted a ha) (hlisted b hb) hk).2.2
  have hreturn : helpers.flatMap returnImport = helpers.map (·.body.head.returnType) := by
    rw [List.map_eq_flatMap]
    refine List.flatMap_congr fun f hf => returnImport_of_mem hr ?_
    have hnothing : Uniform (fun _ => []) root.walk := fun _ _ _ _ _ => rfl
    obtain ⟨y, hy, he⟩ := (kept_of_hoist (fun _ _ => rfl) hplain hnothing h).2 f hf
    exact he ▸ Element.returnType_of_mem_candidates e hroot y hy
  refine ⟨Text.sortedDistinct_eq_of_mem_iff fun x => ?_,
    Text.sortedDistinct_eq_of_mem_iff fun x => ?_, Text.sortedDistinct_eq_of_mem_iff fun x => ?_⟩
  · rw [Text.mem_sortedDistinct, Text.mem_sortedDistinct]
    exact hstatic x
  · rw [Text.mem_sortedDistinct, Text.mem_sortedDistinct]
    exact hdependencies x
  · rw [Text.mem_sortedDistinct, Text.mem_sortedDistinct, List.mem_append, List.mem_append, hreturn,
      requirements, Text.mem_sortedDistinct, List.flatMap_nil, List.append_nil]
    exact or_congr_left (himports x)

/-! ### Conversions -/

/-- The same conversion, but with or without hoisting. -/
def Conversion.hoisting (c : Conversion) (b : Bool) : Conversion :=
  { c with options := c.options.hoisting b }

/-- Whether groups are hoisted changes nothing in the libraries and static imports that a plan needs,
and adds the return types of the helper methods to its imports. -/
theorem requirements_run_hoisting {r : Registry} (hr : r.signatures ⊆ Registry.standard.signatures)
    {o : Options} {c : Conversion} (hc : Conversion.create r o = .ok c) {e : Element}
    {base : String} {g : Generated} (hg : (c.run e base).2.outcome = .ok g) :
    ∃ (root root' : Call) (helpers : List Helper) (off on : Generated),
      (e.assemble r o e.label).outcome = .ok root ∧
      root.hoist.outcome = .ok (root', helpers) ∧
      ((c.hoisting false).run e base).2.outcome = .ok off ∧
      off = .ofCall ⟨o.indent.toList, o.textBlocks⟩ base.toList root [] ∧
      ((c.hoisting true).run e base).2.outcome = .ok on ∧
      on = .ofCall ⟨o.indent.toList, o.textBlocks⟩ base.toList root' helpers ∧
      on.requirements.staticImports = off.requirements.staticImports ∧
      on.requirements.dependencies = off.requirements.dependencies ∧
      on.requirements.imports = Text.sortedDistinct
        (off.requirements.imports ++ helpers.map (·.body.head.returnType)) := by
  obtain rfl := Conversion.create_eq_ok hc
  obtain ⟨hres, root, hroot, hgen⟩ := Conversion.exists_root_of_run hg
  have hcheck : root.check = .ok () := by
    unfold generate at hgen
    rw [Logged.outcome_bind, Logged.outcome_ofExcept] at hgen
    obtain ⟨u, hu, -⟩ := exists_of_bind_eq_ok hgen
    exact hu
  obtain ⟨t, ht⟩ := Hoisting.exists_outcome_run root.candidates.length (.start root)
  have hhoist : root.hoist.outcome = .ok (t.root, t.helpers) := by
    rw [hoist, Logged.outcome_bind, ht]
    rfl
  have hrun (b : Bool) {x : Generated}
      (hx : (root.generate (o.hoisting b) base.toList).outcome = .ok x) :
      ((Conversion.hoisting ⟨r, o, .idle, none⟩ b).run e base).2.outcome = .ok x := by
    refine Conversion.run_of_generate rfl ?_ ?_ hx
    · exact (Element.resolve_hoisting (r := r) (o := o) b e e.label) ▸ hres
    · exact (Element.assemble_hoisting (r := r) (o := o) b e e.label) ▸ hroot
  have hon : (root.generate (o.hoisting true) base.toList).outcome =
      .ok (.ofCall ⟨o.indent.toList, o.textBlocks⟩ base.toList t.root t.helpers) := by
    unfold generate
    rw [Logged.outcome_bind, Logged.outcome_ofExcept, hcheck, ok_bind]
    simp only [Options.hoisting, if_true, Logged.outcome_bind, hhoist, ok_bind]
    rfl
  exact ⟨root, t.root, t.helpers, _, _, hroot, hhoist, hrun false (generate_of_check rfl hcheck), rfl,
    hrun true hon, rfl, requirements_hoist hr hroot hhoist⟩

/-- Two equal groups of a pause become one helper method, whose return type is imported besides. -/
theorem requirements_run_hoisting_pausedGroup :
    let o : Options := {}
    let pause : Element :=
      ⟨"ConstantTimer", none, true, .ofList [("ConstantTimer.delay", "1000")], []⟩
    let group : Element := ⟨"GenericController", some "Log In", true, .empty, [pause]⟩
    let e : Element := ⟨"TestPlan", none, true, .empty, [group, group]⟩
    let c : Conversion := ⟨.standard, o, .idle, none⟩
    (Registry.standard.signatures ⊆ Registry.standard.signatures ∧
      Conversion.create .standard o = .ok c ∧ ∃ g, (c.run e "").2.outcome = .ok g) ∧
      ∃ off on, ((c.hoisting false).run e "").2.outcome = .ok off ∧
        ((c.hoisting true).run e "").2.outcome = .ok on ∧
        on.requirements.staticImports = off.requirements.staticImports ∧
        on.requirements.dependencies = off.requirements.dependencies ∧
        on.requirements.imports = Text.sortedDistinct (off.requirements.imports ++
          [Catalog.corePackage ++ ".controllers.DslSimpleController"]) := by
  intro o pause group e c
  let timer : Call := ⟨Element.ownHead o Catalog.Configuration.constantTimer pause
    [.scalar (.millis "ConstantTimer.delay") (some (.duration 1000))], [], []⟩
  let outer : Call := ⟨Element.ownHead o Catalog.Controller.simpleController group
    [.scalar (.name "Simple Controller") (some (.text "Log In")), .children], [timer], []⟩
  let root : Call :=
    ⟨Element.ownHead o Catalog.Plan.testPlan e [.children], [outer, outer], []⟩
  have hpause : Registry.standard.resolve? pause = .ok Catalog.Configuration.constantTimer :=
    Registry.resolve?_of_first rfl rfl rfl
  have hgroup : Registry.standard.resolve? group = .ok Catalog.Controller.simpleController :=
    Registry.resolve?_of_first rfl rfl rfl
  have he : Registry.standard.resolve? e = .ok Catalog.Plan.testPlan :=
    Registry.resolve?_of_first rfl rfl rfl
  have htimer (path : String) : (pause.assemble .standard o path).outcome = .ok timer :=
    Element.assemble_of_ownCall hpause (by rfl) (by rfl)
  have houter (path : String) : (group.assemble .standard o path).outcome = .ok outer := by
    have horder : Call.order o.categories [timer] = [timer] := List.mergeSort_singleton timer
    rw [Element.assemble_of_ownCall hgroup (by rfl)
      (Element.assembleAll_cons_of_assemble rfl rfl (htimer _) (by rfl))]
    unfold Element.withChildren Element.attach
    rw [horder]
    rfl
  have hroot : (e.assemble .standard o e.label).outcome = .ok root := by
    have horder : Call.order o.categories [outer, outer] = [outer, outer] :=
      List.mergeSort_of_pairwise (by simp)
    rw [Element.assemble_of_ownCall he (by rfl)
      (Element.assembleAll_cons_of_assemble rfl rfl (houter _)
        (Element.assembleAll_cons_of_assemble rfl rfl (houter _) (by rfl)))]
    unfold Element.withChildren Element.attach
    rw [horder]
    rfl
  have hresGroup (path : String) : (group.resolve .standard o path).outcome = .ok () :=
    Element.resolve_of_resolve? hgroup (Element.resolveAll_cons_of_resolve rfl
      (Element.resolve_of_resolve? hpause (by rfl)) (by rfl))
  have hres : (e.resolve .standard o e.label).outcome = .ok () :=
    Element.resolve_of_resolve? he (Element.resolveAll_cons_of_resolve rfl (hresGroup _)
      (Element.resolveAll_cons_of_resolve rfl (hresGroup _) (by rfl)))
  have hcheck : root.check = .ok () := by rfl
  obtain ⟨g, hgen⟩ := Call.exists_generate o [] hcheck
  have hrun : (c.run e "").2.outcome = .ok g := Conversion.run_of_generate rfl hres hroot hgen
  have hc : Conversion.create .standard o = .ok c := rfl
  have hsub := List.Subset.refl Registry.standard.signatures
  have htypes : (root.hoist.outcome.toOption.map fun x => x.2.map (·.body.head.returnType)) =
      some [Catalog.corePackage ++ ".controllers.DslSimpleController"] := by
    decide
  obtain ⟨root₀, root', helpers, off, on, hroot₀, hhoist, hoff, -, hon, -, hs, hd, hi⟩ :=
    requirements_run_hoisting hsub hc hrun
  rw [hroot] at hroot₀
  cases hroot₀
  rw [hhoist] at htypes
  have htypes : helpers.map (·.body.head.returnType) = _ := Option.some.inj htypes
  rw [htypes] at hi
  exact ⟨⟨hsub, hc, g, hrun⟩, off, on, hoff, hon, hs, hd, hi⟩

end FluentPlan
