import FluentPlan.Proofs.Code.Disabled
import FluentPlan.Proofs.Registration.History

/-!
Registries that options ask for. They have a history like any other, so a conversion that was created
with one ranks the categories of all signatures that it can find.
-/

namespace FluentPlan

namespace Registry

theorem runs_registerJdbc (r : Registry) :
    Runs r (r.addedAll Catalog.Jdbc.signatures) r.registerJdbc.1 := by
  have hall : Runs r (r.addedAll Catalog.Jdbc.signatures)
      (r.registerAll Catalog.Jdbc.signatures).1 := (Runs.refl r).registerAll Catalog.Jdbc.signatures
  unfold registerJdbc
  split
  · next u hu =>
    rw [hu] at hall
    exact hall.markLoaded jdbcPlugin
  · exact hall

theorem exists_runs_of_build {categories : List String} {plugins : Bool} {r : Registry}
    (h : (build categories plugins).outcome = .ok r) : ∃ L, Runs (empty categories) L r := by
  have hcore := (Runs.refl (empty categories)).registerAll (Catalog.core ++ Catalog.Http.signatures)
  unfold build at h
  split at h
  · cases h
  · next u hu =>
    rw [hu] at hcore
    split at h
    · let adds (_ : Plugin) (v : Registry) : List Signature := v.addedAll Catalog.Jdbc.signatures
      have hinstalled : ∀ p ∈ installed pluginGroup, ∀ v, Runs v (adds p v) (p.register v).1 := by
        intro p hp v
        obtain rfl : p = ⟨jdbcPlugin, registerJdbc⟩ := by simpa [installed] using hp
        exact runs_registerJdbc v
      have hload := hcore.load [] (installed pluginGroup) adds hinstalled
      split at h
      · next v names hv =>
        cases h
        rw [loadPlugins] at hv
        rw [hv] at hload
        exact ⟨_, hload⟩
      · cases h
    · cases h
      exact ⟨_, hcore⟩

/-- A signature is found under a category of its registry. -/
theorem Holds.category_mem {r : Registry} {L : List Signature} (h : r.Holds L) {s : Signature}
    (hs : s ∈ r.signatures) : s.category ∈ r.categories := by
  have hk : s ∈ r.forKind s.kind := mem_forKind.mpr ⟨hs, rfl⟩
  rw [h.forKind] at hk
  exact (h.known s (List.mem_filter.mp hk).1).1

theorem exists_holds_of_build {categories : List String} {plugins : Bool} {r : Registry}
    (h : (build categories plugins).outcome = .ok r) : ∃ L, r.Holds L := by
  obtain ⟨L, hruns⟩ := exists_runs_of_build h
  exact ⟨L, (holds_of_runs hruns).1⟩

theorem exists_holds_standard : ∃ L, standard.Holds L :=
  exists_holds_of_build (congrArg Logged.outcome build_default)

end Registry

namespace Conversion

theorem exists_holds_of_registryFor {o : Options} {r : Registry}
    (h : (registryFor o).outcome = .ok r) : ∃ L, r.Holds L := by
  unfold registryFor at h
  split at h
  · cases h
    exact Registry.exists_holds_standard
  · exact Registry.exists_holds_of_build h

/-- A conversion ranks the categories of its registry. -/
theorem mem_categories_of_create {r : Registry} {o : Options} {c : Conversion}
    (h : create r o = .ok c) {category : String} (hm : category ∈ r.categories) :
    category ∈ o.categories := by
  unfold create at h
  split at h
  · next hnone => simpa using List.filter_eq_nil_iff.mp hnone category hm
  · cases h

/-- A conversion with the catalog has not run, and ranks the category of every signature. -/
theorem ranks_catalog {o : Options} {c : Conversion}
    (h : (ofOptions o).outcome = .ok c ∨ create .standard o = .ok c) :
    c.phase = .idle ∧ ∀ s ∈ c.registry.signatures, s.category ∈ c.options.categories := by
  obtain ⟨r, L, hr, hc⟩ : ∃ r L, Registry.Holds r L ∧ create r o = .ok c := by
    rcases h with h | h
    · obtain ⟨r, hreg, hc⟩ := ofOptions_eq_ok h
      obtain ⟨L, hr⟩ := exists_holds_of_registryFor hreg
      exact ⟨r, L, hr, hc⟩
    · obtain ⟨L, hr⟩ := Registry.exists_holds_standard
      exact ⟨_, L, hr, h⟩
  obtain rfl := create_eq_ok hc
  exact ⟨rfl, fun s hs => mem_categories_of_create hc (hr.category_mem hs)⟩

end Conversion

end FluentPlan
