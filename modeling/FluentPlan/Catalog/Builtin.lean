import FluentPlan.Catalog.Configuration
import FluentPlan.Catalog.Controller
import FluentPlan.Catalog.Http
import FluentPlan.Catalog.Jdbc
import FluentPlan.Catalog.Plan
import FluentPlan.Catalog.Processor
import FluentPlan.Catalog.Registry
import FluentPlan.Catalog.Result
import FluentPlan.Catalog.Sampler

/-!
Plugins, and registries that hold the built-in catalog. A plugin registers signatures when it is
loaded, which may end half-way; each name is loaded once. The JDBC elements are the one plugin that is
installed.
-/

namespace FluentPlan.Catalog

/-- The signatures of the elements that need no protocol. -/
def core : List Signature :=
  Plan.signatures ++ Controller.signatures ++ Sampler.signatures ++ Configuration.signatures ++
    Processor.signatures ++ Result.signatures

end FluentPlan.Catalog

namespace FluentPlan.Registry

/-- The name of the plugin, and the group in which plugins are found. -/
def jdbcPlugin : String := "jdbc"

def pluginGroup : String := "jmdsl.catalog"

/-- Registers the plugin and remembers it. -/
def registerJdbc (r : Registry) : Registry × Option Failure :=
  match r.registerAll Catalog.Jdbc.signatures with
  | (r, none) => (r.markLoaded jdbcPlugin, none)
  | failed => failed

/-- What is found under the name of a plugin: how it changes a registry, and why it ended if it did. -/
structure Plugin where
  name : String
  register : Registry → Registry × Option Failure

/-- Loads plugins one after the other, but those that are loaded already. Comes to the registry
afterwards, and to the names loaded now behind `loaded` or the failure that ended it. -/
def load (r : Registry) (loaded : List String) :
    List Plugin → Registry × Except Failure (List String)
  | [] => (r, .ok loaded)
  | p :: ps =>
    if r.plugins.contains p.name then r.load loaded ps
    else match p.register r with
      | (r, some f) => (r, .error f)
      | (r, none) => (r.markLoaded p.name).load (loaded ++ [p.name]) ps

/-- The plugins that are installed in a group. -/
def installed (group : String) : List Plugin :=
  if group = pluginGroup then [⟨jdbcPlugin, registerJdbc⟩] else []

/-- Loads the plugins of a group. -/
def loadPlugins (r : Registry) (group : String) : Registry × Except Failure (List String) :=
  r.load [] (installed group)

def pluginLine (name : String) : LogLine := ⟨.registry, false, "loaded catalog plugin " ++ name⟩

/-- A new registry with the built-in catalog and, if asked for, the plugins. -/
def build (categories : List String) (plugins : Bool) : Logged Registry :=
  match (empty categories).registerAll (Catalog.core ++ Catalog.Http.signatures) with
  | (_, some e) => .fail e
  | (r, none) =>
    if plugins then
      match r.loadPlugins pluginGroup with
      | (r, .ok names) => ⟨.ok r, names.map pluginLine⟩
      | (_, .error e) => .fail e
    else pure r

/-- The signatures of the default registry. -/
def defaultSignatures : List Signature :=
  Catalog.core ++ Catalog.Http.signatures ++ Catalog.Jdbc.signatures

/-- The registry that is used unless options ask for another one. Its catalog has signatures for one
kind of element together, and those of one method. -/
def standard : Registry where
  categories := defaultCategories
  kinds := ⟨SignatureIndex.runs Signature.kind defaultSignatures, by decide, by decide⟩
  methods := ⟨SignatureIndex.runs Signature.method defaultSignatures, by decide, by decide⟩
  plugins := [jdbcPlugin]
  sealed := false

/-- The line that building the default registry logs. -/
def standardLog : List LogLine := [pluginLine jdbcPlugin]

set_option maxRecDepth 2000 in
/-- The default registry is what registering the whole catalog comes to. -/
theorem build_default : build defaultCategories true = ⟨.ok standard, standardLog⟩ := rfl

/-- Both indexes of the default registry hold the catalog. -/
theorem signatures_standard : standard.signatures = defaultSignatures ∧
    standard.methods.signatures = defaultSignatures := ⟨rfl, rfl⟩

theorem mem_forMethod {method : String} {s : Signature} :
    s ∈ standard.forMethod method ↔ s ∈ standard.signatures ∧ s.method = method := by
  rw [forMethod, SignatureIndex.mem_get, signatures_standard.1, signatures_standard.2]

theorem signatures_markLoaded (r : Registry) (name : String) :
    (r.markLoaded name).signatures = r.signatures := by
  unfold markLoaded
  split <;> rfl

theorem signatures_registerJdbc_subset (r : Registry) :
    r.registerJdbc.1.signatures ⊆ r.signatures ++ Catalog.Jdbc.signatures := by
  have hall := signatures_registerAll_subset r Catalog.Jdbc.signatures
  unfold registerJdbc
  split
  · next r' hr =>
    rw [hr] at hall
    exact signatures_markLoaded r' jdbcPlugin ▸ hall
  · exact hall

theorem signatures_loadPlugins_subset (r : Registry) (group : String) :
    (r.loadPlugins group).1.signatures ⊆ r.signatures ++ Catalog.Jdbc.signatures := by
  have hjdbc := signatures_registerJdbc_subset r
  have hnone : r.signatures ⊆ r.signatures ++ Catalog.Jdbc.signatures :=
    List.subset_append_left _ _
  unfold loadPlugins installed
  split
  · simp only [load]
    split
    · exact hnone
    · split <;> next hr =>
        rw [hr] at hjdbc
        simpa only [signatures_markLoaded] using hjdbc
  · exact hnone

/-- Whatever categories and plugins are asked for, a registry has only signatures of the catalog. -/
theorem signatures_build_subset {categories : List String} {plugins : Bool} {r : Registry}
    (h : (build categories plugins).outcome = .ok r) : r.signatures ⊆ defaultSignatures := by
  have hcore := signatures_registerAll_subset (empty categories)
    (Catalog.core ++ Catalog.Http.signatures)
  unfold build at h
  split at h
  · cases h
  · next r' hr =>
    rw [hr] at hcore
    have hcore : r'.signatures ⊆ Catalog.core ++ Catalog.Http.signatures := hcore
    split at h
    · have hload := signatures_loadPlugins_subset r' pluginGroup
      split at h
      · next r'' names hl =>
        cases h
        rw [hl] at hload
        exact List.Subset.trans hload (List.append_subset.mpr
          ⟨fun s hs => List.mem_append_left _ (hcore hs), List.subset_append_right _ _⟩)
      · cases h
    · cases h
      exact fun s hs => List.mem_append_left _ (hcore hs)

end FluentPlan.Registry
