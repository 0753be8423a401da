import FluentPlan.Catalog.Index
import FluentPlan.Element
import FluentPlan.Log

/-!
Registries of signatures. A registry finds the signatures for one kind of element, and those of one
method, in the order of their registration: it keeps an index by kind and one by method. The first
resolution seals it.
-/

namespace FluentPlan

/-- The categories by which children are ordered, unless options say otherwise. -/
def defaultCategories : List String :=
  ["variables", "config", "preprocessor", "timer", "executable", "postprocessor", "assertion",
    "listener"]

structure Registry where
  categories : List String
  kinds : SignatureIndex Signature.kind
  methods : SignatureIndex Signature.method
  plugins : List String
  sealed : Bool
deriving Inhabited

namespace Registry

def empty (categories : List String) : Registry := ⟨categories, .empty, .empty, [], false⟩

/-- The signatures for a kind of element. -/
def forKind (r : Registry) (kind : String) : List Signature := r.kinds.get kind

/-- The signatures of a method. -/
def forMethod (r : Registry) (method : String) : List Signature := r.methods.get method

/-- All signatures, those for one kind of element together. -/
def signatures (r : Registry) : List Signature := r.kinds.signatures

def size (r : Registry) : Nat := r.kinds.size

def contains (r : Registry) (kind : String) : Bool := r.kinds.has kind

/-- The rank of a category. -/
def categoryRank (r : Registry) (category : String) : Except Failure Nat :=
  match r.categories.idxOf? category with
  | some i => .ok i
  | none => .error (.fault .unrankedCategory)

/-- Whether two signatures for one kind accept under the same conditions. -/
def collides (a b : Signature) : Bool := a.guard = b.guard && a.requiredKeys = b.requiredKeys

/-- What an attempt to register a signature leaves, and why it failed if it did. The kind gets its
place in the index before the signatures that are there are looked at. -/
def enroll (r : Registry) (s : Signature) : Registry × Option Failure :=
  if r.sealed then (r, some (.report (.registration s.method .sealed)))
  else if !r.categories.contains s.category then
    (r, some (.report (.registration s.method (.unknownCategory s.category))))
  else if !childrenModes.contains s.childrenMode then
    (r, some (.report (.registration s.method (.unknownMode s.childrenMode))))
  else
    let kinds := r.kinds.touch s.kind
    match (kinds.get s.kind).find? fun e => collides e s with
    | some e => ({ r with kinds := kinds }, some (.report (.ambiguous s.method e.method s.kind)))
    | none => ({ r with kinds := kinds.add s, methods := r.methods.add s }, none)

/-- Adds a signature at the end. -/
def register (r : Registry) (s : Signature) : Except Failure Registry :=
  match r.enroll s with
  | (r, none) => .ok r
  | (_, some f) => .error f

/-- Adds signatures one after the other. Those before the first that fails stay. -/
def registerAll (r : Registry) : List Signature → Registry × Option Failure
  | [] => (r, none)
  | s :: ss =>
    match r.enroll s with
    | (r, none) => r.registerAll ss
    | (r, some f) => (r, some f)

def markLoaded (r : Registry) (plugin : String) : Registry :=
  if r.plugins.contains plugin then r else { r with plugins := r.plugins ++ [plugin] }

/-- Ends registration. -/
def close (r : Registry) : Registry := { r with sealed := true }

/-- The line that the first sealing logs. -/
def closeLog (r : Registry) : List LogLine :=
  if r.sealed then []
  else [⟨.registry, false, "registry sealed with " ++ toString r.size ++ " signatures"⟩]

/-- The first signature that accepts the properties, or the first reason against one. -/
def choose (props : Properties) : (reason : Option String) → List Signature →
    Except (Option String) Signature
  | reason, [] => .error reason
  | reason, s :: ss =>
    match s.unmet? props with
    | none => .ok s
    | some key => choose props (reason.filter (fun k => !k.isEmpty) <|> some key) ss

/-- The signature that reconstructs an element. -/
def resolve? (r : Registry) (e : Element) : Except Failure Signature :=
  let refuse (p : ResolutionProblem) : Except Failure Signature :=
    .error (.report (.unsupported e.kind p))
  match r.forKind e.kind with
  | [] => refuse .unregistered
  | ss =>
    match choose e.properties none ss with
    | .ok s => .ok s
    | .error none => refuse .refused
    | .error (some key) =>
      match e.properties.get? key with
      | none => refuse (.missing key)
      | some v => refuse (.valued key v)

/-- The signature that reconstructs an element, with the lines that its resolution logs. -/
def resolve (r : Registry) (e : Element) : Logged Signature :=
  match r.resolve? e with
  | .error f => .fail f
  | .ok s => do
    Logged.debug .registry ("resolved " ++ e.kind ++ " to " ++ s.method)
    return s

/-- Asks a registry for the signature of an element. That ends registration, whatever the answer. -/
def ask (r : Registry) (e : Element) : Registry × Logged Signature :=
  (r.close, ⟨(r.resolve e).outcome, r.closeLog ++ (r.resolve e).log⟩)

@[simp] theorem outcome_resolve (r : Registry) (e : Element) :
    (r.resolve e).outcome = r.resolve? e := by
  unfold resolve
  cases r.resolve? e with
  | error f => rfl
  | ok s => rfl

@[simp] theorem sealed_close (r : Registry) : r.close.sealed = true := rfl

@[simp] theorem signatures_close (r : Registry) : r.close.signatures = r.signatures := rfl

/-! ### What registration keeps -/

theorem mem_forKind {r : Registry} {kind : String} {s : Signature} :
    s ∈ r.forKind kind ↔ s ∈ r.signatures ∧ s.kind = kind := SignatureIndex.mem_get

/-- A registration fails and leaves the registry as it was, or the signature was to be added and is
then in both indexes. -/
theorem enroll_cases (r : Registry) (s : Signature) :
    (∃ f, r.enroll s = (r, some f)) ∨
      (r.enroll s = ({ r with kinds := (r.kinds.touch s.kind).add s, methods := r.methods.add s }, none) ∧
        r.sealed = false ∧ s.category ∈ r.categories ∧ s.childrenMode ∈ childrenModes ∧
        ∀ e ∈ r.forKind s.kind, collides e s = false) := by
  unfold enroll
  split
  · exact .inl ⟨_, rfl⟩
  · next hsealed =>
    split
    · exact .inl ⟨_, rfl⟩
    · next hcat =>
      split
      · exact .inl ⟨_, rfl⟩
      · next hmode =>
        dsimp only
        split
        · next e hf =>
          -- a signature that collides has the kind, so the kind had its place before
          have hm := List.mem_of_find?_eq_some hf
          rw [SignatureIndex.get_touch] at hm
          rw [SignatureIndex.touch_of_has (SignatureIndex.has_of_mem_get hm)]
          exact .inl ⟨_, rfl⟩
        · next hf =>
          rw [SignatureIndex.get_touch] at hf
          refine .inr ⟨rfl, by simpa using hsealed, by simpa using hcat, by simpa using hmode, ?_⟩
          exact fun e he => by simpa using List.find?_eq_none.1 hf e he

/-- A registration that fails leaves the registry as it was. -/
theorem enroll_of_failure {r : Registry} {s : Signature} {f : Failure} (h : (r.enroll s).2 = some f) :
    (r.enroll s).1 = r := by
  rcases enroll_cases r s with ⟨g, hg⟩ | ⟨hok, -⟩
  · rw [hg]
  · rw [hok] at h
    cases h

theorem mem_signatures_enroll {r : Registry} {s t : Signature} (h : t ∈ (r.enroll s).1.signatures) :
    t = s ∨ t ∈ r.signatures := by
  rcases enroll_cases r s with ⟨f, hf⟩ | ⟨hok, -⟩
  · exact .inr (by rwa [hf] at h)
  · rw [hok] at h
    refine (SignatureIndex.mem_signatures_add.1 h).imp id fun h => ?_
    have hk : t ∈ (r.kinds.touch s.kind).get t.kind := SignatureIndex.mem_get.2 ⟨h, rfl⟩
    rw [SignatureIndex.get_touch] at hk
    exact (SignatureIndex.mem_get.1 hk).1

/-- Registration adds only what is to be registered. -/
theorem signatures_registerAll_subset (r : Registry) (ss : List Signature) :
    (r.registerAll ss).1.signatures ⊆ r.signatures ++ ss := by
  have henroll (r : Registry) (s : Signature) (ss : List Signature) :
      (r.enroll s).1.signatures ⊆ r.signatures ++ s :: ss := fun t ht =>
    (mem_signatures_enroll ht).elim (fun h => by simp [h]) fun h => List.mem_append_left _ h
  induction ss generalizing r with
  | nil => simp [registerAll]
  | cons s ss ih =>
    have hfirst := henroll r s ss
    unfold registerAll
    cases ha : r.enroll s with
    | mk r' f =>
      rw [ha] at hfirst
      cases f with
      | some f => exact hfirst
      | none =>
        intro t ht
        rcases List.mem_append.1 (ih r' ht) with h | h
        · exact hfirst h
        · exact List.mem_append_right _ (List.mem_cons_of_mem s h)

end Registry

end FluentPlan
