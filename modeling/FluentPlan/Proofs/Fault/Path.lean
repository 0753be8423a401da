import FluentPlan.Conversion
import FluentPlan.Proofs.Assembly.Children
import FluentPlan.Proofs.Assembly.Site
import FluentPlan.Proofs.Fault.Misread
import FluentPlan.Proofs.Hoisting.Run

/-!
Which path a problem has. Resolution goes through the elements that are not left out and names the first
that no signature accepts. Assembly goes through those of them that are not below an element without
effect, and names the first that cannot be read or that stands where no children may. Whatever else
happens in a conversion is never a problem.
-/

namespace FluentPlan

open Element

namespace Site

/-- The element is left out, by itself or with one above it. The root of a plan never is. -/
def IsDropped (o : Options) (q : Site) : Prop :=
  ∃ a ∈ (q.element :: q.above).dropLast, o.drops a = true

/-- The element stands below one that renders as an empty call. -/
def IsSilenced (r : Registry) (q : Site) : Prop :=
  ∃ a ∈ q.above, ∃ s, r.resolve? a = .ok s ∧ s.IsIdle a

/-- No signature accepts the element. -/
def IsUnsupported (r : Registry) (q : Site) : Prop :=
  ∀ s ∈ r.signatures, s.kind = q.element.kind → s.unmet? q.element.properties ≠ none

/-- The signature of the element reads a raw text that is no value. -/
def IsUnreadable (r : Registry) (q : Site) : Prop :=
  ∃ s p lead, r.resolve? q.element = .ok s ∧ s.Reads q.element p lead ∧ p.Refuses q.element lead

/-- The element is a child of one that takes no children. -/
def IsUnwelcome (r : Registry) (q : Site) : Prop :=
  ∃ a s, q.above.head? = some a ∧ r.resolve? a = .ok s ∧ s.acceptsChildren = false

/-- What is at fault in resolution. -/
def FailsToResolve (r : Registry) (o : Options) (q : Site) : Prop :=
  ¬ q.IsDropped o ∧ q.IsUnsupported r

/-- What is at fault in assembly. -/
def FailsToAssemble (r : Registry) (o : Options) (q : Site) : Prop :=
  ¬ q.IsDropped o ∧ ¬ q.IsSilenced r ∧ (q.IsUnreadable r ∨ q.IsUnwelcome r)

variable {r : Registry} {o : Options}

/-- What is below an element that is left out is left out, if that is not the root. -/
theorem isDropped_of_above {q : Site} {between above : List Element} {e : Element}
    (h : q.element :: q.above = between ++ e :: above) (hne : above ≠ []) (hd : o.drops e = true) :
    q.IsDropped o := by
  refine ⟨e, ?_, hd⟩
  rw [h, List.dropLast_append_cons]
  exact List.mem_append_right _ (by rw [List.dropLast_cons_of_ne_nil hne]; exact List.mem_cons_self)

theorem not_isDropped {q : Site} (h : ∀ a ∈ (q.element :: q.above).dropLast, o.drops a = false) :
    ¬ q.IsDropped o := by
  rintro ⟨a, ha, hd⟩
  rw [h a ha] at hd
  cases hd

end Site

namespace Registry

theorem choose_eq_error {props : Properties} {reason x : Option String} {ss : List Signature}
    (h : choose props reason ss = .error x) : ∀ s ∈ ss, s.unmet? props ≠ none := by
  induction ss generalizing reason with
  | nil => exact List.forall_mem_nil _
  | cons t ss ih =>
    unfold choose at h
    cases ht : t.unmet? props with
    | none =>
      rw [ht] at h
      cases h
    | some key =>
      rw [ht] at h
      intro s hs
      rcases List.mem_cons.mp hs with rfl | hs
      · rw [ht]
        exact Option.some_ne_none key
      · exact ih h s hs

/-- An element without a signature is reported, and no signature accepts it. -/
theorem resolve?_eq_error {r : Registry} {e : Element} {f : Failure} (h : r.resolve? e = .error f) :
    (∃ p, f = .report p) ∧
      ∀ s ∈ r.signatures, s.kind = e.kind → s.unmet? e.properties ≠ none := by
  have hkind {s : Signature} (hs : s ∈ r.signatures) (hk : s.kind = e.kind) : s ∈ r.forKind e.kind :=
    mem_forKind.mpr ⟨hs, hk⟩
  unfold resolve? at h
  split at h
  · next hno =>
    cases h
    exact ⟨⟨_, rfl⟩, fun s hs hk => absurd (hno ▸ hkind hs hk) List.not_mem_nil⟩
  · next ss hne =>
    split at h
    · cases h
    · next hc =>
      cases h
      exact ⟨⟨_, rfl⟩, fun s hs hk => choose_eq_error hc s (hkind hs hk)⟩
    · next key hc =>
      have hall : ∀ s ∈ r.signatures, s.kind = e.kind → s.unmet? e.properties ≠ none :=
        fun s hs hk => choose_eq_error hc s (hkind hs hk)
      split at h <;> cases h <;> exact ⟨⟨_, rfl⟩, hall⟩

/-- A signature that is found accepts the element. -/
theorem exists_accepts_of_resolve? {r : Registry} {e : Element} {s : Signature}
    (h : r.resolve? e = .ok s) :
    ¬ ∀ t ∈ r.signatures, t.kind = e.kind → t.unmet? e.properties ≠ none := by
  obtain ⟨hs, hk, hu⟩ := resolve?_eq_ok h
  exact fun hall => hall s hs hk hu

/-- An element with a signature has a label, if no signature is for the empty kind. -/
theorem label_ne_of_resolve? {r : Registry} {e : Element} {s : Signature}
    (hk : e.kind = "" → r.forKind "" = []) (h : r.resolve? e = .ok s) : e.label ≠ "" := by
  intro hno
  have hempty : e.kind = "" := kind_of_label_eq_empty hno
  obtain ⟨hs, hkind, -⟩ := resolve?_eq_ok h
  have hm : s ∈ r.forKind e.kind := mem_forKind.mpr ⟨hs, hkind⟩
  rw [hempty, hk hempty] at hm
  exact absurd hm List.not_mem_nil

end Registry

namespace Element

theorem childPath_eq {path : String} (hp : path ≠ "") (e : Element) :
    childPath path e = pathUnder path e.label := by
  rw [pathUnder, if_neg (by simpa using hp), childPath]

theorem pathUnder_ne_empty {path : String} (hp : path ≠ "") (label : String) :
    pathUnder path label ≠ "" := by
  rw [pathUnder, if_neg (by simpa using hp)]
  simp

theorem pathUnder_empty (label : String) : pathUnder "" label = label := by simp [pathUnder]

variable {r : Registry} {o : Options}

/-! ### Resolution -/

theorem assemble_of_ownCall_error {path : String} {e : Element} {s : Signature}
    (hs : r.resolve? e = .ok s) {f : Failure} (ho : ownCall o s e = .error f) :
    (assemble r o path e).outcome = .error (f.withPath path) := by
  cases e
  unfold assemble
  simp only [Logged.outcome_mapFailure, Logged.outcome_bind, Logged.outcome_ofExcept, hs, ok_bind, ho]
  rfl

theorem assemble_of_assembleAll_error {path : String} {e : Element} {s : Signature}
    (hs : r.resolve? e = .ok s) {own : CallHead × List Call} (ho : ownCall o s e = .ok (some own))
    {f : Failure} (hc : (assembleAll r o s path e.children).outcome = .error f) :
    (assemble r o path e).outcome = .error (f.withPath path) := by
  cases e
  unfold assemble
  simp only [Logged.outcome_mapFailure, Logged.outcome_bind, Logged.outcome_ofExcept, hs, ok_bind, ho,
    hc]
  rfl

theorem mem_dropLast_cons {a : Element} {above : List Element} (hne : above ≠ []) {b : Element} :
    b ∈ (a :: above).dropLast ↔ b = a ∨ b ∈ above.dropLast := by
  rw [List.dropLast_cons_of_ne_nil hne, List.mem_cons]

mutual

/-- Resolution reports the first element that no signature accepts. -/
theorem reports_resolve : (e : Element) → ∀ {parent : String} {above : List Element},
    pathUnder parent e.label ≠ "" → (∀ a ∈ (e :: above).dropLast, o.drops a = false) →
    Reports (Site.FailsToResolve r o) (e.sitesBelow parent above)
      (resolve r o (pathUnder parent e.label) e).outcome
  | ⟨kind, name, enabled, properties, children⟩, parent, above, hp, hlive => by
    let e : Element := ⟨kind, name, enabled, properties, children⟩
    have hkept : ¬ Site.IsDropped o ⟨pathUnder parent e.label, above, e⟩ :=
      Site.not_isDropped hlive
    unfold resolve
    rw [sitesBelow]
    simp only [Logged.outcome_bind, Logged.outcome_mapFailure, Registry.outcome_resolve]
    cases hs : r.resolve? e with
    | error f =>
      obtain ⟨⟨p, rfl⟩, hall⟩ := Registry.resolve?_eq_error hs
      exact .first ⟨hkept, hall⟩ p
    | ok s =>
      refine .cons (fun hfail => Registry.exists_accepts_of_resolve? hs hfail.2) ?_
      exact reports_resolveAll children hp (List.cons_ne_nil _ _) hlive

theorem reports_resolveAll : (es : List Element) → ∀ {path : String} {above : List Element},
    path ≠ "" → above ≠ [] → (∀ a ∈ above.dropLast, o.drops a = false) →
    Reports (Site.FailsToResolve r o) (sitesAll path above es) (resolveAll r o path es).outcome
  | [], path, above, _, _, _ => by
    rw [sitesAll]
    exact .ok (fun q hq => absurd hq List.not_mem_nil) ()
  | e :: es, path, above, hp, hne, hlive => by
    rw [sitesAll]
    cases hd : o.drops e with
    | true =>
      rw [resolveAll_cons_of_drops hd]
      refine .skip (fun q hq hfail => ?_) (reports_resolveAll es hp hne hlive)
      obtain ⟨between, hb⟩ := above_of_mem_sitesBelow e hq
      exact hfail.1 (Site.isDropped_of_above hb hne hd)
    | false =>
      unfold resolveAll
      simp only [hd, Bool.false_eq_true, if_false, Logged.outcome_bind]
      rw [childPath_eq hp]
      refine .bind (reports_resolve e (pathUnder_ne_empty hp _) fun a ha => ?_) fun _ _ =>
        reports_resolveAll es hp hne hlive
      rcases (mem_dropLast_cons hne).mp ha with rfl | ha
      · exact hd
      · exact hlive a ha

end

/-! ### Assembly -/

mutual

/-- Assembly of a plan that is resolved reports the first element that cannot be read or that stands
where no children may, of those that are not below one without effect. -/
theorem reports_assemble : (e : Element) → ∀ {parent : String} {above : List Element},
    pathUnder parent e.label ≠ "" → (∀ a ∈ (e :: above).dropLast, o.drops a = false) →
    ¬ Site.IsSilenced r ⟨pathUnder parent e.label, above, e⟩ →
    ¬ Site.IsUnwelcome r ⟨pathUnder parent e.label, above, e⟩ →
    (∃ path, (resolve r o path e).outcome = .ok ()) →
    Reports (Site.FailsToAssemble r o) (e.sitesBelow parent above)
      (assemble r o (pathUnder parent e.label) e).outcome
  | ⟨kind, name, enabled, properties, children⟩, parent, above, hp, hlive, hheard, hwelcome, hres => by
    let e : Element := ⟨kind, name, enabled, properties, children⟩
    have hkept : ¬ Site.IsDropped o ⟨pathUnder parent e.label, above, e⟩ :=
      Site.not_isDropped hlive
    obtain ⟨path, hres⟩ := hres
    obtain ⟨s, hs, hchildren⟩ := resolve_eq_ok hres
    have hread {own : Option (CallHead × List Call)} (ho : ownCall o s e = .ok own) :
        ¬ Site.FailsToAssemble r o ⟨pathUnder parent e.label, above, e⟩ := by
      rintro ⟨-, -, ⟨t, p, lead, ht, hr, hrefuses⟩ | hno⟩
      · cases hs.symm.trans ht
        exact not_refuses_of_ownCall ho hr hrefuses
      · exact hwelcome hno
    rw [sitesBelow]
    unfold assemble
    simp only [Logged.outcome_mapFailure, Logged.outcome_bind, Logged.outcome_ofExcept, hs, ok_bind]
    cases ho : ownCall o s e with
    | error f =>
      cases f with
      | fault f => exact .fault f
      | problem p path =>
        obtain ⟨rfl, q, lead, hr, hrefuses⟩ := refuses_of_ownCall ho
        exact .first ⟨hkept, hheard, .inl ⟨s, q, lead, hs, hr, hrefuses⟩⟩ p
    | ok own =>
      refine .cons (hread ho) ?_
      cases own with
      | none =>
        refine .ok (fun q hq hfail => hfail.2.1 ?_) _
        exact ⟨e, mem_above_of_mem_sitesAll hq, s, hs, isIdle_of_ownCall ho⟩
      | some own =>
        have hall := reports_assembleAll children hp hs (not_isIdle_of_ownCall ho) hlive hheard
          ⟨_, hchildren⟩
        simp only [ok_bind, Logged.outcome_bind]
        refine .withPath (.map hall _ fun calls => ?_) _
        split <;> exact ⟨_, rfl⟩

theorem reports_assembleAll : (es : List Element) → ∀ {path : String} {a : Element}
    {above : List Element} {s : Signature}, path ≠ "" → r.resolve? a = .ok s → ¬ s.IsIdle a →
    (∀ b ∈ (a :: above).dropLast, o.drops b = false) →
    (¬ ∃ b ∈ above, ∃ t, r.resolve? b = .ok t ∧ t.IsIdle b) →
    (∃ path, (resolveAll r o path es).outcome = .ok ()) →
    Reports (Site.FailsToAssemble r o) (sitesAll path (a :: above) es)
      (assembleAll r o s path es).outcome
  | [], path, a, above, s, _, _, _, _, _, _ => by
    rw [sitesAll]
    exact .ok (fun q hq => absurd hq List.not_mem_nil) []
  | e :: es, path, a, above, s, hp, hs, hi, hlive, hheard, hres => by
    have hne : a :: above ≠ [] := List.cons_ne_nil _ _
    obtain ⟨path', hres⟩ := hres
    obtain ⟨he, hes⟩ := resolveAll_cons_eq_ok hres
    have hrest := reports_assembleAll es hp hs hi hlive hheard ⟨path', hes⟩
    rw [sitesAll]
    cases hd : o.drops e with
    | true =>
      rw [assembleAll_cons_of_drops hd]
      refine .skip (fun q hq hfail => ?_) hrest
      obtain ⟨between, hb⟩ := above_of_mem_sitesBelow e hq
      exact hfail.1 (Site.isDropped_of_above hb hne hd)
    | false =>
      have hlive' : ∀ b ∈ (e :: a :: above).dropLast, o.drops b = false := by
        intro b hb
        rcases (mem_dropLast_cons hne).mp hb with rfl | hb
        · exact hd
        · exact hlive b hb
      have hheard' : ¬ Site.IsSilenced r ⟨pathUnder path e.label, a :: above, e⟩ := by
        rintro ⟨b, hb, t, ht, hidle⟩
        rcases List.mem_cons.mp hb with rfl | hb
        · cases hs.symm.trans ht
          exact hi hidle
        · exact hheard ⟨b, hb, t, ht, hidle⟩
      unfold assembleAll
      rw [if_neg (by simp [hd]), childPath_eq hp]
      cases ha : s.acceptsChildren with
      | false =>
        rw [sitesBelow_eq]
        exact .first ⟨Site.not_isDropped hlive', hheard', .inr ⟨a, s, rfl, hs, ha⟩⟩ _
      | true =>
        simp only [Bool.not_true, Bool.false_eq_true, if_false, Logged.outcome_bind]
        refine .bind (reports_assemble e (pathUnder_ne_empty hp _) hlive' hheard' ?_ ⟨_, he hd⟩)
          fun c _ => .map hrest _ fun cs => ⟨_, rfl⟩
        rintro ⟨b, t, hb, ht, hno⟩
        cases hb
        cases hs.symm.trans ht
        rw [ha] at hno
        cases hno

end

end Element

/-! ### Conversions -/

/-- Code is never refused with a problem. -/
theorem Call.unreported_generate (root : Call) (o : Options) (indent : List Char) :
    Unreported (root.generate o indent).outcome := by
  have hcheck : Unreported root.check := by
    refine .forM fun c _ => .forM fun a _ => ?_
    cases a with
    | children => exact .ok ()
    | scalar p v =>
      simp only [Arg.check]
      split
      · exact .ok ()
      · exact (Param.unreported_isDefault? p v).map _
  obtain ⟨t, ht⟩ := Helper.Hoisting.exists_outcome_run root.candidates.length (.start root)
  have hhoist : root.hoist.outcome = .ok (t.root, t.helpers) := by
    rw [hoist, Logged.outcome_bind, ht]
    rfl
  unfold generate
  rw [Logged.outcome_bind, Logged.outcome_ofExcept]
  refine hcheck.bind fun _ _ => ?_
  cases o.hoist with
  | false => exact .ok _
  | true =>
    simp only [if_true, Logged.outcome_bind, hhoist, ok_bind]
    exact .ok _

namespace Conversion

/-- What a conversion fails with is what one of its steps failed with. -/
theorem run_eq_problem {c : Conversion} {e : Element} {base : String} {p : Problem}
    {path : Option String} (h : (c.run e base).2.outcome = .error (.problem p path)) :
    (e.resolve c.registry c.options e.label).outcome = .error (.problem p path) ∨
      ((e.resolve c.registry c.options e.label).outcome = .ok () ∧
        (e.assemble c.registry c.options e.label).outcome = .error (.problem p path)) := by
  have hstop {d : Conversion} {phase : Phase} {f : Failure} {log : List LogLine} :
      (d.stop phase f log).2.outcome = .error f := by
    cases f <;> rfl
  unfold run at h
  split_ifs at h with hidle
  · cases h
  · simp only at h
    split at h
    · next f hr =>
      rw [hstop] at h
      cases h
      exact .inl hr
    · next hr =>
      split at h
      · next f ha =>
        rw [hstop] at h
        cases h
        exact .inr ⟨hr, ha⟩
      · next root ha =>
        split at h
        · next f hg =>
          rw [hstop] at h
          cases h
          exact absurd hg (root.unreported_generate _ _ _ _)
        · cases h

/-- A plan whose root has no signature is reported by the label of the root. -/
theorem path_of_unresolved {c : Conversion} {e : Element} {base : String} {f : Failure}
    (hs : c.registry.resolve? e = .error f) {p : Problem} {path : Option String}
    (h : (c.run e base).2.outcome = .error (.problem p path)) : path = some e.label := by
  obtain ⟨⟨p', rfl⟩, -⟩ := Registry.resolve?_eq_error hs
  rcases run_eq_problem h with hr | ⟨hr, -⟩
  · cases e
    unfold resolve at hr
    simp only [Logged.outcome_bind, Logged.outcome_mapFailure, Registry.outcome_resolve, hs] at hr
    cases hr
    rfl
  · obtain ⟨⟨s, hs'⟩, -⟩ := resolve_eq_ok_iff.mp hr
    cases hs.symm.trans hs'

theorem run_of_assemble_error {c : Conversion} {e : Element} {base : String} {p : Problem}
    {path : Option String} (hp : c.phase = .idle)
    (hr : (e.resolve c.registry c.options e.label).outcome = .ok ())
    (ha : (e.assemble c.registry c.options e.label).outcome = .error (.problem p path)) :
    (c.run e base).2.outcome = .error (.problem p path) := by
  simp only [run, hp, hr, ha]
  rfl

end Conversion

/-- A conversion that ends with a problem names the first element, in the order of a walk, that no
signature accepts, of those that are not left out. If there is none, it names the first that cannot be
read or that is a child where none are taken, of those that are neither left out nor below an element
without effect. -/
theorem path_of_run {c : Conversion} {e : Element} {base : String}
    (hk : e.kind = "" → c.registry.forKind "" = []) {p : Problem} {path : Option String}
    (h : (c.run e base).2.outcome = .error (.problem p path)) :
    e.sites.map (fun q => (q.path, q.element)) = e.walk "" ∧
      ∃ q, path = some q.path ∧
        (IsFirst (fun q => ¬ q.IsDropped c.options ∧ q.IsUnsupported c.registry) e.sites q ∨
          ((∀ q ∈ e.sites, ¬ q.IsDropped c.options → ¬ q.IsUnsupported c.registry) ∧
            IsFirst (fun q => ¬ q.IsDropped c.options ∧ ¬ q.IsSilenced c.registry ∧
              (q.IsUnreadable c.registry ∨ q.IsUnwelcome c.registry)) e.sites q)) := by
  refine ⟨e.map_sitesBelow "" [], ?_⟩
  have hroot : e.sites = ⟨e.label, [], e⟩ :: sitesAll e.label [e] e.children := by
    rw [sites, sitesBelow_eq, pathUnder_empty]
  have hlive : ∀ a ∈ [e].dropLast, c.options.drops a = false := fun a ha => absurd ha List.not_mem_nil
  have hkept : ¬ Site.IsDropped c.options ⟨e.label, [], e⟩ := Site.not_isDropped hlive
  cases hs : c.registry.resolve? e with
  | error f =>
    refine ⟨⟨e.label, [], e⟩, Conversion.path_of_unresolved hs h, .inl ?_⟩
    rw [hroot]
    exact .head ⟨hkept, (Registry.resolve?_eq_error hs).2⟩
  | ok s =>
    have hlabel : pathUnder "" e.label ≠ "" := by
      rw [pathUnder_empty]
      exact Registry.label_ne_of_resolve? hk hs
    have hresolve := reports_resolve (r := c.registry) e hlabel hlive
    rw [pathUnder_empty] at hresolve
    rcases Conversion.run_eq_problem h with hr | ⟨hr, ha⟩
    · obtain ⟨q, hq, hpath⟩ := hresolve.problem p path hr
      exact ⟨q, hpath, .inl hq⟩
    · have hassemble : Reports (Site.FailsToAssemble c.registry c.options) e.sites
          (e.assemble c.registry c.options (pathUnder "" e.label)).outcome := by
        refine reports_assemble e hlabel hlive ?_ ?_ ⟨_, hr⟩
        · rintro ⟨a, ha, -⟩
          exact absurd ha List.not_mem_nil
        · rintro ⟨a, t, ha, -⟩
          cases ha
      rw [pathUnder_empty] at hassemble
      obtain ⟨q, hq, hpath⟩ := hassemble.problem p path ha
      exact ⟨q, hpath, .inr ⟨fun q hq hd hu => hresolve.value () hr q hq ⟨hd, hu⟩, hq⟩⟩

open Catalog.Configuration (constantTimer)
open Catalog.Plan (testPlan)

/-- A timer whose delay is no number. -/
def vagueTimer : Element :=
  ⟨"ConstantTimer", some "late", true, .ofList [("ConstantTimer.delay", "soon")], []⟩

/-- A timer without delay has no effect, so the timer below it is never read. The one beside it is. -/
theorem path_of_run_vagueTimer :
    let c : Conversion := ⟨.standard, {}, .idle, none⟩
    let quiet : Element := ⟨"ConstantTimer", none, true, .empty, [vagueTimer]⟩
    let e : Element := ⟨"TestPlan", none, true, .empty, [quiet, vagueTimer]⟩
    let p : Problem := .value "soon" (some "ConstantTimer.delay") (.notWhole "milliseconds")
    let path : Option String := some "TestPlan/ConstantTimer[late]"
    ((e.kind = "" → c.registry.forKind "" = []) ∧
      (c.run e "").2.outcome = .error (.problem p path)) ∧
      e.sites.map (fun q => (q.path, q.element)) = e.walk "" ∧
      ∃ q, path = some q.path ∧
        (IsFirst (fun q => ¬ q.IsDropped c.options ∧ q.IsUnsupported c.registry) e.sites q ∨
          ((∀ q ∈ e.sites, ¬ q.IsDropped c.options → ¬ q.IsUnsupported c.registry) ∧
            IsFirst (fun q => ¬ q.IsDropped c.options ∧ ¬ q.IsSilenced c.registry ∧
              (q.IsUnreadable c.registry ∨ q.IsUnwelcome c.registry)) e.sites q)) := by
  intro c quiet e p path
  have hvague : Registry.standard.resolve? vagueTimer = .ok constantTimer :=
    Registry.resolve?_of_first rfl rfl rfl
  have hquiet : Registry.standard.resolve? quiet = .ok constantTimer :=
    Registry.resolve?_of_first rfl rfl rfl
  have he : Registry.standard.resolve? e = .ok testPlan := Registry.resolve?_of_first rfl rfl rfl
  have hresolve (path : String) : (vagueTimer.resolve .standard c.options path).outcome = .ok () :=
    resolve_of_resolve? hvague rfl
  have hres : (e.resolve .standard c.options e.label).outcome = .ok () :=
    resolve_of_resolve? he ((resolveAll_cons_eq_ok_iff rfl).mpr
      ⟨resolve_of_resolve? hquiet ((resolveAll_cons_eq_ok_iff rfl).mpr ⟨hresolve _, rfl⟩),
        (resolveAll_cons_eq_ok_iff rfl).mpr ⟨hresolve _, rfl⟩⟩)
  have hfail (path : String) :
      (vagueTimer.assemble .standard c.options path).outcome = .error (.problem p (some path)) :=
    assemble_of_ownCall_error hvague (show ownCall c.options constantTimer vagueTimer = _ from rfl)
  have hempty (path : String) : (quiet.assemble .standard c.options path).outcome =
      .ok (.empty "timer") := assemble_of_ownCall_none hquiet (by rfl)
  have hasm : (e.assemble .standard c.options e.label).outcome = .error (.problem p path) := by
    refine assemble_of_assembleAll_error (f := .problem p path) he (by rfl) ?_
    have hstep (d : Element) (hd : c.options.drops d = false) (es : List Element) :
        (assembleAll .standard c.options testPlan e.label (d :: es)).outcome =
          (d.assemble .standard c.options (childPath e.label d)).outcome >>= fun x =>
            (assembleAll .standard c.options testPlan e.label es).outcome >>= fun xs =>
              .ok (x :: xs) := by
      rw [assembleAll, if_neg (by simp [hd]), if_neg (by decide)]
      simp only [Logged.outcome_bind]
      rfl
    exact (hstep quiet rfl [vagueTimer]).trans (by rw [hempty, hstep vagueTimer rfl, hfail]; rfl)
  have hrun : (c.run e "").2.outcome = .error (.problem p path) := by
    exact Conversion.run_of_assemble_error rfl hres hasm
  have hk : e.kind = "" → c.registry.forKind "" = [] := fun hno => absurd hno (by decide)
  exact ⟨⟨hk, hrun⟩, path_of_run hk hrun⟩

end FluentPlan
