import FluentPlan.Catalog.Builtin
import FluentPlan.Proofs.Assembly.Head
import FluentPlan.Proofs.Code.Expression
import FluentPlan.Proofs.Param.Kind

/-!
Assembled calls are legible: with the signatures of the catalog, arguments are made of literals. Class
names are the one thing that the catalog does not see to. The call of an element that is enabled with
all below it is live, as nothing in it is commented out.
-/

namespace FluentPlan

open Script Java

/-! ### Proper signatures -/

/-- Whether the default of a parameter is of its kind, and its constants are identifiers. -/
def Param.isProper (p : Param) : Bool :=
  p.hasOwnDefault && match p.kind with
    | .enum type javaClass =>
      isPlainName (simpleName javaClass) && type.members.all fun m => isIdentifier m.1.toList
    | _ => true

/-- Whether a modifier calls a method by its name, and takes all remaining arguments only if it
takes no others. -/
def Modifier.isProper (m : Modifier) : Bool :=
  isPlainName m.method && m.params.all Param.isProper &&
    (m.params.all (fun p => !p.kind.isVariadic) || (m.params.length = 1 && m.each.isNone))

def Signature.isProper (s : Signature) : Bool :=
  isPlainName s.method && s.params.all (fun p => p.isProper && !p.kind.isVariadic) &&
    s.modifiers.all Modifier.isProper

/-- All signatures of the catalog are proper. -/
theorem Registry.isProper_standard : Registry.standard.signatures.all Signature.isProper = true := by
  decide +kernel

/-! ### Arguments -/

namespace Arg

/-- Whether the class name of an argument, if it is one, is dotted. -/
def HasDottedClass : Arg → Prop
  | scalar p (some (.text s)) => p.kind = .classRef → IsDotted (Param.dottedClass s)
  | _ => True

end Arg

theorem Param.readable_of_holds {p : Param} (hp : p.isProper = true) {v : Option Value}
    (h : p.Holds v) (hv : p.kind.isVariadic = true → v ≠ some (.texts []))
    (hc : (Arg.scalar p v).HasDottedClass) : p.Readable v := by
  obtain ⟨kind, prop, default, required, mandatory⟩ := p
  cases v with
  | none => trivial
  | some v =>
    cases kind with
    | int | long =>
      cases v with
      | integer n => exact ⟨n, rfl⟩
      | dynamic _ => trivial
      | _ => exact absurd h Bool.false_ne_true
    | double | float =>
      cases v with
      | double x => exact ⟨x, rfl, h⟩
      | dynamic _ => trivial
      | _ => exact absurd h Bool.false_ne_true
    | textArray | textList =>
      cases v with
      | texts items => exact fun hi => hv rfl (by rw [hi])
      | _ => trivial
    | classRef =>
      cases v with
      | text s => exact hc rfl
      | dynamic _ => trivial
      | _ => exact absurd h Bool.false_ne_true
    | enum type javaClass =>
      cases v with
      | member m =>
        simp only [isProper, Bool.and_eq_true] at hp
        obtain ⟨-, hn, hm⟩ := hp
        obtain ⟨x, hx, he⟩ := List.any_eq_true.mp h
        have hname : m.name = x.1 := by
          rw [← of_decide_eq_true he]
          rfl
        exact (isDotted_of_isPlainName hn).append (hname ▸ List.all_eq_true.mp hm x hx)
      | _ => trivial
    | plain | bool | text | displayName | duration _ | holdDuration _ _ | charset | url | children =>
      cases v <;> trivial

theorem Element.mem_placeArgs {ps : List Param} {values : List (Param × Option Value)} {a : Arg}
    (h : a ∈ placeArgs ps values) : a = .children ∨ ∃ x ∈ values, a = .scalar x.1 x.2 := by
  induction ps generalizing values with
  | nil => cases h
  | cons p ps ih =>
    unfold placeArgs at h
    split_ifs at h with hp
    · rcases List.mem_cons.mp h with rfl | h
      · exact .inl rfl
      · exact ih h
    · cases values with
      | nil => cases h
      | cons x values =>
        rcases List.mem_cons.mp h with rfl | h
        · exact .inr ⟨x, List.mem_cons_self, rfl⟩
        · rcases ih h with h | ⟨y, hy, h⟩
          · exact .inl h
          · exact .inr ⟨y, List.mem_cons_of_mem x hy, h⟩

theorem Element.mem_argsOf {values : List (Param × Option Value)} {a : Arg}
    (h : a ∈ argsOf values) : a = .children ∨ ∃ x ∈ values, a = .scalar x.1 x.2 := by
  obtain ⟨⟨p, v⟩, hx, rfl⟩ := List.mem_map.mp h
  simp only [Arg.ofParam]
  split_ifs
  · exact .inl rfl
  · exact .inr ⟨(p, v), hx, rfl⟩

theorem Element.allDefault_texts_nil {p : Param} (hp : p.kind.isVariadic = true) :
    allDefault [(p, some (.texts []))] = .ok true := by
  obtain ⟨kind, prop, default, required, mandatory⟩ := p
  cases kind with
  | textArray | textList => rfl
  | _ => cases hp

/-! ### Calls -/

namespace Element

mutual

/-- Whether an element and all below it are enabled. -/
def allEnabled : Element → Bool
  | ⟨_, _, enabled, _, children⟩ => enabled && allEnabledAll children

def allEnabledAll : List Element → Bool
  | [] => true
  | e :: es => e.allEnabled && allEnabledAll es

end

end Element

namespace Call

/-- Whether all class names in a call are dotted. -/
def HasDottedClasses (c : Call) : Prop := ∀ d ∈ c.walk, ∀ a ∈ d.head.args, a.HasDottedClass

theorem HasDottedClasses.child {c d : Call} (h : c.HasDottedClasses) (hd : d ∈ c.children) :
    d.HasDottedClasses :=
  fun e he => h e (walk_subset_of_mem_children hd he)

theorem HasDottedClasses.link {c d : Call} (h : c.HasDottedClasses) (hd : d ∈ c.chain) :
    d.HasDottedClasses :=
  fun e he => h e (walk_subset_of_mem_chain hd he)

theorem HasDottedClasses.arg {c : Call} (h : c.HasDottedClasses) {a : Arg} (ha : a ∈ c.head.args) :
    a.HasDottedClass := h c (mem_walk_self c) a ha

theorem legible_chained {method : String} (hm : isPlainName method = true) {args : List Arg}
    (ha : ∀ a ∈ args, a.Readable) : (chained method args).Legible :=
  .call nofun hm ha nofun nofun nofun

theorem legible_chainedChildren {children : List Call} (h : ∀ c ∈ children, c.Legible) :
    (chainedChildren children).Legible :=
  .call nofun (by decide) (by simp [Arg.Readable]) h nofun nofun

/-- Calls that stand in no comment, with arguments made of literals. -/
structure Live (c : Call) : Prop where
  legible : c.Legible
  isOpen : c.IsOpen

theorem Live.readable {c : Call} (h : c.Live) : ∀ d ∈ c.walk, ∀ a ∈ d.head.args, a.Readable :=
  h.legible.readable

end Call

namespace Element

open Call

/-- Each value of a modifier that is called is readable. -/
theorem legible_modifierCalls {e : Element} {m : Modifier} (hm : m.isProper = true) {cs : List Call}
    (h : modifierCalls e m = .ok cs) {c : Call} (hc : c ∈ cs) (hd : c.HasDottedClasses) :
    c.Legible ∧ c.isEmpty = false ∧ c.chain = [] ∧ c.head.commented = false := by
  simp only [Modifier.isProper, Bool.and_eq_true, Bool.or_eq_true] at hm
  obtain ⟨⟨hname, hparams⟩, hvar⟩ := hm
  have hread {lead : String} {values : List (Param × Option Value)}
      (hv : valuesOf e lead m.params = .ok values)
      (hsome : ∀ x ∈ values, x.1.kind.isVariadic = true → x.2 ≠ some (.texts []))
      (hcls : ∀ a ∈ argsOf values, a.HasDottedClass) : ∀ a ∈ argsOf values, a.Readable := by
    intro a ha
    rcases mem_argsOf ha with rfl | ⟨x, hx, rfl⟩
    · trivial
    · obtain ⟨hp, hx'⟩ := mem_of_valuesOf hv hx
      have hpr := List.all_eq_true.mp hparams _ hp
      have hdef : x.1.hasOwnDefault = true := (Bool.and_eq_true_iff.mp hpr).1
      exact fun _ => Param.readable_of_holds hpr (Param.holds_valueOf hdef hx') (hsome x hx)
        (hcls _ ha)
  have hplain {values : List (Param × Option Value)} {lead : String}
      (hv : valuesOf e lead m.params = .ok values)
      (hall : m.params.all (fun p => !p.kind.isVariadic) = true) :
      ∀ x ∈ values, x.1.kind.isVariadic = true → x.2 ≠ some (.texts []) := by
    intro x hx hk
    have := List.all_eq_true.mp hall _ (mem_of_valuesOf hv hx).1
    simp [hk] at this
  cases he : m.each with
  | some each =>
    rcases modifierCalls_each he h with ⟨-, rfl⟩ | ⟨-, found, -, hall⟩
    · cases hc
    · obtain ⟨i, -, values, hv, rfl⟩ := exists_of_forall₂ hall hc
      have hnone : m.params.all (fun p => !p.kind.isVariadic) = true := by simpa [he] using hvar
      exact ⟨legible_chained hname (hread hv (hplain hv hnone) fun a ha => hd.arg ha), rfl, rfl, rfl⟩
  | none =>
    rcases modifierCalls_single he h with ⟨-, rfl⟩ | ⟨-, values, hv, ⟨-, rfl⟩ | ⟨hdef, rfl⟩⟩
    · cases hc
    · cases hc
    · rw [List.mem_singleton.mp hc] at hd ⊢
      refine ⟨legible_chained hname ?_, rfl, rfl, rfl⟩
      by_cases hflag : (m.flag && !(argsOf values).any Arg.isDynamic) = true
      · rw [if_pos hflag]
        exact fun a ha => absurd ha List.not_mem_nil
      · rw [if_neg hflag] at hd ⊢
        refine hread hv ?_ fun a ha => hd.arg ha
        rcases hvar with hnone | hone
        · exact hplain hv hnone
        · intro x hx hk hnil
          have hlen := (valuesOf_eq_ok hv).length_eq
          obtain ⟨y, rfl⟩ : ∃ y, values = [y] := by
            have : m.params.length = 1 := by simpa [he] using hone
            exact List.length_eq_one_iff.mp (by omega)
          obtain rfl := List.mem_singleton.mp hx
          have hnil' : allDefault [x] = .ok true := by
            obtain ⟨p, v⟩ := x
            obtain rfl : v = some (.texts []) := hnil
            exact allDefault_texts_nil hk
          rw [hnil'] at hdef
          cases hdef

theorem walk_subset_withChildren {o : Options} {s : Signature} {head : CallHead}
    {chain calls : List Call} {c : Call} (hc : c ∈ calls) :
    c.walk ⊆ (withChildren o s head chain calls).walk := by
  have hm : c ∈ Call.order o.categories calls := (orderBy_perm _ _ _).mem_iff.mpr hc
  have hw := walk_subset_walkAll hm
  rcases withChildren_cases o s head chain calls with ⟨rfl, -⟩ | ⟨-, he⟩ | ⟨-, -, he⟩
  · cases hc
  · intro d hd
    have hlink : d ∈ (chainedChildren (Call.order o.categories calls)).walk := by
      rw [walk_eq]
      exact List.mem_append_left _ (List.mem_cons_of_mem _ (hw hd))
    rw [he, walk_eq]
    simp [hlink]
  · intro d hd
    rw [he, walk_eq]
    simp [hw hd]

theorem mem_chain_withChildren {o : Options} {s : Signature} {head : CallHead}
    {chain calls : List Call} {c : Call} (hc : c ∈ chain) :
    c ∈ (withChildren o s head chain calls).chain := by
  rcases withChildren_cases o s head chain calls with ⟨-, he⟩ | ⟨-, he⟩ | ⟨-, -, he⟩ <;>
    simp [he, hc]

theorem legible_withChildren {o : Options} {s : Signature} {head : CallHead}
    {chain calls : List Call} (hr : head.role ≠ .empty) (hm : isPlainName head.method = true)
    (ha : ∀ a ∈ head.args, a.Readable)
    (hl : ∀ c ∈ chain, c.Legible ∧ c.isEmpty = false ∧ c.chain = [] ∧ c.head.commented = false)
    (hk : ∀ c ∈ calls, c.Legible) : (withChildren o s head chain calls).Legible := by
  have horder : ∀ c ∈ Call.order o.categories calls, c.Legible :=
    fun c hc => hk c ((orderBy_perm _ _ _).mem_iff.mp hc)
  have hlegible := legible_chainedChildren horder
  rcases withChildren_cases o s head chain calls with ⟨-, he⟩ | ⟨-, he⟩ | ⟨-, -, he⟩
  · rw [he]
    exact .call hr hm ha (by simp) (fun c hc => (hl c hc).1) fun c hc => (hl c hc).2
  · rw [he]
    refine .call hr hm ha (by simp) (fun c hc => ?_) fun c hc => ?_
    · rcases List.mem_append.mp hc with hc | hc
      · exact (hl c hc).1
      · rw [List.mem_singleton.mp hc]
        exact hlegible
    · rcases List.mem_append.mp hc with hc | hc
      · exact (hl c hc).2
      · rw [List.mem_singleton.mp hc]
        exact ⟨rfl, rfl, rfl⟩
  · rw [he]
    exact .call hr hm ha horder (fun c hc => (hl c hc).1) fun c hc => (hl c hc).2

mutual

/-- The call of an element is legible. -/
theorem legible_assemble {r : Registry} (hr : r.signatures.all Signature.isProper = true)
    {o : Options} : (e : Element) → ∀ {path : String} {c : Call},
      (assemble r o path e).outcome = .ok c → c.HasDottedClasses → c.Legible
  | ⟨kind, name, enabled, properties, children⟩ => by
    intro h hd
    obtain ⟨s, hs, ⟨-, rfl⟩ | ⟨head, chain, calls, hown, hcalls, rfl⟩⟩ := assemble_eq_ok h
    · exact .empty s.category
    · have hp := List.all_eq_true.mp hr s (Registry.resolve?_eq_ok hs).1
      simp only [Signature.isProper, Bool.and_eq_true] at hp
      obtain ⟨⟨hname, hparams⟩, hmods⟩ := hp
      obtain ⟨values, hv, ⟨-, -, hsome⟩ | ⟨-, links, hlinks, hsome⟩⟩ := ownCall_eq_ok hown
      · cases hsome
      · cases hsome
        refine legible_withChildren nofun hname (fun a ha => ?_) (fun c hc => ?_) ?_
        · rcases mem_placeArgs ha with rfl | ⟨x, hx, rfl⟩
          · trivial
          · obtain ⟨hm, hx'⟩ := mem_of_valuesOf hv hx
            have hp := List.all_eq_true.mp hparams _ (List.mem_of_mem_filter hm)
            obtain ⟨hpr, hnv⟩ := Bool.and_eq_true_iff.mp hp
            have hdef : x.1.hasOwnDefault = true := (Bool.and_eq_true_iff.mp hpr).1
            exact fun _ => Param.readable_of_holds hpr (Param.holds_valueOf hdef hx')
              (fun hk => by simp [hk] at hnv) (hd.arg (by simpa using ha))
        · obtain ⟨cs, hcs, hc⟩ := List.mem_flatten.mp hc
          obtain ⟨m, hm, hcalls'⟩ := exists_of_forall₂ hlinks hcs
          exact legible_modifierCalls (List.all_eq_true.mp hmods m hm) hcalls' hc
            (hd.link (mem_chain_withChildren (List.mem_flatten.mpr ⟨cs, hcs, hc⟩)))
        · exact legible_assembleAll hr children hcalls fun c hc d hd' =>
            hd d (walk_subset_withChildren hc hd')

theorem legible_assembleAll {r : Registry} (hr : r.signatures.all Signature.isProper = true)
    {o : Options} {s : Signature} : (es : List Element) →
      ∀ {path : String} {calls : List Call}, (assembleAll r o s path es).outcome = .ok calls →
      (∀ c ∈ calls, c.HasDottedClasses) → ∀ c ∈ calls, c.Legible
  | [] => by
    intro h hd c hc
    cases h
    cases hc
  | e :: es => by
    intro h hd
    rcases assembleAll_cons_eq_ok h with ⟨-, h⟩ | ⟨-, -, c, cs, hc, hcs, rfl⟩
    · exact legible_assembleAll hr es h hd
    · intro d hm
      rcases List.mem_cons.mp hm with rfl | hm
      · exact legible_assemble hr e hc (hd d List.mem_cons_self)
      · exact legible_assembleAll hr es hcs (fun c hc => hd c (List.mem_cons_of_mem _ hc)) d hm

end

mutual

/-- Nothing is commented out in the call of an element that is enabled with all below it. -/
theorem isOpen_assemble {r : Registry} {o : Options} : (e : Element) → e.allEnabled = true →
    ∀ {path : String} {c : Call}, (assemble r o path e).outcome = .ok c → c.IsOpen
  | ⟨kind, name, enabled, properties, children⟩ => by
    intro hen path c h d hd
    obtain ⟨hen, hkids⟩ := Bool.and_eq_true_iff.mp hen
    obtain ⟨s, hs, ⟨-, rfl⟩ | ⟨head, chain, calls, hown, hcalls, rfl⟩⟩ := assemble_eq_ok h
    · rw [walk_empty] at hd
      rw [List.mem_singleton.mp hd]
      rfl
    · obtain ⟨values, hv, ⟨-, -, hsome⟩ | ⟨-, links, hlinks, hsome⟩⟩ := ownCall_eq_ok hown
      · cases hsome
      · cases hsome
        rcases mem_walk_withChildren hd with he | ⟨l, hl, hd⟩ | ⟨k, hk, hd⟩ | ⟨children, rfl⟩
        · simp [he, ownHead, hen]
        · obtain ⟨cs, hcs, hl⟩ := List.mem_flatten.mp hl
          obtain ⟨m, hm, hcalls⟩ := exists_of_forall₂ hlinks hcs
          obtain ⟨args, rfl, -⟩ := exists_chained_of_modifierCalls hcalls hl
          rw [walk_chained, List.mem_singleton] at hd
          rw [hd]
          rfl
        · exact isOpen_assembleAll children hkids hcalls k hk d hd
        · rfl

theorem isOpen_assembleAll {r : Registry} {o : Options} {s : Signature} : (es : List Element) →
    allEnabledAll es = true → ∀ {path : String} {calls : List Call},
      (assembleAll r o s path es).outcome = .ok calls → ∀ c ∈ calls, c.IsOpen
  | [] => by
    intro _ path calls h c hc
    cases h
    cases hc
  | e :: es => by
    intro hen path calls h
    obtain ⟨hen, hrest⟩ := Bool.and_eq_true_iff.mp hen
    rcases assembleAll_cons_eq_ok h with ⟨-, h⟩ | ⟨-, -, c, cs, hc, hcs, rfl⟩
    · exact isOpen_assembleAll es hrest h
    · intro d hm
      rcases List.mem_cons.mp hm with rfl | hm
      · exact isOpen_assemble e hen hc
      · exact isOpen_assembleAll es hrest hcs d hm

end

/-- The call of an enabled element is live. -/
theorem live_assemble {r : Registry} (hr : r.signatures.all Signature.isProper = true)
    {o : Options} (e : Element) (he : e.allEnabled = true) {path : String} {c : Call}
    (h : (assemble r o path e).outcome = .ok c) (hd : c.HasDottedClasses) : c.Live :=
  ⟨legible_assemble hr e h hd, isOpen_assemble e he h⟩

end Element

end FluentPlan
