import FluentPlan.Element.Record
import FluentPlan.Proofs.Assembly.Outcome
import FluentPlan.Proofs.Json.Reading

/-!
Elements survive their JSON form. Writing sorts properties and leaves out what goes without saying;
the element that is read back has the same kind, name, mark and children in their order, and the
same property under every key, at every depth.
-/

namespace FluentPlan

/-! ### The same element -/

/-- Whether two elements are the same up to the order of their properties. -/
inductive Element.Same : Element → Element → Prop
  | intro {kind : String} {name : Option String} {enabled : Bool}
      {properties properties' : Properties} {children children' : List Element}
      (hp : ∀ key, properties.get? key = properties'.get? key)
      (hc : List.Forall₂ Same children children') :
      Same ⟨kind, name, enabled, properties, children⟩ ⟨kind, name, enabled, properties', children'⟩

theorem Properties.get?_eq_of_perm {p q : Properties} (h : p.entries.Perm q.entries)
    (key : String) : p.get? key = q.get? key := by
  refine Option.ext fun value => ?_
  rw [get?_eq_some_iff, get?_eq_some_iff, h.mem_iff]

theorem Properties.perm_sorted (p : Properties) : p.sorted.Perm p.entries := List.mergeSort_perm _ _

theorem Properties.nodup_sorted (p : Properties) : (p.sorted.map Prod.fst).Nodup :=
  ((p.perm_sorted.map Prod.fst).nodup_iff).mpr p.nodup

namespace Element

open Json

/-! ### Records -/

/-- The entries of the object of an element. -/
def record (kind : String) (name : Option String) (enabled : Bool)
    (properties : List (String × String)) (children : List Json) : List (String × Json) :=
  ("discriminator", .text kind) :: (name.toList.map fun n => ("name", .text n)) ++
    (if enabled then [] else [("enabled", .bool false)]) ++
    [("properties", .object (properties.map fun (k, v) => (k, .text v))),
      ("children", .list children)]

section Fields

variable {kind : String} {name : Option String} {enabled : Bool}
  {properties : List (String × String)} {children : List Json}

theorem readKind_record (hk : kind ≠ "") (path : Option String) :
    readKind (record kind name enabled properties children) path = .ok kind := by
  have hempty : kind.isEmpty = false := by simpa using hk
  simp [readKind, record, hempty]

theorem readName_record (path : Option String) :
    readName (record kind name enabled properties children) path = .ok name := by
  cases name <;> cases enabled <;> rfl

theorem readEnabled_record (path : String) :
    readEnabled (record kind name enabled properties children) path = .ok enabled := by
  cases name <;> cases enabled <;> rfl

theorem readChildren_record (path : String) :
    readChildren path (record kind name enabled properties children) = ofItems path children := by
  cases name <;> cases enabled <;> simp [readChildren, record]

theorem checkKeys_record (path : String) :
    checkKeys (record kind name enabled properties children) path = .ok () := by
  cases name <;> cases enabled <;> rfl

theorem readProperties_record (path : String) :
    readProperties (record kind name enabled properties children) path =
      readEntries path (properties.map fun (k, v) => (k, .text v)) .empty := by
  cases name <;> cases enabled <;> rfl

theorem isPlain_record (hp : (properties.map Prod.fst).Nodup) (hc : isPlainAll children = true) :
    (Json.object (record kind name enabled properties children)).isPlain = true := by
  have htexts : isPlainEntries (properties.map fun (k, v) => (k, .text v)) = true := by
    clear hp
    induction properties with
    | nil => rfl
    | cons e es ih => simpa [isPlainEntries, isPlain] using ih
  cases name <;> cases enabled <;>
    simpa [record, isPlain, isPlainEntries, htexts, hc, Function.comp_def] using hp

end Fields

theorem toJson_eq (e : Element) : e.toJson =
    .object (record e.kind e.name e.enabled e.properties.sorted (toItems e.children)) := by
  obtain ⟨kind, name, enabled, properties, children⟩ := e
  rw [toJson]
  rfl

/-- Properties are read back in the order in which they were written. -/
theorem exists_readEntries (path : String) (es : List (String × String)) {p : Properties}
    (h : ((p.entries ++ es).map Prod.fst).Nodup) :
    ∃ q, readEntries path (es.map fun (k, v) => (k, .text v)) p = .ok q ∧
      q.entries = p.entries ++ es := by
  induction es generalizing p with
  | nil => exact ⟨p, rfl, by simp⟩
  | cons e es ih =>
    obtain ⟨k, v⟩ := e
    have hk : k ∉ p.entries.map Prod.fst := by
      rw [List.map_append, List.nodup_append] at h
      exact fun hm => h.2.2 k hm k List.mem_cons_self rfl
    have hput : (p.put k v).entries = p.entries ++ [(k, v)] := putEntry_of_not_mem v hk
    obtain ⟨q, hq, hentries⟩ := ih (p := p.put k v) (by rw [hput]; simpa using h)
    refine ⟨q, hq, ?_⟩
    rw [hentries, hput, List.append_assoc, List.singleton_append]

/-! ### Elements -/

mutual

/-- What an element is written as has no numbers and no repeated keys. -/
theorem isPlain_toJson : (e : Element) → e.toJson.isPlain = true
  | ⟨kind, name, enabled, properties, children⟩ => by
    rw [toJson_eq]
    exact isPlain_record properties.nodup_sorted (isPlainAll_toItems children)

theorem isPlainAll_toItems : (es : List Element) → isPlainAll (toItems es) = true
  | [] => rfl
  | e :: es => by
    rw [toItems, isPlainAll, isPlain_toJson e, isPlainAll_toItems es]
    rfl

end

mutual

/-- The object of an element is read as the same element, if no kind in it is empty. -/
theorem exists_ofJson_toJson : (e : Element) → (parent : String) →
    (∀ x ∈ e.walk parent, x.2.kind ≠ "") →
    ∃ e', ofJson parent e.toJson = .ok e' ∧ Same e' e
  | ⟨kind, name, enabled, properties, children⟩, parent, h => by
    obtain ⟨hkind, hchildren⟩ := List.forall_mem_cons.mp h
    obtain ⟨es, hes, hsame⟩ := exists_ofItems_toItems children _ hchildren
    obtain ⟨p, hp, hentries⟩ := exists_readEntries (pathUnder parent (labelOf kind name))
      properties.sorted (p := .empty) properties.nodup_sorted
    refine ⟨⟨kind, name, enabled, p, es⟩, ?_, .intro ?_ hsame⟩
    · rw [toJson_eq, ofJson]
      simp only [readKind_record hkind, readName_record, readEnabled_record, readProperties_record,
        readChildren_record, checkKeys_record, hp, hes, ok_bind]
      rfl
    · exact Properties.get?_eq_of_perm (hentries ▸ properties.perm_sorted)

theorem exists_ofItems_toItems : (es : List Element) → (path : String) →
    (∀ x ∈ walkAll path es, x.2.kind ≠ "") →
    ∃ es', ofItems path (toItems es) = .ok es' ∧ List.Forall₂ Same es' es
  | [], path, _ => ⟨[], by rw [toItems, ofItems], .nil⟩
  | e :: es, path, h => by
    rw [walkAll] at h
    obtain ⟨e', he, hsame⟩ := exists_ofJson_toJson e path fun x hx =>
      h x (List.mem_append_left _ hx)
    obtain ⟨es', hes, hall⟩ := exists_ofItems_toItems es path fun x hx =>
      h x (List.mem_append_right _ hx)
    refine ⟨e' :: es', ?_, .cons hsame hall⟩
    rw [toItems, ofItems, he, ok_bind, hes]
    rfl

end

/-- The text of an element is read as the same element, if no kind in it is empty. -/
theorem exists_ofText_dump {e : Element} (h : ∀ x ∈ e.walk "", x.2.kind ≠ "") :
    ∃ e', ofText e.dump = .ok e' ∧ Same e' e := by
  obtain ⟨e', he, hsame⟩ := exists_ofJson_toJson e "" h
  refine ⟨e', ?_, hsame⟩
  rw [ofText, dump, String.toList_ofList, read_print (isPlain_toJson e)]
  exact he

/-- A plan with an empty name, above a disabled element with properties out of order and a control
character. -/
theorem exists_ofText_dump_plan :
    let timer : Element :=
      ⟨"ConstantTimer", none, false, .ofList [("b", "\x01\"\n"), ("a", "é")], []⟩
    let e : Element := ⟨"TestPlan", some "", true, .empty, [timer, timer]⟩
    (∀ x ∈ e.walk "", x.2.kind ≠ "") ∧ ∃ e', ofText e.dump = .ok e' ∧ Same e' e := by
  intro timer e
  have h : ∀ x ∈ e.walk "", x.2.kind ≠ "" := by simp [e, timer, walk, walkAll]
  exact ⟨h, exists_ofText_dump h⟩

end Element

end FluentPlan
