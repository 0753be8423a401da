import Mathlib.Data.List.Basic
import Mathlib.Data.Option.Basic
import Mathlib.Tactic.Common
import FluentPlan.Markup.Reader

/-!
Tags of documents. Every element that is read has a name, also those that come from entities, so no
tag in a document is empty.
-/

namespace FluentPlan.Markup

/-- No tag in a part of a document is empty. -/
inductive Tagged : Markup → Prop
  | mk {tag : String} {attributes : List (String × String)} {text : String}
      {children : List Markup} (htag : tag ≠ "") (hchildren : ∀ c ∈ children, Tagged c) :
      Tagged ⟨tag, attributes, text, children⟩

theorem Tagged.tag_ne {m : Markup} (h : m.Tagged) : m.tag ≠ "" := by
  cases h
  assumption

theorem Tagged.of_mem_children {m c : Markup} (h : m.Tagged) (hc : c ∈ m.children) : c.Tagged := by
  cases h with
  | mk htag hchildren => exact hchildren c hc

/-- What stands between tags has no empty tag either. -/
def ItemsTagged (items : List Item) : Prop := ∀ m, .element m ∈ items → m.Tagged

namespace ItemsTagged

variable {items : List Item}

theorem nil : ItemsTagged [] := fun _ h => absurd h List.not_mem_nil

theorem text (h : ItemsTagged items) (cs : List Char) : ItemsTagged (.text cs :: items) :=
  fun m hm => h m ((List.mem_cons.mp hm).resolve_left nofun)

theorem element (h : ItemsTagged items) {m : Markup} (hm : m.Tagged) :
    ItemsTagged (.element m :: items) := by
  intro k hk
  rcases List.mem_cons.mp hk with heq | hk
  · cases heq
    exact hm
  · exact h k hk

theorem append {first : List Item} (hf : ItemsTagged first) (h : ItemsTagged items) :
    ItemsTagged (first ++ items) :=
  fun m hm => (List.mem_append.mp hm).elim (hf m) (h m)

theorem of_mem_elementsOf (h : ItemsTagged items) {m : Markup} (hm : m ∈ elementsOf items) :
    m.Tagged := by
  obtain ⟨i, hi, him⟩ := List.mem_filterMap.mp hm
  cases i with
  | text cs => cases him
  | element k =>
    cases him
    exact h m hi

end ItemsTagged

/-! ### Names are not empty -/

theorem ne_empty_of_name? {cs r : List Char} {n : String} (h : name? cs = some (n, r)) : n ≠ "" := by
  unfold name? at h
  split at h
  · next c rest =>
    split at h
    · next hc =>
      obtain ⟨rfl, -⟩ := Prod.mk.inj (Option.some.inj h)
      have hchar : isNameChar c = true := by simp [isNameChar, hc]
      rw [List.takeWhile_cons_of_pos hchar]
      simp
    · cases h
  · cases h

theorem ne_empty_of_qname? {cs r : List Char} {n : QName} (h : qname? cs = some (n, r)) :
    n.name ≠ "" := by
  unfold qname? at h
  split at h
  · next first rest hfirst =>
    obtain ⟨⟨second, rest'⟩, hsecond, heq⟩ := Option.map_eq_some_iff.mp h
    obtain ⟨rfl, -⟩ := Prod.mk.inj heq
    exact ne_empty_of_name? hsecond
  · next first rest hfirst =>
    obtain ⟨rfl, -⟩ := Prod.mk.inj (Option.some.inj h)
    exact ne_empty_of_name? hfirst
  · cases h

theorem ne_empty_of_expanded (address : String) {name : String} (h : name ≠ "") :
    expanded address name ≠ "" := by
  unfold expanded
  split
  · exact h
  · simp

theorem ne_empty_of_elementName? {scope : Scope} {n : QName} {tag : String} (hn : n.name ≠ "")
    (h : elementName? scope n = some tag) : tag ≠ "" := by
  unfold elementName? at h
  split at h
  · next address _ => exact Option.some.inj h ▸ ne_empty_of_expanded address hn
  · split at h
    · exact Option.some.inj h ▸ hn
    · cases h

/-! ### Reading elements -/

mutual

theorem itemsTagged_content? {c : Context}
    (hc : ∀ scope name items, c.expand scope name = some items → ItemsTagged items) :
    (fuel : Nat) → ∀ {scope : Scope} {cs r : List Char} {items : List Item},
      content? c fuel scope cs = some (items, r) → ItemsTagged items
  | 0, scope, cs, r, items, h => by
    rw [content?] at h
    cases h
  | fuel + 1, scope, cs, r, items, h => by
    have ih {s : Scope} {l l' : List Char} {is : List Item}
        (h : content? c fuel s l = some (is, l')) : ItemsTagged is := itemsTagged_content? hc fuel h
    have behind {first : List Item} (hf : ItemsTagged first) {l : List Char}
        (h : (content? c fuel scope l >>= fun x => pure (first ++ x.1, x.2)) = some (items, r)) :
        ItemsTagged items := by
      obtain ⟨⟨is, l'⟩, hl, h⟩ := Option.bind_eq_some_iff.mp h
      cases h
      exact hf.append (ih hl)
    unfold content? at h
    split at h
    · cases h
      exact .nil
    · cases h
      exact .nil
    · obtain ⟨s, -, hs⟩ := Option.bind_eq_some_iff.mp h
      exact ih hs
    · obtain ⟨s, -, hs⟩ := Option.bind_eq_some_iff.mp h
      exact ih hs
    · split at h
      · obtain ⟨⟨t, s⟩, -, h⟩ := Option.bind_eq_some_iff.mp h
        obtain ⟨⟨is, s'⟩, hs, h⟩ := Option.bind_eq_some_iff.mp h
        cases h
        exact (ih hs).text t
      · obtain ⟨⟨m, s⟩, hm, h⟩ := Option.bind_eq_some_iff.mp h
        obtain ⟨⟨is, s'⟩, hs, h⟩ := Option.bind_eq_some_iff.mp h
        cases h
        exact (ih hs).element (tagged_element? hc fuel hm)
    · obtain ⟨⟨ref, s⟩, -, h⟩ := Option.bind_eq_some_iff.mp h
      cases ref with
      | char d => exact behind (ItemsTagged.nil.text [d]) h
      | entity n =>
        dsimp only at h
        split at h
        · exact behind (ItemsTagged.nil.text _) h
        · obtain ⟨first, hfirst, h⟩ := Option.bind_eq_some_iff.mp h
          exact behind (hc scope n first hfirst) h
    · cases h
    · obtain ⟨⟨is, s'⟩, hs, h⟩ := Option.bind_eq_some_iff.mp h
      cases h
      exact (ih hs).text _
    · split at h
      · obtain ⟨⟨is, s'⟩, hs, h⟩ := Option.bind_eq_some_iff.mp h
        cases h
        exact (ih hs).text _
      · cases h

theorem tagged_element? {c : Context}
    (hc : ∀ scope name items, c.expand scope name = some items → ItemsTagged items) :
    (fuel : Nat) → ∀ {scope : Scope} {cs r : List Char} {m : Markup},
      element? c fuel scope cs = some (m, r) → m.Tagged
  | 0, scope, cs, r, m, h => by
    rw [element?] at h
    cases h
  | fuel + 1, scope, cs, r, m, h => by
    rw [element?] at h
    obtain ⟨⟨n, s₁⟩, hn, h⟩ := Option.bind_eq_some_iff.mp h
    obtain ⟨⟨raw, s₂⟩, -, h⟩ := Option.bind_eq_some_iff.mp h
    obtain ⟨⟨inner, attrs⟩, -, h⟩ := Option.bind_eq_some_iff.mp h
    obtain ⟨tag, htag, h⟩ := Option.bind_eq_some_iff.mp h
    have hne : tag ≠ "" := ne_empty_of_elementName? (ne_empty_of_qname? hn) htag
    split at h
    · cases h
      exact .mk hne fun c hc => absurd hc List.not_mem_nil
    · obtain ⟨⟨items, s₃⟩, hitems, h⟩ := Option.bind_eq_some_iff.mp h
      obtain ⟨s₄, -, h⟩ := Option.bind_eq_some_iff.mp h
      cases h
      exact .mk hne fun c hc' => (itemsTagged_content? hc fuel hitems).of_mem_elementsOf hc'
    · cases h

end

theorem itemsTagged_expandContent (d : Declarations) : (depth : Nat) → (active : List String) →
    ∀ scope name items, expandContent d depth active scope name = some items → ItemsTagged items
  | 0, active, scope, name, items, h => by
    rw [expandContent] at h
    cases h
  | depth + 1, active, scope, name, items, h => by
    rw [expandContent] at h
    split at h
    · split at h
      · cases h
      · dsimp only at h
        split at h
        · next read hread =>
          cases h
          exact itemsTagged_content? (itemsTagged_expandContent d depth (name :: active)) _ hread
        · cases h
    · cases h

/-- No tag of a document is empty. -/
theorem tagged_of_ofText? {text : String} {m : Markup} (h : ofText? text = some m) : m.Tagged := by
  have behind {opening : Option (Bool × List Char)}
      (h : (opening >>= fun x => prolog? (x.2.length + 1) false (.empty x.1) x.2 >>= fun y =>
        element? ⟨y.1, [], expandContent y.1 (y.1.entities.length + 1) []⟩ (2 * y.2.length + 2)
          outerScope y.2 >>= fun z =>
        if isEpilog (z.2.length + 1) z.2 then some z.1 else none) = some m) : m.Tagged := by
    obtain ⟨⟨alone, r⟩, -, h⟩ := Option.bind_eq_some_iff.mp h
    obtain ⟨⟨d, r⟩, -, h⟩ := Option.bind_eq_some_iff.mp h
    obtain ⟨⟨read, r⟩, hread, h⟩ := Option.bind_eq_some_iff.mp h
    dsimp only at h
    split at h
    · cases h
      exact tagged_element? (itemsTagged_expandContent d _ []) _ hread
    · cases h
  unfold ofText? at h
  dsimp only at h
  split at h
  · split at h
    · exact behind h
    · exact behind h
  · exact behind h

end FluentPlan.Markup
