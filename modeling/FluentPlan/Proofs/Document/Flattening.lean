import Mathlib.Data.List.Nodup
import Mathlib.Tactic.Common
import FluentPlan.Element.Document
import FluentPlan.Number.Integer
import FluentPlan.Proofs.Rebuilding.Entries

/-!
Flat properties of plan documents. A value that is nested in the properties of an element has the
names of its containers and its own name, with positions in place of names inside collections. Where
siblings that are read by name have distinct names without slashes, the names joined by slashes tell
all values apart, so each value keeps its own entry among the properties of the element.
-/

namespace FluentPlan.Element

/-- Whether a part of a document is a property, which is a value or a container of them. -/
def isProperty (m : Markup) : Bool :=
  valueTags.contains m.tag || m.tag = groupTag || m.tag = collectionTag

/-- The name under which a property stands among its siblings. -/
def propertyName (m : Markup) : String :=
  if valueTags.contains m.tag then (namedValue m).1 else (m.attribute? "name").getD ""

def propertyNames (siblings : List Markup) : List String :=
  (siblings.filter isProperty).map propertyName

/-- A value among nested properties: the names of the containers that it is in, the outermost first,
its own name and its text. What a collection holds goes by its position there. -/
structure Leaf where
  containers : List String
  name : String
  text : String
deriving DecidableEq

namespace Leaf

def names (l : Leaf) : List String := l.containers ++ [l.name]

def key (l : Leaf) : String := String.intercalate "/" l.names

/-- The entry of a value behind `lead`. -/
def entry (lead : String) (l : Leaf) : String × String := (lead ++ l.key, l.text)

/-- The value inside one more container. -/
def inside (container : String) (l : Leaf) : Leaf := { l with containers := container :: l.containers }

@[simp] theorem names_inside (container : String) (l : Leaf) :
    (l.inside container).names = container :: l.names := rfl

theorem entry_inside (lead container : String) (l : Leaf) :
    (l.inside container).entry lead = l.entry (lead ++ container ++ "/") := by
  have hne : l.names ≠ [] := List.append_ne_nil_of_right_ne_nil _ (List.cons_ne_nil _ _)
  simp only [entry, key, names_inside, String.intercalate_cons_of_ne_nil hne, String.append_assoc]
  rfl

theorem map_entry_inside (lead container : String) (ls : List Leaf) :
    (ls.map (inside container)).map (entry lead) = ls.map (entry (lead ++ container ++ "/")) := by
  rw [List.map_map]
  exact List.map_congr_left fun l _ => l.entry_inside lead container

/-- Names without slashes are found again in the key. -/
theorem names_inj {l k : Leaf} (hl : ∀ n ∈ l.names, '/' ∉ n.toList)
    (hk : ∀ n ∈ k.names, '/' ∉ n.toList) (h : l.key = k.key) : l.names = k.names := by
  have split {j : Leaf} (hj : ∀ n ∈ j.names, '/' ∉ n.toList) :
      List.splitOn '/' j.key.toList = j.names.map String.toList := by
    rw [key, String.toList_intercalate]
    exact List.splitOn_intercalate '/' (by simpa using hj) (by simp [names])
  have hsplit : l.names.map String.toList = k.names.map String.toList := by
    rw [← split hl, ← split hk, h]
  exact List.map_injective_iff.mpr (fun _ _ => String.toList_injective) hsplit

end Leaf

mutual

/-- The values of a property that stands under `name`, in the order of the document. -/
def leaves (name : String) : Markup → List Leaf
  | ⟨tag, attributes, text, children⟩ =>
    if valueTags.contains tag then [⟨[], name, (namedValue ⟨tag, attributes, text, children⟩).2⟩]
    else if tag = groupTag then (namedLeaves children).map (.inside name)
    else if tag = collectionTag then (indexedLeaves 0 children).map (.inside name)
    else []

/-- The values of properties that go by their names. -/
def namedLeaves : List Markup → List Leaf
  | [] => []
  | m :: rest => leaves (propertyName m) m ++ namedLeaves rest

/-- The values of the entries of a collection, which go by their positions from `index` on. -/
def indexedLeaves (index : Nat) : List Markup → List Leaf
  | [] => []
  | m :: rest => leaves (toString index) m ++ indexedLeaves (index + 1) rest

end

mutual

/-- The siblings that are read by name inside a property, level by level. -/
def groups : Markup → List (List Markup)
  | ⟨tag, _, _, children⟩ =>
    if tag = groupTag then children :: groupsAll children
    else if tag = collectionTag then groupsAll children
    else []

def groupsAll : List Markup → List (List Markup)
  | [] => []
  | m :: rest => groups m ++ groupsAll rest

end

/-- Siblings whose names tell them apart, also when slashes stand between names. -/
structure Apart (siblings : List Markup) : Prop where
  distinct : (propertyNames siblings).Nodup
  unslashed : ∀ n ∈ propertyNames siblings, '/' ∉ n.toList

instance (siblings : List Markup) : Decidable (Apart siblings) :=
  decidable_of_iff ((propertyNames siblings).Nodup ∧ ∀ n ∈ propertyNames siblings, '/' ∉ n.toList)
    ⟨fun h => ⟨h.1, h.2⟩, fun h => ⟨h.distinct, h.unslashed⟩⟩

/-! ### Reading puts the values one after the other -/

mutual

theorem putNamed_eq : (ms : List Markup) → (lead : String) → (p : Properties) →
    putNamed lead ms p = p.putAll ((namedLeaves ms).map (Leaf.entry lead))
  | [], lead, p => by rw [putNamed, namedLeaves, List.map_nil, Properties.putAll_nil]
  | ⟨tag, attributes, text, children⟩ :: rest, lead, p => by
    rw [putNamed, putNamed_eq rest, namedLeaves, List.map_append, Properties.putAll_append, leaves]
    congr 1
    by_cases hv : valueTags.contains tag = true
    · simp only [hv, if_true, propertyName]
      rfl
    · simp only [hv, propertyName, Bool.false_eq_true, if_false]
      split_ifs
      · rw [putNamed_eq children, Leaf.map_entry_inside]
      · rw [putIndexed_eq children, Leaf.map_entry_inside]
      · rfl

theorem putIndexed_eq : (ms : List Markup) → (lead : String) → (index : Nat) → (p : Properties) →
    putIndexed lead index ms p = p.putAll ((indexedLeaves index ms).map (Leaf.entry lead))
  | [], lead, index, p => by rw [putIndexed, indexedLeaves, List.map_nil, Properties.putAll_nil]
  | ⟨tag, attributes, text, children⟩ :: rest, lead, index, p => by
    rw [putIndexed, putIndexed_eq rest, indexedLeaves, List.map_append, Properties.putAll_append,
      leaves]
    congr 1
    split_ifs
    · rfl
    · rw [putNamed_eq children, Leaf.map_entry_inside]
    · rw [putIndexed_eq children, Leaf.map_entry_inside]
    · rfl

end

/-! ### Names tell the values apart -/

theorem head_of_mem_leaves {name : String} {m : Markup} {l : Leaf} (h : l ∈ leaves name m) :
    l.names.head? = some name ∧ isProperty m = true := by
  obtain ⟨tag, attributes, text, children⟩ := m
  rw [leaves] at h
  split_ifs at h with hv hg hc
  · rw [List.mem_singleton.mp h]
    exact ⟨rfl, by rw [isProperty, hv, Bool.true_or, Bool.true_or]⟩
  · obtain ⟨k, -, rfl⟩ := List.mem_map.mp h
    exact ⟨rfl, by simp [isProperty, hg]⟩
  · obtain ⟨k, -, rfl⟩ := List.mem_map.mp h
    exact ⟨rfl, by simp [isProperty, hc]⟩
  · exact absurd h List.not_mem_nil

theorem propertyNames_cons (m : Markup) (rest : List Markup) :
    propertyNames (m :: rest) =
      if isProperty m then propertyName m :: propertyNames rest else propertyNames rest := by
  unfold propertyNames
  rw [List.filter_cons]
  split <;> rfl

theorem head_of_mem_namedLeaves {ms : List Markup} {l : Leaf} (h : l ∈ namedLeaves ms) :
    ∃ n ∈ propertyNames ms, l.names.head? = some n := by
  induction ms with
  | nil => exact absurd h (by rw [namedLeaves]; exact List.not_mem_nil)
  | cons m rest ih =>
    rw [namedLeaves] at h
    rw [propertyNames_cons]
    rcases List.mem_append.mp h with h | h
    · obtain ⟨hhead, hm⟩ := head_of_mem_leaves h
      exact ⟨propertyName m, by rw [if_pos hm]; exact List.mem_cons_self, hhead⟩
    · obtain ⟨n, hn, hhead⟩ := ih h
      refine ⟨n, ?_, hhead⟩
      split
      · exact List.mem_cons_of_mem _ hn
      · exact hn

theorem head_of_mem_indexedLeaves {ms : List Markup} {index : Nat} {l : Leaf}
    (h : l ∈ indexedLeaves index ms) : ∃ n, index ≤ n ∧ l.names.head? = some (toString n) := by
  induction ms generalizing index with
  | nil => exact absurd h (by rw [indexedLeaves]; exact List.not_mem_nil)
  | cons m rest ih =>
    rw [indexedLeaves] at h
    rcases List.mem_append.mp h with h | h
    · exact ⟨index, Nat.le_refl index, (head_of_mem_leaves h).1⟩
    · obtain ⟨n, hn, hhead⟩ := ih h
      exact ⟨n, by omega, hhead⟩

/-- Values that their keys tell apart. -/
structure Keyed (ls : List Leaf) : Prop where
  distinct : (ls.map Leaf.names).Nodup
  unslashed : ∀ l ∈ ls, ∀ n ∈ l.names, '/' ∉ n.toList

namespace Keyed

theorem nil : Keyed [] := ⟨List.nodup_nil, fun _ h => absurd h List.not_mem_nil⟩

theorem inside {ls : List Leaf} (h : Keyed ls) {name : String} (hname : '/' ∉ name.toList) :
    Keyed (ls.map (Leaf.inside name)) := by
  refine ⟨?_, fun l hl n hn => ?_⟩
  · have hcons := h.distinct.map (List.cons_injective (a := name))
    rwa [List.map_map] at hcons ⊢
  · obtain ⟨k, hk, rfl⟩ := List.mem_map.mp hl
    rcases List.mem_cons.mp hn with rfl | hn
    · exact hname
    · exact h.unslashed k hk n hn

/-- Values whose names do not begin alike are told apart by that. -/
theorem append {ls ks : List Leaf} (hl : Keyed ls) (hk : Keyed ks)
    (hne : ∀ l ∈ ls, ∀ k ∈ ks, l.names.head? ≠ k.names.head?) : Keyed (ls ++ ks) := by
  refine ⟨?_, fun l h => ?_⟩
  · rw [List.map_append, List.nodup_append]
    refine ⟨hl.distinct, hk.distinct, fun a ha b hb hab => ?_⟩
    obtain ⟨l, hls, rfl⟩ := List.mem_map.mp ha
    obtain ⟨k, hks, rfl⟩ := List.mem_map.mp hb
    exact hne l hls k hks (congrArg List.head? hab)
  · exact (List.mem_append.mp h).elim (hl.unslashed l) (hk.unslashed l)

/-- The keys of the values are distinct too. -/
theorem nodup_keys {ls : List Leaf} (h : Keyed ls) : (ls.map Leaf.key).Nodup := by
  refine (List.nodup_map_iff_inj_on h.distinct.of_map).mpr fun l hl k hk hkey => ?_
  exact List.inj_on_of_nodup_map h.distinct hl hk
    (Leaf.names_inj (h.unslashed l hl) (h.unslashed k hk) hkey)

end Keyed

namespace Apart

variable {m : Markup} {rest : List Markup}

theorem of_cons (h : Apart (m :: rest)) : Apart rest := by
  obtain ⟨hd, hu⟩ := h
  rw [propertyNames_cons] at hd hu
  split_ifs at hd hu
  · exact ⟨(List.nodup_cons.mp hd).2, fun n hn => hu n (List.mem_cons_of_mem _ hn)⟩
  · exact ⟨hd, hu⟩

theorem not_mem (h : Apart (m :: rest)) (hm : isProperty m = true) :
    propertyName m ∉ propertyNames rest := by
  have hd := h.distinct
  rw [propertyNames_cons, if_pos hm] at hd
  exact (List.nodup_cons.mp hd).1

end Apart

theorem toString_unslashed (n : Nat) : '/' ∉ (toString n).toList := fun h => by
  rw [Nat.toString_eq_repr, Nat.toList_repr] at h
  exact absurd (Nat.isDigit_of_mem_toDigits (by decide) (by decide) h) (by decide)

mutual

/-- The values of a property are told apart if the siblings inside it are. -/
theorem keyed_leaves : (m : Markup) → {name : String} → '/' ∉ name.toList →
    (∀ s ∈ groups m, Apart s) → Keyed (leaves name m)
  | ⟨tag, attributes, text, children⟩, name, hname, h => by
    rw [groups] at h
    rw [leaves]
    by_cases hv : valueTags.contains tag = true
    · rw [if_pos hv]
      exact ⟨List.nodup_singleton _, by simpa [Leaf.names] using hname⟩
    rw [if_neg hv]
    split_ifs at h ⊢
    · exact (keyed_namedLeaves children (h _ List.mem_cons_self)
        fun s hs => h s (List.mem_cons_of_mem _ hs)).inside hname
    · exact (keyed_indexedLeaves children 0 h).inside hname
    · exact .nil

theorem keyed_namedLeaves : (ms : List Markup) → Apart ms → (∀ s ∈ groupsAll ms, Apart s) →
    Keyed (namedLeaves ms)
  | [], _, _ => by
    rw [namedLeaves]
    exact .nil
  | m :: rest, hap, h => by
    rw [groupsAll] at h
    rw [namedLeaves]
    have hrest := keyed_namedLeaves rest hap.of_cons fun s hs => h s (List.mem_append_right _ hs)
    -- A part that is no property has no values; its name is not among those that are distinct.
    by_cases hm : isProperty m = true
    · have hname := hap.unslashed (propertyName m)
        (by rw [propertyNames_cons, if_pos hm]; exact List.mem_cons_self)
      refine (keyed_leaves m hname fun s hs => h s (List.mem_append_left _ hs)).append hrest ?_
      intro l hl k hk hhead
      obtain ⟨n, hn, hkn⟩ := head_of_mem_namedLeaves hk
      rw [(head_of_mem_leaves hl).1, hkn, Option.some.injEq] at hhead
      exact hap.not_mem hm (hhead ▸ hn)
    · have hnil : leaves (propertyName m) m = [] :=
        List.eq_nil_iff_forall_not_mem.mpr fun l hl => hm (head_of_mem_leaves hl).2
      rwa [hnil, List.nil_append]

theorem keyed_indexedLeaves : (ms : List Markup) → (index : Nat) →
    (∀ s ∈ groupsAll ms, Apart s) → Keyed (indexedLeaves index ms)
  | [], _, _ => by
    rw [indexedLeaves]
    exact .nil
  | m :: rest, index, h => by
    rw [groupsAll] at h
    rw [indexedLeaves]
    have hrest := keyed_indexedLeaves rest (index + 1) fun s hs => h s (List.mem_append_right _ hs)
    refine (keyed_leaves m (toString_unslashed index)
      fun s hs => h s (List.mem_append_left _ hs)).append hrest ?_
    intro l hl k hk hhead
    obtain ⟨n, hn, hkn⟩ := head_of_mem_indexedLeaves hk
    rw [(head_of_mem_leaves hl).1, hkn, Option.some.injEq] at hhead
    have heq : index = n := Option.some.inj (by
      rw [← Number.readNatural?_toString index, hhead, Number.readNatural?_toString])
    omega

end

/-! ### The properties of an element -/

/-- The entry of the editor class, if an element has one. -/
def editorEntry (m : Markup) : List (String × String) :=
  match m.attribute? "guiclass" with
  | some editor => if editor = "" then [] else [(editorClass, editor)]
  | none => []

theorem mem_editorEntry {m : Markup} {key text : String} : (key, text) ∈ editorEntry m ↔
    key = editorClass ∧ m.attribute? "guiclass" = some text ∧ text ≠ "" := by
  unfold editorEntry
  cases m.attribute? "guiclass" with
  | none => simp
  | some editor =>
    by_cases he : editor = ""
    · simp [he]
    · simp only [he, if_false, List.mem_singleton, Prod.mk.injEq, Option.some.injEq]
      exact and_congr_right fun _ => ⟨fun ht => ⟨ht.symm, ht ▸ he⟩, fun ht => ht.1.symm⟩

theorem nodup_editorEntry (m : Markup) : ((editorEntry m).map Prod.fst).Nodup := by
  unfold editorEntry
  split
  · split
    · exact List.nodup_nil
    · exact List.nodup_singleton _
  · exact List.nodup_nil

/-- The properties of an element are its editor class, if it has one, and then its values. -/
theorem properties_ofTag (m : Markup) : (ofTag m).properties =
    Properties.empty.putAll (editorEntry m ++ (namedLeaves m.children).map (Leaf.entry "")) := by
  have hbase : Properties.empty.putAll (editorEntry m) =
      if ((m.attribute? "guiclass").getD "").isEmpty then Properties.empty
      else Properties.empty.put editorClass ((m.attribute? "guiclass").getD "") := by
    unfold editorEntry
    cases m.attribute? "guiclass" with
    | none => rfl
    | some editor =>
      simp only [Option.getD_some, String.isEmpty_iff]
      split <;> rfl
  rw [Properties.putAll_append, hbase, ← putNamed_eq]
  rfl

theorem ne_editorClass_of_mem_namedLeaves {ms : List Markup} (h : Keyed (namedLeaves ms))
    (hclass : editorClass ∉ propertyNames ms) {l : Leaf} (hl : l ∈ namedLeaves ms) :
    l.key ≠ editorClass := by
  intro hkey
  obtain ⟨n, hn, hhead⟩ := head_of_mem_namedLeaves hl
  have hnames : l.names = [editorClass] :=
    Leaf.names_inj (k := ⟨[], editorClass, ""⟩) (h.unslashed l hl) (by decide) hkey
  rw [hnames, List.head?_cons, Option.some.injEq] at hhead
  exact hclass (hhead ▸ hn)

/-- Values that are told apart, none of them named like the editor class, stand in the properties as
they were read. -/
theorem entries_ofTag {m : Markup} (h : Keyed (namedLeaves m.children))
    (hclass : editorClass ∉ propertyNames m.children) : (ofTag m).properties.entries =
      editorEntry m ++ (namedLeaves m.children).map (Leaf.entry "") := by
  have hkeys : ((namedLeaves m.children).map (Leaf.entry "")).map Prod.fst =
      (namedLeaves m.children).map Leaf.key := by
    rw [List.map_map]
    exact List.map_congr_left fun l _ => String.empty_append
  have hnodup : ((editorEntry m ++ (namedLeaves m.children).map (Leaf.entry "")).map
      Prod.fst).Nodup := by
    rw [List.map_append, hkeys, List.nodup_append]
    refine ⟨nodup_editorEntry m, h.nodup_keys, fun a ha b hb hab => ?_⟩
    obtain ⟨e, he, rfl⟩ := List.mem_map.mp ha
    obtain ⟨l, hl, rfl⟩ := List.mem_map.mp hb
    exact ne_editorClass_of_mem_namedLeaves h hclass hl (hab ▸ (mem_editorEntry.mp he).1)
  have hall := @Properties.filter_putAll_of_nodup (fun _ => true)
    (editorEntry m ++ (namedLeaves m.children).map (Leaf.entry "")) (by rwa [List.filter_true])
  rwa [List.filter_true, List.filter_true, ← properties_ofTag] at hall

/-- Where names tell siblings apart and no property is named like the editor class, every nested value
of an element has a key of its own, and the element has its text there. The element has no more
properties, save for its editor class. -/
theorem flattening_ofTag {m : Markup} (h : ∀ s ∈ m.children :: groupsAll m.children, Apart s)
    (hclass : editorClass ∉ propertyNames m.children) :
    ((namedLeaves m.children).map Leaf.key).Nodup ∧
      ∀ key text, (ofTag m).properties.get? key = some text ↔
        (key = editorClass ∧ m.attribute? "guiclass" = some text ∧ text ≠ "") ∨
          ∃ l ∈ namedLeaves m.children, l.key = key ∧ l.text = text := by
  have hkeyed : Keyed (namedLeaves m.children) :=
    keyed_namedLeaves m.children (h _ List.mem_cons_self) fun s hs =>
      h s (List.mem_cons_of_mem _ hs)
  refine ⟨hkeyed.nodup_keys, fun key text => ?_⟩
  rw [Properties.get?_eq_some_iff, entries_ofTag hkeyed hclass, List.mem_append, mem_editorEntry]
  simp only [List.mem_map, Leaf.entry, String.empty_append, Prod.mk.injEq]

/-- Two headers, in groups without names inside a collection. -/
def twoHeaders : Markup :=
  let value (name text : String) : Markup := ⟨"stringProp", [("name", name)], text, []⟩
  let header (name text : String) : Markup :=
    ⟨groupTag, [("name", "")], "", [value "Header.name" name, value "Header.value" text]⟩
  ⟨"HeaderManager", [("guiclass", "HeaderPanel")], "",
    [⟨collectionTag, [("name", "HeaderManager.headers")], "",
      [header "Accept" "text/html", header "Host" "example.org"]⟩]⟩

theorem flattening_ofTag_twoHeaders :
    (ofTag twoHeaders).properties.get? editorClass = some "HeaderPanel" ∧
      (ofTag twoHeaders).properties.get? "HeaderManager.headers/1/Header.name" = some "Host" := by
  obtain ⟨-, hget⟩ := flattening_ofTag (m := twoHeaders) (by decide) (by decide)
  refine ⟨(hget _ _).mpr (.inl ⟨rfl, by decide, by decide⟩), (hget _ _).mpr (.inr ?_)⟩
  exact ⟨⟨["HeaderManager.headers", "1"], "Header.name", "Host"⟩, by decide, by decide, rfl⟩

end FluentPlan.Element
