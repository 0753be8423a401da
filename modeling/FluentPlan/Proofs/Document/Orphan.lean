import Mathlib
import FluentPlan.Element.Document
import FluentPlan.Proofs.Assembly.Site
import FluentPlan.Proofs.Document.Tag

/-!
Trees without an element. A tree in a plan document holds the children of the element before it; a
document where such an element is missing is refused, with the path of the element around the first
tree that misses one. That path is the one that a walk gives, behind a slash.
-/

namespace FluentPlan.Element

/-- The trees that have no element before them, in the order of the document, each by the elements
around it from the outermost on. -/
def orphans (above : List Element) : (owner : Option Element) → List Markup → List (List Element)
  | _, [] => []
  | owner, ⟨tag, attributes, text, children⟩ :: rest =>
    if tag = treeTag then
      match owner with
      | none => above :: orphans above none rest
      | some e => orphans (above ++ [e]) none children ++ orphans above (some e) rest
    else orphans above (some (ofTag ⟨tag, attributes, text, children⟩)) rest

/-- An element with others below it, each the only child of the one before. -/
def nest (e : Element) : List Element → Element
  | [] => { e with children := [] }
  | f :: fs => { e with children := [nest f fs] }

/-- The path that a walk gives the innermost of nested elements, if there is one. -/
def innermostPath? : List Element → Option String
  | [] => none
  | e :: es => (nest e es).paths.getLast?

/-! ### Paths of nested elements -/

/-- Labels, with a slash in front of each. -/
def slashed (es : List Element) : String := es.foldl (fun p e => p ++ "/" ++ e.label) ""

theorem slashed_concat (es : List Element) (e : Element) :
    slashed (es ++ [e]) = slashed es ++ "/" ++ e.label := by
  rw [slashed, List.foldl_append]
  rfl

theorem isEmpty_slashed (es : List Element) : (slashed es).isEmpty = es.isEmpty := by
  rcases List.eq_nil_or_concat es with rfl | ⟨es, e, rfl⟩
  · rfl
  · have hne : slashed (es.concat e) ≠ "" := by
      rw [List.concat_eq_append, slashed_concat]
      simp
    rw [String.isEmpty_eq_false_iff.mpr hne]
    simp

theorem getLast?_walk_nest (e : Element) (es : List Element) (parent : String) :
    (((nest e es).walk parent).map Prod.fst).getLast? =
      some (es.foldl (fun p f => pathUnder p f.label) (pathUnder parent e.label)) := by
  induction es generalizing e parent with
  | nil =>
    rw [nest, walk, walkAll_nil]
    rfl
  | cons f fs ih =>
    rw [nest, walk, walkAll, walkAll_nil, List.append_nil, List.map_cons, List.getLast?_cons, ih]
    rfl

theorem foldl_slash {p : String} (hp : p ≠ "") (es : List Element) :
    es.foldl (fun p e => p ++ "/" ++ e.label) ("/" ++ p) =
      "/" ++ es.foldl (fun p e => pathUnder p e.label) p := by
  induction es generalizing p with
  | nil => rfl
  | cons e es ih =>
    have hpath : pathUnder p e.label = p ++ "/" ++ e.label := by
      rw [pathUnder, if_neg (by simpa using hp)]
    have hne : p ++ "/" ++ e.label ≠ "" := by simp
    rw [List.foldl_cons, List.foldl_cons, hpath, ← ih hne]
    simp only [String.append_assoc]

/-- Labels with slashes are the path of a walk behind one more slash. -/
theorem slashed_eq {es : List Element} (h : ∀ e ∈ es, e.label ≠ "") :
    (if (slashed es).isEmpty then none else some (slashed es)) =
      (innermostPath? es).map ("/" ++ ·) := by
  cases es with
  | nil => rfl
  | cons e es =>
    have hpath : innermostPath? (e :: es) =
        some (es.foldl (fun p f => pathUnder p f.label) e.label) :=
      getLast?_walk_nest e es ""
    rw [isEmpty_slashed, hpath, Option.map_some, ← foldl_slash (h e List.mem_cons_self)]
    rfl

/-! ### Reading trees -/

/-- What reading a tree comes to when elements are missing from it. -/
def treeFault (owners : List Element) : Failure :=
  .problem (.schema .treeWithoutElement)
    (if (slashed owners).isEmpty then none else some (slashed owners))

/-- What reading comes to, by the elements around the first tree that misses its own. -/
inductive Comes : Option (List Element) → Except Failure (List Element) → Prop
  | fails (owners : List Element) : Comes (some owners) (.error (treeFault owners))
  | ends (es : List Element) : Comes none (.ok es)

/-- Reading fails at the first tree that misses its element, and only there. -/
theorem comes_ofTree (above : List Element) (owner : Option Element) (ms : List Markup) :
    ∀ before : List Element, before.head?.map label = owner.map label →
      Comes (orphans above owner ms).head? (ofTree (slashed above) before ms) := by
  induction above, owner, ms using orphans.induct with
  | case1 above owner =>
    intro before _
    rw [ofTree, orphans]
    exact .ends _
  | case2 above attributes text children rest ih =>
    intro before hb
    obtain rfl : before = [] := by simpa using hb
    rw [ofTree, orphans, if_pos rfl, if_pos rfl]
    exact .fails above
  | case3 above attributes text children rest e ihc ihr =>
    intro before hb
    -- The element in hand has children already if trees came before; only its label is in paths.
    obtain ⟨f, behind, rfl⟩ := List.exists_cons_of_ne_nil (show before ≠ [] by rintro rfl; cases hb)
    have hlabel : f.label = e.label := Option.some.inj hb
    have hpath : slashed above ++ "/" ++ f.label = slashed (above ++ [e]) := by
      rw [slashed_concat, hlabel]
    have hinner := ihc [] rfl
    rw [ofTree, orphans, if_pos rfl, if_pos rfl, hpath, List.head?_append]
    revert hinner
    generalize ofTree (slashed (above ++ [e])) [] children = read
    generalize (orphans (above ++ [e]) none children).head? = first
    rintro (owners | below)
    · exact .fails owners
    · exact ihr _ hb
  | case4 above owner tag attributes text children rest htag ih =>
    intro before _
    unfold ofTree orphans
    rw [if_neg htag, if_neg htag]
    exact ih _ rfl

theorem ofTree_eq_error_iff {ms : List Markup} {f : Failure} : ofTree "" [] ms = .error f ↔
    ∃ owners, (orphans [] none ms).head? = some owners ∧ treeFault owners = f := by
  have hread : Comes (orphans [] none ms).head? (ofTree "" [] ms) := comes_ofTree [] none ms [] rfl
  revert hread
  generalize ofTree "" [] ms = read
  generalize (orphans [] none ms).head? = first
  rintro (owners | es)
  · simp
  · simp

/-- The elements around a tree have labels that are not empty, if the tags of the document are not. -/
theorem label_ne_of_mem_orphans {above : List Element} {owner : Option Element} {ms : List Markup}
    (habove : ∀ e ∈ above, e.label ≠ "") (howner : ∀ e ∈ owner, e.label ≠ "")
    (hms : ∀ m ∈ ms, m.Tagged) :
    ∀ owners ∈ orphans above owner ms, ∀ e ∈ owners, e.label ≠ "" := by
  induction above, owner, ms using orphans.induct with
  | case1 above owner =>
    intro owners h
    rw [orphans] at h
    cases h
  | case2 above attributes text children rest ih =>
    intro owners h
    rw [orphans, if_pos rfl] at h
    rcases List.mem_cons.mp h with rfl | h
    · exact habove
    · exact ih habove nofun (fun m hm => hms m (List.mem_cons_of_mem _ hm)) owners h
  | case3 above attributes text children rest e ihc ihr =>
    intro owners h
    rw [orphans, if_pos rfl] at h
    rcases List.mem_append.mp h with h | h
    · refine ihc ?_ nofun (fun m hm => (hms _ List.mem_cons_self).of_mem_children hm) owners h
      intro f hf
      rcases List.mem_append.mp hf with hf | hf
      · exact habove f hf
      · exact List.mem_singleton.mp hf ▸ howner e rfl
    · exact ihr habove howner (fun m hm => hms m (List.mem_cons_of_mem _ hm)) owners h
  | case4 above owner tag attributes text children rest htag ih =>
    intro owners h
    unfold orphans at h
    rw [if_neg htag] at h
    refine ih habove ?_ (fun m hm => hms m (List.mem_cons_of_mem _ hm)) owners h
    rintro e ⟨⟩
    exact fun he => (hms _ List.mem_cons_self).tag_ne (kind_of_label_eq_empty he)

theorem ofMarkup_eq_treeWithoutElement_iff {m : Markup} {path : Option String} :
    ofMarkup m = .error (.problem (.schema .treeWithoutElement) path) ↔
      m.tag = rootTag ∧ ∃ tree, m.child? treeTag = some tree ∧
        ofTree "" [] tree.children = .error (.problem (.schema .treeWithoutElement) path) := by
  unfold ofMarkup
  by_cases htag : m.tag = rootTag
  · cases m.child? treeTag with
    | none => simp [htag, Failure.report]
    | some tree =>
      simp only [htag, ne_eq, not_true_eq_false, if_false, true_and, Option.some.injEq,
        exists_eq_left']
      split
      · next f hread => simp [hread]
      · next e hread => simp [hread]
      · next es _ hread => simp [hread, Failure.report]
  · simp [htag, Failure.report]

/-- A document is refused for a tree without an element if and only if there is such a tree, and then
with the path of the element around the first of them, if there is one: a slash, and the path that a
walk gives. -/
theorem ofMarkupText_eq_treeWithoutElement_iff (text : String) (path : Option String) :
    ofMarkupText text = .error (.problem (.schema .treeWithoutElement) path) ↔
      ∃ m tree owners, Markup.ofText? text = some m ∧ m.tag = rootTag ∧
        m.child? treeTag = some tree ∧ (orphans [] none tree.children).head? = some owners ∧
        path = (innermostPath? owners).map ("/" ++ ·) := by
  have path_eq {m tree : Markup} {owners : List Element} (hm : m.Tagged)
      (htree : m.child? treeTag = some tree)
      (hfirst : (orphans [] none tree.children).head? = some owners) :
      treeFault owners = .problem (.schema .treeWithoutElement)
        ((innermostPath? owners).map ("/" ++ ·)) := by
    have htagged : tree.Tagged := hm.of_mem_children (List.mem_of_find?_eq_some htree)
    rw [treeFault, slashed_eq]
    exact label_ne_of_mem_orphans (by simp) (by simp) (fun c hc => htagged.of_mem_children hc) owners
      (List.mem_of_head? hfirst)
  unfold ofMarkupText
  constructor
  · intro h
    split at h
    · next m hm =>
      obtain ⟨htag, tree, htree, hread⟩ := ofMarkup_eq_treeWithoutElement_iff.mp h
      obtain ⟨owners, hfirst, hfault⟩ := ofTree_eq_error_iff.mp hread
      rw [path_eq (Markup.tagged_of_ofText? hm) htree hfirst] at hfault
      exact ⟨m, tree, owners, hm, htag, htree, hfirst, (Failure.problem.inj hfault).2.symm⟩
    · cases h
  · rintro ⟨m, tree, owners, hm, htag, htree, hfirst, rfl⟩
    rw [hm]
    refine ofMarkup_eq_treeWithoutElement_iff.mpr ⟨htag, tree, htree, ?_⟩
    exact ofTree_eq_error_iff.mpr
      ⟨owners, hfirst, path_eq (Markup.tagged_of_ofText? hm) htree hfirst⟩

def bareTree (children : List Markup) : Markup := ⟨treeTag, [], "", children⟩

def barePlan : Markup := ⟨"TestPlan", [], "", []⟩

/-- A plan whose tree begins with a tree. -/
def headlessText : String :=
  "<jmeterTestPlan><hashTree><TestPlan/><hashTree><hashTree/></hashTree></hashTree></jmeterTestPlan>"

theorem ofText?_headlessText : Markup.ofText? headlessText =
    some ⟨rootTag, [], "", [bareTree [barePlan, bareTree [bareTree []]]]⟩ := by
  cbv

/-- The reported path is not the path of the plan, which a walk begins without a slash. -/
theorem exists_path_ne_innermost :
    ∃ m tree owners, Markup.ofText? headlessText = some m ∧ m.tag = rootTag ∧
      m.child? treeTag = some tree ∧ (orphans [] none tree.children).head? = some owners ∧
      innermostPath? owners = some "TestPlan" ∧
      ofMarkupText headlessText =
        .error (.problem (.schema .treeWithoutElement) (some "/TestPlan")) := by
  refine ⟨_, bareTree [barePlan, bareTree [bareTree []]], [ofTag barePlan], ofText?_headlessText,
    rfl, by cbv, by cbv, by cbv, ?_⟩
  rw [ofMarkupText, ofText?_headlessText]
  cbv

end FluentPlan.Element
