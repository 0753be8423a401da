import FluentPlan.Catalog.Builtin
import FluentPlan.Proofs.Rebuilding.Reading

/-!
Entries of collections. Every index below a collection has a call of its own, by increasing index.
The call reads the entry under the plain writing of its index. So a property under a plainly written
index is an argument of the call, while one under an index with zeros in front counts for the index
only, and its text is lost.
-/

namespace FluentPlan

open Text Number

/-! ### Writings of a number -/

namespace Number

/-- Whether digits have no zeros in front. -/
def isPlain : List Char → Bool
  | [] => false
  | [_] => true
  | c :: _ => c ≠ '0'

theorem exists_digitChar {c : Char} (h : c.isDigit = true) : ∃ d < 10, c = Nat.digitChar d := by
  rw [Char.isDigit, Bool.and_eq_true, decide_eq_true_eq, decide_eq_true_eq] at h
  have hlow : 48 ≤ c.toNat := h.1
  have hhigh : c.toNat ≤ 57 := h.2
  have hchar : ∀ d < 10, Char.ofNat (48 + d) = Nat.digitChar d := by decide
  refine ⟨c.toNat - 48, by omega, ?_⟩
  rw [← hchar _ (by omega), Nat.add_sub_cancel' hlow, Char.ofNat_toNat]

/-- Digits continue the writing of a number that is not zero. -/
theorem exists_digitsValue? {cs : List Char} (hcs : ∀ c ∈ cs, c.isDigit = true) (acc : Nat) :
    ∃ n, digitsValue? acc cs = some n ∧
      (0 < acc → Nat.toDigits 10 n = Nat.toDigits 10 acc ++ cs) := by
  induction cs generalizing acc with
  | nil => exact ⟨acc, rfl, fun _ => (List.append_nil _).symm⟩
  | cons c cs ih =>
    obtain ⟨d, hd, rfl⟩ := exists_digitChar (hcs c List.mem_cons_self)
    obtain ⟨n, hn, hw⟩ := ih (fun x hx => hcs x (List.mem_cons_of_mem _ hx)) (10 * acc + d)
    refine ⟨n, ?_, fun hacc => ?_⟩
    · rw [digitsValue?, decimalValue?_digitChar d hd, Option.bind_some, hn]
    · rw [hw (by omega), ← Nat.toDigits_append_toDigits (by decide) hacc hd,
        Nat.toDigits_of_lt_base hd, List.append_assoc, List.singleton_append]

/-- Digits have a value, and without zeros in front they are how it is written. -/
theorem exists_readNatural? {cs : List Char} (hne : cs ≠ []) (hcs : ∀ c ∈ cs, c.isDigit = true) :
    ∃ n, readNatural? cs = some n ∧ (isPlain cs = true → (toString n).toList = cs) := by
  obtain _ | ⟨c, cs⟩ := cs
  · exact absurd rfl hne
  obtain ⟨d, hd, rfl⟩ := exists_digitChar (hcs c List.mem_cons_self)
  obtain ⟨n, hn, hw⟩ := exists_digitsValue? (fun x hx => hcs x (List.mem_cons_of_mem _ hx)) d
  have htext (n : Nat) : (toString n).toList = Nat.toDigits 10 n := by simp [toString, Nat.repr]
  refine ⟨n, ?_, fun hplain => ?_⟩
  · simp only [readNatural?, List.isEmpty_cons, Bool.false_eq_true, if_false, digitsValue?,
      decimalValue?_digitChar d hd, Option.bind_some, Nat.mul_zero, Nat.zero_add, hn]
  · rw [htext]
    by_cases hpos : 0 < d
    · rw [hw hpos, Nat.toDigits_of_lt_base hd, List.singleton_append]
    · -- Of the writings with a zero in front only the zero itself is plain.
      obtain rfl : d = 0 := by omega
      obtain _ | ⟨x, cs⟩ := cs
      · cases hn
        rfl
      · exact absurd hplain (by simp [isPlain])

end Number

/-! ### Entries -/

/-- Whether a parameter reads its property and nothing else. -/
def Param.readsOne (p : Param) : Bool :=
  match p.kind with
  | .displayName | .children | .textList | .url | .holdDuration .. => false
  | _ => true

theorem Param.valueOf_of_readsOne {p : Param} (hp : p.readsOne = true) {key : String}
    (hk : p.prop = some key) (e : Element) (lead : String) :
    p.valueOf e lead = p.parse (e.properties.get? (lead ++ key)) := by
  obtain ⟨kind, prop, default, required, mandatory⟩ := p
  cases hk
  cases kind with
  | displayName | children | textList | url | holdDuration _ _ => cases hp
  | _ => rfl

namespace Element

/-- The key of a property in the entry of a collection that has some digits as its index. -/
def entryKey (each digits prop : String) : String := each ++ "/" ++ digits ++ "/" ++ prop

theorem entryKey_toString (each prop : String) (n : Nat) :
    entryKey each (toString n) prop = entryLead each n ++ prop := rfl

/-- Whether a call has the values of a modifier's parameters in the entry of an index. -/
def IsEntryCall (e : Element) (m : Modifier) (each : String) (n : Nat) (c : Call) : Prop :=
  ∃ values, valuesOf e (entryLead each n) m.params = .ok values ∧
    c = .chained m.method (argsOf values)

/-- The call of an entry has the value of each parameter among its arguments. -/
theorem IsEntryCall.exists_arg {e : Element} {m : Modifier} {each : String} {n : Nat} {c : Call}
    (h : IsEntryCall e m each n c) {p : Param} (hp : p ∈ m.params) :
    ∃ v, p.valueOf e (entryLead each n) = .ok v ∧ .ofParam p v ∈ c.head.args := by
  obtain ⟨values, hv, rfl⟩ := h
  obtain ⟨⟨q, v⟩, hx, hq, hval⟩ := exists_of_forall₂ (valuesOf_eq_ok hv).flip hp
  obtain rfl : q = p := hq
  exact ⟨v, hval, List.mem_map_of_mem (f := fun x => Arg.ofParam x.1 x.2) hx⟩

/-- The calls of each modifier stand one behind the other in the chain of the element's call. -/
theorem exists_modifierCalls {r : Registry} {o : Options} {path : String} {e : Element}
    {s : Signature} {c : Call} (hs : r.resolve? e = .ok s)
    (h : (e.assemble r o path).outcome = .ok c) (hne : c.isEmpty = false) {m : Modifier}
    (hm : m ∈ s.modifiers) :
    ∃ before calls behind, modifierCalls e m = .ok calls ∧
      c.chain = before ++ calls ++ behind := by
  obtain ⟨kind, name, enabled, properties, children⟩ := e
  obtain ⟨t, ht, hnone | ⟨head, chain, calls, hown, -, rfl⟩⟩ := assemble_eq_ok h
  · rw [hnone.2] at hne
    cases hne
  rw [hs] at ht
  cases ht
  obtain ⟨values, -, ⟨-, -, hnone⟩ | ⟨-, lists, hlists, hsome⟩⟩ := ownCall_eq_ok hown
  · cases hnone
  cases hsome
  obtain ⟨cs, hcs, hcall⟩ := exists_of_forall₂ hlists.flip hm
  obtain ⟨before, behind, rfl⟩ := List.append_of_mem hcs
  rcases withChildren_cases o s (ownHead o s ⟨kind, name, enabled, properties, children⟩
    (placeArgs s.params values)) (before ++ cs :: behind).flatten calls with
    ⟨-, hw⟩ | ⟨-, hw⟩ | ⟨-, -, hw⟩ <;> rw [hw]
  · exact ⟨before.flatten, cs, behind.flatten, hcall, by simp⟩
  · exact ⟨before.flatten, cs, behind.flatten ++ [.chainedChildren (Call.order o.categories calls)],
      hcall, by simp⟩
  · exact ⟨before.flatten, cs, behind.flatten, hcall, by simp⟩

/-- A property under an index of any writing: what the call of the index has as argument is what
stands under the plain writing. -/
theorem exists_entryCall {e : Element} {m : Modifier} {each : String} {found : List Nat}
    {calls : List Call} (hf : indices e.properties each "" = .ok found)
    (hcalls : List.Forall₂ (IsEntryCall e m each) found calls) {digits prop raw : String}
    (hne : digits ≠ "") (hd : ∀ d ∈ digits.toList, d.isDigit = true)
    (hget : e.properties.get? (entryKey each digits prop) = some raw) {p : Param}
    (hp : p ∈ m.params) (hprop : p.prop = some prop) (hone : p.readsOne = true) :
    ∃ (n i : Nat) (call : Call) (v : Option Value), readNatural? digits.toList = some n ∧
      found[i]? = some n ∧ calls[i]? = some call ∧ .ofParam p v ∈ call.head.args ∧
      p.parse (e.properties.get? (entryKey each (toString n) prop)) = .ok v ∧
      (isPlain digits.toList = true → p.parse (some raw) = .ok v) := by
  have hnil : digits.toList ≠ [] := by simpa using hne
  obtain ⟨n, hn, hplain⟩ := exists_readNatural? hnil hd
  have hkey : entryKey each digits prop ∈ e.properties.keys :=
    List.mem_map_of_mem (f := Prod.fst) (Properties.get?_eq_some_iff.mp hget)
  have hfound : n ∈ found :=
    ((indices_eq_ok hf).2 n).mpr ⟨_, hkey, indexIn?_of_digits hnil hd hn each prop⟩
  obtain ⟨i, hi, rfl⟩ := List.getElem_of_mem hfound
  have hi' : i < calls.length := hcalls.length_eq ▸ hi
  have hcall : IsEntryCall e m each found[i] calls[i] := hcalls.get hi hi'
  obtain ⟨v, hv, harg⟩ := hcall.exists_arg hp
  rw [Param.valueOf_of_readsOne hone hprop, ← entryKey_toString] at hv
  refine ⟨found[i], i, calls[i], v, hn, List.getElem?_eq_getElem hi,
    List.getElem?_eq_getElem hi', harg, hv, fun hpl => ?_⟩
  rw [String.toList_inj.mp (hplain hpl), hget] at hv
  exact hv

/-- A modifier for a collection that its guard accepts has one call for every index that a key has
below the collection, by increasing index. For a property under an index of any writing, the call of
the index has as argument what stands under the plain writing; that is the property itself if it is
under the plain writing. -/
theorem entries_of_assemble {r : Registry} {o : Options} {path : String} {e : Element}
    {s : Signature} {c : Call} (hs : r.resolve? e = .ok s)
    (h : (e.assemble r o path).outcome = .ok c) (hne : c.isEmpty = false) {m : Modifier}
    (hm : m ∈ s.modifiers) {each : String} (heach : m.each = some each)
    (hg : m.guard.all (·.accepts e.properties) = true) :
    ∃ found before calls behind, c.chain = before ++ calls ++ behind ∧
      found.Pairwise (· < ·) ∧
      (∀ n, n ∈ found ↔ ∃ k ∈ e.properties.keys, indexIn? (each ++ "/") k = .ok (some n)) ∧
      List.Forall₂ (IsEntryCall e m each) found calls ∧
      ∀ digits prop raw p, digits ≠ "" → (∀ d ∈ digits.toList, d.isDigit = true) →
        e.properties.get? (entryKey each digits prop) = some raw →
        p ∈ m.params → p.prop = some prop → p.readsOne = true →
        ∃ (n i : Nat) (call : Call) (v : Option Value), readNatural? digits.toList = some n ∧
          found[i]? = some n ∧ calls[i]? = some call ∧ .ofParam p v ∈ call.head.args ∧
          p.parse (e.properties.get? (entryKey each (toString n) prop)) = .ok v ∧
          (isPlain digits.toList = true → p.parse (some raw) = .ok v) := by
  obtain ⟨before, calls, behind, hcalls, hchain⟩ := exists_modifierCalls hs h hne hm
  obtain ⟨hrefused, -⟩ | ⟨-, found, hfound, hentries⟩ := modifierCalls_each heach hcalls
  · cases hguard : m.guard with
    | none => simp [hguard] at hrefused
    | some g => simp_all
  obtain ⟨hlt, hmem⟩ := indices_eq_ok hfound
  exact ⟨found, before, calls, behind, hchain, hlt, hmem, hentries,
    fun _ _ _ _ hdne hd hget hp hprop hone =>
      exists_entryCall hfound hentries hdne hd hget hp hprop hone⟩

/-! ### Variables -/

open Catalog.Configuration (vars)

/-- The modifier that sets one variable. -/
def setVar : Modifier :=
  (Modifier.ofParams "set" [.text "Argument.name", .text "Argument.value"]).forEach
    "Arguments.arguments"

/-- An element that defines variables, under some keys. -/
def varsOf (entries : List (String × String)) : Element :=
  ⟨"Arguments", none, true, .ofList entries, []⟩

theorem resolve?_varsOf (entries : List (String × String)) :
    Registry.standard.resolve? (varsOf entries) = .ok vars :=
  Registry.resolve?_of_first rfl rfl rfl

/-- Variables are set by one call for each index. -/
theorem assemble_varsOf {entries : List (String × String)} {found : List Nat} {cs : List Call}
    (hf : indices (varsOf entries).properties "Arguments.arguments" "" = .ok found)
    (hcs : List.Forall₂ (IsEntryCall (varsOf entries) setVar "Arguments.arguments") found cs)
    (o : Options) (path : String) :
    ((varsOf entries).assemble .standard o path).outcome =
      .ok ⟨ownHead o vars (varsOf entries) [], [], cs⟩ := by
  have hcalls : modifierCalls (varsOf entries) setVar = .ok cs := by
    have hall : found.mapM (fun i => do
        let values ← valuesOf (varsOf entries) (entryLead "Arguments.arguments" i) setVar.params
        return Call.chained setVar.method (argsOf values)) = .ok cs := by
      refine (mapM_eq_ok_iff _ _ _).mpr (hcs.imp fun i c hc => ?_)
      obtain ⟨values, hv, rfl⟩ := hc
      rw [hv]
      rfl
    have hg : setVar.guard.any (fun g => !g.accepts (varsOf entries).properties) = false := rfl
    rw [modifierCalls, hg]
    exact (congrArg (· >>= _) hf).trans hall
  have hown : ownCall o vars (varsOf entries) =
      .ok (some (ownHead o vars (varsOf entries) [], cs)) := by
    have hmod : vars.modifiers = [setVar] := rfl
    unfold ownCall
    rw [hmod, List.mapM_cons, hcalls]
    exact congrArg (fun l => Except.ok (some (ownHead o vars (varsOf entries) [], l)))
      (List.append_nil cs)
  exact assemble_of_ownCall (resolve?_varsOf entries) hown rfl

/-- Variables under the indices 2 and 10. -/
def sparseVars : List (String × String) :=
  [("Arguments.arguments/2/Argument.name", "user"),
    ("Arguments.arguments/10/Argument.name", "host"),
    ("Arguments.arguments/10/Argument.value", "localhost")]

/-- The value under the index 10 is an argument of a call. -/
theorem entries_of_assemble_sparseVars :
    let e := varsOf sparseVars
    ∃ c, (Registry.standard.resolve? e = .ok vars ∧ (e.assemble .standard {} "").outcome = .ok c ∧
        c.isEmpty = false ∧ setVar ∈ vars.modifiers ∧ setVar.each = some "Arguments.arguments" ∧
        setVar.guard.all (·.accepts e.properties) = true) ∧
      ∃ call ∈ c.chain,
        .scalar (.text "Argument.value") (some (.text "localhost")) ∈ call.head.args := by
  intro e
  have hf : indices e.properties "Arguments.arguments" "" = .ok [2, 10] := by
    have hsorted : [2, 10].mergeSort (fun a b => decide (a ≤ b)) = [2, 10] :=
      List.mergeSort_of_pairwise (by decide)
    exact congrArg Except.ok hsorted
  have hcs : List.Forall₂ (IsEntryCall e setVar "Arguments.arguments") [2, 10]
      [.chained "set" [.scalar (.text "Argument.name") (some (.text "user")),
          .scalar (.text "Argument.value") none],
        .chained "set" [.scalar (.text "Argument.name") (some (.text "host")),
          .scalar (.text "Argument.value") (some (.text "localhost"))]] :=
    .cons ⟨_, by rfl, rfl⟩ (.cons ⟨_, by rfl, rfl⟩ .nil)
  have hs := resolve?_varsOf sparseVars
  have hc := assemble_varsOf hf hcs {} ""
  refine ⟨_, ⟨hs, hc, rfl, List.mem_singleton_self _, rfl, rfl⟩, ?_⟩
  obtain ⟨found, before, calls, behind, hchain, -, -, -, hall⟩ :=
    entries_of_assemble hs hc rfl (List.mem_singleton_self setVar) rfl rfl
  obtain ⟨n, i, call, v, -, -, hi, harg, -, hv⟩ := hall "10" "Argument.value" "localhost"
    (.text "Argument.value") (by decide) (List.all_eq_true.mp rfl) rfl (by decide) rfl rfl
  obtain rfl : some (.text "localhost") = v := Except.ok.inj (hv rfl)
  exact ⟨call, by rw [hchain]; simp [List.mem_of_getElem? hi], harg⟩

/-- A variable whose index is written with a zero in front is lost: its element converts, and the
call of its index has neither its name nor its value. -/
theorem exists_entry_lost :
    let entries := [("Arguments.arguments/01/Argument.name", "user"),
      ("Arguments.arguments/01/Argument.value", "admin")]
    ∃ c, ((varsOf entries).assemble .standard {} "").outcome = .ok c ∧
      setVar ∈ vars.modifiers ∧ setVar.each = some "Arguments.arguments" ∧ setVar.guard = none ∧
      (varsOf entries).properties.get? (entryKey "Arguments.arguments" "01" "Argument.name") =
        some "user" ∧
      c.chain.map (fun call => call.head.args) =
        [[.scalar (.text "Argument.name") none, .scalar (.text "Argument.value") none]] := by
  intro entries
  have hf : indices (varsOf entries).properties "Arguments.arguments" "" = .ok [1] :=
    congrArg Except.ok (List.mergeSort_singleton 1)
  have hcs : List.Forall₂ (IsEntryCall (varsOf entries) setVar "Arguments.arguments") [1]
      [.chained "set" [.scalar (.text "Argument.name") none,
        .scalar (.text "Argument.value") none]] :=
    .cons ⟨_, by rfl, rfl⟩ .nil
  exact ⟨_, assemble_varsOf hf hcs {} "", List.mem_singleton_self _, rfl, rfl, rfl, rfl⟩

end Element

end FluentPlan
