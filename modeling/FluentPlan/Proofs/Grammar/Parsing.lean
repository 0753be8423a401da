import Mathlib.Data.List.Basic
import Mathlib.Tactic.Common
import FluentPlan.Proofs.Grammar.Derivation

/-!
The parser accepts every text of the grammar, and gives back the expression that the words were
derived from, positions apart. Statements are about tokens that say given words and something behind
them; the parser leaves what is behind.
-/

namespace FluentPlan.Script

open Word

/-! ### Tokens by what they say -/

theorem exists_token {ts : List Token} {w : Word} {ws : List Word}
    (h : ts.map Token.content = w :: ws) :
    ∃ t us, ts = t :: us ∧ t.kind = w.1 ∧ t.value = w.2 ∧ us.map Token.content = ws := by
  cases ts with
  | nil => cases h
  | cons t us =>
    rw [List.map_cons, List.cons.injEq] at h
    exact ⟨t, us, rfl, congrArg Prod.fst h.1, congrArg Prod.snd h.1, h.2⟩

/-- The next token is an operator exactly if the words behind begin with it. -/
theorem isOp_peek {ts : List Token} {ws : List Word} (h : ts.map Token.content = ws) (s : String) :
    (peek ts).isOp s = true ↔ ws.head? = some (op s) := by
  subst h
  cases ts with
  | nil => simp [peek, Token.isOp]
  | cons t ts =>
    change t.isOp s = true ↔ _
    simp [Token.isOp, Token.content, op]

theorem not_isOp_peek {ts : List Token} {ws : List Word} (h : ts.map Token.content = ws)
    {s : String} (hw : ws.head? ≠ some (op s)) : (peek ts).isOp s = false :=
  Bool.eq_false_iff.mpr (mt (isOp_peek h s).mp hw)

/-- What may stand behind an expression: neither a chained call nor arguments. -/
def Ends (ws : List Word) : Prop := ws.head? ≠ some (op ".") ∧ ws.head? ≠ some (op "(")

theorem ends_cons {w : Word} (ws : List Word) (hp : w ≠ op ".") (ho : w ≠ op "(") :
    Ends (w :: ws) := ⟨by simpa using hp, by simpa using ho⟩

theorem expectOp_of_words {ts : List Token} {s : String} {us : List Word}
    (h : ts.map Token.content = op s :: us) :
    ∃ r, expectOp s ts = .ok r ∧ r.map Token.content = us := by
  obtain ⟨t, r, rfl, hk, hv, hr⟩ := exists_token h
  have ho : t.isOp s = true := by simp [Token.isOp, hk, hv, op]
  exact ⟨r, by simp [expectOp, ho], hr⟩

/-! ### Names and literals -/

theorem dottedParts_of_words (ss : List String) {ts : List Token} {us : List Word}
    (h : ts.map Token.content = partWords ss ++ us) (hu : us.head? ≠ some (op ".")) :
    ∃ r, dottedParts ts = (ss, r) ∧ r.map Token.content = us := by
  induction ss generalizing ts with
  | nil =>
    refine ⟨ts, ?_, h⟩
    have hd : (peek ts).isOp "." = false := not_isOp_peek h hu
    cases ts with
    | nil => rfl
    | cons d ts =>
      cases ts with
      | nil => rfl
      | cons t ts =>
        have hd : d.isOp "." = false := hd
        simp [dottedParts, hd]
  | cons s ss ih =>
    obtain ⟨d, ts, rfl, hdk, hdv, h⟩ := exists_token h
    obtain ⟨t, ts, rfl, htk, htv, h⟩ := exists_token h
    obtain ⟨r, hr, hm⟩ := ih h
    refine ⟨r, ?_, hm⟩
    have hd : d.isOp "." = true := by simp [Token.isOp, hdk, hdv, op]
    have ht : t.kind = .ident := htk
    have hv : t.value = s := htv
    simp [dottedParts, hd, ht, hv, hr]

/-- A name is read up to what follows it, and taken as called if a parenthesis follows. -/
theorem primary_of_isName {name : String} {ns : List Word} (hn : IsName name ns) {ts : List Token}
    {us : List Word} (h : ts.map Token.content = ns ++ us) (hu : us.head? ≠ some (op ".")) :
    ∃ pos r, r.map Token.content = us ∧
      primary ts = if us.head? = some (op "(") then .ok (.callOf pos name, r.tail)
        else .ok (.value (.name pos name), r) := by
  obtain ⟨s, ss, hs, rfl, rfl⟩ := hn
  obtain ⟨t, ts, rfl, hk, hv, h⟩ := exists_token h
  obtain ⟨r, hr, hm⟩ := dottedParts_of_words ss h hu
  refine ⟨t.pos, r, hm, ?_⟩
  have hk : t.kind = .ident := hk
  have hv : t.value = s := hv
  have hp := isOp_peek hm "("
  simp only [literalWords, List.mem_cons, List.not_mem_nil, or_false, not_or] at hs
  have ho (v : String) : t.isOp v = false := by simp [Token.isOp, hk]
  simp [primary, hk, hv, isNumber, ho, hs, hr, hp]

/-- An expression of which the parser makes a value at once. -/
theorem expr_of_value {fuel : Nat} {ts r : List Token} {e : Expr} {us : List Word}
    (hp : primary ts = .ok (.value e, r)) (hm : r.map Token.content = us) (hu : Ends us) :
    expr (fuel + 1) ts = .ok (e, r) := by
  have hd : (peek r).isOp "." = false := not_isOp_peek hm hu.1
  simp [expr, hp, hd]

/-! ### Expressions -/

theorem IsName.ne_nil {name : String} {ws : List Word} (h : IsName name ws) :
    ∃ s vs, ws = ident s :: vs := by
  obtain ⟨s, ss, -, -, rfl⟩ := h
  exact ⟨s, partWords ss, rfl⟩

/-- No expression begins with a closing parenthesis. -/
theorem IsExpr.head {e : Expr} {ws : List Word} (h : IsExpr e ws) :
    ∃ w vs, ws = w :: vs ∧ w ≠ op ")" := by
  cases h with
  | text _ s => exact ⟨_, _, rfl, nofun⟩
  | number _ hk t =>
    refine ⟨_, _, rfl, ?_⟩
    rcases hk with rfl | rfl <;> exact nofun
  | negative _ hk t => exact ⟨_, _, rfl, by decide⟩
  | bool _ b => exact ⟨_, _, rfl, nofun⟩
  | null => exact ⟨_, _, rfl, nofun⟩
  | name _ hn =>
    obtain ⟨s, vs, rfl⟩ := hn.ne_nil
    exact ⟨_, _, rfl, nofun⟩
  | call _ hn ha hc =>
    obtain ⟨s, vs, rfl⟩ := hn.ne_nil
    exact ⟨_, _, rfl, nofun⟩

theorem IsSeries.head {es : List Expr} {ws : List Word} (h : IsSeries es ws) :
    ∃ w vs, ws = w :: vs ∧ w ≠ op ")" := by
  cases h with
  | one h => exact h.head
  | more h hs =>
    obtain ⟨w, vs, rfl, hw⟩ := h.head
    exact ⟨w, _, rfl, hw⟩

mutual

/-- The parser reads an expression back from its words. -/
theorem expr_of_isExpr {e : Expr} {ws : List Word} (h : IsExpr e ws) (fuel : Nat)
    {ts : List Token} {us : List Word} (ht : ts.map Token.content = ws ++ us)
    (hf : 3 * ws.length ≤ fuel) (hu : Ends us) :
    ∃ e' r, expr fuel ts = .ok (e', r) ∧ e'.unplaced = e.unplaced ∧ r.map Token.content = us := by
  obtain ⟨w, vs, hw, -⟩ := h.head
  obtain ⟨fuel, rfl⟩ : ∃ k, fuel = k + 1 := ⟨fuel - 1, by simp [hw] at hf; omega⟩
  cases h with
  | text pos s =>
    obtain ⟨t, r, rfl, hk, hv, hr⟩ := exists_token ht
    have hk : t.kind = .text := hk
    have hv : t.value = s := hv
    exact ⟨.text t.pos s, r, expr_of_value (by simp [primary, hk, hv]) hr hu, rfl, hr⟩
  | @number pos kind hkind s =>
    obtain ⟨t, r, rfl, hk, hv, hr⟩ := exists_token ht
    have hv : t.value = s := hv
    have hk : t.kind = kind := hk
    refine ⟨.number t.pos s, r, expr_of_value ?_ hr hu, rfl, hr⟩
    rcases hkind with rfl | rfl <;> simp [primary, hk, hv, isNumber]
  | @negative pos kind hkind s =>
    obtain ⟨m, ts, rfl, hmk, hmv, ht⟩ := exists_token ht
    obtain ⟨t, r, rfl, hk, hv, hr⟩ := exists_token ht
    have hmk : m.kind = .op := hmk
    have hmv : m.value = "-" := hmv
    have hv : t.value = s := hv
    have hk : t.kind = kind := hk
    refine ⟨.number m.pos ("-" ++ s), r, expr_of_value ?_ hr hu, rfl, hr⟩
    rcases hkind with rfl | rfl <;> simp [primary, hk, hv, hmk, hmv, isNumber, Token.isOp]
  | bool pos b =>
    obtain ⟨t, r, rfl, hk, hv, hr⟩ := exists_token ht
    replace hk : t.kind = .ident := hk
    have hv : t.value = if b then "true" else "false" := hv
    refine ⟨.bool t.pos b, r, expr_of_value ?_ hr hu, rfl, hr⟩
    cases b <;> simp [primary, hk, hv, isNumber, Token.isOp]
  | null pos =>
    obtain ⟨t, r, rfl, hk, hv, hr⟩ := exists_token ht
    replace hk : t.kind = .ident := hk
    have hv : t.value = "null" := hv
    exact ⟨.null t.pos, r, expr_of_value (by simp [primary, hk, hv, isNumber, Token.isOp]) hr hu,
      rfl, hr⟩
  | @name pos n ws hn =>
    obtain ⟨pos', r, hr, hp⟩ := primary_of_isName hn ht hu.1
    rw [if_neg hu.2] at hp
    exact ⟨.name pos' n, r, expr_of_value hp hr hu, rfl, hr⟩
  | @call pos n as cs ns ws vs hn ha hc =>
    have hs : ns ++ op "(" :: ws ++ op ")" :: vs ++ us =
        ns ++ op "(" :: (ws ++ op ")" :: (vs ++ us)) := by simp
    rw [hs] at ht
    obtain ⟨pos', r, hr, hp⟩ := primary_of_isName hn ht (by simp [op])
    rw [List.head?_cons, if_pos rfl] at hp
    obtain ⟨t, r, rfl, -, -, hr⟩ := exists_token hr
    simp only [List.length_append, List.length_cons] at hf
    obtain ⟨as', r', has, hau, hr'⟩ := args_of_isArgs ha fuel hr (by omega)
    obtain ⟨cs', r'', hcs, hcu, hr''⟩ := chain_of_isChain hc fuel hr' (by omega) hu.1
    refine ⟨.call ⟨pos', n, as'⟩ cs', r'', ?_, ?_, hr''⟩
    · simp [expr, hp, has, hcs]
    · simp [Expr.unplaced, hau, hcu]

theorem args_of_isArgs {es : List Expr} {ws : List Word} (h : IsArgs es ws) (fuel : Nat)
    {ts : List Token} {us : List Word} (ht : ts.map Token.content = ws ++ op ")" :: us)
    (hf : 3 * ws.length + 2 ≤ fuel) :
    ∃ es' r, args fuel ts = .ok (es', r) ∧ Expr.unplacedAll es' = Expr.unplacedAll es ∧
      r.map Token.content = us := by
  obtain ⟨fuel, rfl⟩ : ∃ k, fuel = k + 1 := ⟨fuel - 1, by omega⟩
  cases h with
  | none =>
    have hp : (peek ts).isOp ")" = true := (isOp_peek ht _).mpr rfl
    obtain ⟨t, r, rfl, -, -, hr⟩ := exists_token ht
    exact ⟨[], r, by simp [args, hp], rfl, hr⟩
  | some h =>
    obtain ⟨w, vs, hw, hne⟩ := h.head
    have hp : (peek ts).isOp ")" = false := by 
      exact not_isOp_peek ht (by simp [hw, hne])
    obtain ⟨es', r, hs, hu, hr⟩ := someArgs_of_isSeries h fuel ht (by omega)
    exact ⟨es', r, by simp [args, hp, hs], hu, hr⟩

theorem someArgs_of_isSeries {es : List Expr} {ws : List Word} (h : IsSeries es ws) (fuel : Nat)
    {ts : List Token} {us : List Word} (ht : ts.map Token.content = ws ++ op ")" :: us)
    (hf : 3 * ws.length + 1 ≤ fuel) :
    ∃ es' r, someArgs fuel ts = .ok (es', r) ∧ Expr.unplacedAll es' = Expr.unplacedAll es ∧
      r.map Token.content = us := by
  obtain ⟨fuel, rfl⟩ : ∃ k, fuel = k + 1 := ⟨fuel - 1, by omega⟩
  cases h with
  | one h =>
    obtain ⟨e', r, he, hu, hr⟩ := expr_of_isExpr h fuel ht (by omega)
      (ends_cons us (by decide) (by decide))
    obtain ⟨r', hx, hr'⟩ := expectOp_of_words hr
    have hp : (peek r).isOp "," = false := not_isOp_peek hr (by simp [op])
    exact ⟨[e'], r', by simp [someArgs, he, hp, hx], by simp [Expr.unplacedAll, hu], hr'⟩
  | @more e es ws vs h hs =>
    rw [List.append_assoc] at ht
    simp only [List.length_append, List.length_cons] at hf
    obtain ⟨e', r, he, hu, hr⟩ := expr_of_isExpr h fuel ht (by omega)
      (ends_cons _ (by decide) (by decide))
    have hp : (peek r).isOp "," = true := (isOp_peek hr _).mpr rfl
    obtain ⟨t, r, rfl, -, -, hr⟩ := exists_token hr
    obtain ⟨es', r', hes, hus, hr'⟩ := someArgs_of_isSeries hs fuel hr (by omega)
    exact ⟨e' :: es', r', by simp [someArgs, he, hp, hes], by simp [Expr.unplacedAll, hu, hus], hr'⟩

theorem chain_of_isChain {cs : List (Invocation Expr)} {ws : List Word} (h : IsChain cs ws)
    (fuel : Nat) {ts : List Token} {us : List Word} (ht : ts.map Token.content = ws ++ us)
    (hf : 3 * ws.length + 1 ≤ fuel) (hu : us.head? ≠ some (op ".")) :
    ∃ cs' r, chain fuel ts = .ok (cs', r) ∧ Expr.unplacedChain cs' = Expr.unplacedChain cs ∧
      r.map Token.content = us := by
  obtain ⟨fuel, rfl⟩ : ∃ k, fuel = k + 1 := ⟨fuel - 1, by omega⟩
  cases h with
  | nil =>
    have hp : (peek ts).isOp "." = false := not_isOp_peek ht hu
    exact ⟨[], ts, by simp [chain, hp], rfl, ht⟩
  | @cons pos n as cs ws vs ha hc =>
    have hs : op "." :: ident n :: op "(" :: ws ++ op ")" :: vs ++ us =
        op "." :: ident n :: op "(" :: (ws ++ op ")" :: (vs ++ us)) := by simp
    rw [hs] at ht
    have hp : (peek ts).isOp "." = true := (isOp_peek ht _).mpr rfl
    obtain ⟨d, ts, rfl, -, -, ht⟩ := exists_token ht
    obtain ⟨t, ts, rfl, hk, hv, ht⟩ := exists_token ht
    have hk : t.kind = .ident := hk
    have hv : t.value = n := hv
    obtain ⟨r, ho, hr⟩ := expectOp_of_words ht
    simp only [List.length_append, List.length_cons] at hf
    obtain ⟨as', r', has, hau, hr'⟩ := args_of_isArgs ha fuel hr (by omega)
    obtain ⟨cs', r'', hcs, hcu, hr''⟩ := chain_of_isChain hc fuel hr' (by omega) hu
    refine ⟨⟨t.pos, n, as'⟩ :: cs', r'', ?_, ?_, hr''⟩
    · simp [chain, hp, expectIdent, hk, hv, ho, has, hcs]
    · simp [Expr.unplacedChain, hau, hcu]

end

/-! ### Definitions -/

/-- The words of a definition, behind some modifiers. -/
def IsDefinition (d : Definition) (ws : List Word) : Prop :=
  ∃ (lead : List String) (vs : List Word), (∀ m ∈ lead, isModifier ⟨.ident, m, .start⟩ = true) ∧
    isModifier ⟨.ident, d.returnType, .start⟩ = false ∧ IsExpr d.body vs ∧
    ws = lead.map ident ++ ident d.returnType :: ident d.name :: op "(" :: op ")" :: op "\x7b" ::
      ident "return" :: (vs ++ [op ";", op "\x7d"])

/-- A definition with all positions at the start. -/
def Definition.unplaced (d : Definition) : Definition := ⟨d.name, d.returnType, d.body.unplaced, 1⟩

theorem isModifier_of_kind {t : Token} (h : t.kind = .ident) :
    isModifier t = isModifier ⟨.ident, t.value, .start⟩ := by
  simp [isModifier, h]

theorem expectIdent_of_words {ts : List Token} {s : String} {us : List Word}
    (h : ts.map Token.content = ident s :: us) :
    ∃ t r, expectIdent ts = .ok (t, r) ∧ t.value = s ∧ r.map Token.content = us := by
  obtain ⟨t, r, rfl, hk, hv, hr⟩ := exists_token h
  have hk : t.kind = .ident := hk
  exact ⟨t, r, by simp [expectIdent, hk], hv, hr⟩

theorem expectWord_of_words {ts : List Token} {s : String} {us : List Word}
    (h : ts.map Token.content = ident s :: us) :
    ∃ r, expectWord s ts = .ok r ∧ r.map Token.content = us := by
  obtain ⟨t, r, rfl, hk, hv, hr⟩ := exists_token h
  have hk : t.kind = .ident := hk
  have hv : t.value = s := hv
  exact ⟨r, by simp [expectWord, hk, hv], hr⟩

/-- The type of a definition is the first word that is no modifier. -/
theorem dropWhile_of_words {lead : List String}
    (hl : ∀ m ∈ lead, isModifier ⟨.ident, m, .start⟩ = true) {type : String}
    (ht : isModifier ⟨.ident, type, .start⟩ = false) {ts : List Token} {us : List Word}
    (h : ts.map Token.content = lead.map ident ++ ident type :: us) :
    (ts.dropWhile isModifier).map Token.content = ident type :: us := by
  induction lead generalizing ts with
  | nil =>
    obtain ⟨t, r, rfl, hk, hv, hr⟩ := exists_token h
    have hno : isModifier t = false := by
      rw [isModifier_of_kind hk, hv]
      exact ht
    rw [List.dropWhile_cons_of_neg (by simp [hno])]
    exact h
  | cons m lead ih =>
    obtain ⟨t, r, rfl, hk, hv, hr⟩ := exists_token h
    have hyes : isModifier t = true := by
      rw [isModifier_of_kind hk, hv]
      exact hl m List.mem_cons_self
    rw [List.dropWhile_cons_of_pos hyes]
    exact ih (fun n hn => hl n (List.mem_cons_of_mem m hn)) hr

theorem startsDefinition_of_isDefinition {d : Definition} {ws : List Word} (h : IsDefinition d ws)
    {ts : List Token} {us : List Word} (ht : ts.map Token.content = ws ++ us) :
    startsDefinition ts = true := by
  obtain ⟨lead, vs, hl, -, -, rfl⟩ := h
  cases lead with
  | nil =>
    obtain ⟨t, r, rfl, hk, -, hr⟩ := exists_token ht
    obtain ⟨u, r, rfl, hku, -, hr⟩ := exists_token hr
    obtain ⟨v, r, rfl, -, hv, -⟩ := exists_token hr
    have hk : t.kind = .ident := hk
    have hku : u.kind = .ident := hku
    have hv : v.value = "(" := hv
    simp [startsDefinition, peek, hk, hku, hv]
  | cons m lead =>
    obtain ⟨t, r, rfl, hk, hv, -⟩ := exists_token ht
    have hyes : isModifier t = true := by
      rw [isModifier_of_kind hk, hv]
      exact hl m List.mem_cons_self
    have hk : t.kind = .ident := hk
    simp [startsDefinition, peek, hk, hyes]

/-! ### Programs -/

/-- The parser reads a definition back from its words. -/
theorem definition_of_isDefinition {d : Definition} {ws : List Word} (h : IsDefinition d ws)
    {ts : List Token} {us : List Word} (ht : ts.map Token.content = ws ++ us) :
    ∃ d' r, definition ts = .ok (d', r) ∧ d'.unplaced = d.unplaced ∧ r.map Token.content = us := by
  obtain ⟨lead, vs, hl, htype, hbody, rfl⟩ := h
  simp only [List.append_assoc, List.cons_append] at ht
  obtain ⟨t, r₁, ht₁, hv₁, hr₁⟩ := expectIdent_of_words (dropWhile_of_words hl htype ht)
  obtain ⟨n, r₂, ht₂, hv₂, hr₂⟩ := expectIdent_of_words hr₁
  obtain ⟨r₃, ht₃, hr₃⟩ := expectOp_of_words hr₂
  obtain ⟨r₄, ht₄, hr₄⟩ := expectOp_of_words hr₃
  obtain ⟨r₅, ht₅, hr₅⟩ := expectOp_of_words hr₄
  obtain ⟨r₆, ht₆, hr₆⟩ := expectWord_of_words hr₅
  have hlen : vs.length ≤ r₆.length := by
    have := congrArg List.length hr₆
    simp at this
    omega
  obtain ⟨b, r₇, ht₇, hu, hr₇⟩ := expr_of_isExpr hbody (depthBound r₆) hr₆
    (by unfold depthBound; omega) (ends_cons _ (by decide) (by decide))
  obtain ⟨r₈, ht₈, hr₈⟩ := expectOp_of_words hr₇
  obtain ⟨r₉, ht₉, hr₉⟩ := expectOp_of_words hr₈
  refine ⟨⟨n.value, t.value, b, (peek ts).pos.line⟩, r₉, ?_, ?_, hr₉⟩
  · simp only [definition, ht₁, ht₂, ht₃, ht₄, ht₅, ht₆, ht₇, ht₈, ht₉, bind, Except.bind, pure,
      Except.pure]
  · simp only [Definition.unplaced, hv₁, hv₂, hu]

/-- The parser reads definitions back from their words as long as one begins, if their names differ. -/
theorem definitions_of_isDefinition {ds : List Definition} {dss : List (List Word)}
    (h : List.Forall₂ IsDefinition ds dss) {known : List Definition}
    (hn : (known.map (·.name) ++ ds.map (·.name)).Nodup) {fuel : Nat} (hf : ds.length ≤ fuel)
    {ts : List Token} {us : List Word} (ht : ts.map Token.content = dss.flatten ++ us)
    (hu : ∀ r : List Token, r.map Token.content = us → startsDefinition r = false) :
    ∃ ds' r, definitions fuel known ts = .ok (known ++ ds', r) ∧
      ds'.map Definition.unplaced = ds.map Definition.unplaced ∧ r.map Token.content = us := by
  induction h generalizing known fuel ts with
  | nil =>
    refine ⟨[], ts, ?_, rfl, ht⟩
    rw [List.append_nil]
    cases fuel with
    | zero => rfl
    | succ fuel => simp [definitions, hu ts ht]
  | @cons d ws ds dss hd _ ih =>
    obtain ⟨fuel, rfl⟩ : ∃ k, fuel = k + 1 := ⟨fuel - 1, by simp at hf; omega⟩
    rw [List.flatten_cons, List.append_assoc] at ht
    have hstarts := startsDefinition_of_isDefinition hd ht
    obtain ⟨d', r, hdef, hsame, hr⟩ := definition_of_isDefinition hd ht
    have hname : d'.unplaced.name = d.unplaced.name := congrArg Definition.name hsame
    change d'.name = d.name at hname
    have hfree : known.any (fun k => decide (k.name = d'.name)) = false := by
      rw [List.any_eq_false]
      intro k hk heq
      have heq : k.name = d.name := (of_decide_eq_true heq).trans hname
      exact (List.nodup_append.mp hn).2.2 _ (List.mem_map_of_mem hk) _ List.mem_cons_self heq
    have hnames : ((known ++ [d']).map (·.name) ++ ds.map (·.name)).Nodup := by
      simpa [hname] using hn
    obtain ⟨ds', r', hdefs, hsames, hr'⟩ := ih hnames (Nat.le_of_succ_le_succ hf) hr
    refine ⟨d' :: ds', r', ?_, by rw [List.map_cons, List.map_cons, hsame, hsames], hr'⟩
    rw [definitions, if_pos hstarts]
    simp only [hdef, bind, Except.bind, hfree, hdefs]
    simp

/-- The parser reads a program back from the words of its definitions and of its expression. -/
theorem program_of_isDefinition {ds : List Definition} {dss : List (List Word)}
    (h : List.Forall₂ IsDefinition ds dss) (hn : (ds.map (·.name)).Nodup) {e : Expr}
    {ws : List Word} (he : IsExpr e ws)
    (hs : ∀ r : List Token, r.map Token.content = ws ++ [(.eof, "")] → startsDefinition r = false)
    {ts : List Token} (ht : ts.map Token.content = dss.flatten ++ (ws ++ [(.eof, "")])) :
    ∃ p, program ts = .ok p ∧ p.unplaced = ⟨ds.map Definition.unplaced, e.unplaced⟩ := by
  have hlen := congrArg List.length ht
  simp only [List.length_map, List.length_append] at hlen
  have hcount : ds.length ≤ dss.flatten.length := by
    clear ht hlen hn
    induction h with
    | nil => exact Nat.le_refl _
    | @cons d vs ds dss hd _ ih =>
      obtain ⟨lead, us, -, -, -, rfl⟩ := hd
      simp only [List.flatten_cons, List.length_append, List.length_cons]
      omega
  have hfuel : ds.length ≤ ts.length := by omega
  obtain ⟨ds', r, hdefs, hsame, hr⟩ := @definitions_of_isDefinition ds dss h [] hn _ hfuel _ _ ht hs
  have hlen := congrArg List.length hr
  simp only [List.length_map, List.length_append] at hlen
  obtain ⟨e', r', hexpr, hu, hr'⟩ := expr_of_isExpr he (depthBound r) hr
    (by unfold depthBound; omega) (ends_cons [] (by decide) (by decide))
  have hp : (peek r').isOp ";" = false := not_isOp_peek hr' (by simp [op])
  obtain ⟨t, r', rfl, hk, -, -⟩ := exists_token hr'
  have hk : t.kind = .eof := hk
  refine ⟨⟨ds', e'⟩, ?_, ?_⟩
  · simp only [program, hdefs, hexpr, bind, Except.bind, hp]
    simp [peek, hk, pure, Except.pure]
  · rw [Program.unplaced, hu, ← hsame]
    rfl

end FluentPlan.Script
