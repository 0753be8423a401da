import Mathlib
import FluentPlan.Proofs.Assembly.Outcome
import FluentPlan.Proofs.Grammar.Derivation
import FluentPlan.Proofs.Lexing.Lexeme

/-!
A program written back as words, and the tokens that the parser took for it. What a source text says
is what its program is written as: nothing is skipped or added but modifiers in front of definitions
and a semicolon at the end.
-/

namespace FluentPlan.Script

open Word

/-! ### Programs as words -/

/-- The words of a dotted name: its parts with points between them. -/
def nameWords (name : String) : List Word :=
  ((name.toList.splitOn '.').map fun part => ident (String.ofList part)).intersperse (op ".")

/-- The words of a number. The sign is a word of its own. -/
def numberWords (text : String) : List Word :=
  match text.toList with
  | '-' :: cs => [op "-", (numeralKind cs, String.ofList cs)]
  | cs => [(numeralKind cs, text)]

namespace Expr

mutual

/-- The words of an expression. -/
def words : Expr → List Word
  | .text _ s => [(.text, s)]
  | .number _ t => numberWords t
  | .bool _ b => [ident (if b then "true" else "false")]
  | .null _ => [ident "null"]
  | .name _ n => nameWords n
  | .call ⟨_, n, as⟩ cs => nameWords n ++ op "(" :: argWords as ++ op ")" :: chainWords cs

/-- The words between the parentheses of a call. -/
def argWords : List Expr → List Word
  | [] => []
  | e :: es => words e ++ furtherWords es

/-- The words of further arguments, each behind a comma. -/
def furtherWords : List Expr → List Word
  | [] => []
  | e :: es => op "," :: words e ++ furtherWords es

/-- The words of chained calls. -/
def chainWords : List (Invocation Expr) → List Word
  | [] => []
  | ⟨_, n, as⟩ :: cs => op "." :: ident n :: op "(" :: argWords as ++ op ")" :: chainWords cs

end

theorem furtherWords_of_ne_nil {es : List Expr} (h : es ≠ []) :
    furtherWords es = op "," :: argWords es := by
  cases es with
  | nil => exact absurd rfl h
  | cons e es => rw [furtherWords, argWords, List.cons_append]

end Expr

/-- The words of a definition, modifiers apart. -/
def Definition.words (d : Definition) : List Word :=
  [ident d.returnType, ident d.name, op "(", op ")", op "\x7b", ident "return"] ++ d.body.words ++
    [op ";", op "\x7d"]

/-- The words that may stand before a definition. -/
def modifierWords : List Word :=
  ["private", "public", "protected", "static", "final"].map ident

/-- Words that say a definition behind its modifiers. -/
def Definition.IsSaidBy (d : Definition) (ws : List Word) : Prop :=
  ∃ lead, ws = lead ++ d.words ∧ (∀ w ∈ lead, w ∈ modifierWords) ∧
    ident d.returnType ∉ modifierWords

/-- Words that say a program: its definitions, each behind some modifiers, its expression, perhaps a
semicolon, and the end. -/
def Program.IsSaidBy (p : Program) (ws : List Word) : Prop :=
  ∃ dss last, ws = dss.flatten ++ p.expr.words ++ last ++ [(.eof, "")] ∧
    List.Forall₂ Definition.IsSaidBy p.definitions dss ∧ (last = [] ∨ last = [op ";"])

/-! ### What is taken -/

/-- The tokens before `r` say `ws`. The mark of the end is not among them. -/
def Takes (ts : List Token) (ws : List Word) (r : List Token) : Prop :=
  ∃ us, ts = us ++ r ∧ us.map Token.content = ws ∧ ∀ t ∈ us, t.kind ≠ .eof

theorem takes_nil (ts : List Token) : Takes ts [] ts := ⟨[], rfl, rfl, by simp⟩

theorem takes_cons {t : Token} (ht : t.kind ≠ .eof) (ts : List Token) :
    Takes (t :: ts) [t.content] ts := ⟨[t], rfl, rfl, by simpa using ht⟩

theorem Takes.append {ts r q : List Token} {ws vs : List Word} (h : Takes ts ws r)
    (hr : Takes r vs q) : Takes ts (ws ++ vs) q := by
  obtain ⟨us, rfl, rfl, hus⟩ := h
  obtain ⟨us', rfl, rfl, hus'⟩ := hr
  refine ⟨us ++ us', (List.append_assoc ..).symm, List.map_append, fun t ht => ?_⟩
  exact (List.mem_append.mp ht).elim (hus t) (hus' t)

/-- Tokens as they come from a source text. -/
def Lexed (ts : List Token) : Prop := ∀ t ∈ ts, t.kind ≠ .eof → IsToken t.kind t.value.toList

theorem Takes.lexed {ts r : List Token} {ws : List Word} (h : Takes ts ws r) (hts : Lexed ts) :
    Lexed r := by
  obtain ⟨us, rfl, -, -⟩ := h
  exact fun t ht => hts t (List.mem_append_right us ht)

theorem takes_op {t : Token} {s : String} (h : t.isOp s = true) (ts : List Token) :
    Takes (t :: ts) [op s] ts := by
  simp only [Token.isOp, Bool.and_eq_true, decide_eq_true_eq] at h
  obtain ⟨hk, rfl⟩ := h
  have hc : t.content = op t.value := by rw [Token.content, hk]; rfl
  exact hc ▸ takes_cons (by rw [hk]; exact nofun) ts

theorem takes_tail {ts : List Token} {s : String} (h : (peek ts).isOp s = true) :
    Takes ts [op s] ts.tail := by
  cases ts with
  | nil => simp [peek, Token.isOp] at h
  | cons t ts => exact takes_op h ts

theorem takes_expectOp {ts r : List Token} {s : String} (h : expectOp s ts = .ok r) :
    Takes ts [op s] r := by
  cases ts with
  | nil => cases h
  | cons t ts =>
    rw [expectOp] at h
    split at h
    · next ht =>
      cases h
      exact takes_op ht _
    · cases h

theorem takes_ident {t : Token} (h : t.kind = .ident) (ts : List Token) :
    Takes (t :: ts) [ident t.value] ts := by
  have hc : t.content = ident t.value := by rw [Token.content, h]; rfl
  exact hc ▸ takes_cons (by simp [h]) ts

theorem eq_cons_of_expectIdent {ts r : List Token} {t : Token} (h : expectIdent ts = .ok (t, r)) :
    ts = t :: r ∧ t.kind = .ident := by
  cases ts with
  | nil => cases h
  | cons u ts =>
    rw [expectIdent] at h
    split at h
    · next hu =>
      cases h
      exact ⟨rfl, hu⟩
    · cases h

theorem takes_expectIdent {ts r : List Token} {t : Token} (h : expectIdent ts = .ok (t, r)) :
    Takes ts [ident t.value] r := by
  obtain ⟨rfl, hk⟩ := eq_cons_of_expectIdent h
  exact takes_ident hk r

theorem takes_expectWord {ts r : List Token} {s : String} (h : expectWord s ts = .ok r) :
    Takes ts [ident s] r := by
  cases ts with
  | nil => cases h
  | cons t ts =>
    rw [expectWord] at h
    split at h
    · next ht =>
      cases h
      obtain ⟨hk, rfl⟩ := ht
      exact takes_ident hk _
    · cases h

/-! ### Names and literals -/

theorem takes_dottedParts (ts : List Token) :
    Takes ts (partWords (dottedParts ts).1) (dottedParts ts).2 := by
  fun_induction dottedParts ts with
  | case1 d t ts hd parts r hr ih =>
    rw [hr] at ih
    simp only [Bool.and_eq_true, decide_eq_true_eq] at hd
    exact (takes_op hd.1 _).append ((takes_ident hd.2 ts).append ih)
  | case2 d t ts hd => exact takes_nil _
  | case3 ts hts => exact takes_nil ts

/-- No part of a name has a point. -/
theorem not_mem_of_dottedParts {ts : List Token} (hts : Lexed ts) :
    ∀ s ∈ (dottedParts ts).1, '.' ∉ s.toList := by
  fun_induction dottedParts ts with
  | case1 d t ts hd parts r hr ih =>
    rw [hr] at ih
    simp only [Bool.and_eq_true, decide_eq_true_eq] at hd
    have hword := hts t (by simp) (by rw [hd.2]; exact nofun)
    rw [hd.2] at hword
    refine List.forall_mem_cons.mpr ⟨not_mem_of_isIdentifier hword.isIdentifier (by decide), ?_⟩
    exact ih fun u hu => hts u (List.mem_cons_of_mem _ (List.mem_cons_of_mem _ hu))
  | case2 d t ts hd => nofun
  | case3 ts hts => nofun

theorem nameWords_intercalate {s : String} {ss : List String}
    (h : ∀ t ∈ s :: ss, '.' ∉ t.toList) :
    nameWords (String.intercalate "." (s :: ss)) = ident s :: partWords ss := by
  have hparts : (String.intercalate "." (s :: ss)).toList.splitOn '.' =
      (s :: ss).map String.toList := by
    rw [String.toList_intercalate]
    exact List.splitOn_intercalate '.' (by simpa using h) (by simp)
  have hwords : ((s :: ss).map ident).intersperse (op ".") = ident s :: partWords ss := by
    clear h hparts
    induction ss generalizing s with
    | nil => rfl
    | cons t ss ih =>
      rw [List.map_cons, List.map_cons, List.intersperse_cons_cons, ← List.map_cons, ih, partWords]
  rw [nameWords, hparts, List.map_map, ← hwords]
  exact congrArg _ (List.map_congr_left fun t _ => congrArg ident String.ofList_toList)

/-- The words of a number, without and with a sign. -/
theorem numberWords_of_isToken {t : Token} (ht : isNumber t = true)
    (hw : IsToken t.kind t.value.toList) :
    numberWords t.value = [t.content] ∧ numberWords ("-" ++ t.value) = [op "-", t.content] := by
  have hnumeral : ∃ c r, t.value.toList = c :: r ∧ c ≠ '-' ∧ numeralKind (c :: r) = t.kind := by
    generalize hvalue : t.value.toList = value at hw
    generalize hkind : t.kind = kind at hw
    cases hw with
    | @number _ c r hc hk => exact ⟨c, r, rfl, fun h => by simp [h] at hc, hk⟩
    | _ => simp [isNumber, hkind] at ht
  obtain ⟨c, r, hvalue, hc, hk⟩ := hnumeral
  have hself : String.ofList (c :: r) = t.value := by rw [← hvalue, String.ofList_toList]
  constructor
  · rw [numberWords, hvalue]
    split
    · next h => exact absurd (List.cons.inj h).1 hc
    · rw [hk, Token.content]
  · rw [numberWords, String.toList_append, hvalue]
    change [op "-", (numeralKind (c :: r), String.ofList (c :: r))] = _
    rw [hk, hself, Token.content]

theorem takes_number {t : Token} (ht : isNumber t = true) (ts : List Token) :
    Takes (t :: ts) [t.content] ts := by
  refine takes_cons (fun h => ?_) ts
  simp [isNumber, h] at ht

/-- What an expression begins with. -/
def Primary.words : Primary → List Word
  | .value e => e.words
  | .callOf _ name => nameWords name ++ [op "("]

/-- A name is taken up to what follows it, with the parenthesis if it is called. -/
theorem takes_name {t : Token} {ts : List Token} (hts : Lexed (t :: ts)) (hk : t.kind = .ident) :
    Takes (t :: ts) (nameWords (String.intercalate "." (t.value :: (dottedParts ts).1)))
      (dottedParts ts).2 := by
  have hword := hts t List.mem_cons_self (by rw [hk]; exact nofun)
  rw [hk] at hword
  have hpoints := not_mem_of_dottedParts fun u hu => hts u (List.mem_cons_of_mem t hu)
  rw [nameWords_intercalate (List.forall_mem_cons.mpr
    ⟨not_mem_of_isIdentifier hword.isIdentifier (by decide), hpoints⟩)]
  exact (takes_ident hk ts).append (takes_dottedParts ts)

theorem takes_primary {ts r : List Token} (hts : Lexed ts) {x : Primary}
    (h : primary ts = .ok (x, r)) : Takes ts x.words r := by
  cases ts with
  | nil => cases h
  | cons t ts =>
    have htail : Lexed ts := fun u hu => hts u (List.mem_cons_of_mem t hu)
    rw [primary.eq_def] at h
    dsimp only at h
    split at h
    · next hk =>
      cases h
      have hc : t.content = (.text, t.value) := by rw [Token.content, hk]
      rw [Primary.words, Expr.words, ← hc]
      exact takes_cons (by rw [hk]; exact nofun) r
    split at h
    · next hn =>
      cases h
      have hword := hts t List.mem_cons_self fun hk => by simp [isNumber, hk] at hn
      rw [Primary.words, Expr.words, (numberWords_of_isToken hn hword).1]
      exact takes_number hn r
    split at h
    · next hminus =>
      cases ts with
      | nil => cases h
      | cons n ts =>
        dsimp only at h
        split at h
        · next hn =>
          cases h
          have hword := htail n List.mem_cons_self fun hk => by simp [isNumber, hk] at hn
          rw [Primary.words, Expr.words, (numberWords_of_isToken hn hword).2]
          exact (takes_op hminus _).append (takes_number hn r)
        · cases h
    split at h
    · next hk =>
      have htakes := takes_name hts hk
      split at h
      · next hb =>
        cases h
        have hv : t.value = if decide (t.value = "true") then "true" else "false" := by
          rcases hb with hb | hb <;> rw [hb] <;> rfl
        rw [Primary.words, Expr.words, ← hv]
        exact takes_ident hk r
      split at h
      · next hb =>
        cases h
        rw [Primary.words, Expr.words, ← hb]
        exact takes_ident hk r
      split at h
      · next hp =>
        cases h
        exact htakes.append (takes_tail hp)
      · cases h
        exact htakes
    · cases h

/-! ### Expressions -/

mutual

/-- What the parser takes for an expression is what the expression is written as. -/
theorem takes_expr : (fuel : Nat) → {ts r : List Token} → Lexed ts → {e : Expr} →
    expr fuel ts = .ok (e, r) → Takes ts e.words r
  | 0, _, _, _, _, h => nomatch h
  | fuel + 1, ts, r, hts, e, h => by
    rw [expr] at h
    split at h
    · cases h
    · next x q hp =>
      split at h
      · cases h
      · cases h
        exact takes_primary hts hp
    · next pos name r₁ hp =>
      have hhead := takes_primary hts hp
      split at h
      · cases h
      · next as r₂ ha =>
        have hargs := takes_args fuel (hhead.lexed hts) ha
        split at h
        · cases h
        · next cs r₃ hc =>
          cases h
          have hchain := takes_chain fuel (hargs.lexed (hhead.lexed hts)) hc
          have hall := hhead.append (hargs.append hchain)
          simpa [Primary.words, Expr.words] using hall

theorem takes_chain : (fuel : Nat) → {ts r : List Token} → Lexed ts →
    {cs : List (Invocation Expr)} → chain fuel ts = .ok (cs, r) → Takes ts (Expr.chainWords cs) r
  | 0, _, _, _, _, h => nomatch h
  | fuel + 1, ts, r, hts, cs, h => by
    rw [chain] at h
    split at h
    · next hp =>
      split at h
      · cases h
      · next t r₁ ht =>
        split at h
        · cases h
        · next r₂ ho =>
          have hopen := (takes_tail hp).append ((takes_expectIdent ht).append (takes_expectOp ho))
          split at h
          · cases h
          · next as r₃ ha =>
            have hargs := takes_args fuel (hopen.lexed hts) ha
            split at h
            · cases h
            · next ds r₄ hc =>
              cases h
              have hchain := takes_chain fuel (hargs.lexed (hopen.lexed hts)) hc
              have hall := hopen.append (hargs.append hchain)
              simpa [Expr.chainWords] using hall
    · cases h
      exact takes_nil ts

theorem takes_args : (fuel : Nat) → {ts r : List Token} → Lexed ts → {as : List Expr} →
    args fuel ts = .ok (as, r) → Takes ts (Expr.argWords as ++ [op ")"]) r
  | 0, _, _, _, _, h => nomatch h
  | fuel + 1, ts, r, hts, as, h => by
    rw [args] at h
    split at h
    · next hp =>
      cases h
      exact takes_tail hp
    · exact (takes_someArgs fuel hts h).2

theorem takes_someArgs : (fuel : Nat) → {ts r : List Token} → Lexed ts → {as : List Expr} →
    someArgs fuel ts = .ok (as, r) → as ≠ [] ∧ Takes ts (Expr.argWords as ++ [op ")"]) r
  | 0, _, _, _, _, h => nomatch h
  | fuel + 1, ts, r, hts, as, h => by
    rw [someArgs] at h
    split at h
    · cases h
    · next a r₁ he =>
      have hexpr := takes_expr fuel hts he
      split at h
      · next hp =>
        have hcomma := hexpr.append (takes_tail hp)
        split at h
        · cases h
        · next es r₂ hs =>
          cases h
          obtain ⟨hne, hmore⟩ := takes_someArgs fuel (hcomma.lexed hts) hs
          have hall := hcomma.append hmore
          refine ⟨List.cons_ne_nil _ _, ?_⟩
          rw [Expr.argWords, Expr.furtherWords_of_ne_nil hne]
          simpa using hall
      · split at h
        · cases h
        · next r₂ hx =>
          cases h
          have hall := hexpr.append (takes_expectOp hx)
          exact ⟨List.cons_ne_nil _ _, by simpa [Expr.argWords, Expr.furtherWords] using hall⟩

end

/-! ### Programs -/

theorem isModifier_iff (t : Token) : isModifier t = true ↔ t.content ∈ modifierWords := by
  simp [isModifier, modifierWords, Token.content, ident]
  tauto

theorem takes_dropWhile (ts : List Token) :
    ∃ lead, (∀ w ∈ lead, w ∈ modifierWords) ∧ Takes ts lead (ts.dropWhile isModifier) := by
  induction ts with
  | nil => exact ⟨[], nofun, takes_nil []⟩
  | cons t ts ih =>
    obtain ⟨lead, hlead, htakes⟩ := ih
    cases ht : isModifier t with
    | false =>
      rw [List.dropWhile_cons_of_neg (by simp [ht])]
      exact ⟨[], nofun, takes_nil _⟩
    | true =>
      rw [List.dropWhile_cons_of_pos ht]
      have hk : t.kind = .ident := by simp_all [isModifier]
      have hword := takes_cons (by rw [hk]; exact nofun : t.kind ≠ .eof) ts
      exact ⟨t.content :: lead, List.forall_mem_cons.mpr ⟨(isModifier_iff t).mp ht, hlead⟩,
        hword.append htakes⟩

theorem takes_definition {ts r : List Token} (hts : Lexed ts) {d : Definition}
    (h : definition ts = .ok (d, r)) : ∃ ws, d.IsSaidBy ws ∧ Takes ts ws r := by
  obtain ⟨lead, hlead, hdrop⟩ := takes_dropWhile ts
  unfold definition at h
  dsimp only at h
  obtain ⟨⟨type, r₁⟩, htype, h⟩ := exists_of_bind_eq_ok h
  obtain ⟨⟨name, r₂⟩, hname, h⟩ := exists_of_bind_eq_ok h
  obtain ⟨r₃, hopen, h⟩ := exists_of_bind_eq_ok h
  obtain ⟨r₄, hclose, h⟩ := exists_of_bind_eq_ok h
  obtain ⟨r₅, hbegin, h⟩ := exists_of_bind_eq_ok h
  obtain ⟨r₆, hreturn, h⟩ := exists_of_bind_eq_ok h
  obtain ⟨⟨body, r₇⟩, hbody, h⟩ := exists_of_bind_eq_ok h
  obtain ⟨r₈, hsemi, h⟩ := exists_of_bind_eq_ok h
  obtain ⟨r₉, hend, h⟩ := exists_of_bind_eq_ok h
  cases h
  have hfront := hdrop.append <| (takes_expectIdent htype).append <|
    (takes_expectIdent hname).append <| (takes_expectOp hopen).append <|
    (takes_expectOp hclose).append <| (takes_expectOp hbegin).append (takes_expectWord hreturn)
  have hrest := (takes_expr _ (hfront.lexed hts) hbody).append <|
    (takes_expectOp hsemi).append (takes_expectOp hend)
  refine ⟨_, ⟨lead, ?_, hlead, ?_⟩, hfront.append hrest⟩
  · simp [Definition.words]
  · obtain ⟨hrest, hk⟩ := eq_cons_of_expectIdent htype
    have hstop := List.head?_dropWhile_not isModifier ts
    rw [hrest] at hstop
    have hc : type.content = ident type.value := by rw [Token.content, hk]; rfl
    rw [← hc, ← isModifier_iff]
    simpa using hstop

theorem takes_definitions {fuel : Nat} {known ds : List Definition} {ts r : List Token}
    (hts : Lexed ts) (h : definitions fuel known ts = .ok (ds, r)) :
    ∃ more dss, ds = known ++ more ∧ List.Forall₂ Definition.IsSaidBy more dss ∧
      Takes ts dss.flatten r := by
  induction fuel generalizing known ts with
  | zero =>
    cases h
    exact ⟨[], [], (List.append_nil _).symm, .nil, takes_nil _⟩
  | succ fuel ih =>
    rw [definitions] at h
    split at h
    · obtain ⟨⟨d, r₁⟩, hd, h⟩ := exists_of_bind_eq_ok h
      obtain ⟨ws, hws, htakes⟩ := takes_definition hts hd
      dsimp only at h
      split at h
      · cases h
      · obtain ⟨more, dss, rfl, hall, hmore⟩ := ih (htakes.lexed hts) h
        exact ⟨d :: more, ws :: dss, by simp, .cons hws hall, htakes.append hmore⟩
    · cases h
      exact ⟨[], [], (List.append_nil _).symm, .nil, takes_nil _⟩

/-- Where the end comes next, all other tokens have been taken. -/
theorem Takes.map_content {us r : List Token} {last : Position} {ws : List Word}
    (hus : ∀ t ∈ us, t.kind ≠ .eof) (h : Takes (us ++ [⟨.eof, "", last⟩]) ws r)
    (hend : (peek r).kind = .eof) :
    (us ++ [(⟨.eof, "", last⟩ : Token)]).map Token.content = ws ++ [(.eof, "")] := by
  obtain ⟨vs, heq, rfl, hvs⟩ := h
  cases r with
  | nil =>
    rw [List.append_nil] at heq
    exact absurd rfl (hvs ⟨.eof, "", last⟩ (heq ▸ List.mem_append_right us List.mem_cons_self))
  | cons t q =>
    rcases List.eq_nil_or_concat q with rfl | ⟨q, x, rfl⟩
    · obtain ⟨rfl, -⟩ := List.append_inj' heq rfl
      rw [List.map_append]
      rfl
    · rw [List.concat_eq_append, ← List.cons_append, ← List.append_assoc] at heq
      obtain ⟨rfl, -⟩ := List.append_inj' heq rfl
      exact absurd hend (hus t (List.mem_append_right vs List.mem_cons_self))

/-- What a source text says is what its program is written as, modifiers in front of definitions and
a semicolon at the end apart. -/
theorem isSaidBy_of_parse {source : String} {p : Program} (h : parse source = .ok p) :
    ∃ ts, tokenize source = .ok ts ∧ p.IsSaidBy (ts.map Token.content) := by
  unfold parse at h
  obtain ⟨ts, hts, h⟩ := exists_of_bind_eq_ok h
  refine ⟨ts, hts, ?_⟩
  obtain ⟨us, fin, rfl, hword⟩ := exists_of_scan hts
  have hlexed : Lexed (us ++ [⟨.eof, "", fin⟩]) := by
    intro t ht hk
    rcases List.mem_append.mp ht with ht | ht
    · exact hword t ht
    · exact absurd (congrArg Token.kind (List.mem_singleton.mp ht)) hk
  have hus : ∀ t ∈ us, t.kind ≠ .eof := by
    intro t ht hk
    exact (hword t ht).ne_eof hk
  unfold program at h
  obtain ⟨⟨ds, r₁⟩, hds, h⟩ := exists_of_bind_eq_ok h
  obtain ⟨⟨e, r₂⟩, he, h⟩ := exists_of_bind_eq_ok h
  obtain ⟨more, dss, rfl, hall, hfront⟩ := takes_definitions hlexed hds
  have hboth := hfront.append (takes_expr _ (hfront.lexed hlexed) he)
  dsimp only at h
  split at h
  · next hp =>
    split at h
    · next hend =>
      cases h
      exact ⟨dss, [op ";"], (hboth.append (takes_tail hp)).map_content hus hend, hall, .inr rfl⟩
    · cases h
  · split at h
    · next hend =>
      cases h
      refine ⟨dss, [], ?_, hall, .inl rfl⟩
      rw [List.append_nil]
      exact hboth.map_content hus hend
    · cases h

/-- Modifiers, a name with points, a sign, a chained call and a semicolon. -/
theorem isSaidBy_of_parse_helper :
    let source := "private static T a() \x7b return b(-1, C.D).e(2.5); \x7d a();"
    let body : Expr := .call ⟨⟨1, 31⟩, "b", [.number ⟨1, 33⟩ "-1", .name ⟨1, 37⟩ "C.D"]⟩
      [⟨⟨1, 42⟩, "e", [.number ⟨1, 44⟩ "2.5"]⟩]
    let p : Program := ⟨[⟨"a", "T", body, 1⟩], .call ⟨⟨1, 52⟩, "a", []⟩ []⟩
    parse source = .ok p ∧ ∃ ts, tokenize source = .ok ts ∧ p.IsSaidBy (ts.map Token.content) := by
  intro source body p
  have hparse : parse source = .ok p := by
    subst source p body
    cbv
  exact ⟨hparse, isSaidBy_of_parse hparse⟩

end FluentPlan.Script
