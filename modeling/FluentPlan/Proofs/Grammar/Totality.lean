import FluentPlan.Proofs.Grammar.Cursor
import FluentPlan.Proofs.Lexing.Layout

/-!
The parser answers on every list of tokens that ends with its only end mark. The reading on indices
comes out as the parser does, with a program or with a report: it never looks at an index that the
list does not have, and three steps for each token that is left are enough for it. An expression
takes at least one token, which is what bounds the steps.
-/

namespace FluentPlan.Script

/-- Tokens with one end mark, the last of them. -/
def Ended (ts : List Token) : Prop :=
  ∃ us last, ts = us ++ [last] ∧ last.kind = .eof ∧ ∀ t ∈ us, t.kind ≠ .eof

/-- Only the last token is an end mark. -/
theorem Ended.succ_lt_length {ts : List Token} (h : Ended ts) {i : Nat} (hi : i < ts.length)
    (hk : ts[i].kind ≠ .eof) : i + 1 < ts.length := by
  obtain ⟨us, last, rfl, hlast, -⟩ := h
  rw [List.length_append, List.length_singleton] at hi ⊢
  by_contra hge
  obtain rfl : i = us.length := by omega
  simp [hlast] at hk

theorem Laid.ended {before cs : List Char} {ts : List Token} (h : Laid before cs ts) :
    Ended ts := by
  induction h with
  | fin => exact ⟨[], _, rfl, rfl, List.forall_mem_nil _⟩
  | token hg ht h ih =>
    obtain ⟨us, last, rfl, hlast, hus⟩ := ih
    exact ⟨_ :: us, last, rfl, hlast, List.forall_mem_cons.mpr ⟨ht.kind_ne_eof, hus⟩⟩

/-- Source texts give such tokens. -/
theorem ended_of_tokenize {source : String} {ts : List Token} (h : tokenize source = .ok ts) :
    Ended ts := (@laid_of_scan [] _ ts h).ended

/-! ### Readings that come out alike -/

/-- The reading on indices and the parser have the same result, and are then at the same place of
the list, which is `low` or behind it; or both refuse the tokens for the same reason. -/
def Agrees (ts : List Token) (low : Nat) {α : Type} (x : Except Cursor.Stop (α × Nat))
    (y : Except Failure (α × List Token)) : Prop :=
  (∃ a i, low ≤ i ∧ i < ts.length ∧ x = .ok (a, i) ∧ y = .ok (a, ts.drop i)) ∨
    ∃ p pos, x = .error (.refused p pos) ∧ y = grammarError p pos

/-- The two have the same result, with the reading on indices at an end mark; or both refuse the
tokens for the same reason. -/
def EndsAlike (ts : List Token) {α : Type} (x : Except Cursor.Stop (α × Nat))
    (y : Except Failure α) : Prop :=
  (∃ a i t, ts[i]? = some t ∧ t.kind = .eof ∧ x = .ok (a, i) ∧ y = .ok a) ∨
    ∃ p pos, x = .error (.refused p pos) ∧ y = grammarError p pos

section

variable {ts : List Token} {low i : Nat} {α β : Type}

theorem agrees_ok (a : α) (hlow : low ≤ i) (hi : i < ts.length) :
    Agrees ts low (.ok (a, i)) (.ok (a, ts.drop i)) := .inl ⟨a, i, hlow, hi, rfl, rfl⟩

theorem agrees_refused (p : ParseProblem) (pos : Position) :
    Agrees (α := α) ts low (.error (.refused p pos)) (grammarError p pos) := .inr ⟨p, pos, rfl, rfl⟩

theorem Agrees.mono {high : Nat} {x : Except Cursor.Stop (α × Nat)}
    {y : Except Failure (α × List Token)} (h : Agrees ts high x y) (hlow : low ≤ high) :
    Agrees ts low x y := by
  rcases h with ⟨a, i, hi, hlt, hx, hy⟩ | hrefused
  · exact .inl ⟨a, i, Nat.le_trans hlow hi, hlt, hx, hy⟩
  · exact .inr hrefused

/-- What comes out alike can be followed by what comes out alike from there. -/
theorem Agrees.bind {high : Nat} {x : Except Cursor.Stop (α × Nat)}
    {y : Except Failure (α × List Token)} (h : Agrees ts low x y)
    {f : α × Nat → Except Cursor.Stop (β × Nat)}
    {g : α × List Token → Except Failure (β × List Token)}
    (hfg : ∀ a j, low ≤ j → j < ts.length → Agrees ts high (f (a, j)) (g (a, ts.drop j))) :
    Agrees ts high (x >>= f) (y >>= g) := by
  rcases h with ⟨a, j, hlow, hj, rfl, rfl⟩ | ⟨p, pos, rfl, rfl⟩
  · exact hfg a j hlow hj
  · exact agrees_refused p pos

theorem Agrees.bind_endsAlike {x : Except Cursor.Stop (α × Nat)}
    {y : Except Failure (α × List Token)} (h : Agrees ts low x y)
    {f : α × Nat → Except Cursor.Stop (β × Nat)} {g : α × List Token → Except Failure β}
    (hfg : ∀ a j, low ≤ j → j < ts.length → EndsAlike ts (f (a, j)) (g (a, ts.drop j))) :
    EndsAlike ts (x >>= f) (y >>= g) := by
  rcases h with ⟨a, j, hlow, hj, rfl, rfl⟩ | ⟨p, pos, rfl, rfl⟩
  · exact hfg a j hlow hj
  · exact .inr ⟨p, pos, rfl, rfl⟩

theorem Cursor.ok_bind {ε : Type} (a : α) (f : α → Except ε β) :
    (Except.ok a >>= f : Except ε β) = f a := rfl

/-! ### Tokens -/

theorem Cursor.look_eq (hi : i < ts.length) : Cursor.look ts i 0 = .ok ts[i] := by
  have hmin : min i (ts.length - 1) = i := by omega
  rw [Cursor.look, Nat.add_zero, hmin, Cursor.tokenAt, List.getElem?_eq_getElem hi]

/-- The next token, as the parser and the reading see it. Only the end mark has none behind it. -/
theorem exists_next (hts : Ended ts) (hi : i < ts.length) :
    ∃ t, ts.drop i = t :: ts.drop (i + 1) ∧ Cursor.look ts i 0 = .ok t ∧
      (t.kind ≠ .eof → i + 1 < ts.length ∧ Cursor.take ts i = .ok (t, i + 1)) := by
  refine ⟨ts[i], List.drop_eq_getElem_cons hi, Cursor.look_eq hi, fun hk => ?_⟩
  refine ⟨hts.succ_lt_length hi hk, ?_⟩
  rw [Cursor.take, Cursor.tokenAt, List.getElem?_eq_getElem hi, Cursor.ok_bind, if_neg hk]
  rfl

theorem Token.kind_ne_eof_of_isOp {t : Token} {value : String} (h : t.isOp value = true) :
    t.kind ≠ .eof := by
  intro hk
  simp [Token.isOp, hk] at h

theorem Cursor.atOp_eq (hi : i < ts.length) (value : String) :
    Cursor.atOp ts value i = .ok ((peek (ts.drop i)).isOp value) := by
  rw [Cursor.atOp, Cursor.look_eq hi, Cursor.ok_bind, List.drop_eq_getElem_cons hi]
  rfl

theorem Cursor.take_of_isOp (hts : Ended ts) (hi : i < ts.length) {value : String}
    (h : (peek (ts.drop i)).isOp value = true) :
    i + 1 < ts.length ∧ ∃ t, Cursor.take ts i = .ok (t, i + 1) := by
  obtain ⟨t, hdrop, -, htake⟩ := exists_next hts hi
  rw [hdrop] at h
  obtain ⟨hi, htake⟩ := htake (Token.kind_ne_eof_of_isOp h)
  exact ⟨hi, t, htake⟩

theorem expect_cases (hts : Ended ts) (hi : i < ts.length) (accepts : Token → Bool)
    (haccepts : ∀ t, accepts t = true → t.kind ≠ .eof) (what : String) :
    ∃ t, ts.drop i = t :: ts.drop (i + 1) ∧
      (accepts t = true ∧ i + 1 < ts.length ∧
          Cursor.expect ts accepts what i = .ok (t, i + 1) ∨
        accepts t = false ∧
          Cursor.expect ts accepts what i = .error (.refused (.expected what t) t.pos)) := by
  obtain ⟨t, hdrop, hlook, htake⟩ := exists_next hts hi
  refine ⟨t, hdrop, ?_⟩
  rw [Cursor.expect, hlook, Cursor.ok_bind]
  cases ht : accepts t with
  | true =>
    obtain ⟨hi, htake⟩ := htake (haccepts t ht)
    exact .inl ⟨rfl, hi, by rw [if_pos rfl, htake]⟩
  | false => exact .inr ⟨rfl, rfl⟩

theorem agrees_expectIdent (hts : Ended ts) (hi : i < ts.length) :
    Agrees ts (i + 1) (Cursor.expectIdent ts i) (expectIdent (ts.drop i)) := by
  obtain ⟨t, hdrop, ⟨ht, hi, hexpect⟩ | ⟨ht, hexpect⟩⟩ :=
    expect_cases hts hi (·.kind = .ident) (fun t ht => by simp_all) "identifier"
  · rw [Cursor.expectIdent, hexpect, hdrop, expectIdent, if_pos (of_decide_eq_true ht)]
    exact agrees_ok t (Nat.le_refl _) hi
  · rw [Cursor.expectIdent, hexpect, hdrop, expectIdent, if_neg (of_decide_eq_false ht)]
    exact agrees_refused _ _

theorem Cursor.expectIdent_eq (hts : Ended ts) (hi : i < ts.length) {t : Token}
    (ht : ts.drop i = t :: ts.drop (i + 1)) (hk : t.kind = .ident) :
    i + 1 < ts.length ∧ Cursor.expectIdent ts i = .ok (t, i + 1) := by
  obtain ⟨u, hu, hcases⟩ :=
    expect_cases hts hi (·.kind = .ident) (fun t ht => by simp_all) "identifier"
  obtain rfl : t = u := (List.cons.inj (ht.symm.trans hu)).1
  rcases hcases with ⟨-, hi, hexpect⟩ | ⟨hne, -⟩
  · exact ⟨hi, hexpect⟩
  · exact absurd hk (of_decide_eq_false hne)

/-- A given token comes first in both, and what follows comes out alike. -/
theorem Agrees.after_expect (hts : Ended ts) (hi : i < ts.length) {accepts : Token → Bool}
    (haccepts : ∀ t, accepts t = true → t.kind ≠ .eof) {what : String}
    {m : List Token → Except Failure (List Token)}
    (hm : ∀ t r, m (t :: r) =
      if accepts t then .ok r else grammarError (.expected what t) t.pos)
    {f : Token × Nat → Except Cursor.Stop (β × Nat)}
    {g : List Token → Except Failure (β × List Token)}
    (hfg : ∀ t, i + 1 < ts.length → Agrees ts low (f (t, i + 1)) (g (ts.drop (i + 1)))) :
    Agrees ts low (Cursor.expect ts accepts what i >>= f) (m (ts.drop i) >>= g) := by
  obtain ⟨t, hdrop, ⟨ht, hi, hexpect⟩ | ⟨ht, hexpect⟩⟩ := expect_cases hts hi accepts haccepts what
  · rw [hexpect, hdrop, hm, if_pos ht]
    exact hfg t hi
  · rw [hexpect, hdrop, hm, ht]
    exact agrees_refused _ _

theorem Agrees.after_expectOp (hts : Ended ts) (hi : i < ts.length) {value : String}
    {f : Token × Nat → Except Cursor.Stop (β × Nat)}
    {g : List Token → Except Failure (β × List Token)}
    (hfg : ∀ t, i + 1 < ts.length → Agrees ts low (f (t, i + 1)) (g (ts.drop (i + 1)))) :
    Agrees ts low (Cursor.expectOp ts value i >>= f) (expectOp value (ts.drop i) >>= g) :=
  .after_expect hts hi (fun _ => Token.kind_ne_eof_of_isOp) (fun _ _ => rfl) hfg

theorem Agrees.after_expectWord (hts : Ended ts) (hi : i < ts.length) {word : String}
    {f : Token × Nat → Except Cursor.Stop (β × Nat)}
    {g : List Token → Except Failure (β × List Token)}
    (hfg : ∀ t, i + 1 < ts.length → Agrees ts low (f (t, i + 1)) (g (ts.drop (i + 1)))) :
    Agrees ts low (Cursor.expectWord ts word i >>= f) (expectWord word (ts.drop i) >>= g) := by
  refine .after_expect hts hi (fun t ht => ?_) (fun t r => ?_) hfg
  · rw [(of_decide_eq_true ht).1]
    exact nofun
  · rw [expectWord]
    simp

/-! ### Names and literals -/

theorem dottedParts_part {d t : Token} (hd : d.isOp "." = true) (ht : t.kind = .ident)
    (r : List Token) :
    dottedParts (d :: t :: r) = (t.value :: (dottedParts r).1, (dottedParts r).2) := by
  rw [dottedParts, if_pos (by simp [hd, ht])]

theorem dottedParts_stop {r : List Token}
    (h : (peek r).isOp "." = true → (peek r.tail).kind ≠ .ident) : dottedParts r = ([], r) := by
  cases r with
  | nil => rfl
  | cons d r =>
    cases r with
    | nil => rfl
    | cons t r => rw [dottedParts, if_neg (by simpa [peek] using h)]

theorem agrees_parts (hts : Ended ts) {steps : Nat} (hi : i < ts.length)
    (hs : ts.length - i ≤ steps) :
    Agrees ts i (Cursor.parts ts steps i) (.ok (dottedParts (ts.drop i))) := by
  induction steps generalizing i with
  | zero => omega
  | succ steps ih =>
    obtain ⟨d, hd, -, htake⟩ := exists_next hts hi
    rw [Cursor.parts, Cursor.atOp_eq hi, Cursor.ok_bind]
    split
    · next hpoint =>
      rw [hd, peek] at hpoint
      obtain ⟨hi₁, htake⟩ := htake (Token.kind_ne_eof_of_isOp hpoint)
      obtain ⟨t, ht, hlook, htake'⟩ := exists_next hts hi₁
      change Agrees ts i (Cursor.look ts (i + 1) 0 >>= _) _
      rw [hlook, Cursor.ok_bind]
      split
      · next hk =>
        obtain ⟨hi₂, htake'⟩ := htake' (by simp [hk])
        rw [htake, Cursor.ok_bind]
        dsimp only
        rw [htake', Cursor.ok_bind, hd, ht, dottedParts_part hpoint hk]
        exact (ih hi₂ (by omega)).bind (g := fun x => .ok (t.value :: x.1, x.2))
          fun ss j hj hlt => agrees_ok _ (by omega) hlt
      · next hk =>
        rw [dottedParts_stop fun _ => by rwa [hd, List.tail_cons, ht]]
        exact agrees_ok [] (Nat.le_refl i) hi
    · next hpoint =>
      rw [dottedParts_stop fun h => absurd h hpoint]
      exact agrees_ok [] (Nat.le_refl i) hi

/-- An identifier with what belongs to it, up to the opening parenthesis of a call. -/
theorem agrees_named (hts : Ended ts) {steps : Nat} (hi : i < ts.length)
    (hs : ts.length - i ≤ steps) {t : Token} (ht : ts.drop i = t :: ts.drop (i + 1))
    (hk : t.kind = .ident) :
    Agrees ts (i + 1) (Cursor.named ts steps i)
      (let (parts, r) := dottedParts (ts.drop (i + 1))
      let name := String.intercalate "." (t.value :: parts)
      if (peek r).isOp "(" then .ok (.callOf t.pos name, r.tail)
      else .ok (.value (.name t.pos name), r)) := by
  obtain ⟨hi', hident⟩ := Cursor.expectIdent_eq hts hi ht hk
  rw [Cursor.named, hident, Cursor.ok_bind]
  have hsteps : ts.length - (i + 1) ≤ steps := by omega
  refine (agrees_parts hts hi' hsteps).bind
    (g := fun x =>
      let name := String.intercalate "." (t.value :: x.1)
      if (peek x.2).isOp "(" then .ok (Primary.callOf t.pos name, x.2.tail)
      else .ok (Primary.value (.name t.pos name), x.2)) fun ss j hj hlt => ?_
  dsimp only
  rw [Cursor.atOp_eq hlt, Cursor.ok_bind]
  split
  · next hopen =>
    obtain ⟨hlt, u, htake⟩ := Cursor.take_of_isOp hts hlt hopen
    rw [htake, Cursor.ok_bind, List.tail_drop]
    exact agrees_ok _ (by omega) hlt
  · exact agrees_ok _ hj hlt

theorem agrees_take {t : Token} (hi : i + 1 < ts.length)
    (htake : Cursor.take ts i = .ok (t, i + 1)) (a : α) :
    Agrees ts (i + 1) (Cursor.take ts i >>= fun x => pure (a, x.2)) (.ok (a, ts.drop (i + 1))) := by
  rw [htake]
  exact agrees_ok a (Nat.le_refl _) hi

theorem agrees_primary (hts : Ended ts) {steps : Nat} (hi : i < ts.length)
    (hs : ts.length - i ≤ steps) :
    Agrees ts (i + 1) (Cursor.primary ts steps i) (primary (ts.drop i)) := by
  obtain ⟨t, hdrop, hlook, htake⟩ := exists_next hts hi
  rw [Cursor.primary, hlook, Cursor.ok_bind, hdrop, primary.eq_def]
  dsimp only
  -- the two branch on the same tests
  split
  · next hk =>
    obtain ⟨hi, htake⟩ := htake (by simp [hk])
    exact agrees_take hi htake _
  split
  · next hn =>
    obtain ⟨hi, htake⟩ := htake fun hk => by simp [isNumber, hk] at hn
    exact agrees_take hi htake _
  split
  · next hminus =>
    obtain ⟨hi, htake⟩ := htake (Token.kind_ne_eof_of_isOp hminus)
    obtain ⟨n, hn, hlook, htake'⟩ := exists_next hts hi
    rw [htake, Cursor.ok_bind, hlook, Cursor.ok_bind, hn]
    dsimp only
    split
    · next hnumber =>
      obtain ⟨hi, htake'⟩ := htake' fun hk => by simp [isNumber, hk] at hnumber
      rw [htake']
      exact agrees_ok _ (Nat.le_succ _) hi
    · exact agrees_refused _ _
  split
  · next hk =>
    obtain ⟨hi', htake⟩ := htake (by simp [hk])
    split
    · exact agrees_take hi' htake _
    split
    · exact agrees_take hi' htake _
    · exact agrees_named hts hi hs hdrop hk
  · exact agrees_refused _ _

/-! ### Expressions -/

theorem expr_succ (fuel : Nat) (r : List Token) : expr (fuel + 1) r = primary r >>= fun x =>
    match x with
    | (.value e, r) =>
      if (peek r).isOp "." then grammarError .chainOnValue (peek r).pos else .ok (e, r)
    | (.callOf pos name, r) =>
      args fuel r >>= fun a => chain fuel a.2 >>= fun c => .ok (.call ⟨pos, name, a.1⟩ c.1, c.2) := by
  rw [expr]
  cases primary r with
  | error e => rfl
  | ok x =>
    obtain ⟨⟨⟩ | ⟨pos, name⟩, r⟩ := x
    · rfl
    · rw [Cursor.ok_bind]
      dsimp only
      cases args fuel r with
      | error e => rfl
      | ok a =>
        rw [Cursor.ok_bind]
        dsimp only
        cases chain fuel a.2 <;> rfl

theorem chain_succ (fuel : Nat) (r : List Token) : chain (fuel + 1) r =
    if (peek r).isOp "." then
      expectIdent r.tail >>= fun t => expectOp "(" t.2 >>= fun r => args fuel r >>= fun a =>
        chain fuel a.2 >>= fun c => .ok (⟨t.1.pos, t.1.value, a.1⟩ :: c.1, c.2)
    else .ok ([], r) := by
  rw [chain]
  refine if_congr Iff.rfl ?_ rfl
  cases expectIdent r.tail with
  | error e => rfl
  | ok t =>
    rw [Cursor.ok_bind]
    dsimp only
    cases expectOp "(" t.2 with
    | error e => rfl
    | ok r =>
      rw [Cursor.ok_bind]
      dsimp only
      cases args fuel r with
      | error e => rfl
      | ok a =>
        rw [Cursor.ok_bind]
        dsimp only
        cases chain fuel a.2 <;> rfl

theorem someArgs_succ (fuel : Nat) (r : List Token) : someArgs (fuel + 1) r =
    expr fuel r >>= fun a =>
      if (peek a.2).isOp "," then
        someArgs fuel a.2.tail >>= fun b => .ok (a.1 :: b.1, b.2)
      else expectOp ")" a.2 >>= fun r => .ok ([a.1], r) := by
  rw [someArgs]
  cases expr fuel r with
  | error e => rfl
  | ok a =>
    rw [Cursor.ok_bind]
    dsimp only
    split
    · cases someArgs fuel a.2.tail <;> rfl
    · cases expectOp ")" a.2 <;> rfl

-- By induction on the fuel. At most three calls are nested between one token that is taken and the
-- next; the bounds differ by the calls that a token still has to pay for.
mutual

/-- Three steps for each token left are enough for an expression. -/
theorem agrees_expr (hts : Ended ts) : (fuel : Nat) → {steps i : Nat} → i < ts.length →
    3 * (ts.length - i) ≤ fuel → 3 * (ts.length - i) ≤ steps →
    Agrees ts (i + 1) (Cursor.expr ts steps i) (expr fuel (ts.drop i))
  | 0, _, _, _, _, _ => by omega
  | _, 0, _, _, _, _ => by omega
  | fuel + 1, steps + 1, i, hi, hf, hs => by
    rw [Cursor.expr, expr_succ]
    refine (agrees_primary hts hi (by omega)).bind fun x j hj hlt => ?_
    cases x with
    | value e =>
      dsimp only
      rw [Cursor.atOp_eq hlt, Cursor.ok_bind]
      split
      · rw [Cursor.look_eq hlt, List.drop_eq_getElem_cons hlt]
        exact agrees_refused _ _
      · exact agrees_ok e hj hlt
    | callOf pos name =>
      refine (agrees_args hts fuel hlt (by omega) (by omega)).bind fun as k hk hlt => ?_
      refine (agrees_chain hts fuel hlt (by omega) (by omega)).bind fun cs l hl hlt => ?_
      exact agrees_ok _ (by omega) hlt

theorem agrees_chain (hts : Ended ts) : (fuel : Nat) → {steps i : Nat} → i < ts.length →
    3 * (ts.length - i) ≤ fuel → 3 * (ts.length - i) ≤ steps →
    Agrees ts i (Cursor.chain ts steps i) (chain fuel (ts.drop i))
  | 0, _, _, _, _, _ => by omega
  | _, 0, _, _, _, _ => by omega
  | fuel + 1, steps + 1, i, hi, hf, hs => by
    rw [Cursor.chain, chain_succ, Cursor.atOp_eq hi, Cursor.ok_bind]
    split
    · next hpoint =>
      obtain ⟨hlt, d, htake⟩ := Cursor.take_of_isOp hts hi hpoint
      rw [htake, Cursor.ok_bind, List.tail_drop]
      refine (agrees_expectIdent hts hlt).bind fun t j hj hlt => ?_
      refine Agrees.after_expectOp hts hlt fun _ hlt => ?_
      refine (agrees_args hts fuel hlt (by omega) (by omega)).bind fun as k hk hlt => ?_
      refine (agrees_chain hts fuel hlt (by omega) (by omega)).bind fun cs l hl hlt => ?_
      exact agrees_ok _ (by omega) hlt
    · exact agrees_ok [] (Nat.le_refl i) hi

theorem agrees_args (hts : Ended ts) : (fuel : Nat) → {steps i : Nat} → i < ts.length →
    3 * (ts.length - i) + 2 ≤ fuel → 3 * (ts.length - i) + 2 ≤ steps →
    Agrees ts (i + 1) (Cursor.args ts steps i) (args fuel (ts.drop i))
  | 0, _, _, _, _, _ => by omega
  | _, 0, _, _, _, _ => by omega
  | fuel + 1, steps + 1, i, hi, hf, hs => by
    rw [Cursor.args, args, Cursor.atOp_eq hi, Cursor.ok_bind]
    split
    · next hclose =>
      obtain ⟨hlt, d, htake⟩ := Cursor.take_of_isOp hts hi hclose
      rw [htake, List.tail_drop]
      exact agrees_ok [] (Nat.le_refl _) hlt
    · exact agrees_someArgs hts fuel hi (by omega) (by omega)

theorem agrees_someArgs (hts : Ended ts) : (fuel : Nat) → {steps i : Nat} → i < ts.length →
    3 * (ts.length - i) + 1 ≤ fuel → 3 * (ts.length - i) + 1 ≤ steps →
    Agrees ts (i + 1) (Cursor.someArgs ts steps i) (someArgs fuel (ts.drop i))
  | 0, _, _, _, _, _ => by omega
  | _, 0, _, _, _, _ => by omega
  | fuel + 1, steps + 1, i, hi, hf, hs => by
    rw [Cursor.someArgs, someArgs_succ]
    refine (agrees_expr hts fuel hi (by omega) (by omega)).bind fun a j hj hlt => ?_
    dsimp only
    rw [Cursor.atOp_eq hlt, Cursor.ok_bind]
    split
    · next hcomma =>
      obtain ⟨hlt, d, htake⟩ := Cursor.take_of_isOp hts hlt hcomma
      rw [htake, Cursor.ok_bind, List.tail_drop]
      refine (agrees_someArgs hts fuel hlt (by omega) (by omega)).bind fun as k hk hlt => ?_
      exact agrees_ok _ (by omega) hlt
    · refine Agrees.after_expectOp hts hlt fun _ hlt => ?_
      exact agrees_ok _ (by omega) hlt

end

theorem agrees_expr_depthBound (hts : Ended ts) {steps : Nat} (hi : i < ts.length)
    (hs : 3 * (ts.length - i) ≤ steps) :
    Agrees ts (i + 1) (Cursor.expr ts steps i) (expr (depthBound (ts.drop i)) (ts.drop i)) :=
  agrees_expr hts _ hi (by rw [depthBound, List.length_drop]; omega) hs

/-! ### Definitions -/

theorem passModifiers_eq (hts : Ended ts) {steps : Nat} (hi : i < ts.length)
    (hs : ts.length - i ≤ steps) :
    ∃ j, i ≤ j ∧ j < ts.length ∧ Cursor.passModifiers ts steps i = .ok ((), j) ∧
      (ts.drop i).dropWhile isModifier = ts.drop j := by
  induction steps generalizing i with
  | zero => omega
  | succ steps ih =>
    obtain ⟨t, hdrop, hlook, htake⟩ := exists_next hts hi
    rw [Cursor.passModifiers, hlook, Cursor.ok_bind]
    cases hm : isModifier t with
    | true =>
      obtain ⟨hlt, htake⟩ := htake fun hk => by simp [isModifier, hk] at hm
      obtain ⟨j, hj, hlt, hpass, hrest⟩ := ih hlt (by omega)
      refine ⟨j, by omega, hlt, ?_, ?_⟩
      · rw [if_pos rfl, htake]
        exact hpass
      · rw [hdrop, List.dropWhile_cons_of_pos hm, hrest]
    | false =>
      refine ⟨i, Nat.le_refl i, hi, rfl, ?_⟩
      rw [hdrop, List.dropWhile_cons_of_neg (by simp [hm])]

/-- Only behind a name is there a look further ahead, and a name has a token behind it. -/
theorem startsDefinition_eq (hts : Ended ts) (hi : i < ts.length) :
    Cursor.startsDefinition ts i = .ok (startsDefinition (ts.drop i)) := by
  obtain ⟨t, ht, hlook, hlt⟩ := exists_next hts hi
  rw [Cursor.startsDefinition, hlook, Cursor.ok_bind, startsDefinition, ht]
  by_cases hk : t.kind = .ident
  swap
  · simp [peek, hk, pure, Except.pure]
  cases hm : isModifier t with
  | true => simp [peek, hk, hm, pure, Except.pure]
  | false =>
    obtain ⟨hi₁, -⟩ := hlt (by simp [hk])
    obtain ⟨u, hu, hlook₁, hlt⟩ := exists_next hts hi₁
    change Cursor.look ts i 1 = _ at hlook₁
    rw [if_pos hk, if_neg Bool.false_ne_true, hlook₁, Cursor.ok_bind, hu]
    by_cases hk₁ : u.kind = .ident
    swap
    · simp [peek, hk, hm, hk₁, pure, Except.pure]
    obtain ⟨hi₂, -⟩ := hlt (by simp [hk₁])
    obtain ⟨v, hv, hlook₂, -⟩ := exists_next hts hi₂
    change Cursor.look ts i 2 = _ at hlook₂
    rw [if_pos hk₁, hlook₂, Cursor.ok_bind, hv]
    simp [peek, hk, hm, hk₁, pure, Except.pure]

theorem agrees_definition (hts : Ended ts) {steps : Nat} (hi : i < ts.length)
    (hs : 3 * (ts.length - i) ≤ steps) :
    Agrees ts (i + 1) (Cursor.definition ts steps i) (definition (ts.drop i)) := by
  obtain ⟨t, ht, hlook, -⟩ := exists_next hts hi
  obtain ⟨j, hj, hlt, hpass, hrest⟩ := passModifiers_eq hts hi (show ts.length - i ≤ steps by omega)
  rw [Cursor.definition, hlook, Cursor.ok_bind, hpass, Cursor.ok_bind, definition, hrest]
  refine (agrees_expectIdent hts hlt).bind fun type k hk hlt => ?_
  refine (agrees_expectIdent hts hlt).bind fun name l hl hlt => ?_
  refine Agrees.after_expectOp hts hlt fun _ hlt => ?_
  refine Agrees.after_expectOp hts hlt fun _ hlt => ?_
  refine Agrees.after_expectOp hts hlt fun _ hlt => ?_
  refine Agrees.after_expectWord hts hlt fun _ hlt => ?_
  refine (agrees_expr_depthBound hts hlt (by omega)).bind fun body m hm hlt => ?_
  refine Agrees.after_expectOp hts hlt fun _ hlt => ?_
  refine Agrees.after_expectOp hts hlt fun _ hlt => ?_
  rw [ht]
  exact agrees_ok _ (by omega) hlt

/-- A definition takes tokens, so that a step for each token is enough for all of them. -/
theorem agrees_definitions (hts : Ended ts) (fuel : Nat) {steps : Nat} (known : List Definition)
    (hi : i < ts.length) (hf : ts.length - i ≤ fuel) (hs : 3 * (ts.length - i) + 1 ≤ steps) :
    Agrees ts i (Cursor.definitions ts steps known i) (definitions fuel known (ts.drop i)) := by
  induction fuel generalizing steps i known with
  | zero => omega
  | succ fuel ih =>
    obtain ⟨steps, rfl⟩ : ∃ n, steps = n + 1 := ⟨steps - 1, by omega⟩
    rw [Cursor.definitions, definitions, startsDefinition_eq hts hi, Cursor.ok_bind]
    split
    · refine (agrees_definition hts hi (by omega)).bind fun d j hj hlt => ?_
      dsimp only
      split
      · exact agrees_refused _ _
      · exact (ih (known ++ [d]) hlt (by omega) (by omega)).mono (by omega)
    · exact agrees_ok known (Nat.le_refl i) hi

/-- Behind the last expression there is the end mark or a refusal. -/
theorem endsAlike_end (hi : i < ts.length) (p : Program) :
    EndsAlike ts
      (Cursor.look ts i 0 >>= fun t =>
        if t.kind = .eof then pure (p, i) else throw (.refused (.afterExpression t) t.pos))
      (if (peek (ts.drop i)).kind = .eof then .ok p
        else grammarError (.afterExpression (peek (ts.drop i))) (peek (ts.drop i)).pos) := by
  rw [Cursor.look_eq hi, List.drop_eq_getElem_cons hi]
  by_cases hk : ts[i].kind = .eof
  · exact .inl ⟨p, i, ts[i], List.getElem?_eq_getElem hi, hk, if_pos hk, if_pos hk⟩
  · exact .inr ⟨_, _, if_neg hk, if_neg hk⟩

/-- On tokens with one end mark, the reading on indices comes out as the parser does, with a
program at the end mark or with a report. From any place of such tokens, an expression comes out as
the parser's does, and takes at least one token. -/
theorem program_of_ended (hts : Ended ts) :
    (∀ steps, 3 * ts.length + 1 ≤ steps →
      EndsAlike ts (Cursor.program ts steps) (program ts)) ∧
    ∀ steps i, i < ts.length → 3 * (ts.length - i) ≤ steps →
      Agrees ts (i + 1) (Cursor.expr ts steps i) (expr (depthBound (ts.drop i)) (ts.drop i)) := by
  refine ⟨fun steps hs => ?_, fun steps i hi hs => agrees_expr_depthBound hts hi hs⟩
  have hpos : 0 < ts.length := by
    obtain ⟨us, last, rfl, -⟩ := hts
    simp
  have hdefs := agrees_definitions hts ts.length [] hpos (Nat.sub_le _ _) hs
  rw [List.drop_zero] at hdefs
  refine hdefs.bind_endsAlike fun ds i _ hi => ?_
  refine (agrees_expr_depthBound hts hi (by omega)).bind_endsAlike fun e j _ hj => ?_
  dsimp only
  rw [Cursor.atOp_eq hj, Cursor.ok_bind]
  split
  · next hsemicolon =>
    obtain ⟨hlt, t, htake⟩ := Cursor.take_of_isOp hts hj hsemicolon
    rw [htake, List.tail_drop]
    exact endsAlike_end hlt ⟨ds, e⟩
  · exact endsAlike_end hj ⟨ds, e⟩

end

/-- A definition with a modifier, and an expression with a chain that uses it. -/
theorem program_of_ended_chain :
    let ts : List Token := [⟨.ident, "static", ⟨1, 1⟩⟩, ⟨.ident, "T", ⟨1, 8⟩⟩,
      ⟨.ident, "f", ⟨1, 10⟩⟩, ⟨.op, "(", ⟨1, 11⟩⟩, ⟨.op, ")", ⟨1, 12⟩⟩, ⟨.op, "\x7b", ⟨1, 14⟩⟩,
      ⟨.ident, "return", ⟨1, 16⟩⟩, ⟨.op, "-", ⟨1, 23⟩⟩, ⟨.int, "1", ⟨1, 24⟩⟩, ⟨.op, ";", ⟨1, 25⟩⟩,
      ⟨.op, "\x7d", ⟨1, 27⟩⟩, ⟨.ident, "a", ⟨2, 1⟩⟩, ⟨.op, "(", ⟨2, 2⟩⟩, ⟨.ident, "f", ⟨2, 3⟩⟩,
      ⟨.op, "(", ⟨2, 4⟩⟩, ⟨.op, ")", ⟨2, 5⟩⟩, ⟨.op, ")", ⟨2, 6⟩⟩, ⟨.op, ".", ⟨2, 7⟩⟩,
      ⟨.ident, "b", ⟨2, 8⟩⟩, ⟨.op, "(", ⟨2, 9⟩⟩, ⟨.op, ")", ⟨2, 10⟩⟩, ⟨.eof, "", ⟨2, 11⟩⟩]
    let p : Program := ⟨[⟨"f", "T", .number ⟨1, 23⟩ "-1", 1⟩],
      .call ⟨⟨2, 1⟩, "a", [.call ⟨⟨2, 3⟩, "f", []⟩ []]⟩ [⟨⟨2, 8⟩, "b", []⟩]⟩
    Ended ts ∧ 3 * ts.length + 1 ≤ 67 ∧ (11 < ts.length ∧ 3 * (ts.length - 11) ≤ 33) ∧
      program ts = .ok p ∧ EndsAlike ts (Cursor.program ts 67) (program ts) ∧
      Agrees ts 12 (Cursor.expr ts 33 11) (expr (depthBound (ts.drop 11)) (ts.drop 11)) := by
  intro ts p
  have hts : Ended ts := ⟨ts.take 21, ⟨.eof, "", ⟨2, 11⟩⟩, rfl, rfl, by simp [ts]⟩
  have hprogram : program ts = .ok p := by
    subst ts p
    cbv
  have hsteps : 3 * ts.length + 1 ≤ 67 := Nat.le_refl 67
  have hplace : 11 < ts.length ∧ 3 * (ts.length - 11) ≤ 33 := by decide
  exact ⟨hts, hsteps, hplace, hprogram, (program_of_ended hts).1 67 hsteps,
    (program_of_ended hts).2 33 11 hplace.1 hplace.2⟩

end FluentPlan.Script
