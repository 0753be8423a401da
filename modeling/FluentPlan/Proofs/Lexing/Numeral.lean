import FluentPlan.Number.Shortest
import FluentPlan.Proofs.Lexing.Spelling

/-!
Numbers as tokens. The texts of integers and of finite doubles are numerals, perhaps behind a minus
sign, and a numeral is one token.
-/

namespace FluentPlan.Script

open Java Text Word

/-! ### Numerals -/

def IsDigits (cs : List Char) : Prop := cs ≠ [] ∧ ∀ c ∈ cs, c.isDigit = true

/-- Nothing, or a point with digits behind it. -/
def IsFraction (cs : List Char) : Prop := cs = [] ∨ ∃ ds, IsDigits ds ∧ cs = '.' :: ds

/-- Nothing, or the sign of an exponent with digits behind it. -/
def IsExponent (cs : List Char) : Prop :=
  cs = [] ∨ ∃ sign ds, (sign = '+' ∨ sign = '-') ∧ IsDigits ds ∧ cs = 'e' :: sign :: ds

/-- What ends a numeral: something that cannot run on from it, or a mark. -/
def Stops (r : List Char) : Prop :=
  ∀ c, r.head? = some c → c = ',' ∨ c = ')' ∨ c = '\n' ∨ c = '/' ∨ c = ';' ∨ c = 'f' ∨ c = 'L'

theorem Closed.stops {r : List Char} (h : Closed r) : Stops r := by
  intro c hc
  rcases h c hc with rfl | rfl | rfl | rfl | rfl <;> simp

theorem Stops.not_isDigit {r : List Char} (h : Stops r) :
    ∀ c, r.head? = some c → c.isDigit = false := by
  intro c hc
  rcases h c hc with rfl | rfl | rfl | rfl | rfl | rfl | rfl <;> decide

theorem exponentPart_append {exp r : List Char} (he : IsExponent exp) (hr : Stops r) :
    exponentPart (exp ++ r) = .ok exp := by
  rcases he with rfl | ⟨sign, ds, hs, ⟨hne, hds⟩, rfl⟩
  · cases r with
    | nil => rfl
    | cons c r => rcases hr c rfl with rfl | rfl | rfl | rfl | rfl | rfl | rfl <;> rfl
  · have hrun := takeWhile_append_of_stop hds hr.not_isDigit
    rcases hs with rfl | rfl <;> simp [exponentPart, hrun, hne]

theorem fractionPart_append {frac exp r : List Char} (hf : IsFraction frac) (he : IsExponent exp)
    (hr : Stops r) : fractionPart (frac ++ (exp ++ r)) = frac := by
  have hhead : ∀ c, (exp ++ r).head? = some c → c.isDigit = false ∧ c ≠ '.' := by
    rcases he with rfl | ⟨sign, ds, -, -, rfl⟩
    · intro c hc
      rcases hr c hc with rfl | rfl | rfl | rfl | rfl | rfl | rfl <;> decide
    · intro c hc
      obtain rfl : 'e' = c := by simpa using hc
      decide
  rcases hf with rfl | ⟨ds, ⟨hne, hds⟩, rfl⟩
  · rw [List.nil_append]
    cases h : exp ++ r with
    | nil => rfl
    | cons c cs =>
      have hc := (hhead c (by rw [h]; rfl)).2
      unfold fractionPart
      split
      · next heq => exact absurd (List.cons.inj heq).1 hc
      · rfl
  · obtain ⟨d, ds, rfl⟩ := List.exists_cons_of_ne_nil hne
    have hd := hds d List.mem_cons_self
    have hrun := takeWhile_append_of_stop (fun c hc => hds c (List.mem_cons_of_mem d hc))
      fun c hc => (hhead c hc).1
    simp [fractionPart, hd, hrun]

/-- The parts of a numeral are found again. A mark makes it a float or a long one. -/
theorem numberPart_append {whole frac exp r : List Char} (hw : IsDigits whole)
    (hf : IsFraction frac) (he : IsExponent exp) (hr : Stops r) :
    numberPart (whole ++ (frac ++ (exp ++ r))) =
      .ok (match r with
        | m :: _ =>
          if isFloatMark m then (whole ++ frac ++ exp ++ [m], true)
          else if isLongMark m && !(!frac.isEmpty || !exp.isEmpty) then
            (whole ++ frac ++ exp ++ [m], false)
          else (whole ++ frac ++ exp, !frac.isEmpty || !exp.isEmpty)
        | [] => (whole ++ frac ++ exp, !frac.isEmpty || !exp.isEmpty)) := by
  have hhead : ∀ c, (frac ++ (exp ++ r)).head? = some c → isWholePart c = false := by
    intro c hc
    rcases hf with rfl | ⟨ds, -, rfl⟩
    · rcases he with rfl | ⟨sign, ds, -, -, rfl⟩
      · rcases hr c hc with rfl | rfl | rfl | rfl | rfl | rfl | rfl <;> decide
      · obtain rfl : 'e' = c := by simpa using hc
        decide
    · obtain rfl : '.' = c := by simpa using hc
      decide
  have hwhole : (whole ++ (frac ++ (exp ++ r))).takeWhile isWholePart = whole :=
    takeWhile_append_of_stop (fun c hc => by simp [isWholePart, hw.2 c hc]) hhead
  unfold numberPart
  simp only [hwhole, List.drop_left, fractionPart_append hf he hr, exponentPart_append he hr, bind,
    Except.bind]
  cases r with
  | nil => rfl
  | cons m r =>
    simp only [pure, Except.pure]
    split_ifs <;> rfl

/-- What may stand behind a numeral as its last part: a mark makes whole numbers long ones and any
number a float. -/
def IsMark (frac exp mark : List Char) : Prop :=
  mark = [] ∨ mark = ['f'] ∨ mark = ['L'] ∧ frac = [] ∧ exp = []

/-- The characters of numerals. -/
theorem mem_numeral {whole frac exp mark : List Char} (hw : IsDigits whole) (hf : IsFraction frac)
    (he : IsExponent exp) (hm : IsMark frac exp mark) {c : Char}
    (hc : c ∈ whole ++ (frac ++ (exp ++ mark))) :
    c.isDigit = true ∨ c ∈ ['.', 'e', '+', '-', 'f', 'L'] := by
  simp only [List.mem_append] at hc
  rcases hc with hc | hc | hc | hc
  · exact .inl (hw.2 c hc)
  · rcases hf with rfl | ⟨ds, ⟨-, hds⟩, rfl⟩
    · cases hc
    · rcases List.mem_cons.mp hc with rfl | hc
      · exact .inr (by decide)
      · exact .inl (hds c hc)
  · rcases he with rfl | ⟨sign, ds, hs, ⟨-, hds⟩, rfl⟩
    · cases hc
    · rcases List.mem_cons.mp hc with rfl | hc
      · exact .inr (by decide)
      · rcases List.mem_cons.mp hc with rfl | hc
        · rcases hs with rfl | rfl <;> exact .inr (by decide)
        · exact .inl (hds c hc)
  · rcases hm with rfl | rfl | ⟨rfl, -, -⟩
    · cases hc
    · exact .inr (by simp_all)
    · exact .inr (by simp_all)

theorem lexeme_numeral {c : Char} {cs r : List Char} {floating : Bool} (hc : c.isDigit = true)
    (hn : numberPart (c :: (cs ++ r)) = .ok (c :: cs, floating)) (hu : '_' ∉ c :: cs) :
    lexeme c (cs ++ r) =
      .ok (.token (if floating then .float else .int) (c :: cs) cs.length) := by
  have hne (d : Char) (hd : d.isDigit = false) : c ≠ d := fun he => by simp [he, hd] at hc
  have hg : isGap c = false := by
    have := hne '\n' rfl
    have := hne ' ' rfl
    have := hne '\t' rfl
    have := hne '\r' rfl
    simp_all [isGap]
  have hf : (c :: cs).filter (· ≠ '_') = c :: cs := by
    refine List.filter_eq_self.mpr fun d hd => ?_
    have : d ≠ '_' := fun he => hu (he ▸ hd)
    simpa using this
  have hslash := hne '/' rfl
  have hquote := hne '"' rfl
  simp only [lexeme, hg, hslash, hquote, hc, hn, hf, bind, Except.bind]
  simp [pure, Except.pure]

theorem spells_numeral {whole frac exp mark : List Char} (hw : IsDigits whole)
    (hf : IsFraction frac) (he : IsExponent exp) (hm : IsMark frac exp mark) :
    ∃ kind, IsNumeric kind ∧ Spells (whole ++ (frac ++ (exp ++ mark)))
      [(kind, String.ofList (whole ++ (frac ++ (exp ++ mark))))] := by
  obtain ⟨hne, hds⟩ := hw
  obtain ⟨c, cs, rfl⟩ := List.exists_cons_of_ne_nil hne
  have hpart : ∃ floating, ∀ r, Closed r →
      numberPart (c :: cs ++ (frac ++ (exp ++ (mark ++ r)))) =
        .ok (c :: cs ++ (frac ++ (exp ++ mark)), floating) := by
    have hn {r : List Char} (hr : Stops r) := numberPart_append ⟨hne, hds⟩ hf he hr
    rcases hm with rfl | rfl | ⟨rfl, rfl, rfl⟩
    · refine ⟨!frac.isEmpty || !exp.isEmpty, fun r hr => ?_⟩
      rw [List.nil_append, hn hr.stops]
      cases r with
      | nil => simp
      | cons m r => rcases hr m rfl with rfl | rfl | rfl | rfl | rfl <;> simp [isFloatMark, isLongMark]
    · refine ⟨true, fun r hr => ?_⟩
      have hs : Stops (['f'] ++ r) := fun d hd => by
        obtain rfl : 'f' = d := by simpa using hd
        simp
      rw [hn hs]
      simp [isFloatMark]
    · refine ⟨false, fun r hr => ?_⟩
      have hs : Stops (['L'] ++ r) := fun d hd => by
        obtain rfl : 'L' = d := by simpa using hd
        simp
      rw [hn hs]
      simp [isFloatMark, isLongMark]
  have hmem {d : Char} := mem_numeral ⟨hne, hds⟩ hf he hm (c := d)
  have hu : '_' ∉ c :: cs ++ (frac ++ (exp ++ mark)) := fun h => absurd (hmem h) (by decide)
  have hr : '\r' ∉ c :: cs ++ (frac ++ (exp ++ mark)) := fun h => absurd (hmem h) (by decide)
  obtain ⟨floating, hpart⟩ := hpart
  refine ⟨if floating then .float else .int, by cases floating <;> simp [IsNumeric], hr, ?_⟩
  intro r us hcl hus
  have hl := lexeme_numeral (r := r) (hds c List.mem_cons_self) (by simpa using hpart r hcl) hu
  have hread := reads_token hl ((congrArg (Reads · us) List.drop_left).mpr hus)
  simpa using hread

/-! ### Integers and doubles -/

theorem isDigits_toDigits (n : Nat) : IsDigits (Nat.toDigits 10 n) :=
  ⟨Nat.toDigits_ne_nil, fun _ hc => Nat.isDigit_of_mem_toDigits (by decide) (by decide) hc⟩

theorem toList_toString_int (n : Int) :
    (toString n).toList = (if n < 0 then ['-'] else []) ++ Nat.toDigits 10 n.natAbs := by
  cases n with
  | ofNat n =>
    have h : (toString (Int.ofNat n)).toList = (toString n).toList := rfl
    have hn : ¬ Int.ofNat n < 0 := by simp
    rw [h, if_neg hn]
    simp [toString]
  | negSucc n =>
    have h : toString (Int.negSucc n) = "-" ++ toString (n + 1) := rfl
    have hn : Int.negSucc n < 0 := Int.negSucc_lt_zero n
    rw [h, if_pos hn]
    simp [toString]

theorem IsDigits.replicate_append {ds : List Char} (h : IsDigits ds) (n : Nat) :
    IsDigits (List.replicate n '0' ++ ds) := by
  refine ⟨by simp [h.1], fun c hc => ?_⟩
  rcases List.mem_append.mp hc with hc | hc
  · rw [List.eq_of_mem_replicate hc]
    rfl
  · exact h.2 c hc

theorem IsDigits.append_replicate {ds : List Char} (h : IsDigits ds) (n : Nat) :
    IsDigits (ds ++ List.replicate n '0') := by
  refine ⟨by simp [h.1], fun c hc => ?_⟩
  rcases List.mem_append.mp hc with hc | hc
  · exact h.2 c hc
  · rw [List.eq_of_mem_replicate hc]
    rfl

theorem IsDigits.cons {c : Char} {ds : List Char} (hc : c.isDigit = true) (h : IsDigits ds) :
    IsDigits (c :: ds) :=
  ⟨by simp, fun d hd => (List.mem_cons.mp hd).elim (fun e => e ▸ hc) (h.2 d)⟩

/-- A whole part, perhaps with a fraction and an exponent behind it. -/
def IsNumeral (cs : List Char) : Prop :=
  ∃ whole frac exp, IsDigits whole ∧ IsFraction frac ∧ IsExponent exp ∧
    cs = whole ++ (frac ++ exp)

theorem IsDigits.isNumeral {ds : List Char} (h : IsDigits ds) : IsNumeral ds :=
  ⟨ds, [], [], h, .inl rfl, .inl rfl, by simp⟩

theorem IsDigits.point {whole ds : List Char} (hw : IsDigits whole) (h : IsDigits ds) :
    IsNumeral (whole ++ '.' :: ds) :=
  ⟨whole, '.' :: ds, [], hw, .inr ⟨ds, h, rfl⟩, .inl rfl, by simp⟩

theorem isDigits_zero : IsDigits ['0'] := ⟨by simp, by simp⟩

/-- The point and the exponent stand among the digits as in a numeral. -/
theorem isNumeral_layout {ds : List Char} (hd : IsDigits ds) (point : Int) :
    IsNumeral (Number.Double.layout ds point) := by
  unfold Number.Double.layout
  split_ifs with hin hlow hlong
  · exact isDigits_zero.point (hd.replicate_append (-point).toNat)
  · have h := (hd.append_replicate (point.toNat - ds.length)).point isDigits_zero
    simpa using h
  · have hlen : point.toNat < ds.length := by
      have : Int.ofNat ds.length = ds.length := rfl
      omega
    have htake : IsDigits (ds.take point.toNat) := by
      refine ⟨fun h => ?_, fun c hc => hd.2 c (List.mem_of_mem_take hc)⟩
      rcases List.take_eq_nil_iff.mp h with h | h
      · omega
      · exact hd.1 h
    have hdrop : IsDigits (ds.drop point.toNat) := by
      refine ⟨fun h => ?_, fun c hc => hd.2 c (List.mem_of_mem_drop hc)⟩
      have := List.drop_eq_nil_iff.mp h
      omega
    exact htake.point hdrop
  · obtain ⟨d, es, rfl⟩ := List.exists_cons_of_ne_nil hd.1
    have hlead : IsDigits [d] := ⟨by simp, by simpa using hd.2 d List.mem_cons_self⟩
    have hmag : IsDigits (if (Nat.toDigits 10 (point - 1).natAbs).length < 2 then
        '0' :: Nat.toDigits 10 (point - 1).natAbs else Nat.toDigits 10 (point - 1).natAbs) := by
      split_ifs
      · exact (isDigits_toDigits _).cons rfl
      · exact isDigits_toDigits _
    have hsign : (if point - 1 < 0 then '-' else '+') = '+' ∨
        (if point - 1 < 0 then '-' else '+') = '-' := by
      split_ifs <;> simp
    have hexp : IsExponent _ := .inr ⟨_, _, hsign, hmag, rfl⟩
    cases es with
    | nil => exact ⟨[d], [], _, hlead, .inl rfl, hexp, by simp⟩
    | cons e es =>
      have hfrac : IsDigits (e :: es) :=
        ⟨by simp, fun c hc => hd.2 c (List.mem_cons_of_mem d hc)⟩
      exact ⟨[d], '.' :: e :: es, _, hlead, .inr ⟨_, hfrac, rfl⟩, hexp, by simp⟩

/-- The text of a finite double is a numeral, perhaps behind a minus sign. -/
theorem toList_text_double {x : Number.Double} (hx : x.isFinite = true) :
    ∃ sign cs, (sign = [] ∨ sign = ['-']) ∧ IsNumeral cs ∧ x.text.toList = sign ++ cs := by
  cases x with
  | finite neg m e =>
    have hbody : IsNumeral (if m = 0 then ['0', '.', '0'] else
        let d := Number.Double.dropZeros 20 (Number.Double.shortest m e)
        let ds := Nat.toDigits 10 d.digits
        Number.Double.layout ds (d.point + Int.ofNat ds.length)) := by
      split_ifs with hm
      · exact isDigits_zero.point isDigits_zero
      · exact isNumeral_layout (isDigits_toDigits _) _
    cases neg with
    | false => exact ⟨[], _, .inl rfl, hbody, by simp [Number.Double.text]⟩
    | true => exact ⟨['-'], _, .inr rfl, hbody, by simp [Number.Double.text]⟩
  | infinite _ => cases hx
  | nan => cases hx

/-! ### Numbers as expressions -/

/-- A text that spells an expression. -/
def Writes (cs : List Char) (e : Expr) : Prop := ∃ ws, IsExpr e ws ∧ Spells cs ws

/-- A text that spells one or more expressions with commas between them. -/
def Lists (cs : List Char) (es : List Expr) : Prop := ∃ ws, IsSeries es ws ∧ Spells cs ws

/-- A text that spells what stands between the parentheses of a call. -/
def Fills (cs : List Char) (es : List Expr) : Prop := ∃ ws, IsArgs es ws ∧ Spells cs ws

theorem writes_numeral {sign cs mark : List Char} (hs : sign = [] ∨ sign = ['-'])
    (hc : IsNumeral cs) (hm : mark = [] ∨ mark = ['f'] ∨ mark = ['L'] ∧ IsDigits cs) :
    Writes (sign ++ (cs ++ mark)) (.number .start (String.ofList (sign ++ (cs ++ mark)))) := by
  have hsp : ∃ kind, IsNumeric kind ∧ Spells (cs ++ mark) [(kind, String.ofList (cs ++ mark))] := by
    rcases hm with rfl | rfl | ⟨rfl, hd⟩
    · obtain ⟨whole, frac, exp, hw, hf, he, rfl⟩ := hc
      simpa using spells_numeral hw hf he (.inl rfl)
    · obtain ⟨whole, frac, exp, hw, hf, he, rfl⟩ := hc
      simpa using spells_numeral hw hf he (.inr (.inl rfl))
    · simpa using spells_numeral hd (.inl rfl) (.inl rfl) (.inr (.inr ⟨rfl, rfl, rfl⟩))
  obtain ⟨kind, hk, h⟩ := hsp
  rcases hs with rfl | rfl
  · exact ⟨_, .number .start hk _, h⟩
  · have he : String.ofList ('-' :: (cs ++ mark)) = "-" ++ String.ofList (cs ++ mark) := by
      rw [← String.toList_inj]
      simp
    exact ⟨_, he ▸ .negative .start hk _, h.minus⟩

theorem writes_int (n : Int) : Writes (toString n).toList (.number .start (toString n)) := by
  have hs : (if n < 0 then ['-'] else []) = [] ∨ (if n < 0 then ['-'] else []) = ['-'] := by
    split_ifs <;> simp
  have h := writes_numeral hs (isDigits_toDigits n.natAbs).isNumeral (.inl rfl)
  rw [List.append_nil, ← toList_toString_int, String.ofList_toList] at h
  exact h

theorem writes_long (n : Int) :
    Writes (toString n ++ "L").toList (.number .start (toString n ++ "L")) := by
  have hs : (if n < 0 then ['-'] else []) = [] ∨ (if n < 0 then ['-'] else []) = ['-'] := by
    split_ifs <;> simp
  have hd := isDigits_toDigits n.natAbs
  have h := writes_numeral hs hd.isNumeral (.inr (.inr ⟨rfl, hd⟩))
  have hL : ['L'] = "L".toList := rfl
  rw [← List.append_assoc, ← toList_toString_int, hL, ← String.toList_append,
    String.ofList_toList] at h
  exact h

theorem writes_double {x : Number.Double} (hx : x.isFinite = true) :
    Writes x.text.toList (.number .start x.text) := by
  obtain ⟨sign, cs, hs, hc, he⟩ := toList_text_double hx
  have h := writes_numeral hs hc (.inl rfl)
  rw [List.append_nil, ← he, String.ofList_toList] at h
  exact h

theorem writes_float {x : Number.Double} (hx : x.isFinite = true) :
    Writes (x.text ++ "f").toList (.number .start (x.text ++ "f")) := by
  obtain ⟨sign, cs, hs, hc, he⟩ := toList_text_double hx
  have h := writes_numeral hs hc (.inr (.inl rfl))
  have hf : ['f'] = "f".toList := rfl
  rw [← List.append_assoc, ← he, hf, ← String.toList_append, String.ofList_toList] at h
  exact h

end FluentPlan.Script
