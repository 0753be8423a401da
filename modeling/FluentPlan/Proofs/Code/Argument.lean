import FluentPlan.Call
import FluentPlan.Proofs.Lexing.Numeral

/-!
What arguments say. The value of a parameter denotes expressions: one, or one for each item of a
parameter that takes all remaining arguments. Its text spells them, wherever it stands and however
it is laid out.
-/

namespace FluentPlan

open Script Java Text

/-! ### Texts that spell expressions -/

namespace Script

theorem Writes.lists {cs : List Char} {e : Expr} (h : Writes cs e) : Lists cs [e] := by
  obtain ⟨ws, he, hs⟩ := h
  exact ⟨ws, .one he, hs⟩

theorem Lists.fills {cs : List Char} {es : List Expr} (h : Lists cs es) : Fills cs es := by
  obtain ⟨ws, he, hs⟩ := h
  exact ⟨ws, .some he, hs⟩

theorem fills_nil : Fills [] [] := ⟨[], .none, spells_nil⟩

/-- Two series with a comma between them, and a gap behind it. -/
theorem Lists.append {gap cs ds : List Char} {es fs : List Expr} (hc : Lists cs es)
    (hg : Skipped gap) (hd : Lists ds fs) : Lists (cs ++ ',' :: gap ++ ds) (es ++ fs) := by
  obtain ⟨ws, he, hs⟩ := hc
  obtain ⟨vs, hf, ht⟩ := hd
  exact ⟨_, he.append hf, hs.comma hg ht⟩

theorem Lists.space {gap cs : List Char} {es : List Expr} (hg : Skipped gap) (h : Lists cs es) :
    Lists (gap ++ cs) es := by
  obtain ⟨ws, he, hs⟩ := h
  exact ⟨ws, he, hs.space hg⟩

theorem Lists.behind {c : Char} {gap cs : List Char} {es : List Expr}
    (hc : c = ',' ∨ c = ')' ∨ c = '\n' ∨ c = '/' ∨ c = ';') (hg : Skipped (c :: gap))
    (h : Lists cs es) : Lists (cs ++ c :: gap) es := by
  obtain ⟨ws, he, hs⟩ := h
  exact ⟨ws, he, hs.behind hc hg⟩

theorem Skipped.fills {cs : List Char} (h : Skipped cs) : Fills cs [] := ⟨[], .none, h.spells⟩

theorem skipped_blank : Skipped [' '] := skipped_of_indent rfl

theorem lists_joinWith {α : Type} {f : α → List Char} {g : α → List Expr} {xs : List α}
    (hne : xs ≠ []) (h : ∀ x ∈ xs, Lists (f x) (g x)) :
    Lists (joinWith [',', ' '] (xs.map f)) (xs.flatMap g) := by
  induction xs with
  | nil => exact absurd rfl hne
  | cons x xs ih =>
    have hx := h x List.mem_cons_self
    cases xs with
    | nil => simpa [joinWith] using hx
    | cons y ys =>
      have hrest := ih (by simp) fun z hz => h z (List.mem_cons_of_mem x hz)
      have happ := hx.append skipped_blank hrest
      simpa [joinWith] using happ

theorem writes_literal {indent : List Char} (hi : indent.all isIndent = true) (s : String)
    (blocks : Bool) : Writes (literal s.toList indent blocks) (.text .start s) := by
  refine ⟨_, .text .start s, literal_no_return hi _ _, fun r us hr hus => ?_⟩
  have h := reads_literal hi s.toList blocks hr.not_quote hus
  rwa [String.ofList_toList] at h

theorem writes_plainLiteral (s : String) : Writes (plainLiteral s.toList) (.text .start s) := by
  have h : Writes (literal s.toList [] false) (.text .start s) := writes_literal rfl s false
  simpa [literal] using h

theorem spells_ident {s : String} (h : isIdentifier s.toList = true) :
    Spells s.toList [.ident s] := by
  refine ⟨isIdentifier_no_return h, fun r us hr hus => ?_⟩
  have hread := reads_ident h hr.not_isIdentPart hus
  rwa [String.ofList_toList] at hread

theorem writes_null : Writes "null".toList (.null .start) :=
  ⟨_, .null .start, spells_ident (by decide)⟩

theorem writes_bool (b : Bool) :
    Writes (if b then "true" else "false").toList (.bool .start b) :=
  ⟨_, .bool .start b, spells_ident (by cases b <;> decide)⟩

theorem IsDotted.writes {name : String} (h : IsDotted name) :
    Writes name.toList (.name .start name) := by
  obtain ⟨ns, hn, hr⟩ := h.reads
  exact ⟨ns, .name .start hn, h.no_return, fun r us hc hus => hr r us hc.not_isIdentPart hus⟩

theorem IsDotted.writes_call {name : String} (h : IsDotted name) {cs : List Char} {es : List Expr}
    (hc : Fills cs es) :
    Writes (name.toList ++ '(' :: cs ++ [')']) (.call ⟨.start, name, es⟩ []) := by
  obtain ⟨ns, hn, hr⟩ := h.reads
  obtain ⟨ws, he, hs⟩ := hc
  exact ⟨_, .call .start hn he .nil, .call hr h.no_return hs spells_nil⟩

end Script

/-! ### Values -/

namespace Param

/-- The expression of a duration. -/
def durationExpr (millis : Int) : Expr :=
  if millis = 0 then .name .start "Duration.ZERO"
  else if millis % 1000 = 0 then
    .call ⟨.start, "Duration.ofSeconds", [.number .start (toString (millis / 1000))]⟩ []
  else .call ⟨.start, "Duration.ofMillis", [.number .start (toString millis)]⟩ []

/-- The expression of a charset. -/
def charsetExpr (name : String) : Expr :=
  match (Charset.ofName? name).bind Charset.constant? with
  | some c => .name .start ("StandardCharsets." ++ c)
  | none => .call ⟨.start, "Charset.forName", [.text .start name]⟩ []

/-- The expressions of a value that refers to no variable. -/
def valueExprs (kind : ParamKind) (v : Value) : List Expr :=
  match kind, v with
  | .bool, v => [.bool .start v.isTruthy]
  | .int, v => [.number .start v.plainText]
  | .long, v => [.number .start (longCode v)]
  | .double, v => [.number .start (doubleCode v)]
  | .float, v => [.number .start (doubleCode v ++ "f")]
  | .duration _, .duration ms | .holdDuration _ _, .duration ms => [durationExpr ms]
  | .textArray, .texts items | .textList, .texts items => items.map (.text .start)
  | .enum _ javaClass, .member m => [.name .start (simpleName javaClass ++ "." ++ m.name)]
  | .charset, v => [charsetExpr v.plainText]
  | .classRef, v => [.name .start (classCode v.plainText)]
  | _, v => [.text .start v.plainText]

/-- The expressions of a value as an argument. -/
def exprs (p : Param) (value : Option Value) : List Expr :=
  match value with
  | none => [.null .start]
  | some (.dynamic t) => [.text .start t]
  | some v => valueExprs p.kind v

/-- A class name as it stands in a class literal. -/
def dottedClass (name : String) : String :=
  String.ofList (name.toList.map fun c => if c = '$' then '.' else c)

/-- Values whose text is made of literals: numbers that are numbers of the kind, some item where
items are listed, and dotted names for constants and classes. -/
def ReadableValue : ParamKind → Value → Prop
  | .int, v | .long, v => ∃ n, v = .integer n
  | .double, v | .float, v => ∃ x, v = .double x ∧ x.isFinite = true
  | .textArray, .texts items | .textList, .texts items => items ≠ []
  | .enum _ javaClass, .member m => IsDotted (simpleName javaClass ++ "." ++ m.name)
  | .classRef, v => IsDotted (dottedClass v.plainText)
  | _, _ => True

/-- Arguments whose text is made of literals. -/
def Readable (p : Param) : Option Value → Prop
  | some (.dynamic _) | none => True
  | some v => ReadableValue p.kind v

theorem writes_duration (ms : Int) : Writes (durationCode ms).toList (durationExpr ms) := by
  have hfactory (name : String) (hn : isIdentifier name.toList = true) (n : Int) :
      Writes ("Duration." ++ name ++ "(" ++ toString n ++ ")").toList
        (.call ⟨.start, "Duration." ++ name, [.number .start (toString n)]⟩ []) := by
    have hd : IsDotted ("Duration" ++ "." ++ name) :=
      (isDotted_of_isIdentifier (by decide) (by decide)).append hn
    have hw := hd.writes_call (writes_int n).lists.fills
    simpa using hw
  unfold durationCode durationExpr
  split_ifs
  · have hd : IsDotted ("Duration" ++ "." ++ "ZERO") :=
      (isDotted_of_isIdentifier (by decide) (by decide)).append (by decide)
    exact hd.writes
  · exact hfactory "ofSeconds" (by decide) _
  · exact hfactory "ofMillis" (by decide) _

theorem isIdentifier_constant? {c : Charset} {s : String} (h : c.constant? = some s) :
    isIdentifier s.toList = true := by
  obtain ⟨before, behind, hl, -⟩ := List.lookup_eq_some_iff.mp h
  have hm : (c.canonical, s) ∈ before ++ (c.canonical, s) :: behind := by simp
  rw [← hl] at hm
  simp only [List.mem_cons, Prod.mk.injEq, List.not_mem_nil, or_false] at hm
  rcases hm with ⟨-, rfl⟩ | ⟨-, rfl⟩ | ⟨-, rfl⟩ | ⟨-, rfl⟩ | ⟨-, rfl⟩ | ⟨-, rfl⟩ <;> decide

theorem writes_charset (name : String) : Writes (charsetCode name) (charsetExpr name) := by
  unfold charsetCode charsetExpr
  cases h : (Charset.ofName? name).bind Charset.constant? with
  | some c =>
    obtain ⟨cs, -, hc⟩ := Option.bind_eq_some_iff.mp h
    have hd : IsDotted ("StandardCharsets" ++ "." ++ c) :=
      (isDotted_of_isIdentifier (by decide) (by decide)).append (isIdentifier_constant? hc)
    exact hd.writes
  | none =>
    have hd : IsDotted ("Charset" ++ "." ++ "forName") :=
      (isDotted_of_isIdentifier (by decide) (by decide)).append (by decide)
    have hw := hd.writes_call (writes_plainLiteral name).lists.fills
    simpa using hw

theorem classCode_eq (name : String) : classCode name = dottedClass name ++ "." ++ "class" := by
  simp [classCode, dottedClass, String.append_assoc]

theorem lists_renderValue {kind : ParamKind} {v : Value} (hv : ReadableValue kind v)
    {indent : List Char} (hi : indent.all isIndent = true) (blocks : Bool) :
    Lists (renderValue kind v indent blocks) (valueExprs kind v) := by
  have hlit := (writes_literal hi v.plainText blocks).lists
  have htexts {items : List String} (hne : items ≠ []) :
      Lists (joinWith [',', ' '] (items.map fun s => plainLiteral s.toList))
        (items.map (.text .start)) := by
    have h := lists_joinWith (g := fun s => [.text .start s]) hne
      fun s _ => (writes_plainLiteral s).lists
    rwa [← List.map_eq_flatMap] at h
  cases kind with
  | plain | text | displayName | url | children => cases v <;> exact hlit
  | bool => exact (writes_bool _).lists
  | int =>
    obtain ⟨n, rfl⟩ := hv
    exact (writes_int n).lists
  | long =>
    obtain ⟨n, rfl⟩ := hv
    simp only [renderValue, valueExprs, longCode]
    split_ifs
    · exact (writes_int n).lists
    · exact (writes_long n).lists
  | double =>
    obtain ⟨x, rfl, hx⟩ := hv
    exact (writes_double hx).lists
  | float =>
    obtain ⟨x, rfl, hx⟩ := hv
    exact (writes_float hx).lists
  | duration _ | holdDuration _ _ =>
    cases v with
    | duration ms => exact (writes_duration ms).lists
    | _ => exact hlit
  | textArray | textList =>
    cases v with
    | texts items => exact htexts hv
    | _ => exact hlit
  | enum _ _ =>
    cases v with
    | member m => exact (IsDotted.writes hv).lists
    | _ => exact hlit
  | charset => exact (writes_charset _).lists
  | classRef =>
    have hd := IsDotted.append (t := "class") hv (by decide)
    rw [← classCode_eq] at hd
    exact hd.writes.lists

/-- The text of an argument spells its expressions. -/
theorem lists_render {p : Param} {value : Option Value} (hv : p.Readable value)
    {indent : List Char} (hi : indent.all isIndent = true) (blocks : Bool) :
    Lists (p.render value indent blocks) (p.exprs value) := by
  cases value with
  | none => exact writes_null.lists
  | some v =>
    cases v with
    | dynamic t => exact (writes_literal hi t blocks).lists
    | _ => exact lists_renderValue hv hi blocks

end Param

end FluentPlan
