import Mathlib.Tactic.Common
import FluentPlan.Proofs.Assembly.Outcome
import FluentPlan.Proofs.Param.Kind

/-!
Which faults a computation can end with. A computation fails within some faults if whatever it fails
with is a problem, which is reported, or one of these. Reading a value of an element fails within two:
a time span that is none, and the index of an entry whose digits have no value.
-/

namespace FluentPlan

/-- A failure that is a problem, or one of some faults. -/
def Failure.Within (faults : List Fault) : Failure → Prop
  | .problem .. => True
  | .fault f => f ∈ faults

/-- A computation that fails with problems and some faults only. -/
def FailsWithin {α : Type} (faults : List Fault) (x : Except Failure α) : Prop :=
  ∀ f, x = .error f → f.Within faults

namespace FailsWithin

variable {α β : Type} {faults : List Fault}

theorem ok (a : α) : FailsWithin faults (.ok a : Except Failure α) := fun _ h => nomatch h

theorem report (p : Problem) : FailsWithin faults (.error (.report p) : Except Failure α) := by
  intro f h
  cases h
  trivial

theorem fault {f : Fault} (hf : f ∈ faults) :
    FailsWithin faults (.error (.fault f) : Except Failure α) := by
  intro g h
  cases h
  exact hf

theorem of_eq {x : Except Failure α} (hx : FailsWithin faults x) {e : Failure}
    (h : x = .error e) : FailsWithin faults (.error e : Except Failure β) := by
  intro f hf
  cases hf
  exact hx e h

theorem bind {x : Except Failure α} {f : α → Except Failure β} (hx : FailsWithin faults x)
    (hf : ∀ a, x = .ok a → FailsWithin faults (f a)) : FailsWithin faults (x >>= f) := by
  cases x with
  | error e =>
    intro g h
    cases h
    exact hx _ rfl
  | ok a => exact hf a rfl

theorem map {x : Except Failure α} (hx : FailsWithin faults x) (f : α → β) :
    FailsWithin faults (x.map f) := by
  cases x with
  | error e =>
    intro g h
    cases h
    exact hx _ rfl
  | ok a => exact ok _

theorem mapM {f : α → Except Failure β} {xs : List α} (h : ∀ x ∈ xs, FailsWithin faults (f x)) :
    FailsWithin faults (xs.mapM f) := by
  induction xs with
  | nil => exact ok _
  | cons x xs ih =>
    rw [List.mapM_cons]
    refine bind (h x List.mem_cons_self) fun y _ => ?_
    exact bind (ih fun z hz => h z (List.mem_cons_of_mem x hz)) fun _ _ => ok _

/-- A path changes which problem a failure is, but not that it is one. -/
theorem withPath {x : Except Failure α} (hx : FailsWithin faults x) (path : String) :
    FailsWithin faults (x.mapError (·.withPath path)) := by
  cases x with
  | ok a => exact ok a
  | error e =>
    intro g h
    cases h
    cases e with
    | problem p q => cases q <;> trivial
    | fault f => exact hx _ rfl

theorem mono {x : Except Failure α} (hx : FailsWithin faults x) {more : List Fault}
    (h : faults ⊆ more) : FailsWithin more x := by
  intro f hf
  have := hx f hf
  cases f with
  | problem p q => trivial
  | fault f => exact h this

end FailsWithin

/-! ### Values -/

/-- The faults that reading an element can end with. -/
def readFaults : List Fault := [.durationRange, .indexWithoutValue]

theorem durationRange_subset_readFaults : [Fault.durationRange] ⊆ readFaults :=
  List.cons_subset_cons _ (List.nil_subset _)

/-- A raw text is misread for a reason that can be reported, or because it is no time span. -/
theorem ParamKind.misread_of_read {kind : ParamKind} {raw : String} {m : Misread}
    (h : kind.read raw = .error m) : (∃ p, m = .problem p) ∨ m = .fault .durationRange := by
  have hspan {ms : Int} (h : span ms = .error m) : m = .fault .durationRange := by
    unfold span at h
    split at h
    · cases h
    · cases h
      rfl
  have hduration {unit : TimeUnit} (h : readDuration unit raw = .error m) :
      (∃ p, m = .problem p) ∨ m = .fault .durationRange := by
    unfold readDuration at h
    split at h
    · cases h
      exact .inl ⟨_, rfl⟩
    · exact .inr (hspan h)
  have hinteger {low high : Int} (h : readInteger low high raw = .error m) :
      ∃ p, m = .problem p := by
    unfold readInteger at h
    split at h
    · cases h
      exact ⟨_, rfl⟩
    · split at h <;> cases h
      exact ⟨_, rfl⟩
  have hdouble (h : readDouble raw = .error m) : ∃ p, m = .problem p := by
    unfold readDouble at h
    split at h
    · cases h
      exact ⟨_, rfl⟩
    · split at h <;> cases h
      exact ⟨_, rfl⟩
  cases kind with
  | int | long => exact .inl (hinteger h)
  | double | float => exact .inl (hdouble h)
  | duration unit => exact hduration h
  | holdDuration unit key => exact hduration h
  | bool =>
    simp only [read] at h
    split_ifs at h
    cases h
    exact .inl ⟨_, rfl⟩
  | enum type javaClass =>
    simp only [read] at h
    split at h <;> cases h
    exact .inl ⟨_, rfl⟩
  | charset =>
    simp only [read, readCharset] at h
    split_ifs at h <;> cases h <;> exact .inl ⟨_, rfl⟩
  | textArray | textList | plain | text | displayName | classRef | url | children => cases h

namespace Param

theorem failsWithin_parse (p : Param) (raw : Option String) :
    FailsWithin [.durationRange] (p.parse raw) := by
  unfold parse
  split
  · exact .ok _
  · split_ifs
    · exact .ok _
    · exact .ok _
    · split
      · exact .ok _
      · next m hm =>
        rcases ParamKind.misread_of_read hm with ⟨q, rfl⟩ | rfl
        · exact .report _
        · exact .fault List.mem_cons_self

theorem failsWithin_indexValue (digits : List Char) :
    FailsWithin [.indexWithoutValue] (indexValue digits) := by
  unfold indexValue
  split
  · exact .ok _
  · exact .fault List.mem_cons_self

theorem failsWithin_indexed (base : String) (es : List (String × String)) :
    FailsWithin [.indexWithoutValue] (indexed base es) := by
  induction es with
  | nil => exact .ok _
  | cons e es ih =>
    obtain ⟨key, value⟩ := e
    unfold indexed
    split
    · split_ifs
      · exact (failsWithin_indexValue _).bind fun n _ => ih.bind fun more _ => .ok _
      · exact ih
    · exact ih

theorem failsWithin_offset? (unit : TimeUnit) (key : String) (props : Properties) (lead : String) :
    FailsWithin [.durationRange] (offset? unit key props lead) := by
  simp only [offset?]
  split
  · exact .ok _
  · split
    · exact .ok _
    · exact .fault List.mem_cons_self

theorem failsWithin_moveBy (v : Option Value) (d : Option Int) :
    FailsWithin [.durationRange] (moveBy v d) := by
  unfold moveBy
  split
  · split_ifs
    · exact .ok _
    · exact .fault List.mem_cons_self
  · exact .ok _

theorem failsWithin_valueOf (p : Param) (e : Element) (lead : String) :
    FailsWithin readFaults (p.valueOf e lead) := by
  have hparse := (p.failsWithin_parse (p.extract e lead)).mono durationRange_subset_readFaults
  unfold valueOf
  split
  · refine FailsWithin.bind ((failsWithin_indexed _ _).mono (by simp [readFaults])) ?_
    exact fun _ _ => .ok _
  · refine hparse.bind fun v _ => ?_
    refine FailsWithin.bind ((failsWithin_offset? _ _ _ _).mono durationRange_subset_readFaults) ?_
    exact fun d _ => (failsWithin_moveBy _ _).mono durationRange_subset_readFaults
  · exact hparse

/-- Whether values can be compared with the default of a parameter: no charset stands there, which
might be unknown, and a list does where lists are expected. -/
def isComparable (p : Param) : Bool :=
  match p.kind with
  | .charset => p.default.isNone
  | .textArray | .textList => p.default.isSome
  | _ => true

theorem exists_isDefault? {p : Param} (h : p.isComparable = true) (v : Option Value) :
    ∃ b, p.isDefault? v = .ok b := by
  obtain ⟨kind, prop, default, required, mandatory⟩ := p
  unfold isDefault?
  split
  · exact ⟨_, rfl⟩
  · exact ⟨_, rfl⟩
  · cases kind with
    | charset =>
      obtain rfl : default = none := by simpa [isComparable] using h
      exact ⟨_, rfl⟩
    | textArray | textList =>
      obtain ⟨d, rfl⟩ : ∃ d, default = some d := Option.isSome_iff_exists.mp h
      simp only
      split_ifs <;> exact ⟨_, rfl⟩
    | _ => cases default <;> exact ⟨_, rfl⟩

end Param

end FluentPlan
