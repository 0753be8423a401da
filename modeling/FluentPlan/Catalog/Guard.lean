import FluentPlan.Properties

/-!
Guards: conditions on the properties of an element under which a signature or a modifier is meant.
A guard can also be applied, which stores what it asks for.
-/

namespace FluentPlan

inductive Guard where
  | equals (key value : String)
  | isIn (key : String) (values : List String)
  | not (guard : Guard)
  | all (guards : List Guard)
deriving Repr, Inhabited

namespace Guard

mutual

/-- The property that a guard reports when it refuses; of several guards the first one's. -/
def key : Guard → String
  | equals k _ => k
  | isIn k _ => k
  | not g => g.key
  | all gs => firstKey gs

def firstKey : List Guard → String
  | [] => ""
  | g :: _ => g.key

end

mutual

def accepts (props : Properties) : Guard → Bool
  | equals k v => props.get? k = some v
  | isIn k vs => match props.get? k with
    | some v => vs.contains v
    | none => false
  | not g => !g.accepts props
  | all gs => acceptsAll props gs

def acceptsAll (props : Properties) : List Guard → Bool
  | [] => true
  | g :: gs => g.accepts props && acceptsAll props gs

end

mutual

/-- Stores what a guard asks for. A negation asks for nothing in particular, and a choice that is
met stays as it is. -/
def apply (props : Properties) : Guard → Properties
  | equals k v => props.put k v
  | isIn k vs =>
    match vs with
    | [] => props
    | v :: _ => if accepts props (.isIn k vs) then props else props.put k v
  | not _ => props
  | all gs => applyAll props gs

def applyAll (props : Properties) : List Guard → Properties
  | [] => props
  | g :: gs => applyAll (apply props g) gs

end

mutual

def beq : Guard → Guard → Bool
  | equals k v, equals l w => k = l && v = w
  | isIn k vs, isIn l ws => k = l && vs = ws
  | not g, not h => beq g h
  | all gs, all hs => beqAll gs hs
  | _, _ => false

def beqAll : List Guard → List Guard → Bool
  | [], [] => true
  | g :: gs, h :: hs => beq g h && beqAll gs hs
  | _, _ => false

end

mutual

theorem eq_of_beq : {g h : Guard} → beq g h = true → g = h
  | equals _ _, equals _ _, e => by simp_all [beq]
  | isIn _ _, isIn _ _, e => by simp_all [beq]
  | not g, not h, e => by
    have he : beq g h = true := by simpa [beq] using e
    rw [eq_of_beq he]
  | all gs, all hs, e => by
    have h : beqAll gs hs = true := by simpa [beq] using e
    rw [eq_of_beqAll h]

theorem eq_of_beqAll : {gs hs : List Guard} → beqAll gs hs = true → gs = hs
  | [], [], _ => rfl
  | g :: gs, h :: hs, e => by
    simp only [beqAll, Bool.and_eq_true] at e
    rw [eq_of_beq e.1, eq_of_beqAll e.2]

end

mutual

theorem beq_self : (g : Guard) → beq g g = true
  | equals _ _ => by simp [beq]
  | isIn _ _ => by simp [beq]
  | not g => by simpa [beq] using beq_self g
  | all gs => by simpa [beq] using beqAll_self gs

theorem beqAll_self : (gs : List Guard) → beqAll gs gs = true
  | [] => rfl
  | g :: gs => by simp [beqAll, beq_self g, beqAll_self gs]

end

instance : DecidableEq Guard := fun g h =>
  if e : beq g h = true then isTrue (eq_of_beq e)
  else isFalse fun he => e (he ▸ beq_self g)

end Guard

end FluentPlan
