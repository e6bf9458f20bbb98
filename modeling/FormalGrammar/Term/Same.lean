import FormalGrammar.Term.Basic

/-!
# Equality of terms and values

Numbers are equal when they denote the same rational, and the truth values
count as one and zero. Records are equal when they have equal values under the
same names, in any order. All else is equal when it is built alike from equal
parts, and two terms of different kinds never are. Excluded code points ascend
without repetition, so equal sets of them are equal lists.
-/

namespace FormalGrammar

/-- The rational that a number or a truth value stands for. -/
def Value.number? : Value → Option Rat
  | .bool b => some (if b then 1 else 0)
  | .int n => some n
  | .decimal x => some x.toRat
  | .null | .text _ | .list _ | .record _ | .term _ => none

/-- Whether two values are numbers that denote the same rational. -/
def Value.sameNumber (v w : Value) : Bool :=
  match v.number?, w.number? with
  | some x, some y => x == y
  | _, _ => false

/-- Whether no two fields have one name, as in every record that there can be. -/
def Value.NamedOnce (fields : List (String × Value)) : Prop := (fields.map (·.1)).Nodup

instance (fields : List (String × Value)) : Decidable (Value.NamedOnce fields) :=
  inferInstanceAs (Decidable (fields.map (·.1)).Nodup)

mutual

/-- Whether two values are equal. -/
def Value.same : Value → Value → Bool
  | .null, .null => true
  | .text s, .text t => s == t
  | .list vs, .list ws => Value.sameAll vs ws
  | .record fs, .record gs => Value.sameFields fs gs
  | .term t, .term u => t.same u
  | v, w => v.sameNumber w
termination_by structural v => v

/-- Whether two lists hold equal values, pair by pair. -/
def Value.sameAll : List Value → List Value → Bool
  | [], [] => true
  | v :: vs, w :: ws => v.same w && Value.sameAll vs ws
  | _, _ => false
termination_by structural vs => vs

/-- Whether two lists of fields hold the same names with equal values, in any order. -/
def Value.sameFields : List (String × Value) → List (String × Value) → Bool
  | [], gs => gs.isEmpty
  | (name, v) :: fs, gs =>
    match gs.lookup name with
    | some w => v.same w && Value.sameFields fs (gs.eraseP (·.1 == name))
    | none => false
termination_by structural fs => fs

/-- Whether two terms are equal. -/
def Term.same : Term → Term → Bool
  | .literal s f, .literal t g => s == t && f.same g
  | .characterSet n e, .characterSet m f => n == m && e == f
  | .nonTerminal n, .nonTerminal m => n == m
  | .sequence t ts, .sequence u us => t.same u && Term.sameAll ts us
  | .alternatives t ts, .alternatives u us => t.same u && Term.sameAll ts us
  | .optional t, .optional u => t.same u
  | .repetition t min max, .repetition u min' max' => t.same u && min == min' && max == max'
  | .epsilon, .epsilon => true
  | _, _ => false
termination_by structural t => t

/-- Whether two lists hold equal terms, pair by pair. -/
def Term.sameAll : List Term → List Term → Bool
  | [], [] => true
  | t :: ts, u :: us => t.same u && Term.sameAll ts us
  | _, _ => false
termination_by structural ts => ts

end

/-- Equal terms are of one kind. -/
theorem Term.kind_eq_of_same {t u : Term} (h : t.same u = true) : t.kind = u.kind := by
  cases t <;> cases u <;> simp_all [Term.same, Term.kind]

/-- Keep the first of all values that equal one another, in order. -/
def Value.distinct (values : List Value) : List Value :=
  values.foldl (fun kept v => if kept.any (·.same v) then kept else kept ++ [v]) []

end FormalGrammar
