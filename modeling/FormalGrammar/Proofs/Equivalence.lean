import FormalGrammar.Proofs.Equality
import Mathlib.Data.List.Forall2

/-!
# Equality is an equivalence

What equals a value, a term or a grammar is built like it from equal parts, and
a number equals whatever denotes the same rational. So two things that equal a
third one equal each other, which makes equality symmetric and transitive.
-/

namespace FormalGrammar

/-! ## What equals a value or a term -/

namespace Value

variable {w : Value}

/-- Only the null value equals the null value. -/
theorem same_null_iff : Value.null.same w = true ↔ w = .null := by
  cases w <;> simp [same, sameNumber, number?]

/-- Only the same text equals a text. -/
theorem same_text_iff {s : String} : (Value.text s).same w = true ↔ w = .text s := by
  cases w <;> simp [same, sameNumber, number?, eq_comm (a := s)]

/-- A list equals exactly the lists of equal values. -/
theorem same_list_iff {vs : List Value} :
    (Value.list vs).same w = true ↔ ∃ ws, w = .list ws ∧ sameAll vs ws = true := by
  cases w <;> simp [same, sameNumber, number?]

/-- A record equals exactly the records with equal fields. -/
theorem same_record_iff {fs : List (String × Value)} :
    (Value.record fs).same w = true ↔ ∃ gs, w = .record gs ∧ sameFields fs gs = true := by
  cases w <;> simp [same, sameNumber, number?]

/-- A term equals, as a value, exactly the terms that it equals. -/
theorem same_term_iff {t : Term} :
    (Value.term t).same w = true ↔ ∃ u, w = .term u ∧ t.same u = true := by
  cases w <;> simp [same, sameNumber, number?]

/-- A number or a truth value equals exactly what denotes the same rational. -/
theorem same_iff_of_number {v : Value} {x : Rat} (h : v.number? = some x) :
    v.same w = true ↔ w.number? = some x := by
  rw [same_of_number h, sameNumber, h]
  cases w.number? with
  | none => simp
  | some y => simp [eq_comm (a := x)]

/-- Only the empty list holds equal values to the empty list. -/
theorem sameAll_nil_iff {ws : List Value} : sameAll [] ws = true ↔ ws = [] := by
  cases ws <;> simp [sameAll]

/-- Lists of equal values have equal first values and equal values behind them. -/
theorem sameAll_cons_iff {v : Value} {vs ws : List Value} :
    sameAll (v :: vs) ws = true ↔
      ∃ x xs, ws = x :: xs ∧ v.same x = true ∧ sameAll vs xs = true := by
  cases ws <;> simp [sameAll]

/-- Only no fields equal no fields. -/
theorem sameFields_nil_iff {gs : List (String × Value)} : sameFields [] gs = true ↔ gs = [] := by
  cases gs <;> simp [sameFields]

/-- What equals some fields has an equal value under the name of the first, and equals the others
apart from that. -/
theorem sameFields_cons_iff {name : String} {v : Value} {fs gs : List (String × Value)} :
    sameFields ((name, v) :: fs) gs = true ↔
      ∃ x, gs.lookup name = some x ∧ v.same x = true ∧
        sameFields fs (gs.eraseP (·.1 == name)) = true := by
  rw [sameFields]
  cases gs.lookup name <;> simp

/-- Taking a field out leaves the values under other names. -/
theorem lookup_eraseP_of_ne {name other : String} (h : other ≠ name)
    (fields : List (String × Value)) :
    (fields.eraseP (·.1 == name)).lookup other = fields.lookup other := by
  induction fields with
  | nil => rfl
  | cons field fields ih =>
    obtain ⟨key, v⟩ := field
    by_cases hkey : key = name
    · rw [List.eraseP_cons_of_pos (by simpa using hkey), List.lookup_cons,
        beq_eq_false_iff_ne.mpr (hkey ▸ h)]
    · rw [List.eraseP_cons_of_neg (by simpa using hkey), List.lookup_cons, List.lookup_cons, ih]

/-- Fields under two names can be taken out in either order. -/
theorem eraseP_eraseP_of_ne {name other : String} (h : other ≠ name)
    (fields : List (String × Value)) :
    (fields.eraseP (·.1 == name)).eraseP (·.1 == other) =
      (fields.eraseP (·.1 == other)).eraseP (·.1 == name) := by
  refine List.eraseP_comm fun field _ => ?_
  by_cases hname : field.1 = name
  · exact Or.inr (by simpa [hname] using h.symm)
  · exact Or.inl (by simpa using hname)

/-- Fields are equal if they have equal values under one name and are equal apart from that. -/
theorem sameFields_of_lookup {name : String} {v w : Value} {fs gs : List (String × Value)}
    (hf : fs.lookup name = some v) (hg : gs.lookup name = some w) (hvw : v.same w = true)
    (hrest : sameFields (fs.eraseP (·.1 == name)) (gs.eraseP (·.1 == name)) = true) :
    sameFields fs gs = true := by
  induction fs generalizing gs with
  | nil => cases hf
  | cons field fs ih =>
    obtain ⟨key, x⟩ := field
    by_cases hkey : key = name
    · subst hkey
      rw [List.lookup_cons_self] at hf
      cases hf
      rw [List.eraseP_cons_of_pos (by simp)] at hrest
      exact sameFields_cons_iff.mpr ⟨w, hg, hvw, hrest⟩
    · rw [List.lookup_cons, beq_eq_false_iff_ne.mpr (Ne.symm hkey)] at hf
      rw [List.eraseP_cons_of_neg (by simpa using hkey), sameFields_cons_iff,
        lookup_eraseP_of_ne hkey, eraseP_eraseP_of_ne hkey] at hrest
      obtain ⟨y, hy, hxy, hrest⟩ := hrest
      rw [← lookup_eraseP_of_ne (Ne.symm hkey)] at hg
      exact sameFields_cons_iff.mpr ⟨y, hy, hxy, ih hf hg hrest⟩

end Value

namespace Term

variable {u : Term}

/-- A literal equals exactly the literals of its text with an equal flag. -/
theorem same_literal_iff {s : String} {flag : Value} :
    (literal s flag).same u = true ↔ ∃ other, u = .literal s other ∧ flag.same other = true := by
  cases u <;> simp [same, eq_comm (a := s), and_assoc]

/-- A character set equals exactly itself. -/
theorem same_characterSet_iff {name : String} {excluded : List Nat} :
    (characterSet name excluded).same u = true ↔ u = .characterSet name excluded := by
  cases u <;> simp [same, eq_comm (a := name), eq_comm (a := excluded)]

/-- A reference equals exactly itself. -/
theorem same_nonTerminal_iff {name : String} :
    (nonTerminal name).same u = true ↔ u = .nonTerminal name := by
  cases u <;> simp [same, eq_comm (a := name)]

/-- A sequence equals exactly the sequences of equal terms. -/
theorem same_sequence_iff {t : Term} {ts : List Term} :
    (sequence t ts).same u = true ↔
      ∃ v vs, u = .sequence v vs ∧ t.same v = true ∧ sameAll ts vs = true := by
  cases u <;> simp [same]

/-- A choice equals exactly the choices between equal terms, in order. -/
theorem same_alternatives_iff {t : Term} {ts : List Term} :
    (alternatives t ts).same u = true ↔
      ∃ v vs, u = .alternatives v vs ∧ t.same v = true ∧ sameAll ts vs = true := by
  cases u <;> simp [same]

/-- An optional term equals exactly the optional terms with an equal body. -/
theorem same_optional_iff {t : Term} :
    (optional t).same u = true ↔ ∃ v, u = .optional v ∧ t.same v = true := by
  cases u <;> simp [same]

/-- A repetition equals exactly the repetitions of an equal body within the same bounds. -/
theorem same_repetition_iff {t : Term} {min : Nat} {max : Option Nat} :
    (repetition t min max).same u = true ↔ ∃ v, u = .repetition v min max ∧ t.same v = true := by
  cases u <;> simp [same, eq_comm (a := min), eq_comm (a := max), and_assoc,
    and_left_comm, and_comm]

/-- Only the empty word equals the empty word. -/
theorem same_epsilon_iff : epsilon.same u = true ↔ u = .epsilon := by
  cases u <;> simp [same]

/-- Only the empty list holds equal terms to the empty list. -/
theorem sameAll_nil_iff {us : List Term} : sameAll [] us = true ↔ us = [] := by
  cases us <;> simp [sameAll]

/-- Lists of equal terms have equal first terms and equal terms behind them. -/
theorem sameAll_cons_iff {t : Term} {ts us : List Term} :
    sameAll (t :: ts) us = true ↔
      ∃ v vs, us = v :: vs ∧ t.same v = true ∧ sameAll ts vs = true := by
  cases us <;> simp [sameAll]

/-- Lists hold equal terms exactly if every two terms at one place of them are equal. -/
theorem sameAll_iff {ts us : List Term} :
    sameAll ts us = true ↔ List.Forall₂ (fun t u : Term => t.same u = true) ts us := by
  induction ts generalizing us with
  | nil => cases us <;> simp [sameAll]
  | cons t ts ih => cases us <;> simp [sameAll, ih]

end Term

/-! ## Things that equal one thing -/

mutual

/-- Values that equal one value equal each other. -/
theorem Value.same_euclidean : ∀ (v : Value) {w x : Value},
    v.same w = true → v.same x = true → w.same x = true
  | .null, _, _, hw, hx => by
    rw [Value.same_null_iff.mp hw]
    exact hx
  | .bool _, _, _, hw, hx | .int _, _, _, hw, hx | .decimal _, _, _, hw, hx =>
    (Value.same_iff_of_number ((Value.same_iff_of_number rfl).mp hw)).mpr
      ((Value.same_iff_of_number rfl).mp hx)
  | .text s, _, _, hw, hx => by
    rw [Value.same_text_iff.mp hw]
    exact hx
  | .list vs, _, _, hw, hx => by
    obtain ⟨ws, rfl, hws⟩ := Value.same_list_iff.mp hw
    obtain ⟨xs, rfl, hxs⟩ := Value.same_list_iff.mp hx
    exact Value.same_list_iff.mpr ⟨xs, rfl, Value.sameAll_euclidean vs hws hxs⟩
  | .record fs, _, _, hw, hx => by
    obtain ⟨gs, rfl, hgs⟩ := Value.same_record_iff.mp hw
    obtain ⟨hs, rfl, hhs⟩ := Value.same_record_iff.mp hx
    exact Value.same_record_iff.mpr ⟨hs, rfl, Value.sameFields_euclidean fs hgs hhs⟩
  | .term t, _, _, hw, hx => by
    obtain ⟨u, rfl, hu⟩ := Value.same_term_iff.mp hw
    obtain ⟨v, rfl, hv⟩ := Value.same_term_iff.mp hx
    exact Value.same_term_iff.mpr ⟨v, rfl, Term.same_euclidean t hu hv⟩

/-- Lists that equal one list of values equal each other. -/
theorem Value.sameAll_euclidean : ∀ (vs : List Value) {ws xs : List Value},
    Value.sameAll vs ws = true → Value.sameAll vs xs = true → Value.sameAll ws xs = true
  | [], _, _, hw, hx => by
    rw [Value.sameAll_nil_iff.mp hw]
    exact hx
  | v :: vs, _, _, hw, hx => by
    obtain ⟨w, ws, rfl, hvw, hws⟩ := Value.sameAll_cons_iff.mp hw
    obtain ⟨x, xs, rfl, hvx, hxs⟩ := Value.sameAll_cons_iff.mp hx
    exact Value.sameAll_cons_iff.mpr
      ⟨x, xs, rfl, Value.same_euclidean v hvw hvx, Value.sameAll_euclidean vs hws hxs⟩

/-- Fields that equal some fields equal each other. -/
theorem Value.sameFields_euclidean :
    ∀ (fs : List (String × Value)) {gs hs : List (String × Value)}, Value.sameFields fs gs = true →
      Value.sameFields fs hs = true → Value.sameFields gs hs = true
  | [], _, _, hg, hh => by
    rw [Value.sameFields_nil_iff.mp hg]
    exact hh
  | (name, v) :: fs, _, _, hg, hh => by
    obtain ⟨w, hw, hvw, hgs⟩ := Value.sameFields_cons_iff.mp hg
    obtain ⟨x, hx, hvx, hhs⟩ := Value.sameFields_cons_iff.mp hh
    exact Value.sameFields_of_lookup hw hx (Value.same_euclidean v hvw hvx)
      (Value.sameFields_euclidean fs hgs hhs)

/-- Terms that equal one term equal each other. -/
theorem Term.same_euclidean : ∀ (t : Term) {u v : Term},
    t.same u = true → t.same v = true → u.same v = true
  | .literal s flag, _, _, hu, hv => by
    obtain ⟨f, rfl, hf⟩ := Term.same_literal_iff.mp hu
    obtain ⟨g, rfl, hg⟩ := Term.same_literal_iff.mp hv
    exact Term.same_literal_iff.mpr ⟨g, rfl, Value.same_euclidean flag hf hg⟩
  | .characterSet _ _, _, _, hu, hv => by
    rw [Term.same_characterSet_iff.mp hu]
    exact hv
  | .nonTerminal _, _, _, hu, hv => by
    rw [Term.same_nonTerminal_iff.mp hu]
    exact hv
  | .sequence t ts, _, _, hu, hv => by
    obtain ⟨u, us, rfl, htu, hus⟩ := Term.same_sequence_iff.mp hu
    obtain ⟨v, vs, rfl, htv, hvs⟩ := Term.same_sequence_iff.mp hv
    exact Term.same_sequence_iff.mpr
      ⟨v, vs, rfl, Term.same_euclidean t htu htv, Term.sameAll_euclidean ts hus hvs⟩
  | .alternatives t ts, _, _, hu, hv => by
    obtain ⟨u, us, rfl, htu, hus⟩ := Term.same_alternatives_iff.mp hu
    obtain ⟨v, vs, rfl, htv, hvs⟩ := Term.same_alternatives_iff.mp hv
    exact Term.same_alternatives_iff.mpr
      ⟨v, vs, rfl, Term.same_euclidean t htu htv, Term.sameAll_euclidean ts hus hvs⟩
  | .optional t, _, _, hu, hv => by
    obtain ⟨u, rfl, htu⟩ := Term.same_optional_iff.mp hu
    obtain ⟨v, rfl, htv⟩ := Term.same_optional_iff.mp hv
    exact Term.same_optional_iff.mpr ⟨v, rfl, Term.same_euclidean t htu htv⟩
  | .repetition t _ _, _, _, hu, hv => by
    obtain ⟨u, rfl, htu⟩ := Term.same_repetition_iff.mp hu
    obtain ⟨v, rfl, htv⟩ := Term.same_repetition_iff.mp hv
    exact Term.same_repetition_iff.mpr ⟨v, rfl, Term.same_euclidean t htu htv⟩
  | .epsilon, _, _, hu, hv => by
    rw [Term.same_epsilon_iff.mp hu]
    exact hv

/-- Lists that equal one list of terms equal each other. -/
theorem Term.sameAll_euclidean : ∀ (ts : List Term) {us vs : List Term},
    Term.sameAll ts us = true → Term.sameAll ts vs = true → Term.sameAll us vs = true
  | [], _, _, hu, hv => by
    rw [Term.sameAll_nil_iff.mp hu]
    exact hv
  | t :: ts, _, _, hu, hv => by
    obtain ⟨u, us, rfl, htu, hus⟩ := Term.sameAll_cons_iff.mp hu
    obtain ⟨v, vs, rfl, htv, hvs⟩ := Term.sameAll_cons_iff.mp hv
    exact Term.sameAll_cons_iff.mpr
      ⟨v, vs, rfl, Term.same_euclidean t htu htv, Term.sameAll_euclidean ts hus hvs⟩

end

/-! ## The equivalences -/

/-- A reflexive relation is an equivalence if two things that are related to from one thing are
related to each other. -/
theorem equivalence_of_euclidean {α : Type} {R : α → α → Prop} (hrefl : ∀ x, R x x)
    (heuclidean : ∀ x {y z}, R x y → R x z → R y z) : Equivalence R where
  refl := hrefl
  symm hxy := heuclidean _ hxy (hrefl _)
  trans hxy hyz := heuclidean _ (heuclidean _ hxy (hrefl _)) hyz

/-- Equality of values is an equivalence. -/
theorem Value.same_equivalence : Equivalence fun v w : Value => v.same w = true :=
  equivalence_of_euclidean Value.same_refl Value.same_euclidean

/-- Equality of terms is an equivalence. -/
theorem Term.same_equivalence : Equivalence fun t u : Term => t.same u = true :=
  equivalence_of_euclidean Term.same_refl Term.same_euclidean

namespace Value

/-- Where no two fields have one name, there is none left under a name after taking one out. -/
theorem lookup_eraseP_self {name : String} {fields : List (String × Value)}
    (h : NamedOnce fields) : (fields.eraseP (·.1 == name)).lookup name = none := by
  induction fields with
  | nil => rfl
  | cons field fields ih =>
    obtain ⟨key, v⟩ := field
    obtain ⟨hkey, hrest⟩ := List.nodup_cons.mp h
    by_cases hname : key = name
    · subst hname
      rw [List.eraseP_cons_of_pos (by simp), List.lookup_eq_none_iff]
      intro other hother
      exact bne_iff_ne.mpr fun he => hkey (List.mem_map.mpr ⟨other, hother, he.symm⟩)
    · rw [List.eraseP_cons_of_neg (by simpa using hname), List.lookup_cons,
        beq_eq_false_iff_ne.mpr (Ne.symm hname), ih hrest]

/-- Where no two fields have one name, there is nothing under that of the first but its value. -/
theorem lookup_eq_none_of_namedOnce {name : String} {v : Value} {fields : List (String × Value)}
    (h : NamedOnce ((name, v) :: fields)) : fields.lookup name = none := by
  have hnone : (((name, v) :: fields).eraseP (·.1 == name)).lookup name = none :=
    lookup_eraseP_self h
  rwa [List.eraseP_cons_of_pos (by simp)] at hnone

/-- Records are equal exactly if under every name both have equal values, or neither has any. The
order in which their fields were given makes no difference. -/
theorem same_record_iff_lookup {fs gs : List (String × Value)} (hf : NamedOnce fs)
    (hg : NamedOnce gs) :
    (record fs).same (.record gs) = true ↔
      ∀ name, Option.Rel (fun v w => v.same w = true) (fs.lookup name) (gs.lookup name) := by
  have hfields : (record fs).same (.record gs) = true ↔ sameFields fs gs = true := by rw [same]
  rw [hfields]
  induction fs generalizing gs with
  | nil =>
    rw [sameFields_nil_iff]
    constructor
    · rintro rfl name
      exact .none
    · intro h
      cases gs with
      | nil => rfl
      | cons g gs =>
        have hfirst := h g.1
        rw [List.lookup_cons_self] at hfirst
        cases hfirst
  | cons f fs ih =>
    obtain ⟨key, v⟩ := f
    have herased : NamedOnce (gs.eraseP (·.1 == key)) := hg.sublist (List.eraseP_sublist.map _)
    have hrest := ih (List.nodup_cons.mp hf).2 herased (by rw [same])
    rw [sameFields_cons_iff]
    constructor
    · rintro ⟨w, hw, hvw, hsame⟩ name
      by_cases hname : name = key
      · rw [hname, List.lookup_cons_self, hw]
        exact .some hvw
      · rw [List.lookup_cons, beq_eq_false_iff_ne.mpr hname, ← lookup_eraseP_of_ne hname gs]
        exact hrest.mp hsame name
    · intro h
      have hkey := h key
      rw [List.lookup_cons_self] at hkey
      cases hw : gs.lookup key with
      | none =>
        rw [hw] at hkey
        cases hkey
      | some w =>
        rw [hw] at hkey
        cases hkey with
        | some hvw =>
          refine ⟨w, rfl, hvw, hrest.mpr fun name => ?_⟩
          by_cases hname : name = key
          · rw [hname, lookup_eq_none_of_namedOnce hf, lookup_eraseP_self hg]
            exact .none
          · have hother := h name
            rwa [List.lookup_cons, beq_eq_false_iff_ne.mpr hname,
              ← lookup_eraseP_of_ne hname gs] at hother

example : (record [("min", .int 1), ("max", .null)]).same
    (.record [("max", .null), ("min", .bool true)]) = true := by
  rfl

end Value

namespace Production

variable {p q : Production} {ps qs : List Production}

/-- Productions are equal exactly if they have one name and equal definitions. -/
theorem same_iff : p.same q = true ↔ p.name = q.name ∧ p.definition.same q.definition = true := by
  rw [same, Bool.and_eq_true, beq_iff_eq]

/-- Equality of productions is an equivalence. -/
theorem same_equivalence : Equivalence fun p q : Production => p.same q = true := by
  refine equivalence_of_euclidean (fun p => ?_) fun p q r hq hr => ?_
  · exact same_iff.mpr ⟨rfl, p.definition.same_refl⟩
  · obtain ⟨hqn, hqd⟩ := same_iff.mp hq
    obtain ⟨hrn, hrd⟩ := same_iff.mp hr
    exact same_iff.mpr ⟨hqn.symm.trans hrn, Term.same_euclidean _ hqd hrd⟩

/-- Lists hold equal productions exactly if every two at one place of them are equal. -/
theorem sameAll_iff : sameAll ps qs = true ↔ List.Forall₂ (fun p q => p.same q = true) ps qs := by
  induction ps generalizing qs with
  | nil => cases qs <;> simp [sameAll]
  | cons p ps ih => cases qs <;> simp [sameAll, ih]

/-- Equality of lists of productions is an equivalence. -/
theorem sameAll_equivalence :
    Equivalence fun ps qs : List Production => sameAll ps qs = true := by
  refine equivalence_of_euclidean (fun ps => ?_) fun ps qs rs hq hr => ?_
  · exact sameAll_iff.mpr (List.forall₂_same.mpr fun p _ => same_equivalence.refl p)
  · rw [sameAll_iff] at hq hr ⊢
    induction hq generalizing rs with
    | nil => exact hr
    | cons hpq _ ih =>
      obtain ⟨r, rs, hpr, hrs, rfl⟩ := List.forall₂_cons_left_iff.mp hr
      exact .cons (same_equivalence.trans (same_equivalence.symm hpq) hpr) (ih _ hrs)

end Production

namespace Grammar

variable {g h : Grammar}

/-- Grammars are equal exactly if they have one language, equal headers and equal productions. -/
theorem same_iff :
    g.same h = true ↔ g.language = h.language ∧ g.header.same h.header = true ∧
      Production.sameAll g.productions h.productions = true := by
  rw [same, Bool.and_eq_true, Bool.and_eq_true, beq_iff_eq, and_assoc]

/-- Equality of grammars is an equivalence. -/
theorem same_equivalence : Equivalence fun g h : Grammar => g.same h = true := by
  refine equivalence_of_euclidean (fun g => ?_) fun g h k hh hk => ?_
  · exact same_iff.mpr
      ⟨rfl, g.header.same_refl, Production.sameAll_equivalence.refl g.productions⟩
  · obtain ⟨hhl, hhh, hhp⟩ := same_iff.mp hh
    obtain ⟨hkl, hkh, hkp⟩ := same_iff.mp hk
    exact same_iff.mpr ⟨hhl.symm.trans hkl, Value.same_euclidean _ hhh hkh,
      Production.sameAll_equivalence.trans (Production.sameAll_equivalence.symm hhp) hkp⟩

end Grammar

end FormalGrammar
