import FormalGrammar.Operation
import FormalGrammar.Proofs.Equivalence
import FormalGrammar.Proofs.Excluding
import FormalGrammar.Proofs.References

/-!
# Equal terms in place of each other

Equal terms refer to the same names in the same order. Where an operation is
given equal terms in place of others, and all else as it was, it makes an equal
term or still fails. A term is no code point and equals none, so it cannot be
excluded; all other arguments that are terms end up in what is made.
-/

namespace FormalGrammar

/-- Lists with parts that correspond are joined to the same list if a function takes parts that
correspond to the same list. -/
theorem flatMap_eq_of_forall₂ {α β γ : Type} {R : α → β → Prop} {f : α → List γ} {g : β → List γ}
    {xs : List α} {ys : List β} (h : List.Forall₂ R xs ys)
    (hfg : ∀ x ∈ xs, ∀ y, R x y → f x = g y) : xs.flatMap f = ys.flatMap g := by
  induction h with
  | nil => rfl
  | cons hxy _ ih =>
    rw [List.forall_mem_cons] at hfg
    rw [List.flatMap_cons, List.flatMap_cons, hfg.1 _ hxy, ih hfg.2]

/-- Whether two values are the same, but for equal terms in place of each other. -/
inductive Value.Alike : Value → Value → Prop
  | value (v : Value) : Alike v v
  | term {t u : Term} : t.same u = true → Alike (.term t) (.term u)

namespace Term

/-- Whether two lists hold equal terms, place by place. -/
abbrev Matching : List Term → List Term → Prop := List.Forall₂ fun t u => t.same u = true

variable {t u : Term} {ts us : List Term}

/-! ## Parts of equal terms -/

/-- Equal terms have equal children in the same order. -/
theorem same_children (h : t.same u = true) : Matching t.children u.children := by
  cases t with
  | sequence t ts =>
    obtain ⟨v, vs, rfl, hv, hvs⟩ := same_sequence_iff.mp h
    exact .cons hv (sameAll_iff.mp hvs)
  | alternatives t ts =>
    obtain ⟨v, vs, rfl, hv, hvs⟩ := same_alternatives_iff.mp h
    exact .cons hv (sameAll_iff.mp hvs)
  | optional t =>
    obtain ⟨v, rfl, hv⟩ := same_optional_iff.mp h
    exact .cons hv .nil
  | repetition t min max =>
    obtain ⟨v, rfl, hv⟩ := same_repetition_iff.mp h
    exact .cons hv .nil
  | literal | characterSet | nonTerminal | epsilon => cases u <;> first | exact .nil | cases h

/-- Equal terms are references to one name or both none. -/
theorem reference?_eq_of_same (h : t.same u = true) : t.reference? = u.reference? := by
  cases t with
  | nonTerminal name => rw [same_nonTerminal_iff.mp h]
  | _ => cases u <;> first | rfl | cases h

/-- The same names occur in equal terms, each as often and in the same order. -/
theorem occurrences_eq_of_same (h : t.same u = true) : t.occurrences = u.occurrences := by
  induction t using inductOnChildren generalizing u with
  | h t ih =>
    rw [occurrences_eq t, occurrences_eq u, reference?_eq_of_same h,
      flatMap_eq_of_forall₂ (same_children h) fun c hc d hcd => ih c hc hcd]

/-- Equal terms have the same references in the same order. -/
theorem references_eq_of_same (h : t.same u = true) : t.references = u.references := by
  rw [references_eq, references_eq, occurrences_eq_of_same h]

/-- Equal terms add equal items to a sequence. -/
theorem same_items (h : t.same u = true) : Matching t.items u.items := by
  cases t with
  | sequence =>
    obtain ⟨v, vs, rfl, hv, hvs⟩ := same_sequence_iff.mp h
    exact .cons hv (sameAll_iff.mp hvs)
  | epsilon =>
    rw [same_epsilon_iff.mp h]
    exact .nil
  | _ => cases u <;> first | exact .cons h .nil | cases h

/-- Equal terms prefer equal choices. -/
theorem same_preferred (h : t.same u = true) : t.preferred.same u.preferred = true := by
  cases t with
  | alternatives =>
    obtain ⟨v, vs, rfl, hv, -⟩ := same_alternatives_iff.mp h
    exact hv
  | _ => cases u <;> first | exact h | cases h

/-- Equal terms have equal further choices. -/
theorem same_others (h : t.same u = true) : Matching t.others u.others := by
  cases t with
  | alternatives =>
    obtain ⟨v, vs, rfl, -, hvs⟩ := same_alternatives_iff.mp h
    exact sameAll_iff.mp hvs
  | _ => cases u <;> first | exact .nil | cases h

/-! ## Spliced terms -/

/-- Equal items in order stand for equal terms. -/
theorem same_ofItems (h : Matching ts us) : (ofItems ts).same (ofItems us) = true := by
  cases h with
  | nil => exact same_refl _
  | cons ht hts =>
    cases hts with
    | nil => exact ht
    | cons hu hus => exact same_sequence_iff.mpr ⟨_, _, rfl, ht, sameAll_iff.mpr (.cons hu hus)⟩

/-- Equal terms in order are concatenated to equal terms. -/
theorem same_concat (h : Matching ts us) : (concat ts).same (concat us) = true :=
  same_ofItems (List.rel_flatMap h fun _ _ => same_items)

/-- Equal terms, followed by equal terms, make equal terms. -/
theorem same_followedBy (h : t.same u = true) (hs : Matching ts us) :
    (t.followedBy ts).same (u.followedBy us) = true := by
  cases hs with
  | nil => exact h
  | cons hv hvs => exact same_concat (.cons h (.cons hv hvs))

/-- Equal terms have equal choices. -/
theorem same_choices (h : t.same u = true) : Matching t.choices u.choices :=
  .cons (same_preferred h) (same_others h)

/-- Equal terms in order have equal choices in order. -/
theorem matching_flatMap_choices (h : Matching ts us) :
    Matching (ts.flatMap choices) (us.flatMap choices) :=
  List.rel_flatMap h fun _ _ => same_choices

/-- Choices between equal terms are equal. -/
theorem same_orElse (h : t.same u = true) (hs : Matching ts us) :
    (t.orElse ts).same (u.orElse us) = true := by
  cases hs with
  | nil => exact h
  | cons hv hvs =>
    have hchoices := matching_flatMap_choices (.cons hv hvs)
    exact same_alternatives_iff.mpr ⟨_, _, rfl, same_preferred h,
      sameAll_iff.mpr (List.rel_append (same_others h) hchoices)⟩

end Term

/-! ## Arguments -/

namespace Value

variable {v w : Value} {vs ws : List Value}

/-- What stands in the place of a term is an equal term. -/
theorem Alike.exists_term {t : Term} (h : Alike (.term t) w) :
    ∃ u, w = .term u ∧ t.same u = true := by
  cases h with
  | value => exact ⟨t, rfl, t.same_refl⟩
  | term h => exact ⟨_, rfl, h⟩

/-- Nothing else stands in the place of what is no term. -/
theorem Alike.eq_of_not_term (h : Alike v w) (hv : ∀ t, v ≠ .term t) : w = v := by
  cases h with
  | value => rfl
  | term => exact absurd rfl (hv _)

/-- Nothing else stands in the place of a bound. -/
theorem Alike.eq_ofBound {most : Option Nat} (h : Alike (ofBound most) w) : w = ofBound most :=
  h.eq_of_not_term (by cases most <;> simp [ofBound])

/-- Values of which none is a term have nothing else in their places. -/
theorem eq_of_forall₂_alike (h : List.Forall₂ Alike vs ws) (hvs : ∀ v ∈ vs, ∀ t, v ≠ .term t) :
    ws = vs := by
  induction h with
  | nil => rfl
  | cons hv _ ih =>
    rw [List.forall_mem_cons] at hvs
    rw [hv.eq_of_not_term hvs.1, ih hvs.2]

/-- In the places of terms stand equal terms. -/
theorem exists_terms_of_forall₂_alike {ts : List Term}
    (h : List.Forall₂ Alike (ts.map .term) ws) : ∃ us, ws = us.map .term ∧ Term.Matching ts us := by
  induction ts generalizing ws with
  | nil => exact ⟨[], List.forall₂_nil_left_iff.mp h, .nil⟩
  | cons t ts ih =>
    obtain ⟨w, ws, hw, hws, rfl⟩ := List.forall₂_cons_left_iff.mp h
    obtain ⟨u, rfl, hu⟩ := hw.exists_term
    obtain ⟨us, rfl, hus⟩ := ih hws
    exact ⟨u :: us, rfl, .cons hu hus⟩

/-- Equal terms stand in the places of equal terms. -/
theorem forall₂_alike_map_term {ts us : List Term} (h : Term.Matching ts us) :
    List.Forall₂ Alike (ts.map .term) (us.map .term) :=
  List.forall₂_map_left_iff.mpr (List.forall₂_map_right_iff.mpr (h.imp fun _ _ => .term))

/-- A value that is kept, or comes up, has a value among those kept in the end that it equals. -/
theorem exists_mem_foldl_keepNew {kept : List Value}
    (h : (∃ w ∈ kept, w.same v = true) ∨ v ∈ vs) :
    ∃ w ∈ vs.foldl keepNew kept, w.same v = true := by
  induction vs generalizing kept with
  | nil => exact h.resolve_right List.not_mem_nil
  | cons x xs ih =>
    refine ih ?_
    rw [keepNew]
    split
    · rename_i hany
      rcases h with hkept | hv
      · exact Or.inl hkept
      · rcases List.mem_cons.mp hv with rfl | hv
        · exact Or.inl (List.any_eq_true.mp hany)
        · exact Or.inr hv
    · rcases h with ⟨w, hw, hsame⟩ | hv
      · exact Or.inl ⟨w, List.mem_append_left _ hw, hsame⟩
      · rcases List.mem_cons.mp hv with rfl | hv
        · exact Or.inl ⟨v, List.mem_append_right _ List.mem_cons_self, v.same_refl⟩
        · exact Or.inr hv

/-- No term can be among values that are excluded. -/
theorem not_term_of_mergeExcluded {old points : List Nat} (h : mergeExcluded old vs = .ok points) :
    ∀ v ∈ vs, ∀ t, v ≠ .term t := by
  rintro v hv t rfl
  obtain ⟨w, hw, hsame⟩ := exists_mem_foldl_keepNew (Or.inr (List.mem_append_right _ hv))
  obtain ⟨n, -, rfl⟩ := (mem_distinct_iff_of_mergeExcluded h).mp hw
  cases hsame

end Value

/-! ## Constructions -/

/-- Whether an outcome is a term wherever another one is an equal term. -/
def Matched (x y : Except Error Term) : Prop :=
  ∀ t, x = .ok t → ∃ u, y = .ok u ∧ t.same u = true

open Value (Alike)

variable {v w v' w' : Value} {vs ws : List Value}

/-- Values that are the same but for equal terms are equal. -/
theorem Value.Alike.same (h : Alike v w) : v.same w = true := by
  cases h with
  | value => exact v.same_refl
  | term h => exact Value.same_term_iff.mpr ⟨_, rfl, h⟩

/-- Values that are the same but for equal terms are so in either order. -/
theorem Value.Alike.symm (h : Alike v w) : Alike w v := by
  cases h with
  | value => exact .value v
  | term h => exact .term (Term.same_equivalence.symm h)

/-- In the places of the elements of a value stand the elements of what stands in its place. -/
theorem Value.Alike.exists_elements (h : Alike v w) (hvs : v.elements = .ok vs) :
    ∃ ws, w.elements = .ok ws ∧ List.Forall₂ Alike vs ws := by
  cases h with
  | value => exact ⟨vs, hvs, List.forall₂_same.mpr fun x _ => .value x⟩
  | @term t u h =>
    cases t with
    | sequence t ts =>
      obtain ⟨u, us, rfl, hu, hus⟩ := Term.same_sequence_iff.mp h
      cases hvs
      exact ⟨_, rfl, Value.forall₂_alike_map_term (.cons hu (Term.sameAll_iff.mp hus))⟩
    | alternatives t ts =>
      obtain ⟨u, us, rfl, hu, hus⟩ := Term.same_alternatives_iff.mp h
      cases hvs
      exact ⟨_, rfl, Value.forall₂_alike_map_term (.cons hu (Term.sameAll_iff.mp hus))⟩
    | _ => cases hvs

/-- What is made of the elements of a value stays equal if what is made of any values does. -/
theorem Value.Alike.matched_elements {make : List Value → Except Error Term}
    (hmake : ∀ {xs ys}, List.Forall₂ Alike xs ys → Matched (make xs) (make ys)) (h : Alike v w) :
    Matched (do make (← v.elements)) (do make (← w.elements)) := by
  intro t ht
  obtain ⟨xs, hxs, hmade⟩ := bind_eq_ok_iff.mp ht
  obtain ⟨ys, hys, halike⟩ := h.exists_elements hxs
  obtain ⟨u, hu, hsame⟩ := hmake halike t hmade
  exact ⟨u, bind_eq_ok_iff.mpr ⟨ys, hys, hu⟩, hsame⟩

namespace Term

/-- What a term is made of stays equal if the first and the further terms do. -/
theorem matched_toTerm_then_toTerms {make : Term → List Term → Term}
    (hmake : ∀ {t u ts us}, t.same u = true → Matching ts us →
      (make t ts).same (make u us) = true)
    (hv : Alike v w) (hvs : List.Forall₂ Alike vs ws) :
    Matched (do return make (← v.toTerm) (← Value.toTerms vs))
      (do return make (← w.toTerm) (← Value.toTerms ws)) := by
  intro t ht
  obtain ⟨u, us, rfl, rfl, rfl⟩ := Value.toTerm_then_toTerms_eq_ok_iff.mp ht
  obtain ⟨x, rfl, hx⟩ := hv.exists_term
  obtain ⟨xs, rfl, hxs⟩ := Value.exists_terms_of_forall₂_alike hvs
  exact ⟨_, Value.toTerm_then_toTerms_eq_ok_iff.mpr ⟨x, xs, rfl, rfl, rfl⟩, hmake hx hxs⟩

/-- Literals of one text with equal flags are equal. -/
theorem matched_makeLiteral (hv : Alike v w) (hflag : Alike v' w') :
    Matched (makeLiteral v v') (makeLiteral w w') := by
  intro t ht
  obtain ⟨s, rfl, hs, rfl⟩ := makeLiteral_eq_ok_iff.mp ht
  rw [hv.eq_of_not_term (by simp)]
  exact ⟨_, makeLiteral_eq_ok_iff.mpr ⟨s, rfl, hs, rfl⟩,
    same_literal_iff.mpr ⟨w', rfl, hflag.same⟩⟩

/-- What is made of a value that is no term stays as it is. -/
theorem matched_of_not_term {make : Value → Except Error Term} (hv : Alike v w)
    (hno : ∀ t, make v = .ok t → ∀ u, v ≠ .term u) : Matched (make v) (make w) := by
  intro t ht
  rw [hv.eq_of_not_term (hno t ht)]
  exact ⟨t, ht, t.same_refl⟩

/-- References to one name are equal. -/
theorem matched_makeNonTerminal (hv : Alike v w) :
    Matched (makeNonTerminal v) (makeNonTerminal w) := by
  refine matched_of_not_term hv fun t ht => ?_
  obtain ⟨s, rfl, -, -⟩ := makeNonTerminal_eq_ok_iff.mp ht
  simp

/-- Character sets of one name without exclusions are equal. -/
theorem matched_makeFullCharacterSet (hv : Alike v w) :
    Matched (makeFullCharacterSet v) (makeFullCharacterSet w) := by
  refine matched_of_not_term hv fun t ht => ?_
  obtain ⟨s, rfl, -, -⟩ := makeFullCharacterSet_eq_ok_iff.mp ht
  simp

/-- Character sets of one name with the same exclusions, none of which is a term, are equal. -/
theorem matched_makeCharacterSet (hv : Alike v w) (hexcluded : Alike v' w') :
    Matched (makeCharacterSet v v') (makeCharacterSet w w') := by
  intro t ht
  obtain ⟨s, vs, points, rfl, hs, hvs, hp, rfl⟩ := makeCharacterSet_eq_ok_iff.mp ht
  obtain ⟨ws, hws, halike⟩ := hexcluded.exists_elements hvs
  rw [hv.eq_of_not_term (by simp)]
  rw [Value.eq_of_forall₂_alike halike (Value.not_term_of_mergeExcluded hp)] at hws
  exact ⟨_, makeCharacterSet_eq_ok_iff.mpr ⟨s, vs, points, rfl, hs, hws, hp, rfl⟩, same_refl _⟩

/-- Equal character sets with the same further exclusions are equal. -/
theorem matched_excluding {t u : Term} (h : t.same u = true) (hvs : List.Forall₂ Alike vs ws) :
    Matched (t.excluding vs) (u.excluding ws) := by
  intro x hx
  obtain ⟨name, old, points, rfl, hp, -⟩ := excluding_eq_ok_iff.mp hx
  rw [same_characterSet_iff.mp h,
    Value.eq_of_forall₂_alike hvs (Value.not_term_of_mergeExcluded hp)]
  exact ⟨x, hx, x.same_refl⟩

/-- Sequences of equal terms are equal. -/
theorem matched_makeSequence (h : List.Forall₂ Alike vs ws) :
    Matched (makeSequence vs) (makeSequence ws) := by
  cases h with
  | nil => exact fun _ ht => by cases ht
  | cons hv hvs =>
    refine matched_toTerm_then_toTerms (fun ht hts => ?_) hv hvs
    exact same_sequence_iff.mpr ⟨_, _, rfl, ht, sameAll_iff.mpr hts⟩

/-- Choices between equal terms as they are are equal. -/
theorem matched_makeAlternatives (h : List.Forall₂ Alike vs ws) :
    Matched (makeAlternatives vs) (makeAlternatives ws) := by
  cases h with
  | nil => exact fun _ ht => by cases ht
  | cons hv hvs =>
    refine matched_toTerm_then_toTerms (fun ht hts => ?_) hv hvs
    exact same_alternatives_iff.mpr ⟨_, _, rfl, ht, sameAll_iff.mpr hts⟩

/-- Equal terms are made equal optional terms. -/
theorem matched_makeOptional (hv : Alike v w) : Matched (makeOptional v) (makeOptional w) := by
  intro t ht
  obtain ⟨u, rfl, rfl⟩ := makeOptional_eq_ok_iff.mp ht
  obtain ⟨x, rfl, hx⟩ := hv.exists_term
  exact ⟨_, rfl, same_optional_iff.mpr ⟨x, rfl, hx⟩⟩

variable {min max min' max' : Value}

/-- Equal terms are repeated within the same bounds. -/
theorem matched_repeatWithin {t u : Term} (h : t.same u = true) (hmin : Alike min min')
    (hmax : Alike max max') : Matched (repeatWithin t min max) (repeatWithin u min' max') := by
  intro x hx
  obtain ⟨least, most, rfl, rfl, hle, rfl⟩ := repeatWithin_eq_ok_iff.mp hx
  rw [hmin.eq_of_not_term (by simp), hmax.eq_ofBound]
  exact ⟨_, repeatWithin_eq_ok_iff.mpr ⟨least, most, rfl, rfl, hle, rfl⟩,
    same_repetition_iff.mpr ⟨u, rfl, h⟩⟩

/-- Equal terms are made equal repetitions. -/
theorem matched_makeRepetition (hv : Alike v w) (hmin : Alike min min') (hmax : Alike max max') :
    Matched (makeRepetition v min max) (makeRepetition w min' max') := by
  intro t ht
  obtain ⟨u, rfl, hu⟩ := makeRepetition_eq_ok_iff.mp ht
  obtain ⟨x, rfl, hx⟩ := hv.exists_term
  exact matched_repeatWithin hx hmin hmax t hu

/-- Equal terms in order are made equal optional terms. -/
theorem matched_optionalOf (hvs : List.Forall₂ Alike vs ws) :
    Matched (optionalOf vs) (optionalOf ws) := by
  intro t ht
  obtain ⟨us, rfl, rfl⟩ := optionalOf_eq_ok_iff.mp ht
  obtain ⟨xs, rfl, hxs⟩ := Value.exists_terms_of_forall₂_alike hvs
  exact ⟨_, optionalOf_eq_ok_iff.mpr ⟨xs, rfl, rfl⟩,
    same_optional_iff.mpr ⟨_, rfl, same_concat hxs⟩⟩

/-- Equal terms in order are made equal repetitions. -/
theorem matched_repetitionOf (hmin : Alike min min') (hmax : Alike max max')
    (hvs : List.Forall₂ Alike vs ws) :
    Matched (repetitionOf min max vs) (repetitionOf min' max' ws) := by
  intro t ht
  obtain ⟨us, hus, hmade⟩ := bind_eq_ok_iff.mp ht
  rw [Value.toTerms_eq_ok_iff.mp hus] at hvs
  obtain ⟨xs, rfl, hxs⟩ := Value.exists_terms_of_forall₂_alike hvs
  obtain ⟨u, hu, hsame⟩ := matched_repeatWithin (same_concat hxs) hmin hmax t hmade
  exact ⟨u, bind_eq_ok_iff.mpr ⟨xs, Value.toTerms_map_term xs, hu⟩, hsame⟩

end Term

/-! ## Operations -/

open Term in
/-- What a factory makes stays equal if the terms among its arguments do. -/
theorem Factory.matched_apply {f : Factory} (h : List.Forall₂ Alike vs ws) :
    Matched (f.apply vs) (f.apply ws) := by
  intro t ht
  unfold Factory.apply at ht
  split at ht
  case h_1 text | h_2 text =>
    obtain _ | ⟨hv, ⟨⟩⟩ := h
    exact matched_makeLiteral hv (.value _) t ht
  case h_3 name =>
    obtain _ | ⟨hv, ⟨⟩⟩ := h
    exact matched_makeFullCharacterSet hv t ht
  case h_4 | h_6 =>
    cases h
    exact ⟨t, ht, t.same_refl⟩
  case h_5 name =>
    obtain _ | ⟨hv, ⟨⟩⟩ := h
    exact matched_makeNonTerminal hv t ht
  case h_7 first rest =>
    obtain _ | ⟨hv, hvs⟩ := h
    exact matched_toTerm_then_toTerms same_followedBy hv hvs t ht
  case h_8 first rest =>
    obtain _ | ⟨hv, hvs⟩ := h
    exact matched_toTerm_then_toTerms same_orElse hv hvs t ht
  case h_9 first rest =>
    obtain _ | ⟨hv, hvs⟩ := h
    exact matched_optionalOf (.cons hv hvs) t ht
  case h_10 first rest | h_11 first rest =>
    obtain _ | ⟨hv, hvs⟩ := h
    exact matched_repetitionOf (.value _) (.value _) (.cons hv hvs) t ht
  case h_12 min first rest =>
    obtain _ | ⟨hmin, _ | ⟨hv, hvs⟩⟩ := h
    exact matched_repetitionOf hmin (.value _) (.cons hv hvs) t ht
  case h_13 min max first rest =>
    obtain _ | ⟨hmin, _ | ⟨hmax, _ | ⟨hv, hvs⟩⟩⟩ := h
    exact matched_repetitionOf hmin hmax (.cons hv hvs) t ht
  case h_14 count first rest =>
    obtain _ | ⟨hcount, _ | ⟨hv, hvs⟩⟩ := h
    exact matched_repetitionOf hcount hcount (.cons hv hvs) t ht
  case h_15 => cases ht

open Term in
/-- What a constructor makes stays equal if the terms among its arguments do. -/
theorem Constructor.matched_apply {c : Constructor} (h : List.Forall₂ Alike vs ws) :
    Matched (c.apply vs) (c.apply ws) := by
  intro t ht
  unfold Constructor.apply at ht
  split at ht
  case h_1 text =>
    obtain _ | ⟨hv, ⟨⟩⟩ := h
    exact matched_makeLiteral hv (.value _) t ht
  case h_2 text flag =>
    obtain _ | ⟨hv, _ | ⟨hflag, ⟨⟩⟩⟩ := h
    exact matched_makeLiteral hv hflag t ht
  case h_3 name =>
    obtain _ | ⟨hv, ⟨⟩⟩ := h
    exact matched_makeFullCharacterSet hv t ht
  case h_4 name excluded =>
    obtain _ | ⟨hv, _ | ⟨hexcluded, ⟨⟩⟩⟩ := h
    exact matched_makeCharacterSet hv hexcluded t ht
  case h_5 name =>
    obtain _ | ⟨hv, ⟨⟩⟩ := h
    exact matched_makeNonTerminal hv t ht
  case h_6 => exact matched_makeSequence h t ht
  case h_7 value =>
    obtain _ | ⟨hv, ⟨⟩⟩ := h
    exact hv.matched_elements matched_makeSequence t ht
  case h_8 => exact matched_makeAlternatives h t ht
  case h_9 value =>
    obtain _ | ⟨hv, ⟨⟩⟩ := h
    exact hv.matched_elements matched_makeAlternatives t ht
  case h_10 body =>
    obtain _ | ⟨hv, ⟨⟩⟩ := h
    exact matched_makeOptional hv t ht
  case h_11 body =>
    obtain _ | ⟨hv, ⟨⟩⟩ := h
    exact matched_makeRepetition hv (.value _) (.value _) t ht
  case h_12 body min =>
    obtain _ | ⟨hv, _ | ⟨hmin, ⟨⟩⟩⟩ := h
    exact matched_makeRepetition hv hmin (.value _) t ht
  case h_13 body min max =>
    obtain _ | ⟨hv, _ | ⟨hmin, _ | ⟨hmax, ⟨⟩⟩⟩⟩ := h
    exact matched_makeRepetition hv hmin hmax t ht
  case h_14 =>
    cases h
    exact ⟨t, ht, t.same_refl⟩
  case h_15 => cases ht

open Term in
/-- What an operator makes stays equal if the terms among its operands do. -/
theorem Operator.matched_apply {o : Operator} (h : List.Forall₂ Alike vs ws) :
    Matched (o.apply vs) (o.apply ws) := by
  intro t ht
  unfold Operator.apply at ht
  split at ht
  case h_1 u v =>
    obtain _ | ⟨hu, _ | ⟨hv, ⟨⟩⟩⟩ := h
    obtain ⟨x, rfl, hx⟩ := hu.exists_term
    exact matched_toTerm_then_toTerms same_followedBy hu (.cons hv .nil) t ht
  case h_2 u v =>
    obtain _ | ⟨hu, _ | ⟨hv, ⟨⟩⟩⟩ := h
    obtain ⟨x, rfl, hx⟩ := hu.exists_term
    exact matched_toTerm_then_toTerms same_orElse hu (.cons hv .nil) t ht
  case h_3 u values =>
    obtain _ | ⟨hu, hvs⟩ := h
    obtain ⟨x, rfl, hx⟩ := hu.exists_term
    exact matched_excluding hx hvs t ht
  case h_4 first rest =>
    obtain _ | ⟨hu, ⟨⟩⟩ := h
    obtain ⟨x, rfl, hx⟩ := hu.exists_term
    obtain ⟨v, vs, rfl, hv, -⟩ := same_alternatives_iff.mp hx
    cases ht
    exact ⟨v, rfl, hv⟩
  case h_5 => cases ht

namespace Operation

variable {o : Operation}

/-- What an operation makes stays equal if the terms among its arguments do. -/
theorem matched_apply (h : List.Forall₂ Alike vs ws) : Matched (o.apply vs) (o.apply ws) := by
  cases o with
  | factory f => exact f.matched_apply h
  | constructor c => exact c.matched_apply h
  | operator o => exact o.matched_apply h

/-- An operation that is given equal terms in place of others makes an equal term, or it fails
with either. -/
theorem apply_congr (h : List.Forall₂ Alike vs ws) :
    (∃ t u, o.apply vs = .ok t ∧ o.apply ws = .ok u ∧ t.same u = true) ∨
      ((∃ e, o.apply vs = .error e) ∧ ∃ e, o.apply ws = .error e) := by
  have hback : List.Forall₂ Alike ws vs := (h.imp fun _ _ hvw => hvw.symm).flip
  cases hvs : o.apply vs with
  | ok t =>
    obtain ⟨u, hu, hsame⟩ := matched_apply h t hvs
    exact Or.inl ⟨t, u, rfl, hu, hsame⟩
  | error e =>
    cases hws : o.apply ws with
    | error e' => exact Or.inr ⟨⟨e, rfl⟩, e', rfl⟩
    | ok u =>
      obtain ⟨t, ht, -⟩ := matched_apply hback u hws
      cases hvs.symm.trans ht

end Operation

end FormalGrammar
