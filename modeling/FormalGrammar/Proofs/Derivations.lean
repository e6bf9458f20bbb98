import FormalGrammar.Grammar.Derivation

/-!
# Laws of derivations

What a term describes grows with what its references stand for, and depends on
no other names. A word needs references to be replaced only to a finite depth.
Hence what a name derives is what its definition describes when references
stand for what they derive, and the least such assignment of languages to names.
-/

namespace FormalGrammar

variable {α : Type}

/-- Larger languages have larger products. -/
theorem Language.product_mono {L L' M M' : Language α} (hl : ∀ w, L w → L' w)
    (hm : ∀ w, M w → M' w) {w : List α} (h : L.product M w) : L'.product M' w := by
  obtain ⟨u, v, rfl, hu, hv⟩ := h
  exact ⟨u, v, rfl, hl u hu, hm v hv⟩

/-- Larger languages have larger powers. -/
theorem Language.power_mono {L M : Language α} (h : ∀ w, L w → M w) (n : Nat) :
    ∀ w, L.power n w → M.power n w := by
  induction n with
  | zero => exact fun _ hw => hw
  | succ n ih => exact fun _ hw => product_mono h ih hw

namespace Term

/-- With a larger description of each, terms in order describe more. -/
theorem denotesInOrder_mono {I J : Interpretation α} {ts : List Term}
    (h : ∀ t ∈ ts, ∀ w, t.Denotes I w → t.Denotes J w) :
    ∀ w, DenotesInOrder I ts w → DenotesInOrder J ts w := by
  induction ts with
  | nil => exact fun _ hw => hw
  | cons t ts ih =>
    rw [List.forall_mem_cons] at h
    exact fun _ hw => Language.product_mono h.1 (ih h.2) hw

/-- A term describes more if the names it refers to stand for more. -/
theorem denotes_mono {literal : String → Value → Language α}
    {characterSet : String → List Nat → Language α} {names names' : String → Language α}
    {t : Term}
    (h : ∀ name, .nonTerminal name ∈ t.nodes → ∀ w, names name w → names' name w) :
    ∀ w, t.Denotes ⟨literal, characterSet, names⟩ w →
      t.Denotes ⟨literal, characterSet, names'⟩ w := by
  induction t using Term.induct with
  | literal | characterSet | epsilon => exact fun _ hw => hw
  | nonTerminal name => exact h name (self_mem_nodes _)
  | sequence t ts ht hts =>
    have hfirst := ht fun name hn => h name (mem_nodes_of_mem_children List.mem_cons_self hn)
    have hrest := denotesInOrder_mono fun u hu => hts u hu fun name hn =>
      h name (mem_nodes_of_mem_children (List.mem_cons_of_mem t hu) hn)
    exact fun _ hw => Language.product_mono hfirst hrest hw
  | alternatives t ts ht hts =>
    intro w hw
    rcases hw with hw | hw
    · refine Or.inl (ht (fun name hn => h name ?_) w hw)
      exact mem_nodes_of_mem_children List.mem_cons_self hn
    · obtain ⟨u, hu, hw⟩ := denotesSome_iff.mp hw
      refine Or.inr (denotesSome_iff.mpr ⟨u, hu, hts u hu (fun name hn => h name ?_) w hw⟩)
      exact mem_nodes_of_mem_children (List.mem_cons_of_mem t hu) hn
  | optional t ht =>
    intro w hw
    refine hw.imp_right (ht (fun name hn => h name ?_) w)
    exact mem_nodes_of_mem_children List.mem_cons_self hn
  | repetition t min max ht =>
    rintro w ⟨n, hn, hw⟩
    refine ⟨n, hn, Language.power_mono (ht fun name hm => h name ?_) n w hw⟩
    exact mem_nodes_of_mem_children List.mem_cons_self hm

end Term

/-! ## Finite depth -/

/-- Whether the languages of a sequence grow. -/
def Language.Grows (L : Nat → Language α) : Prop := ∀ m n w, m ≤ n → L m w → L n w

/-- A product of words, each described at some depth, is described at a common depth. -/
theorem Language.exists_product {L M : Nat → Language α} (hl : Grows L) (hm : Grows M)
    {w : List α} (h : product (fun w => ∃ n, L n w) (fun w => ∃ n, M n w) w) :
    ∃ n, (L n).product (M n) w := by
  obtain ⟨u, v, rfl, ⟨m, hu⟩, n, hv⟩ := h
  exact ⟨max m n, u, v, rfl, hl m _ u (Nat.le_max_left m n) hu, hm n _ v (Nat.le_max_right m n) hv⟩

/-- A power of words, each described at some depth, is described at a common depth. -/
theorem Language.exists_power {L : Nat → Language α} (hl : Grows L) (k : Nat) :
    ∀ w, power (fun w => ∃ n, L n w) k w → ∃ n, (L n).power k w := by
  induction k with
  | zero => exact fun _ hw => ⟨0, hw⟩
  | succ k ih =>
    intro w hw
    have hp : Grows fun n => (L n).power k := fun m n w hmn =>
      power_mono (fun w => hl m n w hmn) k w
    exact exists_product hl hp (product_mono (fun _ hu => hu) ih hw)

namespace Term

variable {literal : String → Value → Language α}
  {characterSet : String → List Nat → Language α} {names : Nat → String → Language α}

/-- What a term describes grows with the depth to which its references are replaced. -/
theorem grows_denotes (hn : ∀ name, Language.Grows fun n => names n name) (t : Term) :
    Language.Grows fun n => t.Denotes ⟨literal, characterSet, names n⟩ :=
  fun m n w hmn => denotes_mono (fun name _ w => hn name m n w hmn) w

/-- What a list of terms describes grows with the depth likewise. -/
theorem grows_denotesInOrder (hn : ∀ name, Language.Grows fun n => names n name)
    (ts : List Term) :
    Language.Grows fun n => DenotesInOrder ⟨literal, characterSet, names n⟩ ts :=
  fun m n w hmn => denotesInOrder_mono (fun t _ w => grows_denotes hn t m n w hmn) w

/-- Terms in order that describe a word, each at some depth, do so at a common depth. -/
theorem exists_denotesInOrder (hn : ∀ name, Language.Grows fun n => names n name)
    {ts : List Term}
    (h : ∀ t ∈ ts, ∀ w, t.Denotes ⟨literal, characterSet, fun name w => ∃ n, names n name w⟩ w →
      ∃ n, t.Denotes ⟨literal, characterSet, names n⟩ w) :
    ∀ w, DenotesInOrder ⟨literal, characterSet, fun name w => ∃ n, names n name w⟩ ts w →
      ∃ n, DenotesInOrder ⟨literal, characterSet, names n⟩ ts w := by
  induction ts with
  | nil => exact fun _ hw => ⟨0, hw⟩
  | cons t ts ih =>
    rw [List.forall_mem_cons] at h
    intro w hw
    exact Language.exists_product (grows_denotes hn t) (grows_denotesInOrder hn ts)
      (Language.product_mono h.1 (ih h.2) hw)

/-- A word that a term describes needs references to be replaced only to some depth. -/
theorem exists_denotes (hn : ∀ name, Language.Grows fun n => names n name) {t : Term} :
    ∀ w, t.Denotes ⟨literal, characterSet, fun name w => ∃ n, names n name w⟩ w →
      ∃ n, t.Denotes ⟨literal, characterSet, names n⟩ w := by
  induction t using Term.induct with
  | literal | characterSet | epsilon => exact fun _ hw => ⟨0, hw⟩
  | nonTerminal name => exact fun _ hw => hw
  | sequence t ts ht hts =>
    intro w hw
    exact Language.exists_product (grows_denotes hn t) (grows_denotesInOrder hn ts)
      (Language.product_mono ht (exists_denotesInOrder hn hts) hw)
  | alternatives t ts ht hts =>
    intro w hw
    rcases hw with hw | hw
    · obtain ⟨n, hw⟩ := ht w hw
      exact ⟨n, Or.inl hw⟩
    · obtain ⟨u, hu, hw⟩ := denotesSome_iff.mp hw
      obtain ⟨n, hw⟩ := hts u hu w hw
      exact ⟨n, Or.inr (denotesSome_iff.mpr ⟨u, hu, hw⟩)⟩
  | optional t ht =>
    intro w hw
    rcases hw with rfl | hw
    · exact ⟨0, Or.inl rfl⟩
    · obtain ⟨n, hw⟩ := ht w hw
      exact ⟨n, Or.inr hw⟩
  | repetition t min max ht =>
    rintro w ⟨k, hk, hw⟩
    obtain ⟨n, hw⟩ := Language.exists_power (grows_denotes hn t) k w
      (Language.power_mono ht k w hw)
    exact ⟨n, k, hk, hw⟩

end Term

namespace Production

variable {lexicon : Lexicon α} {productions : List Production} {name : String} {w : List α}

/-- Replacing names to a greater depth derives more. -/
theorem grows_derivesWithin (name : String) :
    Language.Grows fun depth => DerivesWithin lexicon productions depth name := by
  intro m
  induction m generalizing name with
  | zero => exact fun _ _ _ h => h.elim
  | succ m ih =>
    rintro n w hmn ⟨p, hp, hn, hw⟩
    obtain ⟨n, rfl⟩ := Nat.exists_eq_add_of_le' (Nat.le_trans (Nat.succ_pos m) hmn)
    refine ⟨p, hp, hn, Term.denotes_mono (fun other _ u => ?_) w hw⟩
    exact ih other n u (Nat.le_of_succ_le_succ hmn)

/-- What a name derives is what its definition describes when references stand for what they
derive. -/
theorem derives_iff :
    Derives lexicon productions name w ↔
      ∃ p ∈ productions, p.name = name ∧
        p.definition.Denotes
          ⟨lexicon.literal, lexicon.characterSet, Derives lexicon productions⟩ w := by
  constructor
  · rintro ⟨depth, h⟩
    cases depth with
    | zero => exact h.elim
    | succ depth =>
      obtain ⟨p, hp, hn, hw⟩ := h
      exact ⟨p, hp, hn, Term.denotes_mono (fun _ _ _ hu => ⟨depth, hu⟩) w hw⟩
  · rintro ⟨p, hp, hn, hw⟩
    obtain ⟨depth, hw⟩ := Term.exists_denotes grows_derivesWithin w hw
    exact ⟨depth + 1, p, hp, hn, hw⟩

/-- Whatever languages respect the definitions, a name derives only words of its language. -/
theorem derives_least {languages : String → Language α}
    (h : ∀ p ∈ productions, ∀ w, p.definition.Denotes
      ⟨lexicon.literal, lexicon.characterSet, languages⟩ w → languages p.name w) :
    Derives lexicon productions name w → languages name w := by
  rintro ⟨depth, hw⟩
  induction depth generalizing name w with
  | zero => exact hw.elim
  | succ depth ih =>
    obtain ⟨p, hp, rfl, hw⟩ := hw
    exact h p hp w (Term.denotes_mono (fun _ _ _ hu => ih hu) w hw)

end Production

end FormalGrammar
