import FormalGrammar.Proofs.Derivations
import FormalGrammar.Proofs.Outcome

/-!
# Pruning preserves the language

Leaving out what is not in use changes no word that a kept name derives. A
derivation from a kept name never leaves the kept productions, because all that
their definitions refer to is kept too.
-/

namespace FormalGrammar

variable {α : Type} {lexicon : Lexicon α}

namespace Production

variable {productions : List Production} {keep : Production → Bool}

/-- Fewer productions derive fewer words. -/
theorem derivesWithin_of_subset {kept : List Production} (h : ∀ p ∈ kept, p ∈ productions)
    (depth : Nat) : ∀ name w, DerivesWithin lexicon kept depth name w →
      DerivesWithin lexicon productions depth name w := by
  induction depth with
  | zero => exact fun _ _ hw => hw
  | succ depth ih =>
    rintro name w ⟨p, hp, hn, hw⟩
    exact ⟨p, h p hp, hn, Term.denotes_mono (fun other _ => ih other) w hw⟩

/-- Where what is in use is kept, the kept productions derive from a name in use all the words that
all productions derive. -/
theorem derivesWithin_kept {furtherRoots : Prop}
    (hkeep : ∀ p ∈ productions, keep p = true ↔ InUse productions furtherRoots p.name)
    (depth : Nat) : ∀ name, InUse productions furtherRoots name →
      ∀ w, DerivesWithin lexicon productions depth name w →
        DerivesWithin lexicon (productions.filter keep) depth name w := by
  induction depth with
  | zero => exact fun _ _ _ hw => hw
  | succ depth ih =>
    rintro name hu w ⟨p, hp, rfl, hw⟩
    have hk : p ∈ productions.filter keep := (mem_kept_iff hkeep).mpr ⟨hp, hu⟩
    -- the references of a production in use are in use themselves
    refine ⟨p, hk, rfl, Term.denotes_mono (fun other hr => ?_) w hw⟩
    exact ih other (.reference hu hp hr)

end Production

namespace Builder

variable {b : Builder} {threshold : Level} {settings : List Setting}

/-- From a kept name, what is kept derives exactly what all productions of the builder derive. -/
theorem derives_kept_iff {name : String} (hn : ∃ p ∈ b.kept settings, p.name = name)
    {w : List α} :
    Production.Derives lexicon (b.kept settings) name w ↔
      Production.Derives lexicon b.productions name w := by
  by_cases hs : .resolution .skipUnused ∈ settings
  · rw [kept, if_pos hs] at hn ⊢
    have hkeep := b.decide_uses_iff settings
    obtain ⟨p, hp, rfl⟩ := hn
    have hu := ((Production.mem_kept_iff hkeep).mp hp).2
    refine exists_congr fun depth => ⟨?_, ?_⟩
    · exact Production.derivesWithin_of_subset (fun _ => List.mem_of_mem_filter) depth _ w
    · exact Production.derivesWithin_kept hkeep depth _ hu w
  · rw [kept, if_neg hs]

/-- A name of a grammar derives from the productions of the grammar exactly the words that it
derives from all productions of the builder, whether unused ones were left out or not. -/
theorem derives_grammar_iff (hb : b.Reachable) {g : Grammar}
    (hg : (b.resolve threshold settings).outcome = .ok g) {name : String} (hn : name ∈ g.names)
    (lexicon : Lexicon α) (w : List α) :
    Production.Derives lexicon g.productions name w ↔
      Production.Derives lexicon b.productions name w := by
  obtain ⟨_, _, hv⟩ := (resolve_eq_ok_iff hb.wellFormed).mp hg
  obtain ⟨_, _, rfl⟩ := verdict_eq_ok_iff.mp hv
  exact derives_kept_iff (List.mem_map.mp hn)

/-- Literals stand for their text, and the one character set that is known for a digit. -/
def sampleLexicon : Lexicon Char where
  literal text _ := fun w => w = text.toList
  characterSet name _ := fun w => name = "DIGIT" ∧ ∃ c, c.isDigit = true ∧ w = [c]

/-- A digit is a sum of the sample, and so it is without the cycle apart. -/
theorem derives_grammar_iff_sample :
    (sample.resolve .debug pruning).outcome = .ok prunedSample ∧ "sum" ∈ prunedSample.names ∧
      Production.Derives sampleLexicon sample.productions "sum" ['7'] ∧
      Production.Derives sampleLexicon prunedSample.productions "sum" ['7'] := by
  have hm : "sum" ∈ prunedSample.names := by decide
  have hd : sampleLexicon.characterSet "DIGIT" [] ['7'] := ⟨rfl, '7', rfl, rfl⟩
  have hnumber : Production.Derives sampleLexicon sample.productions "number" ['7'] := by
    refine Production.derives_iff.mpr
      ⟨_, List.mem_cons_of_mem _ List.mem_cons_self, rfl, 1, ⟨Nat.le_refl 1, ?_⟩, ?_⟩
    · exact fun _ h => nomatch h
    · exact ⟨['7'], [], rfl, hd, rfl⟩
  have hsum : Production.Derives sampleLexicon sample.productions "sum" ['7'] := by
    refine Production.derives_iff.mpr ⟨_, List.mem_cons_self, rfl, ['7'], [], rfl, hnumber, ?_⟩
    exact ⟨[], [], rfl, Or.inl rfl, rfl⟩
  refine ⟨resolve_sample, hm, hsum, ?_⟩
  exact (derives_grammar_iff sample_reachable resolve_sample hm sampleLexicon ['7']).mpr hsum

end Builder

end FormalGrammar
