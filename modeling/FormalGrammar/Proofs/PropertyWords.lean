import FormalGrammar.Properties
import Mathlib

/-!
# Words for the truth value

A text turns an option on exactly if it is the word for the truth value with
blanks around it and each letter in either case. Among the characters outside
ASCII only two have small letters inside it. One of these is the letter k, which
is not in the word, and the other comes with a dot behind it, which is no letter
at all. So nothing outside ASCII becomes the word.
-/

namespace FormalGrammar.Text

variable {before word after rest cs : List Char} {c d : Char}

/-! ## Blanks at the ends -/

/-- Blanks in front of what does not begin with one are dropped, and nothing else is. -/
theorem dropWhile_isBlank_append (hbefore : ∀ c ∈ before, isBlank c = true)
    (hword : ∀ c ∈ word, isBlank c = false) (hne : word ≠ []) :
    (before ++ (word ++ after)).dropWhile isBlank = word ++ after := by
  induction before with
  | nil =>
    obtain ⟨c, cs, rfl⟩ := List.exists_cons_of_ne_nil hne
    rw [List.nil_append, List.cons_append, List.dropWhile_cons, hword c List.mem_cons_self]
    rfl
  | cons c before ih =>
    rw [List.forall_mem_cons] at hbefore
    rw [List.cons_append, List.dropWhile_cons, hbefore.1, if_pos rfl]
    exact ih hbefore.2

/-- A text is trimmed by dropping the blanks in front of it and then those at its end. -/
theorem trim_eq_rdropWhile (cs : List Char) :
    trim cs = (cs.dropWhile isBlank).rdropWhile isBlank := by
  rw [trim, List.popWhile_toArray, List.rdropWhile]

/-- What is trimmed off a text at either end is blank. -/
theorem exists_append_trim (cs : List Char) :
    ∃ before after, cs = before ++ (trim cs ++ after) ∧ (∀ c ∈ before, isBlank c = true) ∧
      ∀ c ∈ after, isBlank c = true := by
  refine ⟨cs.takeWhile isBlank, (cs.dropWhile isBlank).rtakeWhile isBlank, ?_,
    fun c => List.mem_takeWhile_imp, fun c => List.mem_rtakeWhile_imp⟩
  rw [trim_eq_rdropWhile, List.rdropWhile_append_rtakeWhile, List.takeWhile_append_dropWhile]

/-- A text is trimmed to a word without blanks exactly if it is the word with blanks around it. -/
theorem trim_eq_iff (hword : ∀ c ∈ word, isBlank c = false) (hne : word ≠ []) :
    trim cs = word ↔
      ∃ before after, cs = before ++ (word ++ after) ∧ (∀ c ∈ before, isBlank c = true) ∧
        ∀ c ∈ after, isBlank c = true := by
  constructor
  · rintro rfl
    exact exists_append_trim cs
  · rintro ⟨before, after, rfl, hbefore, hafter⟩
    have hword' : ∀ c ∈ word.reverse, isBlank c = false := fun c hc =>
      hword c (List.mem_reverse.mp hc)
    have hafter' : ∀ c ∈ after.reverse, isBlank c = true := fun c hc =>
      hafter c (List.mem_reverse.mp hc)
    have hends : (after.reverse ++ (word.reverse ++ [])).dropWhile isBlank = word.reverse ++ [] :=
      dropWhile_isBlank_append hafter' hword' (mt List.reverse_eq_nil_iff.mp hne)
    rw [List.append_nil] at hends
    rw [trim_eq_rdropWhile, dropWhile_isBlank_append hbefore hword hne, List.rdropWhile,
      List.reverse_append, hends, List.reverse_reverse]

/-! ## Letters in either case -/

/-- Whether a character is a small letter or the capital one of it. -/
def InEitherCase (c d : Char) : Prop := c = d ∨ c = d.toUpper

/-- Whether a character is a small letter of the alphabet other than k, which has a second capital
letter outside ASCII. -/
structure IsPlainLetter (d : Char) : Prop where
  isLower : d.isLower = true
  ne_k : d ≠ 'k'

instance (d : Char) : Decidable (IsPlainLetter d) :=
  decidable_of_iff (d.isLower = true ∧ d ≠ 'k') ⟨fun h => ⟨h.1, h.2⟩, fun h => ⟨h.1, h.2⟩⟩

/-- A small letter has its code point in the range of these. -/
theorem toNat_of_isLower (hd : d.isLower = true) : 0x61 ≤ d.toNat ∧ d.toNat ≤ 0x7A := by
  simpa [Char.isLower, UInt32.le_iff_toNat_le] using hd

/-- A character is a small letter in either case exactly if this is its small letter in ASCII. -/
theorem inEitherCase_iff (hd : d.isLower = true) : InEitherCase c d ↔ c.toLower = d := by
  have hsmall : d.toLower = d :=
    Char.toLower_eq_of_not_isUpper (mt Char.not_isLower_of_isUpper (not_not.mpr hd))
  constructor
  · rintro (rfl | rfl)
    · exact hsmall
    · rw [Char.toLower_toUpper_eq_toLower, hsmall]
  · rintro rfl
    by_cases hc : c.isUpper = true
    · rw [InEitherCase, Char.toUpper_toLower_eq_toUpper,
        Char.toUpper_eq_of_not_isLower (Char.not_isLower_of_isUpper hc)]
      exact Or.inr rfl
    · exact Or.inl (Char.toLower_eq_of_not_isUpper hc).symm

/-- The first run is that of ASCII. All others begin beyond it, and lead beyond the small letters
of ASCII or, alone, to k. -/
theorem exists_caseRuns_eq_cons :
    ∃ others, caseRuns = ⟨0x41, 0x5A, 1, 0x61⟩ :: others ∧
      ∀ run ∈ others, 0xC0 ≤ run.first ∧
        (0x7A < run.image ∨ run.image = 0x6B ∧ run.first = run.last) :=
  ⟨_, rfl, by decide +kernel⟩

/-- A capital letter of ASCII is found in the first run. -/
theorem find?_cons_of_isUpper {others : List CaseRun} (hc : c.isUpper = true) :
    (⟨0x41, 0x5A, 1, 0x61⟩ :: others).find? (·.covers c.toNat) = some ⟨0x41, 0x5A, 1, 0x61⟩ := by
  refine List.find?_cons_of_pos ?_
  simpa [CaseRun.covers, Char.isUpper, UInt32.le_iff_toNat_le, Nat.mod_one] using hc

/-- Any other character is not found there. -/
theorem find?_cons_of_not_isUpper {others : List CaseRun} (hc : ¬ c.isUpper = true) :
    (⟨0x41, 0x5A, 1, 0x61⟩ :: others).find? (·.covers c.toNat) =
      others.find? (·.covers c.toNat) := by
  refine List.find?_cons_of_neg ?_
  simpa [CaseRun.covers, Char.isUpper, UInt32.le_iff_toNat_le, Nat.mod_one] using hc

/-- Capital letters of ASCII have their code points in one range. -/
theorem toNat_of_isUpper (hc : c.isUpper = true) : 0x41 ≤ c.toNat ∧ c.toNat ≤ 0x5A := by
  simpa [Char.isUpper, UInt32.le_iff_toNat_le] using hc

/-- No character from where the other runs begin is a capital letter of ASCII. -/
theorem not_isUpper_of_le (hc : 0xC0 ≤ c.toNat) : ¬ c.isUpper = true := by
  intro hupper
  have hrange := toNat_of_isUpper hupper
  omega

/-- Before the other runs begin, small letters are those of ASCII. -/
theorem lowerChar_of_lt (hc : c.toNat < 0xC0) : lowerChar c = c.toLower := by
  obtain ⟨others, hruns, hothers⟩ := exists_caseRuns_eq_cons
  rw [lowerChar, hruns]
  by_cases hupper : c.isUpper = true
  · have hrange := toNat_of_isUpper hupper
    have hsmall : 0x61 + (c.toNat - 0x41) = c.toNat + 32 := by omega
    rw [find?_cons_of_isUpper hupper, Char.toLower_eq_of_isUpper hupper]
    exact congrArg Char.ofNat hsmall
  · have hnone : others.find? (·.covers c.toNat) = none := by
      refine List.find?_eq_none.mpr fun run hrun hcovers => ?_
      have hfirst := (hothers run hrun).1
      simp only [CaseRun.covers, Bool.and_eq_true, decide_eq_true_eq] at hcovers
      omega
    rw [find?_cons_of_not_isUpper hupper, hnone, Char.toLower_eq_of_not_isUpper hupper]

/-- From where the other runs begin, no small letter is a plain one. -/
theorem not_isPlainLetter_lowerChar (hc : 0xC0 ≤ c.toNat) : ¬ IsPlainLetter (lowerChar c) := by
  intro hplain
  obtain ⟨others, hruns, hothers⟩ := exists_caseRuns_eq_cons
  obtain ⟨hge, hle⟩ := toNat_of_isLower hplain.isLower
  rw [lowerChar, hruns, find?_cons_of_not_isUpper (not_isUpper_of_le hc)] at hplain hge hle
  cases hfound : others.find? (·.covers c.toNat) with
  | none =>
    simp only [hfound] at hle
    omega
  | some run =>
    have hcovers := List.find?_some hfound
    simp only [CaseRun.covers, Bool.and_eq_true, decide_eq_true_eq] at hcovers
    simp only [hfound, Char.toNat_ofNat, CaseRun.smallOf] at hge hle hplain
    rcases (hothers run (List.mem_of_find?_eq_some hfound)).2 with himage | ⟨himage, hlast⟩
    -- what is no character at all becomes the null character, which is no letter either
    · by_cases hvalid : (run.image + (c.toNat - run.first)).isValidChar
      · rw [if_pos hvalid] at hle
        omega
      · rw [if_neg hvalid] at hge
        omega
    · have hk : run.image + (c.toNat - run.first) = 'k'.toNat := by
        rw [himage]
        have hfirst : c.toNat = run.first := by omega
        rw [hfirst, Nat.sub_self]
        rfl
      exact hplain.ne_k (by rw [hk, Char.ofNat_toNat])

/-- A plain letter is the small letter of exactly its two cases. -/
theorem lowerChar_eq_iff (hd : IsPlainLetter d) : lowerChar c = d ↔ InEitherCase c d := by
  rw [inEitherCase_iff hd.isLower]
  by_cases hc : c.toNat < 0xC0
  · rw [lowerChar_of_lt hc]
  · rw [not_lt] at hc
    refine iff_of_false (fun h => ?_) fun h => ?_
    · exact not_isPlainLetter_lowerChar hc (h ▸ hd)
    · rw [Char.toLower_eq_of_not_isUpper (not_isUpper_of_le hc)] at h
      have hle := (toNat_of_isLower hd.isLower).2
      rw [← h] at hle
      omega

/-! ## Words in either case -/

/-- The capital sigma and the capital I with a dot are no case of a plain letter, so that a plain
letter in either case becomes the letter and nothing else. -/
theorem lowerAt_of_inEitherCase {atEnd : Bool} (hd : IsPlainLetter d) (h : InEitherCase c d) :
    lowerAt atEnd c = [d] := by
  have hsmall := (inEitherCase_iff hd.isLower).mp h
  have hsigma : c ≠ capitalSigma := by
    rintro rfl
    exact absurd (hsmall ▸ hd) (by decide)
  have hdotted : c ≠ capitalDottedI := by
    rintro rfl
    exact absurd (hsmall ▸ hd) (by decide)
  rw [lowerAt, if_neg hsigma, if_neg hdotted, (lowerChar_eq_iff hd).mpr h]

/-- Where a character and more become a word of plain letters, it is the first letter of it in
either case. -/
theorem inEitherCase_of_lowerAt_append {atEnd : Bool} (hword : ∀ d ∈ word, IsPlainLetter d)
    (h : lowerAt atEnd c ++ rest = word) :
    ∃ d ds, word = d :: ds ∧ InEitherCase c d ∧ rest = ds := by
  rw [lowerAt] at h
  split at h
  · subst h
    have hsigma := hword _ List.mem_cons_self
    cases atEnd <;> exact absurd hsigma (by decide)
  · split at h
    · subst h
      have hdot := hword _ (List.mem_cons_of_mem _ List.mem_cons_self)
      exact absurd hdot (by decide)
    · subst h
      exact ⟨_, rest, rfl, (lowerChar_eq_iff (hword _ List.mem_cons_self)).mp rfl, rfl⟩

/-- A text becomes a word of plain letters exactly if it is the word with each letter in either
case, wherever words end. -/
theorem lowerFrom_eq_iff {endsWord : List Char → List Char → Bool}
    (hword : ∀ d ∈ word, IsPlainLetter d) :
    lowerFrom endsWord before cs = word ↔ List.Forall₂ InEitherCase cs word := by
  induction cs generalizing before word with
  | nil => rw [lowerFrom, List.forall₂_nil_left_iff, eq_comm]
  | cons c cs ih =>
    rw [lowerFrom]
    constructor
    · intro h
      obtain ⟨d, ds, rfl, hcd, hrest⟩ := inEitherCase_of_lowerAt_append hword h
      rw [List.forall_mem_cons] at hword
      exact .cons hcd ((ih hword.2).mp hrest)
    · intro h
      obtain ⟨d, ds, hcd, hrest, rfl⟩ := List.forall₂_cons_left_iff.mp h
      rw [List.forall_mem_cons] at hword
      rw [lowerAt_of_inEitherCase hword.1 hcd, (ih hword.2).mpr hrest]
      rfl

/-- Letters of ASCII are not blank. -/
theorem not_isBlank_of_isAlpha (hc : c.isAlpha = true) : isBlank c = false := by
  have hrange : 0x41 ≤ c.toNat ∧ c.toNat ≤ 0x7A := by
    rcases Bool.or_eq_true_iff.mp hc with hupper | hlower
    · have hcapital := toNat_of_isUpper hupper
      omega
    · have hsmall := toNat_of_isLower hlower
      omega
  simp only [isBlank, blankRanges, List.any_cons, List.any_nil, Bool.or_false, Bool.or_eq_false_iff,
    Bool.and_eq_false_iff, decide_eq_false_iff_not]
  omega

/-- A word in either case holds no blanks. -/
theorem not_isBlank_of_inEitherCase {letters : List Char}
    (hletters : ∀ d ∈ letters, IsPlainLetter d) (h : List.Forall₂ InEitherCase word letters) :
    ∀ c ∈ word, isBlank c = false := by
  induction h with
  | nil => exact List.forall_mem_nil _
  | @cons c d word letters hcd _ ih =>
    rw [List.forall_mem_cons] at hletters ⊢
    have hsmall := (inEitherCase_iff hletters.1.isLower).mp hcd
    have hlower : c.toLower.isLower = true := hsmall ▸ hletters.1.isLower
    rw [Char.isLower_toLower_eq_isAlpha] at hlower
    exact ⟨not_isBlank_of_isAlpha hlower, ih hletters.2⟩

/-- Without the blanks at its ends a text becomes a word of plain letters exactly if it is the word
with each letter in either case and blanks around it. -/
theorem lower_trim_eq_iff {endsWord : List Char → List Char → Bool} {letters : List Char}
    (hletters : ∀ d ∈ letters, IsPlainLetter d) (hne : letters ≠ []) :
    lower endsWord (trim cs) = letters ↔
      ∃ before word after, cs = before ++ (word ++ after) ∧ (∀ c ∈ before, isBlank c = true) ∧
        (∀ c ∈ after, isBlank c = true) ∧ List.Forall₂ InEitherCase word letters := by
  rw [lower, lowerFrom_eq_iff hletters]
  constructor
  · intro h
    obtain ⟨before, after, hcs, hbefore, hafter⟩ := exists_append_trim cs
    exact ⟨before, trim cs, after, hcs, hbefore, hafter, h⟩
  · rintro ⟨before, word, after, rfl, hbefore, hafter, h⟩
    have hword : word ≠ [] := by
      rintro rfl
      exact hne (List.forall₂_nil_left_iff.mp h)
    have htrim := (trim_eq_iff (not_isBlank_of_inEitherCase hletters h) hword).mpr
      ⟨before, after, rfl, hbefore, hafter⟩
    rwa [htrim]

end FormalGrammar.Text

namespace FormalGrammar

open Text (isBlank InEitherCase)

/-- The word for the truth value has plain letters. -/
theorem isPlainLetter_of_mem_trueWord : ∀ d ∈ trueWord, Text.IsPlainLetter d := by
  intro d hd
  fin_cases hd <;> decide

/-- A text is the word for the truth value exactly if it is that word with each letter in either
case and blanks around it. -/
theorem isTrueWord_iff {s : String} :
    isTrueWord s = true ↔
      ∃ before word after, s.toList = before ++ (word ++ after) ∧ (∀ c ∈ before, isBlank c = true) ∧
        (∀ c ∈ after, isBlank c = true) ∧ List.Forall₂ InEitherCase word trueWord := by
  rw [isTrueWord, beq_iff_eq,
    Text.lower_trim_eq_iff isPlainLetter_of_mem_trueWord (List.cons_ne_nil _ _)]

namespace ParserOption

variable {properties others : List (String × Value)}

/-- Only the properties with the names of options matter. -/
theorem ofProperties_congr
    (h : ∀ o : ParserOption, others.lookup o.name = properties.lookup o.name) :
    ofProperties others = ofProperties properties := by
  rw [ofProperties, ofProperties]
  exact List.filter_congr fun o _ => by rw [h]

/-- Among properties without those of one name, another name is looked up as before. -/
theorem lookup_filter_ne {key name : String} (h : name ≠ key) :
    (properties.filter fun property => property.1 != key).lookup name = properties.lookup name := by
  induction properties with
  | nil => rfl
  | cons property properties ih =>
    obtain ⟨other, v⟩ := property
    by_cases hkey : other = key
    · rw [List.filter_cons_of_neg (by simp [hkey]), ih, List.lookup_cons, hkey,
        beq_eq_false_iff_ne.mpr h]
    · rw [List.filter_cons_of_pos (by simp [hkey]), List.lookup_cons, List.lookup_cons, ih]

/-- An option is turned on exactly by a property of its own name that is the truth value, or a text
made of blanks, the letters of the word for it in either case, and blanks. It makes no difference to
this where words end. Properties of all other names make no difference either, whether they are
changed, added or removed. -/
theorem turned_on_by_true_words (properties : List (String × Value)) :
    (∀ o, o ∈ ofProperties properties ↔
      properties.lookup o.name = some (.bool true) ∨
      ∃ s before word after, properties.lookup o.name = some (.text s) ∧
        s.toList = before ++ (word ++ after) ∧ (∀ c ∈ before, isBlank c = true) ∧
        (∀ c ∈ after, isBlank c = true) ∧
        List.Forall₂ (fun c d => c = d ∨ c = d.toUpper) word trueWord) ∧
    (∀ endsWord s, isTrueWord s = (Text.lower endsWord (Text.trim s.toList) == trueWord)) ∧
    (∀ others : List (String × Value),
      (∀ o : ParserOption, others.lookup o.name = properties.lookup o.name) →
        ofProperties others = ofProperties properties) ∧
    ∀ key, (∀ o : ParserOption, o.name ≠ key) →
      (∀ v, ofProperties ((key, v) :: properties) = ofProperties properties) ∧
      ofProperties (properties.filter fun property => property.1 != key) =
        ofProperties properties := by
  refine ⟨fun o => ?_, fun endsWord s => ?_, fun _ => ofProperties_congr, fun key hkey => ⟨?_, ?_⟩⟩
  · rw [mem_ofProperties]
    constructor
    · rintro ⟨v, hv, hon⟩
      cases v with
      | bool b =>
        obtain rfl : b = true := hon
        exact Or.inl hv
      | text s =>
        obtain ⟨before, word, after, h⟩ := isTrueWord_iff.mp hon
        exact Or.inr ⟨s, before, word, after, hv, h⟩
      | _ => cases hon
    · rintro (hv | ⟨s, before, word, after, hv, h⟩)
      · exact ⟨_, hv, rfl⟩
      · exact ⟨_, hv, isTrueWord_iff.mpr ⟨before, word, after, h⟩⟩
  · rw [isTrueWord, Bool.eq_iff_iff, beq_iff_eq, beq_iff_eq,
      Text.lower_trim_eq_iff isPlainLetter_of_mem_trueWord (List.cons_ne_nil _ _),
      Text.lower_trim_eq_iff isPlainLetter_of_mem_trueWord (List.cons_ne_nil _ _)]
  · intro v
    refine ofProperties_congr fun o => ?_
    rw [List.lookup_cons, beq_eq_false_iff_ne.mpr (hkey o)]
  · exact ofProperties_congr fun o => lookup_filter_ne (hkey o)

/-- With a no-break space in front and an ideographic space behind, the word in mixed case turns an
option on, next to a property of another name, whatever that is. With a zero-width space in front it
turns nothing on. -/
theorem turned_on_by_true_words_sample :
    .skipUnused ∈ ofProperties [("debug", .int 1),
      ("SKIP_UNUSED_PRODUCTIONS", .text "\u00A0TruE\u3000")] ∧
    ofProperties [("debug", .int 1), ("SKIP_UNUSED_PRODUCTIONS", .text "\u00A0TruE\u3000")] =
      ofProperties [("SKIP_UNUSED_PRODUCTIONS", .text "\u00A0TruE\u3000")] ∧
    .skipUnused ∉ ofProperties [("SKIP_UNUSED_PRODUCTIONS", .text "\u200Btrue")] := by
  have hkey : ∀ o : ParserOption, o.name ≠ "debug" := fun o => by cases o <;> decide
  have hword : List.Forall₂ (fun c d => c = d ∨ c = d.toUpper) ['T', 'r', 'u', 'E'] trueWord :=
    .cons (by decide) (.cons (by decide) (.cons (by decide) (.cons (by decide) .nil)))
  have hblanks : (∀ c ∈ ['\u00A0'], isBlank c = true) ∧ ∀ c ∈ ['\u3000'], isBlank c = true := by
    simp only [List.forall_mem_singleton]
    decide
  have hadded := ((turned_on_by_true_words
    [("SKIP_UNUSED_PRODUCTIONS", .text "\u00A0TruE\u3000")]).2.2.2 "debug" hkey).1 (.int 1)
  refine ⟨?_, hadded, by decide +kernel⟩
  rw [hadded]
  exact ((turned_on_by_true_words _).1 .skipUnused).mpr
    (Or.inr ⟨_, _, _, _, rfl, by decide, hblanks.1, hblanks.2, hword⟩)

end ParserOption

end FormalGrammar
