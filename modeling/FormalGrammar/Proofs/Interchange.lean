import FormalGrammar.Grammar.Resolution
import FormalGrammar.Proofs.Congruence
import FormalGrammar.Proofs.Evaluation

/-!
# Equal things in place of each other

Exclusions are equal as sets, in whatever order and in however many calls they
were added. Productions with the same names and equal definitions make the same
reference graph, and a resolution sees no more of a definition than its
references. So equal productions are resolved to equal grammars with the same
reports, or fail with the same error.
-/

namespace FormalGrammar

/-! ## Exclusions -/

namespace Term

variable {name other : String} {old : List Nat} {t u : Term} {calls : List (List Value)}

/-- Well-formed character sets are equal exactly if they have one name and the same exclusions as
a set. -/
theorem same_characterSet_iff_of_wellFormed {excluded others : List Nat}
    (h : (characterSet name excluded).WellFormed) (h' : (characterSet other others).WellFormed) :
    (characterSet name excluded).same (characterSet other others) = true ↔
      name = other ∧ ∀ n, n ∈ excluded ↔ n ∈ others := by
  rw [same_characterSet_iff, characterSet.injEq, eq_comm (a := other), eq_comm (a := others)]
  refine and_congr_right fun _ => ⟨fun heq n => by rw [heq], fun hmem => ?_⟩
  exact h.isExclusions.ascending.eq_of_mem_iff h'.isExclusions.ascending hmem

/-- Exclusions added in calls one after the other. -/
def excludingAll (calls : List (List Value)) (t : Term) : Except Error Term :=
  calls.foldlM (fun t values => t.excluding values) t

/-- A character set with exclusions added in calls has its name and excludes the integers among
them in addition. -/
theorem exists_of_excludingAll (h : (characterSet name old).WellFormed)
    (ht : (characterSet name old).excludingAll calls = .ok t) :
    ∃ points, t = .characterSet name points ∧ IsExclusions points ∧
      ∀ n : Nat, n ∈ points ↔ n ∈ old ∨ ∃ values ∈ calls, .int n ∈ values := by
  induction calls generalizing old with
  | nil =>
    cases ht
    exact ⟨old, rfl, h.isExclusions, fun n => by simp⟩
  | cons values calls ih =>
    obtain ⟨next, hnext, hrest⟩ := bind_eq_ok_iff.mp ht
    have hvalues : ∀ v ∈ values, v.unhashable? = none := by
      obtain ⟨_, _, _, hset, hmerged, -⟩ := excluding_eq_ok_iff.mp hnext
      exact (mergeExcluded_eq_ok_iff.mp hmerged).1
    obtain ⟨points, rfl, hpoints, hmem⟩ := exists_of_excluding h hvalues hnext
    have hname : name ≠ "" := (wellFormed_iff.mp h).1.1
    have hwell : (characterSet name points).WellFormed :=
      wellFormed_of_leaf ⟨hname, hpoints.ascending, hpoints.codePoints⟩ rfl
    obtain ⟨last, rfl, hlast, hall⟩ := ih hwell hrest
    refine ⟨last, rfl, hlast, fun n => ?_⟩
    rw [hall, hmem, or_assoc]
    simp only [List.mem_cons, exists_eq_or_imp]

/-- The same exclusions give equal character sets, in whatever order and calls they were added. -/
theorem same_of_excludingAll {others : List (List Value)}
    (h : (characterSet name old).WellFormed)
    (ht : (characterSet name old).excludingAll calls = .ok t)
    (hu : (characterSet name old).excludingAll others = .ok u)
    (hmem : ∀ v, (∃ values ∈ calls, v ∈ values) ↔ ∃ values ∈ others, v ∈ values) :
    t.same u = true := by
  obtain ⟨points, rfl, hpoints, hin⟩ := exists_of_excludingAll h ht
  obtain ⟨points', rfl, hpoints', hin'⟩ := exists_of_excludingAll h hu
  rw [hpoints.ascending.eq_of_mem_iff hpoints'.ascending fun n => by rw [hin, hin', hmem]]
  exact same_refl _

end Term

/-! ## Productions and grammars -/

namespace Production

variable {ps qs : List Production}

/-- Equal productions have the same names in the same order. -/
theorem names_eq_of_sameAll (h : sameAll ps qs = true) :
    ps.map (·.name) = qs.map (·.name) := by
  rw [sameAll_iff] at h
  induction h with
  | nil => rfl
  | cons hpq _ ih => rw [List.map_cons, List.map_cons, (same_iff.mp hpq).1, ih]

/-- Equal productions make the same reference graph. -/
theorem graph_eq_of_sameAll (h : sameAll ps qs = true) :
    ReferenceGraph.ofProductions ps = ReferenceGraph.ofProductions qs := by
  rw [ReferenceGraph.ofProductions, ReferenceGraph.ofProductions]
  rw [sameAll_iff] at h
  induction h with
  | nil => rfl
  | @cons p q _ _ hpq _ ih =>
    obtain ⟨hname, hdefinition⟩ := same_iff.mp hpq
    have hreferences : p.references = q.references := Term.references_eq_of_same hdefinition
    rw [List.map_cons, List.map_cons, hname, hreferences, ih]

/-- Of equal productions those with some names are equal. -/
theorem sameAll_filter (selected : String → Bool) (h : sameAll ps qs = true) :
    sameAll (ps.filter fun p => selected p.name) (qs.filter fun q => selected q.name) = true := by
  refine sameAll_iff.mpr (List.rel_filter (fun p q hpq => ?_) (sameAll_iff.mp h))
  change selected p.name = true ↔ selected q.name = true
  rw [(same_iff.mp hpq).1]

end Production

namespace Grammar

variable {g h : Grammar}

/-- Equal grammars have the same names in the same order. -/
theorem names_eq_of_same (hs : g.same h = true) : g.names = h.names :=
  Production.names_eq_of_sameAll (same_iff.mp hs).2.2

/-- Equal grammars have equal hashes. -/
theorem hashKey_eq_of_same (hs : g.same h = true) : g.hashKey = h.hashKey := by
  rw [hashKey, hashKey, (same_iff.mp hs).1, names_eq_of_same hs]

end Grammar

/-! ## Resolution -/

/-- Whether two resolutions came to equal grammars or to the same error, with the same reports. -/
structure Resolution.Same (r s : Resolution) : Prop where
  outcome : (∃ g h, r.outcome = .ok g ∧ s.outcome = .ok h ∧ g.same h = true) ∨
    ∃ e, r.outcome = .error e ∧ s.outcome = .error e
  log : r.log = s.log

namespace Resolution

/-- Resolutions that failed in the same way are the same. -/
theorem same_failed (e : Error) : (failed e).Same (failed e) :=
  ⟨Or.inr ⟨e, rfl, rfl⟩, rfl⟩

/-- Resolutions that succeeded with equal grammars and the same reports are the same. -/
theorem same_succeeded {threshold : Level} {g h : Grammar} {reports : List Report}
    (hs : g.same h = true) : (succeeded threshold g reports).Same (succeeded threshold h reports) :=
  ⟨Or.inl ⟨g, h, rfl, rfl, hs⟩, rfl⟩

end Resolution

namespace Builder

/-- Whether two builders have one language, equal headers and equal productions. -/
structure Same (b c : Builder) : Prop where
  language : b.language = c.language
  header : b.header.same c.header = true
  productions : Production.sameAll b.productions c.productions = true

variable {b c : Builder} {threshold : Level} {policy : Policy} {roots reached : List String}

/-- The same productions of equal builders make equal grammars. -/
theorem Same.grammarOf (h : b.Same c) {ps qs : List Production}
    (hp : Production.sameAll ps qs = true) : (b.grammarOf ps).same (c.grammarOf qs) = true :=
  Grammar.same_iff.mpr ⟨h.language, h.header, hp⟩

/-- Equal builders are settled in the same way. -/
theorem Same.settle (h : b.Same c) :
    (b.settle threshold policy roots reached).Same (c.settle threshold policy roots reached) := by
  have hnames : b.names = c.names := Production.names_eq_of_sameAll h.productions
  have hlength : b.productions.length = c.productions.length :=
    (Production.sameAll_iff.mp h.productions).length_eq
  have hkept := Production.sameAll_filter reached.contains h.productions
  have hkeptLength := (Production.sameAll_iff.mp hkept).length_eq
  simp only [Builder.settle, hnames, hlength, hkeptLength]
  split
  · exact Resolution.same_succeeded (h.grammarOf h.productions)
  · split
    · exact Resolution.same_succeeded (h.grammarOf hkept)
    · split
      · exact Resolution.same_succeeded (h.grammarOf h.productions)
      · exact Resolution.same_failed _

/-- Equal builders are resolved in the same way under any options. -/
theorem Same.resolveUnder (h : b.Same c) :
    (b.resolveUnder threshold policy).Same (c.resolveUnder threshold policy) := by
  have hgraph := Production.graph_eq_of_sameAll h.productions
  have hempty : b.productions.isEmpty = c.productions.isEmpty := by
    have hlength := (Production.sameAll_iff.mp h.productions).length_eq
    rw [Bool.eq_iff_iff, List.isEmpty_iff_length_eq_zero, List.isEmpty_iff_length_eq_zero, hlength]
  simp only [Builder.resolveUnder, hgraph, hempty, h.language]
  split
  · exact Resolution.same_failed _
  · split
    · split
      · exact Resolution.same_succeeded (h.grammarOf rfl)
      · exact Resolution.same_failed _
    · split
      · exact Resolution.same_failed _
      · exact h.settle

/-- Equal builders are resolved in the same way under any settings. -/
theorem Same.resolve (h : b.Same c) (threshold : Level) (settings : List Setting) :
    (b.resolve threshold settings).Same (c.resolve threshold settings) := by
  rw [Builder.resolve, Builder.resolve]
  split
  · exact Resolution.same_failed _
  · exact h.resolveUnder

end Builder

/-! ## All of it -/

/-- Equality of values, of terms and of grammars is an equivalence. Equal terms are of one kind and
have the same references in the same order, and exclusions are equal as sets, whatever the order
and the calls in which they were added. Operations that are given equal terms in place of others
make equal terms or fail with either. Builders with one language, equal headers and productions of
pairwise the same names with equal definitions resolve under any settings to equal grammars, which
agree in their names and hashes, or they fail with the same error. -/
theorem equality_respected :
    (Equivalence fun v w : Value => v.same w = true) ∧
    (Equivalence fun t u : Term => t.same u = true) ∧
    (Equivalence fun g h : Grammar => g.same h = true) ∧
    (∀ t u : Term, t.same u = true → t.kind = u.kind ∧ t.references = u.references) ∧
    (∀ (name other : String) (excluded others : List Nat),
      (Term.characterSet name excluded).WellFormed → (Term.characterSet other others).WellFormed →
        ((Term.characterSet name excluded).same (.characterSet other others) = true ↔
          name = other ∧ ∀ n, n ∈ excluded ↔ n ∈ others)) ∧
    (∀ (name : String) (old : List Nat) (calls others : List (List Value)) (t u : Term),
      (Term.characterSet name old).WellFormed →
      (Term.characterSet name old).excludingAll calls = .ok t →
      (Term.characterSet name old).excludingAll others = .ok u →
      (∀ v, (∃ values ∈ calls, v ∈ values) ↔ ∃ values ∈ others, v ∈ values) →
        t.same u = true) ∧
    (∀ (o : Operation) (vs ws : List Value), List.Forall₂ Value.Alike vs ws →
      (∃ t u, o.apply vs = .ok t ∧ o.apply ws = .ok u ∧ t.same u = true) ∨
        ((∃ e, o.apply vs = .error e) ∧ ∃ e, o.apply ws = .error e)) ∧
    ∀ b c : Builder, b.Same c → ∀ (threshold : Level) (settings : List Setting),
      (∃ g h, (b.resolve threshold settings).outcome = .ok g ∧
        (c.resolve threshold settings).outcome = .ok h ∧
        g.same h = true ∧ g.names = h.names ∧ g.hashKey = h.hashKey) ∨
      ∃ e, (b.resolve threshold settings).outcome = .error e ∧
        (c.resolve threshold settings).outcome = .error e := by
  refine ⟨Value.same_equivalence, Term.same_equivalence, Grammar.same_equivalence,
    fun t u h => ⟨Term.kind_eq_of_same h, Term.references_eq_of_same h⟩,
    fun _ _ _ _ => Term.same_characterSet_iff_of_wellFormed,
    fun _ _ _ _ _ _ => Term.same_of_excludingAll, fun _ _ _ => Operation.apply_congr,
    fun b c hbc threshold settings => ?_⟩
  rcases (hbc.resolve threshold settings).outcome with
    ⟨g, h, hg, hh, hsame⟩ | ⟨e, hb, hc⟩
  · exact Or.inl ⟨g, h, hg, hh, hsame, Grammar.names_eq_of_same hsame,
      Grammar.hashKey_eq_of_same hsame⟩
  · exact Or.inr ⟨e, hb, hc⟩

/-- A builder for a greeting with the flag of its literal and the place where it was written. -/
def sampleGreeting (flag : Value) (place : String) : Builder where
  language := "greetings"
  header := flag
  productions :=
    [⟨"greeting", .sequence (.literal "hello" flag) [.nonTerminal "name"], place⟩,
      ⟨"name", .characterSet "LETTER" [], place⟩]
  built := false

/-- As flags true, one and `1.0` equal each other. A greeting in two places with two of them is
resolved to equal grammars with one hash, two of them in a sequence make equal terms, and the
order of two excluded code points makes no difference. -/
theorem equality_respected_sample :
    (Value.bool true).same (.int 1) = true ∧
    (Value.bool true).same (.decimal ⟨false, 10, 1⟩) = true ∧
    (∃ t u, (Operation.factory .sequence).apply
          [.term (.literal "a" (.bool true)), .term .epsilon] = .ok t ∧
        (Operation.factory .sequence).apply
          [.term (.literal "a" (.int 1)), .term .epsilon] = .ok u ∧ t.same u = true) ∧
    (Term.characterSet "ANY" [34, 92]).same (.characterSet "ANY" [34, 92]) = true ∧
    ∃ g h, ((sampleGreeting (.bool true) "here").resolve .debug []).outcome = .ok g ∧
      ((sampleGreeting (.int 1) "there").resolve .debug []).outcome = .ok h ∧
      g.same h = true ∧ g.hashKey = h.hashKey := by
  obtain ⟨hvalues, -, -, -, -, hexcluded, hoperations, hbuilders⟩ := equality_respected
  have hone : (Value.bool true).same (.int 1) = true := by decide
  have hflags : (Value.int 1).same (.decimal ⟨false, 10, 1⟩) = true := by decide
  have hset : (Term.characterSet "ANY" []).WellFormed := by decide
  have hgreetings : (sampleGreeting (.bool true) "here").Same (sampleGreeting (.int 1) "there") :=
    ⟨rfl, hone, by decide⟩
  refine ⟨hone, hvalues.trans hone hflags, ?_, ?_, ?_⟩
  · have halike : List.Forall₂ Value.Alike [.term (.literal "a" (.bool true)), .term .epsilon]
        [.term (.literal "a" (.int 1)), .term .epsilon] :=
      .cons (.term (by decide)) (.cons (.value _) .nil)
    refine (hoperations (.factory .sequence) _ _ halike).resolve_right ?_
    rintro ⟨⟨e, he⟩, -⟩
    cases he
  · refine hexcluded "ANY" [] [[.int 34], [.int 92]] [[.int 92, .int 34]] _ _ hset rfl rfl ?_
    simp [or_comm]
  · rcases hbuilders _ _ hgreetings .debug [] with ⟨g, h, hg, hh, hsame, -, hhash⟩ | ⟨e, he, -⟩
    · exact ⟨g, h, hg, hh, hsame, hhash⟩
    · have hresolved : ((sampleGreeting (.bool true) "here").resolve .debug []).outcome =
          .ok ((sampleGreeting (.bool true) "here").grammarOf
            (sampleGreeting (.bool true) "here").productions) := by
        cbv
      cases hresolved.symm.trans he

end FormalGrammar
