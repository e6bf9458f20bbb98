import FormalGrammar.Proofs.ClosedGrammar
import FormalGrammar.Proofs.FixedPoint

/-!
# Formatting that stops at references

A formatter that fails at every reference fails with the name of the reference
that comes first in preorder, and gives the full result where there is none. For
a production the name is the first of its collected references.
-/

namespace FormalGrammar

variable {π α β τ : Type}

/-- What a computation comes to that stops at a name, if there is one, and makes something
otherwise. -/
def stopAt (name : Option String) (a : α) : Except String α :=
  match name with
  | some name => .error name
  | none => .ok a

/-- One computation after another stops at the name of the first of them that has one. -/
theorem bind_stopAt (name other : Option String) (a : α) (f : α → β) :
    (stopAt name a >>= fun x => stopAt other (f x)) = stopAt (name.or other) (f a) := by
  cases name <;> rfl

/-- A computation that goes on without failing stops where the first part does. -/
theorem bind_stopAt_pure (name : Option String) (a : α) (f : α → β) :
    (stopAt name a >>= fun x => pure (f x)) = stopAt name (f a) := by
  cases name <;> rfl

namespace Term

/-- Format a term, and fail with its name at a reference. -/
def formatOrStop (f : Formatter π α) (param : π) (t : Term) : Except String α :=
  t.formatWith f (fun _ => .error) param

variable {f : Formatter π α}

/-- To format the terms of a list is to format each of them. -/
theorem run_allFormatWith (param : π) (ts : List Term) :
    Id.run (allFormatWith f (fun inner name => pure (f.write inner (.nonTerminal name) [])) param
      ts) = ts.map (format f param) := by
  induction ts with
  | nil => rfl
  | cons t ts ih =>
    rw [List.map_cons, ← ih]
    rfl

/-- Terms from left to right stop at the first name that occurs in any of them. -/
theorem allFormatWith_error {ts : List Term} {param : π}
    (h : ∀ t ∈ ts, t.formatWith f (fun _ => .error) param =
      stopAt t.occurrences.head? (t.format f param)) :
    allFormatWith f (fun _ => .error) param ts =
      stopAt (ts.flatMap occurrences).head? (ts.map (format f param)) := by
  induction ts with
  | nil => rfl
  | cons t ts ih =>
    rw [List.forall_mem_cons] at h
    rw [allFormatWith, h.1, ih h.2, List.flatMap_cons, List.head?_append, List.map_cons]
    simp only [bind_stopAt_pure, bind_stopAt]

/-- A formatter that fails at references stops at the first name that occurs in a term. -/
theorem formatOrStop_eq (f : Formatter π α) (param : π) (t : Term) :
    t.formatOrStop f param = stopAt t.occurrences.head? (t.format f param) := by
  unfold formatOrStop
  induction t using Term.induct generalizing param with
  | literal | characterSet | nonTerminal | epsilon => rfl
  | sequence t ts ht hts | alternatives t ts ht hts =>
    rw [occurrences_eq, formatWith]
    simp only [reference?, Option.toList_none, List.nil_append, children, List.flatMap_cons,
      List.head?_append, ht, allFormatWith_error fun u hu => hts u hu _, bind_stopAt_pure,
      bind_stopAt, ← run_allFormatWith]
    rfl
  | optional t ht | repetition t min max ht =>
    rw [occurrences_eq, formatWith, ht, bind_stopAt_pure]
    simp only [reference?, Option.toList_none, List.nil_append, children, List.flatMap_singleton]
    rfl

end Term

namespace Production

/-- Format the definition of a production and finish with what becomes of it, but fail with its name
at a reference. -/
def formatOrStop (f : Formatter π α) (param : π) (finish : Production → α → β) (p : Production) :
    Except String β := do
  return finish p (← p.definition.formatOrStop f param)

/-- The EBNF of a production, which fails with its name at a reference. -/
def ebnfOrStop (style : EbnfStyle τ) (p : Production) : Except String τ := p.ebnfWith style .error

/-- A formatter that fails at references stops at the first that is collected of a production. -/
theorem formatOrStop_eq (f : Formatter π α) (param : π) (finish : Production → α → β)
    (p : Production) :
    p.formatOrStop f param finish =
      stopAt p.references.head? (finish p (p.definition.format f param)) := by
  rw [formatOrStop, Term.formatOrStop_eq, bind_stopAt_pure, references, Term.head?_references]

/-- EBNF that fails at references stops at the first that is collected of a production. -/
theorem ebnfOrStop_eq (style : EbnfStyle τ) (p : Production) :
    p.ebnfOrStop style = stopAt p.references.head? (p.ebnf style) :=
  p.formatOrStop_eq (Term.ebnfFormatter style) false fun q body =>
    style.between (q.name ++ " = ") body " ;"

end Production

/-! ## Looking up what is formatted -/

/-- Among what a well-formed builder keeps, a production is found under its name. -/
theorem Builder.WellFormed.find?_grammarOf_kept {b : Builder} (hb : b.WellFormed)
    {settings : List Setting} {p : Production} (hp : p ∈ b.kept settings) :
    (b.grammarOf (b.kept settings)).find? p.name = some p := by
  have hkept : Builder.WellFormed { b with productions := b.kept settings } :=
    ⟨hb.language_ne_empty, hb.nodup_kept settings,
      fun q hq => hb.name_ne_empty q (kept_sublist.subset hq)⟩
  exact hkept.find?_eq_some_iff.mpr ⟨hp, rfl⟩

/-- A transformation is applied to the production of a name, if the grammar finds one. -/
theorem Grammar.transform_of_find? {g : Grammar} {name : String} {p : Production}
    (h : g.find? name = some p) (transformation : Production → α) :
    g.transform (.text name) transformation = .ok (transformation p) := by
  rw [transform, production_text_eq_ok_iff.mpr h]
  rfl

/-- A transformation is not called for a name that no production has. -/
theorem Grammar.transform_of_unknown {g : Grammar} {name : Value} (hname : name.unhashable? = none)
    (h : ∀ p ∈ g.productions, name ≠ .text p.name) (transformation : Production → α) :
    g.transform name transformation = .error (.unknownProduction name) := by
  have hc : checkHashable [name] = .ok () :=
    checkHashable_eq_ok_iff.mpr (List.forall_mem_singleton.mpr hname)
  cases name with
  | text s =>
    have hnone : g.find? s = none := by
      refine List.find?_eq_none.mpr fun p hp he => h p hp ?_
      rw [eq_of_beq he]
    simp only [transform, production, hc, bind, Except.bind, hnone]
  | _ => simp only [transform, production, hc, bind, Except.bind]

namespace Builder

/-- A formatter that fails at every reference fails with the name of the reference that no other
reference comes before in preorder, and formats a term in full if there is none. In a resolved
grammar, to format the production of a name, in any style of EBNF or otherwise, fails with the first
of its collected references, if it has any, and gives the full result if it has none. For a name
that no production has, no transformation is called. -/
theorem formatting_stops_at_first_reference {b : Builder} (hb : b.Reachable) {threshold : Level}
    {settings : List Setting} {g : Grammar}
    (hg : (b.resolve threshold settings).outcome = .ok g ∨
      (b.build threshold settings).2.outcome = .ok g)
    (f : Formatter π α) (param : π) (finish : Production → α → β) (style : EbnfStyle τ) :
    (∀ t : Term,
      (∀ before name after, t.nodes = before ++ .nonTerminal name :: after →
        (∀ u ∈ before, u.kind ≠ .nonTerminal) → t.formatOrStop f param = .error name) ∧
      ((∀ u ∈ t.nodes, u.kind ≠ .nonTerminal) →
        t.formatOrStop f param = .ok (t.format f param))) ∧
    (∀ p ∈ g.productions,
      (∀ first rest, p.references = first :: rest →
        g.transform (.text p.name) (Production.formatOrStop f param finish) = .ok (.error first) ∧
          g.transform (.text p.name) (Production.ebnfOrStop style) = .ok (.error first)) ∧
      (p.references = [] →
        g.transform (.text p.name) (Production.formatOrStop f param finish) =
            .ok (.ok (finish p (p.definition.format f param))) ∧
          g.transform (.text p.name) (Production.ebnfOrStop style) = .ok (.ok (p.ebnf style)))) ∧
    ∀ name : Value, name.unhashable? = none → (∀ p ∈ g.productions, name ≠ .text p.name) →
      ∀ (γ : Type) (transformation : Production → γ),
        g.transform name transformation = .error (.unknownProduction name) := by
  rw [build_snd, or_self, resolve_eq_ok_iff hb.wellFormed] at hg
  obtain ⟨_, _, hv⟩ := hg
  obtain ⟨_, _, rfl⟩ := verdict_eq_ok_iff.mp hv
  refine ⟨fun t => ⟨fun before name after hnodes hbefore => ?_, fun hnone => ?_⟩,
    fun p hp => ?_, fun name hname hno γ => Grammar.transform_of_unknown hname hno⟩
  · have hfirst := Term.head?_occurrences_eq_some_iff.mpr ⟨before, after, hnodes, hbefore⟩
    rw [Term.formatOrStop_eq, hfirst]
    rfl
  · rw [Term.formatOrStop_eq, Term.occurrences_eq_nil_iff.mpr hnone]
    rfl
  · have hfound := hb.wellFormed.find?_grammarOf_kept hp
    rw [Grammar.transform_of_find? hfound, Grammar.transform_of_find? hfound,
      Production.formatOrStop_eq, Production.ebnfOrStop_eq]
    refine ⟨fun first rest hrefs => ?_, fun hrefs => ?_⟩
    · rw [hrefs]
      exact ⟨rfl, rfl⟩
    · rw [hrefs]
      exact ⟨rfl, rfl⟩

/-- The repetition of digits that the sample calls a number. -/
def sampleNumber : Production :=
  ⟨"number", .repetition (.characterSet "DIGIT" []) 1 none, "sample:2"⟩

/-- In the pruned sample the text of a sum stops at the number that it begins with, the text of a
number is complete, and the comments that were left out are unknown. The second part of a sum stops
at the sum in it, and a character that is neither a quotation mark nor a backslash is written with
both. -/
theorem formatting_stops_at_first_reference_sample :
    (sample.resolve .debug pruning).outcome = .ok prunedSample ∧
      (Term.sequence (.literal "+" (.bool true)) [.nonTerminal "sum"]).formatOrStop
        (Term.ebnfFormatter .characters) true = .error "sum" ∧
      (Term.characterSet "ANY" [34, 92]).formatOrStop (Term.ebnfFormatter .characters) true =
        .ok (EbnfStyle.characters.text "ANY - [\"\\]") ∧
      prunedSample.transform (.text "sum") (Production.ebnfOrStop .characters) =
        .ok (.error "number") ∧
      prunedSample.transform (.text "number") (Production.ebnfOrStop .characters) =
        .ok (.ok (EbnfStyle.characters.text "number = \x7bDIGIT\x7d1.. ;")) ∧
      prunedSample.transform (.text "comment") (Production.ebnfOrStop .characters) =
        .error (.unknownProduction (.text "comment")) := by
  obtain ⟨hterms, hproductions, hunknown⟩ := formatting_stops_at_first_reference sample_reachable
    (Or.inl resolve_sample) (Term.ebnfFormatter .characters) true (fun _ body => body) .characters
  have hplus : ∀ u ∈ [Term.sequence (.literal "+" (.bool true)) [.nonTerminal "sum"],
      .literal "+" (.bool true)], u.kind ≠ .nonTerminal := by decide
  have hset : ∀ u ∈ (Term.characterSet "ANY" [34, 92]).nodes, u.kind ≠ .nonTerminal := by decide
  have hcomment : "comment" ∉ prunedSample.names := by decide +kernel
  have hnumber : sampleNumber ∈ prunedSample.productions := List.mem_of_getElem? (i := 1) rfl
  refine ⟨resolve_sample, (hterms _).1 _ _ [] rfl hplus, (hterms _).2 hset, ?_, ?_, ?_⟩
  · exact ((hproductions _ (List.mem_of_getElem? (i := 0) rfl)).1 "number" ["sum"] (by
      decide +kernel)).2
  · exact ((hproductions sampleNumber hnumber).2 (by decide +kernel)).2
  · refine hunknown (.text "comment") rfl (fun p hp he => hcomment ?_) _ _
    rw [Value.text.inj he]
    exact List.mem_map_of_mem hp

end Builder

end FormalGrammar
