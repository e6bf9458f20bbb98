import FormalGrammar.Proofs.Outcome
import FormalGrammar.Proofs.SameReferences

/-!
# Only the references decide

Two builders whose productions have the same references resolve alike: to
grammars with the same root and the same names, or to the same kind of error
about the same names. Neither the order of the productions nor the order, number
or depth of the references in a definition makes a difference.
-/

namespace FormalGrammar.Builder

open Production (Closed SameReferences)

/-- Whether two resolutions end the same way: with grammars of the same root and the same names, or
with errors of the same kind about the same names. -/
def EndAlike : Except Error Grammar → Except Error Grammar → Prop
  | .ok g, .ok h => g.root? = h.root? ∧ ∀ name, name ∈ g.names ↔ name ∈ h.names
  | .error (.resolution (.undefined missing)), .error (.resolution (.undefined others)) =>
    ∀ pair, pair ∈ missing ↔ pair ∈ others
  | .error (.resolution (.rootless _)), .error (.resolution (.rootless _)) => True
  | .error (.resolution (.unused names)), .error (.resolution (.unused others)) =>
    ∀ name, name ∈ names ↔ name ∈ others
  | _, _ => False

variable {b c : Builder} {settings : List Setting}

/-- Grammars of what is kept have the root of the builder. -/
theorem root?_grammarOf_kept : (b.grammarOf (b.kept settings)).root? = b.names.head? := by
  rw [root?_grammarOf, head?_kept, names, List.head?_map]

section SameReferences

variable (h : SameReferences b.productions c.productions)

include h

/-- Productions with the same references have the same names. -/
theorem mem_names_iff_of_sameReferences (name : String) : name ∈ b.names ↔ name ∈ c.names := by
  rw [names, names, List.mem_map, List.mem_map]
  exact h.mem_names_iff

/-- Productions with the same references leave the same names unused. -/
theorem mem_unused_iff_of_sameReferences (name : String) :
    name ∈ b.unused settings ↔ name ∈ c.unused settings := by
  rw [mem_unused, mem_unused, mem_names_iff_of_sameReferences h, Uses, Uses, h.inUse_iff]

/-- Productions with the same references miss the same. -/
theorem mem_missing_iff_of_sameReferences (pair : String × String) :
    pair ∈ (ReferenceGraph.ofProductions b.productions).missing ↔
      pair ∈ (ReferenceGraph.ofProductions c.productions).missing := by
  obtain ⟨referrer, name⟩ := pair
  have hsplit (productions : List Production) :
      (referrer, name) ∈ (ReferenceGraph.ofProductions productions).missing ↔
        (∃ p ∈ productions, p.name = referrer ∧ p.RefersTo name) ∧
          ¬ ∃ q ∈ productions, q.name = name := by
    rw [ReferenceGraph.mem_missing_ofProductions]
    constructor
    · rintro ⟨p, hp, hn, hr, hno⟩
      exact ⟨⟨p, hp, hn, hr⟩, fun ⟨q, hq, he⟩ => hno q hq he⟩
    · rintro ⟨⟨p, hp, hn, hr⟩, hno⟩
      exact ⟨p, hp, hn, hr, fun q hq he => hno ⟨q, hq, he⟩⟩
  rw [hsplit, hsplit, h.refersTo_iff, h.mem_names_iff]

/-- Verdicts on productions with the same references end the same way. -/
theorem verdict_endAlike : EndAlike (b.verdict settings) (c.verdict settings) := by
  by_cases hroot : b.productions = [] → .resolution .allowRootless ∈ settings
  · have hroot' : c.productions = [] → .resolution .allowRootless ∈ settings := fun he =>
      hroot (h.eq_nil_iff.mpr he)
    have hunused : b.unused settings = [] ↔ c.unused settings = [] := by
      simp only [List.eq_nil_iff_forall_not_mem, mem_unused_iff_of_sameReferences h]
    by_cases hfine : .resolution .skipUnused ∈ settings ∨ .resolution .ignoreUnused ∈ settings ∨
        b.unused settings = []
    · have hfine' := hfine
      rw [unused_eq_nil_iff] at hfine
      rw [hunused, unused_eq_nil_iff] at hfine'
      rw [verdict_eq_ok_iff.mpr ⟨hroot, hfine, rfl⟩, verdict_eq_ok_iff.mpr ⟨hroot', hfine', rfl⟩]
      refine ⟨?_, fun name => ?_⟩
      · rw [root?_grammarOf_kept, root?_grammarOf_kept]
        exact h.first
      · refine mem_names_kept.trans (Iff.trans ?_ mem_names_kept.symm)
        rw [mem_names_iff_of_sameReferences h, Uses, Uses, h.inUse_iff]
    · rw [not_or, not_or] at hfine
      obtain ⟨hskip, hignore, hne⟩ := hfine
      rw [verdict_eq_unused_iff.mpr ⟨hskip, hignore, rfl, hne⟩,
        verdict_eq_unused_iff.mpr ⟨hskip, hignore, rfl, mt hunused.mpr hne⟩]
      exact mem_unused_iff_of_sameReferences h
  · rw [Classical.not_imp] at hroot
    obtain ⟨he, hno⟩ := hroot
    rw [verdict_eq_rootless_iff.mpr ⟨he, hno, rfl⟩,
      verdict_eq_rootless_iff.mpr ⟨h.eq_nil_iff.mp he, hno, rfl⟩]
    trivial

end SameReferences

/-- Builders that begin with the same production, have productions of the same names, and have them
refer to the same names end in the same way under all settings. -/
theorem resolve_endAlike (hb : b.Reachable) (hc : c.Reachable)
    (hfirst : b.names.head? = c.names.head?) (hnames : ∀ name, name ∈ b.names ↔ name ∈ c.names)
    (hrefs : ∀ p ∈ b.productions, ∀ q ∈ c.productions, p.name = q.name →
      ∀ name, .nonTerminal name ∈ p.definition.nodes ↔ .nonTerminal name ∈ q.definition.nodes)
    (threshold : Level) (hs : Setting.Hashable settings) :
    EndAlike (b.resolve threshold settings).outcome (c.resolve threshold settings).outcome := by
  have h : SameReferences b.productions c.productions := .of_names hfirst hnames hrefs
  by_cases hclosed : Closed b.productions
  · rw [resolve_of_closed hb.wellFormed hs hclosed,
      resolve_of_closed hc.wellFormed hs (h.closed hclosed)]
    exact verdict_endAlike h
  · rw [resolve_of_not_closed hs hclosed, resolve_of_not_closed hs (mt h.symm.closed hclosed)]
    exact mem_missing_iff_of_sameReferences h

/-- The references of the sample in another order, some of them deeper and some of them twice. -/
def rearranged : Builder :=
  ((Builder.mk "products" .null [] false).run .debug
    [.add (.text "sum") (.term (.optional (.nonTerminal "sum"))) [.term (.nonTerminal "number"),
        .term (.nonTerminal "sum")] "other:1",
      .add (.text "blank") (.term .epsilon) [] "other:2",
      .add (.text "note") (.term (.repetition (.optional (.nonTerminal "comment")) 0 none)) []
        "other:3",
      .add (.text "number") (.term (.literal "0" (.bool true))) [] "other:4",
      .add (.text "comment") (.term (.nonTerminal "note")) [.term (.nonTerminal "note")]
        "other:5"]).1

/-- The rearranged sample is pruned to the same names under the same root. -/
theorem resolve_endAlike_sample :
    sample.Reachable ∧ rearranged.Reachable ∧ sample.names.head? = rearranged.names.head? ∧
      (∀ name, name ∈ sample.names ↔ name ∈ rearranged.names) ∧
      (∀ p ∈ sample.productions, ∀ q ∈ rearranged.productions, p.name = q.name →
        ∀ name, .nonTerminal name ∈ p.definition.nodes ↔ .nonTerminal name ∈ q.definition.nodes) ∧
      Setting.Hashable pruning ∧
      ∃ h, (rearranged.resolve .debug pruning).outcome = .ok h ∧ h.root? = some "sum" ∧
        ∀ name, name ∈ h.names ↔ name ∈ ["sum", "number", "blank"] := by
  have hreachable : rearranged.Reachable :=
    (Reachable.start (start_eq_ok_iff.mpr ⟨"products", rfl, by decide, rfl⟩)).run .debug _
  have hnames : sample.names.Perm rearranged.names := by decide
  have hreferences : ∀ p ∈ sample.productions, ∀ q ∈ rearranged.productions, p.name = q.name →
      p.references.Perm q.references := by
    decide +kernel
  have hrefs : ∀ p ∈ sample.productions, ∀ q ∈ rearranged.productions, p.name = q.name →
      ∀ name, .nonTerminal name ∈ p.definition.nodes ↔ .nonTerminal name ∈ q.definition.nodes := by
    intro p hp q hq hn name
    rw [← Term.mem_references_iff, ← Term.mem_references_iff]
    exact (hreferences p hp q hq hn).mem_iff
  have hs : Setting.Hashable pruning := by simp [Setting.Hashable, pruning]
  have hend := resolve_endAlike sample_reachable hreachable rfl (fun _ => hnames.mem_iff) hrefs
    .debug hs
  rw [resolve_sample] at hend
  refine ⟨sample_reachable, hreachable, rfl, fun _ => hnames.mem_iff, hrefs, hs, ?_⟩
  cases ho : (rearranged.resolve .debug pruning).outcome with
  | error e =>
    rw [ho] at hend
    exact hend.elim
  | ok h =>
    rw [ho] at hend
    exact ⟨h, rfl, hend.1.symm, fun name => (hend.2 name).symm⟩

end FormalGrammar.Builder
