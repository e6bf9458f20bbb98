import FormalGrammar.Proofs.Usage

/-!
# Productions with the same references

Two lists of productions can say the same about which name refers to which,
although they are ordered otherwise, are written elsewhere, or refer to a name
in another order, another number of times or another place of a definition.
Whether they are closed, what is of top level and what is in use is then the
same for both.
-/

namespace FormalGrammar.Production

/-- Whether two productions have the same name and refer to the same names. -/
def Counterpart (p q : Production) : Prop :=
  p.name = q.name ∧ ∀ name, p.RefersTo name ↔ q.RefersTo name

/-- Whether two lists of productions begin with the same name and every production of one has a
counterpart in the other. -/
structure SameReferences (productions others : List Production) : Prop where
  first : (productions.map (·.name)).head? = (others.map (·.name)).head?
  counterpart : ∀ p ∈ productions, ∃ q ∈ others, p.Counterpart q
  counterpart' : ∀ q ∈ others, ∃ p ∈ productions, p.Counterpart q

namespace SameReferences

variable {productions others : List Production} {furtherRoots : Prop} {name : String}

/-- Names that agree as a set, with references that agree as a set for each of them, are the same
references. -/
theorem of_names (hfirst : (productions.map (·.name)).head? = (others.map (·.name)).head?)
    (hnames : ∀ name, name ∈ productions.map (·.name) ↔ name ∈ others.map (·.name))
    (hrefs : ∀ p ∈ productions, ∀ q ∈ others, p.name = q.name →
      ∀ name, p.RefersTo name ↔ q.RefersTo name) :
    SameReferences productions others where
  first := hfirst
  counterpart p hp := by
    obtain ⟨q, hq, hn⟩ := List.mem_map.mp ((hnames p.name).mp (List.mem_map_of_mem hp))
    exact ⟨q, hq, hn.symm, hrefs p hp q hq hn.symm⟩
  counterpart' q hq := by
    obtain ⟨p, hp, hn⟩ := List.mem_map.mp ((hnames q.name).mpr (List.mem_map_of_mem hq))
    exact ⟨p, hp, hn, hrefs p hp q hq hn⟩

/-- To have the same references is symmetric. -/
theorem symm (h : SameReferences productions others) : SameReferences others productions where
  first := h.first.symm
  counterpart q hq := by
    obtain ⟨p, hp, hn, hr⟩ := h.counterpart' q hq
    exact ⟨p, hp, hn.symm, fun name => (hr name).symm⟩
  counterpart' p hp := by
    obtain ⟨q, hq, hn, hr⟩ := h.counterpart p hp
    exact ⟨q, hq, hn.symm, fun name => (hr name).symm⟩

/-- Either both lists have productions or none has. -/
theorem eq_nil_iff (h : SameReferences productions others) :
    productions = [] ↔ others = [] := by
  rw [← List.map_eq_nil_iff (f := (·.name)), ← List.head?_eq_none_iff, h.first,
    List.head?_eq_none_iff, List.map_eq_nil_iff]

/-- A name is in the one list exactly if it is in the other. -/
theorem mem_names_iff (h : SameReferences productions others) :
    (∃ p ∈ productions, p.name = name) ↔ ∃ q ∈ others, q.name = name := by
  constructor
  · rintro ⟨p, hp, rfl⟩
    obtain ⟨q, hq, hn, _⟩ := h.counterpart p hp
    exact ⟨q, hq, hn.symm⟩
  · rintro ⟨q, hq, rfl⟩
    obtain ⟨p, hp, hn, _⟩ := h.counterpart' q hq
    exact ⟨p, hp, hn⟩

/-- One name refers to another in the one list exactly if it does in the other. -/
theorem refersTo_iff (h : SameReferences productions others) {referrer : String} :
    (∃ p ∈ productions, p.name = referrer ∧ p.RefersTo name) ↔
      ∃ q ∈ others, q.name = referrer ∧ q.RefersTo name := by
  constructor
  · rintro ⟨p, hp, rfl, hr⟩
    obtain ⟨q, hq, hn, hrefs⟩ := h.counterpart p hp
    exact ⟨q, hq, hn.symm, (hrefs name).mp hr⟩
  · rintro ⟨q, hq, rfl, hr⟩
    obtain ⟨p, hp, hn, hrefs⟩ := h.counterpart' q hq
    exact ⟨p, hp, hn, (hrefs name).mpr hr⟩

/-- If the one list is closed, so is the other. -/
theorem closed (h : SameReferences productions others) (hc : Closed productions) :
    Closed others := by
  intro q hq name hr
  obtain ⟨p, hp, _, hrefs⟩ := h.counterpart' q hq
  exact h.mem_names_iff.mp (hc p hp name ((hrefs name).mpr hr))

/-- What is of top level in the one list is so in the other. -/
theorem topLevel (h : SameReferences productions others) (ht : TopLevel productions name) :
    TopLevel others name := by
  intro q hq hr
  obtain ⟨p, hp, hn, hrefs⟩ := h.counterpart' q hq
  exact hn.symm.trans (ht p hp ((hrefs name).mpr hr))

/-- What is in use in the one list is so in the other: roots are roots of both, and every way from
them goes over counterparts. -/
theorem inUse (h : SameReferences productions others) (hu : InUse productions furtherRoots name) :
    InUse others furtherRoots name := by
  induction hu with
  | @first p hp =>
    have hfirst := h.first
    rw [List.head?_map, List.head?_map, hp, Option.map_some, eq_comm,
      Option.map_eq_some_iff] at hfirst
    obtain ⟨q, hq, hn⟩ := hfirst
    exact hn ▸ .first hq
  | @topLevel p hf hp ht =>
    obtain ⟨q, hq, hn, _⟩ := h.counterpart p hp
    rw [hn] at ht ⊢
    exact .topLevel hf hq (h.topLevel ht)
  | @reference p name _ hp hr ih =>
    obtain ⟨q, hq, hn, hrefs⟩ := h.counterpart p hp
    rw [hn] at ih
    exact .reference ih hq ((hrefs name).mp hr)

/-- A name is in use in the one list exactly if it is in the other. -/
theorem inUse_iff (h : SameReferences productions others) :
    InUse productions furtherRoots name ↔ InUse others furtherRoots name :=
  ⟨h.inUse, h.symm.inUse⟩

end SameReferences

end FormalGrammar.Production
