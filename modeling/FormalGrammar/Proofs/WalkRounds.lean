import FormalGrammar.Proofs.Construction
import FormalGrammar.Proofs.Walk
import Mathlib.Data.List.Flatten
import Mathlib.Data.List.Induction
import Mathlib.Order.Bounds.Basic

/-!
# Walks round by round

One round of a walk takes the first name off the queue. A name that has been
expanded before is dropped; any other one is looked up in the graph and gives
way to those of its references that have not been expanded. On every graph the
rounds come to what the walk comes to, after no more of them than there are
roots and listed references. Over a closed graph no round looks up a name in
vain and no two rounds expand the same name, and the names that have been
expanded in the end are the least set that holds the roots and is closed under
references, in whatever order roots and references are listed.
-/

namespace FormalGrammar.ReferenceGraph

/-- What is known between two rounds of a walk: the names expanded so far, in the order of their
expansion, and the names in the queue. -/
structure Moment where
  reached : List String
  queue : List String

/-- The name that the next round looks up and expands: the first one in the queue, unless it has
been expanded before. -/
def Moment.expands? : Moment → Option String
  | ⟨_, []⟩ => none
  | ⟨reached, name :: _⟩ => if reached.contains name then none else some name

/-- One round of a walk. Nothing happens once the queue is empty. -/
def round (g : ReferenceGraph) : Moment → Except Error Moment
  | ⟨reached, []⟩ => .ok ⟨reached, []⟩
  | ⟨reached, name :: queue⟩ =>
    if reached.contains name then .ok ⟨reached, queue⟩
    else
      match g.lookup name with
      | none => .error (.unknownProduction (.text name))
      | some references =>
        let reached := reached ++ [name]
        .ok ⟨reached, (references.filter fun r => !reached.contains r).reverse ++ queue⟩

/-- What a walk from roots has come to after some rounds. -/
def rounds (g : ReferenceGraph) (roots : List String) : Nat → Except Error Moment
  | 0 => .ok ⟨[], roots⟩
  | n + 1 => g.rounds roots n >>= g.round

/-- All references that a graph lists. -/
def allReferences (g : ReferenceGraph) : List String := g.flatMap (·.2)

/-- The part of a graph whose names have not been expanded. -/
def unexpanded (g : ReferenceGraph) (reached : List String) : ReferenceGraph :=
  g.filter fun entry => !reached.contains entry.1

variable {g : ReferenceGraph} {roots reached : List String} {name : String} {w w' : Moment}
  {m n : Nat}

/-- A name that is expanded next has not been expanded before. -/
theorem Moment.notMem_of_expands? (h : w.expands? = some name) : name ∉ w.reached := by
  obtain ⟨reached, _ | ⟨first, queue⟩⟩ := w
  · cases h
  · rw [expands?] at h
    split at h
    · cases h
    · rename_i hr
      cases h
      exact mt List.contains_iff_mem.mpr hr

/-! ## The rounds come to what the walk comes to -/

/-- Before the first round everything is unexpanded. -/
@[simp] theorem unexpanded_nil (g : ReferenceGraph) : g.unexpanded [] = g := by
  simp [unexpanded]

/-- A name that is expanded leaves the part that is not. -/
theorem unexpanded_concat (g : ReferenceGraph) (reached : List String) (name : String) :
    g.unexpanded (reached ++ [name]) = (g.unexpanded reached).without name := by
  rw [unexpanded, unexpanded, without, List.filter_filter]
  refine List.filter_congr fun entry _ => ?_
  rw [List.contains_append, Bool.not_or, Bool.and_comm, List.contains_cons, List.contains_nil,
    Bool.or_false]
  rfl

/-- A name that has not been expanded is looked up in the unexpanded part as in the whole graph. -/
theorem lookup_unexpanded (h : name ∉ reached) :
    (g.unexpanded reached).lookup name = g.lookup name := by
  induction reached using List.reverseRecOn with
  | nil => rw [unexpanded_nil]
  | append_singleton reached last ih =>
    rw [List.mem_append, List.mem_singleton, not_or] at h
    rw [unexpanded_concat, lookup_without h.2, ih h.1]

/-- What a walk comes to from a moment on. -/
def rest (g : ReferenceGraph) (w : Moment) : Except Error (List String) :=
  walkFrom (g.unexpanded w.reached) w.reached w.queue

/-- A walk goes on from a name that has not been expanded to its references. -/
theorem walkFrom_cons_of_notMem (g : ReferenceGraph) (queue : List String) (hr : name ∉ reached) :
    walkFrom g reached (name :: queue) =
      match g.lookup name with
      | none => .error (.unknownProduction (.text name))
      | some references =>
        walkFrom (g.without name) (reached ++ [name])
          ((references.filter fun r => !(reached ++ [name]).contains r).reverse ++ queue) := by
  rw [walkFrom, if_neg (mt List.contains_iff_mem.mp hr)]
  split
  · rename_i hl
    simp only [hl]
  · rename_i references hl
    simp only [hl]

/-- A round does not change what the walk comes to. -/
theorem round_bind_rest (g : ReferenceGraph) (w : Moment) : g.round w >>= g.rest = g.rest w := by
  obtain ⟨reached, _ | ⟨name, queue⟩⟩ := w
  · rfl
  · by_cases hr : reached.contains name
    · rw [round, if_pos hr, rest, walkFrom, if_pos hr]
      rfl
    · have hm : name ∉ reached := mt List.contains_iff_mem.mpr hr
      rw [round, if_neg hr, rest, walkFrom_cons_of_notMem _ _ hm, lookup_unexpanded hm,
        ← unexpanded_concat]
      cases g.lookup name with
      | none => rfl
      | some references => rfl

/-- After any number of rounds the walk still comes to the same. -/
theorem rounds_bind_rest (g : ReferenceGraph) (roots : List String) (n : Nat) :
    g.rounds roots n >>= g.rest = g.walk roots := by
  induction n with
  | zero =>
    change walkFrom (g.unexpanded []) [] roots = walkFrom g [] roots
    rw [unexpanded_nil]
  | succ n ih =>
    rw [rounds, bind_assoc, funext (round_bind_rest g), ih]

/-! ## What a round does -/

/-- All that a round can do, unless its look-up fails. -/
inductive Round (g : ReferenceGraph) : Moment → Moment → Prop
  | idle {reached : List String} : Round g ⟨reached, []⟩ ⟨reached, []⟩
  | drop {reached queue : List String} {name : String} :
      name ∈ reached → Round g ⟨reached, name :: queue⟩ ⟨reached, queue⟩
  | expand {reached queue references : List String} {name : String} :
      name ∉ reached → g.lookup name = some references →
        Round g ⟨reached, name :: queue⟩ ⟨reached ++ [name],
          (references.filter fun r => !(reached ++ [name]).contains r).reverse ++ queue⟩

/-- A round that does not fail does one of these things. -/
theorem round_of_eq_ok (h : g.round w = .ok w') : g.Round w w' := by
  obtain ⟨reached, _ | ⟨name, queue⟩⟩ := w
  · cases h
    exact .idle
  · by_cases hr : reached.contains name
    · rw [round, if_pos hr] at h
      cases h
      exact .drop (List.contains_iff_mem.mp hr)
    · rw [round, if_neg hr] at h
      split at h
      · cases h
      · rename_i references hl
        cases h
        exact .expand (mt List.contains_iff_mem.mpr hr) hl

/-- What lies between one moment and the next is a round. -/
theorem round_of_rounds (hw : g.rounds roots n = .ok w) (hw' : g.rounds roots (n + 1) = .ok w') :
    g.Round w w' := by
  rw [rounds, hw] at hw'
  exact round_of_eq_ok hw'

/-- Leaving out a name that is listed takes away the references found under it. -/
theorem length_allReferences_without {references : List String}
    (h : g.lookup name = some references) :
    (g.without name).allReferences.length + references.length ≤ g.allReferences.length := by
  obtain ⟨before, after, rfl, _⟩ := List.lookup_eq_some_iff.mp h
  have hle (part : ReferenceGraph) : (part.without name).allReferences.length ≤
      part.allReferences.length := (List.filter_sublist.flatMap _).length_le
  have hb := hle before
  have ha := hle after
  simp only [without, ReferenceGraph.allReferences, List.filter_append, List.flatMap_append,
    List.length_append, List.filter_cons, List.flatMap_cons, bne_self_eq_false,
    Bool.false_eq_true, if_false] at hb ha ⊢
  omega

/-- The rounds that can still come: one for each name in the queue and for each reference that
can still be queued. -/
def load (g : ReferenceGraph) (w : Moment) : Nat :=
  w.queue.length + (g.unexpanded w.reached).allReferences.length

namespace Round

/-- A round that takes a name off the queue leaves fewer to come, although it may put references
there. -/
theorem load_lt (h : g.Round w w') (hq : w.queue ≠ []) : g.load w' < g.load w := by
  cases h with
  | idle => exact absurd rfl hq
  | drop =>
    simp only [load, List.length_cons]
    omega
  | @expand reached queue references name hr hl =>
    rw [← lookup_unexpanded hr] at hl
    have hrefs := length_allReferences_without hl
    have hqueued : (references.filter fun r => !(reached ++ [name]).contains r).length ≤
        references.length := List.length_filter_le _ _
    simp only [load, unexpanded_concat, List.length_append, List.length_reverse, List.length_cons]
    omega

/-- Nothing is put on an empty queue. -/
theorem queue_eq_nil (h : g.Round w w') (hq : w.queue = []) : w'.queue = [] := by
  cases h with
  | idle => rfl
  | drop => cases hq
  | expand => cases hq

/-- A round adds to the names expanded so far the one that it expands, if any. -/
theorem reached_eq (h : g.Round w w') : w'.reached = w.reached ++ w.expands?.toList := by
  cases h with
  | idle => simp [Moment.expands?]
  | drop hr => simp [Moment.expands?, hr]
  | expand hr => simp [Moment.expands?, hr]

/-- A name that a round expands is listed. -/
theorem listed (h : g.Round w w') (he : w.expands? = some name) : name ∈ g.names := by
  cases h with
  | idle => cases he
  | drop hr => simp [Moment.expands?, hr] at he
  | expand hr hl =>
    rw [Moment.expands?, if_neg (mt List.contains_iff_mem.mp hr)] at he
    cases he
    exact mem_names_iff.mpr ⟨_, hl⟩

end Round

/-! ## What the rounds have done -/

/-- As long as the queue is not empty, each round has taken one of those that could come. -/
theorem load_of_rounds (h : g.rounds roots n = .ok w) :
    w.queue = [] ∨ g.load w + n ≤ roots.length + g.allReferences.length := by
  -- a round on an empty queue takes nothing, so the bound is carried only while there is a queue
  induction n generalizing w with
  | zero =>
    cases h
    right
    simp [load]
  | succ n ih =>
    obtain ⟨v, hv, hround⟩ := bind_eq_ok_iff.mp h
    have hstep := round_of_eq_ok hround
    by_cases hq : v.queue = []
    · exact Or.inl (hstep.queue_eq_nil hq)
    · have hlt := hstep.load_lt hq
      have hload := (ih hv).resolve_left hq
      right
      omega

/-- Rounds that did not fail have come through every earlier moment, and what had been expanded by
then has stayed so. -/
theorem exists_rounds_of_le (hmn : m ≤ n) (hn : g.rounds roots n = .ok w') :
    ∃ w, g.rounds roots m = .ok w ∧ w.reached <+: w'.reached := by
  induction n, hmn using Nat.le_induction generalizing w' with
  | base => exact ⟨w', hn, List.prefix_rfl⟩
  | succ n _ ih =>
    obtain ⟨v, hv, hround⟩ := bind_eq_ok_iff.mp hn
    obtain ⟨w, hw, hkept⟩ := ih hv
    rw [(round_of_eq_ok hround).reached_eq]
    exact ⟨w, hw, hkept.trans (List.prefix_append _ _)⟩

/-- No name is expanded in two rounds: since the first of them it would count as expanded. -/
theorem not_lt_of_expands? (hm : g.rounds roots m = .ok w) (hn : g.rounds roots n = .ok w')
    (he : w.expands? = some name) (he' : w'.expands? = some name) : ¬ m < n := by
  intro hlt
  obtain ⟨v, hv, hkept⟩ := exists_rounds_of_le (Nat.succ_le_of_lt hlt) hn
  refine Moment.notMem_of_expands? he' (hkept.subset ?_)
  rw [(round_of_rounds hm hv).reached_eq, he]
  exact List.mem_append_right _ List.mem_cons_self

/-- Where the walk comes to names, no number of rounds fails. -/
theorem exists_rounds_of_walk (h : g.walk roots = .ok reached) (n : Nat) :
    ∃ w, g.rounds roots n = .ok w ∧ g.rest w = .ok reached :=
  bind_eq_ok_iff.mp ((rounds_bind_rest g roots n).trans h)

/-- Where the walk comes to names, the rounds do so once there have been enough of them. -/
theorem rounds_of_walk (h : g.walk roots = .ok reached)
    (hn : roots.length + g.allReferences.length ≤ n) : g.rounds roots n = .ok ⟨reached, []⟩ := by
  obtain ⟨⟨last, queue⟩, hw, hrest⟩ := exists_rounds_of_walk h n
  have hq : queue = [] := by
    rcases load_of_rounds hw with hq | hload
    · exact hq
    · simp only [load] at hload
      exact List.eq_nil_of_length_eq_zero (by omega)
  subst hq
  rw [rest, walkFrom, Except.ok.injEq] at hrest
  subst hrest
  exact hw

/-! ## What a walk comes to -/

/-- Whether names hold roots and, with every name, its references. -/
structure ClosedFrom (g : ReferenceGraph) (roots : List String) (names : Set String) : Prop where
  roots_mem : ∀ r ∈ roots, r ∈ names
  references_mem : ∀ name ∈ names, ∀ references, g.lookup name = some references →
    ∀ r ∈ references, r ∈ names

/-- What roots lead to is the least set that holds them and is closed under references. -/
theorem isLeast_reaches (g : ReferenceGraph) (roots : List String) :
    IsLeast {names : Set String | g.ClosedFrom roots names} {name | g.Reaches roots name} := by
  constructor
  · exact ⟨fun _ hr => Reaches.root hr, fun _ hn _ hl _ hr => Reaches.step hn hl hr⟩
  · intro names hnames name hname
    induction hname with
    | root hr => exact hnames.roots_mem _ hr
    | step _ hl hr ih => exact hnames.references_mem _ ih _ hl _ hr

/-- Whether two graphs list the same names, each with the same references, in whatever order and
however often. -/
structure Agrees (g h : ReferenceGraph) : Prop where
  same_names : ∀ name, name ∈ g.names ↔ name ∈ h.names
  same_references : ∀ name references others, g.lookup name = some references →
    h.lookup name = some others → ∀ r, r ∈ references ↔ r ∈ others

namespace Agrees

variable {h : ReferenceGraph} {references others : List String} {names : Set String}

/-- Agreement of graphs is symmetric. -/
theorem symm (hgh : g.Agrees h) : h.Agrees g where
  same_names name := (hgh.same_names name).symm
  same_references name references others hl ho r :=
    (hgh.same_references name others references ho hl r).symm

/-- What is found under a name in one graph is found there in a graph that agrees with it. -/
theorem exists_lookup (hgh : g.Agrees h) (hl : h.lookup name = some references) :
    ∃ others, g.lookup name = some others ∧ ∀ r ∈ references, r ∈ others := by
  have hlisted : name ∈ g.names := (hgh.same_names name).mpr (mem_names_iff.mpr ⟨references, hl⟩)
  obtain ⟨others, ho⟩ := mem_names_iff.mp hlisted
  exact ⟨others, ho, fun r => (hgh.same_references name others references ho hl r).mpr⟩

/-- A graph that agrees with a closed one is closed. -/
theorem closed (hgh : g.Agrees h) (hg : g.Closed) : h.Closed := by
  intro name references hl r hr
  obtain ⟨others, ho, hsub⟩ := hgh.exists_lookup hl
  exact (hgh.same_names r).mp (hg name others ho r (hsub r hr))

/-- Whether graphs agree is a question about the names that they list. -/
instance (g h : ReferenceGraph) : Decidable (g.Agrees h) :=
  decidable_of_iff (g.names ⊆ h.names ∧ h.names ⊆ g.names ∧ ∀ name ∈ g.names,
    (g.lookup name).getD [] ⊆ (h.lookup name).getD [] ∧
      (h.lookup name).getD [] ⊆ (g.lookup name).getD []) <| by
    constructor
    · rintro ⟨hgh, hhg, hrefs⟩
      refine ⟨fun name => ⟨@hgh name, @hhg name⟩, fun name references others hl ho r => ?_⟩
      have hname := hrefs name (mem_names_iff.mpr ⟨references, hl⟩)
      rw [hl, ho] at hname
      exact ⟨@hname.1 r, @hname.2 r⟩
    · intro hgh
      refine ⟨fun name => (hgh.same_names name).mp, fun name => (hgh.same_names name).mpr,
        fun name hn => ?_⟩
      obtain ⟨references, hl⟩ := mem_names_iff.mp hn
      obtain ⟨others, ho⟩ := mem_names_iff.mp ((hgh.same_names name).mp hn)
      have hname := hgh.same_references name references others hl ho
      rw [hl, ho]
      exact ⟨fun r => (hname r).mp, fun r => (hname r).mpr⟩

/-- What holds roots and their references in one graph does so in a graph that agrees with it. -/
theorem closedFrom (hgh : g.Agrees h) (hroots : ∀ r ∈ others, r ∈ roots)
    (hc : g.ClosedFrom roots names) : h.ClosedFrom others names where
  roots_mem r hr := hc.roots_mem r (hroots r hr)
  references_mem name hn references hl r hr := by
    obtain ⟨others, ho, hsub⟩ := hgh.exists_lookup hl
    exact hc.references_mem name hn others ho r (hsub r hr)

/-- From the same roots graphs that agree lead to the same names. -/
theorem reaches_iff (hgh : g.Agrees h) (hroots : ∀ r, r ∈ roots ↔ r ∈ others) (name : String) :
    g.Reaches roots name ↔ h.Reaches others name := by
  have hsets : {names : Set String | g.ClosedFrom roots names} =
      {names | h.ClosedFrom others names} := by
    ext names
    exact ⟨hgh.closedFrom fun r => (hroots r).mpr, hgh.symm.closedFrom fun r => (hroots r).mp⟩
  have hg := isLeast_reaches g roots
  rw [hsets] at hg
  exact Set.ext_iff.mp (hg.unique (isLeast_reaches h others)) name

end Agrees

/-- Over a closed graph a walk from listed roots does not fail and ends after no more rounds than
there are roots and listed references. No round looks up a name that is not listed, and no two
rounds expand the same name. The names reached are the least set that holds the roots and is closed
under references; they are the same names whatever the order, and the number, of roots and
references. -/
theorem walk_least_closed (hg : g.Closed) (hroots : ∀ r ∈ roots, r ∈ g.names) :
    ∃ reached, g.walk roots = .ok reached ∧ reached.Nodup ∧
      (∀ n, roots.length + g.allReferences.length ≤ n → g.rounds roots n = .ok ⟨reached, []⟩) ∧
      (∀ n, ∃ w, g.rounds roots n = .ok w ∧ g.rest w = .ok reached ∧
        ∀ name, w.expands? = some name → name ∈ g.names) ∧
      (∀ m n w w' name, g.rounds roots m = .ok w → g.rounds roots n = .ok w' →
        w.expands? = some name → w'.expands? = some name → m = n) ∧
      IsLeast {names : Set String | g.ClosedFrom roots names} {name | name ∈ reached} ∧
      ∀ (h : ReferenceGraph) (others : List String), g.Agrees h → (∀ r, r ∈ roots ↔ r ∈ others) →
        ∃ reached', h.walk others = .ok reached' ∧ reached'.Perm reached := by
  obtain ⟨reached, hwalk, hnodup, hmem⟩ := walk_eq_ok hg hroots
  refine ⟨reached, hwalk, hnodup, fun n => rounds_of_walk hwalk, fun n => ?_, ?_, ?_, ?_⟩
  · -- there is a moment after the next round, so its look-up has not failed
    obtain ⟨w, hw, hrest⟩ := exists_rounds_of_walk hwalk n
    obtain ⟨w', hw', _⟩ := exists_rounds_of_walk hwalk (n + 1)
    exact ⟨w, hw, hrest, fun name => (round_of_rounds hw hw').listed⟩
  · intro m n w w' name hm hn he he'
    have hle := not_lt.mp (not_lt_of_expands? hm hn he he')
    have hge := not_lt.mp (not_lt_of_expands? hn hm he' he)
    exact Nat.le_antisymm hge hle
  · rw [show {name | name ∈ reached} = {name | g.Reaches roots name} from Set.ext hmem]
    exact isLeast_reaches g roots
  · intro h others hgh hsame
    obtain ⟨reached', hwalk', hnodup', hmem'⟩ := walk_eq_ok (hgh.closed hg)
      fun r hr => (hgh.same_names r).mp (hroots r ((hsame r).mpr hr))
    refine ⟨reached', hwalk', (List.perm_ext_iff_of_nodup hnodup' hnodup).mpr fun name => ?_⟩
    rw [hmem, hmem', hgh.reaches_iff hsame]

/-- Values are lists and texts. Of the references to values that a list has one is repeated, a list
refers to itself and to values that refer to it, and nothing refers to comments. -/
def valueGraph : ReferenceGraph :=
  [("list", ["value", "list", "value"]), ("value", ["list", "text"]), ("text", []),
    ("comment", ["text"])]

/-- The same references, listed otherwise. -/
def rearrangedValueGraph : ReferenceGraph :=
  [("comment", ["text"]), ("value", ["text", "list"]), ("list", ["list", "value"]), ("text", [])]

/-- A walk that starts at lists, twice, and at texts ends within the nine rounds that roots and
references account for, and does not come to comments. The walk over the rearranged graph comes to
the same names. -/
theorem walk_least_closed_sample :
    valueGraph.Closed ∧ (∀ r ∈ ["list", "text", "list"], r ∈ valueGraph.names) ∧
      ["list", "text", "list"].length + valueGraph.allReferences.length = 9 ∧
      valueGraph.rounds ["list", "text", "list"] 9 = .ok ⟨["list", "value", "text"], []⟩ ∧
      valueGraph.walk ["list", "text", "list"] = .ok ["list", "value", "text"] ∧
      IsLeast {names : Set String | valueGraph.ClosedFrom ["list", "text", "list"] names}
        {name | name ∈ ["list", "value", "text"]} ∧
      valueGraph.Agrees rearrangedValueGraph ∧
      ∃ reached, rearrangedValueGraph.walk ["text", "list"] = .ok reached ∧
        reached.Perm ["list", "value", "text"] := by
  have hclosed : valueGraph.Closed := by decide
  have hroots : ∀ r ∈ ["list", "text", "list"], r ∈ valueGraph.names := by decide
  have hagrees : valueGraph.Agrees rearrangedValueGraph := by decide
  have hnine : valueGraph.rounds ["list", "text", "list"] 9 =
      .ok ⟨["list", "value", "text"], []⟩ := rfl
  obtain ⟨reached, hwalk, _, hrounds, _, _, hleast, hsame⟩ := walk_least_closed hclosed hroots
  have hreached : reached = ["list", "value", "text"] := by
    have h := (hrounds 9 (by decide)).symm.trans hnine
    rw [Except.ok.injEq, Moment.mk.injEq] at h
    exact h.1
  subst hreached
  exact ⟨hclosed, hroots, rfl, hnine, hwalk, hleast, hagrees,
    hsame rearrangedValueGraph ["text", "list"] hagrees (by simp [or_comm])⟩

end FormalGrammar.ReferenceGraph
