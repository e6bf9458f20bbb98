import FormalGrammar.Decimal

/-!
# Terms

A grammar is made of terms of eight kinds. A term is built from values: what a
caller passes as text, flag, bound or operand may be anything, and a literal
keeps the case flag it was given. Terms and values therefore form one family.

A sequence and a choice hold a first term and the rest, so neither is empty.
Their terms can be read one level deep: the `items` of a term are what it adds
to a sequence, its `choices` what it adds to a choice.
-/

namespace FormalGrammar

mutual

/-- What a caller can pass where a term or a setting is expected. -/
inductive Value where
  | null
  | bool (b : Bool)
  | int (n : Int)
  | decimal (x : Decimal)
  | text (s : String)
  | list (values : List Value)
  /-- Fields in the order in which they were given, no two of one name (`Value.NamedOnce`). -/
  | record (fields : List (String × Value))
  | term (t : Term)

/-- A description of words, possibly by way of the productions it refers to. -/
inductive Term where
  /-- The given text, in this case only unless the flag is off. -/
  | literal (text : String) (caseSensitive : Value)
  /-- One character of a named set, apart from the excluded code points, which ascend. -/
  | characterSet (name : String) (excluded : List Nat)
  /-- Whatever the production of this name describes. -/
  | nonTerminal (name : String)
  /-- One term after the other. -/
  | sequence (first : Term) (rest : List Term)
  /-- One of the terms, the first of which is preferred. -/
  | alternatives (first : Term) (rest : List Term)
  /-- The body or nothing. -/
  | optional (body : Term)
  /-- The body, at least `min` times and, if there is a bound, at most `max` times. -/
  | repetition (body : Term) (min : Nat) (max : Option Nat)
  /-- The empty word. -/
  | epsilon

end

instance : Inhabited Value := ⟨.null⟩

instance : Inhabited Term := ⟨.epsilon⟩

/-- The kinds of term. -/
inductive Kind where
  | literal
  | characterSet
  | nonTerminal
  | sequence
  | alternatives
  | optional
  | repetition
  | epsilon
  deriving DecidableEq, Repr

/-- The name of the character set that holds every character. -/
def anyCharacterName : String := "ANY"

namespace Term

/-- Induction over terms, with one hypothesis for all the terms of a list. -/
theorem induct {P : Term → Prop}
    (literal : ∀ s flag, P (.literal s flag))
    (characterSet : ∀ name excluded, P (.characterSet name excluded))
    (nonTerminal : ∀ name, P (.nonTerminal name))
    (sequence : ∀ t ts, P t → (∀ u ∈ ts, P u) → P (.sequence t ts))
    (alternatives : ∀ t ts, P t → (∀ u ∈ ts, P u) → P (.alternatives t ts))
    (optional : ∀ t, P t → P (.optional t))
    (repetition : ∀ t min max, P t → P (.repetition t min max))
    (epsilon : P .epsilon) : ∀ t, P t
  | .literal s flag => literal s flag
  | .characterSet name excluded => characterSet name excluded
  | .nonTerminal name => nonTerminal name
  | .sequence t ts => sequence t ts
      (induct literal characterSet nonTerminal sequence alternatives optional repetition epsilon t)
      fun u _ =>
        induct literal characterSet nonTerminal sequence alternatives optional repetition epsilon u
  | .alternatives t ts => alternatives t ts
      (induct literal characterSet nonTerminal sequence alternatives optional repetition epsilon t)
      fun u _ =>
        induct literal characterSet nonTerminal sequence alternatives optional repetition epsilon u
  | .optional t => optional t
      (induct literal characterSet nonTerminal sequence alternatives optional repetition epsilon t)
  | .repetition t min max => repetition t min max
      (induct literal characterSet nonTerminal sequence alternatives optional repetition epsilon t)
  | .epsilon => epsilon

/-- The terms nested directly inside a term, in order. -/
def children : Term → List Term
  | .sequence t ts | .alternatives t ts => t :: ts
  | .optional t | .repetition t _ _ => [t]
  | .literal .. | .characterSet .. | .nonTerminal _ | .epsilon => []

/-- Induction over terms, with a hypothesis for every child. -/
theorem inductOnChildren {P : Term → Prop} (h : ∀ t, (∀ u ∈ t.children, P u) → P t) (t : Term) :
    P t := by
  induction t using Term.induct with
  | literal | characterSet | nonTerminal | epsilon => exact h _ (by simp [children])
  | sequence t ts ht hts | alternatives t ts ht hts =>
    refine h _ fun u hu => ?_
    rcases List.mem_cons.1 hu with rfl | hu
    · exact ht
    · exact hts u hu
  | optional t ht | repetition t _ _ ht =>
    refine h _ fun u hu => ?_
    rw [List.mem_singleton.1 hu]
    exact ht

/-- The kind of a term. -/
def kind : Term → Kind
  | .literal .. => .literal
  | .characterSet .. => .characterSet
  | .nonTerminal _ => .nonTerminal
  | .sequence .. => .sequence
  | .alternatives .. => .alternatives
  | .optional _ => .optional
  | .repetition .. => .repetition
  | .epsilon => .epsilon

mutual

/-- The number of nodes of a term, itself included. -/
def size : Term → Nat
  | .sequence t ts | .alternatives t ts => 1 + (t.size + totalSize ts)
  | .optional t | .repetition t _ _ => 1 + t.size
  | .literal .. | .characterSet .. | .nonTerminal _ | .epsilon => 1
termination_by structural t => t

/-- The number of nodes of all the terms of a list. -/
def totalSize : List Term → Nat
  | [] => 0
  | t :: ts => t.size + totalSize ts
termination_by structural ts => ts

end

/-- A term has one node more than its children together. -/
theorem size_eq (t : Term) : t.size = 1 + totalSize t.children := by
  cases t <;> simp [size, children, totalSize]

/-- The total size of two lists of terms is the sum of theirs. -/
@[simp]
theorem totalSize_append (ts us : List Term) :
    totalSize (ts ++ us) = totalSize ts + totalSize us := by
  induction ts with
  | nil => simp [totalSize]
  | cons t ts ih => simp [totalSize, ih, Nat.add_assoc]

mutual

/-- The nodes of a term from the top and from left to right, each with all that is below it. -/
def nodes : Term → List Term
  | .sequence t ts => .sequence t ts :: (t.nodes ++ allNodes ts)
  | .alternatives t ts => .alternatives t ts :: (t.nodes ++ allNodes ts)
  | .optional t => .optional t :: t.nodes
  | .repetition t min max => .repetition t min max :: t.nodes
  | .literal s flag => [.literal s flag]
  | .characterSet name excluded => [.characterSet name excluded]
  | .nonTerminal name => [.nonTerminal name]
  | .epsilon => [.epsilon]
termination_by structural t => t

/-- The nodes of the terms of a list. -/
def allNodes : List Term → List Term
  | [] => []
  | t :: ts => t.nodes ++ allNodes ts
termination_by structural ts => ts

end

/-- The nodes of a term are the term itself and the nodes of its children. -/
theorem nodes_eq (t : Term) : t.nodes = t :: allNodes t.children := by
  cases t <;> simp [nodes, children, allNodes]

/-- A term is a node of its own. -/
theorem self_mem_nodes (t : Term) : t ∈ t.nodes := by
  rw [nodes_eq]
  exact List.mem_cons_self

/-- The nodes of a list of terms are those of each of them in order. -/
theorem allNodes_eq_flatMap (ts : List Term) : allNodes ts = ts.flatMap nodes := by
  induction ts with
  | nil => rfl
  | cons t ts ih => rw [allNodes, ih, List.flatMap_cons]

/-- The nodes of two lists of terms follow one another. -/
theorem allNodes_append (ts us : List Term) : allNodes (ts ++ us) = allNodes ts ++ allNodes us := by
  simp only [allNodes_eq_flatMap, List.flatMap_append]

/-- A node below a term is a node of one of its children. -/
theorem mem_nodes_iff {u t : Term} : u ∈ t.nodes ↔ u = t ∨ ∃ c ∈ t.children, u ∈ c.nodes := by
  rw [nodes_eq, allNodes_eq_flatMap, List.mem_cons, List.mem_flatMap]

/-- A node of a child is a node of the term. -/
theorem mem_nodes_of_mem_children {u c t : Term} (hc : c ∈ t.children) (hu : u ∈ c.nodes) :
    u ∈ t.nodes :=
  mem_nodes_iff.mpr (Or.inr ⟨c, hc, hu⟩)

/-- A node of a node of a term is a node of the term. -/
theorem mem_nodes_trans {u v t : Term} (hv : v ∈ u.nodes) (hu : u ∈ t.nodes) : v ∈ t.nodes := by
  induction t using inductOnChildren with
  | h t ih =>
    rcases mem_nodes_iff.mp hu with rfl | ⟨c, hc, hu⟩
    · exact hv
    · exact mem_nodes_of_mem_children hc (ih c hc hu)

/-- What a term adds to a sequence: nothing for the empty word, its own terms if it is a
sequence, and itself otherwise. -/
def items : Term → List Term
  | .sequence t ts => t :: ts
  | .epsilon => []
  | t => [t]

/-- The preferred one of the choices of a term: itself, if it is no choice. -/
def preferred : Term → Term
  | .alternatives t _ => t
  | t => t

/-- The choices of a term after the preferred one. -/
def others : Term → List Term
  | .alternatives _ ts => ts
  | _ => []

/-- What a term adds to a choice: its own choices, if it is one, and itself otherwise. -/
def choices (t : Term) : List Term := t.preferred :: t.others

/-- The term that stands for a list of terms in order. -/
def ofItems : List Term → Term
  | [] => .epsilon
  | [t] => t
  | t :: ts => .sequence t ts

/-- The term that stands for a choice between a term and others. -/
def ofChoices (first : Term) : List Term → Term
  | [] => first
  | t :: ts => .alternatives first (t :: ts)

/-- The items of a list of terms that hold neither sequences nor the empty word are the list. -/
theorem items_ofItems {ts : List Term} (h : ∀ t ∈ ts, t.items = [t]) : (ofItems ts).items = ts := by
  match ts, h with
  | [], _ => rfl
  | [t], h => exact h t (List.mem_singleton_self t)
  | t :: u :: us, _ => rfl

end Term

end FormalGrammar
