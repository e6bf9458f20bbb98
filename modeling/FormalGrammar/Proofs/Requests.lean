import FormalGrammar.Grammar.Request
import FormalGrammar.Proofs.Construction

/-!
# What requests do to a builder

Every request is described by when it is granted and by what it then changes, so
that invariants of builders need not open the operations again. Where a request
for a production is refused, the error says which check failed first.
-/

namespace FormalGrammar

namespace Builder

/-- Nothing is found under a name exactly if no production has it. -/
theorem find?_eq_none_iff {b : Builder} {name : String} :
    b.find? name = none ↔ ∀ p ∈ b.productions, p.name ≠ name := by
  simp [find?, List.find?_eq_none]

/-- A name is not listed exactly if no production has it. -/
theorem not_mem_names_iff {b : Builder} {name : String} :
    name ∉ b.names ↔ ∀ p ∈ b.productions, p.name ≠ name := by
  simp [names]

/-- A choice fails only for a value that is no term. -/
theorem error_of_choiceOf {first : Value} {rest : List Value} {e : Error}
    (h : Term.choiceOf first rest = .error e) :
    ∃ v ∈ first :: rest, (∀ t, v ≠ .term t) ∧ e = .construction (.notATerm v) := by
  have hterms := Value.toTerm_then_toTerms_eq_error_iff.mp h
  obtain ⟨before, v, after, he, hno, rfl⟩ := Value.toTerms_eq_error_iff.mp hterms
  refine ⟨v, ?_, hno, rfl⟩
  rw [he]
  exact List.mem_append_right _ List.mem_cons_self

/-- There is a choice exactly if all that is given are terms. -/
theorem exists_choiceOf_iff {first : Value} {rest : List Value} :
    (∃ t, Term.choiceOf first rest = .ok t) ↔ ∀ v ∈ first :: rest, ∃ t, v = .term t := by
  constructor
  · rintro ⟨t, ht⟩
    obtain ⟨u, us, rfl, rfl, _⟩ := Term.choiceOf_eq_ok_iff.mp ht
    exact List.forall_mem_cons.mpr ⟨⟨u, rfl⟩, List.forall_mem_map.mpr fun t _ => ⟨t, rfl⟩⟩
  · intro hall
    cases hd : Term.choiceOf first rest with
    | ok t => exact ⟨t, rfl⟩
    | error e =>
      obtain ⟨v, hv, hno, _⟩ := error_of_choiceOf hd
      obtain ⟨t, ht⟩ := hall v hv
      exact absurd ht (hno t)

/-- A builder is started exactly for a language with a name, and then it is empty and open. -/
theorem start_eq_ok_iff {language header : Value} {b : Builder} :
    start language header = .ok b ↔
      ∃ name, language = .text name ∧ name ≠ "" ∧ b = ⟨name, header, [], false⟩ := by
  simp only [start, bind_eq_ok_iff, Value.toName_eq_ok_iff, pure, Except.pure, Except.ok.injEq,
    and_assoc, eq_comm (b := b)]

/-- A production is added exactly if the builder is open, the name is one and not taken, and all
arguments are terms; it then comes last and nothing else changes. -/
theorem add_eq_ok_iff {b after : Builder} {name first : Value} {rest : List Value}
    {location : String} :
    b.add name first rest location = .ok after ↔
      b.built = false ∧ ∃ s definition, name = .text s ∧ s ≠ "" ∧
        (∀ p ∈ b.productions, p.name ≠ s) ∧ Term.choiceOf first rest = .ok definition ∧
        after = { b with productions := b.productions ++ [⟨s, definition, location⟩] } := by
  cases hb : b.built with
  | true => simp [add, hb, reject]
  | false =>
    simp only [add, hb, Bool.false_eq_true, if_false, bind_eq_ok_iff, Value.toName_eq_ok_iff,
      true_and, and_assoc, exists_and_left, ← find?_eq_none_iff]
    refine exists_congr fun s => and_congr_right fun _ => and_congr_right fun _ => ?_
    cases b.find? s with
    | some existing => simp [reject]
    | none => simp only [bind_eq_ok_iff, pure, Except.pure, Except.ok.injEq, eq_comm (b := after),
        true_and]

/-- A request for a production is granted exactly if the builder is open, the name is one and not
taken, and all that is given are terms. -/
theorem exists_add_iff {b : Builder} {name first : Value} {rest : List Value}
    {location : String} :
    (∃ after, b.add name first rest location = .ok after) ↔
      b.built = false ∧ (∃ s, name = .text s ∧ s ≠ "" ∧ s ∉ b.names) ∧
        ∀ v ∈ first :: rest, ∃ t, v = .term t := by
  simp only [add_eq_ok_iff, ← not_mem_names_iff, ← exists_choiceOf_iff]
  constructor
  · rintro ⟨_, hopen, s, t, hname, hs, hn, ht, _⟩
    exact ⟨hopen, ⟨s, hname, hs, hn⟩, t, ht⟩
  · rintro ⟨hopen, ⟨s, hname, hs, hn⟩, t, ht⟩
    exact ⟨_, hopen, s, t, hname, hs, hn, ht, rfl⟩

/-- After the grammar was built every request for a production is refused as such. -/
theorem add_of_built {b : Builder} (h : b.built = true) (name first : Value) (rest : List Value)
    (location : String) :
    b.add name first rest location = reject (.productionsClosed name b.language) := by
  simp only [add, h, if_true]

/-- An open builder refuses a name that is none, a name that is taken, or what is no term. -/
theorem error_of_add {b : Builder} {name first : Value} {rest : List Value} {location : String}
    {e : Error} (hopen : b.built = false) (h : b.add name first rest location = .error e) :
    e = .construction (.productionName name) ∨
      (∃ s existing, name = .text s ∧ s ≠ "" ∧ b.find? s = some existing ∧
        e = .construction (.duplicate s existing.location location)) ∨
      ∃ v ∈ first :: rest, e = .construction (.notATerm v) := by
  simp only [add, hopen, Bool.false_eq_true, if_false] at h
  rcases bind_eq_error_iff.mp h with hs | ⟨s, hs, hrest⟩
  · exact Or.inl (Value.error_of_toName hs)
  obtain ⟨rfl, hne⟩ := Value.toName_eq_ok_iff.mp hs
  right
  cases hf : b.find? s with
  | some existing =>
    simp only [hf, reject, Except.error.injEq] at hrest
    exact Or.inl ⟨s, existing, rfl, hne, hf, hrest.symm⟩
  | none =>
    right
    rw [hf] at hrest
    rcases bind_eq_error_iff.mp hrest with hd | ⟨definition, _, hmade⟩
    · obtain ⟨v, hv, _, he⟩ := error_of_choiceOf hd
      exact ⟨v, hv, he⟩
    · cases hmade

/-- The second production of a name is refused, with the locations of both, exactly if the builder
is open and has one of that name. -/
theorem add_eq_duplicate_iff {b : Builder} {name first : Value} {rest : List Value}
    {location s existing repeated : String} :
    b.add name first rest location = reject (.duplicate s existing repeated) ↔
      b.built = false ∧ name = .text s ∧ s ≠ "" ∧ repeated = location ∧
        ∃ p, b.find? s = some p ∧ p.location = existing := by
  constructor
  · intro h
    cases hb : b.built with
    | true => simp [add_of_built hb, reject] at h
    | false =>
      rcases error_of_add hb h with he | ⟨_, p, hname, hne, hp, he⟩ | ⟨_, _, he⟩ <;> cases he
      exact ⟨rfl, hname, hne, rfl, p, hp, rfl⟩
  · rintro ⟨hb, rfl, hne, rfl, p, hp, rfl⟩
    have hs : (Value.text s).toName .productionName = .ok s :=
      Value.toName_eq_ok_iff.mpr ⟨rfl, hne⟩
    simp only [add, hb, Bool.false_eq_true, if_false, hs, hp, bind, Except.bind]

/-- The header is changed exactly if the builder is open, and nothing else is. -/
theorem setHeader_eq_ok_iff {b after : Builder} {header : Value} :
    b.setHeader header = .ok after ↔ b.built = false ∧ after = { b with header } := by
  cases hb : b.built <;> simp [setHeader, hb, reject, eq_comm]

/-- After the grammar was built every request for a header is refused as such. -/
theorem setHeader_of_built {b : Builder} (h : b.built = true) (header : Value) :
    b.setHeader header = reject (.headerClosed b.language) := by
  simp only [setHeader, h, if_true]

/-- Building answers what resolving answers. -/
@[simp] theorem build_snd (threshold : Level) (settings : List Setting) (b : Builder) :
    (b.build threshold settings).2 = b.resolve threshold settings := by
  simp only [build]
  split <;> rfl

/-- What a request leaves a builder as, and what the builder answers. A request that is refused
changes nothing; one that is granted does what its kind says, under the conditions for it. -/
inductive Effect (threshold : Level) (b : Builder) : Request → Builder → Reply → Prop
  | refused {request : Request} {reply : Reply} {error : Error} :
      reply.error? = some error → Effect threshold b request b reply
  | added {name location : String} {first : Value} {rest : List Value} {definition : Term} :
      b.built = false → name ≠ "" → (∀ p ∈ b.productions, p.name ≠ name) →
      Term.choiceOf first rest = .ok definition →
      Effect threshold b (.add (.text name) first rest location)
        { b with productions := b.productions ++ [⟨name, definition, location⟩] }
        (.changed (.ok ()))
  | headed {header : Value} :
      b.built = false → Effect threshold b (.setHeader header) { b with header } (.changed (.ok ()))
  | built {settings : List Setting} {g : Grammar} :
      (b.resolve threshold settings).outcome = .ok g →
      Effect threshold b (.build settings) { b with built := true }
        (.resolution (b.resolve threshold settings))
  | resolved {settings : List Setting} {g : Grammar} :
      (b.resolve threshold settings).outcome = .ok g →
      Effect threshold b (.resolve settings) b (.resolution (b.resolve threshold settings))

/-- Every request has its effect. -/
theorem effect_step (threshold : Level) (b : Builder) (request : Request) :
    Effect threshold b request (b.step threshold request).1 (b.step threshold request).2 := by
  cases request with
  | add name first rest location =>
    cases ha : b.add name first rest location with
    | error e =>
      simp only [step, ha, adopt]
      exact .refused rfl
    | ok after =>
      obtain ⟨hopen, s, definition, rfl, hs, hfree, hd, rfl⟩ := add_eq_ok_iff.mp ha
      simp only [step, ha, adopt]
      exact .added hopen hs hfree hd
  | setHeader header =>
    cases hh : b.setHeader header with
    | error e =>
      simp only [step, hh, adopt]
      exact .refused rfl
    | ok after =>
      obtain ⟨hopen, rfl⟩ := setHeader_eq_ok_iff.mp hh
      simp only [step, hh, adopt]
      exact .headed hopen
  | build settings =>
    cases ho : (b.resolve threshold settings).outcome with
    | error e =>
      have he : (Reply.resolution (b.resolve threshold settings)).error? = some e := by
        simp only [Reply.error?, ho]
      simp only [step, build, ho]
      exact .refused he
    | ok g =>
      simp only [step, build, ho]
      exact .built ho
  | resolve settings =>
    cases ho : (b.resolve threshold settings).outcome with
    | error e =>
      have he : (Reply.resolution (b.resolve threshold settings)).error? = some e := by
        simp only [Reply.error?, ho]
      exact .refused he
    | ok g => exact .resolved ho

end Builder

end FormalGrammar
