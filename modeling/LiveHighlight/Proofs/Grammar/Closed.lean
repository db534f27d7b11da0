import LiveHighlight.Proofs.Grammar.Resolution

/-!
# Grammars without open references

A grammar that is described has all states that its elements refer to, so a grammar that is built is `Grammar.Closed`: its start
state and every state that an element refers to are states of it (`closed_of_build`).
-/

namespace LiveHighlight

namespace Grammar

/-- Whether a grammar has the start state and all states that its elements refer to. -/
structure Closed (g : Grammar) : Prop where
  start : g.start < g.states.length
  references : ∀ state ∈ g.states, ∀ production ∈ state.productions, ∀ e ∈ production, ∀ id,
    e.target = .state id → id < g.states.length

/-- A number below the number of states is that of a state. -/
theorem exists_state {g : Grammar} {id : Nat} (h : id < g.states.length) :
    ∃ state ∈ g.states, g.state? id = some state :=
  ⟨g.states[id], List.getElem_mem h, List.getElem?_eq_getElem h⟩

end Grammar

variable {spec : GrammarSpec} {registry : TerminalRegistry} {g : Grammar}

/-- A number that stands for a name is that of a state. -/
theorem lt_length_of_name {id : Nat} {name : String} (h : (g.states.map (·.name))[id]? = some name) : id < g.states.length := by
  obtain ⟨hid, -⟩ := List.getElem?_eq_some_iff.1 h
  rwa [List.length_map] at hid

theorem GrammarSpec.Describes.closed (h : spec.Describes registry g) : g.Closed where
  start := lt_length_of_name h.start
  references state hs production hp e he id ht := by
    obtain ⟨element, helement⟩ := h.becomes hs hp he
    have means := helement.target
    rw [ht] at means
    cases means with
    | state _ _ _ _ declared => exact lt_length_of_name declared

/-- A grammar that is built has no open reference. -/
theorem closed_of_build (h : spec.build registry = .ok g) : g.Closed := (GrammarSpec.build_eq_ok_iff.1 h).2.closed

/-- The colors of a grammar that is built are those of categories. -/
theorem isReserved_of_build (h : spec.build registry = .ok g) {state : State} (hs : state ∈ g.states) {production : Production}
    (hp : production ∈ state.productions) {e : Element} (he : e ∈ production) : e.color.isReserved = false := by
  obtain ⟨element, helement⟩ := (GrammarSpec.build_eq_ok_iff.1 h).2.becomes hs hp he
  rw [helement.color, Color.isReserved_ofNat]

end LiveHighlight
