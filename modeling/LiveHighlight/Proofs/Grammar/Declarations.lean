import LiveHighlight.Proofs.Parse.Faults
import LiveHighlight.Proofs.Parse.Lockstep

/-!
# What declarations matter

A description gives states names, and the grammar that is built refers to them by their places. Where a state stands among the
declarations has no say, and neither has a state that the start state does not lead to (`GrammarSpec.Reaches`): descriptions that
differ in nothing else build grammars whose parses are recorded alike (`GrammarSpec.declarations_irrelevant`). The relation that
carries the runs is between states of one name that the start state leads to (`DeclarationAux.SameName`).
-/

namespace LiveHighlight

namespace GrammarSpec

/-- The names that the start state leads to: its own, and those that elements of states refer to that it leads to. -/
inductive Reaches (spec : GrammarSpec) : String → Prop
  | start : Reaches spec (spec.start.getD defaultStart)
  | reference {state : StateSpec} {elements : List ElementSpec} {e : ElementSpec} {name : String} (reached : Reaches spec state.name)
    (declared : state ∈ spec.states) (production : elements ∈ state.productions) (element : e ∈ elements)
    (refers : e.state = some name) : Reaches spec name

/-- Whether the states that only one of two descriptions declares are ones that its start state does not lead to. -/
structure DiffersUnreached (spec spec' : GrammarSpec) : Prop where
  left : ∀ state ∈ spec.states, state ∉ spec'.states → ¬spec.Reaches state.name
  right : ∀ state ∈ spec'.states, state ∉ spec.states → ¬spec'.Reaches state.name

end GrammarSpec

namespace DeclarationAux

variable {spec spec' : GrammarSpec} {registry : TerminalRegistry} {g g' : Grammar}

/-! ## Declarations in another order -/

/-- Descriptions that declare the same states in another order are well-formed alike. -/
theorem wellFormed_of_perm (hstart : spec.start = spec'.start) (h : spec.states.Perm spec'.states)
    (hwell : spec.WellFormed registry) : spec'.WellFormed registry := by
  have hnames : (spec.states.map (·.name)).Perm (spec'.states.map (·.name)) := h.map _
  refine ⟨hnames.nodup_iff.1 hwell.distinct, ?_, fun state hs => hwell.productions state (h.mem_iff.2 hs), ?_⟩
  · rw [← hstart]
    exact hnames.mem_iff.1 hwell.start
  · intro state hs production hp e he
    obtain ⟨target, means⟩ := hwell.elements state (h.mem_iff.2 hs) production hp e he
    cases means with
    | terminal hcls hstate plain registered accepted limited =>
      exact ⟨_, .terminal hcls hstate plain registered accepted limited⟩
    | state hcls hstate hmin hmax declared =>
      obtain ⟨id, hid⟩ := List.mem_iff_getElem?.1 (hnames.mem_iff.1 (List.mem_of_getElem? declared))
      exact ⟨_, .state hcls hstate hmin hmax hid⟩

/-- States in another order are the same states. -/
theorem differsUnreached_of_perm (h : spec.states.Perm spec'.states) : spec.DiffersUnreached spec' :=
  ⟨fun _ hs hne => absurd (h.mem_iff.1 hs) hne, fun _ hs hne => absurd (h.mem_iff.2 hs) hne⟩

/-! ## States of one name -/

/-- Visits with the same budget of states of one name that the start state leads to. -/
def SameName (spec : GrammarSpec) (g g' : Grammar) (v v' : Visit) : Prop :=
  v.depth = v'.depth ∧
    ∃ name, spec.Reaches name ∧ (g.states.map (·.name))[v.id]? = some name ∧ (g'.states.map (·.name))[v'.id]? = some name

/-- Elements that are shown alike in the same color. -/
def SameLooks (e e' : Element) : Prop := e.color = e'.color ∧ e.visible = e'.visible

/-- The state of a name is one that is described under that name. -/
theorem exists_becomes (h : spec.Describes registry g) {id : Nat} {name : String}
    (hname : (g.states.map (·.name))[id]? = some name) :
    ∃ state ∈ spec.states, ∃ built, state.name = name ∧ g.state? id = some built ∧
      state.Becomes registry (g.states.map (·.name)) built := by
  rw [List.getElem?_map, Option.map_eq_some_iff] at hname
  obtain ⟨built, hbuilt, rfl⟩ := hname
  obtain ⟨state, hstate, hbecomes⟩ := LockstepAux.getElem?_alike h.states.flip hbuilt
  exact ⟨state, List.mem_of_getElem? hstate, built, hbecomes.name.symm, hbuilt, hbecomes⟩

/-- A state that is reached is the one that the other description declares under its name. -/
theorem state_eq (h : spec.DiffersUnreached spec') (hdistinct : (spec'.states.map (·.name)).Nodup) {state state' : StateSpec}
    (hs : state ∈ spec.states) (hs' : state' ∈ spec'.states) (hname : state.name = state'.name)
    (hreached : spec.Reaches state.name) : state = state' := by
  have hmem : state ∈ spec'.states := by
    by_contra hne
    exact h.left state hs hne hreached
  exact List.inj_on_of_nodup_map hdistinct hmem hs' hname

/-- Items that belong to the same items belong together. -/
theorem forall₂_of_both {α β γ : Type} {A : α → β → Prop} {B : α → γ → Prop} {C : β → γ → Prop} {xs : List α} {ys : List β}
    {zs : List γ} (hy : List.Forall₂ A xs ys) (hz : List.Forall₂ B xs zs) (h : ∀ x ∈ xs, ∀ y z, A x y → B x z → C y z) :
    List.Forall₂ C ys zs := by
  induction hy generalizing zs with
  | nil =>
    cases hz
    exact .nil
  | cons hxy _ ih =>
    cases hz with
    | cons hxz hrest =>
      exact .cons (h _ (.head _) _ _ hxy hxz) (ih hrest fun x hx => h x (.tail _ hx))

/-- What an element of a state that is reached stands for in two grammars matches alike, and is shown alike. -/
theorem alike_of_means {state : StateSpec} (hreached : spec.Reaches state.name) (hs : state ∈ spec.states)
    {elements : List ElementSpec} (hp : elements ∈ state.productions) {element : ElementSpec} (he : element ∈ elements)
    {target target' : Target} (means : element.Means registry (g.states.map (·.name)) target)
    (means' : element.Means registry (g'.states.map (·.name)) target') (depth : Nat) :
    target.Alike (SameName spec g g') depth depth target' ∧ element.isShown target = element.isShown target' := by
  cases means with
  | terminal hcls hstate plain registered accepted limited =>
    cases means' with
    | terminal hcls' _ _ registered' accepted' limited' =>
      obtain rfl := Option.some.inj (hcls.symm.trans hcls')
      obtain rfl := Option.some.inj (registered.symm.trans registered')
      obtain rfl := Except.ok.inj (accepted.symm.trans accepted')
      obtain rfl := Except.ok.inj (limited.symm.trans limited')
      exact ⟨.terminal _, rfl⟩
    | state hcls' => cases hcls.symm.trans hcls'
  | state hcls hstate hmin hmax declared =>
    cases means' with
    | terminal hcls' => cases hcls.symm.trans hcls'
    | state _ hstate' _ _ declared' =>
      obtain rfl := Option.some.inj (hstate.symm.trans hstate')
      exact ⟨.state ⟨rfl, _, .reference hreached hs hp he hstate, declared, declared'⟩, rfl⟩

/-- Grammars that are described alike, but for the places of states and for states that are not reached, match alike. -/
theorem corresponds (h : spec.DiffersUnreached spec') (hwell : spec'.WellFormed registry) (hg : spec.Describes registry g)
    (hg' : spec'.Describes registry g') : g.Corresponds (SameName spec g g') SameLooks g' where
  spent := by
    rintro v v' ⟨hdepth, -⟩
    rw [hdepth]
  states := by
    rintro depth _ id id' ⟨hdepth, name, hreached, hname, hname'⟩
    obtain rfl := Nat.succ.inj hdepth
    obtain ⟨state, hs, built, rfl, hbuilt, hbecomes⟩ := exists_becomes hg hname
    obtain ⟨state', hs', built', hnames, hbuilt', hbecomes'⟩ := exists_becomes hg' hname'
    -- a state that is reached is declared alike in both descriptions, so both states are built from one declaration
    obtain rfl := state_eq h hwell.distinct hs hs' hnames.symm hreached
    refine ⟨built, built', hbuilt, hbuilt', hbecomes.name.trans hbecomes'.name.symm, ?_⟩
    refine forall₂_of_both hbecomes.productions hbecomes'.productions ?_
    intro elements hp production production' hrow hrow'
    refine forall₂_of_both hrow hrow' ?_
    intro element he e e' helement helement'
    obtain ⟨halike, hshown⟩ := alike_of_means hreached hs hp he helement.target helement'.target depth
    exact ⟨halike, helement.color.trans helement'.color.symm, by rw [helement.visible, helement'.visible, hshown]⟩

theorem inStep_start (hstart : spec.start = spec'.start) (h : spec.DiffersUnreached spec') (hwell : spec'.WellFormed registry)
    (hg : spec.Describes registry g) (hg' : spec'.Describes registry g') (maxDepth : Nat) :
    (Run.start g maxDepth).InStep (SameName spec g g') SameLooks (Run.start g' maxDepth) where
  grammars := corresponds h hwell hg hg'
  start := ⟨.state ⟨rfl, _, .start, hg.start, hstart ▸ hg'.start⟩, rfl, rfl⟩
  pending := .nil
  position := rfl
  phase := rfl

/-! ## What is recorded -/

/-- Elements that match alike and look alike are recorded alike. -/
theorem record_tell {R : Visit → Visit → Prop} {depth depth' : Nat} {e e' : Element} (h : e.Alike R SameLooks depth depth' e')
    (sighting : Sighting) : (e.tell sighting).map (·.record) = (e'.tell sighting).map (·.record) := by
  obtain ⟨hcolor, hvisible⟩ := h.looks
  cases sighting with
  | unmatched position => rfl
  | matched offset length state =>
    have hlabel : Match.label ⟨e, offset, length, state⟩ = Match.label ⟨e', offset, length, state⟩ := by
      rcases h.target.cases with ⟨t, ht, ht'⟩ | ⟨id, id', -, ht, ht'⟩ <;> simp [Match.label, Element.terminal?, ht, ht']
    cases hv : e'.visible <;> simp [Element.tell, hvisible, hv, Event.record, hlabel, hcolor]

/-- What is recorded of a parse is what the steps of a run record until it ends. -/
theorem records_eq (hg : g.Closed) {s : Stream} {maxDepth n : Nat} (hn : ((Run.start g maxDepth).ahead s n).phase ≠ .running) :
    g.records s maxDepth = (((Run.start g maxDepth).collect .deaf s (·.told s) n ()).map (·.record)).toArray := by
  have hnotebook : notebook.Patient := fun _ _ => rfl
  have hadvance := RunTraceAux.advance_eq (hnotebook.takes s) (RunTraceAux.sound_start hg s maxDepth) #[] trivial n
  rw [Grammar.records, Grammar.notes_of_advance hadvance hn, RunTraceAux.after_notebook]
  simp [Note.record, Function.comp_def]

end DeclarationAux

open DeclarationAux

/-- Descriptions with the same start state that declare the same states in another order are built or refused alike. If both of
them are built, and if they declare the same states in another order, or differ in states only that the start state does not lead
to, then parses are recorded alike with one and with the other, whatever the text and the budget. -/
theorem GrammarSpec.declarations_irrelevant {spec spec' : GrammarSpec} (hstart : spec.start = spec'.start)
    (registry : TerminalRegistry) :
    (spec.states.Perm spec'.states → ((∃ g, spec.build registry = .ok g) ↔ ∃ g, spec'.build registry = .ok g)) ∧
    (spec.states.Perm spec'.states ∨ spec.DiffersUnreached spec' →
      ∀ g g', spec.build registry = .ok g → spec'.build registry = .ok g' →
        ∀ s maxDepth, g.records s maxDepth = g'.records s maxDepth) := by
  constructor
  · intro hperm
    rw [exists_build_iff, exists_build_iff]
    exact ⟨wellFormed_of_perm hstart hperm, wellFormed_of_perm hstart.symm hperm.symm⟩
  · intro hsame g g' hg hg' s maxDepth
    have hdiffers : spec.DiffersUnreached spec' := hsame.elim differsUnreached_of_perm id
    obtain ⟨-, hdescribes⟩ := build_eq_ok_iff.1 hg
    obtain ⟨hwell, hdescribes'⟩ := build_eq_ok_iff.1 hg'
    have hsteps := inStep_start hstart hdiffers hwell hdescribes hdescribes' maxDepth
    have hsound := RunTraceAux.sound_start hdescribes.closed s maxDepth
    obtain ⟨n, hfinished, -⟩ := RunTraceAux.exists_finish hdescribes.closed s maxDepth
    have hended : ((Run.start g maxDepth).ahead s n).phase ≠ .running := by simp [hfinished]
    have hended' : ((Run.start g' maxDepth).ahead s n).phase ≠ .running := (hsteps.ahead hsound n).phase ▸ hended
    rw [records_eq hdescribes.closed hended, records_eq hdescribes'.closed hended', hsteps.collect hsound record_tell n]

/-- The start state leads to no names but those of a list that has its own, and those that elements of its states refer to. -/
theorem GrammarSpec.Reaches.mem_of_closed {spec : GrammarSpec} {names : List String} (hstart : spec.start.getD defaultStart ∈ names)
    (hclosed : ∀ state ∈ spec.states, state.name ∈ names → ∀ elements ∈ state.productions, ∀ e ∈ elements,
      ∀ name ∈ e.state, name ∈ names) {name : String} (h : spec.Reaches name) : name ∈ names := by
  induction h with
  | start => exact hstart
  | reference _ declared production element refers ih => exact hclosed _ declared ih _ production _ element _ refers

/-- The outline, its states declared the other way round. -/
def backwardOutlineSpec : GrammarSpec := { outlineSpec with states := outlineSpec.states.reverse }

/-- The outline with a state before the others that refers to one of them and to itself. -/
def spareOutlineSpec : GrammarSpec :=
  let reference (state : String) : ElementSpec := { ElementSpec.blank with state, word := true }
  { outlineSpec with states := ⟨"spare", [[reference "list", reference "spare"]]⟩ :: outlineSpec.states }

/-- Neither of these is another outline. -/
theorem declarations_irrelevant_outline :
    outlineSpec.build .standard = .ok outline ∧ outlineSpec.states.Perm backwardOutlineSpec.states ∧
      outlineSpec.DiffersUnreached spareOutlineSpec ∧
      (∃ g, backwardOutlineSpec.build .standard = .ok g ∧ g.start ≠ outline.start ∧
        outline.records (.ofString "12(34)?") 9 = g.records (.ofString "12(34)?") 9) ∧
      ∃ g, spareOutlineSpec.build .standard = .ok g ∧ g.start ≠ outline.start ∧
        outline.records (.ofString "12(34)?") 9 = g.records (.ofString "12(34)?") 9 := by
  have hg : outlineSpec.build .standard = .ok outline := by decide +kernel
  have hperm : outlineSpec.states.Perm backwardOutlineSpec.states := (List.reverse_perm _).symm
  have hdiffers : outlineSpec.DiffersUnreached spareOutlineSpec := by
    refine ⟨fun state hs hne => absurd (.tail _ hs) hne, fun state hs hne hreached => ?_⟩
    rcases List.mem_cons.1 hs with rfl | hs
    · have hmem : "spare" ∈ ["item", "list"] := hreached.mem_of_closed (by decide +kernel) (by decide +kernel)
      exact absurd hmem (by decide)
    · exact hne hs
  have hsame : outlineSpec.start = backwardOutlineSpec.start := rfl
  have hsame' : outlineSpec.start = spareOutlineSpec.start := rfl
  have hbackward := GrammarSpec.declarations_irrelevant hsame .standard
  have hspare := GrammarSpec.declarations_irrelevant hsame' .standard
  have hplace : (backwardOutlineSpec.build .standard).map (·.start) = .ok 0 := by decide +kernel
  have hplace' : (spareOutlineSpec.build .standard).map (·.start) = .ok 2 := by decide +kernel
  obtain ⟨g, hbuilt⟩ := (hbackward.1 hperm).1 ⟨outline, hg⟩
  obtain ⟨g', hbuilt', hstart'⟩ := BuildAux.map_eq_ok_iff.1 hplace'
  rw [hbuilt] at hplace
  have hstart : g.start = 0 := Except.ok.inj hplace
  refine ⟨hg, hperm, hdiffers, ⟨g, hbuilt, ?_, hbackward.2 (.inl hperm) outline g hg hbuilt _ 9⟩,
    ⟨g', hbuilt', ?_, hspare.2 (.inr hdiffers) outline g' hg hbuilt' _ 9⟩⟩
  · rw [hstart]
    decide
  · rw [hstart']
    decide

end LiveHighlight
