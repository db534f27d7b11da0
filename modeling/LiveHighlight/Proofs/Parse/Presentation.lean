import LiveHighlight.Proofs.Parse.Faults
import LiveHighlight.Proofs.Parse.Lockstep

/-!
# Looks have no say in a parse

An element matches as its target does, whether it is visible, of which color it is, and whether it is a word. Grammars that are the
same but for the looks of their elements (`Grammar.bare`) have runs that go through the same steps, and each of these runs tells
what the run over the grammar that shows everything (`Grammar.unveiled`) tells, as its own elements have it: of a match nothing if
its element is hidden, and otherwise the match of its own element (`Grammar.looks_irrelevant`).
-/

namespace LiveHighlight

/-- The element without its looks: plain, hidden and no word. -/
def Element.bare (e : Element) : Element := ⟨e.target, .plain, false, false⟩

/-- The element, visible. -/
def Element.unveiled (e : Element) : Element := { e with visible := true }

/-- What an event says of the step that told it, whatever the element looks like. -/
def Event.sighting : Event → Sighting
  | .matched m => .matched m.offset m.length m.state
  | .unmatched _ position => .unmatched position

namespace Grammar

/-- The grammar with each element of its productions changed. -/
def mapElements (f : Element → Element) (g : Grammar) : Grammar :=
  { g with states := g.states.map fun state => { state with productions := state.productions.map (·.map f) } }

/-- The grammar without the looks of its elements. -/
def bare (g : Grammar) : Grammar := g.mapElements .bare

/-- The grammar with all elements of its productions visible. -/
def unveiled (g : Grammar) : Grammar := g.mapElements .unveiled

/-- What a grammar tells where another one tells an event of the element at a site: of its own element at that site, if that is
visible. -/
def recast (g : Grammar) (told : Site × Event) : Option Event :=
  (g.elementAt told.1).toOption.bind (·.tell told.2.sighting)

/-- What some steps of a run from the beginning tell if nobody refuses anything. -/
def told (g : Grammar) (s : Stream) (maxDepth steps : Nat) : List Event :=
  (Run.start g maxDepth).collect .deaf s (·.told s) steps ()

/-- What some steps of a run from the beginning tell, each event with the site of the element that it is about. -/
def toldAt (g : Grammar) (s : Stream) (maxDepth steps : Nat) : List (Site × Event) :=
  (Run.start g maxDepth).collect .deaf s (fun r => (r.told s).map fun e => (r.site, e)) steps ()

end Grammar

/-- The description with all elements visible. -/
def GrammarSpec.unveiled (spec : GrammarSpec) : GrammarSpec :=
  { spec with states := spec.states.map fun state =>
      { state with productions := state.productions.map (·.map fun e => { e with visible := some true }) } }

/-- Visits that are of the same state of the grammar, with the same budget. -/
def Grammar.SameVisit (g : Grammar) (v v' : Visit) : Prop := v = v' ∧ v.id < g.states.length

namespace PresentationAux

open LockstepAux

variable {g g' : Grammar} {s : Stream} {r r' : Run}

/-! ## Grammars that are the same but for looks -/

/-- Lists that have the same images belong together item by item. -/
theorem forall₂_of_map_eq {α β γ : Type} {f : α → γ} {f' : β → γ} {xs : List α} {ys : List β} (h : xs.map f = ys.map f') :
    List.Forall₂ (fun x y => f x = f' y) xs ys := by
  rw [← List.forall₂_eq_eq_eq, List.forall₂_map_left_iff, List.forall₂_map_right_iff] at h
  exact h

theorem start_eq (h : g.bare = g'.bare) : g.start = g'.start := (Grammar.mk.inj h).2.2

/-- States of grammars that are the same but for looks are of one name, and their elements have the same targets. -/
theorem states_of_bare (h : g.bare = g'.bare) :
    List.Forall₂ (fun state state' => state.name = state'.name ∧
      List.Forall₂ (List.Forall₂ fun e e' : Element => e.target = e'.target) state.productions state'.productions)
      g.states g'.states := by
  refine (forall₂_of_map_eq (Grammar.mk.inj h).2.1).imp ?_
  intro state state' hstate
  obtain ⟨hname, hproductions⟩ := State.mk.inj hstate
  refine ⟨hname, (forall₂_of_map_eq hproductions).imp ?_⟩
  intro production production' hproduction
  exact (forall₂_of_map_eq hproduction).imp fun e e' he => (Element.mk.inj he).1

theorem bare_unveiled (g : Grammar) : g.bare = g.unveiled.bare := by
  simp [Grammar.bare, Grammar.unveiled, Grammar.mapElements, Function.comp_def, Element.bare, Element.unveiled]

/-- A grammar that is the same as a closed one but for looks is closed. -/
theorem closed_of_bare (hg : g.Closed) (h : g.bare = g'.bare) : g'.Closed where
  start := by
    rw [← start_eq h, ← (states_of_bare h).length_eq]
    exact hg.start
  references state' hs' production' hp' e' he' id ht := by
    obtain ⟨state, hs, -, hproductions⟩ := BuildAux.exists_left (states_of_bare h) hs'
    obtain ⟨production, hp, hproduction⟩ := BuildAux.exists_left hproductions hp'
    obtain ⟨e, he, htarget⟩ := BuildAux.exists_left hproduction he'
    rw [← (states_of_bare h).length_eq]
    exact hg.references state hs production hp e he id (htarget.trans ht)

/-- Grammars that are the same but for looks match alike. -/
theorem corresponds_of_bare (hg : g.Closed) (h : g.bare = g'.bare) : g.Corresponds g.SameVisit (fun _ _ => True) g' where
  spent := by
    rintro v v' ⟨rfl, -⟩
    exact .rfl
  states := by
    rintro depth depth' id id' ⟨heq, hid⟩
    obtain ⟨rfl, rfl⟩ : depth = depth' ∧ id = id' := by simpa using heq
    obtain ⟨state, hmem, hs⟩ := Grammar.exists_state hid
    obtain ⟨state', hs', hname, hproductions⟩ := getElem?_alike (states_of_bare h) hs
    refine ⟨state, state', hs, hs', hname, ?_⟩
    refine ((List.forall₂_and_left _ _).2 ⟨fun _ hp => hp, hproductions⟩).imp ?_
    rintro production production' ⟨hp, hproduction⟩
    refine ((List.forall₂_and_left _ _).2 ⟨fun _ he => he, hproduction⟩).imp ?_
    rintro e e' ⟨he, htarget⟩
    refine ⟨?_, trivial⟩
    rw [← htarget]
    cases ht : e.target with
    | terminal t => exact .terminal t
    | state id => exact .state ⟨rfl, hg.references state hmem production hp e he id ht⟩

theorem inStep_of_bare (hg : g.Closed) (h : g.bare = g'.bare) (maxDepth : Nat) :
    (Run.start g maxDepth).InStep g.SameVisit (fun _ _ => True) (Run.start g' maxDepth) where
  grammars := corresponds_of_bare hg h
  start := by
    refine ⟨?_, trivial⟩
    simp only [Run.start, Grammar.startElement, ← start_eq h]
    exact .state ⟨rfl, hg.start⟩
  pending := .nil
  position := rfl
  phase := rfl

theorem pending_eq (h : r.InStep g.SameVisit (fun _ _ => True) r') : r.pending = r'.pending := by
  rw [← List.forall₂_eq_eq_eq]
  refine h.pending.imp ?_
  rintro _ _ ⟨⟨heq, -⟩, production, index⟩
  obtain ⟨hdepth, rfl⟩ := Visit.mk.inj heq
  rw [Nat.succ.inj hdepth]

/-! ## What is told -/

/-- The element that stands in a production of a changed grammar is a changed one. -/
theorem elementAt_mapElements (f : Element → Element) (g : Grammar) (id production index : Nat) :
    (g.mapElements f).elementAt (.inside id production index) = (g.elementAt (.inside id production index)).map f := by
  simp only [Grammar.elementAt, Grammar.state?, Grammar.mapElements, List.getElem?_map]
  cases g.states[id]? with
  | none => rfl
  | some state =>
    simp only [Option.map_some, List.getElem?_map]
    cases state.productions[production]? with
    | none => rfl
    | some elements =>
      simp only [Option.map_some, Option.bind_some, List.getElem?_map]
      cases elements[index]? <;> rfl

/-- Only the element of the start state is hidden where all is shown. -/
theorem visible_of_unveiled {site : Site} {e : Element} (he : g.unveiled.elementAt site = .ok e) :
    e.visible = true ∨ site = .top := by
  cases site with
  | top => exact .inr rfl
  | inside id production index =>
    rw [Grammar.unveiled, elementAt_mapElements] at he
    obtain ⟨e, -, rfl⟩ := BuildAux.map_eq_ok_iff.1 he
    exact .inl rfl

/-- What a step tells is what it tells where all is shown, as the element at the site has it. -/
theorem told_eq_recast (h : r.InStep g.SameVisit (fun _ _ => True) r') (hr : r.Sound s) {shown : Grammar}
    (hshown : r'.grammar = shown.unveiled) :
    r.told s = ((r'.told s).map fun e => (r'.site, e)).bind r.grammar.recast := by
  have hsite : r.site = r'.site := by simp only [Run.site, pending_eq h]
  rcases h.told hr with ⟨htold, htold'⟩ | ⟨e, e', -, -, sighting, he, he', -, htold, htold', -⟩
  · rw [htold, htold']
    rfl
  · rw [htold, htold']
    rw [hsite] at he
    cases sighting with
    | unmatched position => simp [Element.tell, Grammar.recast, he, Except.toOption, Event.sighting]
    | matched offset length state =>
      rcases visible_of_unveiled (hshown ▸ he') with hvisible | htop
      · simp [Element.tell, Grammar.recast, he, Except.toOption, Event.sighting, hvisible]
      · -- the element of the start state is hidden in every grammar
        rw [htop] at he he'
        obtain rfl := Except.ok.inj he
        obtain rfl := Except.ok.inj he'
        rfl

/-- The errors that a step tells are the same. -/
theorem errors_told (h : r.InStep g.SameVisit (fun _ _ => True) r') (hr : r.Sound s)
    (hstart : r.grammar.startElement = r'.grammar.startElement) :
    (r.told s).toList.filter (·.isError) = (r'.told s).toList.filter (·.isError) := by
  have hsite : r.site = r'.site := by simp only [Run.site, pending_eq h]
  rcases h.told hr with ⟨htold, htold'⟩ | ⟨e, e', -, -, sighting, he, he', -, htold, htold', htop⟩
  · rw [htold, htold']
  · rw [htold, htold']
    cases sighting with
    | unmatched position =>
      rw [htop position rfl] at he hsite
      rw [← hsite] at he'
      rw [← Except.ok.inj he, ← Except.ok.inj he', hstart]
    | matched offset length state =>
      have silent (e : Element) : (e.tell (.matched offset length state)).toList.filter (·.isError) = [] := by
        cases hv : e.visible <;> simp [Element.tell, hv, Event.isError]
      rw [silent, silent]

/-! ## Some steps -/

/-- What some steps tell is what they tell where all is shown, as the elements at the sites have it. -/
theorem collect_eq_recast (h : r.InStep g.SameVisit (fun _ _ => True) r') (hr : r.Sound s) {shown : Grammar}
    (hshown : r'.grammar = shown.unveiled) (n : Nat) :
    r.collect .deaf s (·.told s) n () =
      (r'.collect .deaf s (fun r => (r.told s).map fun e => (r.site, e)) n ()).filterMap r.grammar.recast := by
  induction n generalizing r r' with
  | zero => rfl
  | succ n ih =>
    have hrest := ih (h.ahead_one hr) (RunTraceAux.sound_ahead hr 1) ((RunTraceAux.grammar_ahead s r').trans hshown)
    rw [RunTraceAux.grammar_ahead] at hrest
    rw [RunTraceAux.collect_succ, RunTraceAux.collect_succ, List.filterMap_append, ← hrest, told_eq_recast h hr hshown]
    cases r'.told s with
    | none => rfl
    | some event => cases hrecast : r.grammar.recast (r'.site, event) <;> simp [hrecast]

/-- The errors that some steps tell are the same. -/
theorem errors_collect (h : r.InStep g.SameVisit (fun _ _ => True) r') (hr : r.Sound s)
    (hstart : r.grammar.startElement = r'.grammar.startElement) (n : Nat) :
    (r.collect .deaf s (·.told s) n ()).filter (·.isError) = (r'.collect .deaf s (·.told s) n ()).filter (·.isError) := by
  induction n generalizing r r' with
  | zero => rfl
  | succ n ih =>
    have hrest := ih (h.ahead_one hr) (RunTraceAux.sound_ahead hr 1)
      (by rw [RunTraceAux.grammar_ahead, RunTraceAux.grammar_ahead, hstart])
    rw [RunTraceAux.collect_succ, RunTraceAux.collect_succ, List.filter_append, List.filter_append, errors_told h hr hstart, hrest]

/-- What is told, without the sites. -/
theorem map_collect (r : Run) (s : Stream) (n : Nat) :
    (r.collect .deaf s (fun r => (r.told s).map fun e => (r.site, e)) n ()).map (·.2) = r.collect .deaf s (·.told s) n () := by
  induction n generalizing r with
  | zero => rfl
  | succ n ih =>
    rw [RunTraceAux.collect_succ, RunTraceAux.collect_succ, List.map_append, ih]
    cases r.told s <;> rfl

end PresentationAux

open PresentationAux

/-- A grammar with all elements visible is built from the description with all elements visible. -/
theorem GrammarSpec.build_unveiled {spec : GrammarSpec} {registry : TerminalRegistry} {g : Grammar}
    (h : spec.build registry = .ok g) : spec.unveiled.build registry = .ok g.unveiled := by
  obtain ⟨hwell, hdescribes⟩ := build_eq_ok_iff.1 h
  have hnames : spec.unveiled.states.map (·.name) = spec.states.map (·.name) := by
    simp [unveiled, Function.comp_def]
  have hnames' : g.unveiled.states.map (·.name) = g.states.map (·.name) := by
    simp [Grammar.unveiled, Grammar.mapElements, Function.comp_def]
  have means {names : List String} {e : ElementSpec} {target : Target} (h : e.Means registry names target) :
      { e with visible := some true }.Means registry names target := by
    cases h with
    | terminal hcls hstate plain registered accepted limited => exact .terminal hcls hstate plain registered accepted limited
    | state hcls hstate hmin hmax declared => exact .state hcls hstate hmin hmax declared
  refine build_eq_ok_iff.2 ⟨⟨hnames ▸ hwell.distinct, hnames ▸ hwell.start, ?_, ?_⟩, hdescribes.name, ?_, hnames' ▸ hdescribes.start⟩
  · intro _ hmem
    obtain ⟨state, hs, rfl⟩ := List.mem_map.1 hmem
    simpa using hwell.productions state hs
  · intro _ hmem _ hmem' _ hmem''
    obtain ⟨state, hs, rfl⟩ := List.mem_map.1 hmem
    obtain ⟨production, hp, rfl⟩ := List.mem_map.1 hmem'
    obtain ⟨e, he, rfl⟩ := List.mem_map.1 hmem''
    obtain ⟨target, htarget⟩ := hwell.elements state hs production hp e he
    exact ⟨target, hnames ▸ means htarget⟩
  · rw [hnames']
    simp only [unveiled, Grammar.unveiled, Grammar.mapElements, List.forall₂_map_left_iff, List.forall₂_map_right_iff]
    refine hdescribes.states.imp ?_
    rintro state state' ⟨hname, hproductions⟩
    refine ⟨hname, ?_⟩
    simp only [List.forall₂_map_left_iff, List.forall₂_map_right_iff]
    refine hproductions.imp fun production production' hproduction => ?_
    exact hproduction.imp fun e e' he => ⟨means he.target, he.color, rfl, he.word⟩

/-- Grammars that were built and are the same but for the looks of their elements have runs that go through the same steps. After
any number of steps, whoever has listened and refused nothing, these runs, and the one over the grammar that shows everything, are
in the same phase, stand at the same position and have the same elements pending. They have told the same errors, and each of them
has told what the run over the grammar that shows everything has told, as its own elements have it. That grammar is built from the
description that shows everything. -/
theorem Grammar.looks_irrelevant {spec spec' : GrammarSpec} {registry registry' : TerminalRegistry} {g g' : Grammar}
    (hg : spec.build registry = .ok g) (hg' : spec'.build registry' = .ok g') (h : g.bare = g'.bare) (s : Stream) (maxDepth : Nat) :
    spec.unveiled.build registry = .ok g.unveiled ∧
    ∀ n, (g.unveiled.toldAt s maxDepth n).map (·.2) = g.unveiled.told s maxDepth n ∧
      ∃ (phase : RunPhase) (position : Nat) (pending : List Pending), ∀ v ∈ [g, g', g.unveiled],
        v.told s maxDepth n = (g.unveiled.toldAt s maxDepth n).filterMap v.recast ∧
        (v.told s maxDepth n).filter (·.isError) = (g.unveiled.told s maxDepth n).filter (·.isError) ∧
        ∀ {σ : Type} (l : Listener σ) (memory : σ), l.Patient →
          ∃ r : Run, (Run.start v maxDepth).advance l s n memory = (r, l.after memory (v.told s maxDepth n)) ∧
            r.phase = phase ∧ r.position = position ∧ r.pending = pending := by
  refine ⟨GrammarSpec.build_unveiled hg, ?_⟩
  intro n
  refine ⟨map_collect _ s n, ((Run.start g maxDepth).ahead s n).phase, ((Run.start g maxDepth).ahead s n).position,
    ((Run.start g maxDepth).ahead s n).pending, ?_⟩
  have hc := closed_of_build hg
  intro v hv
  have hbare : g.bare = v.bare := by
    simp only [List.mem_cons, List.not_mem_nil, or_false] at hv
    rcases hv with rfl | rfl | rfl
    · rfl
    · exact h
    · exact bare_unveiled g
  have hclosed := closed_of_bare hc hbare
  have hsound := RunTraceAux.sound_start hclosed s maxDepth
  have hshown := inStep_of_bare hclosed (hbare.symm.trans (bare_unveiled g)) maxDepth
  have hstart : v.startElement = g.unveiled.startElement := by
    simp only [Grammar.startElement, start_eq (hbare.symm.trans (bare_unveiled g))]
  refine ⟨collect_eq_recast hshown hsound rfl n, errors_collect hshown hsound hstart n, ?_⟩
  intro σ l memory hl
  have hstep := (inStep_of_bare hc hbare maxDepth).ahead (RunTraceAux.sound_start hc s maxDepth) n
  exact ⟨_, RunTraceAux.advance_eq (hl.takes s) hsound memory trivial n, hstep.phase.symm, hstep.position.symm,
    (pending_eq hstep).symm⟩

/-- Brackets that are hidden, around pairs of a color of their own. -/
def dullBracketSpec : GrammarSpec :=
  let token (lexeme : String) : ElementSpec := { ElementSpec.blank with terminal := "token", value := lexeme, visible := some false }
  ⟨"brackets", none, [⟨"start",
    [[token "[", { ElementSpec.blank with state := "start", color := 7, visible := some true }, token "]"],
     [{ ElementSpec.blank with terminal := "empty" }]]⟩]⟩

/-- The grammar of `dullBracketSpec`. -/
def dullBrackets : Grammar :=
  let token (lexeme : String) : Element := ⟨.terminal (.token lexeme), .plain, false, false⟩
  ⟨"brackets", [⟨"start", [[token "[", ⟨.state 0, ⟨7⟩, true, false⟩, token "]"],
    [⟨.terminal .empty, .plain, false, false⟩]]⟩], 0⟩

/-- The pairs of dull brackets are told where those of the others are, in their own color and as no words, and their brackets are
not told at all. -/
theorem looks_irrelevant_brackets :
    let s := Stream.ofString "[[]]]"
    let pair (position length : Nat) : Event := .matched ⟨⟨.state 0, ⟨7⟩, true, false⟩, position, length, some "start"⟩
    bracketSpec.build .standard = .ok brackets ∧ dullBracketSpec.build .standard = .ok dullBrackets ∧
      brackets.bare = dullBrackets.bare ∧ notebook.Patient ∧
      (brackets.unveiled.toldAt s 3 15).map (·.2.position) = [0, 1, 1, 2, 2, 2, 3, 4] ∧
      dullBrackets.told s 3 15 = [pair 1 2, pair 2 0, .unmatched dullBrackets.startElement 4] ∧
      ∃ r r' : Run, (Run.start brackets 3).advance notebook s 15 #[] = (r, notebook.after #[] (brackets.told s 3 15)) ∧
        (Run.start dullBrackets 3).advance notebook s 15 #[] = (r', notebook.after #[] (dullBrackets.told s 3 15)) ∧
        r.phase = r'.phase ∧ r.position = r'.position ∧ r.pending = r'.pending := by
  intro s pair
  have hg : bracketSpec.build .standard = .ok brackets := by decide +kernel
  have hg' : dullBracketSpec.build .standard = .ok dullBrackets := by decide +kernel
  have hl : notebook.Patient := fun _ _ => rfl
  obtain ⟨-, hruns⟩ := Grammar.looks_irrelevant hg hg' rfl s 3
  obtain ⟨-, phase, position, pending, hv⟩ := hruns 15
  obtain ⟨-, -, hheard⟩ := hv brackets (.head _)
  obtain ⟨htold, -, hheard'⟩ := hv dullBrackets (.tail _ (.head _))
  obtain ⟨r, hr, rfl, rfl, rfl⟩ := hheard notebook #[] hl
  obtain ⟨r', hr', hphase, hposition, hpending⟩ := hheard' notebook #[] hl
  refine ⟨hg, hg', rfl, hl, by decide +kernel, htold.trans ?_, r, r', hr, hr', hphase.symm, hposition.symm, hpending.symm⟩
  decide +kernel

end LiveHighlight
