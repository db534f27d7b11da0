import LiveHighlight.Proofs.Parse.RunTrace

/-!
# Runs in lockstep

Two grammars may number their states differently, give their elements other colors, or be looked through within other budgets, and
match alike for all that. `Grammar.Corresponds` says so with a relation between visits, which are states with the budgets left for
them: states of related visits have the same productions, but for the looks of their elements and for references that lead to
visits that are related again. Lookahead then takes the same production (`Corresponds.select_eq`), and two runs never get out of
step: they stand at the same position and have corresponding elements pending (`Run.InStep.ahead`), and each of them tells of the
same sightings, as its own element has it (`Run.InStep.told`).
-/

namespace LiveHighlight

/-- A state that lookahead comes to, and the budget that is left for it. -/
structure Visit where
  depth : Nat
  id : Nat
  deriving DecidableEq, Repr

/-- What a step comes to, whether or not anything is told of it: a match, or a position at which the start state takes nothing. -/
inductive Sighting where
  | matched (offset length : Nat) (state : Option String)
  | unmatched (position : Nat)
  deriving DecidableEq, Repr

/-- What is told of a sighting of an element: a match is if the element is visible. -/
def Element.tell (e : Element) : Sighting → Option Event
  | .matched offset length state => if e.visible then some (.matched ⟨e, offset, length, state⟩) else none
  | .unmatched position => some (.unmatched e position)

/-- Whether two targets match alike within the budgets left for them: they are the same terminal, or states whose visits are
related. -/
inductive Target.Alike (R : Visit → Visit → Prop) (depth depth' : Nat) : Target → Target → Prop
  | terminal (t : Terminal) : Alike R depth depth' (.terminal t) (.terminal t)
  | state {id id' : Nat} (related : R ⟨depth, id⟩ ⟨depth', id'⟩) : Alike R depth depth' (.state id) (.state id')

theorem Target.Alike.cases {R : Visit → Visit → Prop} {depth depth' : Nat} {target target' : Target}
    (h : target.Alike R depth depth' target') :
    (∃ t, target = .terminal t ∧ target' = .terminal t) ∨
      ∃ id id', R ⟨depth, id⟩ ⟨depth', id'⟩ ∧ target = .state id ∧ target' = .state id' := by
  cases h with
  | terminal t => exact .inl ⟨t, rfl, rfl⟩
  | state related => exact .inr ⟨_, _, related, rfl, rfl⟩

/-- Whether two elements match alike within the budgets left for them, and look as `Q` wants. -/
structure Element.Alike (R : Visit → Visit → Prop) (Q : Element → Element → Prop) (depth depth' : Nat) (e e' : Element) : Prop where
  target : e.target.Alike R depth depth' e'.target
  looks : Q e e'

/-- Whether related visits of two grammars match alike: both have a budget or neither has, and states that have one are of one name
and have productions whose elements match alike with a level less. -/
structure Grammar.Corresponds (R : Visit → Visit → Prop) (Q : Element → Element → Prop) (g g' : Grammar) : Prop where
  spent : ∀ {v v' : Visit}, R v v' → (v.depth = 0 ↔ v'.depth = 0)
  states : ∀ {depth depth' id id' : Nat}, R ⟨depth + 1, id⟩ ⟨depth' + 1, id'⟩ →
    ∃ state state', g.state? id = some state ∧ g'.state? id' = some state' ∧ state.name = state'.name ∧
      List.Forall₂ (List.Forall₂ (Element.Alike R Q depth depth')) state.productions state'.productions

/-- Whether pending elements stand at the same place of states whose visits are related. -/
inductive Pending.Alike (R : Visit → Visit → Prop) : Pending → Pending → Prop
  | inside {depth depth' id id' : Nat} (related : R ⟨depth + 1, id⟩ ⟨depth' + 1, id'⟩) (production index : Nat) :
    Alike R ⟨.inside id production index, depth⟩ ⟨.inside id' production index, depth'⟩

/-- Whether two runs are in step: at the same position, with pending elements that stand at the same places. -/
structure Run.InStep (R : Visit → Visit → Prop) (Q : Element → Element → Prop) (r r' : Run) : Prop where
  grammars : r.grammar.Corresponds R Q r'.grammar
  start : r.grammar.startElement.Alike R Q r.maxDepth r'.maxDepth r'.grammar.startElement
  pending : List.Forall₂ (Pending.Alike R) r.pending r'.pending
  position : r.position = r'.position
  phase : r.phase = r'.phase

/-- Where the element stands that the next step of a run is about. -/
def Run.site (r : Run) : Site := (r.pending.head?.map (·.site)).getD .top

namespace LockstepAux

variable {R : Visit → Visit → Prop} {Q : Element → Element → Prop} {g g' : Grammar} {s : Stream} {r r' : Run}

/-! ## Lookahead -/

section

variable {A : Element → Element → Prop} {lengthAt lengthAt' : Element → Nat → Except ParseFault (Option Nat)}

/-- Elements that match alike one by one do so one after the other. -/
theorem sequenceLength_eq (h : ∀ e e', A e e' → ∀ pos, lengthAt e pos = lengthAt' e' pos) {es es' : List Element}
    (hes : List.Forall₂ A es es') (pos : Nat) : sequenceLength lengthAt es pos = sequenceLength lengthAt' es' pos := by
  induction hes generalizing pos with
  | nil => rfl
  | cons he _ ih =>
    rw [sequenceLength, sequenceLength, h _ _ he pos]
    cases lengthAt' _ pos with
    | error fault => rfl
    | ok found =>
      cases found with
      | none => rfl
      | some length => simp only [ih (pos + length)]

/-- Of productions that match alike, the first one that matches is the same. -/
theorem firstSelection_eq (h : ∀ e e', A e e' → ∀ pos, lengthAt e pos = lengthAt' e' pos) {ps ps' : List Production}
    (hps : List.Forall₂ (List.Forall₂ A) ps ps') (pos index : Nat) :
    firstSelection lengthAt pos index ps = firstSelection lengthAt' pos index ps' := by
  induction hps generalizing index with
  | nil => rfl
  | cons hp _ ih => rw [firstSelection, firstSelection, sequenceLength_eq h hp, ih (index + 1)]

end

/-- Lookahead takes the same production of states whose visits are related. The induction is on the budget. -/
theorem select_eq (h : g.Corresponds R Q g') (s : Stream) {depth : Nat} : ∀ {depth' id id' : Nat}, R ⟨depth, id⟩ ⟨depth', id'⟩ →
    ∀ pos, g.select s depth id pos = g'.select s depth' id' pos := by
  induction depth with
  | zero =>
    intro depth' id id' hv pos
    obtain rfl : depth' = 0 := (h.spent hv).1 rfl
    rfl
  | succ depth ih =>
    intro depth' id id' hv pos
    have hspent : ¬depth' = 0 := fun hzero => absurd ((h.spent hv).2 hzero) (Nat.succ_ne_zero depth)
    obtain ⟨depth', rfl⟩ := Nat.exists_eq_succ_of_ne_zero hspent
    obtain ⟨state, state', hs, hs', -, hproductions⟩ := h.states hv
    simp only [Grammar.select, hs, hs']
    refine firstSelection_eq ?_ hproductions pos 0
    intro e e' he pos
    unfold Element.lengthAt
    rcases he.target.cases with ⟨t, ht, ht'⟩ | ⟨id, id', hv, ht, ht'⟩
    · rw [ht, ht']
    · simp only [ht, ht', ih hv]

/-! ## Pending elements -/

/-- Lists that belong together item by item have items at the same places. -/
theorem getElem?_alike {α β : Type} {A : α → β → Prop} {xs : List α} {ys : List β} (h : List.Forall₂ A xs ys) {i : Nat} {x : α}
    (hx : xs[i]? = some x) : ∃ y, ys[i]? = some y ∧ A x y := by
  obtain ⟨hi, rfl⟩ := List.getElem?_eq_some_iff.1 hx
  have hi' : i < ys.length := h.length_eq ▸ hi
  exact ⟨ys[i], List.getElem?_eq_getElem hi', h.get hi hi'⟩

/-- Pending elements that stand at the same places are elements that match alike. -/
theorem elementAt_alike (h : g.Corresponds R Q g') {p p' : Pending} (hp : p.Alike R p') {e : Element}
    (he : g.elementAt p.site = .ok e) : ∃ e', g'.elementAt p'.site = .ok e' ∧ e.Alike R Q p.depth p'.depth e' := by
  cases hp with
  | inside hv production index =>
    obtain ⟨state, state', hs, hs', -, hproductions⟩ := h.states hv
    simp only [Grammar.elementAt, hs] at he
    split at he
    · next found hfound =>
      obtain rfl := Except.ok.inj he
      obtain ⟨es, hes, hindex⟩ := Option.bind_eq_some_iff.1 hfound
      obtain ⟨es', hes', hrow⟩ := getElem?_alike hproductions hes
      obtain ⟨e', he', halike⟩ := getElem?_alike hrow hindex
      exact ⟨e', by simp [Grammar.elementAt, hs', hes', he'], halike⟩
    · cases he

/-- The elements of a production stand at the same places. -/
theorem expand_alike (h : g.Corresponds R Q g') {depth depth' id id' : Nat} (hv : R ⟨depth + 1, id⟩ ⟨depth' + 1, id'⟩)
    {production : Nat} {children : List Pending} (hc : g.expand id production depth = .ok children) :
    ∃ children', g'.expand id' production depth' = .ok children' ∧ List.Forall₂ (Pending.Alike R) children children' := by
  obtain ⟨state, state', hs, hs', -, hproductions⟩ := h.states hv
  simp only [Grammar.expand, hs, Option.bind_some] at hc
  split at hc
  · cases hc
  · next es hes =>
    obtain rfl := Except.ok.inj hc
    obtain ⟨es', hes', hrow⟩ := getElem?_alike hproductions hes
    refine ⟨(List.range es.length).map fun index => ⟨.inside id' production index, depth'⟩, ?_, ?_⟩
    · simp only [Grammar.expand, hs', Option.bind_some, hes', hrow.length_eq]
    · rw [List.forall₂_map_left_iff, List.forall₂_map_right_iff, List.forall₂_same]
      exact fun index _ => .inside hv production index

/-- The production that a state takes is there in both grammars, and the states have the same name. -/
theorem opening_alike (h : g.Corresponds R Q g') {depth depth' id id' pos : Nat} (hv : R ⟨depth, id⟩ ⟨depth', id'⟩)
    {selection : Selection} (hsel : g.select s depth id pos = .ok (some selection)) {children : List Pending}
    (hc : g.expand id selection.production (depth - 1) = .ok children) :
    (∃ children', g'.expand id' selection.production (depth' - 1) = .ok children' ∧
      List.Forall₂ (Pending.Alike R) children children') ∧
    (g.state? id).map (·.name) = (g'.state? id').map (·.name) := by
  cases depth with
  | zero => cases hsel
  | succ depth =>
    have hspent : ¬depth' = 0 := fun hzero => absurd ((h.spent hv).2 hzero) (Nat.succ_ne_zero depth)
    obtain ⟨depth', rfl⟩ := Nat.exists_eq_succ_of_ne_zero hspent
    obtain ⟨state, state', hs, hs', hname, -⟩ := h.states hv
    exact ⟨expand_alike h hv hc, by rw [hs, hs', Option.map_some, Option.map_some, hname]⟩

/-- What is next of two runs in step is at the same place, and so is what comes after it. -/
theorem next_alike (h : r.InStep R Q r') {next : Pending} {rest : List Pending} (hnext : r.Next s next rest) {e : Element}
    (he : r.grammar.elementAt next.site = .ok e) :
    ∃ next' rest' e', r'.Next s next' rest' ∧ (next'.site = .top ↔ next.site = .top) ∧ List.Forall₂ (Pending.Alike R) rest rest' ∧
      r'.grammar.elementAt next'.site = .ok e' ∧ e.Alike R Q next.depth next'.depth e' := by
  have hpending := h.pending
  rcases hnext with hp | ⟨hp, rfl, rfl, hin⟩
  · rw [hp] at hpending
    obtain ⟨next', rest', hnext, hrest, hp'⟩ := List.forall₂_cons_left_iff.1 hpending
    obtain ⟨e', he', halike⟩ := elementAt_alike h.grammars hnext he
    have htop : next'.site = .top ↔ next.site = .top := by cases hnext; simp
    exact ⟨next', rest', e', .inl hp', htop, hrest, he', halike⟩
  · rw [hp, List.forall₂_nil_left_iff] at hpending
    obtain rfl : r.grammar.startElement = e := Except.ok.inj he
    exact ⟨⟨.top, r'.maxDepth⟩, [], _, .inr ⟨hpending, rfl, rfl, h.position ▸ hin⟩, .rfl, .nil, rfl, h.start⟩

/-- What is next of a run stands at the run's site. -/
theorem site_of_next {next : Pending} {rest : List Pending} (h : r.Next s next rest) : next.site = r.site := by
  rcases h with hp | ⟨hp, rfl, -, -⟩ <;> simp [Run.site, hp]

/-! ## Steps -/

/-- Whether two moves with elements at a site go to the same place and tell of the same sighting, each as its element has it. It is
an error only at the top. -/
structure MovesAlike (R : Visit → Visit → Prop) (site : Site) (e e' : Element) (move move' : Move) : Prop where
  position : move.position = move'.position
  pending : List.Forall₂ (Pending.Alike R) move.pending move'.pending
  sighting : ∃ sighting, move.event = e.tell sighting ∧ move'.event = e'.tell sighting ∧
    ∀ position, sighting = .unmatched position → site = .top

/-- Runs in step make moves alike with elements that match alike. -/
theorem moveAt_alike (h : r.InStep R Q r') {next next' : Pending} {rest rest' : List Pending} {e e' : Element}
    (he : r.grammar.elementAt next.site = .ok e) (he' : r'.grammar.elementAt next'.site = .ok e')
    (halike : e.Alike R Q next.depth next'.depth e') (htop : next'.site = .top ↔ next.site = .top)
    (hrest : List.Forall₂ (Pending.Alike R) rest rest') {move : Move} (hm : r.moveAt s next rest = .ok move) :
    ∃ move', r'.moveAt s next' rest' = .ok move' ∧ MovesAlike R next.site e e' move move' := by
  simp only [Run.moveAt, bind, Except.bind, he] at hm
  simp only [Run.moveAt, bind, Except.bind, he', htop, ← h.position]
  rcases halike.target.cases with ⟨t, ht, ht'⟩ | ⟨id, id', hv, ht, ht'⟩
  · simp only [ht] at hm
    simp only [ht']
    cases hmatch : t.matchAt s r.position with
    | none => simp [hmatch, throw, throwThe, MonadExceptOf.throw] at hm
    | some length =>
      rw [hmatch] at hm
      obtain rfl := Except.ok.inj hm
      exact ⟨_, rfl, rfl, hrest, .matched r.position length none, rfl, by rw [h.position]; rfl, fun _ heq => by cases heq⟩
  · simp only [ht] at hm
    simp only [ht', ← select_eq h.grammars s hv]
    have unmatched (hn : next.site = .top) : MovesAlike R next.site e e' ⟨some (.unmatched e r.position), r.position + 1, rest⟩
        ⟨some (.unmatched e' r.position), r.position + 1, rest'⟩ := ⟨rfl, hrest, .unmatched r.position, rfl, rfl, fun _ _ => hn⟩
    cases hsel : r.grammar.select s next.depth id r.position with
    | error fault => simp [hsel] at hm
    | ok found =>
      rw [hsel] at hm
      dsimp only at hm ⊢
      cases found with
      | none =>
        dsimp only at hm ⊢
        split at hm
        · next hn =>
          obtain rfl := Except.ok.inj hm
          exact ⟨_, if_pos hn, unmatched hn⟩
        · cases hm
      | some selection =>
        dsimp only at hm ⊢
        split at hm
        · next hn =>
          obtain rfl := Except.ok.inj hm
          exact ⟨_, if_pos hn, unmatched hn.1⟩
        · next hn =>
          split at hm
          · cases hm
          · next children hc =>
            obtain ⟨⟨children', hc', hrow⟩, hname⟩ := opening_alike h.grammars hv hsel hc
            obtain rfl := Except.ok.inj hm
            rw [if_neg hn, hc']
            refine ⟨_, rfl, rfl, List.rel_append hrow hrest, .matched r.position selection.length _, rfl, ?_,
              fun _ heq => by cases heq⟩
            rw [hname, h.position]
            rfl

end LockstepAux

open LockstepAux

namespace Run.InStep

variable {R : Visit → Visit → Prop} {Q : Element → Element → Prop} {s : Stream} {r r' : Run}

/-- Two runs in step, of which the one does not fault, plan the same: nothing, or to make moves alike with the elements at their
sites. -/
theorem plan (h : r.InStep R Q r') (hr : r.Sound s) :
    r.plan s = .ok none ∧ r'.plan s = .ok none ∨
      ∃ e e' depth depth' move move', r.grammar.elementAt r.site = .ok e ∧ r'.grammar.elementAt r'.site = .ok e' ∧
        e.Alike R Q depth depth' e' ∧ r.plan s = .ok (some move) ∧ r'.plan s = .ok (some move') ∧
        MovesAlike R r.site e e' move move' := by
  rcases Run.plan_cases s r with ⟨next, rest, hnext, hplan⟩ | ⟨hplan, hp, hout⟩
  · cases hm : r.moveAt s next rest with
    | error fault =>
      have hfault : r.plan s = .error fault := by rw [hplan, hm]; rfl
      exact absurd hfault (hr.plan 0 fault)
    | ok move =>
      obtain ⟨e, he⟩ : ∃ e, r.grammar.elementAt next.site = .ok e := by
        cases he : r.grammar.elementAt next.site with
        | error fault => simp [Run.moveAt, he, bind, Except.bind] at hm
        | ok e => exact ⟨e, rfl⟩
      obtain ⟨next', rest', e', hnext', htop, hrest, he', halike⟩ := next_alike h hnext he
      obtain ⟨move', hm', hmoves⟩ := moveAt_alike h he he' halike htop hrest hm
      rw [site_of_next hnext] at he hmoves
      refine .inr ⟨e, e', _, _, move, move', he, site_of_next hnext' ▸ he', halike, ?_, ?_, hmoves⟩
      · rw [hplan, hm]
        rfl
      · rw [Run.plan_of_next hnext', hm']
        rfl
  · refine .inl ⟨hplan, ?_⟩
    have hp' : r'.pending = [] := List.forall₂_nil_left_iff.1 (hp ▸ h.pending)
    simp [Run.plan, hp', Stream.inBounds, ← h.position, hout]

/-- Two runs in step tell of the same sighting, each as the element at its site has it, or neither tells anything. It is an error
only at the top. -/
theorem told (h : r.InStep R Q r') (hr : r.Sound s) :
    r.told s = none ∧ r'.told s = none ∨
      ∃ e e' depth depth' sighting, r.grammar.elementAt r.site = .ok e ∧ r'.grammar.elementAt r'.site = .ok e' ∧
        e.Alike R Q depth depth' e' ∧ r.told s = e.tell sighting ∧ r'.told s = e'.tell sighting ∧
        ∀ position, sighting = .unmatched position → r.site = .top := by
  have hphase := h.phase
  by_cases hrun : r.phase = .running
  · rw [hrun] at hphase
    rcases h.plan hr with ⟨hplan, hplan'⟩ | ⟨e, e', depth, depth', move, move', he, he', halike, hplan, hplan', hmoves⟩
    · exact .inl ⟨by simp [Run.told, hrun, hplan], by simp [Run.told, ← hphase, hplan']⟩
    · obtain ⟨sighting, hevent, hevent', htop⟩ := hmoves.sighting
      exact .inr ⟨e, e', depth, depth', sighting, he, he', halike, by simp [Run.told, hrun, hplan, hevent],
        by simp [Run.told, ← hphase, hplan', hevent'], htop⟩
  · exact .inl ⟨by simp [Run.told, hrun], by simp [Run.told, ← hphase, hrun]⟩

/-- A step does not bring two runs out of step. -/
theorem ahead_one (h : r.InStep R Q r') (hr : r.Sound s) : (r.ahead s 1).InStep R Q (r'.ahead s 1) := by
  have hdeaf : Listener.deaf.Patient := fun _ _ => rfl
  have hphase := h.phase
  rw [Run.ahead_one, Run.ahead_one]
  by_cases hrun : r.phase = .running
  · have hrun' : r'.phase = .running := hphase ▸ hrun
    rcases h.plan hr with ⟨hplan, hplan'⟩ | ⟨e, e', depth, depth', move, move', -, -, -, hplan, hplan', hmoves⟩
    · simp only [Run.step, hrun, hrun', hplan, hplan', ne_eq, not_true_eq_false, if_false]
      exact ⟨h.grammars, h.start, h.pending, h.position, rfl⟩
    · rw [ReadingAux.step_of_plan hdeaf hrun hplan, ReadingAux.step_of_plan hdeaf hrun' hplan']
      exact ⟨h.grammars, h.start, hmoves.pending, hmoves.position, h.phase⟩
  · rw [Run.step_of_ended hrun, Run.step_of_ended (hphase ▸ hrun)]
    exact h

/-- Two runs never get out of step. -/
theorem ahead (h : r.InStep R Q r') (hr : r.Sound s) (n : Nat) : (r.ahead s n).InStep R Q (r'.ahead s n) := by
  induction n with
  | zero => exact h
  | succ n ih =>
    rw [Run.ahead_add, Run.ahead_add]
    exact ih.ahead_one (RunTraceAux.sound_ahead hr n)

/-- Some steps of two runs in step tell what is the same of elements that match alike. -/
theorem collect (h : r.InStep R Q r') (hr : r.Sound s) {β : Type} {f : Event → β}
    (hf : ∀ {depth depth' : Nat} {e e' : Element}, e.Alike R Q depth depth' e' →
      ∀ sighting, (e.tell sighting).map f = (e'.tell sighting).map f) (n : Nat) :
    (r.collect .deaf s (·.told s) n ()).map f = (r'.collect .deaf s (·.told s) n ()).map f := by
  induction n generalizing r r' with
  | zero => rfl
  | succ n ih =>
    have hstep : (r.told s).map f = (r'.told s).map f := by
      rcases h.told hr with ⟨htold, htold'⟩ | ⟨e, e', depth, depth', sighting, -, -, halike, htold, htold', -⟩
      · rw [htold, htold']
      · rw [htold, htold', hf halike]
    have hlist := congrArg Option.toList hstep
    rw [Option.toList_map, Option.toList_map] at hlist
    rw [RunTraceAux.collect_succ, RunTraceAux.collect_succ, List.map_append, List.map_append, hlist,
      ih (h.ahead_one hr) (RunTraceAux.sound_ahead hr 1)]

end Run.InStep

end LiveHighlight
