import LiveHighlight.Proofs.Parse.Steps
import LiveHighlight.Proofs.Parse.Tree

/-!
# What a run tells

The reading of a stream is told without a stack: at each position either the tree of what the start state takes there, or an
error and the next position. A run over a built grammar tells a listener that refuses nothing exactly the reading, and ends
without a fault (`toEnd_eq_reading`). The stack of a run is a row of elements still to be matched: a run works off an element
that has a tree by telling the tree (`delivers_tree`), and elements that have trees one after the other (`delivers_forest`).
-/

namespace LiveHighlight

/-- The events of a stream from a position on: the visible matches of what the start state takes, or an error where it takes
nothing or nothing but the empty text. -/
def Grammar.reading (g : Grammar) (s : Stream) (depth pos : Nat) : List Event :=
  if pos < s.length then
    match g.select s depth g.start pos with
    | .ok (some selection) =>
      if selection.length = 0 then .unmatched g.startElement pos :: g.reading s depth (pos + 1)
      else
        ((g.treeAt s depth g.startElement pos).map (·.events)).getD [] ++ g.reading s depth (pos + selection.length)
    | _ => .unmatched g.startElement pos :: g.reading s depth (pos + 1)
  else []
termination_by s.length - pos

/-- A listener that refuses no event. -/
def Listener.Patient {σ : Type} (l : Listener σ) : Prop := ∀ memory e, (l.hear memory e).2 = none

/-- The memory of a listener after some events. -/
def Listener.after {σ : Type} (l : Listener σ) (memory : σ) (events : List Event) : σ :=
  events.foldl (fun memory e => (l.hear memory e).1) memory

/-- A pending element stands for an element that is to be expanded within a depth budget. -/
def Stands (g : Grammar) (depth : Nat) (p : Pending) (e : Element) : Prop :=
  g.elementAt p.site = .ok e ∧ p.site ≠ .top ∧ p.depth = depth

/-- A run that is to match some pending elements before others tells the events, and then stands at `stop` with the others
before it. -/
def Delivers {σ : Type} (l : Listener σ) (s : Stream) (g : Grammar) (pending : List Pending) (pos : Nat) (events : List Event)
    (stop : Nat) : Prop :=
  ∀ (rest : List Pending) (r : Run) (memory : σ), r.phase = .running → r.grammar = g → r.pending = pending ++ rest →
    r.position = pos → Run.Leads l s (r, memory) ({ r with pending := rest, position := stop }, l.after memory events)

section

variable {σ : Type} {g : Grammar} {s : Stream} {l : Listener σ}

/-- The memory after some events and then others. -/
theorem Listener.after_append (l : Listener σ) (memory : σ) (a b : List Event) :
    l.after memory (a ++ b) = l.after (l.after memory a) b := List.foldl_append

theorem Delivers.nil (pos : Nat) : Delivers l s g [] pos [] pos := by
  rintro rest ⟨_, _, _, _, _⟩ memory - - hp rfl
  obtain rfl : _ = rest := hp
  exact Run.Leads.refl _

/-- Pending elements are worked off one after the other. -/
theorem Delivers.append {a b : List Pending} {pos mid stop : Nat} {events events' : List Event}
    (h : Delivers l s g a pos events mid) (h' : Delivers l s g b mid events' stop) :
    Delivers l s g (a ++ b) pos (events ++ events') stop := by
  intro rest r memory hr hg hp hpos
  have h₁ := h (b ++ rest) r memory hr hg (by rw [hp, List.append_assoc]) hpos
  have h₂ := h' rest { r with pending := b ++ rest, position := mid } (l.after memory events) hr hg rfl rfl
  rw [← Listener.after_append] at h₂
  exact h₁.trans h₂

end

namespace ReadingAux

variable {σ : Type} {g : Grammar} {s : Stream} {l : Listener σ}

/-- A step that is planned is taken and told. -/
theorem step_of_plan (hl : l.Patient) {r : Run} (hr : r.phase = .running) {move : Move} (h : r.plan s = .ok (some move))
    (memory : σ) : r.step l s memory = (r.follow move, l.after memory move.event.toList) := by
  cases he : move.event with
  | none => simp [Run.step, hr, h, he, Listener.after]
  | some event =>
    have hh := hl memory event
    generalize hp : l.hear memory event = heard at hh
    obtain ⟨memory', refused⟩ := heard
    simp only at hh
    subst hh
    simp [Run.step, hr, h, he, hp, Listener.after]

/-- The pending elements of a production stand for its elements, with the budget they are given. -/
theorem expand_row {id production : Nat} {state : State} (hs : g.state? id = some state) {elements : Production}
    (hp : state.productions[production]? = some elements) (depth : Nat) :
    ∃ pending, g.expand id production depth = .ok pending ∧ List.Forall₂ (Stands g depth) pending elements := by
  refine ⟨(List.range elements.length).map fun index => ⟨.inside id production index, depth⟩,
    by simp only [Grammar.expand, hs, Option.bind_some, hp], ?_⟩
  rw [List.forall₂_iff_get]
  refine ⟨by simp, ?_⟩
  intro i h₁ h₂
  simp [Stands, Grammar.elementAt, hs, hp, h₂]

/-- A terminal that matches is worked off by telling its match. -/
theorem delivers_leaf (hl : l.Patient) {depth : Nat} {p : Pending} {e : Element} (hpe : Stands g depth p e) {t : Terminal}
    (ht : e.target = .terminal t) {pos : Nat} {tree : Tree} (h : Grammar.leafAt s e t pos = some tree) :
    Delivers l s g [p] pos tree.events (pos + tree.length) := by
  rintro rest r memory hr hg hp rfl
  obtain ⟨he, -, -⟩ := hpe
  obtain ⟨length, hm, rfl⟩ := Option.map_eq_some_iff.1 h
  have hplan : r.plan s = .ok (some ⟨r.report e length none, r.position + length, rest⟩) := by
    simp only [Run.plan, hp, List.singleton_append, Run.moveAt, hg, he, bind, Except.bind, ht, hm, pure, Except.pure, Except.map]
  refine Run.Leads.step ?_
  rw [step_of_plan hl hr hplan]
  by_cases hv : e.visible <;>
    simp [Run.follow, Run.report, Tree.length, Tree.events, Tree.shown, Tree.eventsOf, hv]

/-- Taking the production of a state tells the state's match and puts the production's elements before the others. -/
theorem leads_expand (hl : l.Patient) {r : Run} (hr : r.phase = .running) (hg : r.grammar = g) (p : Pending)
    (rest : List Pending) (hp : r.plan s = (r.moveAt s p rest).map some) {e : Element} (he : g.elementAt p.site = .ok e)
    {id : Nat} (ht : e.target = .state id) {depth : Nat} (hd : p.depth = depth + 1) {selection : Selection}
    (hsel : g.select s (depth + 1) id r.position = .ok (some selection))
    (htop : p.site = .top → selection.length ≠ 0) (memory : σ) :
    ∃ pending, List.Forall₂ (Stands g depth) pending (g.elements id selection.production) ∧
      Run.Leads l s (r, memory) ({ r with pending := pending ++ rest },
        l.after memory (Tree.shown ⟨e, r.position, selection.length, (g.state? id).map (·.name)⟩)) := by
  obtain ⟨state, hs, hprod, -⟩ := TreeAux.select_spec hsel
  obtain ⟨pending, hexp, hrow⟩ := expand_row hs hprod depth
  refine ⟨pending, hrow, Run.Leads.step ?_⟩
  have hn : ¬(p.site = .top ∧ selection.length = 0) := fun h => htop h.1 h.2
  have hplan : r.plan s =
      .ok (some ⟨r.report e selection.length ((g.state? id).map (·.name)), r.position, pending ++ rest⟩) := by
    rw [hp]
    simp only [Run.moveAt, hg, he, bind, Except.bind, ht, hd, hsel, hn, if_false, Nat.add_sub_cancel, hexp, pure, Except.pure,
      Except.map]
  rw [step_of_plan hl hr hplan]
  by_cases hv : e.visible <;> simp [Run.follow, Run.report, Tree.shown, hv]

/-- Pending elements that have trees one after the other are worked off by telling the trees, when each of them that has a tree
is worked off by telling it. -/
theorem delivers_forest {depth : Nat}
    (htree : ∀ e pos t, g.treeAt s depth e pos = some t →
      ∀ p, Stands g depth p e → Delivers l s g [p] pos t.events (pos + t.length)) :
    ∀ {es : List Element} {pending : List Pending}, List.Forall₂ (Stands g depth) pending es →
      ∀ (pos : Nat) (ts : List Tree), forestAt (g.treeAt s depth) es pos = some ts →
        Delivers l s g pending pos (Tree.eventsOf ts) (pos + Tree.lengths ts)
  | _, _, .nil, pos, ts, hts => by
    cases hts
    exact Delivers.nil pos
  | e :: es, p :: pending, .cons hpe hrow, pos, ts, hts => by
    unfold forestAt at hts
    split at hts
    · cases hts
    · rename_i t ht
      obtain ⟨more, hm, rfl⟩ := Option.map_eq_some_iff.1 hts
      have h := (htree e pos t ht p hpe).append (delivers_forest htree hrow (pos + t.length) more hm)
      rw [Nat.add_assoc] at h
      exact h

/-- An element that has a tree is worked off by telling the tree. The induction is on the depth budget: the elements of the
production that a state takes are worked off with one level less, and lookahead has seen them match with just that. -/
theorem delivers_tree (hl : l.Patient) (depth : Nat) :
    ∀ e pos t, g.treeAt s depth e pos = some t → ∀ p, Stands g depth p e →
      Delivers l s g [p] pos t.events (pos + t.length) := by
  induction depth with
  | zero =>
    intro e pos t h p hpe
    cases ht : e.target with
    | terminal terminal =>
      simp only [Grammar.treeAt, ht] at h
      exact delivers_leaf hl hpe ht h
    | state id => simp [Grammar.treeAt, ht] at h
  | succ depth ih =>
    intro e pos t h p hpe
    cases ht : e.target with
    | terminal terminal =>
      simp only [Grammar.treeAt, ht] at h
      exact delivers_leaf hl hpe ht h
    | state id =>
      simp only [Grammar.treeAt, ht] at h
      split at h
      · rename_i selection hsel
        obtain ⟨ts, hts, rfl⟩ := Option.map_eq_some_iff.1 h
        obtain ⟨ts', hts', hlen⟩ := Grammar.exists_forestAt_of_select hsel
        obtain rfl : ts' = ts := Option.some.inj (hts'.symm.trans hts)
        rintro rest r memory hr hg hp rfl
        obtain ⟨pending, hrow, h₁⟩ := leads_expand hl hr hg p rest
          (by simp only [Run.plan, hp, List.singleton_append]) hpe.1 ht hpe.2.2 hsel (fun htop => absurd htop hpe.2.1) memory
        have h₂ := delivers_forest ih hrow r.position ts' hts rest { r with pending := pending ++ rest }
          (l.after memory (Tree.shown ⟨e, r.position, selection.length, (g.state? id).map (·.name)⟩)) hr hg rfl rfl
        rw [← Listener.after_append, hlen] at h₂
        exact h₁.trans h₂
      · cases h

/-- Where the start state takes nothing or nothing but the empty text, a run tells an error and passes over a character. -/
theorem leads_error (hl : l.Patient) {r : Run} (hr : r.phase = .running) (hg : r.grammar = g) (hp : r.pending = [])
    (hin : r.position < s.length)
    (hsel : g.select s r.maxDepth g.start r.position = .ok none ∨
      ∃ selection, g.select s r.maxDepth g.start r.position = .ok (some selection) ∧ selection.length = 0) (memory : σ) :
    Run.Leads l s (r, memory)
      ({ r with pending := [], position := r.position + 1 }, l.after memory [.unmatched g.startElement r.position]) := by
  have hb : s.inBounds r.position = true := by simp [Stream.inBounds, hin]
  have hmove : r.moveAt s ⟨.top, r.maxDepth⟩ [] = .ok ⟨some (.unmatched g.startElement r.position), r.position + 1, []⟩ := by
    rcases hsel with hsel | ⟨selection, hsel, hlen⟩
    · simp only [Run.moveAt, hg, Grammar.elementAt, bind, Except.bind, Grammar.startElement, hsel, if_true, pure, Except.pure]
    · simp only [Run.moveAt, hg, Grammar.elementAt, bind, Except.bind, Grammar.startElement, hsel, hlen, and_self, if_true,
        pure, Except.pure]
  have hplan : r.plan s = .ok (some ⟨some (.unmatched g.startElement r.position), r.position + 1, []⟩) := by
    simp only [Run.plan, hp, hb, hmove, Except.map, if_true]
  refine Run.Leads.step ?_
  rw [step_of_plan hl hr hplan]
  rfl

/-- Where the start state takes a text that is not empty, a run tells its tree and stands after the text. -/
theorem leads_match (hl : l.Patient) {r : Run} (hr : r.phase = .running) (hg : r.grammar = g) (hp : r.pending = [])
    (hin : r.position < s.length) {selection : Selection}
    (hsel : g.select s r.maxDepth g.start r.position = .ok (some selection)) (hlen : selection.length ≠ 0) (memory : σ) :
    Run.Leads l s (r, memory) ({ r with pending := [], position := r.position + selection.length },
      l.after memory (((g.treeAt s r.maxDepth g.startElement r.position).map (·.events)).getD [])) := by
  have hb : s.inBounds r.position = true := by simp [Stream.inBounds, hin]
  cases hd : r.maxDepth with
  | zero => simp [hd, Grammar.select] at hsel
  | succ depth =>
    rw [hd] at hsel
    obtain ⟨ts, hts, hsum⟩ := Grammar.exists_forestAt_of_select hsel
    have htree : g.treeAt s (depth + 1) g.startElement r.position =
        some (.node ⟨g.startElement, r.position, selection.length, (g.state? g.start).map (·.name)⟩ ts) := by
      simp [Grammar.treeAt, Grammar.startElement, hsel, hts]
    obtain ⟨pending, hrow, h₁⟩ := leads_expand hl hr hg ⟨.top, r.maxDepth⟩ []
      (by simp only [Run.plan, hp, hb, if_true]) (e := g.startElement) rfl rfl hd hsel (fun _ => hlen) memory
    have h₂ := delivers_forest (delivers_tree hl depth) hrow r.position ts hts [] { r with pending := pending ++ [] }
      (l.after memory (Tree.shown ⟨g.startElement, r.position, selection.length, (g.state? g.start).map (·.name)⟩))
      hr hg rfl rfl
    rw [← Listener.after_append, hsum] at h₂
    rw [hd] at h₁ h₂
    rw [htree]
    exact h₁.trans h₂

/-- A run with nothing pending tells the reading from its position on and ends. -/
theorem leads_reading (hg : g.Closed) (hl : l.Patient) (depth pos : Nat) :
    ∀ (r : Run) (memory : σ), r.phase = .running → r.grammar = g → r.maxDepth = depth → r.pending = [] → r.position = pos →
      ∃ r' : Run, r'.phase = .finished ∧ r'.plan s = .ok none ∧
        Run.Leads l s (r, memory) (r', l.after memory (g.reading s depth pos)) := by
  induction pos using Grammar.reading.induct g s depth with
  | case1 pos hpos selection hsel hzero ih =>
    intro r memory hr hrg hd hp hrpos
    subst hrpos hd
    have h₁ := leads_error hl hr hrg hp hpos (.inr ⟨selection, hsel, hzero⟩) memory
    obtain ⟨r', hf, hplan, h₂⟩ := ih { r with pending := [], position := r.position + 1 } _ hr hrg rfl rfl rfl
    rw [← Listener.after_append] at h₂
    refine ⟨r', hf, hplan, ?_⟩
    rw [Grammar.reading]
    simp only [hpos, if_true, hsel, hzero]
    exact h₁.trans h₂
  | case2 pos hpos selection hsel hlen ih =>
    intro r memory hr hrg hd hp hrpos
    subst hrpos hd
    have h₁ := leads_match hl hr hrg hp hpos hsel hlen memory
    obtain ⟨r', hf, hplan, h₂⟩ := ih { r with pending := [], position := r.position + selection.length } _ hr hrg rfl rfl rfl
    rw [← Listener.after_append] at h₂
    refine ⟨r', hf, hplan, ?_⟩
    rw [Grammar.reading]
    simp only [hpos, if_true, hsel, hlen, if_false]
    exact h₁.trans h₂
  | case3 pos hpos hsel ih =>
    intro r memory hr hrg hd hp hrpos
    subst hrpos hd
    obtain ⟨found, hfound⟩ := hg.exists_select s r.maxDepth hg.start r.position
    cases found with
    | some selection => exact absurd hfound (hsel selection)
    | none =>
      have h₁ := leads_error hl hr hrg hp hpos (.inl hfound) memory
      obtain ⟨r', hf, hplan, h₂⟩ := ih { r with pending := [], position := r.position + 1 } _ hr hrg rfl rfl rfl
      rw [← Listener.after_append] at h₂
      refine ⟨r', hf, hplan, ?_⟩
      rw [Grammar.reading]
      simp only [hpos, if_true, hfound]
      exact h₁.trans h₂
  | case4 pos hpos =>
    intro r memory hr hrg hd hp hrpos
    subst hrpos
    have hb : s.inBounds r.position = false := by simp [Stream.inBounds, hpos]
    refine ⟨{ r with phase := .finished }, rfl, by simp [Run.plan, hp, hb], Run.Leads.step ?_⟩
    rw [Grammar.reading]
    simp [Run.step, hr, Run.plan, hp, hb, hpos, Listener.after]

/-- A run that ends without a fault never plans one. -/
theorem plan_ne_error {r r' : Run} {memory memory' : σ} (h : Run.Leads l s (r, memory) (r', memory'))
    (hr' : r'.phase = .finished) (hplan : r'.plan s = .ok none) (n : Nat) (fault : ParseFault) :
    (r.advance l s n memory).1.plan s ≠ .error fault := by
  intro hn
  obtain ⟨m, hm⟩ := h
  generalize hx : r.advance l s n memory = x at hn
  obtain ⟨a, mem⟩ := x
  by_cases hle : m ≤ n
  · -- the run has ended by then, and where it ended nothing is left to plan
    obtain ⟨k, rfl⟩ := Nat.exists_eq_add_of_le hle
    rw [Run.advance_add, hm, Run.advance_of_ended (by simp [hr'])] at hx
    cases hx
    simp [hplan] at hn
  · -- the planned fault would have been the end
    obtain ⟨k, rfl⟩ := Nat.exists_eq_add_of_lt (Nat.lt_of_not_le hle)
    have hstep : ∃ b mem', a.step l s mem = (b, mem') ∧ b.phase ≠ .running ∧ b.phase ≠ .finished := by
      by_cases ha : a.phase = .running
      · exact ⟨a.fail, l.abort mem fault a.position, by simp [Run.step, ha, hn], by simp [Run.fail], by simp [Run.fail]⟩
      · refine ⟨a, mem, Run.step_of_ended ha mem, ha, ?_⟩
        intro hf
        rw [Nat.add_assoc, Run.advance_add, hx, Run.advance_of_ended ha] at hm
        cases hm
        simp [hplan] at hn
    obtain ⟨b, mem', hb, hrun, hfin⟩ := hstep
    rw [Nat.add_assoc, Run.advance_add, hx, Nat.add_comm k 1, Run.advance_add] at hm
    simp only [Run.advance_succ, hb] at hm
    rw [show (Run.advance l s 0 b mem').1 = b from rfl, Run.advance_of_ended hrun] at hm
    cases hm
    exact hfin hr'

end ReadingAux

open ReadingAux

/-- A run over a grammar that was built, told to a listener that refuses nothing, never faults: it ends,
and its listener has heard the reading of the stream from the beginning and nothing else. -/
theorem toEnd_eq_reading {σ : Type} {spec : GrammarSpec} {registry : TerminalRegistry} {g : Grammar}
    (hg : spec.build registry = .ok g) {l : Listener σ} (hl : l.Patient) (s : Stream) (maxDepth : Nat) (memory : σ) :
    (∃ r : Run, r.phase = .finished ∧
      (Run.start g maxDepth).toEnd l s memory = (r, l.after memory (g.reading s (max maxDepth 1) 0))) ∧
    ∀ n fault, ((Run.start g maxDepth).advance l s n memory).1.plan s ≠ .error fault := by
  obtain ⟨r, hr, hplan, h⟩ := leads_reading (s := s) (closed_of_build hg) hl (max maxDepth 1) 0 (Run.start g maxDepth) memory
    rfl rfl rfl rfl rfl
  exact ⟨⟨r, hr, h.toEnd (by simp [hr])⟩, plan_ne_error h hr hplan⟩

/-- Pairs of brackets around pairs of brackets or nothing: recursive, and the start state takes the empty text. -/
def bracketSpec : GrammarSpec :=
  let terminal (cls : String) (value : Option String) : ElementSpec := { ElementSpec.blank with terminal := cls, value }
  ⟨"brackets", none, [⟨"start",
    [[terminal "token" "[", { ElementSpec.blank with state := "start", word := true }, terminal "token" "]"],
     [terminal "empty" none]]⟩]⟩

/-- The grammar of `bracketSpec`. -/
def brackets : Grammar :=
  let token (lexeme : String) : Element := ⟨.terminal (.token lexeme), .plain, true, false⟩
  ⟨"brackets", [⟨"start", [[token "[", ⟨.state 0, .plain, true, true⟩, token "]"],
    [⟨.terminal .empty, .plain, false, false⟩]]⟩], 0⟩

/-- Brackets nested as deeply as the budget allows, and a bracket too many. -/
theorem toEnd_brackets :
    bracketSpec.build .standard = .ok brackets ∧ notebook.Patient ∧
    (∃ r : Run, r.phase = .finished ∧ (Run.start brackets 3).toEnd notebook (.ofString "[[]]]") #[] =
      (r, notebook.after #[] (brackets.reading (.ofString "[[]]]") 3 0))) ∧
    ∀ n fault, ((Run.start brackets 3).advance notebook (.ofString "[[]]]") n #[]).1.plan (.ofString "[[]]]") ≠ .error fault :=
  have hg : bracketSpec.build .standard = .ok brackets := by decide +kernel
  have hl : notebook.Patient := fun _ _ => rfl
  ⟨hg, hl, toEnd_eq_reading hg hl (.ofString "[[]]]") 3 #[]⟩

end LiveHighlight
