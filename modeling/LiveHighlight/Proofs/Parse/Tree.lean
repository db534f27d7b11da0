import LiveHighlight.Parse.Run
import LiveHighlight.Proofs.Grammar.Closed

/-!
# Parse trees

What lookahead takes, written out: the tree of an element at a position is the element's match with the trees of the production
that its state takes, one level deeper. Lookahead that accepts an element finds the same production again on every level below,
so the tree is there and as long as lookahead said (`exists_treeAt`).
-/

namespace LiveHighlight

/-- A match and the matches that it consists of, in order. A terminal has none. -/
inductive Tree where
  | node (found : Match) (children : List Tree)

namespace Tree

/-- The number of characters of a tree. -/
def length : Tree → Nat
  | node found _ => found.length

/-- The number of characters of trees one after the other. -/
def lengths : List Tree → Nat
  | [] => 0
  | t :: ts => t.length + lengths ts

/-- A match as an event, if its element is visible. -/
def shown (found : Match) : List Event := if found.element.visible then [.matched found] else []

mutual

/-- The visible matches of a tree, each before those that it consists of. -/
def events : Tree → List Event
  | node found children => shown found ++ eventsOf children

/-- The visible matches of trees one after the other. -/
def eventsOf : List Tree → List Event
  | [] => []
  | t :: ts => t.events ++ eventsOf ts

end

end Tree

/-- The trees of elements one after the other, given the tree of each at a position. -/
def forestAt (treeAt : Element → Nat → Option Tree) : List Element → Nat → Option (List Tree)
  | [], _ => some []
  | e :: rest, pos =>
    match treeAt e pos with
    | none => none
    | some t => (forestAt treeAt rest (pos + t.length)).map (t :: ·)

namespace Grammar

/-- The elements of a production of a state. -/
def elements (g : Grammar) (id production : Nat) : List Element :=
  ((g.state? id).bind (·.productions[production]?)).getD []

/-- The tree of a terminal at a position. -/
def leafAt (s : Stream) (e : Element) (t : Terminal) (pos : Nat) : Option Tree :=
  (t.matchAt s pos).map fun length => .node ⟨e, pos, length, none⟩ []

/-- The tree of an element at a position within a depth budget: a state's match is made of the trees of the production that
the state takes there, with one level less. -/
def treeAt (g : Grammar) (s : Stream) : (depth : Nat) → Element → Nat → Option Tree
  | 0, e, pos =>
    match e.target with
    | .terminal t => leafAt s e t pos
    | .state _ => none
  | depth + 1, e, pos =>
    match e.target with
    | .terminal t => leafAt s e t pos
    | .state id =>
      match g.select s (depth + 1) id pos with
      | .ok (some selection) =>
        (forestAt (g.treeAt s depth) (g.elements id selection.production) pos).map
          (.node ⟨e, pos, selection.length, (g.state? id).map (·.name)⟩)
      | _ => none

end Grammar

namespace TreeAux

/-- A first selection is a production of the list, and it matches as long as the selection says. -/
theorem firstSelection_spec {lengthAt : Element → Nat → Except ParseFault (Option Nat)} {pos : Nat} :
    ∀ {productions : List Production} {index : Nat} {selection : Selection},
      firstSelection lengthAt pos index productions = .ok (some selection) →
        ∃ k production, selection.production = index + k ∧ productions[k]? = some production ∧
          sequenceLength lengthAt production pos = .ok (some selection.length)
  | [], _, _, h => by simp [firstSelection] at h
  | production :: rest, index, selection, h => by
    unfold firstSelection at h
    split at h
    · cases h
    · rename_i length hl
      cases h
      exact ⟨0, production, rfl, rfl, hl⟩
    · obtain ⟨k, taken, hk, hp, hl⟩ := firstSelection_spec h
      exact ⟨k + 1, taken, by omega, by simpa using hp, hl⟩

/-- A state that takes a production at a position has it, and its elements match one after the other with one level less. -/
theorem select_spec {g : Grammar} {s : Stream} {depth id pos : Nat} {selection : Selection}
    (h : g.select s (depth + 1) id pos = .ok (some selection)) :
    ∃ state, g.state? id = some state ∧ state.productions[selection.production]? = some (g.elements id selection.production) ∧
      sequenceLength (Element.lengthAt (g.select s depth) s) (g.elements id selection.production) pos =
        .ok (some selection.length) := by
  unfold Grammar.select at h
  split at h
  · cases h
  · rename_i state hs
    obtain ⟨k, production, hk, hp, hl⟩ := firstSelection_spec h
    have hk' : selection.production = k := by omega
    have he : g.elements id selection.production = production := by simp [Grammar.elements, hs, hk', hp]
    exact ⟨state, hs, by rw [he, hk', hp], by rw [he]; exact hl⟩

/-- Elements that match one after the other have trees as long as the match, when each element that matches has one. -/
theorem exists_forestAt {lengthAt : Element → Nat → Except ParseFault (Option Nat)} {treeAt : Element → Nat → Option Tree}
    (htree : ∀ e pos n, lengthAt e pos = .ok (some n) → ∃ t, treeAt e pos = some t ∧ t.length = n) :
    ∀ {es : List Element} {pos n : Nat}, sequenceLength lengthAt es pos = .ok (some n) →
      ∃ ts, forestAt treeAt es pos = some ts ∧ Tree.lengths ts = n
  | [], pos, n, h => by
    simp only [sequenceLength, Except.ok.injEq, Option.some.injEq] at h
    exact ⟨[], rfl, h⟩
  | e :: rest, pos, n, h => by
    unfold sequenceLength at h
    split at h
    · cases h
    · cases h
    · rename_i length hl
      obtain ⟨more, hm, hn⟩ := BuildAux.map_eq_ok_iff.1 h
      obtain ⟨m, rfl, rfl⟩ := Option.map_eq_some_iff.1 hn
      obtain ⟨t, ht, rfl⟩ := htree e pos length hl
      obtain ⟨ts, hts, rfl⟩ := exists_forestAt htree hm
      exact ⟨t :: ts, by simp [forestAt, ht, hts], rfl⟩

/-- Elements that are looked at without a fault are so one after the other. -/
theorem exists_sequenceLength {lengthAt : Element → Nat → Except ParseFault (Option Nat)} :
    ∀ {es : List Element}, (∀ e ∈ es, ∀ pos, ∃ n, lengthAt e pos = .ok n) →
      ∀ pos, ∃ n, sequenceLength lengthAt es pos = .ok n
  | [], _, _ => ⟨some 0, rfl⟩
  | e :: rest, h, pos => by
    obtain ⟨n, hn⟩ := h e List.mem_cons_self pos
    cases n with
    | none => exact ⟨none, by simp only [sequenceLength, hn]⟩
    | some n =>
      obtain ⟨more, hm⟩ := exists_sequenceLength (fun e' he' => h e' (List.mem_cons_of_mem e he')) (pos + n)
      exact ⟨more.map (n + ·), by simp only [sequenceLength, hn, hm, Except.map]⟩

/-- Productions whose elements are looked at without a fault are tried without a fault. -/
theorem exists_firstSelection {lengthAt : Element → Nat → Except ParseFault (Option Nat)} {pos : Nat} :
    ∀ {productions : List Production} {index : Nat},
      (∀ production ∈ productions, ∀ e ∈ production, ∀ pos, ∃ n, lengthAt e pos = .ok n) →
        ∃ found, firstSelection lengthAt pos index productions = .ok found
  | [], _, _ => ⟨none, rfl⟩
  | production :: rest, index, h => by
    obtain ⟨n, hn⟩ := exists_sequenceLength (h production List.mem_cons_self) pos
    cases n with
    | some n => exact ⟨some ⟨index, n⟩, by simp only [firstSelection, hn]⟩
    | none =>
      obtain ⟨found, hf⟩ :=
        @exists_firstSelection lengthAt pos rest (index + 1) fun p hp => h p (List.mem_cons_of_mem production hp)
      exact ⟨found, by simp only [firstSelection, hn, hf]⟩

end TreeAux

open TreeAux

namespace Grammar

/-- A terminal that matches has a tree, whatever the budget. -/
theorem exists_treeAt_of_terminal {g : Grammar} {s : Stream} {depth : Nat} {e : Element} {t : Terminal} {pos n : Nat}
    (he : e.target = .terminal t) (h : t.matchAt s pos = some n) : ∃ tree, g.treeAt s depth e pos = some tree ∧ tree.length = n := by
  refine ⟨.node ⟨e, pos, n, none⟩ [], ?_, rfl⟩
  cases depth <;> simp [treeAt, he, leafAt, h]

/-- What lookahead accepts has a tree, as long as lookahead said. -/
theorem exists_treeAt (g : Grammar) (s : Stream) (depth : Nat) :
    ∀ (e : Element) (pos n : Nat), e.lengthAt (g.select s depth) s pos = .ok (some n) →
      ∃ t, g.treeAt s depth e pos = some t ∧ t.length = n := by
  induction depth with
  | zero =>
    intro e pos n h
    unfold Element.lengthAt at h
    cases he : e.target with
    | terminal t =>
      simp only [he, Except.ok.injEq] at h
      exact exists_treeAt_of_terminal he h
    | state id => simp [he, select, Except.map] at h
  | succ depth ih =>
    intro e pos n h
    unfold Element.lengthAt at h
    cases he : e.target with
    | terminal t =>
      simp only [he, Except.ok.injEq] at h
      exact exists_treeAt_of_terminal he h
    | state id =>
      simp only [he] at h
      obtain ⟨found, hsel, hn⟩ := BuildAux.map_eq_ok_iff.1 h
      obtain ⟨selection, rfl, rfl⟩ := Option.map_eq_some_iff.1 hn
      obtain ⟨state, -, -, hl⟩ := select_spec hsel
      obtain ⟨ts, hts, -⟩ := exists_forestAt ih hl
      exact ⟨.node ⟨e, pos, selection.length, (g.state? id).map (·.name)⟩ ts, by simp [treeAt, he, hsel, hts], rfl⟩

/-- A production that a state takes has trees, which together are as long as lookahead said. -/
theorem exists_forestAt_of_select {g : Grammar} {s : Stream} {depth id pos : Nat} {selection : Selection}
    (h : g.select s (depth + 1) id pos = .ok (some selection)) :
    ∃ ts, forestAt (g.treeAt s depth) (g.elements id selection.production) pos = some ts ∧
      Tree.lengths ts = selection.length := by
  obtain ⟨state, -, -, hl⟩ := select_spec h
  exact exists_forestAt (g.exists_treeAt s depth) hl

/-- Lookahead over a closed grammar never faults. -/
theorem Closed.exists_select {g : Grammar} (hg : g.Closed) (s : Stream) (depth : Nat) :
    ∀ {id : Nat}, id < g.states.length → ∀ pos, ∃ found, g.select s depth id pos = .ok found := by
  induction depth with
  | zero => exact fun _ _ => ⟨none, rfl⟩
  | succ depth ih =>
    intro id hid pos
    obtain ⟨state, hmem, hs⟩ := exists_state hid
    have hlength : ∀ production ∈ state.productions, ∀ e ∈ production, ∀ pos, ∃ n,
        e.lengthAt (g.select s depth) s pos = .ok n := by
      intro production hp e he pos
      unfold Element.lengthAt
      cases ht : e.target with
      | terminal t => exact ⟨t.matchAt s pos, rfl⟩
      | state id =>
        obtain ⟨found, hf⟩ := ih (hg.references state hmem production hp e he id ht) pos
        exact ⟨found.map (·.length), by simp only [hf, Except.map]⟩
    obtain ⟨found, hf⟩ := @exists_firstSelection _ pos state.productions 0 hlength
    exact ⟨found, by simp only [select, hs, hf]⟩

end Grammar

end LiveHighlight
