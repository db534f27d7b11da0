import LiveHighlight.Proofs.Parse.RunTrace
import Mathlib.Computability.Language

/-!
# The language of a grammar

A grammar read as a context-free one: the order of the alternatives, the greed of runs and the depth budget are forgotten, and what
is left is which texts can be derived (`Grammar.Derives`). Lookahead and runs are sound for it: what a state takes is a text of the
production taken, and a match covers a text of what it is a match of (`Grammar.sound`).
-/

namespace LiveHighlight

/-- The texts that a terminal may consume. -/
def Terminal.language : Terminal → Language Char
  | .token lexeme | .literal lexeme => {text | text ≠ [] ∧ text = lexeme.toList}
  | .run accepted bounds => {text | bounds.min ≤ text.length ∧ text.length ≤ bounds.max ∧ ∀ c ∈ text, accepted.accepts c = true}
  | .empty => {[]}
  | .notBlank => {text | ∃ c, isWhiteSpace c = false ∧ text = [c]}

namespace Grammar

/-- Whether a text can be derived from elements one after the other: from a terminal a text that it may consume, from a reference
what can be derived from any production of its state. -/
inductive Derives (g : Grammar) : List Element → List Char → Prop
  | nil : Derives g [] []
  | terminal {e : Element} {t : Terminal} {rest : List Element} {text more : List Char} (target : e.target = .terminal t)
    (consumed : text ∈ t.language) (others : Derives g rest more) : Derives g (e :: rest) (text ++ more)
  | state {e : Element} {id : Nat} {state : State} {production : Production} {rest : List Element} {text more : List Char}
    (target : e.target = .state id) (found : g.state? id = some state) (choice : production ∈ state.productions)
    (taken : Derives g production text) (others : Derives g rest more) : Derives g (e :: rest) (text ++ more)

/-- The texts of elements one after the other. -/
def language (g : Grammar) (elements : List Element) : Language Char := {text | g.Derives elements text}

/-- The texts of a state: those of its productions. -/
def stateLanguage (g : Grammar) (id : Nat) : Language Char :=
  {text | ∃ state, g.state? id = some state ∧ ∃ production ∈ state.productions, text ∈ g.language production}

/-- The texts of what an element stands for. -/
def targetLanguage (g : Grammar) : Target → Language Char
  | .terminal t => t.language
  | .state id => g.stateLanguage id

variable {g : Grammar}

/-- The texts of elements one after the other are those of the first followed by those of the others. -/
theorem language_cons (e : Element) (rest : List Element) :
    g.language (e :: rest) = g.targetLanguage e.target * g.language rest := by
  ext text
  rw [Language.mem_mul]
  constructor
  · intro h
    cases h with
    | terminal target consumed others => exact ⟨_, by rw [target]; exact consumed, _, others, rfl⟩
    | state target found choice taken others => exact ⟨_, by rw [target]; exact ⟨_, found, _, choice, taken⟩, _, others, rfl⟩
  · rintro ⟨text, htext, more, others, rfl⟩
    cases ht : e.target with
    | terminal t =>
      rw [ht] at htext
      exact .terminal ht htext others
    | state id =>
      rw [ht] at htext
      obtain ⟨state, found, production, choice, taken⟩ := htext
      exact .state ht found choice taken others

end Grammar

/-- Whether a stretch of a stream is there and a text of a language. Where it has no character, it may be past the end. -/
structure Stream.Holds (s : Stream) (pos length : Nat) (texts : Language Char) : Prop where
  inside : 0 < length → pos + length ≤ s.length
  mem : (s.slice pos (pos + length)).toList ∈ texts

namespace LanguageAux

variable {s : Stream} {pos : Nat}

theorem toList_slice (s : Stream) (pos length : Nat) :
    (s.slice pos (pos + length)).toList = (s.toList.drop pos).take length := by
  simp [Stream.slice, Stream.toList, List.take_drop]

/-- A stretch that is there has as many characters as it should. -/
theorem length_slice {length : Nat} (h : 0 < length → pos + length ≤ s.length) :
    (s.slice pos (pos + length)).toList.length = length := by
  rw [toList_slice, List.length_take, List.length_drop, Stream.length_toList]
  omega

theorem holds_nil {texts : Language Char} (h : [] ∈ texts) : s.Holds pos 0 texts :=
  ⟨fun h => absurd h (Nat.lt_irrefl 0), by rwa [toList_slice, List.take_zero]⟩

/-- Two stretches one right after the other are one. -/
theorem holds_mul {a b : Nat} {texts others : Language Char} (h : s.Holds pos a texts) (h' : s.Holds (pos + a) b others) :
    s.Holds pos (a + b) (texts * others) := by
  constructor
  · have := h.inside
    have := h'.inside
    omega
  · refine Language.mem_mul.2 ⟨_, h.mem, _, h'.mem, ?_⟩
    rw [toList_slice, toList_slice, toList_slice, List.take_add, List.drop_drop]

/-! ## Terminals -/

/-- What a stream reads is a stretch of it. -/
theorem slice_of_readsAt {chars : List Char} (h : s.readsAt pos chars = true) :
    (s.slice pos (pos + chars.length)).toList = chars := by
  rw [toList_slice]
  induction chars generalizing pos with
  | nil => rfl
  | cons c rest ih =>
    simp only [Stream.readsAt, Bool.and_eq_true, beq_iff_eq] at h
    obtain ⟨hc, hrest⟩ := h
    rw [Stream.charAt_eq_getElem?] at hc
    obtain ⟨hlt, hget⟩ := List.getElem?_eq_some_iff.1 hc
    rw [List.drop_eq_getElem_cons hlt, hget, List.length_cons, List.take_succ_cons, ih hrest]

theorem lt_of_charAt {c : Char} (h : s.charAt pos = some c) : pos < s.length := by
  have hsome : s.inBounds pos = true := by rw [← Stream.isSome_charAt, h]; rfl
  simpa [Stream.inBounds] using hsome

/-- A stretch is at most as long as asked for, it is there, and its characters are accepted, if those found so far are. -/
theorem stretch_spec {accepts : Char → Bool} (more found : Nat)
    (h : ∀ i < found, ∃ c, s.charAt (pos + i) = some c ∧ accepts c = true) :
    s.stretch accepts pos more found ≤ found + more ∧
      ∀ i < s.stretch accepts pos more found, ∃ c, s.charAt (pos + i) = some c ∧ accepts c = true := by
  induction more generalizing found with
  | zero => exact ⟨Nat.le_refl _, h⟩
  | succ more ih =>
    unfold Stream.stretch
    split
    · next c hc =>
      split
      · next ha =>
        obtain ⟨hle, hall⟩ := ih (found + 1) (by
          intro i hi
          rcases Nat.lt_succ_iff_lt_or_eq.1 hi with hi | rfl
          · exact h i hi
          · exact ⟨c, hc, ha⟩)
        exact ⟨by omega, hall⟩
      · exact ⟨by omega, h⟩
    · exact ⟨by omega, h⟩

/-- What a terminal consumes is a text of its language. -/
theorem holds_of_matchAt {t : Terminal} {n : Nat} (h : t.matchAt s pos = some n) : s.Holds pos n t.language := by
  have lexeme {text : String} (h : Terminal.matchLexeme text s pos = some n) :
      s.Holds pos n {chars | chars ≠ [] ∧ chars = text.toList} := by
    obtain ⟨⟨hne, hreads⟩, rfl⟩ := Option.ite_some_none_eq_some.1 h
    have hslice := slice_of_readsAt hreads
    refine ⟨fun _ => ?_, by rw [hslice]; exact ⟨hne, rfl⟩⟩
    have hlength := congrArg List.length hslice
    have hpos := List.length_pos_iff.2 hne
    rw [toList_slice, List.length_take, List.length_drop, Stream.length_toList] at hlength
    omega
  cases t with
  | token text | literal text => exact lexeme h
  | run accepted bounds =>
    obtain ⟨hmin, rfl⟩ := Option.ite_some_none_eq_some.1 h
    obtain ⟨hmax, hall⟩ := @stretch_spec s pos accepted.accepts bounds.max 0 (by simp)
    generalize s.stretch accepted.accepts pos bounds.max 0 = length at *
    have hin : 0 < length → pos + length ≤ s.length := by
      intro hpos
      obtain ⟨c, hc, -⟩ := hall (length - 1) (by omega)
      have hlt := lt_of_charAt hc
      omega
    refine ⟨hin, ?_⟩
    have hlength := length_slice hin
    refine ⟨by rw [hlength]; exact hmin, by rw [hlength]; omega, ?_⟩
    intro c hc
    rw [toList_slice] at hc
    obtain ⟨i, hi, rfl⟩ := List.mem_iff_getElem.1 hc
    have hi' : i < length := by
      rw [List.length_take] at hi
      omega
    obtain ⟨c, hat, ha⟩ := hall i hi'
    rw [Stream.charAt_eq_getElem?] at hat
    obtain ⟨hlt, hget⟩ := List.getElem?_eq_some_iff.1 hat
    rw [List.getElem_take, List.getElem_drop, hget]
    exact ha
  | empty =>
    obtain rfl : 0 = n := Option.some.inj h
    exact holds_nil rfl
  | notBlank =>
    obtain ⟨c, hc, hn⟩ := Option.bind_eq_some_iff.1 h
    split at hn
    · cases hn
    · next hblank =>
      obtain rfl : 1 = n := Option.some.inj hn
      have hlt := lt_of_charAt hc
      rw [Stream.charAt_eq_getElem?] at hc
      obtain ⟨hlt', hget⟩ := List.getElem?_eq_some_iff.1 hc
      refine ⟨fun _ => hlt, c, by simpa using hblank, ?_⟩
      rw [toList_slice, List.drop_eq_getElem_cons hlt', hget]
      rfl

/-! ## Lookahead -/

/-- Elements that match one after the other consume a text of theirs, if each element that matches does. -/
theorem holds_of_sequenceLength {g : Grammar} {lengthAt : Element → Nat → Except ParseFault (Option Nat)}
    (hlength : ∀ e pos n, lengthAt e pos = .ok (some n) → s.Holds pos n (g.targetLanguage e.target)) :
    ∀ {es : List Element} {pos n : Nat}, sequenceLength lengthAt es pos = .ok (some n) → s.Holds pos n (g.language es)
  | [], pos, n, h => by
    obtain rfl : 0 = n := by simpa [sequenceLength] using h
    exact holds_nil .nil
  | e :: rest, pos, n, h => by
    unfold sequenceLength at h
    split at h
    · cases h
    · cases h
    · next length hl =>
      obtain ⟨found, hrest, hn⟩ := BuildAux.map_eq_ok_iff.1 h
      obtain ⟨more, rfl, rfl⟩ := Option.map_eq_some_iff.1 hn
      rw [Grammar.language_cons]
      exact holds_mul (hlength e pos length hl) (holds_of_sequenceLength hlength hrest)

/-- What a state takes is a text of the production that it takes. The induction is on the depth budget. -/
theorem holds_of_select {g : Grammar} {depth : Nat} : ∀ {id pos : Nat} {selection : Selection},
    g.select s depth id pos = .ok (some selection) →
      ∃ state production, g.state? id = some state ∧ state.productions[selection.production]? = some production ∧
        s.Holds pos selection.length (g.language production) := by
  induction depth with
  | zero => nofun
  | succ depth ih =>
    intro id pos selection h
    obtain ⟨state, hs, hp, hl⟩ := TreeAux.select_spec h
    refine ⟨state, _, hs, hp, holds_of_sequenceLength ?_ hl⟩
    intro e pos n he
    unfold Element.lengthAt at he
    cases ht : e.target with
    | terminal t =>
      rw [ht] at he
      exact holds_of_matchAt (Except.ok.inj he)
    | state id =>
      rw [ht] at he
      obtain ⟨found, hsel, hn⟩ := BuildAux.map_eq_ok_iff.1 he
      obtain ⟨taken, rfl, rfl⟩ := Option.map_eq_some_iff.1 hn
      obtain ⟨state, production, hs, hp, hin, hmem⟩ := ih hsel
      exact ⟨hin, state, hs, production, List.mem_of_getElem? hp, hmem⟩

/-- What a state takes is a text of the state. -/
theorem holds_of_select_state {g : Grammar} {depth id : Nat} {selection : Selection}
    (h : g.select s depth id pos = .ok (some selection)) : s.Holds pos selection.length (g.stateLanguage id) := by
  obtain ⟨state, production, hs, hp, hin, hmem⟩ := holds_of_select h
  exact ⟨hin, state, hs, production, List.mem_of_getElem? hp, hmem⟩

/-! ## Runs -/

variable {r : Run} {m : Match}

theorem holds_of_report {e : Element} {length : Nat} {name : Option String} {texts : Language Char}
    (h : s.Holds r.position length texts) (he : r.report e length name = some (.matched m)) :
    m.element = e ∧ m.state = name ∧ s.Holds m.offset m.length texts := by
  obtain ⟨-, hevent⟩ := Option.ite_none_right_eq_some.1 he
  obtain rfl := Event.matched.inj (Option.some.inj hevent)
  exact ⟨rfl, rfl, h⟩

/-- Whether a match is of text that its element stands for, and names the state that its element refers to. -/
def Faithful (g : Grammar) (s : Stream) (m : Match) : Prop :=
  s.Holds m.offset m.length (g.targetLanguage m.element.target) ∧
    m.state = (m.element.state?.bind g.state?).map (·.name)

/-- The match that a move tells is a faithful one. -/
theorem faithful_of_moveAt {next : Pending} {rest : List Pending} {move : Move} (h : r.moveAt s next rest = .ok move)
    (he : move.event = some (.matched m)) : Faithful r.grammar s m := by
  simp only [Run.moveAt, bind, Except.bind] at h
  split at h
  · cases h
  · next e _ =>
    split at h
    · next t ht =>
      split at h
      · cases h
      · next length hm =>
        obtain rfl := Except.ok.inj h
        obtain ⟨rfl, hname, hheld⟩ := holds_of_report (holds_of_matchAt hm) he
        exact ⟨by rw [ht]; exact hheld, by rw [hname, Element.state?, ht]; rfl⟩
    · next id ht =>
      split at h
      · cases h
      · split at h
        · next hsel =>
          split at h
          · -- an error is told, and no match
            obtain rfl := Except.ok.inj h
            cases he
          · split at h
            · cases h
            · obtain rfl := Except.ok.inj h
              obtain ⟨rfl, hname, hheld⟩ := holds_of_report (holds_of_select_state hsel) he
              exact ⟨by rw [ht]; exact hheld, by rw [hname, Element.state?, ht]; rfl⟩
        · split at h
          · obtain rfl := Except.ok.inj h
            cases he
          · cases h

/-- The match that the next step of a run tells is a faithful one. -/
theorem faithful_of_told (h : r.told s = some (.matched m)) : Faithful r.grammar s m := by
  unfold Run.told at h
  split at h
  · cases h
  · split at h
    · next move hp =>
      obtain ⟨next, rest, -, hm⟩ := Run.moveAt_of_plan hp
      exact faithful_of_moveAt hm h
    · cases h

variable {σ : Type} {l : Listener σ}

/-- The matches that some steps tell are faithful ones, whoever listens. -/
theorem faithful_of_collect {n : Nat} {memory : σ} (h : .matched m ∈ r.collect l s (·.told s) n memory) :
    Faithful r.grammar s m := by
  induction n generalizing r memory with
  | zero => cases h
  | succ n ih =>
    rw [Run.collect, List.mem_append, Option.mem_toList] at h
    rcases h with h | h
    · exact faithful_of_told h
    · have hrest := ih h
      rwa [Run.grammar_step] at hrest

end LanguageAux

open LanguageAux

/-- Lookahead and runs are sound for the language of a grammar. At any position, the end of the stream and beyond included, and
within any budget, a state that takes a production takes a text of that production, and what it takes is there. Whoever listens to a
run, each match that it tells covers a text of its terminal or of its state, and names the state. -/
theorem Grammar.sound (g : Grammar) (s : Stream) :
    (∀ (depth id pos : Nat) (selection : Selection), g.select s depth id pos = .ok (some selection) →
      ∃ state production, g.state? id = some state ∧ state.productions[selection.production]? = some production ∧
        s.Holds pos selection.length (g.language production)) ∧
    ∀ {σ : Type} (l : Listener σ) (maxDepth steps : Nat) (memory : σ) (m : Match),
      .matched m ∈ (Run.start g maxDepth).collect l s (·.told s) steps memory →
        s.Holds m.offset m.length (g.targetLanguage m.element.target) ∧
          m.state = (m.element.state?.bind g.state?).map (·.name) :=
  ⟨fun _ _ _ _ h => holds_of_select h, fun _ _ _ _ _ h => faithful_of_collect h⟩

example : brackets.select (.ofString "x[[]]") 3 0 1 = .ok (some ⟨0, 4⟩) := by decide +kernel

end LiveHighlight
