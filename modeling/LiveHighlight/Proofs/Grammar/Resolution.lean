import LiveHighlight.Grammar.Description
import Mathlib.Data.List.Forall2
import Mathlib.Data.List.Nodup

/-!
# What descriptions describe

`ElementSpec.Means` says what an element of a description stands for, `GrammarSpec.Describes` which grammar a description describes,
and `GrammarSpec.WellFormed` which descriptions are sound. None of them says how any of it is found out. Building gives a grammar
exactly if the description is well-formed and describes it (`GrammarSpec.build_eq_ok_iff`), and a description that is well-formed
describes one (`GrammarSpec.exists_describes`).
-/

namespace LiveHighlight

/-- What an element of a description stands for, where the states have the given names. -/
inductive ElementSpec.Means (registry : TerminalRegistry) (names : List String) (spec : ElementSpec) : Target → Prop
  /-- The terminal that a registered class makes of the value, with the limits put on it. It is no word. -/
  | terminal {cls : String} {maker : TerminalMaker} {made t : Terminal} (class_eq : spec.terminal = some cls)
    (state_eq : spec.state = none) (plain : spec.word = false) (registered : Directory.get? registry cls = some maker)
    (accepted : maker spec.value = .ok made) (limited : made.limit spec.min spec.max = .ok t) :
    Means registry names spec (.terminal t)
  /-- A state that is declared. It takes no limits. -/
  | state {reference : String} {id : Nat} (class_eq : spec.terminal = none) (state_eq : spec.state = some reference)
    (min_eq : spec.min = none) (max_eq : spec.max = none) (declared : names[id]? = some reference) :
    Means registry names spec (.state id)

/-- Whether an element that does not say it is shown, by what it stands for: terminals are but for the empty one, and references
that are words. -/
def ElementSpec.isShown (spec : ElementSpec) : Target → Bool
  | .terminal t => decide (t ≠ .empty)
  | .state _ => spec.word

/-- Whether an element is the one that is described, where the states have the given names. -/
structure ElementSpec.Becomes (registry : TerminalRegistry) (names : List String) (spec : ElementSpec) (e : Element) : Prop where
  target : spec.Means registry names e.target
  color : e.color = .ofNat spec.color
  visible : e.visible = spec.visible.getD (spec.isShown e.target)
  word : e.word = spec.word

/-- Whether a state is the one that is described, its productions and their elements in order. -/
structure StateSpec.Becomes (registry : TerminalRegistry) (names : List String) (spec : StateSpec) (state : State) : Prop where
  name : state.name = spec.name
  productions : List.Forall₂ (List.Forall₂ (ElementSpec.Becomes registry names)) spec.productions state.productions

namespace GrammarSpec

variable {spec : GrammarSpec} {registry : TerminalRegistry} {g : Grammar}

/-- Whether a description is sound: names of states are not given twice, the start state is one of them, no state is without
productions, and every element stands for something. -/
structure WellFormed (spec : GrammarSpec) (registry : TerminalRegistry) : Prop where
  distinct : (spec.states.map (·.name)).Nodup
  start : spec.start.getD defaultStart ∈ spec.states.map (·.name)
  productions : ∀ state ∈ spec.states, state.productions ≠ []
  elements : ∀ state ∈ spec.states, ∀ production ∈ state.productions, ∀ e ∈ production,
    ∃ target, e.Means registry (spec.states.map (·.name)) target

/-- Whether a grammar is the one that is described: it has the states in order, references refer to the states of their names, and
the start state has the name of the start state. -/
structure Describes (spec : GrammarSpec) (registry : TerminalRegistry) (g : Grammar) : Prop where
  name : g.name = spec.name
  states : List.Forall₂ (StateSpec.Becomes registry (g.states.map (·.name))) spec.states g.states
  start : (g.states.map (·.name))[g.start]? = some (spec.start.getD defaultStart)

end GrammarSpec

namespace BuildAux

/-! ## Results of lists -/

/-- What a mapped result is when it is one. -/
theorem map_eq_ok_iff {α β ε : Type} {f : α → β} {x : Except ε α} {b : β} :
    x.map f = .ok b ↔ ∃ a, x = .ok a ∧ f a = b := by
  cases x <;> simp [Except.map]

/-- What one result after another is when it is one. -/
theorem bind_eq_ok_iff {α β ε : Type} {x : Except ε α} {f : α → Except ε β} {b : β} :
    x >>= f = .ok b ↔ ∃ a, x = .ok a ∧ f a = .ok b := by
  cases x <;> simp [bind, Except.bind]

/-- Results for all items of a list are results item by item. -/
theorem mapM_eq_ok_iff {α β ε : Type} {f : α → Except ε β} {xs : List α} {ys : List β} :
    xs.mapM f = .ok ys ↔ List.Forall₂ (fun x y => f x = .ok y) xs ys := by
  induction xs generalizing ys with
  | nil => cases ys <;> simp [pure, Except.pure]
  | cons x xs ih =>
    rw [List.mapM_cons, List.forall₂_cons_left_iff]
    cases hx : f x with
    | error e => simp [bind, Except.bind]
    | ok y =>
      cases hxs : xs.mapM f with
      | error e => simp [bind, Except.bind, ← ih, hxs]
      | ok rest =>
        simp only [bind, Except.bind, pure, Except.pure, Except.ok.injEq, ← ih, hxs]
        constructor
        · rintro rfl
          exact ⟨y, rest, rfl, rfl, rfl⟩
        · rintro ⟨_, _, rfl, rfl, rfl⟩
          rfl

section Forall₂

variable {α β : Type} {R S : α → β → Prop} {xs : List α} {ys : List β}

/-- An item on the right has one on the left that it belongs to. -/
theorem exists_left (h : List.Forall₂ R xs ys) {y : β} (hy : y ∈ ys) : ∃ x ∈ xs, R x y := by
  induction h with
  | nil => cases hy
  | cons hxy _ ih =>
    rcases List.mem_cons.1 hy with rfl | hy
    · exact ⟨_, .head _, hxy⟩
    · obtain ⟨x, hx, hR⟩ := ih hy
      exact ⟨x, .tail _ hx, hR⟩

/-- An item on the left has one on the right that belongs to it. -/
theorem exists_right (h : List.Forall₂ R xs ys) {x : α} (hx : x ∈ xs) : ∃ y ∈ ys, R x y :=
  exists_left h.flip hx

/-- What has something that belongs to each of its items has a list that does. -/
theorem exists_forall₂ (h : ∀ x ∈ xs, ∃ y, R x y) : ∃ ys, List.Forall₂ R xs ys := by
  induction xs with
  | nil => exact ⟨[], .nil⟩
  | cons x xs ih =>
    obtain ⟨y, hy⟩ := h x (.head _)
    obtain ⟨ys, hys⟩ := ih fun x hx => h x (.tail _ hx)
    exact ⟨y :: ys, .cons hy hys⟩

/-- Lists belong together under two relations that agree. -/
theorem rows_congr (h : ∀ x y, R x y ↔ S x y) : List.Forall₂ R xs ys ↔ List.Forall₂ S xs ys :=
  ⟨.imp fun x y => (h x y).1, .imp fun x y => (h x y).2⟩

end Forall₂

/-! ## Names -/

/-- No name is repeated if and only if names are given once, and none of them was seen before. -/
theorem firstRepeated_eq_none_iff {seen names : List String} :
    firstRepeated seen names = none ↔ names.Nodup ∧ ∀ name ∈ names, name ∉ seen := by
  induction names generalizing seen with
  | nil => simp [firstRepeated]
  | cons name rest ih =>
    unfold firstRepeated
    split
    · next hseen => simp [hseen]
    · next hseen =>
      rw [ih, List.nodup_cons]
      simp only [List.mem_cons, forall_eq_or_imp]
      constructor
      · rintro ⟨hnodup, hrest⟩
        refine ⟨⟨fun hname => hrest name hname (.inl rfl), hnodup⟩, hseen, ?_⟩
        exact fun other hother hmem => hrest other hother (.inr hmem)
      · rintro ⟨⟨hname, hnodup⟩, -, hrest⟩
        refine ⟨hnodup, ?_⟩
        rintro other hother (rfl | hmem)
        · exact hname hother
        · exact hrest other hother hmem

/-- Where names are given once, the place found for a name is the place where it stands. -/
theorem idxOf?_eq_some_iff {names : List String} (h : names.Nodup) {name : String} {id : Nat} :
    names.idxOf? name = some id ↔ names[id]? = some name := by
  rw [List.idxOf?_eq_some_iff, List.getElem?_eq_some_iff]
  constructor
  · rintro ⟨hid, hname, -⟩
    exact ⟨hid, hname⟩
  · rintro ⟨hid, rfl⟩
    refine ⟨hid, rfl, ?_⟩
    intro j hj he
    have hjid := h.getElem_inj_iff.1 he
    omega

end BuildAux

/-! ## Terminals -/

/-- Whether the limits of a terminal, if it has any, do not cross and leave room. -/
def Terminal.HasRoom (t : Terminal) : Prop := ∀ bounds, t.bounds? = some bounds → bounds.min ≤ bounds.max ∧ 1 ≤ bounds.max

namespace Terminal

/-- Only the empty terminal is not worth reporting. -/
theorem visibleByDefault_eq (t : Terminal) : t.visibleByDefault = decide (t ≠ .empty) := by
  cases t <;> simp [visibleByDefault]

theorem hasRoom_run_iff {accepted : CharClass} {bounds : Bounds} :
    (Terminal.run accepted bounds).HasRoom ↔ bounds.min ≤ bounds.max ∧ 1 ≤ bounds.max := by
  simp [HasRoom, bounds?]

/-- Limits that are put on a terminal leave it room. -/
theorem HasRoom.limit {t t' : Terminal} {min max : Option Nat} (ht : t.HasRoom) (h : t.limit min max = .ok t') : t'.HasRoom := by
  unfold Terminal.limit at h
  split at h
  · cases h
    exact ht
  · split at h
    · split at h
      · next hnarrow =>
        obtain ⟨hmax, hmin, rfl⟩ := (Bounds.make_eq_ok_iff _ _ _).1 hnarrow
        cases h
        exact hasRoom_run_iff.2 ⟨hmin, hmax⟩
      · cases h
    · cases h

end Terminal

namespace TerminalMaker

/-- Whether the terminals that a class makes have room. -/
def LeavesRoom (maker : TerminalMaker) : Prop := ∀ value t, maker value = .ok t → t.HasRoom

theorem leavesRoom_constant {t : Terminal} (ht : t.HasRoom) : LeavesRoom (constant t) := by
  intro value t' h
  cases h
  exact ht

theorem leavesRoom_ofLexeme {build : String → Terminal} (hbuild : ∀ lexeme, (build lexeme).HasRoom) :
    LeavesRoom (ofLexeme build) := by
  intro value t h
  unfold ofLexeme at h
  split at h
  · next lexeme =>
    split at h
    · cases h
    · cases h
      exact hbuild lexeme
  · cases h

/-- The text terminal classes make terminals that have room. -/
theorem leavesRoom_of_standard {cls : String} {maker : TerminalMaker}
    (h : Directory.get? TerminalRegistry.standard cls = some maker) : LeavesRoom maker := by
  obtain ⟨before, after, hentries, -⟩ := List.lookup_eq_some_iff.1 h
  have hmem : (cls, maker) ∈ standard := by
    rw [show standard = before ++ (cls, maker) :: after from hentries]
    simp
  have plain {t : Terminal} (ht : t.bounds? = none) : t.HasRoom := fun bounds hb => by simp [ht] at hb
  have run (accepted : CharClass) : (Terminal.run accepted .run).HasRoom := Terminal.hasRoom_run_iff.2 (by decide)
  have hall : ∀ entry ∈ standard, LeavesRoom entry.2 := by
    simp only [standard, List.forall_mem_cons]
    exact ⟨leavesRoom_ofLexeme fun _ => plain rfl, leavesRoom_ofLexeme fun _ => plain rfl, leavesRoom_constant (run _),
      leavesRoom_constant (run _), leavesRoom_constant (run _), leavesRoom_constant (run _), leavesRoom_constant (run _),
      leavesRoom_constant (plain rfl), leavesRoom_ofLexeme fun _ => Terminal.hasRoom_run_iff.2 (by decide),
      leavesRoom_constant (plain rfl), List.forall_mem_nil _⟩
  exact hall _ hmem

end TerminalMaker

open BuildAux

variable {registry : TerminalRegistry} {names : List String}

namespace ElementSpec

variable {spec : ElementSpec} {state : String} {e : Element}

/-- An element that is resolved is the one described. -/
theorem becomes_of_resolve (h : spec.resolve registry names state = .ok e) : spec.Becomes registry names e := by
  unfold resolve at h
  split at h
  · next cls hcls hstate =>
    unfold resolveTerminal at h
    split at h
    · cases h
    · next hword =>
      split at h
      · cases h
      · next maker registered =>
        split at h
        · cases h
        · next t hmade =>
          obtain rfl := Except.ok.inj h
          obtain ⟨made, accepted, limited⟩ := bind_eq_ok_iff.1 hmade
          have plain : spec.word = false := by simpa using hword
          exact ⟨.terminal hcls hstate plain registered accepted limited, rfl, by rw [Terminal.visibleByDefault_eq]; rfl, plain.symm⟩
  · next reference hcls hstate =>
    unfold resolveReference at h
    split at h
    · cases h
    · next hlimits =>
      split at h
      · cases h
      · next id hid =>
        obtain rfl := Except.ok.inj h
        obtain ⟨hlt, hname, -⟩ := List.idxOf?_eq_some_iff.1 hid
        obtain ⟨hmin, hmax⟩ : spec.min = none ∧ spec.max = none := by simpa using hlimits
        exact ⟨.state hcls hstate hmin hmax (List.getElem?_eq_some_iff.2 ⟨hlt, hname⟩), rfl, rfl, rfl⟩
  · cases h
  · cases h

/-- The element described is the one that is resolved, where names are given once. -/
theorem resolve_of_becomes (hnames : names.Nodup) (h : spec.Becomes registry names e) :
    spec.resolve registry names state = .ok e := by
  obtain ⟨target, color, visible, word⟩ := e
  obtain ⟨means, hcolor, hvisible, hword⟩ := h
  dsimp only at means hcolor hvisible hword
  subst hcolor hvisible hword
  cases means with
  | terminal hcls hstate plain registered accepted limited =>
    simp [resolve, resolveTerminal, hcls, hstate, plain, registered, accepted, limited, Terminal.visibleByDefault_eq, isShown, bind,
      Except.bind]
  | state hcls hstate hmin hmax declared =>
    have hid := (idxOf?_eq_some_iff hnames).2 declared
    simp [resolve, resolveReference, hcls, hstate, hmin, hmax, hid, isShown]

theorem resolve_eq_ok_iff (hnames : names.Nodup) :
    spec.resolve registry names state = .ok e ↔ spec.Becomes registry names e :=
  ⟨becomes_of_resolve, resolve_of_becomes hnames⟩

/-- What stands for something describes an element. -/
theorem exists_becomes (h : ∃ target, spec.Means registry names target) : ∃ e, spec.Becomes registry names e := by
  obtain ⟨target, means⟩ := h
  exact ⟨⟨target, .ofNat spec.color, spec.visible.getD (spec.isShown target), spec.word⟩, means, rfl, rfl, rfl⟩

end ElementSpec

namespace StateSpec

variable {spec : StateSpec} {state : State}

theorem resolve_eq_ok_iff (hnames : names.Nodup) :
    spec.resolve registry names = .ok state ↔ spec.productions ≠ [] ∧ spec.Becomes registry names state := by
  unfold resolve
  split
  · next hempty => simp [hempty]
  · next hne =>
    rw [map_eq_ok_iff]
    have hrow (elements : List ElementSpec) (production : Production) :
        elements.mapM (ElementSpec.resolve registry names spec.name) = .ok production ↔
          List.Forall₂ (ElementSpec.Becomes registry names) elements production :=
      mapM_eq_ok_iff.trans (rows_congr fun _ _ => ElementSpec.resolve_eq_ok_iff hnames)
    constructor
    · rintro ⟨productions, hmap, rfl⟩
      exact ⟨hne, rfl, (rows_congr hrow).1 (mapM_eq_ok_iff.1 hmap)⟩
    · rintro ⟨-, hname, hproductions⟩
      refine ⟨state.productions, mapM_eq_ok_iff.2 ((rows_congr hrow).2 hproductions), ?_⟩
      rw [← hname]

theorem mapM_resolve_eq_ok_iff (hnames : names.Nodup) {specs : List StateSpec} {states : List State} :
    specs.mapM (resolve registry names) = .ok states ↔
      (∀ spec ∈ specs, spec.productions ≠ []) ∧ List.Forall₂ (Becomes registry names) specs states := by
  rw [mapM_eq_ok_iff, ← List.forall₂_and_left]
  exact rows_congr fun _ _ => resolve_eq_ok_iff hnames

/-- A state is described whose elements stand for something. -/
theorem exists_becomes (h : ∀ production ∈ spec.productions, ∀ e ∈ production, ∃ target, e.Means registry names target) :
    ∃ state, spec.Becomes registry names state := by
  obtain ⟨productions, hproductions⟩ := exists_forall₂ fun production hp =>
    exists_forall₂ fun e he => ElementSpec.exists_becomes (h production hp e he)
  exact ⟨⟨spec.name, productions⟩, rfl, hproductions⟩

/-- States have the names that they are described with. -/
theorem names_eq {specs : List StateSpec} {states : List State}
    (h : List.Forall₂ (StateSpec.Becomes registry names) specs states) :
    states.map (·.name) = specs.map (·.name) := by
  induction h with
  | nil => rfl
  | cons hstate _ ih => rw [List.map_cons, List.map_cons, ih, hstate.name]

end StateSpec

namespace GrammarSpec

variable {spec : GrammarSpec} {g : Grammar}

/-- Each element of a grammar that is described is one that is described. -/
theorem Describes.becomes (h : spec.Describes registry g) {state : State} (hs : state ∈ g.states) {production : Production}
    (hp : production ∈ state.productions) {e : Element} (he : e ∈ production) :
    ∃ element : ElementSpec, element.Becomes registry (g.states.map (·.name)) e := by
  obtain ⟨_, -, hstate⟩ := exists_left h.states hs
  obtain ⟨_, -, hrow⟩ := exists_left hstate.productions hp
  obtain ⟨element, -, helement⟩ := exists_left hrow he
  exact ⟨element, helement⟩

/-- Limits of terminals of the text classes leave room. -/
theorem Describes.hasRoom (h : spec.Describes .standard g) {state : State} (hs : state ∈ g.states) {production : Production}
    (hp : production ∈ state.productions) {e : Element} (he : e ∈ production) {t : Terminal} (ht : e.target = .terminal t) :
    t.HasRoom := by
  obtain ⟨element, helement⟩ := h.becomes hs hp he
  have means := helement.target
  rw [ht] at means
  cases means with
  | terminal _ _ _ registered accepted limited =>
    exact (TerminalMaker.leavesRoom_of_standard registered _ _ accepted).limit limited

/-- Building a description gives a grammar if and only if the description is well-formed and describes it. -/
theorem build_eq_ok_iff : spec.build registry = .ok g ↔ spec.WellFormed registry ∧ spec.Describes registry g := by
  unfold build
  dsimp only
  constructor
  · intro h
    split at h
    · cases h
    · next hrepeated =>
      obtain ⟨hdistinct, -⟩ := firstRepeated_eq_none_iff.1 hrepeated
      split at h
      · cases h
      · next id hid =>
        obtain ⟨states, hmap, rfl⟩ := map_eq_ok_iff.1 h
        obtain ⟨hproductions, hstates⟩ := (StateSpec.mapM_resolve_eq_ok_iff hdistinct).1 hmap
        have hnames := StateSpec.names_eq hstates
        have hstart := (idxOf?_eq_some_iff hdistinct).1 hid
        refine ⟨⟨hdistinct, List.mem_of_getElem? hstart, hproductions, ?_⟩, rfl, hnames ▸ hstates, hnames ▸ hstart⟩
        intro state hs production hp e he
        obtain ⟨_, -, hstate⟩ := exists_right hstates hs
        obtain ⟨_, -, hrow⟩ := exists_right hstate.productions hp
        obtain ⟨element, -, helement⟩ := exists_right hrow he
        exact ⟨element.target, helement.target⟩
  · rintro ⟨hwell, hname, hstates, hstart⟩
    rw [StateSpec.names_eq hstates] at hstates hstart
    rw [firstRepeated_eq_none_iff.2 ⟨hwell.distinct, by simp⟩]
    simp only [(idxOf?_eq_some_iff hwell.distinct).2 hstart, map_eq_ok_iff]
    refine ⟨g.states, (StateSpec.mapM_resolve_eq_ok_iff hwell.distinct).2 ⟨hwell.productions, hstates⟩, ?_⟩
    rw [← hname]

/-- A description that is well-formed describes a grammar. -/
theorem exists_describes (h : spec.WellFormed registry) : ∃ g, spec.Describes registry g := by
  obtain ⟨states, hstates⟩ := exists_forall₂ fun state hs => StateSpec.exists_becomes (h.elements state hs)
  have hnames := StateSpec.names_eq hstates
  obtain ⟨id, hid⟩ := List.mem_iff_getElem?.1 h.start
  exact ⟨⟨spec.name, states, id⟩, rfl, hnames ▸ hstates, hnames ▸ hid⟩

/-- Building gives a grammar if and only if the description is well-formed. -/
theorem exists_build_iff : (∃ g, spec.build registry = .ok g) ↔ spec.WellFormed registry := by
  constructor
  · rintro ⟨g, h⟩
    exact (build_eq_ok_iff.1 h).1
  · intro h
    obtain ⟨g, hg⟩ := exists_describes h
    exact ⟨g, build_eq_ok_iff.2 ⟨h, hg⟩⟩

end GrammarSpec

end LiveHighlight
