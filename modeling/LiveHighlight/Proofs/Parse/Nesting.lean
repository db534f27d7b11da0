import LiveHighlight.Proofs.Parse.RunTrace

/-!
# How the events of a run lie to each other

A match of a state is told before the matches that it consists of, and they fill its text. So the events of a stretch of text are
about the stretch, and each lies to those told later as `Event.Before` says: two matches lie one after the other or the later one in
the earlier one, and errors stand between matches (`Event.Cover`). Trees have this by induction on the depth budget (`nested_tree`),
and what a run tells has it since matches and errors at the top level follow one another (`cover_reading`).
-/

namespace LiveHighlight

namespace Event

/-- The position behind the characters that an event is about: those of the match, or the one at the error. -/
def stop : Event → Nat
  | .matched m => m.stop
  | .unmatched _ position => position + 1

/-- How an event lies to one that is told later. A match that is told after another one lies behind it or in it; an error lies
behind all matches told earlier, and before all that is told later. -/
def Before : Event → Event → Prop
  | .matched m, .matched n => m.offset ≤ n.offset ∧ (m.stop ≤ n.offset ∨ n.stop ≤ m.stop)
  | a, b => a.stop ≤ b.position

/-- Whether events told one after the other are about the text of a stretch, and each lies to those told later as it should. -/
structure Cover (start stop : Nat) (events : List Event) : Prop where
  inside : ∀ event ∈ events, start ≤ event.position ∧ event.stop ≤ stop
  ordered : events.Pairwise Before

variable {a b : Event} {events others : List Event} {start mid finish : Nat}

/-- What is behind an event lies as it should. -/
theorem before_of_le (h : a.stop ≤ b.position) : a.Before b := by
  cases a with
  | unmatched => exact h
  | matched m =>
    cases b with
    | unmatched => exact h
    | matched n => exact ⟨Nat.le_trans (Nat.le_add_right _ _) h, .inl h⟩

/-- What is told of a stretch and then of the one behind it is told of both. -/
theorem Cover.append (h : Cover start mid events) (h' : Cover mid finish others) (hstart : start ≤ mid) (hstop : mid ≤ finish) :
    Cover start finish (events ++ others) where
  inside event he := by
    rcases List.mem_append.1 he with he | he
    · exact ⟨(h.inside event he).1, Nat.le_trans (h.inside event he).2 hstop⟩
    · exact ⟨Nat.le_trans hstart (h'.inside event he).1, (h'.inside event he).2⟩
  ordered := by
    refine List.pairwise_append.2 ⟨h.ordered, h'.ordered, fun a ha b hb => ?_⟩
    exact before_of_le (Nat.le_trans (h.inside a ha).2 (h'.inside b hb).1)

theorem Cover.nil : Cover start finish [] := ⟨by simp, .nil⟩

end Event

namespace NestingAux

open Event

variable {g : Grammar} {s : Stream}

/-- The events of a tree are matches, and they are about its text. -/
structure Nested (start stop : Nat) (events : List Event) : Prop extends Cover start stop events where
  matched : ∀ event ∈ events, event.isError = false

/-- A match, if it is shown, and the matches in its text. -/
theorem Nested.shown {m : Match} {events : List Event} (h : Nested m.offset m.stop events) :
    Nested m.offset m.stop (Tree.shown m ++ events) := by
  unfold Tree.shown
  split
  · refine ⟨⟨?_, List.pairwise_cons.2 ⟨?_, h.ordered⟩⟩, ?_⟩
    · exact List.forall_mem_cons.2 ⟨⟨Nat.le_refl _, Nat.le_refl _⟩, h.inside⟩
    · intro event he
      obtain ⟨hstart, hstop⟩ := h.inside event he
      cases event with
      | matched n => exact ⟨hstart, .inr hstop⟩
      | unmatched => cases h.matched _ he
    · exact List.forall_mem_cons.2 ⟨rfl, h.matched⟩
  · exact h

/-- The trees of elements one after the other, if those of the single elements are about their texts. -/
theorem nested_forest {depth : Nat}
    (htree : ∀ e pos t, g.treeAt s depth e pos = some t → Nested pos (pos + t.length) t.events) :
    ∀ {es : List Element} {pos : Nat} {ts : List Tree}, forestAt (g.treeAt s depth) es pos = some ts →
      Nested pos (pos + Tree.lengths ts) (Tree.eventsOf ts)
  | [], pos, ts, hts => by
    cases hts
    exact ⟨.nil, by simp [Tree.eventsOf]⟩
  | e :: es, pos, ts, hts => by
    unfold forestAt at hts
    split at hts
    · cases hts
    · next t ht =>
      obtain ⟨more, hm, rfl⟩ := Option.map_eq_some_iff.1 hts
      have hfirst := htree e pos t ht
      have hrest := nested_forest htree hm
      rw [Nat.add_assoc] at hrest
      refine ⟨hfirst.toCover.append hrest.toCover (Nat.le_add_right _ _) ?_, ?_⟩
      · exact Nat.add_le_add_left (Nat.le_add_right _ _) _
      · exact List.forall_mem_append.2 ⟨hfirst.matched, hrest.matched⟩

/-- A terminal has no matches but its own. -/
theorem nested_leaf {e : Element} {t : Terminal} {pos : Nat} {tree : Tree} (h : Grammar.leafAt s e t pos = some tree) :
    Nested pos (pos + tree.length) tree.events := by
  obtain ⟨length, -, rfl⟩ := Option.map_eq_some_iff.1 h
  exact Nested.shown (m := ⟨e, pos, length, none⟩) ⟨.nil, by simp [Tree.eventsOf]⟩

/-- The events of a tree are about the text of its match. The induction is on the depth budget: the trees of the production that a
state takes lie one after the other and together are as long as the match. -/
theorem nested_tree (depth : Nat) :
    ∀ e pos t, g.treeAt s depth e pos = some t → Nested pos (pos + t.length) t.events := by
  induction depth with
  | zero =>
    intro e pos t h
    cases ht : e.target with
    | terminal terminal =>
      simp only [Grammar.treeAt, ht] at h
      exact nested_leaf h
    | state id => simp [Grammar.treeAt, ht] at h
  | succ depth ih =>
    intro e pos t h
    cases ht : e.target with
    | terminal terminal =>
      simp only [Grammar.treeAt, ht] at h
      exact nested_leaf h
    | state id =>
      simp only [Grammar.treeAt, ht] at h
      split at h
      · next selection hsel =>
        obtain ⟨ts, hts, rfl⟩ := Option.map_eq_some_iff.1 h
        obtain ⟨ts', hts', hlen⟩ := Grammar.exists_forestAt_of_select hsel
        obtain rfl : ts' = ts := Option.some.inj (hts'.symm.trans hts)
        have hforest := nested_forest ih hts
        rw [hlen] at hforest
        exact Nested.shown (m := ⟨e, pos, selection.length, (g.state? id).map (·.name)⟩) hforest
      · cases h

/-- An error and what is told of the text behind it. -/
theorem cover_error {e : Element} {pos stop : Nat} {events : List Event} (h : Cover (pos + 1) stop events) (hpos : pos < stop) :
    Cover pos stop (.unmatched e pos :: events) := by
  have herror : Cover pos (pos + 1) [.unmatched e pos] := by
    refine ⟨?_, List.pairwise_singleton _ _⟩
    intro event he
    obtain rfl := List.mem_singleton.1 he
    exact ⟨Nat.le_refl _, Nat.le_refl _⟩
  exact herror.append h (Nat.le_succ pos) hpos

/-- What is told of a stream from a position on is told of the stretch from there to the end. -/
theorem cover_reading (depth pos : Nat) : Cover pos s.length (g.reading s depth pos) := by
  induction pos using Grammar.reading.induct g s depth with
  | case1 pos hpos selection hsel hzero ih =>
    rw [Grammar.reading]
    simp only [hpos, if_true, hsel, hzero]
    exact cover_error ih hpos
  | case2 pos hpos selection hsel hlen ih =>
    have hlength : g.startElement.lengthAt (g.select s depth) s pos = .ok (some selection.length) := by
      simp only [Element.lengthAt, Grammar.startElement, hsel, Except.map, Option.map_some]
    obtain ⟨t, ht, htl⟩ := g.exists_treeAt s depth _ _ _ hlength
    have htree := (nested_tree depth _ _ _ ht).toCover
    rw [htl] at htree
    rw [Grammar.reading]
    simp only [hpos, if_true, hsel, hlen, if_false, ht, Option.map_some, Option.getD_some]
    exact htree.append ih (Nat.le_add_right _ _) (RunTraceAux.le_of_select hsel (Nat.le_of_lt hpos))
  | case3 pos hpos hsel ih =>
    rw [Grammar.reading, if_pos hpos]
    split
    · next selection heq => exact absurd heq (hsel selection)
    · exact cover_error ih hpos
  | case4 pos hpos =>
    rw [Grammar.reading, if_neg hpos]
    exact .nil

end NestingAux

open NestingAux

/-- A run over a grammar that was built, told to a listener that refuses nothing, finishes, and its events are about text that is
there. Of two matches the later one begins no earlier, and lies behind the other one or in it. Errors are told in the order of the
text, no two of them at one position, and none of them at a position in a match, whether the match is told before or after it. -/
theorem Grammar.laminar {σ : Type} {spec : GrammarSpec} {registry : TerminalRegistry} {g : Grammar}
    (hg : spec.build registry = .ok g) {l : Listener σ} (hl : l.Patient) (s : Stream) (maxDepth : Nat) (memory : σ) :
    ∃ (r : Run) (events : List Event),
      r.phase = .finished ∧
      (Run.start g maxDepth).toEnd l s memory = (r, l.after memory events) ∧
      g.notes s maxDepth = (events.map Note.heard).toArray ∧
      (events.Pairwise fun a b => ∀ m n, a = .matched m → b = .matched n →
        m.offset ≤ n.offset ∧ (m.stop ≤ n.offset ∨ n.stop ≤ m.stop)) ∧
      (∀ m, .matched m ∈ events → m.stop ≤ s.length) ∧
      ((events.filter (·.isError)).map (·.position)).Pairwise (· < ·) ∧
      ∀ e position, .unmatched e position ∈ events → position < s.length ∧
        ∀ m, .matched m ∈ events → ¬(m.offset ≤ position ∧ position < m.stop) := by
  have hc := closed_of_build hg
  obtain ⟨n, hheard⟩ := reading_heard hc s maxDepth
  have hcover : Event.Cover 0 s.length (g.reading s (max maxDepth 1) 0) := cover_reading _ 0
  generalize g.reading s (max maxDepth 1) 0 = events at hheard hcover
  have hnotebook : notebook.Patient := fun _ _ => rfl
  obtain ⟨r, hr, -, hend⟩ := hheard memory (hl.takes s) trivial
  obtain ⟨r₀, hr₀, -, hnotes⟩ := hheard #[] (hnotebook.takes s) trivial
  refine ⟨r, events, hr, Run.Leads.toEnd ⟨n, hend⟩ (by simp [hr]), ?_, ?_, ?_, ?_, ?_⟩
  · rw [Grammar.notes_of_advance hnotes (by simp [hr₀]), RunTraceAux.after_notebook]
  · refine hcover.ordered.imp ?_
    rintro a b hab m n rfl rfl
    exact hab
  · exact fun m hm => (hcover.inside _ hm).2
  · rw [List.pairwise_map]
    refine (hcover.ordered.filter _).imp_of_mem ?_
    intro a b ha _ hab
    cases a with
    | matched => cases (List.mem_filter.1 ha).2
    | unmatched => exact hab
  · intro e position he
    refine ⟨(hcover.inside _ he).2, fun m hm => ?_⟩
    rintro ⟨hstart, hstop⟩
    rcases List.mem_iff_getElem.1 he with ⟨i, hi, hei⟩
    rcases List.mem_iff_getElem.1 hm with ⟨j, hj, hmj⟩
    rcases Nat.lt_trichotomy i j with hlt | rfl | hgt
    · -- a match that is told later begins behind the error
      have hlater := List.pairwise_iff_getElem.1 hcover.ordered i j hi hj hlt
      rw [hei, hmj] at hlater
      exact Nat.not_lt.2 hstart hlater
    · cases hei.symm.trans hmj
    · have hearlier := List.pairwise_iff_getElem.1 hcover.ordered j i hj hi hgt
      rw [hei, hmj] at hearlier
      exact Nat.not_lt.2 hearlier hstop

/-- Brackets in brackets, a character that is no bracket, and a bracket without a partner. -/
theorem laminar_brackets :
    bracketSpec.build .standard = .ok brackets ∧ notebook.Patient ∧
    ∃ (r : Run) (events : List Event),
      r.phase = .finished ∧
      (Run.start brackets 4).toEnd notebook (.ofString "[[]]x]") #[] = (r, notebook.after #[] events) ∧
      brackets.notes (.ofString "[[]]x]") 4 = (events.map Note.heard).toArray ∧
      (events.Pairwise fun a b => ∀ m n, a = .matched m → b = .matched n →
        m.offset ≤ n.offset ∧ (m.stop ≤ n.offset ∨ n.stop ≤ m.stop)) ∧
      (∀ m, .matched m ∈ events → m.stop ≤ 6) ∧
      ((events.filter (·.isError)).map (·.position)).Pairwise (· < ·) ∧
      ∀ e position, .unmatched e position ∈ events → position < 6 ∧
        ∀ m, .matched m ∈ events → ¬(m.offset ≤ position ∧ position < m.stop) :=
  have hg : bracketSpec.build .standard = .ok brackets := by decide +kernel
  have hl : notebook.Patient := fun _ _ => rfl
  ⟨hg, hl, Grammar.laminar hg hl (.ofString "[[]]x]") 4 #[]⟩

end LiveHighlight
