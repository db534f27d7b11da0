import LiveHighlight.Proofs.Parse.RunTrace

/-!
# What a run consumes

A run passes over characters in two places: a terminal consumes its text, and an error its character. Each step consumes the
characters between where the run stood and where it then stands (`tile_step`). So what the steps of a run consume lies one after
the other without gap or overlap, and since a run ends at the end of its stream, it covers the stream (`Grammar.coverage`).
-/

namespace LiveHighlight

namespace Span

/-- Whether a position is that of one of the characters. -/
def covers (sp : Span) (pos : Nat) : Bool := decide (sp.offset ≤ pos ∧ pos < sp.offset + sp.length)

/-- Whether spans lie one right after the other from one position to another. -/
def Tile : List Span → (start stop : Nat) → Prop
  | [], start, stop => start = stop
  | sp :: rest, start, stop => sp.offset = start ∧ Tile rest (start + sp.length) stop

variable {spans others : List Span} {start mid stop : Nat}

theorem Tile.append (h : Tile spans start mid) (h' : Tile others mid stop) : Tile (spans ++ others) start stop := by
  induction spans generalizing start with
  | nil =>
    obtain rfl : start = mid := h
    exact h'
  | cons sp rest ih => exact ⟨h.1, ih h.2⟩

/-- Spans without characters can be left out. -/
theorem Tile.filter (h : Tile spans start stop) : Tile (spans.filter fun sp => 0 < sp.length) start stop := by
  induction spans generalizing start with
  | nil => exact h
  | cons sp rest ih =>
    have hrest := ih h.2
    by_cases hpos : 0 < sp.length
    · rw [List.filter_cons_of_pos (by simpa using hpos)]
      exact ⟨h.1, hrest⟩
    · rw [List.filter_cons_of_neg (by simpa using hpos)]
      have hzero : sp.length = 0 := by omega
      rwa [hzero, Nat.add_zero] at hrest

/-- Before their beginning spans cover nothing. -/
theorem Tile.countP_before (h : Tile spans start stop) {pos : Nat} (hpos : pos < start) : spans.countP (·.covers pos) = 0 := by
  induction spans generalizing start with
  | nil => rfl
  | cons sp rest ih =>
    have hnot : ¬sp.covers pos = true := by
      have hoff := h.1
      simp only [covers, decide_eq_true_eq]
      omega
    rw [List.countP_cons, ih h.2 (by omega), if_neg hnot]

/-- Each position between the ends is covered by one of the spans and by no other. -/
theorem Tile.countP_covers (h : Tile spans start stop) {pos : Nat} (hstart : start ≤ pos) (hstop : pos < stop) :
    spans.countP (·.covers pos) = 1 := by
  induction spans generalizing start with
  | nil =>
    obtain rfl : start = stop := h
    omega
  | cons sp rest ih =>
    obtain ⟨hoff, hrest⟩ := h
    by_cases hin : pos < start + sp.length
    · have hcovers : sp.covers pos = true := by
        simp only [covers, decide_eq_true_eq]
        omega
      rw [List.countP_cons, hrest.countP_before hin, if_pos hcovers]
    · have hnot : ¬sp.covers pos = true := by
        simp only [covers, decide_eq_true_eq]
        omega
      rw [List.countP_cons, ih hrest (by omega), if_neg hnot]

end Span

/-- The characters that an event says are consumed: the match of a terminal that is not empty, or the character at an error. -/
def Event.span : Event → Option Span
  | .matched m => if m.element.isTerminal ∧ 0 < m.length then some ⟨m.offset, m.length⟩ else none
  | .unmatched _ position => some ⟨position, 1⟩

/-- Whether every match of a terminal is told. -/
def Grammar.ShowsTerminals (g : Grammar) : Prop :=
  ∀ state ∈ g.states, ∀ production ∈ state.productions, ∀ e ∈ production, e.isTerminal = true → e.visible = true

namespace CoverageAux

variable {g : Grammar} {s : Stream} {r : Run}

/-- A step consumes the characters between where the run stands and where it then stands. -/
theorem tile_step (hr : r.Sound s) : Span.Tile (r.consumed s).toList r.position (r.ahead s 1).position := by
  rcases RunTraceAux.stride_or_rest hr with ⟨move, span, hstride, hconsumed, -, hpos⟩ | ⟨hconsumed, -, hpos⟩
  · rw [hconsumed, hpos]
    cases hstride with
    | leaf element target matched => exact ⟨rfl, rfl⟩
    | opening element target taken => exact rfl
    | error inside => exact ⟨rfl, rfl⟩
  · rw [hconsumed, hpos]
    exact rfl

/-- What some steps of a run consume lies one after the other, from where the run stood to where it then stands. -/
theorem tile_collect (hr : r.Sound s) (n : Nat) :
    Span.Tile (r.collect .deaf s (·.consumed s) n ()) r.position (r.ahead s n).position := by
  induction n generalizing r with
  | zero => exact rfl
  | succ n ih =>
    rw [RunTraceAux.collect_succ, Nat.add_comm n 1, Run.ahead_add]
    exact (tile_step hr).append (ih (RunTraceAux.sound_ahead hr 1))

/-- Where every match of a terminal is told, a step tells what it consumes. -/
theorem span_step (hg : r.grammar.ShowsTerminals) (hr : r.Sound s) :
    (r.told s).bind Event.span = (r.consumed s).filter fun sp => 0 < sp.length := by
  rcases RunTraceAux.stride_or_rest hr with ⟨move, span, hstride, hconsumed, htold, -⟩ | ⟨hconsumed, htold, -⟩
  · rw [hconsumed, htold]
    cases hstride with
    | @leaf _ _ e _ length element target matched =>
      have hterminal : e.isTerminal = true := by simp [Element.isTerminal, Element.terminal?, target]
      have hvisible : e.visible = true := by
        rcases RunTraceAux.mem_of_elementAt element with rfl | ⟨state, hs, production, hp, he⟩
        · cases target
        · exact hg state hs production hp e he hterminal
      by_cases hpos : 0 < length <;> simp [Run.report, hvisible, Event.span, hterminal, hpos, Option.filter_some]
    | @opening _ _ e _ _ _ _ element target taken =>
      have hterminal : e.isTerminal = false := by simp [Element.isTerminal, Element.terminal?, target]
      by_cases hvisible : e.visible <;> simp [Run.report, hvisible, Event.span, hterminal]
    | error inside => simp [Event.span, Option.filter_some]
  · rw [hconsumed, htold]
    rfl

/-- Where every match of a terminal is told, what some steps tell is what they consume. -/
theorem span_collect (hg : r.grammar.ShowsTerminals) (hr : r.Sound s) (n : Nat) :
    (r.collect .deaf s (·.told s) n ()).filterMap Event.span =
      (r.collect .deaf s (·.consumed s) n ()).filter fun sp => 0 < sp.length := by
  induction n generalizing r with
  | zero => rfl
  | succ n ih =>
    have hstep : (r.told s).toList.filterMap Event.span = (r.consumed s).toList.filter fun sp => 0 < sp.length := by
      rw [← Option.toList_filter, ← span_step hg hr]
      cases r.told s with
      | none => rfl
      | some event => cases hspan : event.span <;> simp [hspan]
    have hrest := ih (by rwa [RunTraceAux.grammar_ahead]) (RunTraceAux.sound_ahead hr 1)
    rw [RunTraceAux.collect_succ, RunTraceAux.collect_succ, List.filterMap_append, List.filter_append, hstep, hrest]

end CoverageAux

open CoverageAux

/-- A run over a grammar that was built, told to a listener that refuses nothing, ends at the end of its stream. What its terminals
and its errors consume covers the stream from beginning to end, each character once. Where every match of a terminal is told, the
matches of terminals that are not empty and the errors, in the order in which they are told, cover it as well. -/
theorem Grammar.coverage {σ : Type} {spec : GrammarSpec} {registry : TerminalRegistry} {g : Grammar}
    (hg : spec.build registry = .ok g) {l : Listener σ} (hl : l.Patient) (s : Stream) (maxDepth : Nat) (memory : σ) :
    ∃ (n : Nat) (r : Run) (events : List Event),
      r.phase = .finished ∧ r.position = s.length ∧
      (Run.start g maxDepth).advance l s n memory = (r, l.after memory events) ∧
      (Run.start g maxDepth).toEnd l s memory = (r, l.after memory events) ∧
      g.notes s maxDepth = (events.map Note.heard).toArray ∧
      Span.Tile ((Run.start g maxDepth).collect l s (·.consumed s) n memory) 0 s.length ∧
      (∀ pos < s.length, ((Run.start g maxDepth).collect l s (·.consumed s) n memory).countP (·.covers pos) = 1) ∧
      (g.ShowsTerminals → Span.Tile (events.filterMap Event.span) 0 s.length) := by
  have hc := closed_of_build hg
  have hsound := RunTraceAux.sound_start hc s maxDepth
  have hnotebook : notebook.Patient := fun _ _ => rfl
  obtain ⟨n, hphase, hpos, htold⟩ := RunTraceAux.exists_finish hc s maxDepth
  have hadvance {τ : Type} {k : Listener τ} (hk : k.Patient) (memory : τ) :=
    RunTraceAux.advance_eq (hk.takes s) hsound memory trivial n
  rw [htold] at hadvance
  have htile := tile_collect hsound n
  rw [hpos] at htile
  have htile' := htile
  rw [← RunTraceAux.collect_eq (hl.takes s) hsound memory trivial] at htile'
  refine ⟨n, _, g.reading s (max maxDepth 1) 0, hphase, hpos, hadvance hl memory, ?_, ?_, htile', ?_, ?_⟩
  · exact Run.Leads.toEnd ⟨n, hadvance hl memory⟩ (by simp [hphase])
  · rw [Grammar.notes_of_advance (hadvance hnotebook #[]) (by simp [hphase]), RunTraceAux.after_notebook]
  · intro pos hlt
    exact htile'.countP_covers (Nat.zero_le pos) hlt
  · intro hshown
    rw [← htold, span_collect hshown hsound]
    exact htile.filter

/-- The brackets of `bracketSpec`, and the nothing that may stand between them is told as well. -/
def frankSpec : GrammarSpec :=
  let terminal (cls : String) (value : Option String) : ElementSpec :=
    { ElementSpec.blank with terminal := cls, value, visible := true }
  ⟨"frank", none, [⟨"start",
    [[terminal "token" "[", { ElementSpec.blank with state := "start", word := true }, terminal "token" "]"],
     [terminal "empty" none]]⟩]⟩

/-- The grammar of `frankSpec`. -/
def frank : Grammar :=
  let token (lexeme : String) : Element := ⟨.terminal (.token lexeme), .plain, true, false⟩
  ⟨"frank", [⟨"start", [[token "[", ⟨.state 0, .plain, true, true⟩, token "]"],
    [⟨.terminal .empty, .plain, true, false⟩]]⟩], 0⟩

/-- A bracket without a partner, a pair of brackets in another one, and a character that is no bracket. -/
theorem coverage_frank :
    frankSpec.build .standard = .ok frank ∧ notebook.Patient ∧ frank.ShowsTerminals ∧
    ∃ (n : Nat) (r : Run) (events : List Event),
      r.phase = .finished ∧ r.position = (Stream.ofString "[[[]]x").length ∧
      (Run.start frank 4).advance notebook (.ofString "[[[]]x") n #[] = (r, notebook.after #[] events) ∧
      (Run.start frank 4).toEnd notebook (.ofString "[[[]]x") #[] = (r, notebook.after #[] events) ∧
      frank.notes (.ofString "[[[]]x") 4 = (events.map Note.heard).toArray ∧
      Span.Tile ((Run.start frank 4).collect notebook (.ofString "[[[]]x") (·.consumed (.ofString "[[[]]x")) n #[]) 0
        (Stream.ofString "[[[]]x").length ∧
      (∀ pos < (Stream.ofString "[[[]]x").length, ((Run.start frank 4).collect notebook (.ofString "[[[]]x")
        (·.consumed (.ofString "[[[]]x")) n #[]).countP (·.covers pos) = 1) ∧
      (frank.ShowsTerminals → Span.Tile (events.filterMap Event.span) 0 (Stream.ofString "[[[]]x").length) :=
  have hg : frankSpec.build .standard = .ok frank := by decide +kernel
  have hl : notebook.Patient := fun _ _ => rfl
  have hshown : frank.ShowsTerminals := by
    unfold Grammar.ShowsTerminals
    decide
  ⟨hg, hl, hshown, Grammar.coverage hg hl (.ofString "[[[]]x") 4 #[]⟩

end LiveHighlight
