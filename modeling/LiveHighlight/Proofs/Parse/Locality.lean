import LiveHighlight.Proofs.Parse.RunTrace

/-!
# What lies behind a run does not matter

A terminal looks at no character before its position, so lookahead and the steps of a run depend on a text only through what is
still ahead. Two texts that end alike are told alike from there on, once a run has nothing pending where the common end begins: what
is told is what the common end alone is told, at the positions that it has in the text (`Grammar.resynchronizes`).
-/

namespace LiveHighlight

/-- Whether the characters of a stream from a position on are those of another stream. -/
def Stream.Tail (s : Stream) (start : Nat) (w : Stream) : Prop := ∀ pos, s.charAt (start + pos) = w.charAt pos

/-- An event some characters further on. -/
def Event.shift (by_ : Nat) : Event → Event
  | .matched m => .matched { m with offset := by_ + m.offset }
  | .unmatched e position => .unmatched e (by_ + position)

/-- A move some characters further on. -/
def Move.shift (by_ : Nat) (m : Move) : Move := ⟨m.event.map (Event.shift by_), by_ + m.position, m.pending⟩

/-- A run some characters further on. -/
def Run.shift (by_ : Nat) (r : Run) : Run := { r with position := by_ + r.position }

namespace LocalityAux

variable {s w : Stream} {start : Nat} {g : Grammar} {r : Run}

/-- A text from the position on at which another one was put behind it is the other one. -/
theorem tail_append (u w : String) : (Stream.ofString (u ++ w)).Tail u.length (.ofString w) := by
  intro pos
  have hlength : u.toList.length = u.length := String.length_toList
  rw [Stream.charAt_eq_getElem?, Stream.charAt_eq_getElem?, Stream.toList_ofString, Stream.toList_ofString, String.toList_append,
    List.getElem?_append_right (by omega), hlength, Nat.add_sub_cancel_left]

/-! ## Lookahead -/

theorem readsAt_tail (ht : s.Tail start w) (chars : List Char) (pos : Nat) :
    s.readsAt (start + pos) chars = w.readsAt pos chars := by
  induction chars generalizing pos with
  | nil => rfl
  | cons c rest ih => rw [Stream.readsAt, Stream.readsAt, ht pos, Nat.add_assoc, ih (pos + 1)]

theorem stretch_tail (ht : s.Tail start w) (accepts : Char → Bool) (pos more found : Nat) :
    s.stretch accepts (start + pos) more found = w.stretch accepts pos more found := by
  induction more generalizing found with
  | zero => rfl
  | succ more ih => rw [Stream.stretch, Stream.stretch, Nat.add_assoc, ht (pos + found), ih (found + 1)]

/-- A terminal looks at no character before its position. -/
theorem matchAt_tail (ht : s.Tail start w) (t : Terminal) (pos : Nat) : t.matchAt s (start + pos) = t.matchAt w pos := by
  cases t with
  | token lexeme | literal lexeme => simp only [Terminal.matchAt, Terminal.matchLexeme, readsAt_tail ht]
  | run accepted bounds => simp only [Terminal.matchAt, stretch_tail ht]
  | empty => rfl
  | notBlank => simp only [Terminal.matchAt, ht pos]

theorem sequenceLength_tail {lengthAt lengthAt' : Element → Nat → Except ParseFault (Option Nat)}
    (h : ∀ e pos, lengthAt e (start + pos) = lengthAt' e pos) (es : List Element) (pos : Nat) :
    sequenceLength lengthAt es (start + pos) = sequenceLength lengthAt' es pos := by
  induction es generalizing pos with
  | nil => rfl
  | cons e rest ih =>
    rw [sequenceLength, sequenceLength, h e pos]
    cases lengthAt' e pos with
    | error fault => rfl
    | ok found =>
      cases found with
      | none => rfl
      | some length => simp only [Nat.add_assoc, ih (pos + length)]

theorem firstSelection_tail {lengthAt lengthAt' : Element → Nat → Except ParseFault (Option Nat)}
    (h : ∀ e pos, lengthAt e (start + pos) = lengthAt' e pos) (pos : Nat) (productions : List Production) (index : Nat) :
    firstSelection lengthAt (start + pos) index productions = firstSelection lengthAt' pos index productions := by
  induction productions generalizing index with
  | nil => rfl
  | cons production rest ih => rw [firstSelection, firstSelection, sequenceLength_tail h, ih (index + 1)]

/-- Lookahead looks at no character before its position. -/
theorem select_tail (ht : s.Tail start w) (g : Grammar) (depth id pos : Nat) :
    g.select s depth id (start + pos) = g.select w depth id pos := by
  induction depth generalizing id pos with
  | zero => rfl
  | succ depth ih =>
    rw [Grammar.select, Grammar.select]
    cases g.state? id with
    | none => rfl
    | some state =>
      refine firstSelection_tail ?_ pos state.productions 0
      intro e pos
      rw [Element.lengthAt, Element.lengthAt]
      cases e.target with
      | terminal t => simp only [matchAt_tail ht]
      | state id => simp only [ih]

/-! ## Steps -/

theorem report_shift (r : Run) (e : Element) (length : Nat) (name : Option String) :
    (r.shift start).report e length name = (r.report e length name).map (Event.shift start) := by
  unfold Run.report
  split <;> rfl

theorem moveAt_shift (ht : s.Tail start w) {next : Pending} {rest : List Pending} {move : Move}
    (h : r.moveAt w next rest = .ok move) : (r.shift start).moveAt s next rest = .ok (move.shift start) := by
  have hposition : (r.shift start).position = start + r.position := rfl
  have hgrammar : (r.shift start).grammar = r.grammar := rfl
  simp only [Run.moveAt, hgrammar, hposition, report_shift, bind, Except.bind] at h ⊢
  cases he : r.grammar.elementAt next.site with
  | error fault => simp [he] at h
  | ok e =>
    simp only [he] at h ⊢
    cases htarget : e.target with
    | terminal t =>
      simp only [htarget, matchAt_tail ht] at h ⊢
      cases hm : t.matchAt w r.position with
      | none => simp [hm, throw, throwThe, MonadExceptOf.throw] at h
      | some length =>
        simp only [hm] at h ⊢
        obtain rfl := Except.ok.inj h
        simp only [Move.shift, Nat.add_assoc]
        rfl
    | state id =>
      simp only [htarget, select_tail ht] at h ⊢
      cases hsel : r.grammar.select w next.depth id r.position with
      | error fault => simp [hsel] at h
      | ok found =>
        simp only [hsel] at h ⊢
        cases found with
        | none =>
          by_cases htop : next.site = .top
          · simp only [htop, if_true] at h ⊢
            obtain rfl := Except.ok.inj h
            rfl
          · simp [htop, throw, throwThe, MonadExceptOf.throw] at h
        | some selection =>
          by_cases htop : next.site = .top ∧ selection.length = 0
          · simp only [htop, and_self, if_true] at h ⊢
            obtain rfl := Except.ok.inj h
            rfl
          · simp only [htop, if_false] at h ⊢
            cases hc : r.grammar.expand id selection.production (next.depth - 1) with
            | error fault => simp [hc] at h
            | ok children =>
              simp only [hc] at h ⊢
              obtain rfl := Except.ok.inj h
              rfl

theorem inBounds_tail (ht : s.Tail start w) (pos : Nat) : s.inBounds (start + pos) = w.inBounds pos := by
  rw [← Stream.isSome_charAt, ← Stream.isSome_charAt, ht pos]

/-- What a run does next depends on what is ahead of it. -/
theorem plan_shift (ht : s.Tail start w) {found : Option Move} (h : r.plan w = .ok found) :
    (r.shift start).plan s = .ok (found.map (Move.shift start)) := by
  have hposition : (r.shift start).position = start + r.position := rfl
  have hpending : (r.shift start).pending = r.pending := rfl
  have hdepth : (r.shift start).maxDepth = r.maxDepth := rfl
  unfold Run.plan at h ⊢
  rw [hpending, hposition, hdepth, inBounds_tail ht]
  cases hp : r.pending with
  | cons next rest =>
    simp only [hp] at h ⊢
    obtain ⟨move, hm, rfl⟩ := BuildAux.map_eq_ok_iff.1 h
    rw [moveAt_shift ht hm]
    rfl
  | nil =>
    simp only [hp] at h ⊢
    split at h
    · next hin =>
      obtain ⟨move, hm, rfl⟩ := BuildAux.map_eq_ok_iff.1 h
      rw [if_pos hin, moveAt_shift ht hm]
      rfl
    · next hout =>
      obtain rfl := Except.ok.inj h
      rw [if_neg hout]
      rfl

/-- What a step tells depends on what is ahead of the run. -/
theorem told_shift (ht : s.Tail start w) (hr : r.Sound w) : (r.shift start).told s = (r.told w).map (Event.shift start) := by
  unfold Run.told
  change (if r.phase ≠ .running then none else _) = _
  by_cases hrun : r.phase ≠ .running
  · rw [if_pos hrun, if_pos hrun]
    rfl
  · rw [if_neg hrun, if_neg hrun]
    cases hp : r.plan w with
    | error fault => exact absurd hp (hr.plan 0 fault)
    | ok found =>
      rw [plan_shift ht hp]
      cases found <;> rfl

/-- Where a step goes depends on what is ahead of the run. -/
theorem ahead_one_shift (ht : s.Tail start w) (hr : r.Sound w) : (r.shift start).ahead s 1 = (r.ahead w 1).shift start := by
  have hdeaf : Listener.deaf.Patient := fun _ _ => rfl
  rw [Run.ahead_one, Run.ahead_one]
  by_cases hrun : r.phase = .running
  · have hrun' : (r.shift start).phase = .running := hrun
    cases hp : r.plan w with
    | error fault => exact absurd hp (hr.plan 0 fault)
    | ok found =>
      have hp' := plan_shift ht hp
      cases found with
      | none =>
        simp only [Run.step, hrun, hrun', hp, hp', ne_eq, not_true_eq_false, if_false, Option.map_none]
        rfl
      | some move =>
        rw [ReadingAux.step_of_plan hdeaf hrun hp, ReadingAux.step_of_plan hdeaf hrun' hp']
        rfl
  · have hrun' : (r.shift start).phase ≠ .running := hrun
    rw [Run.step_of_ended hrun, Run.step_of_ended hrun']

theorem ahead_shift (ht : s.Tail start w) (hr : r.Sound w) (n : Nat) :
    (r.shift start).ahead s n = (r.ahead w n).shift start := by
  induction n with
  | zero => rfl
  | succ n ih => rw [Run.ahead_add, Run.ahead_add, ih, ahead_one_shift ht (RunTraceAux.sound_ahead hr n)]

/-- What some steps tell depends on what is ahead of the run. -/
theorem collect_shift (ht : s.Tail start w) (hr : r.Sound w) (n : Nat) :
    (r.shift start).collect .deaf s (·.told s) n () = (r.collect .deaf w (·.told w) n ()).map (Event.shift start) := by
  induction n generalizing r with
  | zero => rfl
  | succ n ih =>
    rw [RunTraceAux.collect_succ, RunTraceAux.collect_succ, List.map_append, told_shift ht hr, ahead_one_shift ht hr,
      ih (RunTraceAux.sound_ahead hr 1)]
    cases r.told w <;> rfl

/-! ## The boundary -/

/-- A run keeps its grammar and its budget. -/
theorem settings_ahead (s : Stream) (r : Run) (n : Nat) :
    (r.ahead s n).grammar = r.grammar ∧ (r.ahead s n).maxDepth = r.maxDepth := by
  induction n with
  | zero => exact ⟨rfl, rfl⟩
  | succ n ih =>
    obtain ⟨hgrammar, hdepth⟩ := Run.settings_step (l := .deaf) (s := s) (r.ahead s n) ()
    rw [Run.ahead_add, Run.ahead_one, hgrammar, hdepth]
    exact ih

/-- A run that goes on with nothing pending is one at the beginning, some characters further on. -/
theorem ahead_eq_shift {maxDepth n : Nat} (hrun : ((Run.start g maxDepth).ahead s n).phase = .running)
    (hpending : ((Run.start g maxDepth).ahead s n).pending = []) :
    (Run.start g maxDepth).ahead s n = (Run.start g maxDepth).shift ((Run.start g maxDepth).ahead s n).position := by
  obtain ⟨hg, hd⟩ := settings_ahead s (Run.start g maxDepth) n
  generalize (Run.start g maxDepth).ahead s n = r at *
  obtain ⟨grammar, depth, pending, position, phase⟩ := r
  obtain rfl : grammar = g := hg
  obtain rfl : depth = max maxDepth 1 := hd
  obtain rfl : pending = [] := hpending
  obtain rfl : phase = .running := hrun
  rfl

/-- A run ends once. -/
theorem ahead_eq_of_ended {a b : Nat} (ha : (r.ahead s a).phase ≠ .running) (hb : (r.ahead s b).phase ≠ .running) :
    r.ahead s a = r.ahead s b := by
  have ended {m n : Nat} (hle : m ≤ n) (hm : (r.ahead s m).phase ≠ .running) : r.ahead s n = r.ahead s m := by
    obtain ⟨k, rfl⟩ := Nat.exists_eq_add_of_le hle
    rw [Run.ahead_add, Run.ahead, Run.advance_of_ended hm]
  rcases Nat.le_total a b with hle | hle
  · exact (ended hle ha).symm
  · exact ended hle hb

/-- A run that has ended tells nothing more. -/
theorem collect_of_ended (hr : r.phase ≠ .running) (n : Nat) : r.collect .deaf s (·.told s) n () = [] := by
  induction n with
  | zero => rfl
  | succ n ih =>
    have htold : r.told s = none := by simp [Run.told, hr]
    have hahead : r.ahead s 1 = r := by rw [Run.ahead, Run.advance_of_ended hr]
    rw [RunTraceAux.collect_succ, hahead, ih, htold]
    rfl

/-- Over a stream without characters nothing is told. -/
theorem collect_of_length_eq_zero (hw : w.length = 0) (maxDepth n : Nat) :
    (Run.start g maxDepth).collect .deaf w (·.told w) n () = [] := by
  cases n with
  | zero => rfl
  | succ n =>
    have hplan : (Run.start g maxDepth).plan w = .ok none := by simp [Run.plan, Run.start, Stream.inBounds, hw]
    have htold : (Run.start g maxDepth).told w = none := by simp only [Run.told, hplan, ite_self]
    have hended : ((Run.start g maxDepth).ahead w 1).phase ≠ .running := by
      have hrun : (Run.start g maxDepth).phase = .running := rfl
      simp [Run.ahead_one, Run.step, hrun, hplan]
    rw [RunTraceAux.collect_succ, htold, collect_of_ended hended]
    rfl

variable {σ : Type} {l : Listener σ}

/-- From a position at which nothing is pending, a run tells what a run over the rest of the stream tells. -/
theorem told_from (hg : g.Closed) (hl : l.Patient) (ht : s.Tail start w) (hlength : s.length = start + w.length)
    {maxDepth n : Nat} {memory reached : σ} (hreached : (Run.start g maxDepth).advance l s n memory = (r, reached))
    (hpending : r.pending = []) (hposition : r.position = start) :
    (∀ m, r.collect l s (·.told s) m reached =
        ((Run.start g maxDepth).collect .deaf w (·.told w) m ()).map (Event.shift start)) ∧
      ∃ r' : Run, r'.phase = .finished ∧ r'.position = s.length ∧ Run.Leads l s (r, reached)
        (r', l.after reached ((g.reading w (max maxDepth 1) 0).map (Event.shift start))) := by
  have hsound := RunTraceAux.sound_start hg s maxDepth
  rw [RunTraceAux.advance_eq (hl.takes s) hsound memory trivial n, Prod.mk.injEq] at hreached
  obtain ⟨rfl, -⟩ := hreached
  have hr := RunTraceAux.sound_ahead hsound n
  have hcollect (m : Nat) := RunTraceAux.collect_eq (hl.takes s) hr reached trivial (·.told s) m
  have hadvance (m : Nat) := RunTraceAux.advance_eq (hl.takes s) hr reached trivial m
  obtain ⟨n₀, hphase₀, hposition₀, htold₀⟩ := RunTraceAux.exists_finish hg w maxDepth
  cases hphase : ((Run.start g maxDepth).ahead s n).phase with
  | running =>
    have heq := ahead_eq_shift hphase hpending
    rw [hposition] at heq
    have hsound' := RunTraceAux.sound_start hg w maxDepth
    refine ⟨fun m => by rw [hcollect, heq, collect_shift ht hsound'], ((Run.start g maxDepth).ahead w n₀).shift start, hphase₀,
      ?_, n₀, ?_⟩
    · rw [hlength, ← hposition₀]
      rfl
    · dsimp only
      rw [hadvance, heq, ahead_shift ht hsound', collect_shift ht hsound', htold₀]
  | finished =>
    -- the run has ended where the stream does, so nothing follows
    obtain ⟨n₁, hphase₁, hposition₁, -⟩ := RunTraceAux.exists_finish hg s maxDepth
    have hended := ahead_eq_of_ended (r := Run.start g maxDepth) (s := s) (a := n) (b := n₁) (by simp [hphase]) (by simp [hphase₁])
    rw [hended, hposition₁] at hposition
    have hw : w.length = 0 := by omega
    refine ⟨fun m => ?_, _, hphase, by rw [hended, hposition₁], ?_⟩
    · rw [hcollect, collect_of_ended (by simp [hphase]), collect_of_length_eq_zero hw]
      rfl
    · rw [Grammar.reading, if_neg (by omega)]
      exact Run.Leads.refl _
  | failed => exact absurd hphase (Run.phase_ahead (by simp [Run.start]) hsound.plan n)

end LocalityAux

open LocalityAux

/-- Texts that end in `w`, whatever stands before it, are told alike from there on, if a run over them stands at the beginning of
`w` with nothing pending: step by step it tells what a run over `w` alone tells, further on by the length of what stands before, and
in the end it has told all that and nothing else. -/
theorem Grammar.resynchronizes {σ : Type} {spec : GrammarSpec} {registry : TerminalRegistry} {g : Grammar}
    (hg : spec.build registry = .ok g) {l : Listener σ} (hl : l.Patient) (maxDepth : Nat) (w : String) :
    ∃ events : List Event, g.notes (.ofString w) maxDepth = (events.map Note.heard).toArray ∧
      ∀ (u : String) (memory reached : σ) (n : Nat) (r : Run),
        (Run.start g maxDepth).advance l (.ofString (u ++ w)) n memory = (r, reached) →
          r.pending = [] → r.position = u.length →
        (∀ m, r.collect l (.ofString (u ++ w)) (·.told (.ofString (u ++ w))) m reached =
            ((Run.start g maxDepth).collect notebook (.ofString w) (·.told (.ofString w)) m #[]).map (Event.shift u.length)) ∧
          ∃ r' : Run, r'.phase = .finished ∧ r'.position = (u ++ w).length ∧
            r.toEnd l (.ofString (u ++ w)) reached = (r', l.after reached (events.map (Event.shift u.length))) ∧
            (Run.start g maxDepth).toEnd l (.ofString (u ++ w)) memory =
              (r', l.after reached (events.map (Event.shift u.length))) := by
  have hc := closed_of_build hg
  have hnotebook : notebook.Patient := fun _ _ => rfl
  obtain ⟨⟨r₀, -, hend⟩, -⟩ := toEnd_eq_reading hg hnotebook (.ofString w) maxDepth #[]
  refine ⟨g.reading (.ofString w) (max maxDepth 1) 0, by rw [notes, hend, RunTraceAux.after_notebook], ?_⟩
  intro u memory reached n r hreached hpending hposition
  have hlength (text : String) : (Stream.ofString text).length = text.length := by
    rw [← Stream.length_toList, Stream.toList_ofString, String.length_toList]
  obtain ⟨hcollect, r', hphase, hstop, hleads⟩ := told_from hc hl (tail_append u w)
    (by rw [hlength, hlength, String.length_append]) hreached hpending hposition
  refine ⟨fun m => ?_, r', hphase, by rw [hstop, hlength], hleads.toEnd (by simp [hphase]),
    (Run.Leads.trans ⟨n, hreached⟩ hleads).toEnd (by simp [hphase])⟩
  rw [hcollect, RunTraceAux.collect_eq (hnotebook.takes _) (RunTraceAux.sound_start hc _ maxDepth) #[] trivial]

/-- A pair of brackets is told alike behind a character that is no bracket and behind another pair. -/
theorem resynchronizes_brackets :
    bracketSpec.build .standard = .ok brackets ∧ notebook.Patient ∧
    ∃ events : List Event, brackets.notes (.ofString "[]") 3 = (events.map Note.heard).toArray ∧
      ∀ text ∈ [("x", 1), ("[]", 5)], ∃ r reached r',
        (Run.start brackets 3).advance notebook (.ofString (text.1 ++ "[]")) text.2 #[] = (r, reached) ∧
        r.pending = [] ∧ r.position = text.1.length ∧ r'.phase = .finished ∧
        (Run.start brackets 3).toEnd notebook (.ofString (text.1 ++ "[]")) #[] =
          (r', notebook.after reached (events.map (Event.shift text.1.length))) := by
  have hg : bracketSpec.build .standard = .ok brackets := by decide +kernel
  have hl : notebook.Patient := fun _ _ => rfl
  refine ⟨hg, hl, ?_⟩
  obtain ⟨events, hnotes, h⟩ := Grammar.resynchronizes hg hl 3 "[]"
  refine ⟨events, hnotes, ?_⟩
  intro text htext
  have hboundary : ∀ text ∈ [("x", 1), ("[]", 5)],
      ((Run.start brackets 3).advance notebook (.ofString (text.1 ++ "[]")) text.2 #[]).1.pending = [] ∧
      ((Run.start brackets 3).advance notebook (.ofString (text.1 ++ "[]")) text.2 #[]).1.position = text.1.length := by
    decide +kernel
  obtain ⟨hpending, hposition⟩ := hboundary text htext
  obtain ⟨-, r', hphase, -, -, hend⟩ := h text.1 #[] _ text.2 _ rfl hpending hposition
  exact ⟨_, _, r', rfl, hpending, hposition, hphase, hend⟩

end LiveHighlight
