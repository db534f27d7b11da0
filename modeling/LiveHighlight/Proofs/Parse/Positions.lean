import LiveHighlight.Proofs.Parse.Reading

/-!
# Where a run stands

What a terminal consumes is there, so a run never gets past the end of its stream (`Run.Within`), and what it tells is about the
position at which it stands. A listener has a say in a run only by refusing: two listeners that refuse nothing hear the same run
(`Within.advance`).
-/

namespace LiveHighlight

namespace Stream

variable {s : Stream}

/-- Characters that the stream reads from a position on are in the stream. -/
theorem le_of_readsAt {chars : List Char} {pos : Nat} (h : s.readsAt pos chars = true) (hpos : pos ≤ s.length) :
    pos + chars.length ≤ s.length := by
  induction chars generalizing pos with
  | nil => exact hpos
  | cons c rest ih =>
    simp only [readsAt, Bool.and_eq_true, beq_iff_eq] at h
    have hin : pos < s.length := by
      have hsome : s.inBounds pos = true := by rw [← isSome_charAt, h.1]; rfl
      simpa [inBounds] using hsome
    have hrest := ih h.2 hin
    rw [List.length_cons]
    omega

/-- A stretch ends in the stream. -/
theorem le_of_stretch {accepts : Char → Bool} {pos more found : Nat} (h : pos + found ≤ s.length) :
    pos + s.stretch accepts pos more found ≤ s.length := by
  induction more generalizing found with
  | zero => exact h
  | succ more ih =>
    unfold stretch
    split
    · next c hc =>
      split
      · refine ih ?_
        have hsome : s.inBounds (pos + found) = true := by rw [← isSome_charAt, hc]; rfl
        have hin : pos + found < s.length := by simpa [inBounds] using hsome
        omega
      · exact h
    · exact h

end Stream

/-- A terminal consumes characters that are there. -/
theorem Terminal.le_of_matchAt {t : Terminal} {s : Stream} {pos n : Nat} (h : t.matchAt s pos = some n)
    (hpos : pos ≤ s.length) : pos + n ≤ s.length := by
  have lexeme {text : String} (h : matchLexeme text s pos = some n) : pos + n ≤ s.length := by
    obtain ⟨⟨-, hreads⟩, rfl⟩ := Option.ite_some_none_eq_some.1 h
    exact Stream.le_of_readsAt hreads hpos
  cases t with
  | token text | literal text => exact lexeme h
  | run accepted bounds =>
    obtain ⟨-, rfl⟩ := Option.ite_some_none_eq_some.1 h
    exact Stream.le_of_stretch hpos
  | empty =>
    obtain rfl : 0 = n := Option.some.inj h
    exact hpos
  | notBlank =>
    obtain ⟨c, hc, hn⟩ := Option.bind_eq_some_iff.1 h
    have hsome : s.inBounds pos = true := by rw [← Stream.isSome_charAt, hc]; rfl
    have hin : pos < s.length := by simpa [Stream.inBounds] using hsome
    split at hn
    · cases hn
    · obtain rfl : 1 = n := Option.some.inj hn
      exact hin

/-- A listener that hears nothing and refuses nothing. -/
def Listener.deaf : Listener Unit := ⟨fun memory _ => (memory, none), fun memory _ _ => memory⟩

/-- Whether a listener takes events about the positions of a stream for as long as its memory has a property. -/
def Listener.Takes {σ : Type} (l : Listener σ) (s : Stream) (P : σ → Prop) : Prop :=
  ∀ memory event, P memory → event.position ≤ s.length → (l.hear memory event).2 = none ∧ P (l.hear memory event).1

namespace Run

/-- Whether a run stands in its stream or at its end, and only elements of productions are pending. -/
structure Within (s : Stream) (r : Run) : Prop where
  position : r.position ≤ s.length
  inside : ∀ p ∈ r.pending, p.site ≠ .top

variable {s : Stream} {r : Run} {σ : Type} {l : Listener σ}

theorem within_start (g : Grammar) (maxDepth : Nat) (s : Stream) : (start g maxDepth).Within s :=
  ⟨Nat.zero_le _, by simp [start]⟩

/-- The elements of a production are inside a production. -/
theorem inside_of_expand {g : Grammar} {id production depth : Nat} {pending : List Pending}
    (h : g.expand id production depth = .ok pending) : ∀ p ∈ pending, p.site ≠ .top := by
  intro p hp
  unfold Grammar.expand at h
  split at h
  · cases h
  · obtain rfl := Except.ok.inj h
    obtain ⟨index, -, rfl⟩ := List.mem_map.1 hp
    simp

theorem position_of_report {e : Element} {length : Nat} {state : Option String} {event : Event}
    (h : r.report e length state = some event) : event.position = r.position := by
  obtain ⟨-, he⟩ := Option.ite_none_right_eq_some.1 h
  rw [← Option.some.inj he]
  rfl

/-- A move stays in the stream, and tells what happens where the run stands. -/
theorem Within.move (hr : r.Within s) {next : Pending} {rest : List Pending} {move : Move}
    (htop : next.site = .top → r.position < s.length) (hrest : ∀ p ∈ rest, p.site ≠ .top)
    (h : r.moveAt s next rest = .ok move) :
    (r.follow move).Within s ∧ ∀ event, move.event = some event → event.position = r.position := by
  simp only [moveAt, bind, Except.bind] at h
  split at h
  · cases h
  · next e _ =>
    split at h
    · split at h
      · cases h
      · next length hm =>
        obtain rfl := Except.ok.inj h
        exact ⟨⟨Terminal.le_of_matchAt hm hr.position, hrest⟩, fun event he => position_of_report he⟩
    · next id _ =>
      have passed (ht : next.site = .top) : (r.follow ⟨some (.unmatched e r.position), r.position + 1, rest⟩).Within s ∧
          ∀ event, some (Event.unmatched e r.position) = some event → event.position = r.position := by
        refine ⟨⟨htop ht, hrest⟩, ?_⟩
        intro event he
        rw [← Option.some.inj he]
        rfl
      split at h
      · cases h
      · split at h
        · split at h
          · next ht =>
            obtain rfl := Except.ok.inj h
            exact passed ht.1
          · split at h
            · cases h
            · next children hc =>
              obtain rfl := Except.ok.inj h
              refine ⟨⟨hr.position, ?_⟩, fun event he => position_of_report he⟩
              intro p hp
              rcases List.mem_append.1 hp with hp | hp
              · exact inside_of_expand hc p hp
              · exact hrest p hp
        · split at h
          · next ht =>
            obtain rfl := Except.ok.inj h
            exact passed ht
          · cases h

/-- What a run does next keeps it in its stream, and tells what happens where it stands. -/
theorem Within.plan (hr : r.Within s) {move : Move} (h : r.plan s = .ok (some move)) :
    (r.follow move).Within s ∧ ∀ event, move.event = some event → event.position = r.position := by
  obtain ⟨next, rest, hnext, hm⟩ := moveAt_of_plan h
  rcases hnext with hp | ⟨-, rfl, rfl, hin⟩
  · have hinside := hp ▸ hr.inside
    exact hr.move (fun ht => absurd ht (hinside next (.head _))) (fun p hp => hinside p (.tail _ hp)) hm
  · exact hr.move (fun _ => hin) (by simp) hm

/-- Some steps of a run that is told to somebody who refuses nothing. -/
def ahead (s : Stream) (n : Nat) (r : Run) : Run := (r.advance .deaf s n ()).1

theorem ahead_one (s : Stream) (r : Run) : r.ahead s 1 = (r.step .deaf s ()).1 := by
  rw [ahead, advance_succ]
  rfl

/-- A listener that takes events about positions of the stream has no say in a step, and goes on taking them unless the step ends
in a fault. -/
theorem Within.step (hr : r.Within s) {P : σ → Prop} (hl : l.Takes s P) (memory : σ) (hm : P memory) :
    (r.step l s memory).1 = r.ahead s 1 ∧ (r.ahead s 1).Within s ∧
      ((∀ fault, r.plan s ≠ .error fault) → P (r.step l s memory).2) := by
  rw [ahead_one]
  unfold Run.step
  split
  · exact ⟨rfl, hr, fun _ => hm⟩
  · split
    · next fault hp => exact ⟨rfl, ⟨hr.position, by simp [Run.fail]⟩, fun h => absurd hp (h fault)⟩
    · exact ⟨rfl, ⟨hr.position, hr.inside⟩, fun _ => hm⟩
    · next move hp =>
      obtain ⟨hwithin, hpos⟩ := hr.plan hp
      split
      · exact ⟨rfl, hwithin, fun _ => hm⟩
      · next event he =>
        have htakes := hl memory event hm (by rw [hpos event he]; exact hr.position)
        split
        · next heard =>
          rw [heard] at htakes
          exact ⟨rfl, hwithin, fun _ => htakes.2⟩
        · next heard =>
          rw [heard] at htakes
          cases htakes.1

/-- Some steps and then some more are all of them. -/
theorem ahead_add (s : Stream) (m n : Nat) (r : Run) : r.ahead s (m + n) = (r.ahead s m).ahead s n := by
  rw [ahead, advance_add]
  rfl

/-- A run stays in its stream. -/
theorem Within.ahead (hr : r.Within s) (n : Nat) : (r.ahead s n).Within s := by
  induction n with
  | zero => exact hr
  | succ n ih =>
    have hl : Listener.deaf.Takes s fun _ => True := fun _ _ _ _ => ⟨rfl, trivial⟩
    rw [ahead_add]
    exact (ih.step hl () trivial).2.1

/-- A listener that takes events about positions of the stream has no say in a run that never faults. -/
theorem Within.advance (hr : r.Within s) {P : σ → Prop} (hl : l.Takes s P) (memory : σ) (hm : P memory) {n : Nat}
    (hplan : ∀ m fault, (r.ahead s m).plan s ≠ .error fault) :
    (r.advance l s n memory).1 = r.ahead s n ∧ P (r.advance l s n memory).2 := by
  induction n generalizing r memory with
  | zero => exact ⟨rfl, hm⟩
  | succ n ih =>
    obtain ⟨hstep, hwithin, htakes⟩ := hr.step hl memory hm
    have hplan' : ∀ m fault, ((r.ahead s 1).ahead s m).plan s ≠ .error fault := by
      intro m fault
      rw [← ahead_add]
      exact hplan (1 + m) fault
    rw [advance_succ, Nat.add_comm n 1, ahead_add, hstep]
    exact ih hwithin _ (htakes (hplan 0)) hplan'

/-- A step that is not planned to fault does not fail. -/
theorem phase_ahead_one (hr : r.phase ≠ .failed) (hplan : ∀ fault, r.plan s ≠ .error fault) : (r.ahead s 1).phase ≠ .failed := by
  rw [ahead_one]
  unfold Run.step
  split
  · exact hr
  · split
    · next fault hp => exact absurd hp (hplan fault)
    · simp
    · split
      · exact hr
      · exact hr

/-- A run that never plans a fault does not fail. -/
theorem phase_ahead (hr : r.phase ≠ .failed) (hplan : ∀ m fault, (r.ahead s m).plan s ≠ .error fault) (n : Nat) :
    (r.ahead s n).phase ≠ .failed := by
  induction n with
  | zero => exact hr
  | succ n ih =>
    rw [ahead_add]
    exact phase_ahead_one ih (hplan n)

/-- A run over a grammar that was built never plans a fault. -/
theorem plan_ahead {g : Grammar} (hg : g.Closed) (s : Stream) (maxDepth n : Nat) (fault : ParseFault) :
    ((start g maxDepth).ahead s n).plan s ≠ .error fault := by
  have hl : Listener.deaf.Patient := fun _ _ => rfl
  obtain ⟨r', hf, hplan, h⟩ := ReadingAux.leads_reading (s := s) hg hl (max maxDepth 1) 0 (start g maxDepth) ()
    rfl rfl rfl rfl rfl
  exact ReadingAux.plan_ne_error h hf hplan n fault

end Run

end LiveHighlight
