import LiveHighlight.Proofs.Session.RequestLifetime
import LiveHighlight.Proofs.Session.Orders

/-!
# What becomes of a request

Every parse that a handler queues waits in the handler's slot until one of two things happens to it, once (`Fate`): the slot is
stopped before the parse announces that the annotations are renewed, because of another request, a command, or because the handler
is disabled or disposed of, or the parse announces it. From then on its worker takes no step any more. `Course.fate` says so of
every request, who asks for one, and which text is parsed.
-/

namespace LiveHighlight

namespace Machine

/-- Whether the first task has a handler asked for a parse: the host asks for one, the handler is enabled, or it is told of an
event other than that annotations are renewed. -/
inductive Asks (h : Nat) (m : Machine) : Prop where
  | reparse {name : String} {asker : Asker} {rest : List Task} (ha : m.agenda = .call (.onHandler name .reparse) asker :: rest)
      (hn : m.session.names.handlers.get? name = some h)
  | enable {name : String} {asker : Asker} {rest : List Task}
      (ha : m.agenda = .call (.onHandler name (.enable true)) asker :: rest) (hn : m.session.names.handlers.get? name = some h)
  | told {event : BufferEvent} {rest : List Task} (ha : m.agenda = .notify (.handler h) event :: rest) (he : event ≠ .formatted)

/-- Whether the first task ends the parse that a handler has under way: another one is queued, the handler's work is stopped by a
command, or the handler is disabled or disposed of. -/
inductive Supersedes (h : Nat) (m : Machine) : Prop where
  | request {i : Nat} (hr : m.Requests h i)
  | command {name : String} {command : Nat} {asker : Asker} {rest : List Task}
      (ha : m.agenda = .call (.onHandler name (.execute command)) asker :: rest)
      (hn : m.session.names.handlers.get? name = some h) (hc : WorkCommand.ofId? command = some .stop)
  | disable {name : String} {asker : Asker} {rest : List Task}
      (ha : m.agenda = .call (.onHandler name (.enable false)) asker :: rest)
      (hn : m.session.names.handlers.get? name = some h)
  | dispose {rest : List Task} (ha : m.agenda = .dispose h :: rest)

end Machine

/-- What has become of the worker `i` that a handler queued at its slot `k`, when a course has come to `m` after the machines of
`later`. -/
inductive Fate (h k i : Nat) (later : List Machine) (m : Machine) : Prop where
  /-- The slot holds it, and it has announced nothing. -/
  | held (holds : m.Holds k i) (silent : ∀ x ∈ later, ¬ x.Raises i)
  /-- It was taken out of the slot before it announced anything, is discarded, and took no step any more. -/
  | superseded (after : List Machine) {before : List Machine} {q y : Machine} {rest : List Task}
      (split : later = after ++ q :: y :: before) (why : y.Supersedes h) (stop : q.agenda = .stop k :: rest) (holds : q.Holds k i)
      (silent : ∀ x ∈ q :: y :: before, ¬ x.Raises i) (ceased : ∀ x ∈ m :: after, ¬ x.Employs i) (dropped : m.drops i = 1)
  /-- It announced once that the annotations are renewed, in a step that changed no lines, and took no step any more. -/
  | completed (after : List Machine) {before : List Machine} {q : Machine} (split : later = after ++ q :: before)
      (silent : ∀ x ∈ before, ¬ x.Raises i) (raises : q.Raises i)
      (last : ∀ d, (q.step.session.document d).buffer = (q.session.document d).buffer) (ceased : ∀ x ∈ m :: after, ¬ x.Employs i)

namespace FateAux

open HostingAux

variable {later between earlier past : List Machine} {p q m x : Machine} {t : Task} {rest new : List Task} {h i j k : Nat}
  {hd hd' : Handler} {sink : Sink} {w : Worker}

/-! ### The fates -/

/-- Whoever stops the slot of a handler ends the parse that the handler has under way. -/
theorem supersedes_of_ordered (own : m.session.office.Owned h k) (ha : m.agenda = t :: rest)
    (ho : Ordered m.session t (.stop k)) : m.Supersedes h := by
  have mine {id : Nat} {hd : Handler} (hh : m.session.handlers[id]? = some hd) (hs : hd.slot = k) : id = h := by
    refine own.desks id ?_
    simp only [Session.office, List.getElem?_map, hh, Option.map_some, hs]
  cases ho with
  | request hh hc =>
    obtain rfl := mine hh rfl
    exact .request ⟨_, _, ha, hh, hc, rfl⟩
  | disable hn hh =>
    obtain rfl := mine hh rfl
    exact .disable ha hn
  | command hn hh hc =>
    obtain rfl := mine hh rfl
    exact .command ha hn hc
  | dispose hh =>
    obtain rfl := mine hh rfl
    exact .dispose ha
  | place hp => exact absurd hp (own.places _)

/-- A worker that is out of its slot to be discarded was discarded once where code of the host can see the session. -/
theorem drops_of_discarded (run : Machine.Course past m) (alive : ¬ m.Crashed) (seen : m.Visible)
    (hd : Discarded i m.session.office m.agenda) : m.drops i = 1 := by
  have htotal := run.single.resolve_left alive i
  have hprompt : AccountingAux.Prompt m.agenda := by
    refine (run.invariant (P := fun _ _ => True) (I := fun _ agenda => AccountingAux.Prompt agenda) (fun _ _ => trivial)
      (fun _ => by simp [AccountingAux.Prompt]) (fun _ _ => by simp [AccountingAux.Prompt]) ?_).resolve_left alive
    exact fun _ hp turn => AccountingAux.prompt_turn hp turn
  have hdropped : i ∈ m.session.office.dropped := by
    rcases hd with hd | ⟨w, hx, -⟩
    · exact hd
    · cases ha : m.agenda with
      | nil =>
        rw [ha] at hx
        cases hx
      | cons t rest =>
        rw [ha] at hx hprompt
        rcases List.mem_cons.1 hx with rfl | hx
        · exact absurd rfl ((AccountingAux.head_of_visible ha seen).2.2.2.2 w)
        · exact absurd rfl (hprompt _ hx w)
  have hone : 1 ≤ m.session.office.dropped.count i := List.one_le_count_iff.2 hdropped
  rw [AccountingAux.drops_eq]
  simp only [Office.total] at htotal
  omega

/-- A worker that came to its end has met its fate, wherever code of the host can see the session. -/
theorem fate_of_ended (run : Machine.Course (later ++ p :: earlier) m) (quiet : ∀ q ∈ later ++ p :: earlier, ¬ Reenters q.agenda)
    (held : p.session.handlers[h]? = some hd) (requests : p.Requests h i) (alive : ¬ m.Crashed) (seen : m.Visible)
    (he : Ended hd.slot i later) : Fate h hd.slot i later m := by
  cases he with
  | @raised after before q t rest split ha silent raises spent last =>
    subst split
    rw [List.append_assoc, List.cons_append] at run
    exact .completed after rfl silent raises last (over_of_last run ha spent)
  | @stopped after before q rest split stop holds silent =>
    subst split
    rw [List.append_assoc, List.cons_append] at run quiet
    have ceased := over_of_stop run (fun x hx => quiet x (List.mem_append_right _ (.tail _ hx))) stop holds
    have discarded : Discarded i m.session.office m.agenda := by
      refine (run.discarded stop ?_).resolve_left alive
      obtain ⟨w, hw, rfl⟩ := holds
      rcases run.before.advance stop with hc | ⟨new, hn, turn, -, -⟩
      · exact absurd hc (run.not_crashed_next stop alive)
      · rw [hn]
        exact discarded_stop hw turn
    obtain ⟨y, past', t, others, hpast, hy, hordered⟩ := run.before.ordered stop rfl
    cases before with
    | nil =>
      -- a handler has its slot stopped before the worker that it queues is put in
      exact absurd holds (not_holds_next run.before requests)
    | cons y' before =>
      obtain ⟨rfl, rfl⟩ := List.cons.inj hpast
      have run' : Machine.Course (before ++ p :: earlier) y' := run.before.previous
      obtain ⟨hd', held', later⟩ := handler_later run' held
      have own := (owned run' held').resolve_left (Machine.not_crashed_of_agenda hy)
      rw [later.slot] at own
      exact .superseded after rfl (supersedes_of_ordered own hy hordered) stop holds silent ceased
        (drops_of_discarded run alive seen discarded)

/-- A worker that was queued waits for its fate or has met it, wherever code of the host can see the session. -/
theorem fate_of_request (run : Machine.Course (later ++ p :: earlier) m)
    (quiet : ∀ q ∈ later ++ p :: earlier, ¬ Reenters q.agenda) (held : p.session.handlers[h]? = some hd)
    (closed : hd.grammar.Closed) (requests : p.Requests h i) (alive : ¬ m.Crashed) (seen : m.Visible) :
    Fate h hd.slot i later m := by
  cases (fares run quiet held closed requests).resolve_left alive with
  | hosted held' same live hosts _ _ silent =>
    exact .held ⟨_, worker_of_visible (calmly run quiet alive closed held' same live) hosts seen, rfl⟩ silent
  | leaving stop => exact absurd rfl ((AccountingAux.head_of_visible stop seen).1 hd.slot)
  | ended he => exact fate_of_ended run quiet held requests alive seen he

/-! ### Requests that another one follows -/

/-- What comes next after a machine at which a task is done. -/
theorem next_split (run : Machine.Course (later ++ p :: earlier) m) (ha : p.agenda = t :: rest) :
    m = { p with agenda := rest }.run t ∧ later = [] ∨ ∃ later', later = later' ++ [{ p with agenda := rest }.run t] := by
  induction later generalizing m with
  | nil =>
    cases run with
    | ask c run idle =>
      rw [idle.1] at ha
      cases ha
    | step run ha' =>
      rw [ha] at ha'
      obtain ⟨rfl, rfl⟩ := List.cons.inj ha'
      exact .inl ⟨rfl, rfl⟩
  | cons x later ih =>
    rcases ih run.previous with ⟨rfl, rfl⟩ | ⟨later', rfl⟩
    · exact .inr ⟨[], rfl⟩
    · exact .inr ⟨x :: later', rfl⟩

/-- A parse that has begun no step when the next one is asked for never does. -/
theorem over_of_request (run : Machine.Course (later ++ p :: earlier) m)
    (quiet : ∀ x ∈ later ++ p :: earlier, ¬ Reenters x.agenda) (held : p.session.handlers[h]? = some hd)
    (requests : p.Requests h i) (holds : p.Holds hd.slot j) : ∀ x ∈ m :: later, ¬ x.Employs j := by
  obtain ⟨hd₀, rest, ha, held₀, safe, -⟩ := requests
  obtain rfl := Option.some.inj (held.symm.trans held₀)
  have hnext := run_request rest held safe
  rcases next_split run ha with ⟨rfl, rfl⟩ | ⟨later, rfl⟩
  · intro x hx
    obtain rfl := List.mem_singleton.1 hx
    rw [hnext]
    exact not_employs_of_head rfl nofun nofun
  · rw [hnext, List.append_assoc] at run
    rw [hnext, List.append_assoc] at quiet
    have ceased := over_of_stop run (fun x hx => quiet x (List.mem_append_right _ (.tail _ hx))) rfl holds
    intro x hx
    rw [hnext, ← List.cons_append, List.mem_append, List.mem_singleton] at hx
    rcases hx with hx | rfl
    · exact ceased x hx
    · exact not_employs_of_head rfl nofun nofun

/-- Until a worker is made it is employed nowhere. -/
theorem not_employs_before (run : Machine.Course (later ++ p :: earlier) m) (requests : p.Requests h i) (hx : x ∈ p :: earlier) :
    ¬ x.Employs i := by
  obtain ⟨hd, rest, ha, -, -, rfl⟩ := requests
  rcases List.mem_cons.1 hx with rfl | hx
  · exact not_employs_of_head ha nofun nofun
  · intro employs
    obtain ⟨between, before, rfl⟩ := List.append_of_mem hx
    have hle := (hired_le run.before).resolve_left (Machine.not_crashed_of_agenda ha)
    exact not_employs_of_unhired (run.before.before.unique.resolve_left employs.not_crashed) hle employs

/-- From the next request on a worker takes no step. -/
theorem not_employs_since (run : Machine.Course (later ++ p :: (between ++ q :: earlier)) m)
    (quiet : ∀ x ∈ later ++ p :: (between ++ q :: earlier), ¬ Reenters x.agenda) (held : q.session.handlers[h]? = some hd)
    (closed : hd.grammar.Closed) (first : q.Requests h j) (second : p.Requests h i) : ∀ x ∈ m :: later, ¬ x.Employs j := by
  have hquiet : ∀ x ∈ between ++ q :: earlier, ¬ Reenters x.agenda :=
    fun x hx => quiet x (List.mem_append_right _ (.tail _ hx))
  obtain ⟨hd₁, rest, ha, held₁, -⟩ := id second
  have hnot := Machine.not_crashed_of_agenda ha
  cases (fares run.before hquiet held closed first).resolve_left hnot with
  | hosted held₀ same live hosts =>
    obtain rfl := Option.some.inj (held₀.symm.trans held₁)
    refine over_of_request run quiet held₀ second ?_
    rw [same.slot]
    refine ⟨_, worker_of_hosts (calmly run.before hquiet hnot closed held₀ same live) hosts ?_, rfl⟩
    intro t ht
    obtain rfl : .requestParse h = t := by simpa [ha] using ht
    exact ⟨nofun, rfl, rfl, rfl⟩
  | leaving stop =>
    rw [ha] at stop
    cases stop
  | ended he =>
    have run' : Machine.Course ((later ++ [p]) ++ (between ++ q :: earlier)) m := by simpa using run
    exact fun x hx => over_of_ended run' hquiet he x (List.mem_append_left [p] hx)

/-- A worker that has begun no step before the next request never begins one. -/
theorem not_employs_of_replaced (run : Machine.Course (later ++ p :: (between ++ q :: earlier)) m)
    (quiet : ∀ x ∈ later ++ p :: (between ++ q :: earlier), ¬ Reenters x.agenda) (held : q.session.handlers[h]? = some hd)
    (closed : hd.grammar.Closed) (first : q.Requests h j) (second : p.Requests h i)
    (idle : ∀ x ∈ between, ∀ w, ¬ x.Begins hd.slot w) :
    ∀ x ∈ m :: (later ++ p :: (between ++ q :: earlier)), ¬ x.Employs j := by
  have hquiet : ∀ x ∈ between ++ q :: earlier, ¬ Reenters x.agenda :=
    fun x hx => quiet x (List.mem_append_right _ (.tail _ hx))
  obtain ⟨hd₁, rest, ha, -⟩ := id second
  have meanwhile : ∀ x ∈ p :: between, ¬ x.Employs j := by
    intro x hx employs
    obtain ⟨job, begins, -⟩ := begins_of_employed run.before hquiet held closed first hx employs
    rcases List.mem_cons.1 hx with rfl | hx
    · exact not_employs_of_head ha nofun nofun employs
    · exact idle x hx _ begins
  intro x hx
  rw [← List.cons_append, List.mem_append] at hx
  rcases hx with hx | hx
  · exact not_employs_since run quiet held closed first second x hx
  · rw [← List.cons_append, List.mem_append] at hx
    rcases hx with hx | hx
    · exact meanwhile x hx
    · exact not_employs_before run.before first hx

/-! ### Requests -/

theorem asks_of_ordered (ha : m.agenda = t :: rest) (ho : Ordered m.session t (.requestParse h)) : m.Asks h := by
  cases ho with
  | reparse hn => exact .reparse ha hn
  | enable hn => exact .enable ha hn
  | told _ _ hp =>
    refine .told ha ?_
    rintro rfl
    cases hp

/-- Whatever is put into the slot of a handler was requested. -/
theorem requested {delay : Nat} (run : Machine.Course past m) (held : m.session.handlers[h]? = some hd)
    (hx : .install hd.slot w delay ∈ m.agenda) : ∃ p ∈ past, p.Requests h w.id := by
  induction run generalizing hd with
  | new options => cases hx
  | ask c run idle ih => simp [Machine.ask] at hx
  | @step past m t rest run ha ih =>
    have hnot := Machine.not_crashed_of_agenda ha
    have known := run.known.resolve_left hnot
    rw [ha] at known
    rcases run.page ha with hc | ⟨new, hn, turn, page⟩
    · rw [hc.1] at hx
      cases hx
    rw [hn] at hx
    rcases AttendanceAux.handler_page page held with ⟨hd₀, held₀, later⟩ | ⟨-, hslot, -⟩
    · rw [later.slot] at hx
      rcases List.mem_append.1 hx with hx | hx
      · have own := (owned run held₀).resolve_left hnot
        rcases LiveHandlerAux.install_turn turn hx with ⟨name, hp⟩ | ⟨id, rfl, hi⟩
        · exact absurd hp (own.places name)
        · obtain rfl := own.desks id hi
          refine ⟨m, .head _, ?_⟩
          cases safe : m.session.isCancelled hd₀.token with
          | true =>
            -- a handler that is cancelled queues nothing
            have hnone : rest = new ++ rest := by simpa [Machine.run, Machine.requestParse, held₀, safe] using hn
            obtain rfl := List.append_cancel_right (show [] ++ rest = new ++ rest from hnone)
            cases hx
          | false =>
            rw [run_request rest held₀ safe] at hn
            obtain rfl := List.append_cancel_right (show [_, _] ++ rest = new ++ rest from hn)
            obtain ⟨rfl, -⟩ := by simpa using hx
            exact ⟨hd₀, rest, ha, held₀, safe, rfl⟩
      · obtain ⟨p, hp, hreq⟩ := ih held₀ (ha ▸ .tail _ hx)
        exact ⟨p, .tail _ hp, hreq⟩
    · exact absurd (hslot ▸ rfl) (LiveHandlerAux.slot_fresh known turn hx)

end FateAux

open FateAux

/-- What is so of the parse that a handler queued at `p` as the worker `i`, when a course has come from there to `m`. -/
structure Queued (h : Nat) (hd : Handler) (i : Nat) (later : List Machine) (p : Machine) (earlier : List Machine) (m : Machine) :
    Prop where
  /-- The handler was asked for it just before. -/
  asked : ∃ y before, earlier = y :: before ∧ y.Asks h
  /-- Its worker takes steps only out of the handler's slot, and parses the text as it was when it was queued. -/
  parses : ∀ x ∈ m :: later, x.Employs i → ∃ job, x.Begins hd.slot ⟨i, .parsing hd.document job hd.token⟩ ∧
    job.sink.snapshot = (p.session.document hd.document).buffer.snapshot
  /-- Wherever code of the host can see the session, it waits in the slot or has met its fate. -/
  meets : ¬ m.Crashed → m.Visible → Fate h hd.slot i later m

namespace Machine

namespace Course

variable {past later earlier : List Machine} {p m : Machine} {h i : Nat} {hd : Handler}

/-- What a handler queued is so from then on. -/
theorem queued (run : Course (later ++ p :: earlier) m) (quiet : ∀ q ∈ later ++ p :: earlier, ¬ Reenters q.agenda)
    (held : p.session.handlers[h]? = some hd) (closed : hd.grammar.Closed) (requests : p.Requests h i) :
    Queued h hd i later p earlier m where
  asked := by
    obtain ⟨hd₀, rest, ha, -⟩ := requests
    obtain ⟨y, before, t, others, hpast, hy, ordered⟩ := run.before.ordered ha rfl
    exact ⟨y, before, hpast, asks_of_ordered hy ordered⟩
  parses := by
    intro x hx employs
    obtain ⟨job, begins, hs⟩ := begins_of_employed run quiet held closed requests hx employs
    exact ⟨job, begins, congrArg Sink.snapshot hs⟩
  meets := fate_of_request run quiet held closed requests

/-- Every parse that a handler queues is superseded or completed exactly once. Whatever is done to the documents and the handlers
and however long work runs, as long as no code that the host lent lets work run: a handler queues a parse only when it was asked
for one, which the news that annotations are renewed does not do, and nothing else is put into its slot; the parse is of the text
at that moment, waits in the slot, and meets one `Fate`. Of the parses that are queued with no step of the slot between them only
the last one takes any step. -/
theorem fate (run : Course past m) (quiet : ∀ q ∈ past, ¬ Reenters q.agenda) (held : m.session.handlers[h]? = some hd)
    {spec : GrammarSpec} {registry : TerminalRegistry} (built : spec.build registry = .ok hd.grammar) :
    (∀ (later earlier : List Machine) (p : Machine) (i : Nat), past = later ++ p :: earlier → p.Requests h i →
      Queued h hd i later p earlier m) ∧
    (∀ (later between earlier : List Machine) (p q : Machine) (i j : Nat), past = later ++ p :: (between ++ q :: earlier) →
      p.Requests h i → q.Requests h j → (∀ x ∈ between, ∀ w, ¬ x.Begins hd.slot w) → ∀ x ∈ m :: past, ¬ x.Employs j) ∧
    ∀ (w : Worker) (delay : Nat), .install hd.slot w delay ∈ m.agenda → ∃ p ∈ past, p.Requests h w.id := by
  have closed := closed_of_build built
  refine ⟨?_, ?_, fun w delay hx => requested run held hx⟩
  · rintro later earlier p i rfl requests
    obtain ⟨hd₀, rest, ha, held₀, -⟩ := id requests
    obtain ⟨hd', held', same⟩ := handler_later run held₀
    obtain rfl := Option.some.inj (held.symm.trans held')
    rw [same.grammar] at closed
    have hq := run.queued quiet held₀ closed requests
    refine ⟨hq.asked, ?_, ?_⟩
    · rw [same.slot, same.document, same.token]
      exact hq.parses
    · rw [same.slot]
      exact hq.meets
  · rintro later between earlier p q i j rfl second first idle
    obtain ⟨hd₀, rest, ha, held₀, -⟩ := id first
    have run' : Course ((later ++ p :: between) ++ q :: earlier) m := by simpa using run
    obtain ⟨hd', held', same⟩ := handler_later run' held₀
    obtain rfl := Option.some.inj (held.symm.trans held')
    rw [same.grammar] at closed
    rw [same.slot] at idle
    exact not_employs_of_replaced run quiet held₀ closed first second idle

end Course

end Machine

namespace FateAux

/-- A document whose handler has queued the parse of a text that was set. -/
def opened : List Machine × Machine :=
  Machine.talk 64
    [.document "d" "[" none, .handler "h" ⟨true, some "d", [.built (.ok brackets)], .standard⟩,
     .onDocument "d" (.edit (.setText "[["))]
    ([], ⟨.new .standard, [], none⟩)

/-- The handler is asked for another one. -/
def asking : Machine := Machine.ask opened.2.session (.onHandler "h" .reparse)

/-- All work is let run. -/
def driving : Machine := Machine.ask (asking.settle 64).session (.drive .untilIdle 9)

theorem handlers_driven : (driving.settle 64).session.handlers.map (fun hd => (hd.grammar, hd.slot)) = [(brackets, 0)] := by
  decide +kernel

end FateAux

namespace Machine

namespace Course

/-- Of two parses that are queued one after the other the first one takes no step, and in the end both have met their fates. -/
theorem fate_replaced : ∃ (later between earlier : List Machine) (p q m : Machine),
    Course (later ++ p :: (between ++ q :: earlier)) m ∧ m.Idle ∧ p.Requests 0 1 ∧ q.Requests 0 0 ∧
      (∀ x ∈ m :: (later ++ p :: (between ++ q :: earlier)), ¬ x.Employs 0) ∧
      (m.session.scheduler.slot 0).worker = none ∧ Fate 0 0 0 (later ++ p :: between) m ∧ Fate 0 0 1 later m := by
  have opening : Course opened.1 opened.2 := (Course.new .standard).talk 64 _
  have run : Course (driving.passed 64 [] ++ asking.settle 64 :: (asking.passed 64 [] ++ opened.2 :: opened.1))
      (driving.settle 64) :=
    (opening.asked (.onHandler "h" .reparse) (by decide +kernel) 64).asked (.drive .untilIdle 9) (by decide +kernel) 64
  have quiet : ∀ x ∈ driving.passed 64 [] ++ asking.settle 64 :: (asking.passed 64 [] ++ opened.2 :: opened.1),
      ¬ Reenters x.agenda := by decide +kernel
  have idle : ∀ x ∈ asking.passed 64 [] ++ opened.2 :: opened.1, ∀ k w, ¬ x.Begins k w := by
    have unbegun : ∀ x ∈ asking.passed 64 [] ++ opened.2 :: opened.1, x.begun?.isNone = true := by decide +kernel
    intro x hx k w begins
    have hnone := unbegun x hx
    rw [show x.begun? = some (k, w) from begins] at hnone
    cases hnone
  have done : (driving.settle 64).Idle := by decide +kernel
  have empty : ((driving.settle 64).session.scheduler.slot 0).worker.isNone = true := by decide +kernel
  have handlers := handlers_driven
  obtain ⟨q, hq, first⟩ := List.any_eq_true.1 (show opened.1.any (·.queues 0 0) = true by decide +kernel)
  obtain ⟨p, hp, second⟩ := List.any_eq_true.1 (show (asking.passed 64 []).any (·.queues 0 1) = true by decide +kernel)
  -- from here on it does not matter which machines these are
  generalize driving.settle 64 = m at run done empty handlers
  generalize driving.passed 64 [] = driven at run quiet
  generalize asking.settle 64 = answered at run quiet
  generalize asking.passed 64 [] = asked at run quiet idle hp
  generalize opened.2 = o at run quiet idle
  generalize opened.1 = past at run quiet idle hq
  obtain ⟨before, earlier, rfl⟩ := List.append_of_mem hq
  obtain ⟨after, between, rfl⟩ := List.append_of_mem hp
  have seen := done.visible
  obtain ⟨hd, hone, hfields⟩ := List.map_eq_singleton_iff.1 handlers
  obtain ⟨hgrammar, hslot⟩ := Prod.mk.inj hfields
  have held : m.session.handlers[0]? = some hd := by rw [hone]; rfl
  have built : bracketSpec.build .standard = .ok hd.grammar := by
    rw [hgrammar]
    decide +kernel
  have hsplit : driven ++ answered :: ((after ++ p :: between) ++ o :: (before ++ q :: earlier)) =
      (driven ++ answered :: after) ++ p :: ((between ++ o :: before) ++ q :: earlier) := by simp
  rw [hsplit] at run quiet
  obtain ⟨queued, replaced, -⟩ := run.fate quiet held built
  have idle' : ∀ x ∈ between ++ o :: before, ∀ w, ¬ x.Begins hd.slot w := by
    simp only [List.forall_mem_append, List.forall_mem_cons] at idle ⊢
    exact ⟨fun x hx => idle.1.2.2 x hx _, idle.2.1 _, fun x hx => idle.2.2.1 x hx _⟩
  have first := requests_of_queues first
  have second := requests_of_queues second
  have fate₀ := (queued ((driven ++ answered :: after) ++ p :: (between ++ o :: before)) earlier q 0 (by simp) first).meets
    done.not_crashed seen
  have fate₁ := (queued _ _ p 1 rfl second).meets done.not_crashed seen
  rw [hslot] at fate₀ fate₁
  exact ⟨_, _, _, p, q, m, run, done, second, first, replaced _ _ _ p q 1 0 rfl second first idle',
    Option.isNone_iff_eq_none.1 empty, fate₀, fate₁⟩

end Course

end Machine

end LiveHighlight
