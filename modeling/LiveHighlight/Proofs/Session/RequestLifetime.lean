import LiveHighlight.Proofs.Session.Hosting

/-!
# The life of a request in its slot

The worker that a handler queues is hosted by the handler's slot, in silence, until the slot is stopped or the worker announces
that the annotations are renewed (`Fares`). What was queued fares so from then on (`FateAux.fares`), so its worker takes steps only
out of that slot, and none once it has come to its end (`Ended`).
-/

namespace LiveHighlight

namespace Machine

/-- Whether the first task has a handler queue a parse, as the worker with a number. -/
def Requests (m : Machine) (h i : Nat) : Prop :=
  ∃ hd rest, m.agenda = .requestParse h :: rest ∧ m.session.handlers[h]? = some hd ∧ m.session.isCancelled hd.token = false ∧
    m.session.nextWorker = i

/-- `Requests` as a test. -/
def queues (m : Machine) (h i : Nat) : Bool :=
  match m.agenda, m.session.handlers[h]? with
  | .requestParse h' :: _, some hd => decide (h' = h ∧ m.session.isCancelled hd.token = false ∧ m.session.nextWorker = i)
  | _, _ => false

theorem requests_of_queues {m : Machine} {h i : Nat} (hq : m.queues h i = true) : m.Requests h i := by
  unfold queues at hq
  split at hq
  · next ha hh =>
    obtain ⟨rfl, safe, hi⟩ := of_decide_eq_true hq
    exact ⟨_, _, ha, hh, safe, hi⟩
  · cases hq

end Machine

/-- How the worker `i` came to its end that was put into the slot `k`, among the machines of `later`. -/
inductive Ended (k i : Nat) (later : List Machine) : Prop where
  /-- The slot was stopped. -/
  | stopped (after : List Machine) {before : List Machine} {q : Machine} {rest : List Task} (split : later = after ++ q :: before)
      (stop : q.agenda = .stop k :: rest) (holds : q.Holds k i) (silent : ∀ x ∈ q :: before, ¬ x.Raises i)
  /-- It has announced that the annotations are renewed. -/
  | raised (after : List Machine) {before : List Machine} {q : Machine} {t : Task} {rest : List Task}
      (split : later = after ++ q :: before) (ha : q.agenda = t :: rest) (silent : ∀ x ∈ before, ¬ x.Raises i)
      (raises : q.Raises i) (spent : Spent i q.step.session.office q.step.agenda)
      (last : ∀ d, (q.step.session.document d).buffer = (q.session.document d).buffer)

theorem Ended.cons {k i : Nat} {later : List Machine} (he : Ended k i later) (m : Machine) : Ended k i (m :: later) := by
  cases he with
  | stopped after split stop holds silent => exact .stopped (m :: after) (congrArg (m :: ·) split) stop holds silent
  | raised after split ha silent raises spent last =>
    exact .raised (m :: after) (congrArg (m :: ·) split) ha silent raises spent last

/-- How the worker `i` fares that a handler queued to parse what `sink` writes, when a course has come to `m` after the machines
of `later`. -/
inductive Fares (h : Nat) (hd : Handler) (sink : Sink) (i : Nat) (later : List Machine) (m : Machine) : Prop where
  /-- The slot hosts it. -/
  | hosted {hd' : Handler} {job : ParseJob} (held : m.session.handlers[h]? = some hd') (same : hd.Later hd')
      (live : hd'.isDisposed = false) (hosts : Hosts hd.slot ⟨i, .parsing hd.document job hd.token⟩ m.session m.agenda)
      (hs : job.sink = sink) (hp : job.phase ≠ .done) (silent : ∀ x ∈ later, ¬ x.Raises i)
  /-- The handler is disposed of, and the slot is to be stopped. -/
  | leaving {rest : List Task} (stop : m.agenda = .stop hd.slot :: rest) (holds : m.Holds hd.slot i)
      (silent : ∀ x ∈ later, ¬ x.Raises i)
  | ended (he : Ended hd.slot i later)

namespace FateAux

open HostingAux

variable {later between earlier past : List Machine} {p q m x : Machine} {t : Task} {rest new : List Task} {h i j k : Nat}
  {hd hd' : Handler} {sink : Sink} {w : Worker}

/-! ### Machines at which no step begins -/

/-- Only where a round goes on or the host has a worker take a step is a worker employed. -/
theorem not_employs_of_head (ha : m.agenda = t :: rest) (hr : ∀ r, t ≠ .round r) (hc : ∀ c asker, t ≠ .call c asker) :
    ¬ m.Employs i := by
  rintro (⟨k, w, hb, -⟩ | ⟨name, asker, rest', w, ha', -⟩)
  · obtain ⟨r, due, rest', g, ha', -⟩ := Machine.begins_iff.1 hb
    exact hr r (List.cons.inj (ha.symm.trans ha')).1
  · exact hc _ _ (List.cons.inj (ha.symm.trans ha')).1

theorem employs_of_raises (hr : m.Raises i) : m.Employs i := by
  obtain ⟨k, w, -, hb, hid, -⟩ := hr
  exact .inl ⟨k, w, hb, hid⟩

theorem not_raises_of_idle (ha : m.agenda = []) : ¬ m.Raises i := by
  rintro ⟨k, w, d, hb, -⟩
  obtain ⟨r, due, rest, g, ha', -⟩ := Machine.begins_iff.1 hb
  rw [ha] at ha'
  cases ha'

/-- A worker that was not made yet is in no slot. -/
theorem not_holds_of_unhired (hs : AccountingAux.Single m.session.office m.agenda) (hi : m.session.nextWorker ≤ i) :
    ¬ m.Holds k i := by
  intro hh
  have htotal := hs i
  rw [if_neg (Nat.not_lt.2 (show m.session.office.hired ≤ i from hi))] at htotal
  have hheld : 1 ≤ m.session.office.scheduler.holders (Worker.is i) := AccountingAux.one_le_holders hh
  simp only [Office.total] at htotal
  omega

/-- A worker that was not made yet takes no step. -/
theorem not_employs_of_unhired (hs : AccountingAux.Single m.session.office m.agenda) (hi : m.session.nextWorker ≤ i) :
    ¬ m.Employs i := by
  intro he
  have htotal := hs i
  rw [if_neg (Nat.not_lt.2 (show m.session.office.hired ≤ i from hi))] at htotal
  have hone := FinalityAux.one_le_of_employs he
  simp only [Office.total] at htotal
  omega

/-! ### Courses -/

theorem hired_le (run : Machine.Course (later ++ p :: earlier) m) :
    m.Crashed ∨ p.session.nextWorker ≤ m.session.nextWorker := by
  refine run.along (I := fun q => q.Crashed ∨ p.session.nextWorker ≤ q.session.nextWorker) (.inr (Nat.le_refl _)) ?_ ?_
  · intro q c hq idle
    exact .inr (hq.resolve_left idle.not_crashed)
  · intro past q t rest run hq ha
    rcases run.turn ha with ⟨hc, -⟩ | ⟨new, -, turn, -⟩
    · exact .inl hc
    · exact .inr (Nat.le_trans (hq.resolve_left (Machine.not_crashed_of_agenda ha)) (AccountingAux.hired_turn turn).1)

/-- The slot of a handler stays its own. -/
theorem owned (run : Machine.Course past m) (held : m.session.handlers[h]? = some hd) :
    m.Crashed ∨ m.session.office.Owned h hd.slot := by
  induction run generalizing hd with
  | new options => simp [Session.new] at held
  | ask c run idle ih => exact .inr ((ih held).resolve_left idle.not_crashed)
  | @step past m t rest run ha ih =>
    have hnot := Machine.not_crashed_of_agenda ha
    have known := run.known.resolve_left hnot
    rcases run.page ha with hc | ⟨new, -, turn, page⟩
    · exact .inl hc
    rcases AttendanceAux.handler_page page held with ⟨hd₀, held₀, later⟩ | ⟨rfl, hslot, -, -, name, plan, asker, rfl⟩
    · rw [later.slot]
      have own := (ih held₀).resolve_left hnot
      exact .inr (LiveHandlerAux.owned_turn (known.refers _ (.inr (List.mem_of_getElem? own.own))) own turn)
    · have hlen : m.session.office.desks.length = m.session.handlers.length := List.length_map _
      rw [hslot, ← hlen]
      refine .inr (LiveHandlerAux.owned_new known turn ?_)
      rw [hlen]
      simp only [Session.office, List.getElem?_map, held, Option.map_some, hslot]

/-- A handler is never taken away. -/
theorem handler_later (run : Machine.Course (later ++ p :: earlier) m) (held : p.session.handlers[h]? = some hd) :
    ∃ hd', m.session.handlers[h]? = some hd' ∧ hd.Later hd' := by
  refine run.along (I := fun q => ∃ hd', q.session.handlers[h]? = some hd' ∧ hd.Later hd') ⟨hd, held, .refl hd⟩ ?_ ?_
  · exact fun c hq _ => hq
  · intro past q t rest _ ⟨hd₀, held₀, later⟩ _
    rcases Machine.run_page { q with agenda := rest } t with hc | ⟨new, -, page⟩
    · rw [hc]
      exact ⟨hd₀, held₀, later⟩
    · obtain ⟨hd', held', later'⟩ := AttendanceAux.later_page page held₀
      exact ⟨hd', held', later.trans later'⟩

/-- The station of a handler that is not disposed of is calm. -/
theorem calmly (run : Machine.Course past m) (quiet : ∀ q ∈ past, ¬ Reenters q.agenda) (alive : ¬ m.Crashed)
    (closed : hd.grammar.Closed) (held : m.session.handlers[h]? = some hd') (same : hd.Later hd')
    (live : hd'.isDisposed = false) : Calmly hd.slot m.session.office m.agenda := by
  obtain ⟨-, handlers⟩ := (run.fresh quiet).resolve_left alive
  rw [← same.slot]
  exact (handlers h hd' held live (same.grammar ▸ closed)).1.calmly

/-- What a stop of its slot takes out of it takes no step any more. -/
theorem over_of_stop (run : Machine.Course (later ++ p :: earlier) m) (quiet : ∀ q ∈ earlier, ¬ Reenters q.agenda)
    (stop : p.agenda = .stop k :: rest) (holds : p.Holds k i) : ∀ x ∈ m :: later, ¬ x.Employs i := by
  intro x hx
  obtain ⟨between, run', -⟩ := run.of_later hx
  exact run'.not_employs stop (FinalityAux.not_vacated run.before quiet) (.inl holds)

theorem over_of_last (run : Machine.Course (later ++ p :: earlier) m) (ha : p.agenda = t :: rest)
    (spent : Spent i p.step.session.office p.step.agenda) : ∀ x ∈ m :: later, ¬ x.Employs i := by
  intro x hx
  obtain ⟨between, run', -⟩ := run.of_later hx
  rw [Machine.step_eq ha] at spent
  exact run'.not_employs_of_last ha spent

/-- A worker that came to its end takes no step any more. -/
theorem over_of_ended (run : Machine.Course (later ++ (between ++ earlier)) m)
    (quiet : ∀ q ∈ between ++ earlier, ¬ Reenters q.agenda) (he : Ended k i between) : ∀ x ∈ m :: later, ¬ x.Employs i := by
  intro x hx
  cases he with
  | @stopped after before q rest split stop holds =>
    subst split
    rw [List.append_assoc, List.cons_append] at quiet
    rw [List.append_assoc, List.cons_append, ← List.append_assoc] at run
    refine over_of_stop run (fun y hy => quiet y (List.mem_append_right _ (.tail _ hy))) stop holds x ?_
    exact List.mem_append_left after hx
  | @raised after before q t rest split ha _ _ spent =>
    subst split
    rw [List.append_assoc, List.cons_append, ← List.append_assoc] at run
    exact over_of_last run ha spent x (List.mem_append_left after hx)

/-! ### How a worker fares -/

/-- What a handler does that queues a parse. -/
theorem run_request (rest : List Task) (held : p.session.handlers[h]? = some hd)
    (safe : p.session.isCancelled hd.token = false) : { p with agenda := rest }.run (.requestParse h) =
      ⟨{ p.session with nextWorker := p.session.nextWorker + 1 }, .stop hd.slot :: .install hd.slot ⟨p.session.nextWorker,
        .parsing hd.document (.start hd.grammar (p.session.document hd.document).buffer hd.options) hd.token⟩ 0 :: rest,
        p.reply⟩ := by
  simp [Machine.run, Machine.requestParse, held, safe, Session.parseWorker, Session.freshWorker, Machine.put, Machine.push]

/-- The slot of a handler that is disposed of is to be stopped, and holds the worker that it hosted. -/
theorem leaving_of_dispose {s s' : Session} (hc : Calmly k s.office (.dispose h :: rest))
    (hosts : Hosts k w s' ([.stop k, .cancel hd.token] ++ rest)) : (s'.scheduler.slot k).worker = some w := by
  cases hosts with
  | @coming delay hx =>
    have hmem : .install k w delay ∈ rest := by simpa using hx
    have hsteady := hc.kept.stage.steady_of_head nofun rfl rfl _ (.tail _ hmem)
    simp [Task.settles] at hsteady
  | seated hw => exact hw
  | stepped ha => cases ha

/-- A step of the worker leaves it hosted, or is the one in which it announces that the annotations are renewed. -/
theorem fares_begun {job : ParseJob} (run : Machine.Course past m) (quiet : ∀ q ∈ past, ¬ Reenters q.agenda)
    (closed : hd.grammar.Closed) (held : m.session.handlers[h]? = some hd') (same : hd.Later hd')
    (live : hd'.isDisposed = false) (hs : job.sink = sink) (hp : job.phase ≠ .done) (silent : ∀ x ∈ later, ¬ x.Raises i)
    (begins : m.Begins hd.slot ⟨i, .parsing hd.document job hd.token⟩) :
    m.step.Crashed ∨ Fares h hd sink i (m :: later) m.step := by
  obtain ⟨r, due, rest, g, ha, -, -⟩ := Machine.begins_iff.1 begins
  have begins' : m.Begins hd'.slot ⟨i, .parsing hd'.document job hd'.token⟩ := by
    rw [same.slot, same.document, same.token]
    exact begins
  rcases run.hosts_or_raises quiet held live (same.grammar ▸ closed) begins' hp with
    ⟨mute, job', hsink, hphase, hosts⟩ | ⟨hloud, spent, last⟩
  · rw [same.slot, same.document, same.token] at hosts
    have mute' : ¬ m.Raises i := by
      rintro ⟨k, w, d, -, -, hraise⟩
      exact mute d hraise
    rw [Machine.step_eq ha] at hosts ⊢
    rcases run.page ha with hc | ⟨new, -, -, page⟩
    · exact .inl hc
    obtain ⟨hd₁, held₁, later₁⟩ := AttendanceAux.later_page page held
    have live₁ : hd₁.isDisposed = false := by
      cases disposed : hd₁.isDisposed with
      | false => rfl
      | true => cases (RetirementAux.disposed_page page held held₁ live disposed).1
    exact .inr (.hosted held₁ (same.trans later₁) live₁ hosts (hsink.trans hs) hphase (List.forall_mem_cons.2 ⟨mute', silent⟩))
  · exact .inr (.ended (.raised [] rfl ha silent ⟨_, _, _, begins, rfl, hloud⟩ spent last))

/-- Next after the request, the worker is not in the slot yet. -/
theorem not_holds_next (run : Machine.Course (p :: earlier) m) (requests : p.Requests h i) : ¬ m.Holds k i := by
  obtain ⟨hd, rest, ha, held, safe, rfl⟩ := requests
  cases run with
  | ask c run idle =>
    rw [idle.1] at ha
    cases ha
  | step run ha' =>
    rw [ha] at ha'
    obtain ⟨rfl, rfl⟩ := List.cons.inj ha'
    rw [run_request rest held safe]
    intro hh
    exact not_holds_of_unhired (run.unique.resolve_left (Machine.not_crashed_of_agenda ha)) (Nat.le_refl _)
      (show p.Holds k p.session.nextWorker from hh)

/-- How a worker fares is up to the next task. -/
theorem fares_step (run : Machine.Course past m) (quiet : ∀ q ∈ past, ¬ Reenters q.agenda) (closed : hd.grammar.Closed)
    (ha : m.agenda = t :: rest) (hf : Fares h hd sink i later m) :
    ({ m with agenda := rest }.run t).Crashed ∨ Fares h hd sink i (m :: later) ({ m with agenda := rest }.run t) := by
  have hnot := Machine.not_crashed_of_agenda ha
  cases hf with
  | ended he => exact .inr (.ended (he.cons m))
  | leaving stop holds silent =>
    have mute : ¬ m.Raises i := fun hr => not_employs_of_head stop nofun nofun (employs_of_raises hr)
    exact .inr (.ended (.stopped [] rfl stop holds (List.forall_mem_cons.2 ⟨mute, silent⟩)))
  | @hosted hd₀ job held same live hosts hs hp silent =>
    by_cases begins : m.Begins hd.slot ⟨i, .parsing hd.document job hd.token⟩
    · rw [← Machine.step_eq ha]
      exact fares_begun run quiet closed held same live hs hp silent begins
    have mute : ¬ m.Raises i := by
      rintro ⟨k', w', d, hb, hid, -⟩
      obtain ⟨rfl, rfl⟩ := begins_of_hosts (run.single.resolve_left hnot) hosts hb hid
      exact begins hb
    have hsilent : ∀ x ∈ m :: later, ¬ x.Raises i := List.forall_mem_cons.2 ⟨mute, silent⟩
    have calmly := calmly run quiet hnot closed held same live
    rw [ha] at calmly hosts
    rcases run.page ha with hc | ⟨new, hn, turn, page⟩
    · exact .inl hc
    have idle : ∀ r due g, t = .round r → r.due = hd.slot :: due →
        (m.session.scheduler.claim hd.slot r.now).2 ≠ .step ⟨i, .parsing hd.document job hd.token⟩ g := by
      rintro r due g rfl hr hc
      exact begins (Machine.begins_iff.2 ⟨r, due, rest, g, ha, hr, hc⟩)
    rcases hosts_step calmly hosts turn ({ m with agenda := rest }.run_shift t) idle with hosts' | ⟨rfl, hw⟩
    · obtain ⟨hd₁, held₁, later₁⟩ := AttendanceAux.later_page page held
      cases disposed : hd₁.isDisposed with
      | false => exact .inr (.hosted held₁ (same.trans later₁) disposed (hn ▸ hosts') hs hp hsilent)
      | true =>
        obtain ⟨rfl, rfl⟩ := RetirementAux.disposed_page page held held₁ live disposed
        rw [same.slot] at hosts' hn
        exact .inr (.leaving hn ⟨_, leaving_of_dispose calmly hosts', rfl⟩ hsilent)
    · exact .inr (.ended (.stopped [] rfl ha ⟨_, hw, rfl⟩ hsilent))

/-- From the request on a worker fares well, or it has met its fate. -/
theorem fares (run : Machine.Course (later ++ p :: earlier) m) (quiet : ∀ q ∈ later ++ p :: earlier, ¬ Reenters q.agenda)
    (held : p.session.handlers[h]? = some hd) (closed : hd.grammar.Closed) (requests : p.Requests h i) :
    m.Crashed ∨ Fares h hd (.make (p.session.document hd.document).buffer.snapshot hd.options.errorColor) i later m := by
  induction later generalizing m with
  | nil =>
    obtain ⟨hd₀, rest, ha, held₀, safe, rfl⟩ := requests
    obtain rfl := Option.some.inj (held.symm.trans held₀)
    have live := run.before.live_of_request (fun q hq => quiet q (.tail _ hq)) held closed ha safe
    cases run with
    | ask c run idle =>
      rw [idle.1] at ha
      cases ha
    | step run ha' =>
      rw [ha] at ha'
      obtain ⟨rfl, rfl⟩ := List.cons.inj ha'
      rw [run_request rest held safe]
      exact .inr (.hosted held (.refl hd) live (.coming (.tail _ (.head _))) rfl nofun (by simp))
  | cons x later ih =>
    have quiet' : ∀ q ∈ later ++ p :: earlier, ¬ Reenters q.agenda := fun q hq => quiet q (.tail _ hq)
    cases run with
    | ask c run idle =>
      have mute : ¬ x.Raises i := not_raises_of_idle idle.1
      cases (ih run quiet').resolve_left idle.not_crashed with
      | ended he => exact .inr (.ended (he.cons x))
      | leaving stop =>
        rw [idle.1] at stop
        cases stop
      | hosted held same live hosts hs hp silent =>
        refine .inr (.hosted held same live ?_ hs hp (List.forall_mem_cons.2 ⟨mute, silent⟩))
        rw [idle.1] at hosts
        cases hosts with
        | coming hx => cases hx
        | seated hw => exact .seated hw
        | stepped ha => cases ha
    | step run ha =>
      exact fares_step run quiet' closed ha ((ih run quiet').resolve_left (Machine.not_crashed_of_agenda ha))

/-- A worker that is employed begins a step out of its slot. -/
theorem begins_of_employed (run : Machine.Course (later ++ p :: earlier) m)
    (quiet : ∀ q ∈ later ++ p :: earlier, ¬ Reenters q.agenda) (held : p.session.handlers[h]? = some hd)
    (closed : hd.grammar.Closed) (requests : p.Requests h i) (hx : x ∈ m :: later) (employs : x.Employs i) :
    ∃ job : ParseJob, x.Begins hd.slot ⟨i, .parsing hd.document job hd.token⟩ ∧
      job.sink = .make (p.session.document hd.document).buffer.snapshot hd.options.errorColor := by
  obtain ⟨between, run', hsub⟩ := run.of_later hx
  have quiet' : ∀ q ∈ between ++ p :: earlier, ¬ Reenters q.agenda := by
    intro q hq
    refine quiet q ?_
    rcases List.mem_append.1 hq with hq | hq
    · exact List.mem_append_left _ (hsub hq)
    · exact List.mem_append_right _ hq
  cases (fares run' quiet' held closed requests).resolve_left employs.not_crashed with
  | hosted _ _ _ hosts hs => exact ⟨_, begins_of_employs (run'.single.resolve_left employs.not_crashed) hosts employs, hs⟩
  | leaving stop => exact absurd employs (not_employs_of_head stop nofun nofun)
  | ended he =>
    have ceased := over_of_ended (show Machine.Course ([] ++ (between ++ p :: earlier)) x from run') quiet' he
    exact absurd employs (ceased x (.head _))

end FateAux

end LiveHighlight
