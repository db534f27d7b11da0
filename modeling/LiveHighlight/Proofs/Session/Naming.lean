import LiveHighlight.Proofs.Session.Disposal
import LiveHighlight.Proofs.Session.Starting

/-!
# Places that the host still has

A slot belongs to a place or to a handler, which the host knows by a name (`Session.Place`). Who loses its name is stopped or
disposed of before anything else is done (`Naming`). So on a calm course a slot in use, where the host can ask something, is that
of a place that the host still has (`Course.place_of_used`).
-/

namespace LiveHighlight

/-- Whether a slot is that of a place or of a handler that the host still has. -/
def Session.Place (s : Session) (k : Nat) : Prop :=
  (∃ name, s.names.places.get? name = some k) ∨
    ∃ name i hd, s.names.handlers.get? name = some i ∧ s.handlers[i]? = some hd ∧ hd.slot = k

/-- The names of places and of handlers, and the number of handlers. -/
def Session.named (s : Session) : Directory Nat × Directory Nat × Nat := (s.names.places, s.names.handlers, s.handlers.length)

/-- What a task does to the names of places and of handlers, and what it leaves to be done with those that lose theirs. -/
inductive Naming (s : Session) : Task → Directory Nat × Directory Nat × Nat → List Task → Prop where
  | same {t : Task} {new : List Task} : Naming s t s.named new
  /-- A place is opened, perhaps under the name of another one. -/
  | openPlace {name : String} {asker : Asker} {new : List Task}
      (hn : ∀ k, s.names.places.get? name = some k → .stop k ∈ new) :
      Naming s (.call (.place name) asker) (s.names.places.insert name s.scheduler.slots.length, s.names.handlers, s.handlers.length) new
  /-- A place is given up. -/
  | dropPlace {name : String} {asker : Asker} {new : List Task}
      (hn : ∀ k, s.names.places.get? name = some k → .stop k ∈ new) :
      Naming s (.call (.dropPlace name) asker) (s.names.places.erase name, s.names.handlers, s.handlers.length) new
  /-- A handler is attached, perhaps under the name of another one. -/
  | attach {name : String} {plan : HandlerPlan String} {asker : Asker} {new : List Task}
      (hn : ∀ i, s.names.handlers.get? name = some i → .dispose i ∈ new) :
      Naming s (.call (.handler name plan) asker)
        (s.names.places, s.names.handlers.insert name s.handlers.length, s.handlers.length + 1) new
  /-- A handler is given up. -/
  | dropHandler {name : String} {asker : Asker} {new : List Task}
      (hn : ∀ i, s.names.handlers.get? name = some i → .dispose i ∈ new) :
      Naming s (.call (.dropHandler name) asker) (s.names.places, s.names.handlers.erase name, s.handlers.length) new

namespace NamingAux

variable {m : Machine}

/-! ### What tasks do to names -/

theorem named_answer (m : Machine) (asker : Asker) (r : Reply) : (m.answer asker r).session.named = m.session.named := by
  cases asker <;> rfl

theorem named_onSlot {go : Machine} {k : Nat} (h : go.session.named = m.session.named) :
    (m.onSlot k go).session.named = m.session.named := by
  unfold Machine.onSlot
  split
  · rfl
  · exact h

theorem named_find {α : Type} {asker : Asker} {found : Option α} {what : Missing} {go : α → Machine}
    (h : ∀ a, found = some a → (go a).session.named = m.session.named) :
    (m.find asker found what go).session.named = m.session.named := by
  unfold Machine.find
  split
  · exact named_answer _ _ _
  · next a => exact h a rfl

theorem named_withGrammar {α : Type} {asker : Asker} {made : Except GrammarError α} {go : α → Machine}
    (h : ∀ a, made = .ok a → (go a).session.named = m.session.named) :
    (m.withGrammar asker made go).session.named = m.session.named := by
  unfold Machine.withGrammar
  split
  · exact named_answer _ _ _
  · next a => exact h a rfl

theorem named_work (m : Machine) (w : Worker) (next : Worker → Outcome → Task) :
    (m.work w next).session.named = m.session.named := by
  unfold Machine.work
  split <;> rfl

theorem named_letGo (m : Machine) (name : String) : (m.letGo name).session.named = m.session.named := by
  unfold Machine.letGo
  split <;> rfl

theorem named_updateHandler (s : Session) (id : Nat) (f : Handler → Handler) : (s.updateHandler id f).named = s.named := by
  simp [Session.updateHandler, Session.named]

theorem named_execute (m : Machine) (asker : Asker) (slot command : Nat) :
    (m.execute asker slot command).session.named = m.session.named := by
  unfold Machine.execute
  split
  · exact named_answer _ _ _
  · exact named_onSlot (named_answer _ _ _)
  · exact named_onSlot (named_answer _ _ _)
  · rfl

theorem named_onDocument (m : Machine) (asker : Asker) (id : Nat) (call : DocumentCall Call) :
    (m.onDocument asker id call).session.named = m.session.named := by
  cases call with
  | edit e =>
    simp only [Machine.onDocument, Machine.edit]
    split
    · exact named_answer _ _ _
    · rfl
  | annotate | line =>
    simp only [Machine.onDocument]
    split <;> exact named_answer _ _ _
  | isSame => exact named_find fun _ _ => named_answer _ _ _
  | observe name reaction => exact (named_answer _ _ _).trans (named_letGo m name)
  | openWorker worker g options token =>
    refine named_withGrammar fun g _ => (named_answer _ _ _).trans ?_
    unfold Machine.openWorker
    cases token.bind m.session.names.tokens.get? <;> rfl
  | raise | complain => rfl
  | _ => exact named_answer _ _ _

theorem named_onPlace (m : Machine) (asker : Asker) (slot : Nat) (call : PlaceCall Call) :
    (m.onPlace asker slot call).session.named = m.session.named := by
  cases call with
  | queue => rfl
  | queueParse => exact named_find fun _ _ => rfl
  | start | pause | status => exact named_onSlot (named_answer _ _ _)
  | stop => rfl
  | execute command => exact named_execute m asker slot command

theorem named_onHandler (m : Machine) (asker : Asker) (id : Nat) (h : Handler) (call : HandlerCall) :
    (m.onHandler asker id h call).session.named = m.session.named := by
  cases call with
  | reparse => rfl
  | enable on =>
    simp only [Machine.onHandler]
    split
    · exact named_answer _ _ _
    · exact named_updateHandler _ _ _
  | dispose => rfl
  | execute command => exact named_execute m asker h.slot command

theorem named_onSink (m : Machine) (asker : Asker) (id : Nat) (sink : Sink) (call : SinkCall) :
    (m.onSink asker id sink call).session.named = m.session.named := by
  have write (event : Event) : (m.write asker id sink event).session.named = m.session.named := by
    unfold Machine.write
    split <;> exact named_answer _ _ _
  cases call with
  | matched | unmatched => exact named_withGrammar fun _ _ => write _
  | aborted => rfl

theorem named_notify (m : Machine) (event : BufferEvent) (w : Watcher) : (m.notify event w).session.named = m.session.named := by
  unfold Machine.notify
  split
  · split
    · rfl
    · dsimp only
      split <;> rfl
  · split
    · rfl
    · split <;> rfl

theorem named_round (m : Machine) (r : Round) : (m.round r).session.named = m.session.named := by
  unfold Machine.round
  split
  · unfold Machine.endRound
    dsimp only
    split
    · rfl
    · exact named_answer _ _ _
  · dsimp only
    split
    · exact named_work _ _ _
    · rfl

theorem named_close (m : Machine) (r : Round) (slot : Nat) (c : Conclusion Worker) :
    (m.close r slot c).session.named = m.session.named := by
  obtain ⟨m', hs, hclose⟩ := m.close_cases r slot c
  have hm : m'.session.named = m.session.named := by cases hs <;> rfl
  rcases hclose with ⟨reason, -, he⟩ | ⟨-, he⟩
  · rw [he, named_answer, hm]
  · rw [he]
    exact hm

theorem naming_same {s : Session} {t : Task} {n : Directory Nat × Directory Nat × Nat} {new : List Task} (h : n = s.named) :
    Naming s t n new := by
  subst h
  exact .same

theorem naming_makeHandler (m : Machine) (asker : Asker) (name : String) (plan : HandlerPlan String) (p : HandlerPlan Nat)
    {new : List Task} (hn : (m.makeHandler asker name p).agenda = new ++ m.agenda) :
    Naming m.session (.call (.handler name plan) asker) (m.makeHandler asker name p).session.named new := by
  unfold Machine.makeHandler at *
  split at hn
  · exact naming_same (named_answer _ _ _)
  · exact naming_same (named_answer _ _ _)
  · next document g _ =>
    obtain rfl := List.append_cancel_right hn
    have hs : (m.attach asker name document g p.options).session.named =
        (m.session.names.places, m.session.names.handlers.insert name m.session.handlers.length, m.session.handlers.length + 1) := by
      simp [Machine.attach, Machine.push, Machine.rename, Machine.put, Session.named, Session.subscribe, Session.freshToken,
        Session.updateDocument]
    rw [hs]
    refine .attach ?_
    intro i hi
    simp [hi]

theorem naming_perform (m : Machine) (asker : Asker) (c : Call) {new : List Task}
    (hn : (m.perform asker c).agenda = new ++ m.agenda) :
    Naming m.session (.call c asker) (m.perform asker c).session.named new := by
  cases c with
  | document | options | advance | setClock => exact naming_same (named_answer _ _ _)
  | onDocument doc call => exact naming_same (named_find fun id _ => named_onDocument m asker id call)
  | readSnapshot | unobserve => exact naming_same (named_find fun _ _ => named_answer _ _ _)
  | release name => exact naming_same ((named_answer _ _ _).trans (named_letGo m name))
  | drive => exact .same
  | place name =>
    obtain rfl := List.append_cancel_right hn
    refine .openPlace ?_
    intro k hk
    simp [hk]
  | dropPlace name =>
    simp only [Machine.perform, Machine.dropPlace] at *
    split at hn
    · exact naming_same (named_answer _ _ _)
    · next slot hs =>
      obtain rfl := (List.append_left_inj m.agenda).1 hn
      refine .dropPlace ?_
      intro k hk
      rw [hs] at hk
      simp [Option.some.inj hk]
  | onPlace name call => exact naming_same (named_find fun slot _ => named_onPlace m asker slot call)
  | register => exact naming_same (named_withGrammar fun _ _ => named_withGrammar fun _ _ => named_answer _ _ _)
  | registerDefinition => exact naming_same (named_withGrammar fun _ _ => named_answer _ _ _)
  | handler name plan =>
    simp only [Machine.perform] at *
    split at hn
    · exact naming_makeHandler m asker name plan _ hn
    · simp only [Machine.find] at *
      split at hn
      · exact naming_same (named_answer _ _ _)
      · exact naming_makeHandler m asker name plan _ hn
  | dropHandler name =>
    simp only [Machine.perform, Machine.dropHandler] at *
    split at hn
    · exact naming_same (named_answer _ _ _)
    · next id hs =>
      obtain rfl := (List.append_left_inj m.agenda).1 hn
      refine .dropHandler ?_
      intro i hi
      rw [hs] at hi
      simp [Option.some.inj hi]
  | onHandler name call => exact naming_same (named_find fun id _ => named_find fun h _ => named_onHandler m asker id h call)
  | token name parent =>
    simp only [Machine.perform]
    split
    · exact naming_same (named_answer _ _ _)
    · exact naming_same (named_find fun _ _ => named_answer _ _ _)
  | cancel => exact naming_same (named_find fun _ _ => named_answer _ _ _)
  | stepWorker => exact naming_same (named_find fun _ _ => named_work _ _ _)
  | onSink name call => exact naming_same (named_find fun found _ => named_onSink m asker found.1 found.2 call)

end NamingAux

open NamingAux

/-- Every task does one of these things to the names. -/
theorem Machine.run_naming (m : Machine) (t : Task) {new : List Task} (hn : (m.run t).agenda = new ++ m.agenda) :
    Naming m.session t (m.run t).session.named new := by
  cases t with
  | call c asker => exact naming_perform m asker c hn
  | answer asker reply => exact naming_same (named_answer m asker reply)
  | script calls => cases calls <;> exact .same
  | deliver event told rest => cases rest <;> exact .same
  | notify watcher event => exact naming_same (named_notify m event watcher)
  | complain document source message =>
    simp only [Machine.run, Machine.complain]
    split <;> exact .same
  | requestParse handler =>
    simp only [Machine.run, Machine.requestParse]
    split
    · exact .same
    · split <;> exact .same
  | dispose handler =>
    simp only [Machine.run, Machine.dispose]
    split
    · exact .same
    · split
      · exact .same
      · exact naming_same (named_updateHandler _ _ _)
  | stop slot => exact naming_same (named_onSlot rfl)
  | install slot w delay =>
    refine naming_same (named_onSlot ?_)
    split <;> rfl
  | beginRound d =>
    simp only [Machine.run, Machine.beginRound]
    split
    · exact naming_same (named_answer _ _ _)
    · split <;> exact .same
  | round r => exact naming_same (named_round m r)
  | close r slot c => exact naming_same (named_close m r slot c)
  | putBack asker name w outcome => exact naming_same (named_answer _ _ _)
  | _ => exact .same

/-! ## Slots in use -/

/-- Whoever is not known to the host any more is about to be stopped or disposed of: slots in use belong to somebody, workers are
put in for somebody, and handlers that are not disposed of have a name. -/
structure Attributed (s : Session) (agenda : List Task) : Prop where
  used : ∀ k, (s.scheduler.slot k).phase ≠ .free → s.office.Refers k ∨ .stop k ∈ agenda
  coming : ∀ k w delay, .install k w delay ∈ agenda → s.office.Refers k
  held : ∀ i hd, s.handlers[i]? = some hd → hd.isDisposed = false →
    (∃ name, s.names.handlers.get? name = some i) ∨ .dispose i ∈ agenda

namespace NamingAux

open StartingAux

variable {s s' : Session} {t : Task} {rest new : List Task} {k : Nat}

/-- The slots of handlers stay the slots of handlers. -/
theorem desks_turn {o o' : Office} (turn : Turn o t o' new) (h : k ∈ o.desks) : k ∈ o'.desks := by
  cases turn with
  | attach => exact List.mem_append_left _ h
  | _ => exact h

/-- A slot that belongs to somebody still does after a task, unless its place loses its name and is to be stopped. -/
theorem refers_step (turn : Turn s.office t s'.office new) (naming : Naming s t s'.named new) (h : s.office.Refers k) :
    s'.office.Refers k ∨ .stop k ∈ new := by
  rcases h with ⟨name, hn⟩ | hd
  · have same (hp : s'.names.places = s.names.places) : s'.office.Refers k :=
      .inl ⟨name, (congrArg (·.get? name) hp).trans hn⟩
    generalize he : s'.named = named at naming
    have hp : s'.names.places = named.1 := congrArg Prod.fst he
    cases naming with
    | same | attach | dropHandler => exact .inl (same hp)
    | @openPlace other _ _ hs =>
      by_cases heq : name = other
      · exact .inr (hs k (heq ▸ hn))
      · exact .inl (.inl ⟨name, by rw [show s'.office.places = _ from hp, Directory.get?_insert, if_neg heq]; exact hn⟩)
    | @dropPlace other _ _ hs =>
      by_cases heq : name = other
      · exact .inr (hs k (heq ▸ hn))
      · exact .inl (.inl ⟨name, by rw [show s'.office.places = _ from hp, Directory.get?_erase, if_neg heq]; exact hn⟩)
  · exact .inl (.inr (desks_turn turn hd))

theorem refers_of_arms {c : Call} (h : s.Arms k c) : s.office.Refers k := by
  cases c with
  | onPlace name call => exact .inl ⟨name, h.2⟩
  | onHandler name call =>
    obtain ⟨-, id, hd, -, hh, hs⟩ := h
    exact .inr (List.mem_map.2 ⟨hd, List.mem_of_getElem? hh, hs⟩)
  | _ => cases h

theorem phase_stopped {o o' : Office} (hk : o.scheduler.Knows k) (turn : Turn o (.stop k) o' new) :
    (o'.scheduler.slot k).phase = .free := by
  cases turn with
  | quiet hq => cases hq
  | stop =>
    have hv := congrArg (fun v => v.1.phase) (Scheduler.view_stop hk)
    split at hv
    · next hfree => exact hv.trans hfree.1
    · exact hv

/-- A slot in use belongs to somebody, or is about to be stopped. -/
theorem used_step (calm : Calmly k s.office (t :: rest)) (h : Attributed s (t :: rest)) (turn : Turn s.office t s'.office new)
    (shift : Shift s t s'.scheduler) (naming : Naming s t s'.named new) (hu : (s'.scheduler.slot k).phase ≠ .free) :
    s'.office.Refers k ∨ .stop k ∈ new ++ rest := by
  have carried (hr : s.office.Refers k) : s'.office.Refers k ∨ .stop k ∈ new ++ rest :=
    (refers_step turn naming hr).imp_right (List.mem_append_left _)
  by_cases hk : s.scheduler.Knows k
  swap
  · obtain ⟨label, hs⟩ := slot_of_added shift hk
    rw [hs] at hu
    exact absurd rfl hu
  have hat := shift.shiftAt hk
  generalize hv : s'.scheduler.view k = v at hat
  generalize s'.scheduler.nextSeq = next at hat
  rw [show s'.scheduler.slot k = v.1 from congrArg Prod.fst hv] at hu
  by_cases hf : (s.scheduler.slot k).phase = .free
  · -- a free slot is put to use by nobody but whom it belongs to
    cases hat with
    | start _ harms | pause harms => exact carried (refers_of_arms harms)
    | install => exact carried (h.coming _ _ _ (.head _))
    | seat => rcases calm.kept.stage.head (by simp [Task.settles]) with ⟨_, _, hx, -⟩ | ⟨_, _, hx, -⟩ <;> cases hx
    | lend _ hd => simp [Slot.isDue, hf] at hd
    | same | evict | restore | delist => exact absurd hf hu
    | again | takeOver => simp [hf] at hu
    | stop | vacate | finish | fail => exact absurd rfl hu
  · rcases h.used k hf with hr | hstop
    · exact carried hr
    · rcases List.mem_cons.1 hstop with rfl | hstop
      · have hfree := phase_stopped hk turn
        rw [show s'.office.scheduler.slot k = v.1 from congrArg Prod.fst hv] at hfree
        exact absurd hfree hu
      · exact .inr (List.mem_append_right _ hstop)

/-- What is no call changes no names. -/
theorem named_of_uncalled {n : Directory Nat × Directory Nat × Nat} (naming : Naming s t n new)
    (ht : ∀ c asker, t ≠ .call c asker) : n = s.named := by
  cases naming with
  | same => rfl
  | _ => exact absurd rfl (ht _ _)

theorem refers_same (turn : Turn s.office t s'.office new) (hn : s'.named = s.named) (h : s.office.Refers k) :
    s'.office.Refers k := by
  rcases h with ⟨name, h⟩ | h
  · exact .inl ⟨name, (congrArg (·.get? name) (congrArg Prod.fst hn)).trans h⟩
  · exact .inr (desks_turn turn h)

/-- A worker is put in for somebody to whom the slot belongs. -/
theorem awaited_step (calm : Calmly k s.office (t :: rest)) (h : Attributed s (t :: rest)) (turn : Turn s.office t s'.office new)
    (naming : Naming s t s'.named new) {w : Worker} {delay : Nat} (hx : .install k w delay ∈ new ++ rest) :
    s'.office.Refers k := by
  rcases List.mem_append.1 hx with hx | hx
  · have called (hr : s.office.Refers k) (hn : s'.named = s.named) : s'.office.Refers k := refers_same turn hn hr
    generalize s'.named = named at naming called
    cases turn.left hx with
    | light hx => cases hx
    | employed hs | engaged hs =>
      cases naming
      exact called (.inl ⟨_, hs⟩) rfl
    | requested hs =>
      cases naming
      exact called (.inr (List.mem_of_getElem? hs)) rfl
  · -- while a worker is to be put in, no code of the host is heard
    refine refers_same turn (named_of_uncalled naming ?_) (h.coming k w delay (.tail _ hx))
    rintro c asker rfl
    exact absurd (calm.kept.stage.steady_of_head nofun rfl rfl _ (.tail _ hx)) (by simp [Task.settles])

/-- A handler that is not disposed of has a name, or is about to be disposed of. -/
theorem held_step (h : Attributed s (t :: rest)) (page : Page s t s'.desk new) (naming : Naming s t s'.named new)
    (ended : ∀ i hd, t = .dispose i → s'.handlers[i]? = some hd → hd.isDisposed = true) {i : Nat} {hd : Handler}
    (hh : s'.handlers[i]? = some hd) (live : hd.isDisposed = false) :
    (∃ name, s'.names.handlers.get? name = some i) ∨ .dispose i ∈ new ++ rest := by
  generalize he : s'.named = named at naming
  have hnames : s'.names.handlers = named.2.1 := congrArg (·.2.1) he
  rcases AttendanceAux.handler_page page hh with ⟨hd₀, held₀, later⟩ | ⟨rfl, -, -, -, name, plan, asker, rfl⟩
  · rcases h.held i hd₀ held₀ (later.live live) with ⟨name, hn⟩ | hx
    · have kept (hs : s'.names.handlers.get? name = s.names.handlers.get? name) :
          (∃ name, s'.names.handlers.get? name = some i) ∨ .dispose i ∈ new ++ rest := .inl ⟨name, hs.trans hn⟩
      cases naming with
      | same | openPlace | dropPlace => exact kept (congrArg (·.get? name) hnames)
      | @attach other _ _ _ hs =>
        by_cases heq : name = other
        · exact .inr (List.mem_append_left _ (hs i (heq ▸ hn)))
        · exact kept (by rw [hnames, Directory.get?_insert, if_neg heq])
      | @dropHandler other _ _ hs =>
        by_cases heq : name = other
        · exact .inr (List.mem_append_left _ (hs i (heq ▸ hn)))
        · exact kept (by rw [hnames, Directory.get?_erase, if_neg heq])
    · rcases List.mem_cons.1 hx with rfl | hx
      · rw [ended i hd rfl hh] at live
        cases live
      · exact .inr (List.mem_append_right _ hx)
  · have hlt : s.handlers.length < s'.handlers.length := (List.getElem?_eq_some_iff.1 hh).1
    cases naming with
    | same => exact absurd (congrArg (·.2.2) he) (Nat.ne_of_gt hlt)
    | attach => exact .inl ⟨name, by rw [hnames, Directory.get?_insert, if_pos rfl]⟩

/-- The disposal of a handler ends it. -/
theorem disposed_of_run {m : Machine} {i : Nat} {hd hd' : Handler} (held : m.session.handlers[i]? = some hd)
    (held' : (m.run (.dispose i)).session.handlers[i]? = some hd') : hd'.isDisposed = true := by
  cases live : hd.isDisposed with
  | true =>
    rw [show m.run (.dispose i) = m from DisposalAux.run_dispose_disposed held live] at held'
    rwa [← Option.some.inj (held.symm.trans held')]
  | false =>
    obtain ⟨hd'', -, hn⟩ := DisposalAux.run_dispose (p := m) m.agenda held live
    rw [← Option.some.inj (hn.held.symm.trans held')]
    exact hn.ended

end NamingAux

namespace Machine

namespace Course

variable {past : List Machine} {m : Machine}

/-- On a calm course, slots, workers and handlers that the host does not know any more are about to be stopped or disposed of. -/
theorem attributed (run : Course past m) (calm : ∀ p ∈ past, ∀ k, Calm k p.agenda) :
    m.Crashed ∨ Attributed m.session m.agenda := by
  induction run with
  | new options => exact .inr ⟨fun k hu => absurd rfl hu, by simp, by simp [Session.new]⟩
  | ask c _ idle ih =>
    have h := (ih fun q hq => calm q (.tail _ hq)).resolve_left idle.not_crashed
    rw [idle.1] at h
    refine .inr ⟨fun k hu => .inl ((h.used k hu).resolve_right (by simp)), by simp [Machine.ask], fun i hd hh live => .inl ?_⟩
    exact (h.held i hd hh live).resolve_right (by simp)
  | @step past m t rest run ha ih =>
    have hnot := not_crashed_of_agenda ha
    have h := (ih fun q hq => calm q (.tail _ hq)).resolve_left hnot
    have hcalm (k : Nat) := (run.calmly fun q hq => calm q (.tail _ hq) k).resolve_left hnot
    rw [ha] at h
    rcases run.page ha with hc | ⟨new, hn, turn, page⟩
    · exact .inl hc
    · have shift := { m with agenda := rest }.run_shift t
      have naming := { m with agenda := rest }.run_naming t hn
      rw [hn]
      refine .inr ⟨fun k => used_step (ha ▸ hcalm k) h turn shift naming,
        fun k w delay => awaited_step (ha ▸ hcalm k) h turn naming, fun i hd => held_step h page naming ?_⟩
      rintro i hd rfl hh
      rcases AttendanceAux.handler_page page hh with ⟨hd₀, held₀, -⟩ | ⟨-, -, -, -, name, plan, asker, ht⟩
      · exact disposed_of_run (m := { m with agenda := rest }) held₀ hh
      · cases ht

/-- A handler that is disposed of was disposed of at some moment. -/
theorem disposal {h : Nat} {hd : Handler} (run : Course past m) (alive : ¬ m.Crashed) (held : m.session.handlers[h]? = some hd)
    (disposed : hd.isDisposed = true) : ∃ later p earlier hd₀ rest, past = later ++ p :: earlier ∧
      p.agenda = .dispose h :: rest ∧ p.session.handlers[h]? = some hd₀ ∧ hd₀.isDisposed = false ∧ hd₀.Later hd := by
  induction run generalizing hd with
  | new options => simp [Session.new] at held
  | @ask past m c run idle ih =>
    obtain ⟨later, p, earlier, hd₀, rest, rfl, h⟩ := ih idle.not_crashed held disposed
    exact ⟨m :: later, p, earlier, hd₀, rest, rfl, h⟩
  | @step past m t rest run ha ih =>
    have hnot := not_crashed_of_agenda ha
    rcases run.page ha with hc | ⟨new, hn, turn, page⟩
    · exact absurd hc alive
    cases hh : m.session.handlers[h]? with
    | none =>
      have numbered := (DisposalAux.numbered run).resolve_left hnot
      obtain ⟨n, hsub, -⟩ := (page.attends_new (ha ▸ numbered) hh held).subscribed
      simp [Handler.isDisposed, hsub] at disposed
    | some hd₀ =>
      obtain ⟨hd', held', later'⟩ := AttendanceAux.later_page page hh
      obtain rfl := Option.some.inj (held.symm.trans held')
      cases live : hd₀.isDisposed with
      | true =>
        obtain ⟨later, p, earlier, hd₁, rest', rfl, ha', held₁, live₁, later₁⟩ := ih hnot hh live
        exact ⟨m :: later, p, earlier, hd₁, rest', rfl, ha', held₁, live₁, later₁.trans later'⟩
      | false =>
        obtain ⟨rfl, -⟩ := RetirementAux.disposed_page page hh held live disposed
        exact ⟨[], m, past, hd₀, rest, rfl, ha, hh, live, later'⟩

/-- Before and after a call of the host on a calm course, a slot in use is that of a place that the host still has. -/
theorem place_of_used (run : Course past m) (calm : ∀ p ∈ past, ∀ k, Calm k p.agenda) (alive : ¬ m.Crashed)
    (between : m.agenda = [] ∨ ∃ c, m.agenda = [.call c .host]) {k : Nat} (hu : (m.session.scheduler.slot k).phase ≠ .free) :
    m.session.Place k := by
  have attributed := (run.attributed calm).resolve_left alive
  have called {x : Task} (hx : x ∈ m.agenda) : ∃ c, x = .call c .host := by
    rcases between with ha | ⟨c, ha⟩
    · rw [ha] at hx
      cases hx
    · rw [ha] at hx
      exact ⟨c, List.mem_singleton.1 hx⟩
  rcases attributed.used k hu with (⟨name, hn⟩ | hdesk) | hstop
  · exact .inl ⟨name, hn⟩
  · obtain ⟨hd, hmem, rfl⟩ := List.mem_map.1 hdesk
    obtain ⟨i, hi⟩ := List.getElem?_of_mem hmem
    cases live : hd.isDisposed with
    | false =>
      rcases attributed.held i hd hi live with ⟨name, hn⟩ | hx
      · exact .inr ⟨name, i, hd, hn, hi, rfl⟩
      · obtain ⟨c, hc⟩ := called hx
        cases hc
    | true =>
      -- a handler that is disposed of has left its slot free
      obtain ⟨later, p, earlier, hd₀, rest, rfl, ha, held, live₀, later₀⟩ := run.disposal alive hi live
      have seen : m.Visible := by rcases between with ha | ⟨c, ha⟩ <;> simp [Visible, ha]
      have returned := run.returns ha held live₀ alive seen
      rcases ((run.disposed ha held live₀ returned).resolve_left alive).2 with ⟨⟨hfree, -⟩, -⟩ | ⟨⟨-, ⟨q, hq, hr⟩, -⟩, -⟩
      · rw [← later₀.slot] at hfree
        exact absurd hfree hu
      · exact absurd hr (not_reenters_of_calm (calm q (by simp [hq]) 0))
  · obtain ⟨c, hc⟩ := called hstop
    cases hc

end Course

end Machine

end LiveHighlight
