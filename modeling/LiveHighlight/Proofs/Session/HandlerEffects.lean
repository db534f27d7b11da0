import LiveHighlight.Proofs.Session.LiveHandlers

/-!
# What a task means to one handler

`Stroke` lists what a task can do to the document of one handler that attends, and to the handler itself; most tasks do nothing
to it. `Page.stroke` reads the stroke off a page, provided that nobody else writes annotations of the document
(`Session.spares`) and that the handler is the only one there and its slot is its own (`Posted`).
-/

namespace LiveHighlight

/-- Whether the first task of an agenda leaves the annotations of a document to the document's handler, and does not let work run
at the request of code that the host lent. -/
def Session.spares (s : Session) (d : Nat) : List Task → Bool
  | .call (.drive ..) (.script _) :: _ => false
  | .call (.onDocument doc call) _ :: _ => decide (s.names.documents.get? doc ≠ some d) || !call.isFormatting
  | .call (.onSink name _) _ :: _ => decide ((s.names.sinks.get? name).map (·.1) ≠ some d)
  | .call (.stepWorker name) _ :: _ | .call (.onPlace _ (.queueParse name _)) _ :: _ =>
    decide ((s.names.workers.get? name).bind Worker.document? ≠ some d)
  | _ => true

/-- Whether a task asks a handler for a parse, takes the annotations off its document, or puts a worker into its slot. -/
def Task.presses (h d k : Nat) : Task → Bool
  | .requestParse i => decide (i = h)
  | .clear id => decide (id = d)
  | .install slot _ _ => decide (slot = k)
  | _ => false

/-- Whether a task leads to a handler being asked for a parse, if it is enabled then. -/
def Task.tells (h d : Nat) : Task → Bool
  | .raise id event => decide (id = d) && event.requestsParse
  | .deliver event _ rest => decide (.handler h ∈ rest) && event.requestsParse
  | .notify watcher event => decide (watcher = .handler h) && event.requestsParse
  | .requestParse i => decide (i = h)
  | _ => false

/-- Whether the handler of a document is about to be asked for a parse, if it is enabled then. -/
def Told (h d : Nat) (agenda : List Task) : Prop := ∃ x ∈ agenda, x.tells h d = true

/-- Whether a task is something that code of the host asked, or news for a watcher. -/
def Task.isOuter : Task → Bool
  | .call .. | .notify .. => true
  | _ => false

/-- What a task does to a handler `hd` and to the lines of its document, and the tasks that it leaves. -/
inductive Stroke (h : Nat) (hd : Handler) (s : Session) : Task → Handler → Buffer → List Task → Prop where
  /-- Nothing; news for the handler goes on its way. -/
  | plain {t : Task} {new : List Task} (ht : t ≠ .requestParse h) (hc : t ≠ .clear hd.document)
      (hn : ∀ x ∈ new, x.presses h hd.document hd.slot = false) (hk : ∀ x ∈ new, x.concludes hd.slot = false)
      (tells : t.tells h hd.document = true → hd.enabled = true → Told h hd.document new) :
      Stroke h hd s t hd (s.document hd.document).buffer new
  /-- The text changes, and the handler is about to be told. -/
  | edit {t : Task} {b : Buffer} {new : List Task} (ht : t.isOuter = true)
      (hn : ∀ x ∈ new, x.presses h hd.document hd.slot = false) (hk : ∀ x ∈ new, x.concludes hd.slot = false)
      (told : Told h hd.document new) : Stroke h hd s t hd b new
  /-- The handler is enabled, perhaps from now on, and asks for a parse. -/
  | ask {t : Task} {rest : List Task} (ht : t.isOuter = true)
      (hn : ∀ x ∈ rest, x.presses h hd.document hd.slot = false) (hk : ∀ x ∈ rest, x.concludes hd.slot = false) :
      Stroke h hd s t { hd with enabled := true } (s.document hd.document).buffer (.requestParse h :: rest)
  /-- The handler is disabled. -/
  | disable {t : Task} {rest : List Task} (ht : t.isOuter = true)
      (hn : ∀ x ∈ rest, x.presses h hd.document hd.slot = false) (hk : ∀ x ∈ rest, x.concludes hd.slot = false) :
      Stroke h hd s t { hd with enabled := false } (s.document hd.document).buffer (.stop hd.slot :: .clear hd.document :: rest)
  /-- A parse of the text as it is now is queued. -/
  | request {i : Nat} :
      Stroke h hd s (.requestParse h) hd (s.document hd.document).buffer
        [.stop hd.slot, .install hd.slot
          ⟨i, .parsing hd.document (.start hd.grammar (s.document hd.document).buffer hd.options) hd.token⟩ 0]
  /-- The annotations are taken off. -/
  | clear : Stroke h hd s (.clear hd.document) hd (s.document hd.document).buffer.clear []
  /-- The worker in the handler's slot takes a step. -/
  | work {r r' : Round} {g i : Nat} {job : ParseJob}
      (hc : (s.scheduler.claim hd.slot r.now).2 = .step ⟨i, .parsing hd.document job hd.token⟩ g) :
      Stroke h hd s (.round r) hd (job.step false (s.document hd.document).buffer).buffer
        ((job.step false (s.document hd.document).buffer).tells hd.document ++
          [.conclude r' hd.slot g
            ⟨i, .parsing hd.document (job.step false (s.document hd.document).buffer).job hd.token⟩
            (.ok (job.step false (s.document hd.document).buffer).next)])

/-- What is known of a handler that attends to its document, which nobody else does, at its own slot. -/
structure Posted (h : Nat) (hd : Handler) (s : Session) (agenda : List Task) : Prop where
  held : s.handlers[h]? = some hd
  numbered : s.desk.Numbered agenda
  attends : s.desk.Attends h hd agenda
  owned : s.office.Owned h hd.slot
  sole : s.desk.Sole h hd.document
  /-- The workers that parse the document have their places at the slot. -/
  lodged : ∀ j w, s.office.Lodges agenda j w → w.document? = some hd.document → j = hd.slot
  /-- The slot holds only such workers, unless it is about to be stopped. -/
  parses : ∀ w, (s.scheduler.slot hd.slot).worker = some w → agenda.head? ≠ some (.stop hd.slot) →
    ∃ i job, w = ⟨i, .parsing hd.document job hd.token⟩

namespace StrokeAux

open TextAux LiveHandlerAux

variable {s : Session} {o o' : Office} {t : Task} {k : Desk} {rest new : List Task} {h : Nat} {hd : Handler}

/-- Only rounds leave steps to be ended. -/
theorem conclude_turn (ht : Turn o t o' new) {r : Round} {slot g : Nat} {w : Worker} {outcome : Outcome}
    (hx : .conclude r slot g w outcome ∈ new) : ∃ r', t = .round r' := by
  cases ht.left hx with
  | light hx => cases hx
  | stepped => exact ⟨_, rfl⟩

/-- A task that is no round and leaves no request and no clearing leaves nothing that presses. -/
theorem presses_turn {slot : Nat} (ho : o.Owned h slot) (ht : Turn o t o' new) (hreq : t ≠ .requestParse h) {d : Nat}
    (hnew : ∀ x ∈ new, x ≠ .requestParse h ∧ x ≠ .clear d) : ∀ x ∈ new, x.presses h d slot = false := by
  intro x hx
  cases x with
  | requestParse i =>
    have hi : i ≠ h := fun he => (hnew _ hx).1 (he ▸ rfl)
    simp [Task.presses, hi]
  | clear id =>
    have hi : id ≠ d := fun he => (hnew _ hx).2 (he ▸ rfl)
    simp [Task.presses, hi]
  | install j w delay =>
    have hj : j ≠ slot := by
      rintro rfl
      rcases install_turn ht hx with ⟨name, hp⟩ | ⟨i, rfl, hi⟩
      · exact ho.places name hp
      · exact hreq (ho.desks i hi ▸ rfl)
    simp [Task.presses, hj]
  | _ => rfl

theorem concludes_turn (ht : Turn o t o' new) (hr : ∀ r, t ≠ .round r) (slot : Nat) : ∀ x ∈ new, x.concludes slot = false := by
  intro x hx
  cases x with
  | conclude r j g w outcome =>
    obtain ⟨r', rfl⟩ := conclude_turn ht hx
    exact absurd rfl (hr r')
  | _ => rfl

theorem presses_of_mute {x : Task} (hx : x.isMute = true) {d : Nat} : x ≠ .requestParse h ∧ x ≠ .clear d := by
  refine ⟨?_, ?_⟩ <;> rintro rfl <;> cases hx

theorem still_spec (ht : t.isStill = true) (h d : Nat) :
    t ≠ .requestParse h ∧ t ≠ .clear d ∧ (∀ r, t ≠ .round r) ∧ t.tells h d = false := by
  cases t with
  | raise | deliver | notify | clear | requestParse | dispose | cancel | round => cases ht
  | _ => exact ⟨nofun, nofun, nofun, rfl⟩

/-- A task that leaves the handler and the lines of its document alone. -/
theorem plain_of {hd' : Handler} (hp : Posted h hd s (t :: rest)) (ht : Turn s.office t o' new)
    (hs : hd' = hd) (hb : (k.document hd.document).buffer = (s.document hd.document).buffer)
    (hreq : t ≠ .requestParse h) (hclear : t ≠ .clear hd.document) (hr : ∀ r, t ≠ .round r)
    (hnew : ∀ x ∈ new, x ≠ .requestParse h ∧ x ≠ .clear hd.document)
    (tells : t.tells h hd.document = true → hd.enabled = true → Told h hd.document new) :
    Stroke h hd s t hd' (k.document hd.document).buffer new := by
  rw [hs, hb]
  exact .plain hreq hclear (presses_turn hp.owned ht hreq hnew) (concludes_turn ht hr _) tells

/-- The same for a call. -/
theorem plain_call {c : Call} {asker : Asker} {hd' : Handler} (hp : Posted h hd s (.call c asker :: rest))
    (ht : Turn s.office (.call c asker) o' new) (hs : hd' = hd)
    (hb : (k.document hd.document).buffer = (s.document hd.document).buffer)
    (hnew : ∀ x ∈ new, x ≠ .requestParse h ∧ x ≠ .clear hd.document) :
    Stroke h hd s (.call c asker) hd' (k.document hd.document).buffer new :=
  plain_of hp ht hs hb nofun nofun nofun hnew nofun

/-- The handler stays as it is where no handler is changed. -/
theorem handler_eq {hd' : Handler} (hp : Posted h hd s (t :: rest)) (hh : k.handlers[h]? = some hd')
    (hk : k.handlers = s.handlers) : hd' = hd := by
  rw [hk, hp.held] at hh
  exact (Option.some.inj hh).symm

theorem handler_modify_ne {i : Nat} (hi : i ≠ h) (handlers : List Handler) (f : Handler → Handler) :
    (handlers.modify i f)[h]? = handlers[h]? := by
  simp [hi]

/-! ### Pages that mean something -/

theorem stroke_edit {doc : String} {id : Nat} {e : Edit} {b : Buffer} {event : BufferEvent} {asker : Asker}
    (hp : Posted h hd s (.call (.onDocument doc (.edit e)) asker :: rest))
    (ht : Turn s.office (.call (.onDocument doc (.edit e)) asker) o' [.raise id event, .answer asker e.reply])
    (he : (s.document id).buffer.edit e = .ok (b, event)) :
    Stroke h hd s (.call (.onDocument doc (.edit e)) asker) hd ((s.desk.setBuffer id b).document hd.document).buffer
      [.raise id event, .answer asker e.reply] := by
  by_cases hid : hd.document = id
  · subst hid
    rw [buffer_setBuffer_self hp.attends.ranged]
    refine .edit rfl (by simp [Task.presses]) (by simp [Task.concludes]) ⟨_, .head _, ?_⟩
    simp [Task.tells, Buffer.requestsParse_of_edit he]
  · exact plain_call hp ht rfl (buffer_setBuffer_ne hid _ _) (by simp)

theorem stroke_enable {name : String} {id : Nat} {other hd' : Handler} {on : Bool} {asker : Asker}
    (hp : Posted h hd s (.call (.onHandler name (.enable on)) asker :: rest))
    (ht : Turn s.office (.call (.onHandler name (.enable on)) asker) o'
      ((if on then [.requestParse id] else [.stop other.slot, .clear other.document, .raise other.document .formatted]) ++
        [.answer asker .done]))
    (hother : s.handlers[id]? = some other) (hh : (s.handlers.modify id ({ · with enabled := on }))[h]? = some hd') :
    Stroke h hd s (.call (.onHandler name (.enable on)) asker) hd' (s.document hd.document).buffer
      ((if on then [.requestParse id] else [.stop other.slot, .clear other.document, .raise other.document .formatted]) ++
        [.answer asker .done]) := by
  by_cases hid : id = h
  · subst hid
    rw [hp.held] at hother
    obtain rfl := Option.some.inj hother
    have hhd : hd' = { hd with enabled := on } := by
      rw [List.getElem?_modify_eq, hp.held] at hh
      exact (Option.some.inj hh).symm
    rw [hhd]
    cases on with
    | true => exact .ask rfl (by simp [Task.presses]) (by simp [Task.concludes])
    | false => exact .disable rfl (by simp [Task.presses]) (by simp [Task.concludes])
  · have hhd : hd' = hd := by
      rw [handler_modify_ne hid, hp.held] at hh
      exact (Option.some.inj hh).symm
    have hdoc : other.document ≠ hd.document := fun he => hid (hp.sole id other hother he)
    refine plain_call (k := s.desk) hp ht hhd rfl ?_
    cases on <;> simp [hid, hdoc]

/-- A handler that is enabled asks for a parse, or another handler does. -/
theorem stroke_ask {id : Nat} {other : Handler} (hp : Posted h hd s (t :: rest))
    (ht : Turn s.office t o' (.requestParse id :: new)) (hout : t.isOuter = true) (hother : s.handlers[id]? = some other)
    (he : other.enabled = true) (hnew : ∀ x ∈ new, ∃ asker reply, x = .answer asker reply)
    (tells : id ≠ h → t.tells h hd.document = false) :
    Stroke h hd s t hd (s.document hd.document).buffer (.requestParse id :: new) := by
  have hpress : ∀ x ∈ new, x.presses h hd.document hd.slot = false := by
    intro x hx
    obtain ⟨asker, reply, rfl⟩ := hnew x hx
    rfl
  have hconcludes : ∀ x ∈ new, x.concludes hd.slot = false := by
    intro x hx
    obtain ⟨asker, reply, rfl⟩ := hnew x hx
    rfl
  by_cases hid : id = h
  · subst hid
    rw [hp.held] at hother
    obtain rfl := Option.some.inj hother
    have hhd : hd = { hd with enabled := true } := by rw [← he]
    have hs : Stroke id hd s t { hd with enabled := true } (s.document hd.document).buffer (.requestParse id :: new) :=
      .ask hout hpress hconcludes
    rwa [← hhd] at hs
  · have houter : t ≠ .requestParse h ∧ t ≠ .clear hd.document ∧ ∀ r, t ≠ .round r := by
      cases t with
      | call | notify => exact ⟨nofun, nofun, nofun⟩
      | _ => cases hout
    refine plain_of (k := s.desk) hp ht rfl rfl houter.1 houter.2.1 houter.2.2 ?_ (by simp [tells hid])
    intro x hx
    rcases List.mem_cons.1 hx with rfl | hx
    · simp [hid]
    · obtain ⟨asker, reply, rfl⟩ := hnew x hx
      exact ⟨nofun, nofun⟩

theorem stroke_raise {id : Nat} {event : BufferEvent} {alive : Watcher → Bool} (hp : Posted h hd s (.raise id event :: rest))
    (ht : Turn s.office (.raise id event) o' [.deliver event none ((s.document id).subscriptions.prune alive).watchers])
    (ha : ∀ i, alive (.handler i) = true) :
    Stroke h hd s (.raise id event) hd
      ((s.desk.subscribe id ((s.document id).subscriptions.prune alive)).document hd.document).buffer
      [.deliver event none ((s.document id).subscriptions.prune alive).watchers] := by
  refine plain_of hp ht rfl (buffer_subscribe _ _ _ _) nofun nofun nofun (by simp) ?_
  intro htells _
  simp only [Task.tells, Bool.and_eq_true, decide_eq_true_eq] at htells
  obtain ⟨rfl, he⟩ := htells
  refine ⟨_, .head _, ?_⟩
  simp [Task.tells, he, mem_watchers hp.attends ha]

theorem stroke_deliver {event : BufferEvent} {told : Option Watcher} {w : Watcher} {others : List Watcher}
    (hp : Posted h hd s (.deliver event told (w :: others) :: rest))
    (ht : Turn s.office (.deliver event told (w :: others)) o' [.notify w event, .deliver event (some w) others]) :
    Stroke h hd s (.deliver event told (w :: others)) hd (s.document hd.document).buffer
      [.notify w event, .deliver event (some w) others] := by
  refine plain_of (k := s.desk) hp ht rfl rfl nofun nofun nofun (by simp) ?_
  intro htells _
  simp only [Task.tells, Bool.and_eq_true, decide_eq_true_eq, List.mem_cons] at htells
  obtain ⟨hw | hw, he⟩ := htells
  · exact ⟨_, .head _, by simp [Task.tells, he, ← hw]⟩
  · exact ⟨_, .tail _ (.head _), by simp [Task.tells, he, hw]⟩

theorem stroke_notifyIdle {id : Nat} {event : BufferEvent} (hp : Posted h hd s (.notify (.handler id) event :: rest))
    (ht : Turn s.office (.notify (.handler id) event) o' [])
    (hidle : ∀ other, s.handlers[id]? = some other → ¬ (other.enabled = true ∧ event.requestsParse = true)) :
    Stroke h hd s (.notify (.handler id) event) hd (s.document hd.document).buffer [] := by
  refine plain_of (k := s.desk) hp ht rfl rfl nofun nofun nofun (by simp) ?_
  intro htells he
  simp only [Task.tells, Bool.and_eq_true, decide_eq_true_eq, Watcher.handler.injEq] at htells
  obtain ⟨rfl, hevent⟩ := htells
  exact absurd ⟨he, hevent⟩ (hidle hd hp.held)

theorem stroke_clear {id : Nat} (hp : Posted h hd s (.clear id :: rest)) (ht : Turn s.office (.clear id) o' []) :
    Stroke h hd s (.clear id) hd ((s.desk.setBuffer id (s.document id).buffer.clear).document hd.document).buffer [] := by
  by_cases hid : hd.document = id
  · subst hid
    rw [buffer_setBuffer_self hp.attends.ranged]
    exact .clear
  · have hclear : Task.clear id ≠ .clear hd.document := by simpa using Ne.symm hid
    exact plain_of hp ht rfl (buffer_setBuffer_ne hid _ _) nofun hclear nofun (by simp) nofun

theorem stroke_requestNothing {id : Nat} (hp : Posted h hd s (.requestParse id :: rest))
    (ht : Turn s.office (.requestParse id) o' [])
    (hidle : ∀ other, s.handlers[id]? = some other → s.isCancelled other.token = true) :
    Stroke h hd s (.requestParse id) hd (s.document hd.document).buffer [] := by
  have hid : id ≠ h := by
    rintro rfl
    have hc := not_isCancelled hp.numbered hp.held hp.attends
    rw [hidle hd hp.held] at hc
    cases hc
  have hreq : Task.requestParse id ≠ .requestParse h := by simpa using hid
  exact plain_of (k := s.desk) hp ht rfl rfl hreq nofun nofun (by simp) (by simp [Task.tells, hid])

theorem stroke_request {id i : Nat} {other : Handler} (hp : Posted h hd s (.requestParse id :: rest))
    (hother : s.handlers[id]? = some other)
    (ht : Turn s.office (.requestParse id) o' [.stop other.slot, .install other.slot
      ⟨i, .parsing other.document (.start other.grammar (s.document other.document).buffer other.options) other.token⟩ 0]) :
    Stroke h hd s (.requestParse id) hd (s.document hd.document).buffer [.stop other.slot, .install other.slot
      ⟨i, .parsing other.document (.start other.grammar (s.document other.document).buffer other.options) other.token⟩ 0] := by
  by_cases hid : id = h
  · subst hid
    rw [hp.held] at hother
    obtain rfl := Option.some.inj hother
    exact .request
  · have hreq : Task.requestParse id ≠ .requestParse h := by simpa using hid
    exact plain_of (k := s.desk) hp ht rfl rfl hreq nofun nofun (by simp) (by simp [Task.tells, hid])

/-! ### Steps of workers -/

/-- A step of a worker in another slot. -/
theorem plain_round {r : Round} (pre : List Task) {r' : Round} {slot g : Nat} {w : Worker} {outcome : Outcome}
    (hslot : slot ≠ hd.slot) (hpre : ∀ x ∈ pre, x.presses h hd.document hd.slot = false ∧ x.concludes hd.slot = false) :
    Stroke h hd s (.round r) hd (s.document hd.document).buffer (pre ++ [.conclude r' slot g w outcome]) := by
  refine .plain nofun nofun ?_ ?_ nofun
  · intro x hx
    rcases List.mem_append.1 hx with hx | hx
    · exact (hpre x hx).1
    · obtain rfl := List.mem_singleton.1 hx
      rfl
  · intro x hx
    rcases List.mem_append.1 hx with hx | hx
    · exact (hpre x hx).2
    · obtain rfl := List.mem_singleton.1 hx
      simpa [Task.concludes] using hslot

/-- What a step of a parse worker leaves to be told is no pressing matter. -/
theorem tells_spec (h : Nat) (hd : Handler) (result : JobStep) (id : Nat) :
    ∀ x ∈ result.tells id, (x.presses h hd.document hd.slot = false ∧ x.concludes hd.slot = false) ∧
      (x ≠ .requestParse h ∧ x ≠ .clear hd.document) := by
  intro x hx
  rcases JobStep.mem_tells hx with ⟨message, -, rfl⟩ | rfl <;> exact ⟨⟨rfl, rfl⟩, nofun, nofun⟩

theorem stroke_work {r r' : Round} {slot g i id : Nat} {job : ParseJob} {token : CancelToken}
    (hp : Posted h hd s (.round r :: rest)) (hc : (s.scheduler.claim slot r.now).2 = .step ⟨i, .parsing id job token⟩ g) :
    Stroke h hd s (.round r) hd
      ((s.desk.setBuffer id (job.step (s.isCancelled token) (s.document id).buffer).buffer).document hd.document).buffer
      ((job.step (s.isCancelled token) (s.document id).buffer).tells id ++
        [.conclude r' slot g ⟨i, .parsing id (job.step (s.isCancelled token) (s.document id).buffer).job token⟩
          (.ok (job.step (s.isCancelled token) (s.document id).buffer).next)]) := by
  obtain ⟨-, hw, -⟩ := Scheduler.claim_step hc
  have hparses (he : slot = hd.slot) : id = hd.document ∧ token = hd.token := by
    subst he
    obtain ⟨i', job', he⟩ := hp.parses _ hw nofun
    cases he
    exact ⟨rfl, rfl⟩
  by_cases hid : id = hd.document
  · have hslot : slot = hd.slot := hp.lodged slot _ (.inl hw) (by rw [hid]; rfl)
    obtain ⟨-, rfl⟩ := hparses hslot
    subst hid hslot
    rw [buffer_setBuffer_self hp.attends.ranged, not_isCancelled hp.numbered hp.held hp.attends]
    exact .work hc
  · rw [buffer_setBuffer_ne (Ne.symm hid)]
    exact plain_round _ (fun he => hid (hparses he).1) fun x hx => (tells_spec h hd _ id x hx).1

end StrokeAux

open StrokeAux TextAux LiveHandlerAux

/-- What a page means to a handler that attends. -/
theorem Page.stroke {s : Session} {o' : Office} {t : Task} {k : Desk} {rest new : List Task} {h : Nat} {hd hd' : Handler}
    (hp : Posted h hd s (t :: rest)) (spares : s.spares hd.document (t :: rest) = true) (ht : Turn s.office t o' new)
    (hh : k.handlers[h]? = some hd') (live : hd'.isDisposed = false) (page : Page s t k new) :
    Stroke h hd s t hd' (k.document hd.document).buffer new := by
  have same := handler_eq hp hh
  have modified {i : Nat} {f : Handler → Handler} (hi : i ≠ h) (hm : (s.handlers.modify i f)[h]? = some hd') : hd' = hd := by
    rw [handler_modify_ne hi, hp.held] at hm
    exact (Option.some.inj hm).symm
  cases page with
  | quiet hstill hn =>
    obtain ⟨hreq, hclear, hr, htells⟩ := still_spec hstill h hd.document
    refine plain_of hp ht (same rfl) rfl hreq hclear hr (fun x hx => presses_of_mute (hn x hx)) ?_
    simp [htells]
  | document =>
    exact plain_call hp ht (same rfl) (by rw [document_append hp.attends.ranged]) (by simp)
  | edit _ he =>
    rw [same rfl]
    exact stroke_edit hp ht he
  | @format doc id call b asker hdoc hf _ =>
    have hid : hd.document ≠ id := by
      rintro rfl
      simp [Session.spares, hdoc, hf] at spares
    exact plain_call hp ht (same rfl) (buffer_setBuffer_ne hid _ _) (by simp)
  | @write name id sink call b asker hs _ =>
    have hid : hd.document ≠ id := by
      rintro rfl
      simp [Session.spares, hs] at spares
    exact plain_call hp ht (same rfl) (buffer_setBuffer_ne hid _ _) (by simp)
  | raiseCall | disposeCall => exact plain_call hp ht (same rfl) rfl (by simp)
  | observe | unobserve => exact plain_call hp ht (same rfl) (buffer_subscribe _ _ _ _) (by simp)
  | mint | token | cancelCall => exact plain_call hp ht (same rfl) rfl (by simp)
  | attach =>
    have hhd : hd' = hd := by
      rw [List.getElem?_append_left (List.getElem?_eq_some_iff.1 hp.held).1, hp.held] at hh
      exact (Option.some.inj hh).symm
    refine plain_call hp ht hhd (buffer_subscribe _ _ _ _) ?_
    intro x hx
    rcases List.mem_append.1 hx with hx | hx
    · obtain ⟨old, -, rfl⟩ := List.mem_map.1 hx
      exact ⟨nofun, nofun⟩
    · obtain rfl := List.mem_singleton.1 hx
      exact ⟨nofun, nofun⟩
  | enable _ hother => exact stroke_enable hp ht hother hh
  | reparse _ hother he =>
    rw [same rfl]
    exact stroke_ask hp ht rfl hother he (by simp) fun _ => rfl
  | raise ha =>
    rw [same rfl]
    exact stroke_raise hp ht ha
  | delivered => exact plain_of hp ht (same rfl) rfl nofun nofun nofun (by simp) (by simp [Task.tells])
  | deliver =>
    rw [same rfl]
    exact stroke_deliver hp ht
  | notifyObserver hn =>
    exact plain_of hp ht (same rfl) rfl nofun nofun nofun (fun x hx => presses_of_mute (hn x hx)) (by simp [Task.tells])
  | notifyIdle hidle =>
    rw [same rfl]
    exact stroke_notifyIdle hp ht hidle
  | notifyHandler hother he =>
    rw [same rfl]
    exact stroke_ask hp ht rfl hother he (by simp) fun hid => by simp [Task.tells, hid]
  | clear =>
    rw [same rfl]
    exact stroke_clear hp ht
  | requestNothing hidle =>
    rw [same rfl]
    exact stroke_requestNothing hp ht hidle
  | request hother =>
    rw [same rfl]
    exact stroke_request hp hother ht
  | disposeNothing | cancel => exact plain_of hp ht (same rfl) rfl nofun nofun nofun (by simp) nofun
  | @dispose id number other hother hs =>
    have hid : id ≠ h := by
      rintro rfl
      rw [AttendanceAux.isDisposed_of_modify hh] at live
      cases live
    exact plain_of hp ht (modified hid hh) (buffer_subscribe _ _ _ _) nofun nofun nofun (by simp) nofun
  | pass hn =>
    rw [same rfl]
    refine .plain nofun nofun ?_ ?_ nofun
    all_goals rcases hn with rfl | ⟨d, rfl⟩ | ⟨r', rfl⟩ <;> simp [Task.presses, Task.concludes]
  | @play r r' slot g i begun script hc =>
    have hslot : slot ≠ hd.slot := by
      rintro rfl
      obtain ⟨i', job, he⟩ := hp.parses _ (Scheduler.claim_step hc).2.1 (by simp)
      cases he
    rw [same rfl]
    exact plain_round [.script (script.act begun).calls] hslot (by simp [Task.presses, Task.concludes])
  | work hc =>
    rw [same rfl]
    exact stroke_work hp hc
  | @rehearse name asker i id job token hw =>
    have hid : hd.document ≠ id := by
      rintro rfl
      simp [Session.spares, hw, Worker.document?] at spares
    refine plain_call hp ht (same rfl) (buffer_setBuffer_ne hid _ _) ?_
    intro x hx
    rcases List.mem_append.1 hx with hx | hx
    · exact (tells_spec h hd _ id x hx).2
    · obtain rfl := List.mem_singleton.1 hx
      exact ⟨by simp, by simp⟩

end LiveHighlight
