import LiveHighlight.Proofs.Session.WorkerOrigins
import LiveHighlight.Proofs.Session.Texts

/-!
# Handlers that are not disposed of

What is true of every handler for as long as it is not disposed of, on every course on which no code that the host lent lets work
run (`Stationed`): it attends to its document, its slot is its own, and the slot is kept.
-/

namespace LiveHighlight

/-- What is known of a session, whatever handlers there are, as long as no code that the host lent lets work run. -/
structure Regular (s : Session) (agenda : List Task) : Prop where
  known : s.office.Known agenda
  orderly : Orderly agenda
  numbered : s.desk.Numbered agenda
  lined : s.desk.Lined

/-- Whether a slot belongs to one handler and to no place that has a name. -/
structure Office.Owned (o : Office) (h k : Nat) : Prop where
  own : o.desks[h]? = some k
  places : ∀ name, o.places.get? name ≠ some k
  desks : ∀ i, o.desks[i]? = some k → i = h

/-- What is known of a handler that is not disposed of. -/
structure Stationed (h : Nat) (hd : Handler) (s : Session) (agenda : List Task) : Prop where
  attends : s.desk.Attends h hd agenda
  owned : s.office.Owned h hd.slot
  calmly : Calmly hd.slot s.office agenda

namespace LiveHandlerAux

variable {s s' : Session} {o o' : Office} {t : Task} {rest new : List Task} {h : Nat} {hd hd' : Handler}

theorem owned_turn {slot : Nat} (hk : o.scheduler.Knows slot) (ho : o.Owned h slot) (ht : Turn o t o' new) :
    o'.Owned h slot := by
  have hlt : slot < o.scheduler.slots.length := hk
  cases ht with
  | openPlace =>
    refine ⟨ho.own, ?_, ho.desks⟩
    intro name hn
    simp only [Directory.get?_insert] at hn
    split at hn
    · have he := Option.some.inj hn
      omega
    · exact ho.places name hn
  | dropPlace =>
    refine ⟨ho.own, ?_, ho.desks⟩
    intro name hn
    simp only [Directory.get?_erase] at hn
    split at hn
    · cases hn
    · exact ho.places name hn
  | attach =>
    refine ⟨?_, ho.places, ?_⟩
    · rw [List.getElem?_append_left (List.getElem?_eq_some_iff.1 ho.own).1]
      exact ho.own
    · intro i hi
      rcases Nat.lt_trichotomy i o.desks.length with hl | rfl | hl
      · rw [List.getElem?_append_left hl] at hi
        exact ho.desks i hi
      · simp at hi
        omega
      · rw [List.getElem?_eq_none (by simp; omega)] at hi
        cases hi
  | _ => exact ⟨ho.own, ho.places, ho.desks⟩

/-- A worker is put into the slot of a place that has a name, or into that of a handler that is asked for a parse. -/
theorem install_turn (ht : Turn o t o' new) {slot delay : Nat} {w : Worker} (hx : .install slot w delay ∈ new) :
    (∃ name, o.places.get? name = some slot) ∨ ∃ i, t = .requestParse i ∧ o.desks[i]? = some slot := by
  cases ht.left hx with
  | light hx => cases hx
  | employed hs | engaged hs => exact .inl ⟨_, hs⟩
  | requested hs => exact .inr ⟨_, rfl, hs⟩

/-- A handler that attends is not cancelled. -/
theorem not_isCancelled (hn : s.desk.Numbered (t :: rest)) (hh : s.handlers[h]? = some hd)
    (ha : s.desk.Attends h hd (t :: rest)) : s.isCancelled hd.token = false := by
  obtain ⟨n, ht, -⟩ := hn.tokens h hd hh
  have hsafe : n ∉ s.cancelled := fun hc => ha.safe n ht (.inl hc)
  simp [Session.isCancelled, ht, hsafe]

/-- A handler that attends is among those who are told of a change. -/
theorem mem_watchers (ha : s.desk.Attends h hd (t :: rest)) {alive : Watcher → Bool} (hl : ∀ i, alive (.handler i) = true) :
    .handler h ∈ ((s.document hd.document).subscriptions.prune alive).watchers := by
  obtain ⟨n, -, he, -⟩ := ha.subscribed
  exact List.mem_map.2 ⟨_, List.mem_filter.2 ⟨he, hl h⟩, rfl⟩

/-! ### Every session -/

theorem regular_new (options : SchedulerOptions) : Regular (.new options) [] where
  known := Office.known_new options
  orderly := orderly_nil
  numbered := Desk.numbered_new options
  lined d hd := absurd hd (Nat.not_lt_zero d)

theorem regular_call (hr : Regular s []) (c : Call) : Regular s [.call c .host] where
  known := ⟨hr.known.refers, by simp [Task.slot?], hr.known.pending⟩
  orderly := orderly_call c
  numbered := hr.numbered.call c
  lined := hr.lined

theorem regular_step (hr : Regular s (t :: rest)) (quiet : ¬ Reenters (t :: rest)) (turn : Turn s.office t s'.office new)
    (page : Page s t s'.desk new) : Regular s' (new ++ rest) where
  known := turn.known hr.known
  orderly := turn.orderly hr.orderly quiet
  numbered := page.numbered hr.numbered
  lined := page.lined hr.lined

/-! ### A handler that is attached -/

/-- No task that is there when a handler is attached is about its slot. -/
theorem slot_fresh (hk : s.office.Known (t :: rest)) (turn : Turn s.office t s'.office new) {x : Task}
    (hx : x ∈ new ++ rest) : x.slot? ≠ some s.scheduler.slots.length := by
  intro hslot
  have hknows : s.scheduler.Knows s.scheduler.slots.length := by
    rcases List.mem_append.1 hx with hx | hx
    · exact KnownAux.tasks_turn hk.refers (fun slot hs => hk.tasks t (.head _) slot hs) turn hx hslot
    · exact hk.tasks x (.tail _ hx) _ hslot
  exact Nat.lt_irrefl _ hknows

/-- The slot of a handler that is attached is its own. -/
theorem owned_new {name : String} {plan : HandlerPlan String} {asker : Asker} {o o' : Office} {agenda : List Task}
    (hk : o.Known agenda) (turn : Turn o (.call (.handler name plan) asker) o' new)
    (hdesk : o'.desks[o.desks.length]? = some o.scheduler.slots.length) :
    o'.Owned o.desks.length o.scheduler.slots.length := by
  have fresh : ¬ o.Refers o.scheduler.slots.length := fun hr => Nat.lt_irrefl _ (hk.refers _ hr)
  cases turn with
  | attach =>
    refine ⟨hdesk, fun name hn => fresh (.inl ⟨name, hn⟩), ?_⟩
    intro i hi
    rcases Nat.lt_trichotomy i o.desks.length with hl | rfl | hl
    · rw [List.getElem?_append_left hl] at hi
      exact absurd (.inr (List.mem_of_getElem? hi)) fresh
    · rfl
    · rw [List.getElem?_eq_none (by simp; omega)] at hi
      cases hi
  | quiet | start | pause =>
    rw [List.getElem?_eq_none (Nat.le_refl _)] at hdesk
    cases hdesk

/-- A slot that there was not is calm. -/
theorem calmly_fresh {o : Office} {agenda : List Task} (hk : o.Known agenda) (ho : Orderly agenda) {slot : Nat}
    (hn : ¬ o.scheduler.Knows slot) : Calmly slot o agenda where
  known := hk
  orderly := ho
  kept := by
    rw [Scheduler.view, Scheduler.slot_of_not_knows hn, hk.pending slot hn]
    exact SlotInvariantAux.kept_fresh _ fun x hx hs => hn (hk.tasks x hx slot hs)

/-- A handler has its station from the beginning. -/
theorem stationed_new (hr : Regular s (t :: rest)) (turn : Turn s.office t s'.office new) (page : Page s t s'.desk new)
    (absent : s.handlers[h]? = none) (held : s'.handlers[h]? = some hd) : Stationed h hd s' (new ++ rest) := by
  obtain ⟨hd', hs, -⟩ | ⟨rfl, hslot, -, -, name, plan, asker, rfl⟩ := AttendanceAux.handler_page page held
  · rw [absent] at hs
    cases hs
  have hlen : s.office.desks.length = s.handlers.length := List.length_map _
  have hdesk : s'.office.desks[s.office.desks.length]? = some s.scheduler.slots.length := by
    rw [hlen, ← hslot]
    simp only [Session.office, List.getElem?_map, held, Option.map_some]
  have hcalmly : Calmly hd.slot s.office (.call (.handler name plan) asker :: rest) :=
    calmly_fresh hr.known hr.orderly (by simp [Scheduler.Knows, hslot, Session.office])
  have hcalm : Calm hd.slot (.call (.handler name plan) asker :: rest) := trivial
  refine ⟨page.attends_new hr.numbered absent held, ?_, turn.calmly hcalm hcalmly⟩
  rw [hslot, ← hlen]
  exact owned_new hr.known turn hdesk

/-- No worker is engaged at the slot of a handler that is attached. -/
theorem not_engages_new (hk : s.office.Known (t :: rest)) (turn : Turn s.office t s'.office new) {w : Worker} :
    ¬ s'.office.Engages (new ++ rest) s.scheduler.slots.length w := by
  rintro (hw | ⟨r, outcome, hx⟩)
  · rcases OriginAux.worker_turn turn hw with hw | hl
    · rw [show s.office.scheduler.slot s.scheduler.slots.length = .fresh "" from
        Scheduler.slot_of_not_knows (by simp [Scheduler.Knows, Session.office])] at hw
      cases hw
    · exact Nat.lt_irrefl _ (hk.tasks t (.head _) _ (OriginAux.slot_of_lodger hl))
  · exact slot_fresh hk turn hx rfl

/-! ### A handler that there was -/

/-- A handler keeps its station. -/
theorem stationed_step (hr : Regular s (t :: rest)) (hs : Stationed h hd s (t :: rest)) (held : s.handlers[h]? = some hd)
    (calm : Calm hd.slot (t :: rest)) (turn : Turn s.office t s'.office new) (page : Page s t s'.desk new)
    (held' : s'.handlers[h]? = some hd') (later : hd.Later hd') (live : hd'.isDisposed = false) :
    Stationed h hd' s' (new ++ rest) := by
  refine ⟨page.attends hr.numbered held held' later live hs.attends, ?_, ?_⟩
  · rw [later.slot]
    exact owned_turn (hr.known.refers _ (.inr (List.mem_of_getElem? hs.owned.own))) hs.owned turn
  · rw [later.slot]
    exact turn.calmly calm hs.calmly

/-- A handler has its station when the host asks something. -/
theorem stationed_call (hs : Stationed h hd s []) (c : Call) : Stationed h hd s [.call c .host] where
  attends := by
    refine ⟨hs.attends.ranged, hs.attends.subscribed, fun n hn he => hs.attends.safe n hn ?_⟩
    rcases he with he | he | ⟨token, hm, -⟩
    · exact .inl he
    · exact .inr (.inl he)
    · simp at hm
  owned := hs.owned
  calmly := hs.calmly.call c

end LiveHandlerAux

end LiveHighlight
