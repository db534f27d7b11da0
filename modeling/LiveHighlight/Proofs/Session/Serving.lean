import LiveHighlight.Proofs.Session.ParseUnderWay

/-!
# Handlers are served along every course

From the attachment of a handler on until it is disposed of, it attends, its slot is its own, and its parse is tended
(`Course.served`), on every course that spares its document and as long as the document has no other handler.
-/

namespace LiveHighlight

/-- What is known of a session whatever handlers there are, and where the workers are that parse a document. -/
structure Grounded (d : Nat) (s : Session) (agenda : List Task) : Prop extends Regular s agenda where
  /-- A worker that parses the document has its place at the slot of a handler of the document. -/
  lodged : ∀ j w, s.office.Lodges agenda j w → w.document? = some d →
    ∃ (i : Nat) (hd : Handler), s.handlers[i]? = some hd ∧ hd.document = d ∧ hd.slot = j

/-- What is known of a handler that is the only one of its document. -/
structure Served (h : Nat) (hd : Handler) (s : Session) (agenda : List Task) : Prop extends Stationed h hd s agenda where
  tended : Tended h hd (s.document hd.document).buffer s.office agenda

namespace ServingAux

open LiveHandlerAux

variable {s s' : Session} {t : Task} {rest new : List Task} {h d : Nat} {hd hd' : Handler}

theorem not_reenters (spares : s.spares d (t :: rest) = true) : ¬ Reenters (t :: rest) := by
  unfold Reenters
  split
  · rename_i he
    rw [he] at spares
    exact fun _ => by cases spares
  · exact id

/-- The handlers of a document stay handlers of the document. -/
theorem lodged_step (hg : Grounded d s (t :: rest)) (spares : s.spares d (t :: rest) = true)
    (turn : Turn s.office t s'.office new) (page : Page s t s'.desk new) {j : Nat} {w : Worker}
    (hl : s'.office.Lodges (new ++ rest) j w) (hw : w.document? = some d) :
    ∃ (i : Nat) (hd : Handler), s'.handlers[i]? = some hd ∧ hd.document = d ∧ hd.slot = j := by
  have later {i : Nat} {hd : Handler} (hh : s.handlers[i]? = some hd) (hdoc : hd.document = d) (hslot : hd.slot = j) :
      ∃ (i : Nat) (hd : Handler), s'.handlers[i]? = some hd ∧ hd.document = d ∧ hd.slot = j := by
    obtain ⟨hd', hh', hlater⟩ := AttendanceAux.later_page page hh
    exact ⟨i, hd', hh', hlater.document.trans hdoc, hlater.slot.trans hslot⟩
  rcases turn.lodges hl with ⟨w', hl', he⟩ | hnone | ⟨place, name, delay, asker, rfl, hn⟩ | ⟨i, delay, rfl, hx⟩
  · obtain ⟨i, hd, hh, hdoc, hslot⟩ := hg.lodged j w' hl' (he ▸ hw)
    exact later hh hdoc hslot
  · rw [hnone] at hw
    cases hw
  · have hname : s.names.workers.get? name = some w := hn
    simp [Session.spares, hname, hw] at spares
  · generalize s'.desk = k at page
    cases page with
    | quiet hstill => cases hstill
    | requestNothing => cases hx
    | request hother =>
      simp only [List.mem_cons, reduceCtorEq, false_or, Task.install.injEq, List.not_mem_nil, or_false] at hx
      obtain ⟨rfl, rfl, -⟩ := hx
      exact later hother (Option.some.inj hw) rfl

theorem grounded_step (hg : Grounded d s (t :: rest)) (spares : s.spares d (t :: rest) = true)
    (turn : Turn s.office t s'.office new) (page : Page s t s'.desk new) : Grounded d s' (new ++ rest) where
  toRegular := regular_step hg.toRegular (not_reenters spares) turn page
  lodged _ _ hl hw := lodged_step hg spares turn page hl hw

theorem grounded_new (options : SchedulerOptions) : Grounded d (.new options) [] where
  toRegular := regular_new options
  lodged j w hl := by
    rcases hl with hw | ⟨x, hx, -⟩
    · cases hw
    · cases hx

theorem grounded_call (hg : Grounded d s []) (c : Call) : Grounded d s [.call c .host] where
  toRegular := regular_call hg.toRegular c
  lodged j w hl := by
    refine hg.lodged j w ?_
    rcases hl with hw | ⟨x, hx, hl⟩
    · exact .inl hw
    · obtain rfl := List.mem_singleton.1 hx
      cases hl

/-- A handler that is served attends at a slot of its own. -/
theorem posted_of_served (hg : Grounded hd.document s (t :: rest)) (hs : Served h hd s (t :: rest))
    (held : s.handlers[h]? = some hd) (sole : s.desk.Sole h hd.document) : Posted h hd s (t :: rest) where
  held := held
  numbered := hg.numbered
  attends := hs.attends
  owned := hs.owned
  sole := sole
  lodged j w hl hw := by
    obtain ⟨i, other, hother, hdoc, hslot⟩ := hg.lodged j w hl hw
    obtain rfl := sole i other hother hdoc
    rw [held] at hother
    obtain rfl := Option.some.inj hother
    exact hslot.symm
  parses w hw hhead := by
    rcases hs.tended.engaged w (.inl hw) with hstop | ⟨-, i, job, he, -⟩
    · exact absurd hstop hhead
    · exact ⟨i, job, he⟩

/-- A course that spares the document is calm about the slot: only parse workers are put into it, and they end in silence. -/
theorem calm_of_served (spares : s.spares d (t :: rest) = true) (hs : Served h hd s (t :: rest)) : Calm hd.slot (t :: rest) := by
  refine calm_of_install (not_reenters spares) ?_
  intro w delay rest' he
  obtain ⟨rfl, rfl⟩ := List.cons.inj he
  obtain ⟨-, i, job, rfl, -⟩ := UnderWayAux.fits_of_errand hs.tended.errand (by simp [Task.presses])
  rfl

/-- A handler is served on. -/
theorem served_step (hg : Grounded hd.document s (t :: rest)) (hs : Served h hd s (t :: rest))
    (held : s.handlers[h]? = some hd) (spares : s.spares hd.document (t :: rest) = true)
    (turn : Turn s.office t s'.office new) (page : Page s t s'.desk new) (held' : s'.handlers[h]? = some hd')
    (later : hd.Later hd') (live : hd'.isDisposed = false) (sole : s'.desk.Sole h hd.document) :
    Served h hd' s' (new ++ rest) := by
  have hp := posted_of_served hg hs held (page.sole sole)
  have stroke := page.stroke hp spares turn held' live
  have calm := calm_of_served spares hs
  refine ⟨stationed_step hg.toRegular hs.toStationed held calm turn page held' later live, ?_⟩
  rw [later.document]
  exact hs.tended.stroke hs.calmly turn stroke

/-! ### A handler that is attached -/

/-- Nothing is under way for a handler that is attached. -/
theorem tended_new {name : String} {plan : HandlerPlan String} {asker : Asker} {b : Buffer}
    (hg : Grounded d s (.call (.handler name plan) asker :: rest))
    (turn : Turn s.office (.call (.handler name plan) asker) s'.office new)
    (page : Page s (.call (.handler name plan) asker) s'.desk new)
    (hslot : hd.slot = s.scheduler.slots.length) (absent : ∀ (i : Nat) (other : Handler),
      s.handlers[i]? = some other → other.document ≠ hd.document) :
    Tended s.handlers.length hd b s'.office (new ++ rest) where
  errand := by
    have fresh {x : Task} (hx : x ∈ new ++ rest) := hslot ▸ slot_fresh hg.known turn hx
    refine .idle ?_
    intro x hx
    cases x with
    | requestParse i =>
      have hi : i < s.handlers.length := by
        rcases List.mem_append.1 hx with hx | hx
        · exact AttendanceAux.requests_page page hx
        · exact hg.numbered.requests i (.tail _ hx)
      simpa [Task.presses] using Nat.ne_of_lt hi
    | clear id =>
      obtain ⟨i, other, ho, hid⟩ : ∃ (i : Nat) (other : Handler), s.handlers[i]? = some other ∧ other.document = id := by
        rcases List.mem_append.1 hx with hx | hx
        · exact AttendanceAux.clears_page page hx
        · exact hg.numbered.clears id (.tail _ hx)
      simpa [Task.presses] using hid ▸ absent i other ho
    | install => simpa [Task.presses, Task.slot?] using fresh hx
    | _ => rfl
  engaged w hw := absurd (hslot ▸ hw) (not_engages_new hg.known turn)
  finished r g w hx := absurd (hslot ▸ rfl) (slot_fresh hg.known turn hx)

/-- A handler is served from the beginning. -/
theorem served_new (hg : Grounded d s (t :: rest)) (turn : Turn s.office t s'.office new) (page : Page s t s'.desk new)
    (absent : s.handlers[h]? = none) (held' : s'.handlers[h]? = some hd) (sole : s'.desk.Sole h hd.document) :
    Served h hd s' (new ++ rest) := by
  have station := stationed_new hg.toRegular turn page absent held'
  obtain ⟨hd', hs, -⟩ | ⟨rfl, hslot, -, -, name, plan, asker, rfl⟩ := AttendanceAux.handler_page page held'
  · rw [absent] at hs
    cases hs
  refine ⟨station, tended_new hg turn page hslot ?_⟩
  intro i other ho hdoc
  obtain rfl := page.sole sole i other ho hdoc
  rw [absent] at ho
  cases ho

/-- What is served at rest is served when the host asks something. -/
theorem served_call (hs : Served h hd s []) (c : Call) : Served h hd s [.call c .host] where
  toStationed := stationed_call hs.toStationed c
  tended := by
    refine ⟨.idle (by simp [Task.presses]), ?_, fun r g w hx => by simp at hx⟩
    intro w hw
    have before : s.office.Engages [] hd.slot w := by
      rcases hw with hw | ⟨r, outcome, hx⟩
      · exact .inl hw
      · simp at hx
    rcases hs.tended.engaged w before with hhead | ⟨hen, i, job, he, htold | hstep⟩
    · cases hhead
    · obtain ⟨x, hx, -⟩ := htold
      cases hx
    · exact .inr ⟨hen, i, job, he, .inr hstep⟩

end ServingAux

open ServingAux

/-- Along a course that spares a document, its handler is served for as long as it is the only one and not disposed of. -/
theorem Machine.Course.served {past : List Machine} {m : Machine} (run : Course past m) {d : Nat}
    (spared : ∀ p ∈ past, p.session.spares d p.agenda = true) :
    m.Crashed ∨ Grounded d m.session m.agenda ∧ ∀ (h : Nat) (hd : Handler), m.session.handlers[h]? = some hd →
      hd.document = d → hd.isDisposed = false → m.session.desk.Sole h d → Served h hd m.session m.agenda := by
  induction run with
  | new options => exact .inr ⟨grounded_new options, fun h hd held => by simp [Session.new] at held⟩
  | @ask past m c run idle ih =>
    obtain ⟨hg, hs⟩ := (ih fun p hp => spared p (.tail _ hp)).resolve_left idle.not_crashed
    rw [idle.1] at hg hs
    exact .inr ⟨grounded_call hg c, fun h hd held hdoc live sole => served_call (hs h hd held hdoc live sole) c⟩
  | @step past m t rest run ha ih =>
    have spares : m.session.spares d (t :: rest) = true := ha ▸ spared m (.head _)
    obtain ⟨hg, hs⟩ := (ih fun p hp => spared p (.tail _ hp)).resolve_left (not_crashed_of_agenda ha)
    rw [ha] at hg hs
    rcases run.page ha with hc | ⟨new, hn, turn, page⟩
    · exact .inl hc
    rw [hn]
    refine .inr ⟨grounded_step hg spares turn page, ?_⟩
    intro h hd' held' hdoc live sole
    subst hdoc
    cases hh : m.session.handlers[h]? with
    | none => exact served_new hg turn page hh held' sole
    | some hd =>
      obtain ⟨hd'', hh', later⟩ := AttendanceAux.later_page page hh
      obtain rfl := Option.some.inj (held'.symm.trans hh')
      rw [later.document] at hg hs spares sole
      exact served_step hg (hs h hd hh rfl (later.live live) (page.sole sole)) hh spares turn page held' later live sole

end LiveHighlight
