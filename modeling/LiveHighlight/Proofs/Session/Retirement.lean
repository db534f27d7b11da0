import LiveHighlight.Proofs.Session.Freshness

/-!
# Handlers that are disposed of

Disposing of a handler stops its slot and cancels its token, and until both are done nothing else is (`Retired`). From then on the
token is cancelled for good, so the handler queues no parse any more (`Course.live_of_request`).
-/

namespace LiveHighlight

/-- How far the disposal of a handler is: its slot is to be stopped, what the slot held is discarded in silence and the token is
to be cancelled, or the token is cancelled. -/
inductive Retired (hd : Handler) (s : Session) : List Task → Prop where
  | stopping {rest : List Task} (hw : ∀ w, (s.scheduler.slot hd.slot).worker = some w → w.onDrop = []) :
      Retired hd s (.stop hd.slot :: .cancel hd.token :: rest)
  | clearing (pre : List Task) {rest : List Task} (hp : ∀ y ∈ pre, y.isSilent = true) :
      Retired hd s (pre ++ .cancel hd.token :: rest)
  | cancelled {agenda : List Task} (hc : s.isCancelled hd.token = true) : Retired hd s agenda

namespace RetirementAux

variable {s s' : Session} {t : Task} {k : Desk} {rest new : List Task} {h : Nat} {hd hd' : Handler}

/-- What is cancelled stays cancelled. -/
theorem cancelled_page (page : Page s t k new) : ∀ n ∈ s.cancelled, n ∈ k.cancelled := by
  cases page with
  | cancel | cancelCall => exact fun n hn => List.mem_append_right _ hn
  | _ => exact fun n hn => hn

theorem isCancelled_page {token : CancelToken} (page : Page s t s'.desk new) (hc : s.isCancelled token = true) :
    s'.isCancelled token = true := by
  obtain ⟨n, hn, hmem⟩ := List.any_eq_true.1 hc
  exact List.any_eq_true.2 ⟨n, hn, decide_eq_true (cancelled_page page n (of_decide_eq_true hmem))⟩

/-- Only its disposal ends a handler: it stops the handler's slot, then cancels its token. -/
theorem disposed_page (page : Page s t k new) (held : s.handlers[h]? = some hd) (held' : k.handlers[h]? = some hd')
    (live : hd.isDisposed = false) (disposed : hd'.isDisposed = true) :
    t = .dispose h ∧ new = [.stop hd.slot, .cancel hd.token] := by
  have same (hk : k.handlers[h]? = some hd) : t = .dispose h ∧ new = [.stop hd.slot, .cancel hd.token] := by
    rw [hk] at held'
    rw [Option.some.inj held', disposed] at live
    cases live
  cases page with
  | attach => exact same (by rw [List.getElem?_append_left (List.getElem?_eq_some_iff.1 held).1, held])
  | @enable name id other on =>
    by_cases hid : id = h
    · subst hid
      rw [List.getElem?_modify_eq, held] at held'
      rw [← Option.some.inj held'] at disposed
      rw [show hd.isDisposed = true from disposed] at live
      cases live
    · exact same ((StrokeAux.handler_modify_ne hid _ _).trans held)
  | @dispose id number other hother =>
    by_cases hid : id = h
    · subst hid
      obtain rfl := Option.some.inj (hother.symm.trans held)
      exact ⟨rfl, rfl⟩
    · exact same ((StrokeAux.handler_modify_ne hid _ _).trans held)
  | _ => exact same held

theorem retired_step (hn : s.desk.Numbered (t :: rest)) (held : s.handlers[h]? = some hd) (hr : Retired hd s (t :: rest))
    (turn : Turn s.office t s'.office new) (page : Page s t s'.desk new) : Retired hd s' (new ++ rest) := by
  generalize ha : t :: rest = agenda at hr
  cases hr with
  | stopping hw =>
    obtain ⟨rfl, rfl⟩ := List.cons.inj ha
    generalize s'.office = o' at turn
    cases turn with
    | quiet hq => cases hq
    | stop =>
      refine .clearing _ ?_
      intro y hy
      obtain ⟨w, hw', rfl⟩ := List.mem_map.1 hy
      rw [Scheduler.stop_snd, Option.mem_toList] at hw'
      simp [Task.isSilent, hw w hw']
  | clearing pre hp =>
    cases pre with
    | nil =>
      obtain ⟨rfl, rfl⟩ := List.cons.inj ha
      obtain ⟨n, htoken, -⟩ := hn.tokens h hd held
      generalize hk : s'.desk = k at page
      cases page with
      | quiet ht => cases ht
      | cancel =>
        have hc : s'.cancelled = hd.token.lineage.head?.toList ++ s.cancelled := congrArg Desk.cancelled hk
        exact .cancelled (by simp [Session.isCancelled, hc, htoken])
    | cons y pre =>
      rw [List.cons_append] at ha
      obtain ⟨rfl, rfl⟩ := List.cons.inj ha
      have hnew := (SlotInvariantAux.silent_turn (hp t (.head _)) turn).2
      rw [← List.append_assoc]
      refine .clearing _ ?_
      intro z hz
      rcases List.mem_append.1 hz with hz | hz
      · exact hnew z hz
      · exact hp z (.tail _ hz)
  | cancelled hc => exact .cancelled (isCancelled_page page hc)

/-- A handler that is disposed of retires. -/
theorem retired_new
    (hk : Kept hd.slot (s.office.scheduler.view hd.slot).1 (s.office.scheduler.view hd.slot).2 (.dispose h :: rest))
    (turn : Turn s.office (.dispose h) s'.office [.stop hd.slot, .cancel hd.token]) :
    Retired hd s' ([.stop hd.slot, .cancel hd.token] ++ rest) := by
  have hs : s'.scheduler = s.scheduler := by
    generalize ho : s'.office = o' at turn
    cases turn with
    | quiet => exact congrArg Office.scheduler ho
  refine .stopping ?_
  intro w hw
  rw [hs] at hw
  exact (hk.seated w hw).2.2

theorem retired_later (later : hd.Later hd') {agenda : List Task} (hr : Retired hd s agenda) : Retired hd' s agenda := by
  cases hr with
  | stopping hw =>
    rw [← later.slot] at hw ⊢
    rw [← later.token]
    exact .stopping hw
  | clearing pre hp =>
    rw [← later.token]
    exact .clearing pre hp
  | cancelled hc => exact .cancelled (by rw [later.token]; exact hc)

end RetirementAux

open RetirementAux

namespace Machine

namespace Course

variable {past : List Machine} {m : Machine} {h : Nat} {hd : Handler}

/-- A handler that is disposed of retires before anything else is done. -/
theorem retired (run : Course past m) (quiet : ∀ p ∈ past, ¬ Reenters p.agenda) (held : m.session.handlers[h]? = some hd)
    (closed : hd.grammar.Closed) (disposed : hd.isDisposed = true) : m.Crashed ∨ Retired hd m.session m.agenda := by
  induction run generalizing hd with
  | new options => simp [Session.new] at held
  | @ask past m c run idle ih =>
    have hr := (ih (fun p hp => quiet p (.tail _ hp)) held closed disposed).resolve_left idle.not_crashed
    rw [idle.1] at hr
    generalize ha : ([] : List Task) = agenda at hr
    cases hr with
    | stopping => cases ha
    | clearing pre => cases pre <;> cases ha
    | cancelled hc => exact .inr (.cancelled hc)
  | @step past m t rest run ha ih =>
    have hpast : ∀ p ∈ past, ¬ Reenters p.agenda := fun p hp => quiet p (.tail _ hp)
    have hnot := not_crashed_of_agenda ha
    obtain ⟨regular, handlers⟩ := (run.fresh hpast).resolve_left hnot
    rcases run.page ha with hc | ⟨new, hn, turn, page⟩
    · exact .inl hc
    rw [hn]
    cases hh : m.session.handlers[h]? with
    | none =>
      obtain ⟨n, hsub, -⟩ := (page.attends_new (ha ▸ regular.numbered) hh held).subscribed
      simp [Handler.isDisposed, hsub] at disposed
    | some hd₀ =>
      obtain ⟨hd', held', later⟩ := AttendanceAux.later_page page hh
      obtain rfl := Option.some.inj (held.symm.trans held')
      rw [later.grammar] at closed
      refine .inr (retired_later later ?_)
      cases live : hd₀.isDisposed with
      | true =>
        have hr := (ih hpast hh closed live).resolve_left hnot
        rw [ha] at regular hr
        exact retired_step regular.numbered hh hr turn page
      | false =>
        obtain ⟨rfl, rfl⟩ := disposed_page page hh held live disposed
        have hkept := (handlers h hd₀ hh live closed).1.calmly.kept
        rw [ha] at hkept
        exact retired_new hkept turn

/-- A handler that queues a parse is not disposed of. -/
theorem live_of_request (run : Course past m) (quiet : ∀ p ∈ past, ¬ Reenters p.agenda)
    (held : m.session.handlers[h]? = some hd) (closed : hd.grammar.Closed) {rest : List Task}
    (ha : m.agenda = .requestParse h :: rest) (safe : m.session.isCancelled hd.token = false) : hd.isDisposed = false := by
  cases disposed : hd.isDisposed with
  | false => rfl
  | true =>
    have hr := (run.retired quiet held closed disposed).resolve_left (not_crashed_of_agenda ha)
    rw [ha] at hr
    generalize hag : (.requestParse h :: rest : List Task) = agenda at hr
    cases hr with
    | stopping => cases hag
    | clearing pre hp =>
      cases pre with
      | nil => cases hag
      | cons y pre =>
        obtain ⟨rfl, -⟩ := List.cons.inj hag
        cases hp _ (.head _)
    | cancelled hc =>
      rw [hc] at safe
      cases safe

end Course

end Machine

end LiveHighlight
