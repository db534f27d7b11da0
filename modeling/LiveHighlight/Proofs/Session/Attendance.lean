import LiveHighlight.Proofs.Session.Course
import LiveHighlight.Proofs.Session.DocumentChangesOfTasks

/-!
# Handlers attend

A handler that is not disposed of stays subscribed to its document and is never cancelled (`Desk.Attends`). Numbers of
subscriptions and tokens are given once (`Desk.Numbered`), so what others end is never what the handler holds: only a disposal of
the handler itself does that.
-/

namespace LiveHighlight

/-- What is done along a course is a turn and a page, or a crash. -/
theorem Machine.Course.page {past : List Machine} {m : Machine} (run : Course past m) {t : Task} {rest : List Task}
    (ha : m.agenda = t :: rest) :
    ({ m with agenda := rest }.run t).Crashed ∨
      ∃ new, ({ m with agenda := rest }.run t).agenda = new ++ rest ∧
        Turn m.session.office t ({ m with agenda := rest }.run t).session.office new ∧
        Page m.session t ({ m with agenda := rest }.run t).session.desk new := by
  rcases run.turn ha with ⟨hc, -⟩ | ⟨new, hn, hturn, hr⟩
  · exact .inl hc
  · rcases run_page { m with agenda := rest } t with hc | ⟨new', hn', hpage⟩
    · rw [hc] at hr
      exact absurd rfl hr
    · obtain rfl := List.append_cancel_right (hn'.symm.trans hn)
      exact .inr ⟨new', hn, hturn, hpage⟩

/-- A handler after a task: it may be switched on or off, or be disposed of. -/
structure Handler.Later (hd hd' : Handler) : Prop where
  document : hd'.document = hd.document
  grammar : hd'.grammar = hd.grammar
  options : hd'.options = hd.options
  slot : hd'.slot = hd.slot
  token : hd'.token = hd.token
  subscription : hd'.isDisposed = false → hd'.subscription = hd.subscription

theorem Handler.Later.refl (hd : Handler) : hd.Later hd := ⟨rfl, rfl, rfl, rfl, rfl, fun _ => rfl⟩

theorem Handler.Later.trans {hd hd' hd'' : Handler} (h : hd.Later hd') (h' : hd'.Later hd'') : hd.Later hd'' where
  document := h'.document.trans h.document
  grammar := h'.grammar.trans h.grammar
  options := h'.options.trans h.options
  slot := h'.slot.trans h.slot
  token := h'.token.trans h.token
  subscription live := by
    have he := h'.subscription live
    rw [he]
    exact h.subscription (by rwa [Handler.isDisposed, ← he])

/-- A handler that is not disposed of was not before. -/
theorem Handler.Later.live {hd hd' : Handler} (h : hd.Later hd') (live : hd'.isDisposed = false) : hd.isDisposed = false := by
  have he := h.subscription live
  rwa [isDisposed, ← he]

namespace Desk

/-- The document with a number; of numbers not given yet, an empty one. -/
def document (k : Desk) (id : Nat) : Document := k.documents[id]?.getD default

/-- Whether a token is cancelled, or can be: it has a name, or is about to be cancelled. -/
def Exposes (k : Desk) (agenda : List Task) (n : Nat) : Prop :=
  n ∈ k.cancelled ∨ (∃ name token, k.tokens.get? name = some token ∧ token.lineage.head? = some n) ∨
    ∃ token, .cancel token ∈ agenda ∧ token.lineage.head? = some n

/-- Numbers that were given are smaller than the next one, and handlers do not share tokens. -/
structure Numbered (k : Desk) (agenda : List Task) : Prop where
  docs : ∀ name id, k.docs.get? name = some id → id < k.documents.length
  exposed : ∀ n, k.Exposes agenda n → n < k.nextToken
  tokens : ∀ (i : Nat) (hd : Handler), k.handlers[i]? = some hd → ∃ n, hd.token = ⟨[n]⟩ ∧ n < k.nextToken
  apart : ∀ (i j : Nat) (hd other : Handler), k.handlers[i]? = some hd → k.handlers[j]? = some other → hd.token = other.token → i = j
  watching : ∀ id n, (id, n) ∈ k.watching → n < (k.document id).subscriptions.next
  subscribed : ∀ (i : Nat) (hd : Handler) (n : Nat), k.handlers[i]? = some hd → hd.subscription = some n →
    n < (k.document hd.document).subscriptions.next
  /-- Handlers of one document have subscriptions of their own. -/
  separate : ∀ (i j : Nat) (hd other : Handler) (n : Nat), k.handlers[i]? = some hd → k.handlers[j]? = some other →
    hd.document = other.document → hd.subscription = some n → other.subscription = some n → i = j
  /-- Only a handler's annotations are taken off by a task, and only handlers are asked for a parse. -/
  clears : ∀ id, .clear id ∈ agenda → ∃ (i : Nat) (hd : Handler), k.handlers[i]? = some hd ∧ hd.document = id
  requests : ∀ i, .requestParse i ∈ agenda → i < k.handlers.length

/-- Whether a handler is subscribed to its document and not cancelled. -/
structure Attends (k : Desk) (h : Nat) (hd : Handler) (agenda : List Task) : Prop where
  ranged : hd.document < k.documents.length
  subscribed : ∃ n, hd.subscription = some n ∧ (n, .handler h) ∈ (k.document hd.document).subscriptions.entries ∧
    n < (k.document hd.document).subscriptions.next ∧ (hd.document, n) ∉ k.watching
  safe : ∀ n, hd.token = ⟨[n]⟩ → ¬ k.Exposes agenda n

end Desk

namespace AttendanceAux

variable {s : Session} {t : Task} {k : Desk} {rest new : List Task} {d id n : Nat}

theorem getD_modify_ne (h : d ≠ id) (documents : List Document) (f : Document → Document) :
    (documents.modify id f)[d]?.getD default = documents[d]?.getD default := by
  simp [Ne.symm h]

theorem getD_modify_self {documents : List Document} (h : id < documents.length) (f : Document → Document) :
    (documents.modify id f)[id]?.getD default = f (documents[id]?.getD default) := by
  simp [List.getElem?_eq_getElem h]

/-- A change of the buffers leaves the subscriptions alone. -/
theorem subscriptions_setBuffer (k : Desk) (b : Buffer) :
    ((k.setBuffer id b).document d).subscriptions = (k.document d).subscriptions := by
  simp only [Desk.setBuffer, Desk.update, Desk.document, List.getElem?_modify]
  cases k.documents[d]? with
  | none => rfl
  | some doc => by_cases h : id = d <;> simp [h]

/-- Subscriptions to a document that there is. -/
theorem subscriptions_subscribe (k : Desk) (d id : Nat) (subscriptions : Subscriptions Watcher) :
    ((k.subscribe id subscriptions).document d).subscriptions = (k.document d).subscriptions ∨
      d = id ∧ ((k.subscribe id subscriptions).document d).subscriptions = subscriptions := by
  by_cases h : d = id
  · subst h
    by_cases hd : d < k.documents.length
    · refine .inr ⟨rfl, ?_⟩
      simp only [Desk.subscribe, Desk.update, Desk.document, getD_modify_self hd]
    · refine .inl ?_
      simp only [Desk.subscribe, Desk.update, Desk.document]
      rw [List.getElem?_eq_none (by simpa using hd), List.getElem?_eq_none (by simpa using hd)]
  · refine .inl ?_
    simp only [Desk.subscribe, Desk.update, Desk.document, getD_modify_ne h]

/-- Whether a handler of a session is disposed of afterwards. -/
def Ends (s : Session) (k : Desk) (i : Nat) (hd : Handler) : Prop :=
  s.handlers[i]? = some hd ∧ ∀ hd' : Handler, k.handlers[i]? = some hd' → hd'.isDisposed = true

/-- A handler whose subscription is taken away is disposed of. -/
theorem isDisposed_of_modify {handlers : List Handler} {i : Nat} {hd : Handler}
    (hh : (handlers.modify i ({ · with subscription := none }))[i]? = some hd) : hd.isDisposed = true := by
  rw [List.getElem?_modify_eq] at hh
  obtain ⟨hd', -, rfl⟩ := Option.map_eq_some_iff.1 hh
  rfl

/-- What becomes of the subscriptions to a document. -/
theorem subscriptions_page (h : Page s t k new) (d : Nat) :
    (k.document d).subscriptions = (s.document d).subscriptions ∨
      (∃ alive : Watcher → Bool, (∀ i, alive (.handler i) = true) ∧
        (k.document d).subscriptions = (s.document d).subscriptions.prune alive) ∨
      (∃ w, (k.document d).subscriptions = ((s.document d).subscriptions.add w).1) ∨
      ∃ n, (k.document d).subscriptions = ((s.document d).subscriptions.remove n).1 ∧
        ((d, n) ∈ s.desk.watching ∨
          ∃ i hd, Ends s k i hd ∧ hd.document = d ∧ hd.subscription = some n) := by
  cases h with
  | document =>
    refine .inl ?_
    rcases Nat.lt_trichotomy d s.documents.length with hd | hd | hd
    · simp [Desk.document, Session.document, List.getElem?_append_left hd]
    · subst hd
      simp [Desk.document, Session.document]
      rfl
    · simp only [Desk.document, Session.document]
      rw [List.getElem?_eq_none (by simp; omega), List.getElem?_eq_none (by omega)]
  | edit | format | write | clear | work | rehearse => exact .inl (subscriptions_setBuffer _ _)
  | @observe _ _ id _ _ _ _ | @attach _ _ _ _ id =>
    rcases subscriptions_subscribe s.desk d id ((s.document id).subscriptions.add _).1 with hs | ⟨rfl, hs⟩
    · exact .inl hs
    · exact .inr (.inr (.inl ⟨_, hs⟩))
  | @raise id _ alive ha =>
    rcases subscriptions_subscribe s.desk d id ((s.document id).subscriptions.prune alive) with hs | ⟨rfl, hs⟩
    · exact .inl hs
    · exact .inr (.inl ⟨_, ha, hs⟩)
  | @unobserve _ _ o ho =>
    rcases subscriptions_subscribe s.desk d o.document ((s.document o.document).subscriptions.remove o.subscription).1 with
      hs | ⟨rfl, hs⟩
    · exact .inl hs
    · exact .inr (.inr (.inr ⟨_, hs, .inl ho⟩))
  | @dispose i number hd hh hn =>
    rcases subscriptions_subscribe s.desk d hd.document ((s.document hd.document).subscriptions.remove number).1 with
      hs | ⟨rfl, hs⟩
    · exact .inl hs
    · exact .inr (.inr (.inr ⟨_, hs, .inr ⟨i, hd, ⟨hh, fun _ => isDisposed_of_modify⟩, rfl, hn⟩⟩))
  | _ => exact .inl rfl

/-- Numbers of subscriptions are given in increasing order. -/
theorem next_page (h : Page s t k new) (d : Nat) :
    (s.document d).subscriptions.next ≤ (k.document d).subscriptions.next := by
  rcases subscriptions_page h d with hs | ⟨_, -, hs⟩ | ⟨w, hs⟩ | ⟨n, hs, -⟩
  · exact Nat.le_of_eq (congrArg (·.next) hs).symm
  · exact Nat.le_of_eq (congrArg (·.next) hs).symm
  · exact Nat.le_trans (Nat.le_succ _) (Nat.le_of_eq (congrArg (·.next) hs).symm)
  · exact Nat.le_of_eq (congrArg (·.next) hs).symm

/-- Documents are never taken away. -/
theorem length_page (h : Page s t k new) : s.documents.length ≤ k.documents.length := by
  cases h with
  | document => simp
  | edit | format | write | clear | work | rehearse => simp [Desk.setBuffer, Desk.update, Session.desk]
  | observe | attach | raise | unobserve | dispose => simp [Desk.subscribe, Desk.update, Session.desk]
  | _ => exact Nat.le_refl _

theorem docs_page (h : Page s t k new) (hn : ∀ name id, s.names.documents.get? name = some id → id < s.documents.length)
    {name : String} (hd : k.docs.get? name = some id) : id < k.documents.length := by
  have frame (he : k.docs = s.names.documents) : id < k.documents.length :=
    Nat.lt_of_lt_of_le (hn name id (by rw [← he]; exact hd)) (length_page h)
  cases h with
  | document =>
    simp only [Directory.get?_insert] at hd
    split at hd
    · obtain rfl := Option.some.inj hd
      simp
    · have hlt := hn name id hd
      rw [List.length_append]
      exact Nat.lt_add_right _ hlt
  | _ => exact frame rfl

/-- An observer's subscription is new or was there before. -/
theorem watching_page (h : Page s t k new) (hn : ∀ name id, s.names.documents.get? name = some id → id < s.documents.length)
    (hw : (id, n) ∈ k.watching) :
    (id, n) ∈ s.desk.watching ∨
      n = (s.document id).subscriptions.next ∧ n < (k.document id).subscriptions.next := by
  cases h with
  | @observe _ _ document number _ _ hd =>
    rcases List.mem_append.1 hw with hw | hw
    · exact .inl hw
    · obtain ⟨rfl, rfl⟩ := Prod.mk.inj (List.mem_singleton.1 hw)
      refine .inr ⟨rfl, ?_⟩
      have hs := getD_modify_self (hn _ _ hd)
        ({ · with subscriptions := ((s.document id).subscriptions.add (.observer number)).1 })
      simp only [Desk.subscribe, Desk.update, Desk.document, Session.desk, hs]
      exact Nat.lt_succ_self _
  | _ => exact .inl hw

/-- A handler after a page is the one that it was, or was attached by the page. -/
theorem handler_page (h : Page s t k new) {i : Nat} {hd' : Handler} (hh : k.handlers[i]? = some hd') :
    (∃ hd, s.handlers[i]? = some hd ∧ hd.Later hd') ∨
      i = s.handlers.length ∧ hd'.slot = s.scheduler.slots.length ∧ hd'.token = ⟨[s.nextToken]⟩ ∧
        k.nextToken = s.nextToken + 1 ∧ ∃ name plan asker, t = .call (.handler name plan) asker := by
  have same {hd : Handler} (hs : s.handlers[i]? = some hd) : ∃ hd', s.handlers[i]? = some hd' ∧ hd'.Later hd :=
    ⟨hd, hs, .refl hd⟩
  have modified {j : Nat} {change : Handler → Handler} (hh : (s.handlers.modify j change)[i]? = some hd')
      (later : ∀ hd : Handler, hd.Later (change hd)) : ∃ hd, s.handlers[i]? = some hd ∧ hd.Later hd' := by
    rw [List.getElem?_modify] at hh
    obtain ⟨hd, hs, rfl⟩ := Option.map_eq_some_iff.1 hh
    refine ⟨hd, hs, ?_⟩
    split
    · exact later hd
    · exact .refl hd
  cases h with
  | attach =>
    rcases Nat.lt_trichotomy i s.handlers.length with hi | rfl | hi
    · rw [List.getElem?_append_left hi] at hh
      exact .inl (same hh)
    · simp only [List.getElem?_append_right (Nat.le_refl _), Nat.sub_self, List.getElem?_cons_zero, Option.some.injEq] at hh
      subst hh
      exact .inr ⟨rfl, rfl, rfl, rfl, _, _, _, rfl⟩
    · rw [List.getElem?_eq_none (by simp; omega)] at hh
      cases hh
  | enable => exact .inl (modified hh fun _ => ⟨rfl, rfl, rfl, rfl, rfl, fun _ => rfl⟩)
  | dispose => exact .inl (modified hh fun _ => ⟨rfl, rfl, rfl, rfl, rfl, fun live => by cases live⟩)
  | _ => exact .inl (same hh)

/-- The subscription of a handler was its own before, or is new. -/
theorem subscription_page (h : Page s t k new) (hdocs : ∀ name id, s.names.documents.get? name = some id → id < s.documents.length)
    {i : Nat} {hd' : Handler} (hh : k.handlers[i]? = some hd') (hn : hd'.subscription = some n) :
    (∃ hd, s.handlers[i]? = some hd ∧ hd.document = hd'.document ∧ hd.subscription = some n) ∨
      i = s.handlers.length ∧ n = (s.document hd'.document).subscriptions.next ∧
        n < (k.document hd'.document).subscriptions.next := by
  rcases handler_page h hh with ⟨hd, hs, later⟩ | ⟨rfl, -⟩
  · have live : hd'.isDisposed = false := by simp [Handler.isDisposed, hn]
    exact .inl ⟨hd, hs, later.document.symm, (later.subscription live).symm.trans hn⟩
  · cases h with
    | @attach _ _ _ _ document _ _ hd =>
      simp only [List.getElem?_append_right (Nat.le_refl _), Nat.sub_self, List.getElem?_cons_zero, Option.some.injEq] at hh
      subst hh
      obtain rfl := Option.some.inj hn
      refine .inr ⟨rfl, rfl, ?_⟩
      have hs := getD_modify_self (hdocs _ _ hd)
        ({ · with subscriptions := ((s.document document).subscriptions.add (.handler s.handlers.length)).1 })
      simp only [Desk.subscribe, Desk.update, Desk.document, Session.desk, hs]
      exact Nat.lt_succ_self _
    | enable | dispose =>
      rw [List.getElem?_eq_none (by simp)] at hh
      cases hh
    | _ =>
      rw [show Desk.handlers _ = s.handlers from rfl, List.getElem?_eq_none (Nat.le_refl _)] at hh
      cases hh

/-- A token that is cancelled, or can be, was so before, or is new, or a handler that held it was disposed of. -/
theorem exposes_page (h : Page s t k new) (he : k.Exposes (new ++ rest) n) :
    s.desk.Exposes (t :: rest) n ∨ n = s.nextToken ∧ k.nextToken = s.nextToken + 1 ∨
      ∃ i hd, Ends s k i hd ∧ hd.token.lineage.head? = some n := by
  have frame (hc : k.cancelled = s.cancelled) (ht : k.tokens = s.names.tokens) (hn : ∀ token, .cancel token ∉ new) :
      s.desk.Exposes (t :: rest) n := by
    rcases he with he | ⟨name, token, hg, hl⟩ | ⟨token, hm, hl⟩
    · rw [hc] at he
      exact .inl he
    · rw [ht] at hg
      exact .inr (.inl ⟨name, token, hg, hl⟩)
    · rcases List.mem_append.1 hm with hm | hm
      · exact absurd hm (hn token)
      · exact .inr (.inr ⟨token, .tail _ hm, hl⟩)
  have mute (hn : ∀ x ∈ new, x.isMute = true) (token : CancelToken) : .cancel token ∉ new := by
    intro hx
    cases hn _ hx
  cases h with
  | quiet _ hn | notifyObserver hn => exact .inl (frame rfl rfl (mute hn))
  | pass hn =>
    refine .inl (frame rfl rfl ?_)
    intro token
    rcases hn with rfl | ⟨d, rfl⟩ | ⟨r', rfl⟩ <;> simp
  | work | rehearse =>
    refine .inl (frame rfl rfl ?_)
    intro token
    simp only [JobStep.tells, List.mem_append, List.mem_map, List.mem_singleton, reduceCtorEq, and_false, exists_false,
      false_or, or_false]
    split <;> simp
  | enable =>
    refine .inl (frame rfl rfl ?_)
    intro token
    split <;> simp
  | attach => exact .inl (frame rfl rfl fun token => by simp)
  | cancelCall ht =>
    refine .inl ?_
    rcases he with he | ⟨name, token, hg, hl⟩ | ⟨token, hm, hl⟩
    · rcases List.mem_append.1 he with he | he
      · exact .inr (.inl ⟨_, _, ht, Option.mem_toList.1 he⟩)
      · exact .inl he
    · exact .inr (.inl ⟨name, token, hg, hl⟩)
    · exact .inr (.inr ⟨token, .tail _ hm, hl⟩)
  | cancel =>
    refine .inl ?_
    rcases he with he | ⟨name, token, hg, hl⟩ | ⟨token, hm, hl⟩
    · rcases List.mem_append.1 he with he | he
      · exact .inr (.inr ⟨_, .head _, Option.mem_toList.1 he⟩)
      · exact .inl he
    · exact .inr (.inl ⟨name, token, hg, hl⟩)
    · exact .inr (.inr ⟨token, .tail _ hm, hl⟩)
  | token =>
    rcases he with he | ⟨name, token, hg, hl⟩ | ⟨token, hm, hl⟩
    · exact .inl (.inl he)
    · simp only [Directory.get?_insert] at hg
      split at hg
      · obtain rfl := Option.some.inj hg
        exact .inr (.inl ⟨(Option.some.inj hl).symm, rfl⟩)
      · exact .inl (.inr (.inl ⟨name, token, hg, hl⟩))
    · exact .inl (.inr (.inr ⟨token, .tail _ hm, hl⟩))
  | dispose hh hs =>
    rcases he with he | ⟨name, token, hg, hl⟩ | ⟨token, hm, hl⟩
    · exact .inl (.inl he)
    · exact .inl (.inr (.inl ⟨name, token, hg, hl⟩))
    · simp only [List.cons_append, List.nil_append, List.mem_cons, reduceCtorEq, false_or, Task.cancel.injEq] at hm
      rcases hm with rfl | hm
      · exact .inr (.inr ⟨_, _, ⟨hh, fun _ => isDisposed_of_modify⟩, hl⟩)
      · exact .inl (.inr (.inr ⟨token, .tail _ hm, hl⟩))
  | _ => exact .inl (frame rfl rfl fun token => by simp)

/-- Handlers are never taken away. -/
theorem later_page (h : Page s t k new) {i : Nat} {hd : Handler} (hh : s.handlers[i]? = some hd) :
    ∃ hd', k.handlers[i]? = some hd' ∧ hd.Later hd' := by
  have hlt : i < s.handlers.length := (List.getElem?_eq_some_iff.1 hh).1
  have hle : s.handlers.length ≤ k.handlers.length := by
    cases h with
    | attach | enable | dispose => simp
    | _ => exact Nat.le_refl _
  obtain ⟨hd', hh'⟩ : ∃ hd', k.handlers[i]? = some hd' := ⟨_, List.getElem?_eq_getElem (Nat.lt_of_lt_of_le hlt hle)⟩
  refine ⟨hd', hh', ?_⟩
  rcases handler_page h hh' with ⟨hd'', hs, hl⟩ | ⟨rfl, -⟩
  · rw [hh] at hs
    obtain rfl := Option.some.inj hs
    exact hl
  · exact absurd hlt (Nat.lt_irrefl _)

theorem nextToken_page (h : Page s t k new) : s.nextToken ≤ k.nextToken := by
  cases h with
  | mint | token | attach => exact Nat.le_succ _
  | _ => exact Nat.le_refl _

/-- What a step of a parse worker leaves to be done. -/
theorem mem_stepped {document : Nat} {result : JobStep} {last x : Task} (hx : x ∈ result.tells document ++ [last]) :
    (∃ message, x = .complain document "parser" message) ∨ x = .raise document .formatted ∨ x = last := by
  rcases List.mem_append.1 hx with hx | hx
  · rcases JobStep.mem_tells hx with ⟨message, -, rfl⟩ | rfl
    · exact .inl ⟨message, rfl⟩
    · exact .inr (.inl rfl)
  · exact .inr (.inr (List.mem_singleton.1 hx))

/-- Only the annotations of a handler's document are taken off later. -/
theorem clears_page (h : Page s t k new) (hx : .clear id ∈ new) :
    ∃ (i : Nat) (hd : Handler), s.handlers[i]? = some hd ∧ hd.document = id := by
  cases h with
  | quiet _ hn | notifyObserver hn => cases hn _ hx
  | pass hn => rcases hn with rfl | ⟨d, rfl⟩ | ⟨r', rfl⟩ <;> simp at hx
  | work | rehearse => rcases mem_stepped hx with ⟨message, hx⟩ | hx | hx <;> cases hx
  | enable _ hh =>
    refine ⟨_, _, hh, ?_⟩
    split at hx <;> simp at hx
    exact hx.symm
  | _ => simp at hx

/-- Only handlers that there are are asked for a parse. -/
theorem requests_page (h : Page s t k new) {i : Nat} (hx : .requestParse i ∈ new) : i < s.handlers.length := by
  have lt {i : Nat} {hd : Handler} (hh : s.handlers[i]? = some hd) : i < s.handlers.length :=
    (List.getElem?_eq_some_iff.1 hh).1
  cases h with
  | quiet _ hn | notifyObserver hn => cases hn _ hx
  | pass hn => rcases hn with rfl | ⟨d, rfl⟩ | ⟨r', rfl⟩ <;> simp at hx
  | work | rehearse => rcases mem_stepped hx with ⟨message, hx⟩ | hx | hx <;> cases hx
  | enable _ hh =>
    split at hx <;> simp at hx
    exact hx ▸ lt hh
  | reparse _ hh | notifyHandler hh =>
    simp at hx
    exact hx ▸ lt hh
  | _ => simp at hx

end AttendanceAux

open AttendanceAux

namespace Desk

theorem numbered_new (options : SchedulerOptions) : (Session.new options).desk.Numbered [] where
  docs name id hd := by cases hd
  exposed n he := by
    rcases he with he | ⟨name, token, hg, -⟩ | ⟨token, hm, -⟩
    · cases he
    · cases hg
    · cases hm
  tokens i hd hh := by simp [Session.desk, Session.new] at hh
  apart i j hd other hh := by simp [Session.desk, Session.new] at hh
  watching id n hw := by simp [Session.desk, Session.new] at hw
  subscribed i hd n hh := by simp [Session.desk, Session.new] at hh
  separate i j hd other n hh := by simp [Session.desk, Session.new] at hh
  clears id hx := by cases hx
  requests i hx := by cases hx

/-- What the host asks gives no numbers. -/
theorem Numbered.call {k : Desk} (h : k.Numbered []) (c : Call) : k.Numbered [.call c .host] where
  docs := h.docs
  exposed n he := by
    refine h.exposed n ?_
    rcases he with he | he | ⟨token, hm, -⟩
    · exact .inl he
    · exact .inr (.inl he)
    · simp at hm
  tokens := h.tokens
  apart := h.apart
  watching := h.watching
  subscribed := h.subscribed
  separate := h.separate
  clears id hx := by simp at hx
  requests i hx := by simp at hx

end Desk

/-- A page keeps what is known of numbers. -/
theorem Page.numbered {s : Session} {t : Task} {k : Desk} {rest new : List Task} (hn : s.desk.Numbered (t :: rest))
    (h : Page s t k new) : k.Numbered (new ++ rest) where
  docs name id hd := docs_page h hn.docs hd
  exposed n he := by
    have hle := nextToken_page h
    rcases exposes_page h he with he | ⟨rfl, hk⟩ | ⟨i, hd, ⟨hh, -⟩, hl⟩
    · have hlt : n < s.nextToken := hn.exposed n he
      omega
    · omega
    · obtain ⟨n', ht, hlt⟩ := hn.tokens i hd hh
      rw [ht] at hl
      obtain rfl := Option.some.inj hl
      exact Nat.lt_of_lt_of_le hlt hle
  tokens i hd hh := by
    rcases handler_page h hh with ⟨hd', hs, hl⟩ | ⟨-, -, ht, hk, -⟩
    · obtain ⟨n, ht, hlt⟩ := hn.tokens i hd' hs
      exact ⟨n, hl.token.trans ht, Nat.lt_of_lt_of_le hlt (nextToken_page h)⟩
    · exact ⟨s.nextToken, ht, by omega⟩
  apart i j hd other hh ho he := by
    -- a token that is new is not the token of a handler that was there before
    have fresh {i : Nat} {hd : Handler} (hs : s.handlers[i]? = some hd) : hd.token ≠ ⟨[s.nextToken]⟩ := by
      intro ht
      obtain ⟨n, ht', hlt⟩ := hn.tokens i hd hs
      rw [ht'] at ht
      have hlt' : n < s.nextToken := hlt
      simp at ht
      omega
    rcases handler_page h hh with ⟨hd', hs, hl⟩ | ⟨rfl, -, ht, -⟩
    · rcases handler_page h ho with ⟨other', hs', hl'⟩ | ⟨rfl, -, ht', -⟩
      · exact hn.apart i j hd' other' hs hs' (by rw [← hl.token, he, hl'.token])
      · exact absurd (by rw [← hl.token, he, ht']) (fresh hs)
    · rcases handler_page h ho with ⟨other', hs', hl'⟩ | ⟨rfl, -⟩
      · exact absurd (by rw [← hl'.token, ← he, ht]) (fresh hs')
      · rfl
  watching id n hw := by
    rcases watching_page h hn.docs hw with hw | ⟨-, hlt⟩
    · exact Nat.lt_of_lt_of_le (hn.watching id n hw) (next_page h id)
    · exact hlt
  subscribed i hd n hh hs := by
    rcases subscription_page h hn.docs hh hs with ⟨hd', hh', hdoc, hs'⟩ | ⟨-, -, hlt⟩
    · exact hdoc ▸ Nat.lt_of_lt_of_le (hn.subscribed i hd' n hh' hs') (next_page h _)
    · exact hlt
  separate i j hd other n hh ho hdoc hs hs' := by
    -- a number that is given now was not given to a handler of the document before
    have fresh {i : Nat} {hd : Handler} (hh : s.handlers[i]? = some hd) (hs : hd.subscription = some n) :
        n ≠ (s.document hd.document).subscriptions.next := by
      rintro rfl
      exact Nat.lt_irrefl _ (hn.subscribed i hd _ hh hs)
    rcases subscription_page h hn.docs hh hs with ⟨hd₀, hh₀, hdoc₀, hs₀⟩ | ⟨rfl, hnew, -⟩
    · rcases subscription_page h hn.docs ho hs' with ⟨other₀, ho₀, hdoc₁, hs₁⟩ | ⟨-, hnew, -⟩
      · exact hn.separate i j hd₀ other₀ n hh₀ ho₀ (hdoc₀.trans (hdoc.trans hdoc₁.symm)) hs₀ hs₁
      · rw [← hdoc, ← hdoc₀] at hnew
        exact absurd hnew (fresh hh₀ hs₀)
    · rcases subscription_page h hn.docs ho hs' with ⟨other₀, ho₀, hdoc₁, hs₁⟩ | ⟨rfl, -⟩
      · rw [hdoc, ← hdoc₁] at hnew
        exact absurd hnew (fresh ho₀ hs₁)
      · rfl
  clears id hx := by
    have old : ∃ (i : Nat) (hd : Handler), s.handlers[i]? = some hd ∧ hd.document = id := by
      rcases List.mem_append.1 hx with hx | hx
      · exact clears_page h hx
      · exact hn.clears id (.tail _ hx)
    obtain ⟨i, hd, hh, rfl⟩ := old
    obtain ⟨hd', hh', hl⟩ := later_page h hh
    exact ⟨i, hd', hh', hl.document⟩
  requests i hx := by
    have old : i < s.handlers.length := by
      rcases List.mem_append.1 hx with hx | hx
      · exact requests_page h hx
      · exact hn.requests i (.tail _ hx)
    obtain ⟨hd', hh', -⟩ := later_page h (List.getElem?_eq_getElem old)
    exact (List.getElem?_eq_some_iff.1 hh').1

/-- Whether a document has no other handler. -/
def Desk.Sole (k : Desk) (h d : Nat) : Prop := ∀ (i : Nat) (hd : Handler), k.handlers[i]? = some hd → hd.document = d → i = h

theorem Page.sole {s : Session} {t : Task} {k : Desk} {new : List Task} (h : Page s t k new) {i d : Nat}
    (hk : k.Sole i d) : s.desk.Sole i d := by
  intro j hd hh he
  obtain ⟨hd', hh', hl⟩ := later_page h hh
  exact hk j hd' hh' (hl.document.trans he)

/-- A handler attends for as long as it is not disposed of. -/
theorem Page.attends {s : Session} {t : Task} {k : Desk} {rest new : List Task} (hn : s.desk.Numbered (t :: rest))
    {i : Nat} {hd hd' : Handler} (hh : s.handlers[i]? = some hd) (hh' : k.handlers[i]? = some hd') (hl : hd.Later hd')
    (live : hd'.isDisposed = false) (ha : s.desk.Attends i hd (t :: rest)) (h : Page s t k new) : k.Attends i hd' (new ++ rest) where
  ranged := hl.document ▸ Nat.lt_of_lt_of_le ha.ranged (length_page h)
  subscribed := by
    obtain ⟨n, hs, he, hlt, hw⟩ := ha.subscribed
    rw [hl.document]
    refine ⟨n, (hl.subscription live).trans hs, ?_, Nat.lt_of_lt_of_le hlt (next_page h _), ?_⟩
    · rcases subscriptions_page h hd.document with hk | ⟨alive, hall, hk⟩ | ⟨w, hk⟩ | ⟨n', hk, hend⟩ <;> rw [hk]
      · exact he
      · exact List.mem_filter.2 ⟨he, hall i⟩
      · exact List.mem_append_left _ he
      · refine List.mem_filter.2 ⟨he, ?_⟩
        have hne : n ≠ n' := by
          rintro rfl
          rcases hend with hw' | ⟨j, other, ⟨ho, hend⟩, hdoc, hs'⟩
          · exact hw hw'
          · obtain rfl := hn.separate j i other hd n ho hh hdoc hs' hs
            rw [hend _ hh'] at live
            cases live
        simpa using hne
    · intro hw'
      rcases watching_page h hn.docs hw' with hw' | ⟨rfl, -⟩
      · exact hw hw'
      · exact absurd hlt (Nat.lt_irrefl _)
  safe n ht he := by
    rw [hl.token] at ht
    obtain ⟨n', ht', hlt⟩ := hn.tokens i hd hh
    rw [ht] at ht'
    obtain rfl : n = n' := by simpa using ht'
    rcases exposes_page h he with he | ⟨rfl, -⟩ | ⟨j, other, ⟨ho, hend⟩, hhead⟩
    · exact ha.safe n ht he
    · exact absurd hlt (Nat.lt_irrefl _)
    · obtain ⟨n', hto, -⟩ := hn.tokens j other ho
      rw [hto] at hhead
      obtain rfl := Option.some.inj hhead
      obtain rfl := hn.apart i j hd other hh ho (ht.trans hto.symm)
      rw [hend _ hh'] at live
      cases live

/-- A handler that is attached attends. -/
theorem Page.attends_new {s : Session} {t : Task} {k : Desk} {rest new : List Task} (hn : s.desk.Numbered (t :: rest))
    {i : Nat} {hd : Handler} (hh : s.handlers[i]? = none) (hh' : k.handlers[i]? = some hd) (h : Page s t k new) :
    k.Attends i hd (new ++ rest) := by
  have absent (hk : k.handlers = s.handlers) : False := by
    rw [hk, hh] at hh'
    cases hh'
  have hlast := handler_page h hh'
  cases h with
  | @attach _ doc _ _ document g o hd =>
    obtain rfl : i = s.handlers.length := by
      rcases hlast with ⟨hd', hs, -⟩ | ⟨rfl, -⟩
      · rw [hh] at hs
        cases hs
      · rfl
    simp only [List.getElem?_append_right (Nat.le_refl _), Nat.sub_self, List.getElem?_cons_zero, Option.some.injEq] at hh'
    subst hh'
    have hrange : document < s.documents.length := hn.docs _ _ hd
    have hsub := getD_modify_self hrange
      ({ · with subscriptions := ((s.document document).subscriptions.add (.handler s.handlers.length)).1 })
    refine ⟨?_, ⟨(s.document document).subscriptions.next, rfl, ?_, ?_, ?_⟩, ?_⟩
    · simpa [Desk.subscribe, Desk.update, Session.desk] using hrange
    · simp only [Desk.subscribe, Desk.update, Desk.document, Session.desk, hsub]
      exact List.mem_append_right _ (.head _)
    · simp only [Desk.subscribe, Desk.update, Desk.document, Session.desk, hsub]
      exact Nat.lt_succ_self _
    · intro hw
      exact absurd (hn.watching _ _ hw) (Nat.lt_irrefl _)
    · intro n ht he
      obtain rfl : s.nextToken = n := by simpa using ht
      have old : ¬ s.desk.Exposes (.call (.handler _ _) _ :: rest) s.nextToken := fun he => Nat.lt_irrefl _ (hn.exposed _ he)
      rcases he with he | ⟨name, token, hg, hl⟩ | ⟨token, hm, hl⟩
      · exact old (.inl he)
      · exact old (.inr (.inl ⟨name, token, hg, hl⟩))
      · rcases List.mem_append.1 hm with hm | hm
        · simp at hm
        · exact old (.inr (.inr ⟨token, .tail _ hm, hl⟩))
  | enable | dispose =>
    rw [List.getElem?_modify, hh] at hh'
    cases hh'
  | _ => exact (absent rfl).elim

end LiveHighlight
