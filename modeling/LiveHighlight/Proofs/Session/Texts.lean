import LiveHighlight.Proofs.Document.Snapshots
import LiveHighlight.Proofs.Session.Attendance

/-!
# Who changes the text of a document

The text of a document changes only by a call that goes on to tell its watchers (`Page.texts`); whatever else is done to its lines
is done to their annotations. A document never loses its last line, and no line of it ever gets a line feed (`Page.lined`), so its
snapshots show its text whatever was done before (`Buffer.mirrored_always`).
-/

namespace LiveHighlight

namespace Buffer

/-- An edit makes annotations stale. -/
theorem requestsParse_of_edit {b b' : Buffer} {e : Edit} {event : BufferEvent} (he : b.edit e = .ok (b', event)) :
    event.requestsParse = true := by
  cases e <;> simp only [edit] at he
  case load | setText =>
    obtain ⟨-, rfl⟩ := Prod.mk.inj (Except.ok.inj he)
    rfl
  case setLine =>
    split at he
    · obtain ⟨-, rfl⟩ := Prod.mk.inj (Except.ok.inj he)
      split <;> rfl
    · cases he
  case insertLine | removeLine =>
    split at he
    · obtain ⟨-, rfl⟩ := Prod.mk.inj (Except.ok.inj he)
      rfl
    · cases he

end Buffer

/-- Whether every document has lines without line feeds. -/
def Desk.Lined (k : Desk) : Prop := ∀ d < k.documents.length, (k.document d).buffer.Lined

namespace TextAux

variable {s : Session} {t : Task} {k : Desk} {new : List Task} {d id : Nat}

theorem buffer_setBuffer_ne (hne : d ≠ id) (k : Desk) (b : Buffer) :
    ((k.setBuffer id b).document d).buffer = (k.document d).buffer := by
  simp only [Desk.setBuffer, Desk.update, Desk.document, AttendanceAux.getD_modify_ne hne]

theorem buffer_setBuffer_self (hd : d < k.documents.length) (b : Buffer) : ((k.setBuffer d b).document d).buffer = b := by
  simp only [Desk.setBuffer, Desk.update, Desk.document, AttendanceAux.getD_modify_self hd]

theorem buffer_subscribe (k : Desk) (d id : Nat) (subscriptions : Subscriptions Watcher) :
    ((k.subscribe id subscriptions).document d).buffer = (k.document d).buffer := by
  simp only [Desk.subscribe, Desk.update, Desk.document, List.getElem?_modify]
  cases k.documents[d]? with
  | none => rfl
  | some doc => by_cases hid : id = d <;> simp [hid]

/-- Other annotations of the lines leave the texts as they are. -/
theorem texts_setBuffer {b : Buffer} (hd : d < k.documents.length) (hb : b.texts = (k.document id).buffer.texts) :
    ((k.setBuffer id b).document d).buffer.texts = (k.document d).buffer.texts := by
  by_cases hid : d = id
  · subst hid
    rw [buffer_setBuffer_self hd, hb]
  · rw [buffer_setBuffer_ne hid]

theorem document_append (hd : d < s.documents.length) (made : Document) (docs : Directory Nat) :
    Desk.document { s.desk with documents := s.documents ++ [made], docs } d = s.document d := by
  simp only [Desk.document, Session.document]
  rw [List.getElem?_append_left hd]

/-- A page makes at most one document, with a text. -/
theorem document_page (h : Page s t k new) (hd : d < k.documents.length) :
    d < s.documents.length ∨ ∃ text, (k.document d).buffer = .ofText text := by
  have same (hk : k.documents.length = s.documents.length) : d < s.documents.length := hk ▸ hd
  cases h with
  | @document doc text site =>
    rw [List.length_append, List.length_singleton] at hd
    rcases Nat.lt_succ_iff_lt_or_eq.1 hd with hd | rfl
    · exact .inl hd
    · exact .inr ⟨text, by simp [Desk.document]⟩
  | edit | format | write | clear | work | rehearse => exact .inl (same (List.length_modify ..))
  | observe | attach | raise | unobserve | dispose => exact .inl (same (List.length_modify ..))
  | _ => exact .inl hd

end TextAux

open TextAux

/-- A text stays what it is, or a call makes an edit that raises an event. -/
theorem Page.texts {s : Session} {t : Task} {k : Desk} {new : List Task} {d : Nat} (h : Page s t k new)
    (hd : d < s.documents.length) :
    (k.document d).buffer.texts = (s.document d).buffer.texts ∨
      (∃ c asker, t = .call c asker) ∧
        ∃ e event, (s.document d).buffer.edit e = .ok ((k.document d).buffer, event) ∧ .raise d event ∈ new := by
  cases h with
  | document => exact .inl (by rw [document_append hd])
  | @edit doc id e b event asker _ he =>
    by_cases hid : d = id
    · subst hid
      rw [show ((s.desk.setBuffer d b).document d).buffer = b from buffer_setBuffer_self hd b]
      exact .inr ⟨⟨_, _, rfl⟩, e, event, he, .head _⟩
    · exact .inl (by rw [buffer_setBuffer_ne hid]; rfl)
  | format _ _ hb | write _ hb => exact .inl (texts_setBuffer (k := s.desk) hd hb)
  | clear => exact .inl (texts_setBuffer (k := s.desk) hd (Buffer.texts_clear _))
  | work | rehearse => exact .inl (texts_setBuffer (k := s.desk) hd (ParseJob.texts_step ..))
  | observe | attach | raise | unobserve | dispose => exact .inl (congrArg Buffer.texts (buffer_subscribe ..))
  | _ => exact .inl rfl

/-- Documents keep having lines without line feeds. -/
theorem Page.lined {s : Session} {t : Task} {k : Desk} {new : List Task} (hl : s.desk.Lined) (h : Page s t k new) : k.Lined := by
  intro d hd
  rcases document_page h hd with hd | ⟨text, hb⟩
  · rcases h.texts hd with he | ⟨-, e, event, hedit, -⟩
    · exact (hl d hd).congr he
    · exact Buffer.Lined.edit (hl d hd) hedit
  · rw [hb]
    exact Buffer.lined_ofText text

/-- Whatever happens in a session, documents have lines without line feeds. -/
theorem Machine.Course.lined {past : List Machine} {m : Machine} (run : Course past m) : m.session.desk.Lined := by
  induction run with
  | new options => exact fun d hd => absurd hd (Nat.not_lt_zero d)
  | ask c _ _ ih => exact ih
  | @step _ q t rest _ _ ih =>
    rcases run_page { q with agenda := rest } t with hcrash | ⟨new, -, page⟩
    · rw [hcrash]
      exact ih
    · exact page.lined ih

/-- Snapshots show the texts of documents: after whatever edits were tried on whatever text, and wherever a session has come to,
with parses going on and callbacks that edit. -/
theorem Buffer.mirrored_always :
    (∀ (text : String) (edits : List Edit), ((ofText text).revise edits).Mirrored) ∧
      ∀ (past : List Machine) (m : Machine), Machine.Course past m →
        ∀ d < m.session.documents.length, (m.session.document d).buffer.Mirrored := by
  constructor
  · intro text edits
    exact ((lined_ofText text).revise edits).mirrored
  · intro past m run d hd
    exact Lined.mirrored (run.lined d hd)

namespace TextAux

/-- A session in which the only line of a document is taken out, after an edit that is refused. -/
def emptied : List Machine × Machine :=
  Machine.talk 8 [.document "notes" "one" none, .onDocument "notes" (.edit (.setLine 1 "two")),
    .onDocument "notes" (.edit (.removeLine 0))] ([], ⟨.new .standard, [], none⟩)

end TextAux

theorem Buffer.mirrored_emptied :
    ((ofText "one\r\ntwo").revise [.removeLine 7, .setLine 1 "a\n\nb", .removeLine 0]).Mirrored ∧
      ((ofText "one\r\ntwo").revise [.removeLine 7, .setLine 1 "a\n\nb", .removeLine 0]).text = "a\n\nb" ∧
      Machine.Course emptied.1 emptied.2 ∧ (emptied.2.session.document 0).buffer.Mirrored ∧
      (emptied.2.session.document 0).buffer.text = "" := by
  have run : Machine.Course emptied.1 emptied.2 := (Machine.Course.new .standard).talk 8 _
  refine ⟨mirrored_always.1 _ _, by decide +kernel, run, ?_, by decide +kernel⟩
  exact mirrored_always.2 _ _ run 0 (by decide +kernel)

end LiveHighlight
