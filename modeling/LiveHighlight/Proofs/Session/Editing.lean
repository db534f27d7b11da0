import LiveHighlight.Proofs.Document.Edits
import LiveHighlight.Proofs.Session.Disposal

/-!
# Edits are done at one stroke

Between a call that edits a document and the event that tells of it nothing is done. When the event is raised the document has its
new lines (`Machine.Rewrites`), and a call that is refused leaves no trace but the refusal (`Machine.Refuses`). What the new lines
are, and when a call is refused, is a matter of the lines alone (`Buffer.Patches`, `Buffer.annotate_iff`).
-/

namespace LiveHighlight

namespace Machine

/-- Whether a reply was given: the host has it, or the journal shows it under the name of the call. -/
def Tells (m m' : Machine) : Asker → Reply → Prop
  | .host, r => m'.reply = some r ∧ m'.session.journal = m.session.journal
  | .script call, r => m'.reply = m.reply ∧ m'.session.journal = m.session.journal.push (.called call r)

/-- Whether a call was refused: that is told, no document and no watcher is different, and nothing else is to be done, so that no
event is raised. -/
structure Refuses (m m' : Machine) (asker : Asker) (error : DocumentError) : Prop where
  told : m.Tells m' asker (.refused error)
  session : { m'.session with journal := m.session.journal } = m.session
  agenda : m'.agenda = m.agenda

/-- Whether a document got other lines, and what is to be done about it. Its watchers and its error site stay, and so does
everything else. -/
structure Rewrites (m m' : Machine) (id : Nat) (b : Buffer) (tasks : List Task) : Prop where
  document : m'.session.document id = { m.session.document id with buffer := b }
  others : ∀ d ≠ id, m'.session.document d = m.session.document d
  count : m'.session.documents.length = m.session.documents.length
  session : { m'.session with documents := m.session.documents, journal := m.session.journal } = m.session
  agenda : m'.agenda = tasks ++ m.agenda

namespace EditingAux

variable {m m' : Machine} {id : Nat}

theorem tells_answer (hr : m'.reply = m.reply) (hj : m'.session.journal = m.session.journal) (asker : Asker) (r : Reply) :
    m.Tells (m'.answer asker r) asker r := by
  cases asker with
  | host => exact ⟨rfl, hj⟩
  | script call => exact ⟨hr, congrArg (fun journal => journal.push (.called call r)) hj⟩

theorem refuses_answer (m : Machine) (asker : Asker) (error : DocumentError) :
    m.Refuses (m.answer asker (.refused error)) asker error where
  told := tells_answer rfl rfl asker _
  session := by cases asker <;> rfl
  agenda := by cases asker <;> rfl

/-- Giving a document other lines changes nothing else. -/
theorem rewrites_put (hid : id < m.session.documents.length) (b : Buffer) :
    m.Rewrites (m.put (m.session.setBuffer id b)) id b [] where
  document := AttendanceAux.getD_modify_self hid _
  others _ hd := AttendanceAux.getD_modify_ne hd _ _
  count := List.length_modify ..
  session := rfl
  agenda := rfl

/-- Documents that have a name are there. -/
theorem document_lt {past : List Machine} {doc : String} {t : Task} {rest : List Task} (run : Course past m)
    (ha : m.agenda = t :: rest) (hdoc : m.session.names.documents.get? doc = some id) : id < m.session.documents.length :=
  ((DisposalAux.numbered run).resolve_left (not_crashed_of_agenda ha)).docs doc id hdoc

theorem step_onDocument {doc : String} {call : DocumentCall Call} {asker : Asker} {rest : List Task}
    (ha : m.agenda = .call (.onDocument doc call) asker :: rest) (hdoc : m.session.names.documents.get? doc = some id) :
    m.step = { m with agenda := rest }.onDocument asker id call := by
  rw [step_eq ha]
  simp only [run, perform, find, hdoc]

end EditingAux

open EditingAux

variable {past : List Machine} {m : Machine} {doc : String} {id : Nat} {asker : Asker} {rest : List Task}

theorem Rewrites.push {m' : Machine} {b : Buffer} (h : m.Rewrites m' id b []) (tasks : List Task) :
    m.Rewrites (m'.push tasks) id b tasks :=
  { h with agenda := congrArg (tasks ++ ·) h.agenda }

theorem Rewrites.answer {m' : Machine} {b : Buffer} {tasks : List Task} (h : m.Rewrites m' id b tasks) (asker : Asker) (r : Reply) :
    m.Rewrites (m'.answer asker r) id b tasks := by
  cases asker <;> exact { h with }

/-- Whoever asks for an edit, it is refused and nothing else happens, or the document has its new lines and one event is about to
be raised, before the answer and before whatever was to be done. -/
theorem Course.edited (run : Course past m) {e : Edit} (ha : m.agenda = .call (.onDocument doc (.edit e)) asker :: rest)
    (hdoc : m.session.names.documents.get? doc = some id) :
    (∀ error, (m.session.document id).buffer.edit e = .error error →
        { m with agenda := rest }.Refuses m.step asker error) ∧
      ∀ b event, (m.session.document id).buffer.edit e = .ok (b, event) →
        { m with agenda := rest }.Rewrites m.step id b [.raise id event, .answer asker e.reply] := by
  have hstep := step_onDocument ha hdoc
  simp only [onDocument, edit] at hstep
  constructor
  · intro error he
    simp only [he] at hstep
    rw [hstep]
    exact refuses_answer _ asker error
  · intro b event he
    simp only [he] at hstep
    have hid := document_lt run ha hdoc
    rw [hstep]
    exact (rewrites_put (m := { m with agenda := rest }) hid b).push _

/-- Whoever asks for an annotation, it is refused and nothing else happens, or it is added and nothing is told but that. -/
theorem Course.annotated (run : Course past m) {line : Nat} {a : Annotation}
    (ha : m.agenda = .call (.onDocument doc (.annotate line a)) asker :: rest)
    (hdoc : m.session.names.documents.get? doc = some id) :
    (∀ error, (m.session.document id).buffer.annotate line a = .error error →
        { m with agenda := rest }.Refuses m.step asker error) ∧
      ∀ b, (m.session.document id).buffer.annotate line a = .ok b →
        { m with agenda := rest }.Rewrites m.step id b [] ∧ { m with agenda := rest }.Tells m.step asker .accepted := by
  have hstep := step_onDocument ha hdoc
  simp only [onDocument] at hstep
  constructor
  · intro error he
    simp only [he] at hstep
    rw [hstep]
    exact refuses_answer _ asker error
  · intro b he
    simp only [he] at hstep
    have hid := document_lt run ha hdoc
    rw [hstep]
    exact ⟨(rewrites_put (m := { m with agenda := rest }) hid b).answer asker _, tells_answer rfl rfl asker _⟩

end Machine

/-- Edits and annotations are refused exactly where a line is not there, and change the lines that they are addressed to and no
others. Wherever a session has come to and whoever asks for them, a refusal changes nothing, an edit raises exactly one event, at a
moment at which the document has its new lines, and an annotation raises none. -/
theorem edits_atomic :
    (∀ (b : Buffer) (line : Nat) (text : String),
      b.Patches (.setLine line text) line 1 (splitLines text)
          (if (splitLines text).length = 1 then .singleLine else .multiLine) ∧
        b.Patches (.insertLine line text) line 0 (splitLines text) .multiLine ∧
        b.Patches (.removeLine line) line 1 (if b.lineCount = 1 then [""] else []) .multiLine) ∧
    (∀ (b : Buffer) (line : Nat) (a : Annotation),
      (∀ error, b.annotate line a = .error error ↔ b.lineCount ≤ line ∧ error = .lineOutOfRange line b.lineCount) ∧
        ∀ b', b.annotate line a = .ok b' ↔ b.Annotated b' line a) ∧
    ∀ (past : List Machine) (m : Machine), Machine.Course past m →
      ∀ (doc : String) (id : Nat), m.session.names.documents.get? doc = some id → ∀ (asker : Asker) (rest : List Task),
        (∀ e : Edit, m.agenda = .call (.onDocument doc (.edit e)) asker :: rest →
          (∀ error, (m.session.document id).buffer.edit e = .error error →
              { m with agenda := rest }.Refuses m.step asker error) ∧
            ∀ b event, (m.session.document id).buffer.edit e = .ok (b, event) →
              { m with agenda := rest }.Rewrites m.step id b [.raise id event, .answer asker e.reply]) ∧
        ∀ (line : Nat) (a : Annotation), m.agenda = .call (.onDocument doc (.annotate line a)) asker :: rest →
          (∀ error, (m.session.document id).buffer.annotate line a = .error error →
              { m with agenda := rest }.Refuses m.step asker error) ∧
            ∀ b, (m.session.document id).buffer.annotate line a = .ok b →
              { m with agenda := rest }.Rewrites m.step id b [] ∧
                { m with agenda := rest }.Tells m.step asker .accepted := by
  refine ⟨fun b line text => ?_, fun b line a => b.annotate_iff line a, fun past m run doc id hdoc asker rest => ?_⟩
  · exact ⟨b.patches_setLine line text, b.patches_insertLine line text, b.patches_removeLine line⟩
  · exact ⟨fun e ha => run.edited ha hdoc, fun line a ha => run.annotated ha hdoc⟩

namespace Machine.EditingAux

/-- A session in which the second line of a document is annotated. -/
def marked : List Machine × Machine :=
  Machine.talk 8 [.document "notes" "one\ntwo" none, .onDocument "notes" (.annotate 1 ⟨0, 3, .ofNat 1, none⟩)]
    ([], ⟨.new .standard, [], none⟩)

end Machine.EditingAux

open Machine.EditingAux in
/-- A line that is set to two lines moves the annotated one on, and a line that is not there is refused. -/
theorem edits_marked :
    (marked.2.session.document 0).buffer.lines = [⟨"one", []⟩, ⟨"two", [⟨0, 3, .ofNat 1, none⟩]⟩] ∧
      (Machine.ask marked.2.session (.onDocument "notes" (.edit (.setLine 0 "a\r\nb")))).step.agenda =
        [.raise 0 .multiLine, .answer .host .accepted] ∧
      ((Machine.ask marked.2.session (.onDocument "notes" (.edit (.setLine 0 "a\r\nb")))).step.session.document 0).buffer.lines =
        [⟨"a", []⟩, ⟨"b", []⟩, ⟨"two", [⟨0, 3, .ofNat 1, none⟩]⟩] ∧
      (Machine.ask marked.2.session (.onDocument "notes" (.edit (.removeLine 2)))).step.agenda = [] ∧
      (Machine.ask marked.2.session (.onDocument "notes" (.edit (.removeLine 2)))).step.reply =
        some (.refused (.lineOutOfRange 2 2)) := by
  have run : Machine.Course marked.1 marked.2 := (Machine.Course.new .standard).talk 8 _
  have idle : marked.2.Idle := by decide +kernel
  have named : marked.2.session.names.documents.get? "notes" = some 0 := by decide +kernel
  have set : (marked.2.session.document 0).buffer.edit (.setLine 0 "a\r\nb") =
      .ok (⟨[⟨"a", []⟩, ⟨"b", []⟩, ⟨"two", [⟨0, 3, .ofNat 1, none⟩]⟩]⟩, .multiLine) := by decide +kernel
  have refused : (marked.2.session.document 0).buffer.edit (.removeLine 2) = .error (.lineOutOfRange 2 2) := by decide +kernel
  have asked (e : Edit) := (edits_atomic.2.2 _ _ (run.ask (.onDocument "notes" (.edit e)) idle) "notes" 0 named .host []).1 e rfl
  have done := (asked (.setLine 0 "a\r\nb")).2 _ _ set
  have left := (asked (.removeLine 2)).1 _ refused
  exact ⟨by decide +kernel, done.agenda, by rw [done.document], left.agenda, left.told.1⟩

end LiveHighlight
