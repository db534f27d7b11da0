import LiveHighlight.Proofs.Highlight.Progress
import LiveHighlight.Session.Run

/-!
# What a task does to documents and handlers

The other side of a session beside its work: documents and who watches them, handlers, and the tokens by which parses are
cancelled. `Desk` is the part of a session that these matters depend on, and `Page` lists what a task can do to it, one
constructor for each kind of change, together with the tasks that it leaves. It is to documents and handlers what `Turn` is to
slots and workers.
-/

namespace LiveHighlight

/-- What the documents and handlers of a session depend on. -/
structure Desk where
  documents : List Document
  /-- The documents that have a name. -/
  docs : Directory Nat
  /-- The document and the number of the subscription of each observer. -/
  watching : List (Nat × Nat)
  handlers : List Handler
  cancelled : List Nat
  nextToken : Nat
  /-- The tokens that have a name. -/
  tokens : Directory CancelToken

/-- The part of a session that its documents and handlers depend on. -/
def Session.desk (s : Session) : Desk :=
  ⟨s.documents, s.names.documents, s.observers.map fun o => (o.document, o.subscription), s.handlers, s.cancelled, s.nextToken,
    s.names.tokens⟩

namespace Desk

/-- Changes a document. -/
def update (k : Desk) (id : Nat) (f : Document → Document) : Desk := { k with documents := k.documents.modify id f }

/-- Gives a document other lines. -/
def setBuffer (k : Desk) (id : Nat) (b : Buffer) : Desk := k.update id ({ · with buffer := b })

/-- Gives a document other subscriptions. -/
def subscribe (k : Desk) (id : Nat) (subscriptions : Subscriptions Watcher) : Desk := k.update id ({ · with subscriptions })

end Desk

/-- Whether a task tells nobody of a change, asks for no parse, takes off no annotations, and ends no handler and no token. -/
def Task.isMute : Task → Bool
  | .raise .. | .deliver .. | .notify .. | .clear _ | .requestParse _ | .dispose _ | .cancel _ => false
  | _ => true

/-- Whether a task has nothing to do with documents and handlers, and is no round. -/
def Task.isStill : Task → Bool
  | .round _ => false
  | t => t.isMute

/-- Whether a call on a document writes annotations or takes them off. -/
def DocumentCall.isFormatting {κ : Type} : DocumentCall κ → Bool
  | .clear | .annotate .. => true
  | _ => false

/-- What a step of a parse worker leaves to be told. -/
def JobStep.tells (document : Nat) (result : JobStep) : List Task :=
  result.complaint.toList.map (.complain document "parser") ++ (if result.announces then [.raise document .formatted] else [])

theorem JobStep.mem_tells {document : Nat} {result : JobStep} {x : Task} (h : x ∈ result.tells document) :
    (∃ message, result.complaint = some message ∧ x = .complain document "parser" message) ∨ x = .raise document .formatted := by
  rcases List.mem_append.1 h with hx | hx
  · obtain ⟨message, hm, rfl⟩ := List.mem_map.1 hx
    exact .inl ⟨message, Option.mem_toList.1 hm, rfl⟩
  · split at hx
    · exact .inr (List.mem_singleton.1 hx)
    · cases hx

/-- What a task does to documents and handlers, and the tasks that it leaves. -/
inductive Page (s : Session) : Task → Desk → List Task → Prop where
  /-- Nothing. -/
  | quiet {t : Task} {new : List Task} (ht : t.isStill = true) (hn : ∀ x ∈ new, x.isMute = true) : Page s t s.desk new
  /-- A document is made. -/
  | document {doc text : String} {site : Option (List Call)} {asker : Asker} :
      Page s (.call (.document doc text site) asker)
        { s.desk with
          documents := s.documents ++ [⟨.ofText text, .empty, site⟩], docs := s.names.documents.insert doc s.documents.length }
        []
  /-- A document is edited. -/
  | edit {doc : String} {id : Nat} {e : Edit} {b : Buffer} {event : BufferEvent} {asker : Asker}
      (hd : s.names.documents.get? doc = some id) (he : (s.document id).buffer.edit e = .ok (b, event)) :
      Page s (.call (.onDocument doc (.edit e)) asker) (s.desk.setBuffer id b) [.raise id event, .answer asker e.reply]
  /-- The host writes annotations or takes them off. -/
  | format {doc : String} {id : Nat} {call : DocumentCall Call} {b : Buffer} {asker : Asker}
      (hd : s.names.documents.get? doc = some id) (hf : call.isFormatting = true) (hb : b.texts = (s.document id).buffer.texts) :
      Page s (.call (.onDocument doc call) asker) (s.desk.setBuffer id b) []
  /-- A sink writes an annotation. -/
  | write {name : String} {id : Nat} {sink : Sink} {call : SinkCall} {b : Buffer} {asker : Asker}
      (hs : s.names.sinks.get? name = some (id, sink)) (hb : b.texts = (s.document id).buffer.texts) :
      Page s (.call (.onSink name call) asker) (s.desk.setBuffer id b) []
  /-- The host raises an event. -/
  | raiseCall {doc : String} {id : Nat} {event : BufferEvent} {asker : Asker} :
      Page s (.call (.onDocument doc (.raise event)) asker) s.desk [.raise id event, .answer asker .done]
  /-- An observer subscribes. -/
  | observe {doc observer : String} {id number : Nat} {reaction : Reaction Call} {asker : Asker}
      (hd : s.names.documents.get? doc = some id) :
      Page s (.call (.onDocument doc (.observe observer reaction)) asker)
        { s.desk.subscribe id ((s.document id).subscriptions.add (.observer number)).1 with
          watching := s.desk.watching ++ [(id, (s.document id).subscriptions.next)] } []
  /-- An observer's subscription ends. -/
  | unobserve {name : String} {asker : Asker} {o : Observer} (ho : (o.document, o.subscription) ∈ s.desk.watching) :
      Page s (.call (.unobserve name) asker)
        (s.desk.subscribe o.document ((s.document o.document).subscriptions.remove o.subscription).1) []
  /-- A token is made that gets no name. -/
  | mint {c : Call} {asker : Asker} : Page s (.call c asker) { s.desk with nextToken := s.nextToken + 1 } []
  /-- A token is made that gets a name. -/
  | token {name : String} {parent : Option String} {parents : List Nat} {asker : Asker} :
      Page s (.call (.token name parent) asker)
        { s.desk with nextToken := s.nextToken + 1, tokens := s.names.tokens.insert name ⟨s.nextToken :: parents⟩ } []
  /-- The host cancels a token. -/
  | cancelCall {name : String} {asker : Asker} {token : CancelToken} (ht : s.names.tokens.get? name = some token) :
      Page s (.call (.cancel name) asker) { s.desk with cancelled := token.lineage.head?.toList ++ s.cancelled } []
  /-- A handler is attached to a document. -/
  | attach {name doc : String} {plan : HandlerPlan String} {asker : Asker} {document : Nat} {g : Grammar} {o : ParseOptions}
      (hd : s.names.documents.get? doc = some document) :
      Page s (.call (.handler name plan) asker)
        { s.desk.subscribe document ((s.document document).subscriptions.add (.handler s.handlers.length)).1 with
          handlers := s.handlers ++ [⟨document, g, o, s.scheduler.slots.length, true,
            some (s.document document).subscriptions.next, ⟨[s.nextToken]⟩⟩]
          nextToken := s.nextToken + 1 }
        ((s.names.handlers.get? name).toList.map .dispose ++ [.answer asker (.handler g.name o)])
  /-- A handler is enabled or disabled. -/
  | enable {name : String} {id : Nat} {h : Handler} {on : Bool} {asker : Asker} (hn : s.names.handlers.get? name = some id)
      (hh : s.handlers[id]? = some h) :
      Page s (.call (.onHandler name (.enable on)) asker)
        { s.desk with handlers := s.handlers.modify id ({ · with enabled := on }) }
        ((if on then [.requestParse id] else [.stop h.slot, .clear h.document, .raise h.document .formatted]) ++
          [.answer asker .done])
  /-- A handler that is enabled is asked for a parse. -/
  | reparse {name : String} {id : Nat} {h : Handler} {asker : Asker} (hn : s.names.handlers.get? name = some id)
      (hh : s.handlers[id]? = some h) (he : h.enabled = true) :
      Page s (.call (.onHandler name .reparse) asker) s.desk [.requestParse id, .answer asker .done]
  /-- The host disposes of a handler. -/
  | disposeCall {c : Call} {id : Nat} {asker : Asker} {r : Reply} : Page s (.call c asker) s.desk [.dispose id, .answer asker r]
  /-- The watchers of a document that are alive are to be told; handlers always are. -/
  | raise {id : Nat} {event : BufferEvent} {alive : Watcher → Bool} (ha : ∀ i, alive (.handler i) = true) :
      Page s (.raise id event) (s.desk.subscribe id ((s.document id).subscriptions.prune alive))
        [.deliver event none ((s.document id).subscriptions.prune alive).watchers]
  /-- All watchers are told. -/
  | delivered {event : BufferEvent} {told : Option Watcher} : Page s (.deliver event told []) s.desk []
  /-- The next watcher is told. -/
  | deliver {event : BufferEvent} {told : Option Watcher} {w : Watcher} {rest : List Watcher} :
      Page s (.deliver event told (w :: rest)) s.desk [.notify w event, .deliver event (some w) rest]
  /-- An observer is told. -/
  | notifyObserver {id : Nat} {event : BufferEvent} {new : List Task} (hn : ∀ x ∈ new, x.isMute = true) :
      Page s (.notify (.observer id) event) s.desk new
  /-- A handler is told that has nothing to do. -/
  | notifyIdle {id : Nat} {event : BufferEvent}
      (hi : ∀ h, s.handlers[id]? = some h → ¬ (h.enabled = true ∧ event.requestsParse = true)) :
      Page s (.notify (.handler id) event) s.desk []
  /-- A handler is told and asks for a parse. -/
  | notifyHandler {id : Nat} {event : BufferEvent} {h : Handler} (hh : s.handlers[id]? = some h) (he : h.enabled = true) :
      Page s (.notify (.handler id) event) s.desk [.requestParse id]
  /-- All annotations are taken off. -/
  | clear {id : Nat} : Page s (.clear id) (s.desk.setBuffer id (s.document id).buffer.clear) []
  /-- No parse is begun. -/
  | requestNothing {id : Nat} (hi : ∀ h, s.handlers[id]? = some h → s.isCancelled h.token = true) :
      Page s (.requestParse id) s.desk []
  /-- A parse of the text as it is now is queued. -/
  | request {id : Nat} {h : Handler} (hh : s.handlers[id]? = some h) :
      Page s (.requestParse id) s.desk [.stop h.slot, .install h.slot ⟨s.nextWorker,
        .parsing h.document (.start h.grammar (s.document h.document).buffer h.options) h.token⟩ 0]
  /-- There is nothing to dispose of. -/
  | disposeNothing {id : Nat} : Page s (.dispose id) s.desk []
  /-- A handler is disposed of. -/
  | dispose {id number : Nat} {h : Handler} (hh : s.handlers[id]? = some h) (hs : h.subscription = some number) :
      Page s (.dispose id)
        { s.desk.subscribe h.document ((s.document h.document).subscriptions.remove number).1 with
          handlers := s.handlers.modify id ({ · with subscription := none }) }
        [.stop h.slot, .cancel h.token]
  /-- A token is cancelled. -/
  | cancel {token : CancelToken} :
      Page s (.cancel token) { s.desk with cancelled := token.lineage.head?.toList ++ s.cancelled } []
  /-- No worker takes a step in a round. -/
  | pass {r : Round} {new : List Task} (hn : new = [] ∨ (∃ d, new = [.beginRound d]) ∨ ∃ r', new = [.round r']) :
      Page s (.round r) s.desk new
  /-- A scripted worker takes a step in a round. -/
  | play {r r' : Round} {slot g i begun : Nat} {script : Script Call}
      (hc : (s.scheduler.claim slot r.now).2 = .step ⟨i, .scripted script begun⟩ g) :
      Page s (.round r) s.desk
        [.script (script.act begun).calls,
          .conclude r' slot g ⟨i, .scripted script (begun + 1)⟩ (script.act begun).outcome]
  /-- A parse worker takes a step in a round. -/
  | work {r r' : Round} {slot g i id : Nat} {job : ParseJob} {token : CancelToken}
      (hc : (s.scheduler.claim slot r.now).2 = .step ⟨i, .parsing id job token⟩ g) :
      Page s (.round r) (s.desk.setBuffer id (job.step (s.isCancelled token) (s.document id).buffer).buffer)
        ((job.step (s.isCancelled token) (s.document id).buffer).tells id ++
          [.conclude r' slot g ⟨i, .parsing id (job.step (s.isCancelled token) (s.document id).buffer).job token⟩
            (.ok (job.step (s.isCancelled token) (s.document id).buffer).next)])
  /-- A parse worker takes a step at the host's hands. -/
  | rehearse {name : String} {asker : Asker} {i id : Nat} {job : ParseJob} {token : CancelToken}
      (hw : s.names.workers.get? name = some ⟨i, .parsing id job token⟩) :
      Page s (.call (.stepWorker name) asker)
        (s.desk.setBuffer id (job.step (s.isCancelled token) (s.document id).buffer).buffer)
        ((job.step (s.isCancelled token) (s.document id).buffer).tells id ++
          [.putBack asker name ⟨i, .parsing id (job.step (s.isCancelled token) (s.document id).buffer).job token⟩
            (.ok (job.step (s.isCancelled token) (s.document id).buffer).next)])

end LiveHighlight
