import LiveHighlight.Session.Machine

/-!
# How calls are performed

The first thing that each call does, and the tasks that it leaves. A call that names something that is not there changes
nothing and says so.
-/

namespace LiveHighlight

/-- What an edit answers. One that cannot be refused has nothing to say. -/
def Edit.reply : Edit → Reply
  | .load _ | .setText _ => .done
  | .setLine .. | .insertLine .. | .removeLine _ => .accepted

/-- The same plan for a document given in another way. -/
def HandlerPlan.withDocument {δ ε : Type} (p : HandlerPlan δ) (document : Option ε) : HandlerPlan ε :=
  ⟨p.hasScheduler, document, p.sources, p.options⟩

namespace Machine

/-- The machine with other names. -/
def rename (m : Machine) (f : Names → Names) : Machine := m.put { m.session with names := f m.session.names }

/-- Goes on with what a name stands for. -/
def find {α : Type} (m : Machine) (asker : Asker) (found : Option α) (what : Missing) (go : α → Machine) : Machine :=
  match found with
  | none => m.answer asker (.missing what)
  | some a => go a

/-- Goes on with a grammar. -/
def withGrammar {α : Type} (m : Machine) (asker : Asker) (made : Except GrammarError α) (go : α → Machine) : Machine :=
  match made with
  | .error e => m.answer asker (.refusedGrammar e)
  | .ok a => go a

/-! ## Documents -/

/-- What is said of a document. -/
def describe (m : Machine) (id : Nat) : DocumentSummary :=
  let d := m.session.document id
  ⟨d.buffer.text, d.buffer.lineCount, d.buffer.hasAnnotations, (d.subscriptions.prune m.isAlive).size,
    d.subscriptions.size⟩

/-- Edits a document, then tells its watchers. -/
def edit (m : Machine) (asker : Asker) (id : Nat) (e : Edit) : Machine :=
  match (m.session.document id).buffer.edit e with
  | .error error => m.answer asker (.refused error)
  | .ok (b, event) => (m.put (m.session.setBuffer id b)).push [.raise id event, .answer asker e.reply]

/-- Lets go of the observer of a name. -/
def letGo (m : Machine) (name : String) : Machine :=
  match m.session.names.observers.get? name with
  | none => m
  | some id => m.put { m.session with observers := m.session.observers.modify id ({ · with held := false }) }

/-- Subscribes an observer under a name. -/
def observe (m : Machine) (id : Nat) (name : String) (reaction : Reaction Call) : Machine :=
  let m := m.letGo name
  let number := m.session.observers.length
  let (session, subscription) := m.session.subscribe id (.observer number)
  let m := m.put { session with observers := session.observers ++ [⟨name, id, subscription, true, reaction⟩] }
  m.rename fun names => { names with observers := names.observers.insert name number }

/-- Makes a parse worker. A token that is not known is a new one. -/
def openWorker (m : Machine) (id : Nat) (name : String) (g : Grammar) (o : ParseOptions) (token : Option String) : Machine :=
  let (session, token) := match token.bind m.session.names.tokens.get? with
    | some token => (m.session, token)
    | none => m.session.freshToken []
  let (session, worker) := session.parseWorker id g o token
  (m.put session).rename fun names => { names with workers := names.workers.insert name worker }

/-- Performs a call on a document. -/
def onDocument (m : Machine) (asker : Asker) (id : Nat) : DocumentCall Call → Machine
  | .edit e => m.edit asker id e
  | .clear => (m.clear id).answer asker .done
  | .raise event => m.push [.raise id event, .answer asker .done]
  | .complain source message => m.push [.complain id source message, .answer asker .done]
  | .annotate line a =>
    match (m.session.document id).buffer.annotate line a with
    | .error error => m.answer asker (.refused error)
    | .ok b => (m.put (m.session.setBuffer id b)).answer asker .accepted
  | .line line =>
    match (m.session.document id).buffer.line line with
    | .error error => m.answer asker (.refused error)
    | .ok found => m.answer asker (.line found)
  | .describe => m.answer asker (.document (m.describe id))
  | .isSame other =>
    m.find asker (m.session.names.documents.get? other) .document fun other => m.answer asker (.flag (id = other))
  | .snapshot stream =>
    let snapshot := (m.session.document id).buffer.snapshot
    (m.rename fun names => { names with snapshots := names.snapshots.insert stream snapshot }).answer asker .done
  | .observe observer reaction => (m.observe id observer reaction).answer asker .done
  | .openSink sink errorColor =>
    let made := (id, Sink.make (m.session.document id).buffer.snapshot errorColor)
    (m.rename fun names => { names with sinks := names.sinks.insert sink made }).answer asker .done
  | .openWorker worker grammar options token =>
    m.withGrammar asker grammar fun g => (m.openWorker id worker g options token).answer asker .done

/-- Lets a sink write an event. -/
def write (m : Machine) (asker : Asker) (id : Nat) (sink : Sink) (event : Event) : Machine :=
  match sink.write (m.session.document id).buffer event with
  | .error fault => m.answer asker (.refusedEvent fault)
  | .ok b => (m.put (m.session.setBuffer id b)).answer asker .accepted

/-- Performs a call on a sink. -/
def onSink (m : Machine) (asker : Asker) (id : Nat) (sink : Sink) : SinkCall → Machine
  | .matched made => m.withGrammar asker made fun found => m.write asker id sink (.matched found)
  | .unmatched made position => m.withGrammar asker made fun e => m.write asker id sink (.unmatched e position)
  | .aborted fault position => m.push [.complain id "parser" (Sink.complaint fault position), .answer asker .done]

/-! ## Places of work -/

/-- Gives a slot's worker an appointment and says whether there was one to give it to. -/
def start (m : Machine) (slot delay : Nat) (go : Machine → Bool → Machine) : Machine :=
  m.onSlot slot
    (let (scheduler, started) := m.session.scheduler.start slot (m.session.now + delay)
     go (m.schedule scheduler) started)

/-- Takes a slot's appointment away and says whether the slot was in use. -/
def pause (m : Machine) (slot : Nat) (go : Machine → Bool → Machine) : Machine :=
  m.onSlot slot
    (let (scheduler, paused) := m.session.scheduler.pause slot
     go (m.schedule scheduler) paused)

/-- Carries out a host's command on a slot. An unknown command does nothing. -/
def execute (m : Machine) (asker : Asker) (slot command : Nat) : Machine :=
  match WorkCommand.ofId? command with
  | none => m.answer asker (.flag false)
  | some .play => m.start slot 0 fun m _ => m.answer asker (.flag true)
  | some .pause => m.pause slot fun m _ => m.answer asker (.flag true)
  | some .stop => m.push [.stop slot, .answer asker (.flag true)]

/-- What is said of a slot. -/
def summarize (m : Machine) (slot : Nat) : PlaceSummary :=
  let s := m.session.scheduler.slot slot
  ⟨s.phase, s.isFree, s.appointment, s.label⟩

/-- Queues a worker: what the slot holds is stopped first. -/
def queue (m : Machine) (asker : Asker) (slot : Nat) (w : Worker) (delay : Nat) : Machine :=
  m.push [.stop slot, .install slot w delay, .answer asker .done]

/-- Performs a call on a place. -/
def onPlace (m : Machine) (asker : Asker) (slot : Nat) : PlaceCall Call → Machine
  | .queue script delay =>
    let (session, worker) := m.session.freshWorker (.scripted script 0)
    (m.put session).queue asker slot worker delay
  | .queueParse name delay =>
    m.find asker (m.session.names.workers.get? name) .worker fun worker =>
      (m.rename fun names => { names with workers := names.workers.erase name }).queue asker slot worker delay
  | .start delay => m.start slot delay fun m started => m.answer asker (.flag started)
  | .pause => m.pause slot fun m paused => m.answer asker (.flag paused)
  | .stop => m.push [.stop slot, .answer asker .done]
  | .execute command => m.execute asker slot command
  | .status => m.onSlot slot (m.answer asker (.place (m.summarize slot)))

/-- Opens a place under a name. The place that had the name is stopped. -/
def openPlace (m : Machine) (asker : Asker) (name : String) : Machine :=
  let old := m.session.names.places.get? name
  let (scheduler, slot) := m.session.scheduler.add name
  ((m.schedule scheduler).rename fun names => { names with places := names.places.insert name slot }).push
    (old.toList.map .stop ++ [.answer asker .done])

/-- Gives a place up and stops it, and says whether there was one. -/
def dropPlace (m : Machine) (asker : Asker) (name : String) : Machine :=
  match m.session.names.places.get? name with
  | none => m.answer asker (.flag false)
  | some slot =>
    (m.rename fun names => { names with places := names.places.erase name }).push [.stop slot, .answer asker (.flag true)]

/-- The rounds that a drive may have. -/
def roundsOf (m : Machine) (rounds : Nat) : DriveKind → Nat
  | .tick => 1
  | .slice => m.session.scheduler.options.maxRounds
  | .untilIdle => rounds

/-! ## Languages and handlers -/

/-- Registers a grammar. -/
def register (m : Machine) (asker : Asker) (g : Grammar) (extensions : List String) : Machine :=
  m.withGrammar asker (m.session.languages.register g extensions) fun languages =>
    (m.put { m.session with languages }).answer asker (.registered g.name)

/-- Registers the grammar that a definition describes. -/
def registerDefinition (m : Machine) (asker : Asker) (text : String) : Machine :=
  m.withGrammar asker ((Definition.ofText text).bind m.session.languages.registerDefinition) fun (g, languages) =>
    (m.put { m.session with languages }).answer asker (.registered g.name)

/-- Attaches a handler to a document under a name. The handler that had the name is disposed of. -/
def attach (m : Machine) (asker : Asker) (name : String) (document : Nat) (g : Grammar) (o : ParseOptions) : Machine :=
  let old := m.session.names.handlers.get? name
  let number := m.session.handlers.length
  let (scheduler, slot) := m.session.scheduler.add s!"parse:{g.name}"
  let (session, token) := { m.session with scheduler }.freshToken []
  let (session, subscription) := session.subscribe document (.handler number)
  let made : Handler := ⟨document, g, o, slot, true, some subscription, token⟩
  let m := m.put { session with handlers := session.handlers ++ [made] }
  (m.rename fun names => { names with handlers := names.handlers.insert name number }).push
    (old.toList.map .dispose ++ [.answer asker (.handler g.name o)])

/-- Makes a handler from a plan, if nothing is missing. -/
def makeHandler (m : Machine) (asker : Asker) (name : String) (p : HandlerPlan Nat) : Machine :=
  match p.resolve m.session.languages with
  | .error (.grammar e) => m.answer asker (.refusedGrammar e)
  | .error e => m.answer asker (.refusedHandler e)
  | .ok (document, g) => m.attach asker name document g p.options

/-- Performs a call on a handler. Enabling asks for a parse, disabling ends the one that waits and takes all annotations
off; a handler that is disposed of stays as it is. -/
def onHandler (m : Machine) (asker : Asker) (id : Nat) (h : Handler) : HandlerCall → Machine
  | .reparse => m.push ((if h.enabled then [.requestParse id] else []) ++ [.answer asker .done])
  | .enable on =>
    if h.isDisposed then m.answer asker .done
    else
      (m.put (m.session.updateHandler id ({ · with enabled := on }))).push
        ((if on then [.requestParse id] else [.stop h.slot, .clear h.document, .raise h.document .formatted]) ++
          [.answer asker .done])
  | .dispose => m.push [.dispose id, .answer asker .done]
  | .execute command => m.execute asker h.slot command

/-- Gives a handler up and disposes of it, and says whether there was one. -/
def dropHandler (m : Machine) (asker : Asker) (name : String) : Machine :=
  match m.session.names.handlers.get? name with
  | none => m.answer asker (.flag false)
  | some id =>
    (m.rename fun names => { names with handlers := names.handlers.erase name }).push
      [.dispose id, .answer asker (.flag true)]

/-! ## Calls -/

/-- Performs a call. -/
def perform (m : Machine) (asker : Asker) : Call → Machine
  | .document doc text site =>
    let id := m.session.documents.length
    let made : Document := ⟨.ofText text, .empty, site⟩
    ((m.put { m.session with documents := m.session.documents ++ [made] }).rename fun names =>
      { names with documents := names.documents.insert doc id }).answer asker .done
  | .onDocument doc call =>
    m.find asker (m.session.names.documents.get? doc) .document fun id => m.onDocument asker id call
  | .readSnapshot stream query =>
    m.find asker (m.session.names.snapshots.get? stream) .snapshot fun s => m.answer asker (.survey (s.survey query))
  | .unobserve name =>
    m.find asker ((m.session.names.observers.get? name).bind fun id => m.session.observers[id]?) .observer fun o =>
      let (session, found) := m.session.unsubscribe o.document o.subscription
      (m.put session).answer asker (.flag found)
  | .release name =>
    let held := ((m.session.names.observers.get? name).bind fun id => m.session.observers[id]?).any (·.held)
    (m.letGo name).answer asker (.flag held)
  | .drive kind rounds => m.push [.beginRound ⟨asker, kind, m.session.now, m.roundsOf rounds kind, 0⟩]
  | .options => m.answer asker (.options m.session.scheduler.options)
  | .advance time => (m.put { m.session with now := m.session.now + time }).answer asker .done
  | .setClock time => (m.put { m.session with now := time }).answer asker .done
  | .place name => m.openPlace asker name
  | .dropPlace name => m.dropPlace asker name
  | .onPlace name call => m.find asker (m.session.names.places.get? name) .place fun slot => m.onPlace asker slot call
  | .register made extensions => m.withGrammar asker made fun g => m.register asker g extensions
  | .registerDefinition text => m.registerDefinition asker text
  | .handler name plan =>
    match plan.document with
    | none => m.makeHandler asker name (plan.withDocument none)
    | some doc =>
      m.find asker (m.session.names.documents.get? doc) .document fun id => m.makeHandler asker name (plan.withDocument id)
  | .dropHandler name => m.dropHandler asker name
  | .onHandler name call =>
    m.find asker (m.session.names.handlers.get? name) .handler fun id =>
      m.find asker m.session.handlers[id]? .handler fun h => m.onHandler asker id h call
  | .token name parent =>
    let make (parents : List Nat) : Machine :=
      let (session, token) := m.session.freshToken parents
      ((m.put session).rename fun names => { names with tokens := names.tokens.insert name token }).answer asker .done
    match parent with
    | none => make []
    | some parent => m.find asker (m.session.names.tokens.get? parent) .token fun t => make t.lineage
  | .cancel name =>
    m.find asker (m.session.names.tokens.get? name) .token fun t => (m.put (m.session.cancel t)).answer asker .done
  | .stepWorker name =>
    m.find asker (m.session.names.workers.get? name) .worker fun w =>
      (m.rename fun names => { names with workers := names.workers.erase name }).work w (.putBack asker name)
  | .onSink name call =>
    m.find asker (m.session.names.sinks.get? name) .sink fun (id, sink) => m.onSink asker id sink call

end Machine

end LiveHighlight
