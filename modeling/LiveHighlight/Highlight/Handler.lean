import LiveHighlight.Grammar.Definition
import LiveHighlight.Highlight.Options

/-!
# Parse handlers

What a handler is made from. A handler keeps the annotations of one document in step with its text; it needs a scheduler, a
document and a grammar, and where several are missing the first of them in this order is named.
-/

namespace LiveHighlight

/-- What a handler cannot do without. -/
inductive Dependency where
  | scheduler | document | grammar
  deriving DecidableEq, Repr

/-- What a dependency is called. -/
def Dependency.name : Dependency → String
  | .scheduler => "scheduler"
  | .document => "document"
  | .grammar => "grammar"

/-- Why there is no handler. -/
inductive HandlerError where
  | missingDependency (what : Dependency)
  | unknownLanguage (name : String)
  | grammar (error : GrammarError)
  deriving DecidableEq, Repr

/-- The words for an error. -/
def HandlerError.message : HandlerError → String
  | .missingDependency what => s!"parse handler needs a {what.name}"
  | .unknownLanguage name => s!"no grammar registered for language '{name}'"
  | .grammar error => error.message

/-- Where a handler's grammar comes from. -/
inductive GrammarSource where
  /-- A grammar that was to be built on the spot. -/
  | built (result : Except GrammarError Grammar)
  /-- A registered language. -/
  | language (name : String)
  /-- The text of a definition. -/
  | definition (text : String)

namespace GrammarSource

/-- The grammar that a source gives. -/
def resolve (languages : Languages) : GrammarSource → Except HandlerError Grammar
  | .built result => result.mapError .grammar
  | .language name =>
    match languages.get? name with
    | some g => .ok g
    | none => .error (.unknownLanguage name)
  | .definition text => ((Definition.ofText text).bind (·.build)).mapError .grammar

/-- The error of a grammar that could not be built on the spot. -/
def defect? : GrammarSource → Option GrammarError
  | .built (.error e) => some e
  | _ => none

end GrammarSource

/-- What a handler is to be made from; `δ` says how a document is given. -/
structure HandlerPlan (δ : Type) where
  hasScheduler : Bool
  document : Option δ
  /-- Where the grammar is to come from; the last source counts. -/
  sources : List GrammarSource
  options : ParseOptions

/-- The document and the grammar of a handler. A grammar that could not be built on the spot is an error even if it does not
count, and before any other. -/
def HandlerPlan.resolve {δ : Type} (p : HandlerPlan δ) (languages : Languages) : Except HandlerError (δ × Grammar) :=
  match p.sources.findSome? (·.defect?) with
  | some e => .error (.grammar e)
  | none =>
    if p.hasScheduler then
      match p.document, p.sources.getLast? with
      | none, _ => .error (.missingDependency .document)
      | some _, none => .error (.missingDependency .grammar)
      | some document, some source => (source.resolve languages).map (document, ·)
    else .error (.missingDependency .scheduler)

end LiveHighlight
