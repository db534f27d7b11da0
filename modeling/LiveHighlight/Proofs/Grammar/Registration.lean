import LiveHighlight.Grammar.Definition
import Mathlib.Data.List.Nodup

/-!
# What is registered

A request for a registration is granted or refused, and one that is refused changes nothing. So the registrations that were granted
in a history of requests tell what is registered after it (`Languages.Holds`): each of them keeps the name that it was granted for
good, and an extension belongs to the latest one that claims it (`Languages.registered`).
-/

namespace LiveHighlight

/-- A request for a registration: of a grammar with the extensions that it claims, or of a definition that gives both. -/
inductive Request where
  | grammar (g : Grammar) (extensions : List String)
  | definition (d : Definition)
  deriving DecidableEq, Repr

namespace Request

/-- The grammar that is to be registered, if it can be built. -/
def made : Request → Except GrammarError Grammar
  | grammar g _ => .ok g
  | definition d => d.build

/-- The extensions that are claimed. -/
def extensions : Request → List String
  | grammar _ extensions => extensions
  | definition d => d.extensions

/-- What comes of a request: the grammar and the languages with it, or the reason for a refusal. -/
def put (l : Languages) : Request → Except GrammarError (Grammar × Languages)
  | grammar g extensions => (l.register g extensions).map fun l => (g, l)
  | definition d => l.registerDefinition d

/-- A registration that writes the languages entry by entry. What is written before a refusal stays. -/
def enter (g : Grammar) (extensions : List String) : EStateM GrammarError Languages Grammar := do
  if (← get).grammars.contains g.name then throw (.duplicateGrammar g.name)
  forM extensions fun extension =>
    modify fun l => { l with extensions := l.extensions.insert (normalExtension extension) g.name }
  modify fun l => { l with grammars := l.grammars.insert g.name g }
  return g

/-- A request that is carried out on languages in place. -/
def inPlace (r : Request) : EStateM GrammarError Languages Grammar := do
  let g ← MonadExcept.ofExcept r.made
  enter g r.extensions

end Request

/-- A registration that was granted. -/
structure Registration where
  grammar : Grammar
  extensions : List String
  deriving DecidableEq, Repr

namespace Registration

/-- The name that is registered. -/
def name (r : Registration) : String := r.grammar.name

/-- Whether the registration claims an extension, both of them in normal form. -/
def Claims (r : Registration) (extension : String) : Prop :=
  ∃ own ∈ r.extensions, normalExtension own = normalExtension extension

instance (r : Registration) (extension : String) : Decidable (r.Claims extension) :=
  inferInstanceAs (Decidable (∃ own ∈ r.extensions, _))

end Registration

namespace Languages

/-- The languages after a request. One that is refused changes nothing. -/
def serve (l : Languages) (r : Request) : Languages :=
  match r.put l with
  | .ok (_, l) => l
  | .error _ => l

/-- The languages after some requests one after the other. -/
def after (l : Languages) (history : List Request) : Languages := history.foldl serve l

/-- The registration that is granted on a request, if it is. -/
def grant (l : Languages) (r : Request) : Option Registration :=
  match r.put l with
  | .ok (g, _) => some ⟨g, r.extensions⟩
  | .error _ => none

/-- The registrations that are granted on some requests one after the other. -/
def granted (l : Languages) : List Request → List Registration
  | [] => []
  | r :: rest => (l.grant r).toList ++ (l.serve r).granted rest

/-- Whether languages are what some registrations come to that were granted one after the other. -/
structure Holds (l : Languages) (done : List Registration) : Prop where
  grammars : l.grammars.entries = done.map fun r => (r.name, r.grammar)
  distinct : (done.map (·.name)).Nodup
  extensions : ∀ extension, l.extensions.get? (normalExtension extension) =
    (done.reverse.find? fun r => r.Claims extension).map (·.name)

end Languages

namespace RegistrationAux

variable {α : Type} {l : Languages} {r : Request} {g : Grammar} {done : List Registration}

/-! ## Directories -/

/-- A name that is new comes in at the end. -/
theorem insertEntry_of_lookup_eq_none {entries : List (String × α)} {name : String} (h : entries.lookup name = none) (a : α) :
    Directory.insertEntry name a entries = entries ++ [(name, a)] := by
  induction entries with
  | nil => rfl
  | cons entry rest ih =>
    rw [Directory.lookup_entry] at h
    split at h
    · cases h
    · next hne => rw [Directory.insertEntry, if_neg hne, ih h, List.cons_append]

/-- All of some keys stand for one thing once they are inserted with it. -/
theorem get?_foldl_insert (key : String → String) (names : List String) (a : α) (d : Directory α) (name : String) :
    (names.foldl (fun known own => known.insert (key own) a) d).get? name =
      if ∃ own ∈ names, key own = name then some a else d.get? name := by
  induction names generalizing d with
  | nil => simp
  | cons own rest ih =>
    simp only [List.foldl_cons, ih, Directory.get?_insert, List.exists_mem_cons_iff]
    by_cases hrest : ∃ own ∈ rest, key own = name
    · rw [if_pos hrest, if_pos (.inr hrest)]
    · by_cases hown : name = key own
      · rw [if_neg hrest, if_pos hown, if_pos (.inl hown.symm)]
      · rw [if_neg hrest, if_neg hown, if_neg (not_or.2 ⟨Ne.symm hown, hrest⟩)]

theorem lookup_map (done : List Registration) (name : String) :
    (done.map fun r => (r.name, r.grammar)).lookup name = (done.find? fun r => r.name = name).map (·.grammar) := by
  induction done with
  | nil => rfl
  | cons r rest ih =>
    rw [List.map_cons, Directory.lookup_entry, List.find?_cons, ih]
    by_cases hname : name = r.name
    · simp [hname]
    · simp [hname, Ne.symm hname]

/-! ## Requests -/

/-- The languages with one more registration. -/
def extended (l : Languages) (g : Grammar) (extensions : List String) : Languages where
  grammars := l.grammars.insert g.name g
  extensions := extensions.foldl (fun known e => known.insert (normalExtension e) g.name) l.extensions

/-- What comes of a request is decided by its grammar and by the languages that there are. -/
theorem put_eq (l : Languages) (r : Request) :
    r.put l = r.made.bind fun g => if (l.get? g.name).isSome then .error (.duplicateGrammar g.name)
      else .ok (g, extended l g r.extensions) := by
  have register (g : Grammar) (extensions : List String) : l.register g extensions =
      if (l.get? g.name).isSome then .error (.duplicateGrammar g.name) else .ok (extended l g extensions) := rfl
  cases r with
  | grammar g extensions =>
    simp only [Request.put, Request.made, Request.extensions, register, Except.bind]
    split <;> rfl
  | definition d =>
    simp only [Request.put, Request.made, Request.extensions, Languages.registerDefinition, register, bind, Except.bind]
    cases d.build with
    | error error => rfl
    | ok g => by_cases taken : (l.get? g.name).isSome = true <;> simp [taken, pure, Except.pure]

/-- Extensions that are written one after the other all go to one name. -/
theorem run_forM (extensions : List String) (name : String) (l : Languages) :
    (forM extensions fun extension =>
      modify fun l => { l with extensions := l.extensions.insert (normalExtension extension) name } :
        EStateM GrammarError Languages Unit).run l =
      .ok () { l with extensions := extensions.foldl (fun known e => known.insert (normalExtension e) name) l.extensions } := by
  induction extensions generalizing l with
  | nil => rfl
  | cons extension rest ih => exact ih _

/-- A registration in place looks for the name before it writes anything. -/
theorem run_enter (g : Grammar) (extensions : List String) (l : Languages) : (Request.enter g extensions).run l =
    if (l.get? g.name).isSome then .error (.duplicateGrammar g.name) l else .ok g (extended l g extensions) := by
  rw [Request.enter]
  by_cases taken : (l.get? g.name).isSome = true
  · have hcontains : l.grammars.contains g.name = true := taken
    simp [hcontains, taken]
  · have hcontains : ¬l.grammars.contains g.name = true := taken
    simp [hcontains, taken, run_forM, extended, -bind_pure_comp]

/-- A request that is carried out in place is answered alike. It leaves the languages with the registration, or as they were. -/
theorem run_inPlace (l : Languages) (r : Request) : r.inPlace.run l =
    match r.put l with
    | .ok (g, registered) => .ok g registered
    | .error error => .error error l := by
  rw [put_eq, Request.inPlace]
  cases r.made with
  | error error => rfl
  | ok g =>
    simp only [MonadExcept.ofExcept, pure_bind, run_enter, Except.bind]
    by_cases taken : (l.get? g.name).isSome = true <;> simp [taken]

/-- A request is refused if its grammar cannot be built or its name is taken. -/
theorem put_eq_error_iff {error : GrammarError} : r.put l = .error error ↔
    r.made = .error error ∨ ∃ g, r.made = .ok g ∧ (l.get? g.name).isSome = true ∧ error = .duplicateGrammar g.name := by
  rw [put_eq]
  cases r.made with
  | error reason => simp [Except.bind]
  | ok g =>
    simp only [Except.bind]
    split
    · next taken =>
      constructor
      · rintro ⟨⟩
        exact .inr ⟨g, rfl, taken, rfl⟩
      · rintro (h | ⟨-, ⟨⟩, -, rfl⟩)
        · cases h
        · rfl
    · next hfree =>
      constructor
      · nofun
      · rintro (h | ⟨g', hg', taken, -⟩)
        · cases h
        · obtain rfl := Except.ok.inj hg'
          exact absurd taken hfree

/-- A request is granted if its grammar can be built and its name is free. -/
theorem put_eq_ok_iff {l' : Languages} : r.put l = .ok (g, l') ↔
    r.made = .ok g ∧ l.get? g.name = none ∧ l' = extended l g r.extensions := by
  rw [put_eq]
  cases r.made with
  | error reason => simp [Except.bind]
  | ok made =>
    simp only [Except.bind]
    split
    · next taken =>
      constructor
      · nofun
      · rintro ⟨⟨⟩, hfree, -⟩
        simp [hfree] at taken
    · next hfree =>
      constructor
      · rintro ⟨⟩
        exact ⟨rfl, by simpa using hfree, rfl⟩
      · rintro ⟨⟨⟩, -, rfl⟩
        rfl

end RegistrationAux

open RegistrationAux

namespace Languages

variable {l : Languages} {r : Request} {done : List Registration}

theorem holds_empty : empty.Holds [] := ⟨rfl, .nil, fun _ => rfl⟩

/-- The grammar of a name is that of the registration that has the name. -/
theorem Holds.get?_eq (h : l.Holds done) (name : String) : l.get? name = (done.find? fun r => r.name = name).map (·.grammar) := by
  rw [get?, Directory.get?, h.grammars, lookup_map]

/-- A registration that is granted comes behind those before. -/
theorem Holds.more (h : l.Holds done) {g : Grammar} (free : l.get? g.name = none) (extensions : List String) :
    (extended l g extensions).Holds (done ++ [⟨g, extensions⟩]) where
  grammars := by
    have hentries : (extended l g extensions).grammars.entries = Directory.insertEntry g.name g l.grammars.entries := rfl
    rw [hentries, insertEntry_of_lookup_eq_none free, h.grammars, List.map_append]
    rfl
  distinct := by
    rw [h.get?_eq, Option.map_eq_none_iff, List.find?_eq_none] at free
    rw [List.map_append, List.nodup_append]
    refine ⟨h.distinct, List.nodup_singleton _, ?_⟩
    intro name hname new hnew heq
    obtain ⟨r, hr, rfl⟩ := List.mem_map.1 hname
    exact free r hr (decide_eq_true (heq.trans (List.mem_singleton.1 hnew)))
  extensions extension := by
    have hfound : (extended l g extensions).extensions.get? (normalExtension extension) =
        if (⟨g, extensions⟩ : Registration).Claims extension then some g.name
        else l.extensions.get? (normalExtension extension) := get?_foldl_insert normalExtension extensions g.name _ _
    rw [hfound, h.extensions extension, List.reverse_append, List.reverse_singleton, List.singleton_append, List.find?_cons]
    by_cases claims : (⟨g, extensions⟩ : Registration).Claims extension
    · rw [if_pos claims, decide_eq_true claims]
      rfl
    · rw [if_neg claims, decide_eq_false claims]

/-- A request leaves languages that are told by what was granted. -/
theorem Holds.serve (h : l.Holds done) (r : Request) : (l.serve r).Holds (done ++ (l.grant r).toList) := by
  unfold Languages.serve grant
  cases hput : r.put l with
  | error => simpa using h
  | ok found =>
    obtain ⟨-, free, hl⟩ := put_eq_ok_iff.1 (show r.put l = .ok (found.1, found.2) from hput)
    dsimp only
    rw [hl]
    exact h.more free r.extensions

/-- Requests leave languages that are told by what was granted on them. The induction is on the history, one request at a time. -/
theorem Holds.after (h : l.Holds done) (history : List Request) : (l.after history).Holds (done ++ l.granted history) := by
  induction history generalizing l done with
  | nil => simpa [granted, Languages.after] using h
  | cons r rest ih =>
    have hrest := ih (h.serve r)
    rwa [List.append_assoc] at hrest

/-- What is granted later comes behind what was granted before. -/
theorem granted_append (l : Languages) (history more : List Request) :
    l.granted (history ++ more) = l.granted history ++ (l.after history).granted more := by
  induction history generalizing l with
  | nil => rfl
  | cons r rest ih =>
    rw [List.cons_append, granted, granted, ih, List.append_assoc]
    rfl

/-- A name is that of a registration that was granted, and no other one has it. -/
theorem Holds.get?_eq_some_iff (h : l.Holds done) {name : String} {g : Grammar} :
    l.get? name = some g ↔ ∃ r ∈ done, r.name = name ∧ r.grammar = g := by
  rw [h.get?_eq, Option.map_eq_some_iff]
  constructor
  · rintro ⟨r, hfind, rfl⟩
    exact ⟨r, List.mem_of_find?_eq_some hfind, by simpa using List.find?_some hfind, rfl⟩
  · rintro ⟨r, hr, rfl, rfl⟩
    cases hfind : done.find? fun other => other.name = r.name with
    | none => exact absurd (decide_eq_true rfl) (List.find?_eq_none.1 hfind r hr)
    | some other =>
      have hname : other.name = r.name := by simpa using List.find?_some hfind
      obtain rfl := List.inj_on_of_nodup_map h.distinct (List.mem_of_find?_eq_some hfind) hr hname
      exact ⟨other, rfl, rfl⟩

/-- The language of an extension is that of the latest registration that claims it. -/
theorem Holds.ofExtension?_eq (h : l.Holds done) (extension : String) :
    l.ofExtension? extension = (done.reverse.find? fun r => r.Claims extension).map (·.grammar) := by
  rw [ofExtension?, h.extensions]
  cases hfind : done.reverse.find? fun r => r.Claims extension with
  | none => rfl
  | some r => exact h.get?_eq_some_iff.2 ⟨r, List.mem_reverse.1 (List.mem_of_find?_eq_some hfind), rfl, rfl⟩

theorem Holds.ofExtension?_eq_some_iff (h : l.Holds done) {extension : String} {g : Grammar} :
    l.ofExtension? extension = some g ↔ ∃ earlier r later, done = earlier ++ r :: later ∧ r.Claims extension ∧
      (∀ other ∈ later, ¬other.Claims extension) ∧ r.grammar = g := by
  rw [h.ofExtension?_eq, Option.map_eq_some_iff]
  simp only [List.find?_eq_some_iff_append]
  constructor
  · rintro ⟨r, ⟨claims, later, earlier, hdone, hlater⟩, rfl⟩
    refine ⟨earlier.reverse, r, later.reverse, ?_, by simpa using claims, fun other ho => ?_, rfl⟩
    · rw [← List.reverse_reverse done, hdone]
      simp
    · simpa using hlater other (List.mem_reverse.1 ho)
  · rintro ⟨earlier, r, later, rfl, claims, hlater, rfl⟩
    refine ⟨r, ⟨decide_eq_true claims, later.reverse, earlier.reverse, by simp, fun other ho => ?_⟩, rfl⟩
    simpa using hlater other (List.mem_reverse.1 ho)

theorem Holds.ofExtension?_eq_none_iff (h : l.Holds done) {extension : String} :
    l.ofExtension? extension = none ↔ ∀ r ∈ done, ¬r.Claims extension := by
  simp [h.ofExtension?_eq]

/-- A name that an extension belongs to is registered. -/
theorem Holds.exists_get? (h : l.Holds done) {extension name : String}
    (hname : l.extensions.get? (normalExtension extension) = some name) : ∃ g, l.get? name = some g := by
  rw [h.extensions] at hname
  obtain ⟨r, hfind, rfl⟩ := Option.map_eq_some_iff.1 hname
  exact ⟨r.grammar, h.get?_eq_some_iff.2 ⟨r, List.mem_reverse.1 (List.mem_of_find?_eq_some hfind), rfl, rfl⟩⟩

theorem Holds.names_perm (h : l.Holds done) : l.names.Perm (done.map (·.name)) := by
  have hnames : l.grammars.names = done.map (·.name) := by
    rw [Directory.names, h.grammars, List.map_map]
    rfl
  rw [← hnames]
  exact List.mergeSort_perm _ _

theorem Holds.size_eq (h : l.Holds done) : l.size = done.length := by
  rw [size, Directory.size, h.grammars, List.length_map]

/-- After any history of requests, a request is refused exactly if its grammar cannot be built or the name of its grammar is taken,
and then it leaves the languages as they are, also where it is carried out in place and nothing takes back what it has written. Each
registration that was granted keeps its place among those that are granted: its name stands for its grammar whatever is asked for
later, and no other one has the name. The names are those of the registrations that were granted, one for each. The language of an
extension is that of the latest of them that claims it, and an extension has no language only if none of them does; where an extension
has a name, the name is registered. -/
theorem registered (history : List Request) :
    let l := empty.after history
    let done := empty.granted history
    (∀ r error, (r.put l = .error error ↔
        r.made = .error error ∨ ∃ g, r.made = .ok g ∧ (l.get? g.name).isSome = true ∧ error = .duplicateGrammar g.name) ∧
      (r.put l = .error error → r.inPlace.run l = .error error l ∧ l.serve r = l)) ∧
    (∀ r g registered, r.put l = .ok (g, registered) → r.inPlace.run l = .ok g registered ∧ l.serve r = registered) ∧
    (∀ name g, l.get? name = some g ↔ ∃ r ∈ done, r.name = name ∧ r.grammar = g) ∧
    (∀ (i : Nat) r, done[i]? = some r → ∀ more,
      (l.after more).get? r.name = some r.grammar ∧ (empty.granted (history ++ more))[i]? = some r ∧
      ∀ (j : Nat) other, (empty.granted (history ++ more))[j]? = some other → other.name = r.name → j = i) ∧
    (∀ extension g, l.ofExtension? extension = some g ↔ ∃ earlier r later, done = earlier ++ r :: later ∧ r.Claims extension ∧
      (∀ other ∈ later, ¬other.Claims extension) ∧ r.grammar = g) ∧
    (∀ extension, l.ofExtension? extension = none ↔ ∀ r ∈ done, ¬r.Claims extension) ∧
    (∀ extension name, l.extensions.get? (normalExtension extension) = some name → ∃ g, l.get? name = some g) ∧
    l.size = done.length ∧ l.names.Perm (done.map (·.name)) ∧ l.names.Nodup := by
  intro l done
  have h : l.Holds done := holds_empty.after history
  refine ⟨fun r error => ⟨put_eq_error_iff, fun hput => ?_⟩, fun r g registered hput => ?_, fun name g => h.get?_eq_some_iff, ?_,
    fun extension g => h.ofExtension?_eq_some_iff, fun extension => h.ofExtension?_eq_none_iff,
    fun extension name => h.exists_get?, h.size_eq, h.names_perm, h.names_perm.nodup_iff.2 h.distinct⟩
  · simp only [run_inPlace, serve, hput, and_self]
  · simp only [run_inPlace, serve, hput, and_self]
  · intro i r hr more
    have hmore : (l.after more).Holds (empty.granted (history ++ more)) := by
      rw [granted_append]
      exact h.after more
    have hkept : (empty.granted (history ++ more))[i]? = some r := by
      rw [granted_append, List.getElem?_append_left (List.getElem?_eq_some_iff.1 hr).1]
      exact hr
    refine ⟨hmore.get?_eq_some_iff.2 ⟨r, List.mem_of_getElem? hkept, rfl, rfl⟩, hkept, ?_⟩
    intro j other hj hname
    have hlt : j < ((empty.granted (history ++ more)).map (·.name)).length := by
      rw [List.length_map]
      exact (List.getElem?_eq_some_iff.1 hj).1
    refine (List.getElem?_inj hlt hmore.distinct).1 ?_
    rw [List.getElem?_map, List.getElem?_map, hj, hkept, Option.map_some, Option.map_some, hname]

/-- Two languages with the duplicate of one between them: the duplicate takes no extension, the other language takes one over. -/
theorem registered_takeover :
    let language (name : String) : Grammar := ⟨name, [⟨"start", [[⟨.terminal .notBlank, .plain, true, false⟩]]⟩], 0⟩
    let duplicate : Request := .grammar (language "text") ["rs"]
    let history := [.grammar (language "text") ["TXT", ".md"], duplicate, .grammar (language "page") ["..txt"]]
    let l := empty.after history
    empty.granted history = [⟨language "text", ["TXT", ".md"]⟩, ⟨language "page", ["..txt"]⟩] ∧
      duplicate.put l = .error (.duplicateGrammar "text") ∧
      duplicate.inPlace.run l = .error (.duplicateGrammar "text") l ∧ l.serve duplicate = l ∧
      (l.after [duplicate]).get? "text" = some (language "text") ∧
      l.ofExtension? "Txt" = some (language "page") ∧ l.ofExtension? ".MD" = some (language "text") ∧ l.ofExtension? "rs" = none ∧
      l.size = 2 := by
  intro language duplicate history l
  have hgranted : empty.granted history = [⟨language "text", ["TXT", ".md"]⟩, ⟨language "page", ["..txt"]⟩] := by decide +kernel
  have hput : duplicate.put l = .error (.duplicateGrammar "text") := by decide +kernel
  obtain ⟨hrefused, -, -, hkept, hextension, hnone, -, hsize, -, -⟩ := registered history
  obtain ⟨hinPlace, hserved⟩ := (hrefused duplicate _).2 hput
  rw [hgranted] at hkept hextension hnone hsize
  refine ⟨hgranted, hput, hinPlace, hserved, (hkept 0 _ rfl [duplicate]).1, ?_, ?_, ?_, hsize⟩
  · exact (hextension "Txt" _).2 ⟨[_], _, [], rfl, by decide +kernel, by decide +kernel, rfl⟩
  · exact (hextension ".MD" _).2 ⟨[], _, [_], rfl, by decide +kernel, by decide +kernel, rfl⟩
  · exact (hnone "rs").2 (by decide +kernel)

end Languages

end LiveHighlight
