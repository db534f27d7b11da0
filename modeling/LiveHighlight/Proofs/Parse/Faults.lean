import LiveHighlight.Proofs.Parse.RunTrace

/-!
# The faults of a run

The only fault that a run finds by itself is that what it was about to match does not match any more
(`Run.Rooted.inconsistent_of_plan`). That cannot happen while the stream stays as it is, but even if it does not, no state or
element is ever missing: over a grammar without open references, a step leaves pending what the grammar has, whatever the stream
and whoever listens (`Run.Rooted.step`). Grammars that are built are such grammars (`GrammarSpec.build_resolves`).
-/

namespace LiveHighlight

/-- The runs over a grammar that some steps come to. Each step may be over another stream and told to another listener. -/
inductive Run.Arises (g : Grammar) : Run → Prop
  | start (maxDepth : Nat) : Arises g (.start g maxDepth)
  | step {σ : Type} {r : Run} (before : Arises g r) (l : Listener σ) (s : Stream) (memory : σ) : Arises g (r.step l s memory).1

/-- Whether the grammar of a run has no open reference, and has the elements that are pending. -/
structure Run.Rooted (r : Run) : Prop where
  closed : r.grammar.Closed
  pending : ∀ p ∈ r.pending, ∃ e, r.grammar.elementAt p.site = .ok e

namespace FaultAux

variable {g : Grammar} {r : Run} {s : Stream}

/-- A state that an element of the grammar refers to is one of the grammar. -/
theorem lt_of_elementAt (hg : g.Closed) {site : Site} {e : Element} (he : g.elementAt site = .ok e) {id : Nat}
    (ht : e.target = .state id) : id < g.states.length := by
  rcases RunTraceAux.mem_of_elementAt he with rfl | ⟨state, hs, production, hp, hmem⟩
  · cases ht
    exact hg.start
  · exact hg.references state hs production hp e hmem id ht

/-- The production that a state takes is there to be expanded. -/
theorem exists_expand {depth id pos : Nat} {selection : Selection} (h : g.select s depth id pos = .ok (some selection))
    (budget : Nat) :
    ∃ pending, g.expand id selection.production budget = .ok pending ∧ ∀ p ∈ pending, ∃ e, g.elementAt p.site = .ok e := by
  cases depth with
  | zero => cases h
  | succ depth =>
    obtain ⟨state, hs, hp, -⟩ := TreeAux.select_spec h
    obtain ⟨pending, hexpand, hstands⟩ := ReadingAux.expand_row hs hp budget
    refine ⟨pending, hexpand, ?_⟩
    intro p hp
    obtain ⟨e, -, hpe⟩ := BuildAux.exists_right hstands hp
    exact ⟨e, hpe.1⟩

/-- What a run does with an element that the grammar has: it no longer matches, or what is pending afterwards is there. -/
theorem moveAt_cases (hg : r.grammar.Closed) {next : Pending} {e : Element} (he : r.grammar.elementAt next.site = .ok e)
    (rest : List Pending) :
    (∃ element, r.moveAt s next rest = .error (.inconsistent element r.position)) ∨
      ∃ move, r.moveAt s next rest = .ok move ∧ ∀ p ∈ move.pending, p ∈ rest ∨ ∃ e, r.grammar.elementAt p.site = .ok e := by
  simp only [Run.moveAt, bind, Except.bind, he]
  cases ht : e.target with
  | terminal t =>
    cases hm : t.matchAt s r.position with
    | none =>
      simp only [hm]
      exact .inl ⟨_, rfl⟩
    | some length =>
      simp only [hm]
      exact .inr ⟨_, rfl, fun p hp => .inl hp⟩
  | state id =>
    obtain ⟨found, hsel⟩ := hg.exists_select s next.depth (lt_of_elementAt hg he ht) r.position
    simp only [hsel]
    cases found with
    | none =>
      dsimp only
      split
      · exact .inr ⟨_, rfl, fun p hp => .inl hp⟩
      · exact .inl ⟨_, rfl⟩
    | some selection =>
      dsimp only
      split
      · exact .inr ⟨_, rfl, fun p hp => .inl hp⟩
      · obtain ⟨pending, hexpand, hthere⟩ := exists_expand hsel (next.depth - 1)
        simp only [hexpand]
        exact .inr ⟨_, rfl, fun p hp => (List.mem_append.1 hp).symm.imp_right (hthere p)⟩

/-- The element that is next is one of the grammar. -/
theorem exists_next (hr : r.Rooted) {next : Pending} {rest : List Pending} (h : r.Next s next rest) :
    (∃ e, r.grammar.elementAt next.site = .ok e) ∧ ∀ p ∈ rest, ∃ e, r.grammar.elementAt p.site = .ok e := by
  rcases h with hp | ⟨-, rfl, rfl, -⟩
  · have hthere := hr.pending
    rw [hp] at hthere
    exact List.forall_mem_cons.1 hthere
  · exact ⟨⟨_, rfl⟩, List.forall_mem_nil _⟩

end FaultAux

open FaultAux

namespace Run

variable {g : Grammar} {r : Run} {s : Stream}

theorem rooted_start (hg : g.Closed) (maxDepth : Nat) : (start g maxDepth).Rooted := ⟨hg, nofun⟩

/-- A move leaves pending what the grammar has. -/
theorem Rooted.follow (hr : r.Rooted) {move : Move} (h : r.plan s = .ok (some move)) : (r.follow move).Rooted := by
  obtain ⟨next, rest, hnext, hm⟩ := moveAt_of_plan h
  obtain ⟨⟨e, he⟩, hrest⟩ := exists_next hr hnext
  rcases moveAt_cases (s := s) hr.closed he rest with ⟨element, hfault⟩ | ⟨move', hmove, hthere⟩
  · rw [hfault] at hm
    cases hm
  · rw [hmove] at hm
    cases hm
    exact ⟨hr.closed, fun p hp => (hthere p hp).elim (hrest p) id⟩

/-- The only fault that a run finds by itself is that something no longer matches. -/
theorem Rooted.inconsistent_of_plan (hr : r.Rooted) {fault : ParseFault} (h : r.plan s = .error fault) :
    ∃ element, fault = .inconsistent element r.position := by
  obtain ⟨next, rest, hnext, hm⟩ := fault_of_plan h
  obtain ⟨⟨e, he⟩, -⟩ := exists_next hr hnext
  rcases moveAt_cases (s := s) hr.closed he rest with ⟨element, hfault⟩ | ⟨move, hmove, -⟩
  · rw [hfault] at hm
    exact ⟨element, (Except.error.inj hm).symm⟩
  · rw [hmove] at hm
    cases hm

/-- A step leaves pending what the grammar has, whatever the stream and whoever listens. -/
theorem Rooted.step {σ : Type} (hr : r.Rooted) (l : Listener σ) (s : Stream) (memory : σ) : (r.step l s memory).1.Rooted := by
  have h := stepped (l := l) (s := s) r memory
  generalize r.step l s memory = x at h
  cases h with
  | ended => exact hr
  | finished => exact ⟨hr.closed, hr.pending⟩
  | faulty | declined => exact ⟨hr.closed, nofun⟩
  | silent _ planned | heard _ planned => exact hr.follow planned

/-- Runs that some steps come to have pending what the grammar has. -/
theorem Arises.rooted (hg : g.Closed) (h : Arises g r) : r.Rooted := by
  induction h with
  | start maxDepth => exact rooted_start hg maxDepth
  | step _ l s memory ih => exact ih.step l s memory

/-- A step that ends a run by a fault tells of one that the listener refused an event with, or that something no longer matches. -/
theorem Rooted.told_of_failed {σ : Type} (hr : r.Rooted) {l : Listener σ} {memory : σ}
    (h : (r.step l s memory).1.phase = .failed) :
    r.phase = .failed ∨ ∃ heard fault, r.step l s memory = (r.fail, l.abort heard fault r.position) ∧
      ((∃ element, fault = .inconsistent element r.position) ∨ ∃ event, l.hear memory event = (heard, some fault)) := by
  have hstep := stepped (l := l) (s := s) r memory
  generalize r.step l s memory = x at h hstep ⊢
  have goes (running : r.phase = .running) (failed : r.phase = .failed) : False := by
    rw [running] at failed
    cases failed
  cases hstep with
  | ended => exact .inl h
  | faulty _ planned => exact .inr ⟨memory, _, rfl, .inl (hr.inconsistent_of_plan planned)⟩
  | finished => cases h
  | silent running | heard running => exact (goes running h).elim
  | @declined _ event heard fault _ _ _ hears => exact .inr ⟨heard, fault, rfl, .inr ⟨event, hears⟩⟩

end Run

/-- Building gives a grammar if and only if the description is well-formed, and then it is the grammar described: its colors are
those of categories, and where the text classes made its terminals, their limits leave room. A run over it never looks for a state
or an element that is not there, even if the stream changes from one step to the next: it ends by a fault only if something no
longer matches, or if the listener says so. -/
theorem GrammarSpec.build_resolves (spec : GrammarSpec) (registry : TerminalRegistry) :
    ((∃ g, spec.build registry = .ok g) ↔ spec.WellFormed registry) ∧
    ∀ g, spec.build registry = .ok g →
      spec.Describes registry g ∧
      (∀ state ∈ g.states, ∀ production ∈ state.productions, ∀ e ∈ production, 0 ≤ e.color.index ∧
        (registry = .standard → ∀ t bounds, e.target = .terminal t → t.bounds? = some bounds →
          bounds.min ≤ bounds.max ∧ 1 ≤ bounds.max)) ∧
      ∀ r, Run.Arises g r → ∀ s,
        (∀ fault, r.plan s = .error fault → ∃ element, fault = .inconsistent element r.position) ∧
        ∀ {σ : Type} (l : Listener σ) (memory : σ), (r.step l s memory).1.phase = .failed →
          r.phase = .failed ∨ ∃ heard fault, r.step l s memory = (r.fail, l.abort heard fault r.position) ∧
            ((∃ element, fault = .inconsistent element r.position) ∨ ∃ event, l.hear memory event = (heard, some fault)) := by
  refine ⟨exists_build_iff, ?_⟩
  intro g hg
  have hdescribes := (build_eq_ok_iff.1 hg).2
  refine ⟨hdescribes, ?_, ?_⟩
  · intro state hs production hp e he
    obtain ⟨element, helement⟩ := hdescribes.becomes hs hp he
    refine ⟨by rw [helement.color]; exact Int.natCast_nonneg _, ?_⟩
    rintro rfl t bounds ht
    exact hdescribes.hasRoom hs hp he ht bounds
  · intro r harises s
    have hr := harises.rooted (closed_of_build hg)
    exact ⟨fun fault h => hr.inconsistent_of_plan h, fun l memory h => hr.told_of_failed h⟩

/-- A list of items, each a number of two to four digits or a list in parentheses: its states refer to themselves and to each
other, and the first one is not the start state. -/
def outlineSpec : GrammarSpec :=
  let reference (state : String) : ElementSpec := { ElementSpec.blank with state, word := true }
  let token (lexeme : String) : ElementSpec := { ElementSpec.blank with terminal := "token", value := lexeme }
  ⟨"outline", some "list",
    [⟨"item", [[{ ElementSpec.blank with terminal := "number", color := 3, min := some 2, max := some 4 }],
      [token "(", reference "list", token ")"]]⟩,
     ⟨"list", [[reference "item", reference "list"], [reference "item"]]⟩]⟩

/-- The grammar of `outlineSpec`. -/
def outline : Grammar :=
  let reference (id : Nat) : Element := ⟨.state id, .plain, true, true⟩
  let token (lexeme : String) : Element := ⟨.terminal (.token lexeme), .plain, true, false⟩
  ⟨"outline",
    [⟨"item", [[⟨.terminal (.run .digit ⟨2, 4⟩), ⟨3⟩, true, false⟩], [token "(", reference 1, token ")"]]⟩,
     ⟨"list", [[reference 0, reference 1], [reference 0]]⟩], 1⟩

/-- A run over the outline whose stream is another one once it has found an item. -/
theorem build_resolves_outline :
    outlineSpec.build .standard = .ok outline ∧ outlineSpec.WellFormed .standard ∧ outlineSpec.Describes .standard outline ∧
      Run.Arises outline ((Run.start outline 5).step notebook (.ofString "12") #[]).1 ∧
      ((Run.start outline 5).step notebook (.ofString "12") #[]).1.plan (.ofString "ab") = .error (.inconsistent "item" 0) ∧
      ∃ element, ParseFault.inconsistent "item" 0 =
        .inconsistent element ((Run.start outline 5).step notebook (.ofString "12") #[]).1.position := by
  have hg : outlineSpec.build .standard = .ok outline := by decide +kernel
  have harises := (Run.Arises.start (g := outline) 5).step notebook (.ofString "12") #[]
  have hplan : ((Run.start outline 5).step notebook (.ofString "12") #[]).1.plan (.ofString "ab") =
      .error (.inconsistent "item" 0) := by decide +kernel
  obtain ⟨hwell, hbuilt⟩ := GrammarSpec.build_resolves outlineSpec .standard
  obtain ⟨hdescribes, -, hfaults⟩ := hbuilt outline hg
  exact ⟨hg, hwell.1 ⟨outline, hg⟩, hdescribes, harises, hplan, (hfaults _ harises (.ofString "ab")).1 _ hplan⟩

end LiveHighlight
