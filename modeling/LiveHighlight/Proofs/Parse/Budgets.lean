import LiveHighlight.Proofs.Parse.Faults
import LiveHighlight.Proofs.Parse.Lockstep
import LiveHighlight.Proofs.Parse.Refusals
import LiveHighlight.Proofs.Parse.Termination

/-!
# Budgets that are large enough

The depth budget is there for states that refer to themselves. Where every chain of references from the start state visits at most
as many states as a run has levels (`Grammar.Shallow`), lookahead never comes to a state for which there is no level left
(`Grammar.CutOff`), and the budget has no say: runs with other budgets that are large enough tell the same to whoever listens
(`Grammar.budget_irrelevant`). Lookahead that is not cut off is what it would be within any larger budget
(`Grammar.select_of_not_cutOff`).
-/

namespace LiveHighlight

namespace Grammar

/-- Whether an element of a state refers to another one. -/
def Refers (g : Grammar) (id id' : Nat) : Prop :=
  ∃ state production e, g.state? id = some state ∧ production ∈ state.productions ∧ e ∈ production ∧ e.target = .state id'

/-- Whether no chain of references that begins at a state of the grammar visits more states than there are levels. -/
structure Shallow (g : Grammar) (depth id : Nat) : Prop where
  inside : id < g.states.length
  chain : ∀ rest, (id :: rest).IsChain g.Refers → (id :: rest).length ≤ depth

/-- Whether lookahead for a state at `pos`, with `depth` levels left below it, comes to look for another state at `pos'`: the
productions before do not match, and neither does lookahead end before the element that refers to the other state. -/
def Consults (g : Grammar) (s : Stream) (depth id pos id' pos' : Nat) : Prop :=
  ∃ state earlier before e after later length, g.state? id = some state ∧
    state.productions = earlier ++ (before ++ e :: after) :: later ∧
    (∀ production ∈ earlier, sequenceLength (Element.lengthAt (g.select s depth) s) production pos = .ok none) ∧
    sequenceLength (Element.lengthAt (g.select s depth) s) before pos = .ok (some length) ∧
    e.target = .state id' ∧ pos' = pos + length

/-- Whether lookahead for a state is cut off: it comes to look for a state for which no level is left. -/
inductive CutOff (g : Grammar) (s : Stream) : (depth id pos : Nat) → Prop
  | spent (id pos : Nat) : CutOff g s 0 id pos
  | nested {depth id pos id' pos' : Nat} (consults : g.Consults s depth id pos id' pos') (cut : CutOff g s depth id' pos') :
    CutOff g s (depth + 1) id pos

/-- Visits of the same state, each with enough levels for all that the state refers to. -/
def BothShallow (g : Grammar) (v v' : Visit) : Prop := v.id = v'.id ∧ g.Shallow v.depth v.id ∧ g.Shallow v'.depth v'.id

end Grammar

namespace BudgetAux

open LockstepAux

/-! ## Lookahead that is not cut off -/

section

variable {lengthAt lengthAt' : Element → Nat → Except ParseFault (Option Nat)}

/-- Elements match the same one after the other if each of them does that lookahead comes to. -/
theorem sequenceLength_congr {es : List Element} {pos : Nat}
    (h : ∀ before e after length, es = before ++ e :: after → sequenceLength lengthAt before pos = .ok (some length) →
      lengthAt e (pos + length) = lengthAt' e (pos + length)) :
    sequenceLength lengthAt es pos = sequenceLength lengthAt' es pos := by
  induction es generalizing pos with
  | nil => rfl
  | cons e es ih =>
    have he : lengthAt e pos = lengthAt' e pos := h [] e es 0 rfl rfl
    rw [sequenceLength, sequenceLength, ← he]
    cases hfound : lengthAt e pos with
    | error fault => rfl
    | ok found =>
      cases found with
      | none => rfl
      | some length =>
        have hrest : sequenceLength lengthAt es (pos + length) = sequenceLength lengthAt' es (pos + length) := by
          refine ih fun before e' after more hes hbefore => ?_
          have hmore := h (e :: before) e' after (length + more) (by rw [hes, List.cons_append])
            (by rw [sequenceLength, hfound]; simp only [hbefore]; rfl)
          rwa [← Nat.add_assoc] at hmore
        simp only [hrest]

/-- Of some productions, the same one is the first to match if each of them matches the same that lookahead comes to. -/
theorem firstSelection_congr {ps : List Production} {pos : Nat}
    (h : ∀ earlier p later, ps = earlier ++ p :: later → (∀ q ∈ earlier, sequenceLength lengthAt q pos = .ok none) →
      sequenceLength lengthAt p pos = sequenceLength lengthAt' p pos) (index : Nat) :
    firstSelection lengthAt pos index ps = firstSelection lengthAt' pos index ps := by
  induction ps generalizing index with
  | nil => rfl
  | cons p ps ih =>
    have hp : sequenceLength lengthAt p pos = sequenceLength lengthAt' p pos := h [] p ps rfl (by simp)
    rw [firstSelection, firstSelection, ← hp]
    cases hfound : sequenceLength lengthAt p pos with
    | error fault => rfl
    | ok found =>
      cases found with
      | some length => rfl
      | none =>
        refine ih (fun earlier q later hps hearlier => ?_) (index + 1)
        refine h (p :: earlier) q later (by rw [hps, List.cons_append]) ?_
        rintro _ (_ | ⟨_, hmem⟩)
        · exact hfound
        · exact hearlier _ hmem

end

end BudgetAux

/-- Lookahead that is not cut off takes what it would take within any larger budget. -/
theorem Grammar.select_of_not_cutOff {g : Grammar} {s : Stream} {depth id pos : Nat} (h : ¬g.CutOff s depth id pos) (more : Nat) :
    g.select s (depth + more) id pos = g.select s depth id pos := by
  induction depth generalizing id pos with
  | zero => exact absurd (.spent id pos) h
  | succ depth ih =>
    rw [Nat.add_right_comm]
    simp only [Grammar.select]
    cases hs : g.state? id with
    | none => rfl
    | some state =>
      symm
      refine BudgetAux.firstSelection_congr (fun earlier p later hps hearlier => ?_) 0
      refine BudgetAux.sequenceLength_congr fun before e after length hp hbefore => ?_
      unfold Element.lengthAt
      split
      · rfl
      · next id' ht =>
        -- if this lookahead were cut off, so would be the one that comes to it
        have hconsults : g.Consults s depth id pos id' (pos + length) :=
          ⟨state, earlier, before, e, after, later, length, hs, hp ▸ hps, hearlier, hbefore, ht, rfl⟩
        rw [ih fun hcut => h (.nested hconsults hcut)]

namespace Grammar.Shallow

variable {g : Grammar} {s : Stream} {depth id id' start : Nat}

/-- The state itself needs a level. -/
theorem pos (h : g.Shallow depth id) : 0 < depth := h.chain [] (.singleton id)

/-- A state that another one refers to needs a level less. -/
theorem of_refers (hg : g.Closed) (h : g.Shallow (depth + 1) id) (href : g.Refers id id') : g.Shallow depth id' where
  inside := by
    obtain ⟨state, production, e, hs, hp, he, ht⟩ := href
    exact hg.references state (List.mem_of_getElem? hs) production hp e he id' ht
  chain rest hrest := Nat.le_of_succ_le_succ (h.chain (id' :: rest) (List.isChain_cons_cons.2 ⟨href, hrest⟩))

/-- Lookahead is not cut off if there are enough levels. The induction is on how it would be. -/
theorem not_cutOff (hg : g.Closed) (h : g.Shallow depth id) : ¬g.CutOff s depth id start := by
  intro hcut
  induction hcut with
  | spent => exact Nat.lt_irrefl 0 h.pos
  | nested consults _ ih =>
    obtain ⟨state, earlier, before, e, after, later, length, hs, hps, -, -, ht, -⟩ := consults
    exact ih (h.of_refers hg ⟨state, before ++ e :: after, e, hs, by simp [hps], by simp, ht⟩)

end Grammar.Shallow

namespace BudgetAux

open LockstepAux

variable {g : Grammar} {s : Stream} {r r' : Run}

/-! ## Runs with enough levels -/

/-- A grammar matches like itself within any budgets that are large enough. -/
theorem corresponds (hg : g.Closed) : g.Corresponds g.BothShallow Eq g where
  spent := by
    rintro v v' ⟨-, h, h'⟩
    have hpos := h.pos
    have hpos' := h'.pos
    omega
  states := by
    rintro depth depth' id _ ⟨rfl, h, h'⟩
    obtain ⟨state, -, hs⟩ := Grammar.exists_state h.inside
    refine ⟨state, state, hs, hs, rfl, List.forall₂_same.2 fun production hp => List.forall₂_same.2 fun e he => ⟨?_, rfl⟩⟩
    cases ht : e.target with
    | terminal t => exact .terminal t
    | state id' =>
      have href : g.Refers id id' := ⟨state, production, e, hs, hp, he, ht⟩
      exact .state ⟨rfl, h.of_refers hg href, h'.of_refers hg href⟩

/-- A start state from which no chain visits more than `k` states has enough levels in a run that has `k`. -/
theorem shallow_start (hg : g.Closed) {k budget : Nat}
    (hk : ∀ chain : List Nat, chain.head? = some g.start → chain.IsChain g.Refers → chain.length ≤ k) (hbudget : k ≤ budget) :
    g.Shallow (max budget 1) g.start :=
  ⟨hg.start, fun rest hrest => Nat.le_trans (hk (g.start :: rest) rfl hrest) (Nat.le_trans hbudget (Nat.le_max_left budget 1))⟩

theorem inStep_start (hg : g.Closed) {d d' : Nat} (h : g.Shallow (max d 1) g.start) (h' : g.Shallow (max d' 1) g.start) :
    (Run.start g d).InStep g.BothShallow Eq (Run.start g d') :=
  ⟨corresponds hg, ⟨.state ⟨rfl, h, h'⟩, rfl⟩, .nil, rfl, rfl⟩

/-- Two runs in step whose elements look the same tell the same next. -/
theorem told_eq (h : r.InStep g.BothShallow Eq r') (hr : r.Sound s) : r.told s = r'.told s := by
  rcases h.told hr with ⟨htold, htold'⟩ | ⟨e, e', depth, depth', sighting, -, -, halike, htold, htold', -⟩
  · rw [htold, htold']
  · rw [htold, htold', halike.looks]

/-- A step that somebody listens to does not bring two runs out of step whose elements look the same, and the same is heard of
both. Either the runs go where they go if nobody listens, or both of them have ended. -/
theorem step_eq {σ : Type} (h : r.InStep g.BothShallow Eq r') (hr : r.Sound s) (hr' : r'.Sound s) (l : Listener σ) (memory : σ) :
    ∃ x x' heard, r.step l s memory = (x, heard) ∧ r'.step l s memory = (x', heard) ∧ x.InStep g.BothShallow Eq x' ∧
      (x = r.ahead s 1 ∧ x' = r'.ahead s 1 ∨ x.phase ≠ .running ∧ x'.phase ≠ .running) := by
  have hnext := h.ahead_one hr
  cases htold : r.told s with
  | none =>
    have htold' : r'.told s = none := (told_eq h hr).symm.trans htold
    exact ⟨_, _, memory, RefusalAux.step_of_silent hr htold memory, RefusalAux.step_of_silent hr' htold' memory, hnext,
      .inl ⟨rfl, rfl⟩⟩
  | some e =>
    have htold' : r'.told s = some e := (told_eq h hr).symm.trans htold
    have hstep := (RefusalAux.step_of_told (l := l) htold memory).2
    have hstep' := (RefusalAux.step_of_told (l := l) htold' memory).2
    rcases hh : l.hear memory e with ⟨heard, refused⟩
    rw [hh] at hstep hstep'
    cases refused with
    | none => exact ⟨_, _, heard, hstep, hstep', hnext, .inl ⟨rfl, rfl⟩⟩
    | some fault =>
      -- both runs have failed, where they stand and with nothing pending
      rw [← h.position] at hstep'
      refine ⟨_, _, _, hstep, hstep', ⟨h.grammars, h.start, .nil, h.position, rfl⟩, .inr ?_⟩
      simp [Run.fail]

/-- However many steps are taken and whoever listens, the runs stay in step, and the same is heard of both. -/
theorem advance_eq {σ : Type} (h : r.InStep g.BothShallow Eq r') (hr : r.Sound s) (hr' : r'.Sound s) (l : Listener σ) (memory : σ)
    (n : Nat) :
    ∃ x x' heard, r.advance l s n memory = (x, heard) ∧ r'.advance l s n memory = (x', heard) ∧
      x.InStep g.BothShallow Eq x' := by
  induction n generalizing r r' memory with
  | zero => exact ⟨r, r', memory, rfl, rfl, h⟩
  | succ n ih =>
    obtain ⟨x, x', heard, hstep, hstep', hnext, hwhere⟩ := step_eq h hr hr' l memory
    rw [Run.advance_succ, Run.advance_succ, hstep, hstep']
    rcases hwhere with ⟨rfl, rfl⟩ | ⟨hended, hended'⟩
    · exact ih hnext (RunTraceAux.sound_ahead hr 1) (RunTraceAux.sound_ahead hr' 1) heard
    · exact ⟨x, x', heard, Run.advance_of_ended hended heard n, Run.advance_of_ended hended' heard n, hnext⟩

/-- What a run looks for next is not cut off if it is in step with a run. -/
theorem not_cutOff (h : r.InStep g.BothShallow Eq r') (hg : g.Closed) (hgrammar : r.grammar = g) {next : Pending}
    {rest : List Pending} (hnext : r.Next s next rest) {e : Element} (he : g.elementAt next.site = .ok e) {id : Nat}
    (ht : e.target = .state id) : ¬g.CutOff s next.depth id r.position := by
  obtain ⟨next', -, e', -, -, -, -, halike⟩ := next_alike h hnext (hgrammar ▸ he)
  rcases halike.target.cases with ⟨t, hterminal, -⟩ | ⟨id, id', hvisit, hstate, -⟩
  · rw [ht] at hterminal
    cases hterminal
  · obtain rfl := Target.state.inj (ht.symm.trans hstate)
    exact hvisit.2.1.not_cutOff hg

end BudgetAux

open BudgetAux

/-- Runs over a grammar that was built, in which no chain of references from the start state visits more than `k` states, have no
use for more than `k` levels. Two runs that have as many tell the same: after any number of steps, whoever listens has heard the
same of both of them, and they are in the same phase and at the same position, and so they are in the end. No lookahead of these
runs comes to a state for which no level is left. -/
theorem Grammar.budget_irrelevant {spec : GrammarSpec} {registry : TerminalRegistry} {g : Grammar}
    (hg : spec.build registry = .ok g) {k : Nat}
    (hk : ∀ chain : List Nat, chain.head? = some g.start → chain.IsChain g.Refers → chain.length ≤ k)
    {d d' : Nat} (hd : k ≤ d) (hd' : k ≤ d') (s : Stream) :
    g.notes s d = g.notes s d' ∧
    ∀ {σ : Type} (l : Listener σ) (memory : σ),
      (∀ n, ∃ r r' heard, (Run.start g d).advance l s n memory = (r, heard) ∧
        (Run.start g d').advance l s n memory = (r', heard) ∧ r.phase = r'.phase ∧ r.position = r'.position) ∧
      (∃ r r' heard, (Run.start g d).toEnd l s memory = (r, heard) ∧
        (Run.start g d').toEnd l s memory = (r', heard) ∧ r.phase = r'.phase ∧ r.position = r'.position) ∧
      ∀ budget ∈ [d, d'], ∀ n next rest e id,
        ((Run.start g budget).advance l s n memory).1.Next s next rest → g.elementAt next.site = .ok e → e.target = .state id →
          ¬g.CutOff s next.depth id ((Run.start g budget).advance l s n memory).1.position := by
  have hc := closed_of_build hg
  have hstart {budget : Nat} (hbudget : k ≤ budget) := shallow_start hc hk hbudget
  have hsteps := inStep_start hc (hstart hd) (hstart hd')
  have hsound := RunTraceAux.sound_start hc s
  have advance {σ : Type} (l : Listener σ) (memory : σ) (n : Nat) := advance_eq hsteps (hsound d) (hsound d') l memory n
  have toEnd {σ : Type} (l : Listener σ) (memory : σ) : ∃ r r' heard, (Run.start g d).toEnd l s memory = (r, heard) ∧
      (Run.start g d').toEnd l s memory = (r', heard) ∧ r.phase = r'.phase ∧ r.position = r'.position := by
    obtain ⟨bound, hbound⟩ := Grammar.runs_end hg s d
    obtain ⟨hended, htoEnd⟩ := hbound l memory
    obtain ⟨r, r', heard, hr, hr', hstep⟩ := advance l memory bound
    have hphase : r.phase ≠ .running := by simpa [hr] using hended bound Nat.le.refl
    exact ⟨r, r', heard, htoEnd.trans hr, Run.Leads.toEnd ⟨bound, hr'⟩ (hstep.phase ▸ hphase), hstep.phase, hstep.position⟩
  refine ⟨?_, fun l memory => ⟨fun n => ?_, toEnd l memory, ?_⟩⟩
  · obtain ⟨r, r', heard, hr, hr', -⟩ := toEnd notebook #[]
    rw [Grammar.notes, Grammar.notes, hr, hr']
  · obtain ⟨r, r', heard, hr, hr', hstep⟩ := advance l memory n
    exact ⟨r, r', heard, hr, hr', hstep.phase, hstep.position⟩
  · intro budget hmem n next rest e id hnext he ht
    have hbudget : k ≤ budget := by
      rcases List.mem_pair.1 hmem with rfl | rfl
      · exact hd
      · exact hd'
    obtain ⟨r, r', heard, hr, -, hstep⟩ :=
      advance_eq (inStep_start hc (hstart hbudget) (hstart hbudget)) (hsound budget) (hsound budget) l memory n
    have hgrammar := Run.grammar_advance (l := l) (s := s) (Run.start g budget) memory n
    rw [hr] at hnext hgrammar ⊢
    exact not_cutOff hstep hc hgrammar hnext he ht

/-- Chains of references are short if each reference leads to a state of a lower rank. -/
theorem Grammar.length_le_of_rank {g : Grammar} (rank : Nat → Nat) (h : ∀ id id', g.Refers id id' → rank id' < rank id)
    {chain : List Nat} {id : Nat} (hid : chain.head? = some id) (hchain : chain.IsChain g.Refers) : chain.length ≤ rank id + 1 := by
  induction chain generalizing id with
  | nil => cases hid
  | cons first rest ih =>
    obtain rfl := Option.some.inj hid
    cases rest with
    | nil => exact Nat.le_add_left 1 _
    | cons second rest =>
      obtain ⟨href, hrest⟩ := List.isChain_cons_cons.1 hchain
      have hlength := ih rfl hrest
      have hrank := h _ _ href
      rw [List.length_cons]
      omega

/-- A state above a state above a state that is a number. The one in the middle may be a one instead. -/
def layeredSpec : GrammarSpec :=
  let reference (state : String) : ElementSpec := { ElementSpec.blank with state, visible := some true }
  let terminal (cls : String) (value : Option String) : ElementSpec := { ElementSpec.blank with terminal := cls, value }
  ⟨"layered", none,
    [⟨"start", [[reference "middle"]]⟩,
     ⟨"middle", [[reference "lowest"], [terminal "token" "1"]]⟩,
     ⟨"lowest", [[terminal "number" none]]⟩]⟩

/-- The grammar of `layeredSpec`. -/
def layered : Grammar :=
  let reference (id : Nat) : Element := ⟨.state id, .plain, true, false⟩
  let terminal (t : Terminal) : Element := ⟨.terminal t, .plain, true, false⟩
  ⟨"layered",
    [⟨"start", [[reference 1]]⟩, ⟨"middle", [[reference 2], [terminal (.token "1")]]⟩,
     ⟨"lowest", [[terminal (.run .digit .run)]]⟩], 0⟩

/-- Three levels are as good as thirty for three layers, and two are not: lookahead is cut off at the lowest state, and the one in
the middle is a one. -/
theorem budget_irrelevant_layered :
    layeredSpec.build .standard = .ok layered ∧
    (∀ chain : List Nat, chain.head? = some layered.start → chain.IsChain layered.Refers → chain.length ≤ 3) ∧
    layered.notes (.ofString "1") 3 = layered.notes (.ofString "1") 30 ∧
    layered.notes (.ofString "1") 2 ≠ layered.notes (.ofString "1") 3 ∧
    ¬layered.CutOff (.ofString "1") 3 0 0 ∧ layered.CutOff (.ofString "1") 2 0 0 := by
  have hg : layeredSpec.build .standard = .ok layered := by decide +kernel
  have hfall : ∀ id < 3, ∀ state ∈ layered.state? id, ∀ production ∈ state.productions, ∀ e ∈ production, ∀ id' ∈ e.state?,
      2 - id' < 2 - id := by decide +kernel
  have hrefers (id id' : Nat) (h : layered.Refers id id') : 2 - id' < 2 - id := by
    obtain ⟨state, production, e, hs, hp, he, ht⟩ := h
    obtain ⟨hid, -⟩ := List.getElem?_eq_some_iff.1 hs
    exact hfall id hid state hs production hp e he id' (by simp [Element.state?, ht])
  have hchains (chain : List Nat) (hhead : chain.head? = some layered.start) (hchain : chain.IsChain layered.Refers) :
      chain.length ≤ 3 := Grammar.length_le_of_rank (2 - ·) hrefers hhead hchain
  have hend (d : Nat) (hended : ((Run.start layered d).advance notebook (.ofString "1") 6 #[]).1.phase ≠ .running) :
      layered.notes (.ofString "1") d = ((Run.start layered d).advance notebook (.ofString "1") 6 #[]).2 :=
    Grammar.notes_of_advance rfl hended
  have hless : 3 ≤ 30 := by decide
  obtain ⟨hnotes, hruns⟩ := Grammar.budget_irrelevant hg hchains (Nat.le_refl 3) hless (.ofString "1")
  obtain ⟨-, -, hcut⟩ := hruns notebook #[]
  refine ⟨hg, hchains, hnotes, ?_, hcut 3 (.head _) 0 ⟨.top, 3⟩ [] _ 0 (.inr ⟨rfl, rfl, rfl, by decide⟩) rfl rfl, ?_⟩
  · rw [hend 2 (by decide +kernel), hend 3 (by decide +kernel)]
    decide +kernel
  · -- the start state consults the one in the middle, and that one the lowest
    have hmiddle : layered.Consults (.ofString "1") 1 0 0 1 0 := ⟨_, [], [], _, [], [], 0, rfl, rfl, by simp, rfl, rfl, rfl⟩
    have hlowest : layered.Consults (.ofString "1") 0 1 0 2 0 := ⟨_, [], [], _, [], _, 0, rfl, rfl, by simp, rfl, rfl, rfl⟩
    exact .nested hmiddle (.nested hlowest (.spent 2 0))

end LiveHighlight
