import LiveHighlight.Proofs.Session.Serving

/-!
# Live highlighting converges

`Course.converges`: whenever the host is heard and the handler of a document is enabled and its slot is free because a parse
finished, the document is annotated as one uninterrupted parse of its text annotates it, whatever happened before. A document
that is not as it should be is one whose handler is about to hear of it (`Settled`), or whose slot is in use.
-/

namespace LiveHighlight

namespace Machine

/-- Whether the next task ends a step in which the worker of a slot finished. -/
def finishes (m : Machine) (k : Nat) : Bool :=
  match m.agenda with
  | .conclude _ slot g _ (.ok .finished) :: _ => decide (slot = k ∧ g = (m.session.scheduler.slot k).generation)
  | _ => false

/-- Whether a slot is free because its worker finished: it has been free ever since. -/
def rests (k : Nat) : List Machine → Machine → Bool
  | [], _ => false
  | p :: past, m => (m.session.scheduler.slot k).isFree && (p.finishes k || rests k past p)

end Machine

/-- Whether a document with lines `b` is as its handler's parses leave it, as long as the handler is enabled, or the handler is
about to ask for a parse or has asked for one. -/
def Settled (h : Nat) (hd : Handler) (b : Buffer) (agenda : List Task) : Prop :=
  hd.enabled = true → Told h hd.document agenda ∨ (∃ w delay, .install hd.slot w delay ∈ agenda) ∨
    b = b.highlighted hd.grammar hd.options

namespace HighlightingAux

variable {past : List Machine} {m : Machine} {s : Session} {o o' : Office} {t : Task} {rest new : List Task} {h k : Nat}
  {hd hd' : Handler} {b : Buffer}

/-- What a finishing worker leaves behind is a step to be ended. -/
theorem conclude_of_finishes (hf : m.finishes k = true) :
    ∃ r w rest, m.agenda = .conclude r k (m.session.scheduler.slot k).generation w (.ok .finished) :: rest := by
  unfold Machine.finishes at hf
  split at hf
  · rename_i r slot g w rest ha
    obtain ⟨rfl, rfl⟩ := of_decide_eq_true hf
    exact ⟨r, w, rest, ha⟩
  · cases hf

/-- A slot that a worker is put into is in use. -/
theorem used_of_install {delay : Nat} {w : Worker} (hc : Calmly k o (.install k w delay :: rest))
    (ht : Turn o (.install k w delay) o' new) : (o'.scheduler.slot k).phase ≠ .free := by
  have hk : o.scheduler.Knows k := hc.known.tasks _ (.head _) k rfl
  have hnew := UnderWayAux.new_of_install hc ht
  cases ht with
  | quiet hq => cases hq
  | @install _ _ at_ =>
    have hv := congrArg (fun v => v.1.phase) (Scheduler.view_install hk w at_)
    simp only [Scheduler.view] at hv
    simp [hv]
  | evict => cases hnew

/-- Nothing is out of step when a parse finishes. -/
theorem settled_of_finishes {r : Round} {w : Worker}
    (ho : Orderly (.conclude r hd.slot (o.scheduler.slot hd.slot).generation w (.ok .finished) :: rest))
    (he : Tended h hd b o (.conclude r hd.slot (o.scheduler.slot hd.slot).generation w (.ok .finished) :: rest)) :
    b = b.highlighted hd.grammar hd.options := by
  obtain rfl := ho.alone rfl
  obtain ⟨i, d, job, token, rfl, hdone⟩ := he.finished r _ w (.head _)
  rcases he.engaged _ (.inr ⟨r, _, .head _⟩) with hhead | ⟨-, i', job', hw, htold | hstep⟩
  · cases hhead
  · obtain ⟨x, hx, htells⟩ := htold
    obtain rfl := List.mem_singleton.1 hx
    cases htells
  · cases hw
    exact hstep.ended (.inr hdone)

/-- What is settled stays settled while the slot is free. -/
theorem settled_stroke (hc : Calmly hd.slot s.office (t :: rest))
    (he : Tended h hd (s.document hd.document).buffer s.office (t :: rest)) (ht : Turn s.office t o' new)
    (hs : Stroke h hd s t hd' b new) (free : (o'.scheduler.slot hd.slot).phase = .free)
    (settled : Settled h hd (s.document hd.document).buffer (t :: rest)) : Settled h hd' b (new ++ rest) := by
  intro enabled
  cases hs with
  | plain hreq hclear hn hk tells =>
    rcases settled enabled with htold | ⟨w, delay, hx⟩ | hdone
    · exact .inl (UnderWayAux.told_append htold fun ht => tells ht enabled)
    · rcases List.mem_cons.1 hx with rfl | hx
      · exact absurd free (used_of_install hc ht)
      · exact .inr (.inl ⟨w, delay, List.mem_append_right _ hx⟩)
    · exact .inr (.inr hdone)
  | edit hout hn hk told => exact .inl (UnderWayAux.told_of_new told)
  | ask => exact .inl ⟨_, .head _, by simp [Task.tells]⟩
  | disable => cases enabled
  | request => exact .inr (.inl ⟨_, _, .tail _ (.head _)⟩)
  | clear =>
    have hdis : hd.enabled = false := UnderWayAux.fits_of_errand he.errand (by simp [Task.presses])
    rw [hdis] at enabled
    cases enabled
  | work =>
    have hlent := UnderWayAux.lent_of_round ht (List.mem_append_right _ (.head _))
    rw [hlent.2] at free
    cases free

/-- What is settled is as it should be where nothing is left to do. -/
theorem highlighted_of_settled (hs : Settled h hd b []) (enabled : hd.enabled = true) :
    b = b.highlighted hd.grammar hd.options := by
  rcases hs enabled with ⟨x, hx, -⟩ | ⟨w, delay, hx⟩ | hdone
  · cases hx
  · cases hx
  · exact hdone

/-- A slot that rests is free, and rested before unless its worker has just finished. -/
theorem rests_cons {p : Machine} (hr : Machine.rests k (p :: past) m = true) :
    (m.session.scheduler.slot k).phase = .free ∧ (p.finishes k = true ∨ Machine.rests k past p = true) := by
  obtain ⟨hfree, hback⟩ := Bool.and_eq_true_iff.1 hr
  exact ⟨of_decide_eq_true hfree, Bool.or_eq_true_iff.1 hback⟩

/-- No worker has just finished when the host asks something. -/
theorem rests_of_idle {p : Machine} (hr : Machine.rests k (p :: past) m = true) (idle : p.Idle) :
    Machine.rests k past p = true := by
  rcases (rests_cons hr).2 with hf | hback
  · obtain ⟨r, w, rest, ha⟩ := conclude_of_finishes hf
    rw [idle.1] at ha
    cases ha
  · exact hback

/-- A slot that rests is known. -/
theorem knows_of_rests (run : Machine.Course past m) (hr : Machine.rests k past m = true) :
    m.Crashed ∨ m.session.scheduler.Knows k := by
  induction run with
  | new options => cases hr
  | ask c run idle ih => exact .inr ((ih (rests_of_idle hr idle)).resolve_left idle.not_crashed)
  | @step past m t rest run ha ih =>
    have busy := Machine.not_crashed_of_agenda ha
    have before : m.session.scheduler.Knows k := by
      rcases (rests_cons hr).2 with hf | hback
      · obtain ⟨r, w, rest', ha'⟩ := conclude_of_finishes hf
        have hknown := run.known.resolve_left busy
        rw [ha'] at hknown
        exact hknown.tasks _ (.head _) k rfl
      · exact (ih hback).resolve_left busy
    rcases run.turn ha with ⟨hc, -⟩ | ⟨new, -, hturn, -⟩
    · exact .inl hc
    · exact .inr (hturn.knows before)

/-- The slot of a handler that is attached now cannot rest: it was not there before. -/
theorem not_rests_of_attached {k : Desk} (run : Machine.Course past m) (ha : m.agenda = t :: rest) (page : Page m.session t k new)
    (absent : m.session.handlers[h]? = none) (held : k.handlers[h]? = some hd) :
    ¬ (m.finishes hd.slot = true ∨ Machine.rests hd.slot past m = true) := by
  obtain ⟨hd', hs, -⟩ | ⟨-, hslot, -, -, name, plan, asker, rfl⟩ := AttendanceAux.handler_page page held
  · rw [absent] at hs
    cases hs
  · rintro (hf | hback)
    · obtain ⟨r, w, rest', ha'⟩ := conclude_of_finishes hf
      rw [ha] at ha'
      cases ha'
    · have hk := (knows_of_rests run hback).resolve_left (Machine.not_crashed_of_agenda ha)
      rw [hslot] at hk
      exact Nat.lt_irrefl _ hk

/-- A grammar that takes the digit one and colors it. -/
def ones : Grammar := ⟨"ones", [⟨"start", [[⟨.terminal (.token "1"), .ofNat 2, true, false⟩]]⟩], 0⟩

/-- A document with a handler is edited, and edited once more in the middle of the parse. -/
def edited : List Machine × Machine :=
  Machine.talk 128
    [.document "d" "1" none, .handler "h" ⟨true, some "d", [.built (.ok ones)], .standard⟩,
     .onDocument "d" (.edit (.setText "2")), .drive .tick 1, .onDocument "d" (.edit (.setText "11")), .drive .untilIdle 9]
    ([], ⟨.new .standard, [], none⟩)

theorem handlers_edited :
    edited.2.session.handlers.map (fun hd => (hd.document, hd.grammar, hd.options, hd.slot, hd.enabled, hd.isDisposed)) =
      [(0, ones, .standard, 0, true, false)] := by decide +kernel

end HighlightingAux

open HighlightingAux

namespace Machine.Course

variable {past : List Machine} {m : Machine} {h : Nat} {hd : Handler}

/-- Where the slot of a handler rests, its document is settled. -/
theorem settled (run : Course past m) (spared : ∀ p ∈ past, p.session.spares hd.document p.agenda = true)
    (held : m.session.handlers[h]? = some hd) (live : hd.isDisposed = false) (sole : m.session.desk.Sole h hd.document)
    (hr : rests hd.slot past m = true) :
    m.Crashed ∨ Settled h hd (m.session.document hd.document).buffer m.agenda := by
  induction run generalizing hd with
  | new options => cases hr
  | ask c run idle ih =>
    right
    intro enabled
    have hs := (ih (fun p hp => spared p (.tail _ hp)) held live sole (rests_of_idle hr idle)).resolve_left idle.not_crashed
    rw [idle.1] at hs
    exact .inr (.inr (highlighted_of_settled hs enabled))
  | @step past m t rest run ha ih =>
    obtain ⟨free, hback⟩ := rests_cons hr
    have busy := not_crashed_of_agenda ha
    have spares := spared m (.head _)
    have before := fun p hp => spared p (.tail _ hp)
    obtain ⟨hg, hserved⟩ := (run.served before).resolve_left busy
    rcases run.page ha with hc | ⟨new, hn, turn, page⟩
    · exact .inl hc
    right
    cases hh : m.session.handlers[h]? with
    | none => exact absurd hback (not_rests_of_attached run ha page hh held)
    | some hd₀ =>
      obtain ⟨hd', hh', later⟩ := AttendanceAux.later_page page hh
      obtain rfl := Option.some.inj (held.symm.trans hh')
      rw [later.document] at hg hserved before spares sole ⊢
      rw [later.slot] at free hback
      have live₀ := later.live live
      have sole₀ := page.sole sole
      have hs := hserved h hd₀ hh rfl live₀ sole₀
      have hsettled : Settled h hd₀ (m.session.document hd₀.document).buffer m.agenda := by
        rcases hback with hf | hback
        · obtain ⟨r, w, rest', ha'⟩ := conclude_of_finishes hf
          rw [ha'] at hg hs
          exact fun _ => .inr (.inr (settled_of_finishes hg.orderly hs.tended))
        · exact (ih before hh live₀ sole₀ hback).resolve_left busy
      rw [ha] at hg hs hsettled spares
      have stroke := page.stroke (ServingAux.posted_of_served hg hs hh sole₀) spares turn held live
      rw [hn]
      exact settled_stroke hs.calmly hs.tended turn stroke free hsettled

/-- Live highlighting converges. A course may edit the document in any way, switch its handler on and off, pause and stop it, let
work run for as long as it likes and see to any other work, as long as it spares the document's annotations: once the host is
heard, the handler is enabled and its slot is free because a parse finished, the document is annotated as one uninterrupted parse
of its text annotates it. -/
theorem converges (run : Course past m) (spared : ∀ p ∈ past, p.session.spares hd.document p.agenda = true) (idle : m.Idle)
    (held : m.session.handlers[h]? = some hd) (live : hd.isDisposed = false) (sole : m.session.desk.Sole h hd.document)
    (enabled : hd.enabled = true) (hr : rests hd.slot past m = true) :
    (m.session.document hd.document).buffer =
      (m.session.document hd.document).buffer.highlighted hd.grammar hd.options := by
  have hs := (run.settled spared held live sole hr).resolve_left idle.not_crashed
  rw [idle.1] at hs
  exact highlighted_of_settled hs enabled

/-- Two colored digits are what a document comes to that was edited in the middle of a parse. -/
theorem converges_edited : edited.2.Idle ∧ rests 0 edited.1 edited.2 = true ∧
    (∀ p ∈ edited.1, p.session.spares 0 p.agenda = true) ∧
    (edited.2.session.document 0).buffer = (edited.2.session.document 0).buffer.highlighted ones .standard := by
  have run : Course edited.1 edited.2 := (Course.new .standard).talk 128 _
  have idle : edited.2.Idle := by decide +kernel
  have hr : rests 0 edited.1 edited.2 = true := by decide +kernel
  have spared : ∀ p ∈ edited.1, p.session.spares 0 p.agenda = true := by decide +kernel
  refine ⟨idle, hr, spared, ?_⟩
  have hall := handlers_edited
  obtain ⟨hd, hone, hfields⟩ := List.map_eq_singleton_iff.1 hall
  obtain ⟨hdoc, hgrammar, hoptions, hslot, henabled, hlive⟩ := by simpa using hfields
  have held : edited.2.session.handlers[0]? = some hd := by rw [hone]; rfl
  have sole : edited.2.session.desk.Sole 0 hd.document := by
    intro i other hi _
    rw [show edited.2.session.desk.handlers = [hd] from hone] at hi
    have hlt := (List.getElem?_eq_some_iff.1 hi).1
    simpa using hlt
  have hspared : ∀ p ∈ edited.1, p.session.spares hd.document p.agenda = true := by rwa [hdoc]
  have hrests : rests hd.slot edited.1 edited.2 = true := by rwa [hslot]
  have h := converges run hspared idle held hlive sole henabled hrests
  rwa [hdoc, hgrammar, hoptions] at h

end Machine.Course

end LiveHighlight
