import LiveHighlight.Proofs.Session.HandlerEffects

/-!
# The parse that a handler has under way

Where a handler that attends has a parse under way, the annotations of its document are what that parse has made of the text as
it is now, or the handler is about to hear that the text changed and to begin anew (`Tended.engaged`). Strokes keep this
(`Tended.stroke`), whatever comes between a change and the news of it.
-/

namespace LiveHighlight

/-- Whether a task that presses fits the state of a handler and the lines of its document: parses are asked for and queued while
it is enabled, for the text as it is, and annotations are taken off while it is disabled. -/
def Task.Fits (hd : Handler) (b : Buffer) : Task → Prop
  | .requestParse _ => hd.enabled = true
  | .clear _ => hd.enabled = false
  | .install _ w _ =>
    hd.enabled = true ∧ ∃ i job, w = ⟨i, .parsing hd.document job hd.token⟩ ∧ job.InStep hd.grammar hd.options b
  | _ => True

/-- At most one task presses, and it is done before code of the host is heard again: before it, at most the slot is stopped and
the worker that it held is discarded. -/
inductive Errand (h : Nat) (hd : Handler) (b : Buffer) : List Task → Prop where
  | idle {agenda : List Task} (ha : ∀ x ∈ agenda, x.presses h hd.document hd.slot = false) : Errand h hd b agenda
  | due (pre : List Task) {rest : List Task} {x : Task} (hp : ∀ y ∈ pre, y.isSilent = true ∨ y = .stop hd.slot)
      (hx : x.presses h hd.document hd.slot = true) (hf : x.Fits hd b)
      (hr : ∀ y ∈ rest, y.presses h hd.document hd.slot = false) : Errand h hd b (pre ++ x :: rest)

/-- What is true of a handler that attends, of the lines `b` of its document and of its slot. -/
structure Tended (h : Nat) (hd : Handler) (b : Buffer) (o : Office) (agenda : List Task) : Prop where
  errand : Errand h hd b agenda
  /-- A parse that is under way has made of the text what there is, or the handler is about to be told of a change; the slot of a
  handler that is disabled is about to be stopped. -/
  engaged : ∀ w, o.Engages agenda hd.slot w → agenda.head? = some (.stop hd.slot) ∨
    hd.enabled = true ∧ ∃ i job, w = ⟨i, .parsing hd.document job hd.token⟩ ∧
      (Told h hd.document agenda ∨ job.InStep hd.grammar hd.options b)
  /-- A parse that is finished is over. -/
  finished : ∀ r g w, .conclude r hd.slot g w (.ok .finished) ∈ agenda →
    ∃ i d job token, w = ⟨i, .parsing d job token⟩ ∧ job.phase = .done

namespace UnderWayAux

variable {s : Session} {o o' : Office} {t : Task} {rest new : List Task} {h : Nat} {hd hd' : Handler} {b : Buffer}

theorem presses_of_outer (ht : t.isOuter = true) (d k : Nat) : t.presses h d k = false := by
  cases t with
  | call | notify => rfl
  | _ => cases ht

theorem not_inner_of_outer (ht : t.isOuter = true) {k : Nat} : ¬ (t.isSilent = true ∨ t = .stop k) := by
  rintro (hs | rfl)
  · cases t with
    | call | notify => cases hs
    | _ => cases ht
  · cases ht

theorem presses_append {d k : Nat} (hn : ∀ x ∈ new, x.presses h d k = false) (hr : ∀ x ∈ rest, x.presses h d k = false) :
    ∀ x ∈ new ++ rest, x.presses h d k = false := by
  intro x hx
  rcases List.mem_append.1 hx with hx | hx
  · exact hn x hx
  · exact hr x hx

/-- Stopping a slot of a calm course and discarding its worker leaves nothing but that. -/
theorem silent_of_inner {k : Nat} (hc : Calmly k o (t :: rest)) (hi : t.isSilent = true ∨ t = .stop k) (ht : Turn o t o' new) :
    ∀ x ∈ new, x.isSilent = true := by
  rcases hi with hs | rfl
  · exact (SlotInvariantAux.silent_turn hs ht).2
  · cases ht with
    | quiet hq => cases hq
    | stop =>
      intro x hx
      obtain ⟨w, hw, rfl⟩ := List.mem_map.1 hx
      rw [Scheduler.stop_snd, Option.mem_toList] at hw
      simpa [Task.isSilent] using (hc.kept.seated w hw).2.2

/-- A worker is put into a slot of a calm course at once. -/
theorem new_of_install {k delay : Nat} {w : Worker} (hc : Calmly k o (.install k w delay :: rest))
    (ht : Turn o (.install k w delay) o' new) : new = [] := by
  rcases hc.kept.stage.head (by simp [Task.settles]) with ⟨w', delay', -, hw⟩ | ⟨r, c, he, -⟩
  · cases ht with
    | quiet hq => cases hq
    | install => rfl
    | evict _ ho =>
      rw [show (o.scheduler.slot k).worker = none from hw] at ho
      cases ho
  · cases he

theorem errand_stroke (hc : Calmly hd.slot o (t :: rest)) (he : Errand h hd (s.document hd.document).buffer (t :: rest))
    (ht : Turn o t o' new) (hs : Stroke h hd s t hd' b new) : Errand h hd' b (new ++ rest) := by
  generalize ha : t :: rest = agenda at he
  cases he with
  | idle hidle =>
    subst ha
    have hrest : ∀ x ∈ rest, x.presses h hd.document hd.slot = false := fun x hx => hidle x (.tail _ hx)
    have htask := hidle t (.head _)
    cases hs with
    | plain _ _ hn => exact .idle (presses_append hn hrest)
    | edit _ hn => exact .idle (presses_append hn hrest)
    | ask _ hn =>
      refine .due [] (by simp) ?_ rfl (presses_append hn hrest)
      simp [Task.presses]
    | disable _ hn =>
      refine .due [.stop hd.slot] (by simp) ?_ rfl (presses_append hn hrest)
      simp [Task.presses]
    | request | clear => simp [Task.presses] at htask
    | work =>
      refine .idle (presses_append (presses_append ?_ ?_) hrest)
      · intro x hx
        exact (StrokeAux.tells_spec h hd _ _ x hx).1.1
      · simp [Task.presses]
  | @due pre rest' x hpre hx hf hr =>
    cases pre with
    | nil =>
      obtain ⟨rfl, rfl⟩ := List.cons.inj ha
      cases hs with
      | plain hreq hclear =>
        -- what presses and changes nothing puts a worker in
        cases t with
        | requestParse i =>
          have hi : i = h := by simpa [Task.presses] using hx
          exact absurd (hi ▸ rfl) hreq
        | clear id =>
          have hi : id = hd.document := by simpa [Task.presses] using hx
          exact absurd (hi ▸ rfl) hclear
        | install j w delay =>
          obtain rfl : j = hd.slot := by simpa [Task.presses] using hx
          rw [new_of_install hc ht]
          exact .idle hr
        | _ => cases hx
      | edit hout | ask hout | disable hout =>
        rw [presses_of_outer hout] at hx
        cases hx
      | request =>
        refine .due [.stop hd.slot] (by simp) (by simp [Task.presses]) ⟨hf, _, _, rfl, ?_⟩ hr
        exact ParseJob.inStep_start _ _ _
      | clear => exact .idle hr
      | work => cases hx
    | cons y pre =>
      rw [List.cons_append] at ha
      obtain ⟨rfl, rfl⟩ := List.cons.inj ha
      have hinner := hpre t (.head _)
      cases hs with
      | plain =>
        rw [← List.append_assoc]
        refine .due _ ?_ hx hf hr
        intro z hz
        rcases List.mem_append.1 hz with hz | hz
        · exact .inl (silent_of_inner hc hinner ht z hz)
        · exact hpre z (.tail _ hz)
      | edit hout | ask hout | disable hout => exact absurd hinner (not_inner_of_outer hout)
      | request | clear | work => rcases hinner with hi | hi <;> cases hi

/-- A task that presses and is to be done now fits. -/
theorem fits_of_errand (he : Errand h hd b (t :: rest)) (ht : t.presses h hd.document hd.slot = true) : t.Fits hd b := by
  generalize ha : t :: rest = agenda at he
  cases he with
  | idle hidle =>
    rw [hidle t (ha ▸ .head _)] at ht
    cases ht
  | due pre hp hx hf =>
    cases pre with
    | nil =>
      obtain ⟨rfl, -⟩ := List.cons.inj ha
      exact hf
    | cons y pre =>
      rw [List.cons_append] at ha
      obtain ⟨rfl, -⟩ := List.cons.inj ha
      rcases hp t (.head _) with hs | rfl
      · cases t with
        | discard | script => cases ht
        | _ => cases hs
      · cases ht

/-- A slot whose worker takes a step lends it. -/
theorem lent_of_round {r r' : Round} {k g : Nat} {w : Worker} {outcome : Outcome} (ht : Turn o (.round r) o' new)
    (hx : .conclude r' k g w outcome ∈ new) :
    (o'.scheduler.slot k).worker = none ∧ (o'.scheduler.slot k).phase = .running := by
  cases ht with
  | quiet hq => cases hq
  | endRound _ hn => rcases hn with rfl | ⟨d, rfl⟩ <;> simp at hx
  | pass => simp at hx
  | @work _ _ slot _ _ _ _ _ hc _ hn =>
    rcases List.mem_append.1 hx with hx | hx
    · cases hn _ hx
    · obtain rfl : k = slot := by
        have he := List.mem_singleton.1 hx
        cases he
        rfl
      obtain ⟨hdue, hw, -⟩ := Scheduler.claim_step hc
      have hv := congrArg Prod.fst (Scheduler.view_claim (Scheduler.knows_of_worker hw) r.now)
      simp only [Scheduler.view, hdue, hw, if_true, reduceCtorEq, if_false] at hv
      rw [hv]
      exact ⟨rfl, rfl⟩

/-- News for the handler, told or on its way, reaches it as long as it is enabled. -/
theorem told_append {d : Nat} (ht : Told h d (t :: rest)) (hnew : t.tells h d = true → Told h d new) :
    Told h d (new ++ rest) := by
  obtain ⟨x, hx, htells⟩ := ht
  rcases List.mem_cons.1 hx with rfl | hx
  · obtain ⟨y, hy, hyt⟩ := hnew htells
    exact ⟨y, List.mem_append_left _ hy, hyt⟩
  · exact ⟨x, List.mem_append_right _ hx, htells⟩

theorem told_of_new {d : Nat} (hn : Told h d new) : Told h d (new ++ rest) := by
  obtain ⟨x, hx, ht⟩ := hn
  exact ⟨x, List.mem_append_left _ hx, ht⟩

/-- A worker that is engaged after a stroke other than a step was engaged before, or is put in. -/
theorem engaged_before {w : Worker} (hc : Calmly hd.slot o (t :: rest)) (he : Tended h hd b o (t :: rest))
    (ht : Turn o t o' new) (hk : ∀ x ∈ new, x.concludes hd.slot = false) (hw : o'.Engages (new ++ rest) hd.slot w) :
    (hd.enabled = true ∧ ∃ i job, w = ⟨i, .parsing hd.document job hd.token⟩ ∧
      (Told h hd.document (t :: rest) ∨ job.InStep hd.grammar hd.options b)) := by
  rcases ht.engages hc hw with ⟨hbefore, hstop⟩ | ⟨delay, rfl⟩ | ⟨r, g, outcome, hx⟩
  · rcases he.engaged w hbefore with hhead | hb
    · exact absurd (Option.some.inj hhead) hstop
    · exact hb
  · obtain ⟨hen, i, job, hw, hstep⟩ := fits_of_errand he.errand (by simp [Task.presses])
    exact ⟨hen, i, job, hw, .inr hstep⟩
  · exact absurd (hk _ hx) (by simp [Task.concludes])

/-- A worker that takes a step is in step afterwards. -/
theorem engaged_work {r r' : Round} {g i : Nat} {job : ParseJob} {w : Worker}
    (hc : Calmly hd.slot s.office (.round r :: rest))
    (he : Tended h hd (s.document hd.document).buffer s.office (.round r :: rest))
    (hclaim : (s.scheduler.claim hd.slot r.now).2 = .step ⟨i, .parsing hd.document job hd.token⟩ g)
    (ht : Turn s.office (.round r) o' ((job.step false (s.document hd.document).buffer).tells hd.document ++
      [.conclude r' hd.slot g ⟨i, .parsing hd.document (job.step false (s.document hd.document).buffer).job hd.token⟩
        (.ok (job.step false (s.document hd.document).buffer).next)]))
    (hw : o'.Engages ((job.step false (s.document hd.document).buffer).tells hd.document ++
      [.conclude r' hd.slot g ⟨i, .parsing hd.document (job.step false (s.document hd.document).buffer).job hd.token⟩
        (.ok (job.step false (s.document hd.document).buffer).next)] ++ rest) hd.slot w) :
    hd.enabled = true ∧ w = ⟨i, .parsing hd.document (job.step false (s.document hd.document).buffer).job hd.token⟩ ∧
      (job.step false (s.document hd.document).buffer).job.InStep hd.grammar hd.options
        (job.step false (s.document hd.document).buffer).buffer := by
  obtain rfl := hc.orderly.alone rfl
  have hheld : s.office.Engages [.round r] hd.slot ⟨i, .parsing hd.document job hd.token⟩ :=
    .inl (Scheduler.claim_step hclaim).2.1
  have hstep : hd.enabled = true ∧ job.InStep hd.grammar hd.options (s.document hd.document).buffer := by
    rcases he.engaged _ hheld with hhead | ⟨hen, i', job', hi, htold | hstep⟩
    · cases hhead
    · obtain ⟨x, hx, htells⟩ := htold
      obtain rfl := List.mem_singleton.1 hx
      cases htells
    · cases hi
      exact ⟨hen, hstep⟩
  refine ⟨hstep.1, ?_, hstep.2.step⟩
  have hlent := lent_of_round ht (List.mem_append_right _ (.head _))
  rcases hw with hw | ⟨r'', outcome, hx⟩
  · rw [hlent.1] at hw
    cases hw
  · simp only [List.append_nil] at hx
    rcases List.mem_append.1 hx with hx | hx
    · exact absurd ((StrokeAux.tells_spec h hd _ _ _ hx).1.2) (by simp [Task.concludes])
    · cases List.mem_singleton.1 hx
      rfl

end UnderWayAux

open UnderWayAux

/-- Strokes keep what is true of a handler that attends. -/
theorem Tended.stroke {s : Session} {o' : Office} {t : Task} {rest new : List Task} {h : Nat} {hd hd' : Handler} {b : Buffer}
    (hc : Calmly hd.slot s.office (t :: rest)) (he : Tended h hd (s.document hd.document).buffer s.office (t :: rest))
    (ht : Turn s.office t o' new) (hs : Stroke h hd s t hd' b new) : Tended h hd' b o' (new ++ rest) where
  errand := errand_stroke hc he.errand ht hs
  engaged w hw := by
    cases hs with
    | plain hreq hclear hn hk tells =>
      obtain ⟨hen, i, job, hi, htold | hstep⟩ := engaged_before hc he ht hk hw
      · exact .inr ⟨hen, i, job, hi, .inl (told_append htold fun ht => tells ht hen)⟩
      · exact .inr ⟨hen, i, job, hi, .inr hstep⟩
    | edit hout hn hk told =>
      obtain ⟨hen, i, job, hi, -⟩ := engaged_before hc he ht hk hw
      exact .inr ⟨hen, i, job, hi, .inl (told_of_new told)⟩
    | ask hout hn hk =>
      obtain ⟨hen, i, job, hi, -⟩ := engaged_before hc he ht (by simpa [Task.concludes] using hk) hw
      refine .inr ⟨rfl, i, job, hi, .inl ⟨_, .head _, ?_⟩⟩
      simp [Task.tells]
    | disable => exact .inl rfl
    | request => exact .inl rfl
    | clear =>
      obtain ⟨hen, -⟩ := engaged_before hc he ht (by simp) hw
      have hdis : hd.enabled = false := fits_of_errand he.errand (by simp [Task.presses])
      rw [hdis] at hen
      cases hen
    | work hclaim =>
      obtain ⟨hen, hw, hstep⟩ := engaged_work hc he hclaim ht hw
      exact .inr ⟨hen, _, _, hw, .inr hstep⟩
  finished r g w hx := by
    have before (hx : .conclude r hd.slot g w (.ok .finished) ∈ rest) := he.finished r g w (.tail _ hx)
    cases hs with
    | plain _ _ _ hk | edit _ _ hk =>
      rcases List.mem_append.1 hx with hx | hx
      · exact absurd (hk _ hx) (by simp [Task.concludes])
      · exact before hx
    | ask _ _ hk | disable _ _ hk =>
      rcases List.mem_append.1 hx with hx | hx
      · simp only [List.mem_cons, reduceCtorEq, false_or] at hx
        exact absurd (hk _ hx) (by simp [Task.concludes])
      · exact before hx
    | request | clear => exact before (by simpa using hx)
    | work =>
      rcases List.mem_append.1 hx with hx | hx
      · rcases List.mem_append.1 hx with hx | hx
        · exact absurd ((StrokeAux.tells_spec h hd _ _ _ hx).1.2) (by simp [Task.concludes])
        · simp only [List.mem_singleton, Task.conclude.injEq, Except.ok.injEq] at hx
          obtain ⟨-, -, -, rfl, hnext⟩ := hx
          exact ⟨_, _, _, _, rfl, ParseJob.done_of_finished hnext.symm⟩
      · exact before hx

end LiveHighlight
