import LiveHighlight.Proofs.Document.Reach
import LiveHighlight.Proofs.Highlight.Fidelity
import LiveHighlight.Proofs.Parse.RunTrace

/-!
# Annotations as the image of a parse

A parse of a text puts one annotation on its lines for each event, and reading the annotations line by line gives the events back
in the order in which they were told (`Buffer.highlighted_image`). Events come in the order of the text, so an event never belongs
to a line before that of an earlier one (`Sink.Kept`): what is written comes after all that has been written (`Sink.kept_write`).
-/

namespace LiveHighlight

/-- An annotation of a line that starts at a position, with its offset counted from the beginning of the text. -/
def Annotation.shift (a : Annotation) (start : Nat) : Annotation := { a with offset := start + a.offset }

/-- What an event comes to, its offset counted from the beginning of the text: a match with its length, its color and, if it is a
word, the name of its state; an error with one character and the color of errors. -/
def Event.mark (errorColor : Color) : Event → Annotation
  | .matched m => ⟨m.offset, m.length, m.element.color, if m.element.word then m.state else none⟩
  | .unmatched _ position => ⟨position, 1, errorColor, none⟩

namespace Buffer

/-- The annotations line by line, their offsets counted from the beginning of the text. -/
def marks (b : Buffer) : List Annotation :=
  (b.lines.zip b.snapshot.starts.toList).flatMap fun entry => entry.1.annotations.map (·.shift entry.2)

end Buffer

namespace ImageAux

/-! ## Annotations line by line -/

section

variable {α β : Type} {xs : List α} {n : Nat}

theorem zip_modify (f : α → α) (n : Nat) (xs : List α) (ys : List β) :
    (xs.modify n f).zip ys = (xs.zip ys).modify n fun entry => (f entry.1, entry.2) := by
  induction xs generalizing n ys with
  | nil => cases n <;> rfl
  | cons x xs ih =>
    cases ys with
    | nil => cases n <;> rfl
    | cons y ys =>
      cases n with
      | zero => rfl
      | succ n => simp [List.modify_succ_cons, ih]

/-- What is added to an item of a list comes last, if nothing comes of the items after it. -/
theorem flatMap_modify {f : α → List β} {g : α → α} {x : α} {y : β} (hx : xs[n]? = some x) (hg : f (g x) = f x ++ [y])
    (hafter : ∀ m x, n < m → xs[m]? = some x → f x = []) : (xs.modify n g).flatMap f = xs.flatMap f ++ [y] := by
  induction xs generalizing n with
  | nil => cases hx
  | cons first xs ih =>
    cases n with
    | zero =>
      obtain rfl : first = x := by simpa using hx
      have hrest : xs.flatMap f = [] := by
        rw [List.flatMap_eq_nil_iff]
        intro z hz
        obtain ⟨m, hm⟩ := List.mem_iff_getElem?.1 hz
        exact hafter (m + 1) z (Nat.succ_pos m) (by simpa using hm)
      simp [hg, hrest]
    | succ n =>
      have hrest := ih (by simpa using hx) fun m z hm hz => hafter (m + 1) z (Nat.succ_lt_succ hm) (by simpa using hz)
      rw [List.modify_succ_cons, List.flatMap_cons, List.flatMap_cons, hrest, List.append_assoc]

end

/-- An annotation on a line comes last, if the lines after it have none. -/
theorem marks_annotate {b b' : Buffer} {n : Nat} {a : Annotation} (h : b.annotate n a = .ok b') {start : Nat}
    (hstart : b.snapshot.lineStart n = some start)
    (hafter : ∀ m line, n < m → b.lines[m]? = some line → line.annotations = []) : b'.marks = b.marks ++ [a.shift start] := by
  have hsnapshot := Buffer.snapshot_congr (Buffer.texts_annotate h)
  unfold Buffer.annotate at h
  split at h
  · next hn =>
    obtain rfl := Except.ok.inj h
    have hline : b.lines[n]? = some b.lines[n] := List.getElem?_eq_getElem hn
    have hentry : (b.lines.zip b.snapshot.starts.toList)[n]? = some (b.lines[n], start) :=
      List.getElem?_zip_eq_some.2 ⟨hline, by rw [Array.getElem?_toList]; exact hstart⟩
    simp only [Buffer.marks, hsnapshot, zip_modify]
    refine flatMap_modify hentry (by simp) ?_
    intro m entry hm he
    obtain ⟨hl, -⟩ := List.getElem?_zip_eq_some.1 he
    simp [hafter m entry.1 hm hl]
  · cases h

/-- The lines after an annotation. -/
theorem getElem?_annotate {b b' : Buffer} {n : Nat} {a : Annotation} (h : b.annotate n a = .ok b') (m : Nat) :
    b'.lines[m]? =
      if n = m then b.lines[m]?.map fun l => { l with annotations := l.annotations ++ [a] } else b.lines[m]? := by
  unfold Buffer.annotate at h
  split at h
  · obtain rfl := Except.ok.inj h
    rw [List.getElem?_modify]
    by_cases hm : n = m <;> simp [hm]
  · cases h

/-- Without annotations there is nothing to read. -/
theorem marks_clear (b : Buffer) : b.clear.marks = [] := by
  rw [Buffer.marks, List.flatMap_eq_nil_iff]
  intro entry he
  obtain ⟨l, -, hl⟩ := List.mem_map.1 (List.of_mem_zip he).1
  rw [← hl]
  rfl

end ImageAux

open ImageAux LineStream

namespace Sink

variable {k : Sink} {lines before after : List String} {line : String} {g : Grammar} {event : Event} {b : Buffer} {n : Nat}

/-- The place of the mark of an event about text that is there. -/
theorem mark_eq (hk : k.snapshot = .ofLines lines) (hsits : event.Sits g k.snapshot.stream)
    (hon : OnLine lines event.position before line after) :
    k.mark event =
      .ok (before.length, { event.mark k.errorColor with offset := event.position - width before }) := by
  have hlocate : k.locate event.position = .ok (before.length, event.position - width before) := by
    rw [locate, hk, hon.seekLine_eq]
  cases event with
  | matched m =>
    rw [mark, show k.locate m.offset = _ from hlocate]
    rfl
  | unmatched e position =>
    have hin : k.snapshot.stream.inBounds position = true := decide_eq_true hsits
    rw [mark, locateError, if_pos hin, show k.locate position = _ from hlocate]
    rfl

/-- A buffer in the course of a parse of its text: what is written so far is on the lines up to one, and every annotation begins on
its line and ends in the text. -/
structure Kept (lines : List String) (last : Nat) (b : Buffer) : Prop where
  texts : b.texts = lines
  bare : ∀ m line, last < m → b.lines[m]? = some line → line.annotations = []
  inside : ∀ m line, b.lines[m]? = some line → ∀ a ∈ line.annotations, ∃ before after,
    before.length = m ∧ OnLine lines (width before + a.offset) before line.text after ∧
      width before + a.offset + a.length ≤ (ofLines lines).length

/-- Without annotations nothing has been written. -/
theorem kept_clear (b : Buffer) : Kept b.texts 0 b.clear := by
  have hnone {m : Nat} {line : Line} (hl : b.clear.lines[m]? = some line) : line.annotations = [] := by
    obtain ⟨l, -, rfl⟩ := List.mem_map.1 (List.mem_of_getElem? hl)
    rfl
  refine ⟨b.texts_clear, fun m line _ hl => hnone hl, ?_⟩
  intro m line hl a ha
  rw [hnone hl] at ha
  cases ha

/-- An event about text that is there ends in the text. -/
theorem le_of_sits {s : Stream} (h : event.Sits g s) (c : Color) :
    (event.mark c).offset = event.position ∧ event.position + (event.mark c).length ≤ s.length := by
  cases event with
  | matched m => exact ⟨rfl, h.1⟩
  | unmatched e position => exact ⟨rfl, h⟩

/-- What an event comes to is written after everything that has been written. -/
theorem kept_write (hk : k.snapshot = .ofLines lines) (hb : Kept lines n b) (hsits : event.Sits g k.snapshot.stream)
    (hon : OnLine lines event.position before line after) (hn : n ≤ before.length) :
    ∃ b', k.write b event = .ok b' ∧ Kept lines before.length b' ∧ b'.marks = b.marks ++ [event.mark k.errorColor] := by
  obtain ⟨hoffset, hstop⟩ := le_of_sits hsits k.errorColor
  have hstart := hon.start_le
  have htext : b.texts[before.length]? = some line := by simp [hb.texts, hon.split]
  have hcount : before.length < b.lineCount := by
    obtain ⟨hlt, -⟩ := List.getElem?_eq_some_iff.1 htext
    simpa [Buffer.texts, Buffer.lineCount] using hlt
  generalize ha : ({ event.mark k.errorColor with offset := event.position - width before } : Annotation) = a
  obtain ⟨b', hb'⟩ : ∃ b', b.annotate before.length a = .ok b' := ⟨_, if_pos hcount⟩
  have hwrite : k.write b event = .ok b' := by simp only [write, mark_eq hk hsits hon, ha, hb']
  have hshift : a.shift (width before) = event.mark k.errorColor := by
    have hsum : width before + (event.position - width before) = (event.mark k.errorColor).offset := by omega
    rw [← ha, Annotation.shift]
    simp only [hsum]
  have hlineStart : b.snapshot.lineStart before.length = some (width before) := by
    rw [show b.snapshot = .ofLines lines by rw [← hb.texts]; rfl]
    exact hon.lineStart_eq
  have hmarks := marks_annotate hb' hlineStart fun m l hm => hb.bare m l (Nat.lt_of_le_of_lt hn hm)
  rw [hshift] at hmarks
  refine ⟨b', hwrite, ⟨(Buffer.texts_annotate hb').trans hb.texts, ?_, ?_⟩, hmarks⟩
  · intro m l hm hl
    rw [getElem?_annotate hb', if_neg (by omega)] at hl
    exact hb.bare m l (Nat.lt_of_le_of_lt hn hm) hl
  · intro m l hl x hx
    rw [getElem?_annotate hb'] at hl
    split at hl
    · next hm =>
      -- on the line that is written to there is one more
      obtain ⟨old, hold, rfl⟩ := Option.map_eq_some_iff.1 hl
      rcases List.mem_append.1 hx with hx | hx
      · exact hb.inside m old hold x hx
      · obtain rfl : x = a := List.mem_singleton.1 hx
        have hold' : old.text = line := by
          rw [← hm] at hold
          simpa [Buffer.texts, hold] using htext
        subst ha
        refine ⟨before, after, hm, ?_, ?_⟩
        · dsimp only
          rw [Nat.add_sub_of_le hstart, hold']
          exact hon
        · dsimp only
          rw [Nat.add_sub_of_le hstart]
          rw [hk] at hstop
          exact hstop
    · exact hb.inside m l hl x hx

/-- What events in the order of the text come to is written one after the other. -/
theorem kept_after (hk : k.snapshot = .ofLines lines) (hne : lines ≠ []) {events : List Event}
    (hsits : ∀ event ∈ events, event.Sits g k.snapshot.stream) (hsorted : events.Pairwise fun a b => a.position ≤ b.position)
    (hb : Kept lines n b)
    (hafter : ∀ event ∈ events, ∀ place, k.snapshot.seekLine event.position = some place → n ≤ place.1) :
    ∃ b' n', k.listener.after ⟨b, none⟩ events = ⟨b', none⟩ ∧ Kept lines n' b' ∧
      b'.marks = b.marks ++ events.map (·.mark k.errorColor) := by
  induction events generalizing b n with
  | nil => exact ⟨b, n, rfl, hb, by simp⟩
  | cons event events ih =>
    obtain ⟨hfirst, hrest⟩ := List.pairwise_cons.1 hsorted
    have hsit := hsits event List.mem_cons_self
    have hin : event.position ≤ (ofLines lines).length := by
      have hstop := (le_of_sits hsit k.errorColor).2
      rw [hk] at hstop
      exact Nat.le_of_add_right_le hstop
    obtain ⟨before, line, after, hon⟩ := exists_onLine hne hin
    have hplace : k.snapshot.seekLine event.position = some (before.length, event.position - width before) := by
      rw [hk, hon.seekLine_eq]
    have hn : n ≤ before.length := hafter event List.mem_cons_self _ hplace
    obtain ⟨b₁, hwrite, hkept, hmarks⟩ := kept_write hk hb hsit hon hn
    obtain ⟨b', n', hevents, hkept', hmarks'⟩ := ih (fun e he => hsits e (List.mem_cons_of_mem _ he)) hrest hkept
      fun e he place hp => seekLine_mono (hfirst e he) hplace hp
    refine ⟨b', n', ?_, hkept', ?_⟩
    · have hhear : (k.listener.hear ⟨b, none⟩ event).1 = ⟨b₁, none⟩ := by simp only [listener, hwrite]
      rw [Listener.after, List.foldl_cons, hhear]
      exact hevents
    · rw [hmarks', hmarks, List.append_assoc]
      rfl

end Sink

/-- A parse of a text onto lines without annotations writes down what it tells, faithfully and in order. Nothing is refused, the
annotations line by line are what the events come to, errors alone are marked as errors, and an annotation stays on its line if
and only if its text holds no separator. -/
theorem Buffer.highlighted_image {spec : GrammarSpec} {registry : TerminalRegistry} {g : Grammar}
    (hg : spec.build registry = .ok g) {b : Buffer} (hb : b.Reached) (o : ParseOptions) :
    ∃ (r : Run) (events : List Event),
      g.notes b.snapshot.stream o.maxDepth = (events.map Note.heard).toArray ∧
      r.phase = .finished ∧
      (Run.start g o.maxDepth).toEnd (Sink.make b.snapshot o.errorColor).listener b.snapshot.stream ⟨b.clear, none⟩ =
        (r, ⟨b.highlighted g o, none⟩) ∧
      (b.highlighted g o).texts = b.texts ∧
      (b.highlighted g o).marks = events.map (·.mark (Sink.make b.snapshot o.errorColor).errorColor) ∧
      (∀ event ∈ events, (event.mark (Sink.make b.snapshot o.errorColor).errorColor).isError = event.isError) ∧
      ∀ n line start, (b.highlighted g o).lines[n]? = some line → b.snapshot.lineStart n = some start →
        ∀ a ∈ line.annotations, a.offset ≤ line.text.length ∧
          (a.offset + a.length ≤ line.text.length ↔
            ∀ pos, start + a.offset ≤ pos → pos < start + a.offset + a.length →
              b.snapshot.stream.charAt pos ≠ some '\n') := by
  have hc := closed_of_build hg
  obtain ⟨hlines, hsingle⟩ := hb.lined
  have hne : b.texts ≠ [] := by simpa [Buffer.texts] using hlines
  generalize hk : Sink.make b.snapshot o.errorColor = k
  have hsnapshot : k.snapshot = .ofLines b.texts := by rw [← hk]; rfl
  have hstream : k.snapshot.stream = b.snapshot.stream := by rw [← hk]; rfl
  have htakes := Sink.takes_listener hsnapshot hne
  rw [hstream] at htakes
  have hreserved : k.errorColor.isReserved = true := by
    rw [← hk, Sink.make]
    dsimp only
    split
    · assumption
    · rfl
  obtain ⟨hsits, hsorted⟩ := reading_sits hc b.snapshot.stream o.maxDepth
  obtain ⟨n, hheard⟩ := reading_heard hc b.snapshot.stream o.maxDepth
  generalize g.reading b.snapshot.stream (max o.maxDepth 1) 0 = events at hsits hsorted hheard
  obtain ⟨b', last, hafter, hkept, hmarks⟩ :=
    Sink.kept_after hsnapshot hne (by rwa [hstream]) hsorted (Sink.kept_clear b) fun _ _ _ _ => Nat.zero_le _
  have hnotebook : notebook.Patient := fun _ _ => rfl
  obtain ⟨r₀, hr₀, -, hnotes⟩ := hheard #[] (hnotebook.takes _) trivial
  obtain ⟨r, hr, -, hwritten⟩ := hheard (⟨b.clear, none⟩ : Sink.Draft) htakes ⟨b.texts_clear, rfl⟩
  rw [hafter] at hwritten
  have hend : (Run.start g o.maxDepth).toEnd k.listener b.snapshot.stream ⟨b.clear, none⟩ = (r, ⟨b', none⟩) :=
    Run.Leads.toEnd ⟨n, hwritten⟩ (by simp [hr])
  have hhighlighted : b.highlighted g o = b' := by
    rw [Buffer.highlighted, hk, hend]
  rw [hhighlighted]
  refine ⟨r, events, ?_, hr, hend, hkept.texts, ?_, ?_, ?_⟩
  · rw [Grammar.notes_of_advance hnotes (by simp [hr₀]), RunTraceAux.after_notebook]
  · rw [hmarks, marks_clear, List.nil_append]
  · intro event he
    cases event with
    | matched m =>
      obtain ⟨-, state, hs, production, hp, hm⟩ := hsits _ he
      exact isReserved_of_build hg hs hp hm
    | unmatched e position => exact hreserved
  · intro m line start hl hstart a ha
    obtain ⟨before, after, rfl, hon, hstop⟩ := hkept.inside m line hl a ha
    obtain rfl : width before = start := by
      have hsame := hon.lineStart_eq.symm.trans hstart
      exact Option.some.inj hsame
    have hline : '\n' ∉ line.text.toList := by
      have hmem : line.text ∈ b.texts := by
        rw [hon.split]
        simp
      obtain ⟨old, hold, htext⟩ := List.mem_map.1 hmem
      rw [← htext]
      exact hsingle old hold
    have hle := hon.le_stop
    refine ⟨by omega, Iff.trans ?_ (hon.le_iff_no_separator hline hstop)⟩
    omega

/-- Remarks in angle brackets, which may go on below, and numbers. -/
def remarkSpec : GrammarSpec :=
  let terminal (cls : String) (value : Option String) (color : Nat) : ElementSpec :=
    { ElementSpec.blank with terminal := cls, value, color }
  ⟨"remarks", none,
    [⟨"start", [[{ ElementSpec.blank with state := "remark", color := 5, word := true }], [terminal "number" none 3]]⟩,
     ⟨"remark", [[terminal "token" "<" 0, terminal "word" none 1, terminal "cr" none 2, terminal "word" none 1,
       terminal "token" ">" 0]]⟩]⟩

/-- The grammar of `remarkSpec`. -/
def remarks : Grammar :=
  let terminal (t : Terminal) (color : Int) : Element := ⟨.terminal t, ⟨color⟩, true, false⟩
  ⟨"remarks",
    [⟨"start", [[⟨.state 1, ⟨5⟩, true, true⟩], [terminal (.run .digit .run) 3]]⟩,
     ⟨"remark", [[terminal (.token "<") 0, terminal (.run .letter .run) 1, terminal (.run .lineBreak .run) 2,
       terminal (.run .letter .run) 1, terminal (.token ">") 0]]⟩], 0⟩

/-- A remark that goes on after an empty line, a number on the same line, and two characters that are in neither: the blank between
them and the last line break. The color of errors that is asked for is not reserved. -/
theorem highlighted_image_remarks :
    let b := Buffer.ofText "<ab\n\nc> 17\n"
    let b' := b.highlighted remarks ⟨30, 1, 0, .plain⟩
    remarkSpec.build .standard = .ok remarks ∧ b.Reached ∧
    (∃ (r : Run) (events : List Event),
      remarks.notes b.snapshot.stream 30 = (events.map Note.heard).toArray ∧ r.phase = .finished ∧
      b'.marks = events.map (·.mark .error) ∧ ∀ event ∈ events, (event.mark .error).isError = event.isError) ∧
    b'.marks = [⟨0, 7, ⟨5⟩, some "remark"⟩, ⟨0, 1, ⟨0⟩, none⟩, ⟨1, 2, ⟨1⟩, none⟩, ⟨3, 2, ⟨2⟩, none⟩, ⟨5, 1, ⟨1⟩, none⟩,
      ⟨6, 1, ⟨0⟩, none⟩, ⟨7, 1, .error, none⟩, ⟨8, 2, ⟨3⟩, none⟩, ⟨10, 1, .error, none⟩] ∧
    ∀ line, b'.lines[0]? = some line → ∀ a ∈ line.annotations,
      (a.offset + a.length ≤ line.text.length ↔
        ∀ pos, a.offset ≤ pos → pos < a.offset + a.length → b.snapshot.stream.charAt pos ≠ some '\n') := by
  intro b b'
  have hg : remarkSpec.build .standard = .ok remarks := by decide +kernel
  have hb : b.Reached := .ofText _
  obtain ⟨r, events, hnotes, hr, -, -, hmarks, herrors, hinside⟩ := Buffer.highlighted_image hg hb ⟨30, 1, 0, .plain⟩
  let leaf (t : Terminal) (color : Int) (offset length : Nat) : Event :=
    .matched ⟨⟨.terminal t, ⟨color⟩, true, false⟩, offset, length, none⟩
  let missed (position : Nat) : Event := .unmatched remarks.startElement position
  have hevents : events = [.matched ⟨⟨.state 1, ⟨5⟩, true, true⟩, 0, 7, some "remark"⟩, leaf (.token "<") 0 0 1,
      leaf (.run .letter .run) 1 1 2, leaf (.run .lineBreak .run) 2 3 2, leaf (.run .letter .run) 1 5 1, leaf (.token ">") 0 6 1,
      missed 7, leaf (.run .digit .run) 3 8 2, missed 10] := by
    have hend : ((Run.start remarks 30).advance notebook b.snapshot.stream 12 #[]).1.phase ≠ .running := by decide +kernel
    rw [Grammar.notes_of_advance rfl hend] at hnotes
    refine List.map_injective_iff.2 (fun _ _ => Note.heard.inj) (List.toArray_inj (hnotes.symm.trans ?_))
    decide +kernel
  refine ⟨hg, hb, ⟨r, events, hnotes, hr, hmarks, herrors⟩, ?_, ?_⟩
  · rw [hmarks, hevents]
    rfl
  · intro line hline a ha
    obtain ⟨-, hfits⟩ := hinside 0 line 0 hline rfl a ha
    simpa only [Nat.zero_add] using hfits

end LiveHighlight
