import LiveHighlight.Proofs.Session.Known

/-!
# Orderly agendas

As long as no code that the host lent lets work run, at most one round is under way, and everything else that is to be done
comes before it goes on: only the last task of an agenda can belong to a round (`Orderly.rounds`).
-/

namespace LiveHighlight

/-- Whether a task belongs to work being let run. -/
def Task.isRound : Task → Bool
  | .beginRound _ | .round _ | .conclude .. | .close .. => true
  | _ => false

/-- Whether the first task lets work run at the request of code that the host lent. -/
def Reenters : List Task → Prop
  | .call (.drive ..) (.script _) :: _ => True
  | _ => False

instance (agenda : List Task) : Decidable (Reenters agenda) :=
  decidable_of_iff ((match agenda with
    | .call (.drive ..) (.script _) :: _ => true
    | _ => false) = true) (by unfold Reenters; split <;> simp)

/-- Only the last task belongs to a round, and what the host asks is done before anything else is there to do. -/
structure Orderly (agenda : List Task) : Prop where
  rounds : ∀ x ∈ agenda.dropLast, x.isRound = false
  host : ∀ c, .call c .host ∈ agenda → agenda = [.call c .host]

namespace OrderlyAux

/-- Whether a task has nothing to do with rounds and is nothing that the host asks. -/
def Plain (x : Task) : Prop := x.isRound = false ∧ ∀ c, x ≠ .call c .host

theorem plain_of_light {o : Office} {x : Task} (h : x.Light o) : Plain x := by
  refine ⟨?_, ?_⟩
  · cases x with
    | beginRound | round | conclude | close => cases h
    | _ => rfl
  · rintro c rfl
    exact h rfl

/-- A turn leaves plain tasks, and behind them a task of a round only if the task belonged to one or lets work run. -/
theorem plain_of_turn {o o' : Office} {t : Task} {new : List Task} (h : Turn o t o' new) :
    (∀ x ∈ new, Plain x) ∨
      (∃ pre x, new = pre ++ [x] ∧ (∀ y ∈ pre, Plain y) ∧ (∀ c, x ≠ .call c .host)) ∧
        (t.isRound = true ∨ ∃ kind rounds asker, t = .call (.drive kind rounds) asker) := by
  have one {x : Task} (hx : ∀ c, x ≠ .call c .host) : ∃ pre y, [x] = pre ++ [y] ∧ (∀ z ∈ pre, Plain z) ∧
      (∀ c, y ≠ .call c .host) := ⟨[], x, rfl, by simp, hx⟩
  cases h with
  | quiet _ hn | openPlace hn | dropPlace hn | attach _ hn => exact .inl fun x hx => plain_of_light (hn x hx)
  | employ _ hn | engage _ _ hn =>
    refine .inl ?_
    intro x hx
    simp only [List.mem_cons] at hx
    rcases hx with rfl | rfl | hx
    · exact ⟨rfl, by simp⟩
    · exact ⟨rfl, by simp⟩
    · exact plain_of_light (hn x hx)
  | rehearse _ _ hn =>
    refine .inl ?_
    intro x hx
    rcases List.mem_append.1 hx with hx | hx
    · exact plain_of_light (hn x hx)
    · obtain rfl := List.mem_singleton.1 hx
      exact ⟨rfl, by simp⟩
  | stop =>
    refine .inl ?_
    intro x hx
    obtain ⟨w, -, rfl⟩ := List.mem_map.1 hx
    exact ⟨rfl, by simp⟩
  | request | evict =>
    refine .inl ?_
    intro x hx
    rcases List.mem_pair.1 hx with rfl | rfl <;> exact ⟨rfl, by simp⟩
  | discard =>
    refine .inl ?_
    intro x hx
    obtain rfl := List.mem_singleton.1 hx
    exact ⟨rfl, by simp⟩
  | drive => exact .inr ⟨one (by simp), .inr ⟨_, _, _, rfl⟩⟩
  | beginRound _ | pass => exact .inr ⟨one (by simp), .inl rfl⟩
  | work _ _ hn => exact .inr ⟨⟨_, _, rfl, fun y hy => plain_of_light (hn y hy), by simp⟩, .inl rfl⟩
  | conclude =>
    refine .inr ⟨⟨_, _, rfl, ?_, by simp⟩, .inl rfl⟩
    intro y hy
    obtain ⟨w, -, rfl⟩ := List.mem_map.1 hy
    exact ⟨rfl, by simp⟩
  | endRound _ hn | closeReturning _ hn | closeFinished _ _ hn | closeOpen _ _ hn =>
    rcases hn with rfl | ⟨d, rfl⟩
    · exact .inl (by simp)
    · exact .inr ⟨one (by simp), .inl rfl⟩
  | _ => exact .inl (by simp)

end OrderlyAux

open OrderlyAux

theorem orderly_nil : Orderly [] := ⟨by simp, by simp⟩

theorem orderly_call (c : Call) : Orderly [.call c .host] := ⟨by simp, by simp⟩

/-- A task of a round is the only one. -/
theorem Orderly.alone {t : Task} {rest : List Task} (h : Orderly (t :: rest)) (ht : t.isRound = true) : rest = [] := by
  cases rest with
  | nil => rfl
  | cons x rest => exact absurd (h.rounds t (by simp)) (by simp [ht])

/-- A turn keeps an agenda orderly unless code that the host lent lets work run. -/
theorem Turn.orderly {o o' : Office} {t : Task} {rest new : List Task} (ho : Orderly (t :: rest)) (hr : ¬ Reenters (t :: rest))
    (h : Turn o t o' new) : Orderly (new ++ rest) := by
  rcases plain_of_turn h with hn | ⟨⟨pre, x, rfl, hp, hx⟩, ht⟩
  · refine ⟨?_, ?_⟩
    · intro y hy
      cases rest with
      | nil => exact (hn y (by simpa using List.dropLast_subset _ hy)).1
      | cons z rest =>
        rw [List.dropLast_append_of_ne_nil (by simp), List.mem_append] at hy
        rcases hy with hy | hy
        · exact (hn y hy).1
        · exact ho.rounds y (by rw [List.dropLast_cons_of_ne_nil (by simp)]; exact .tail _ hy)
    · intro c hc
      rcases List.mem_append.1 hc with hc | hc
      · exact absurd rfl ((hn _ hc).2 c)
      · have he := ho.host c (.tail _ hc)
        rw [(List.cons.inj he).2] at hc
        cases hc
  · have hrest : rest = [] := by
      rcases ht with ht | ⟨kind, rounds, asker, rfl⟩
      · exact ho.alone ht
      · cases asker with
        | host => exact (List.cons.inj (ho.host _ (.head _))).2
        | script call => exact absurd trivial hr
    subst hrest
    refine ⟨?_, ?_⟩
    · intro y hy
      simp only [List.append_nil, List.dropLast_concat] at hy
      exact (hp y hy).1
    · intro c hc
      simp only [List.append_nil, List.mem_append, List.mem_singleton] at hc
      rcases hc with hc | hc
      · exact absurd rfl ((hp _ hc).2 c)
      · exact absurd hc.symm (hx c)

end LiveHighlight
