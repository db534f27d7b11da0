/-!
# Subscriptions

Who is told of a document's changes, in the order of subscription. Every subscription has a number that is given once.
-/

namespace LiveHighlight

/-- Numbered subscriptions of watchers. -/
structure Subscriptions (ω : Type) where
  entries : List (Nat × ω)
  next : Nat
  deriving DecidableEq, Repr

namespace Subscriptions

variable {ω : Type}

/-- No subscriptions. -/
def empty : Subscriptions ω := ⟨[], 0⟩

instance : Inhabited (Subscriptions ω) := ⟨empty⟩

/-- Subscribes a watcher, and gives the number of the subscription. -/
def add (s : Subscriptions ω) (watcher : ω) : Subscriptions ω × Nat :=
  (⟨s.entries ++ [(s.next, watcher)], s.next + 1⟩, s.next)

/-- Ends a subscription, and says whether there was one of that number. -/
def remove (s : Subscriptions ω) (number : Nat) : Subscriptions ω × Bool :=
  (⟨s.entries.filter fun entry => entry.1 ≠ number, s.next⟩, s.entries.any fun entry => entry.1 = number)

/-- Keeps the subscriptions of the watchers that are alive. -/
def prune (s : Subscriptions ω) (alive : ω → Bool) : Subscriptions ω :=
  { s with entries := s.entries.filter (alive ·.2) }

/-- The watchers in the order of their subscriptions. -/
def watchers (s : Subscriptions ω) : List ω := s.entries.map (·.2)

/-- The number of subscriptions. -/
def size (s : Subscriptions ω) : Nat := s.entries.length

end Subscriptions

end LiveHighlight
