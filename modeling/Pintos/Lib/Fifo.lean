import Pintos.Lib.Reach

/-!
# Bounded FIFO queues

The abstract queue is the list of the items it holds, oldest first. Its events
are calls with what they return: `enqueue x`, `dequeue x` (a dequeue that
returned `x`) and `peek x`. A run over a list of events is then a trace of the
queue. An event the queue cannot produce (a dequeue of another item than the
oldest, or a call that waits) is not enabled.

The queue holds at most `cap` items. An item put into a full queue is dropped
when `discard` is set, and its caller waits otherwise. A `peek` of an empty
queue returns `absent`.

Along any run, the items dequeued followed by those still held are the items
held at the start followed by those enqueued, with some left out. Nothing is
duplicated or reordered (`run_sublist`). Without `discard` nothing is left out
either (`run_conserves`).
-/

namespace Fifo

variable {α : Type} [DecidableEq α] {cap : Nat} {discard : Bool} {absent : α}

/-- A call on the queue with the value it returns. -/
inductive Event (α : Type) where
  | enqueue (item : α)
  | dequeue (item : α)
  | peek (item : α)
  deriving DecidableEq, Repr

/-- One event of a queue of at most `cap` items. -/
def step (cap : Nat) (discard : Bool) (absent : α) (items : List α) : Event α → Option (List α)
  | .enqueue x =>
    if items.length < cap then some (items ++ [x])
    else if discard then some items
    else none
  | .dequeue x =>
    match items with
    | [] => none
    | y :: rest => if y = x then some rest else none
  | .peek x => if items.headD absent = x then some items else none

/-- The items a list of events enqueues. -/
def enqueued : List (Event α) → List α
  | [] => []
  | .enqueue x :: evs => x :: enqueued evs
  | _ :: evs => enqueued evs

/-- The items a list of events dequeues. -/
def dequeued : List (Event α) → List α
  | [] => []
  | .dequeue x :: evs => x :: dequeued evs
  | _ :: evs => dequeued evs

variable {items items' : List α} {ev : Event α}

/-- What one event can do: an enqueue appends its item, or drops it from a full
queue in discard mode; a dequeue takes the oldest item, the one it returns; a
peek changes nothing. -/
theorem step_cases (h : step cap discard absent items ev = some items') :
    (∃ x, ev = .enqueue x ∧ items.length < cap ∧ items' = items ++ [x]) ∨
      (∃ x, ev = .enqueue x ∧ cap ≤ items.length ∧ discard = true ∧ items' = items) ∨
      (∃ x, ev = .dequeue x ∧ items = x :: items') ∨
      (∃ x, ev = .peek x ∧ items' = items) := by
  cases ev with
  | enqueue x =>
    simp only [step] at h
    split at h
    · exact .inl ⟨x, rfl, ‹_›, (Option.some.inj h).symm⟩
    · split at h
      · exact .inr (.inl ⟨x, rfl, by omega, ‹_›, (Option.some.inj h).symm⟩)
      · cases h
  | dequeue x =>
    cases items with
    | nil => cases h
    | cons y rest =>
      simp only [step] at h
      split at h
      · next hyx =>
        subst hyx
        cases h
        exact .inr (.inr (.inl ⟨y, rfl, rfl⟩))
      · cases h
  | peek x =>
    simp only [step] at h
    split at h
    · exact .inr (.inr (.inr ⟨x, rfl, (Option.some.inj h).symm⟩))
    · cases h

/-- **No item duplicated or reordered**: along a run, the dequeued items and
then those still held are a sublist of the held and the enqueued ones. -/
theorem run_sublist :
    ∀ (evs : List (Event α)) {items items' : List α},
      Lts.run (step cap discard absent) items evs = some items' →
        (dequeued evs ++ items').Sublist (items ++ enqueued evs)
  | [], items, items', h => by
    simp only [Lts.run_nil, Option.some.injEq] at h
    subst h
    simp [dequeued, enqueued]
  | ev :: evs, items, items', h => by
    rw [Lts.run_cons] at h
    cases hs : step cap discard absent items ev with
    | none => rw [hs] at h; cases h
    | some mid =>
      rw [hs, Option.bind_some] at h
      have ih := run_sublist evs h
      rcases step_cases hs with ⟨x, rfl, -, rfl⟩ | ⟨x, rfl, -, -, rfl⟩ | ⟨x, rfl, rfl⟩ |
        ⟨x, rfl, rfl⟩
      · simpa [dequeued, enqueued] using ih
      · simp only [dequeued, enqueued]
        exact ih.trans ((List.sublist_cons_self x _).append_left _)
      · simp only [dequeued, enqueued, List.cons_append]
        exact ih.cons_cons x
      · simpa [dequeued, enqueued] using ih

/-- **Conservation**: without `discard`, along a run the held and the enqueued
items are the dequeued ones and then those still held. -/
theorem run_conserves :
    ∀ (evs : List (Event α)) {items items' : List α},
      Lts.run (step cap false absent) items evs = some items' →
        items ++ enqueued evs = dequeued evs ++ items'
  | [], items, items', h => by
    simp only [Lts.run_nil, Option.some.injEq] at h
    subst h
    simp [dequeued, enqueued]
  | ev :: evs, items, items', h => by
    rw [Lts.run_cons] at h
    cases hs : step cap false absent items ev with
    | none => rw [hs] at h; cases h
    | some mid =>
      rw [hs, Option.bind_some] at h
      have ih := run_conserves evs h
      rcases step_cases hs with ⟨x, rfl, -, rfl⟩ | ⟨x, rfl, -, hd, -⟩ | ⟨x, rfl, rfl⟩ |
        ⟨x, rfl, rfl⟩
      · simpa [dequeued, enqueued] using ih
      · cases hd
      · simp only [dequeued, enqueued, List.cons_append]
        rw [ih]
      · simpa [dequeued, enqueued] using ih

end Fifo
