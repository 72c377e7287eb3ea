/-!
# Sliding windows

The last few samples of a stream, oldest first.  New samples are collected on a
second list and turned round when the first runs out, so both ends are cheap.
`Window.toList` is what the window holds; `toList_push` and `toList_pop?` say
what the two operations do to it.
-/

namespace MarketSignals.Regime

variable {α : Type}

/-- A queue of samples. -/
structure Window (α : Type) where
  /-- The oldest samples, oldest first. -/
  front : List α
  /-- The newest samples, newest first. -/
  back : List α
  /-- How many there are. -/
  size : Nat

namespace Window

/-- No samples. -/
def empty : Window α := ⟨[], [], 0⟩

/-- The samples, oldest first. -/
def toList (w : Window α) : List α := w.front ++ w.back.reverse

/-- Adds the newest sample. -/
def push (w : Window α) (x : α) : Window α := ⟨w.front, x :: w.back, w.size + 1⟩

/-- Takes the oldest sample off. -/
def pop? (w : Window α) : Option (α × Window α) :=
  match w.front with
  | x :: rest => some (x, ⟨rest, w.back, w.size - 1⟩)
  | [] =>
      match w.back.reverse with
      | x :: rest => some (x, ⟨rest, [], w.size - 1⟩)
      | [] => none

@[simp] theorem toList_empty : (empty : Window α).toList = [] := rfl

@[simp] theorem toList_push (w : Window α) (x : α) : (w.push x).toList = w.toList ++ [x] := by
  simp [toList, push]

/-- Taking the oldest sample off splits the list at its head. -/
theorem toList_pop? (w : Window α) :
    w.pop?.map (fun p => p.1 :: p.2.toList) = w.toList.head?.map fun _ => w.toList := by
  obtain ⟨front, back, size⟩ := w
  cases front with
  | cons x rest => simp [pop?, toList]
  | nil =>
      cases h : back.reverse with
      | nil => simp [pop?, toList, h]
      | cons x rest => simp [pop?, toList, h]

end Window

end MarketSignals.Regime
