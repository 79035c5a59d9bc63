/-!
# Search in a finite graph

Breadth-first search from a list of starts along a successor function. Each round looks only at what the round before it
added, and a graph with `n` vertices needs no more than `n` rounds.
-/

namespace JvmLift.Flow

/-- Adds to `seen` what `frontier` reaches in at most `n` steps. The frontier is part of `seen`. -/
def spread (next : Nat → List Nat) : Nat → List Nat → List Nat → List Nat
  | 0, seen, _ => seen
  | n + 1, seen, frontier =>
    let fresh := ((frontier.flatMap next).filter fun v => !seen.contains v).eraseDups
    if fresh.isEmpty then seen else spread next n (seen ++ fresh) fresh

/-- The vertices that the starts reach in a graph of `size` vertices, the starts included. -/
def reach (size : Nat) (next : Nat → List Nat) (starts : List Nat) : List Nat :=
  spread next size starts.eraseDups starts.eraseDups

/-- The first of the elements with the least key. -/
def leastBy? {α : Type} (key : α → Nat) (xs : List α) : Option α :=
  xs.foldl (fun best x => if best.any (key · ≤ key x) then best else some x) none

/-- The last of the elements with the greatest key. -/
def lastGreatestBy? {α : Type} (key : α → Nat) (xs : List α) : Option α :=
  xs.foldl (fun best x => if best.any (key x < key ·) then best else some x) none

end JvmLift.Flow
