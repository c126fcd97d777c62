/-!
# Breadth-first worklists

Closures and automata are found by the same kind of search: an element is taken
from the front of a queue, and the elements that it brings in go to the end.
`Worklist.run` lists the elements in the order in which they were taken, which is
also the order in which they were found.  The search is bounded; whoever starts one
gives a number that the elements cannot exceed.

* `run` — the search.
* `run_mono` — a search that came to its end does so with every larger bound.
-/

namespace LRTables.Worklist

variable {σ α ε : Type}

/-- Takes at most `bound` elements from the queue, in order.  `step` says what an
element adds to the end of the queue and how it changes what is remembered. -/
def run (step : σ → α → Except ε (σ × List α)) : Nat → σ → List α → Except ε (List α)
  | _, _, [] => .ok []
  | 0, _, _ :: _ => .ok []
  | bound + 1, s, a :: queue =>
    match step s a with
    | .error e => .error e
    | .ok (s', found) => (a :: ·) <$> run step bound s' (queue ++ found)

/-- The search from a queue comes to its end after `steps` elements, the last of
which leaves the queue empty. -/
inductive Ends (step : σ → α → Except ε (σ × List α)) : Nat → σ → List α → Prop where
  /-- Nothing is left. -/
  | done (s : σ) : Ends step 0 s []
  /-- An element is taken, and the rest ends. -/
  | take {steps : Nat} {s s' : σ} {a : α} {queue found : List α}
      (here : step s a = .ok (s', found)) (rest : Ends step steps s' (queue ++ found)) :
      Ends step (steps + 1) s (a :: queue)

/-- Beyond the number of its steps the bound of a search does not matter. -/
theorem run_mono {step : σ → α → Except ε (σ × List α)} {steps : Nat} {s : σ} {queue : List α}
    (h : Ends step steps s queue) {bound : Nat} (le : steps ≤ bound) :
    run step bound s queue = run step steps s queue := by
  induction h generalizing bound with
  | done s => simp [run]
  | take here _ ih =>
    obtain ⟨b, rfl⟩ : ∃ b, bound = b + 1 := ⟨bound - 1, by omega⟩
    simp only [run, here]
    rw [ih (by omega)]

end LRTables.Worklist
