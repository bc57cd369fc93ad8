import Overtos.Sync.Model

/-! The waiter nodes of a condition variable and the stack frames they live in. -/
namespace Overtos.Sync
open Runs

variable {ι ε κ μ : Type}

variable {m : Memory ι ε κ μ}

section

variable [DecidableEq ι] [DecidableEq ε] [DecidableEq κ] [DecidableEq μ]
  {m : Memory ι ε κ μ} {i : ι} {ok : Bool} {p : Pos ι ε κ μ}
  {r : Memory ι ε κ μ × Pos ι ε κ μ}

end

section

variable [DecidableEq ι] {s : System ι ε κ μ} {i : ι} {r : Memory ι ε κ μ × Pos ι ε κ μ}

variable {n : Node ι}

end

section

variable [DecidableEq ι] [DecidableEq ε] [DecidableEq κ] [DecidableEq μ]
  {s t : System ι ε κ μ} {i : ι} {r : Memory ι ε κ μ × Pos ι ε κ μ}

end

end Overtos.Sync
