import Overtos.Work.Model

/-! Which steps of the worker and of the delay timer can still come after a cancel or deinit has
returned. -/
namespace Overtos.Work
open Runs Option

def Shared.Busy (m : Shared) : Prop :=
  m.worker.hasItem = true ∨ m.daemon ≠ .idle ∨ m.timer = some true

section

variable {ι : Type}

variable [DecidableEq ι]

end

def Shared.Returns (m : Shared) : Thread → Prop
  | .look deinit | .recheck deinit | .completing deinit .give => deinit = false ∧ m.state = .idle
  | .checkSem deinit => deinit = false ∧ m.state = .idle ∧ m.semInited = false
  | .dropHandler => m.state = .idle
  | _ => False

section

variable {k : Kernel} {depth : ℕ} {m : Shared} {ok : Bool} {p : Thread} {r : Shared × Thread}

end

section

variable {k : Kernel} {depth : ℕ} {m n : Shared}

end

section

variable {ι : Type} [DecidableEq ι] {k : Kernel} {depth : ℕ}

variable {s t : System ι} {a : Action ι} {m : Shared}

def Worker.fits : Kernel → Worker → Bool
  | .freertos, .delaying | .freertos, .awake | .freertos, .ready => false
  | _, _ => true

end

end Overtos.Work
