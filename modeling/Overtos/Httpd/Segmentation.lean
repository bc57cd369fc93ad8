import Overtos.Httpd.Task

/-! How far the way TCP cuts a request decides what the HTTP server makes of it. -/
namespace Overtos.Httpd
open CStr List

inductive Outcome where
  | closed
  | refused
  | upgraded
  | stuck
  | dispatched (route : Option (Route Handler)) (req : Req)

def Exchange.cut (s : Server) (mem : Bool) (sends : ℕ → Except Rc ℕ) (pieces : List Bytes) :
    Exchange :=
  ⟨s, mem, ⟨pieces.map .ok, sends⟩⟩

section

variable (cfg : Config) (s : Server) (mem : Bool) (sends : ℕ → Except Rc ℕ) (request : Bytes)

end

section

variable (cfg : Config) (s : Server) (mem : Bool) (sends : ℕ → Except Rc ℕ)

end

end Overtos.Httpd
