import Mathlib.Tactic

/-! Status codes and target word sizes shared by every subsystem. -/
namespace Overtos

inductive Rc where
  | ok | errNotRegistered | errInvalidParam | errNoMemory | errTimeout | errNotSupported
  | errQueueFull | errMlFailed | errNetRefused | errNetUnreachable | errNetAddrInUse
  | errNetReset | errNetDnsFail | errNetClosed | errBusNack | errBusBusy | errBusError
  | errQueueEmpty | errWouldBlock | errEof | errInval | errNotFound | errNetAddrNotAvailable
  | errAlreadyExists | errNoSpace | errNotDir | errIsDir | errNotEmpty | errReadOnly | errIo
  | errBusy | errNameTooLong | errBadHandle | errPermission | errCrossDevice
  deriving DecidableEq, Repr

inductive Arch where
  | arm32 | host64
  deriving DecidableEq, Repr

def Arch.bits : Arch → ℕ
  | .arm32 => 32
  | .host64 => 64

theorem Arch.bits_cases (a : Arch) : a.bits = 32 ∨ a.bits = 64 := by
  cases a
  · exact Or.inl rfl
  · exact Or.inr rfl

theorem Arch.two_pow_bits_ge (a : Arch) : 2 ^ 32 ≤ 2 ^ a.bits := by
  rcases a.bits_cases with h | h
  · rw [h]
  · rw [h]
    norm_num

theorem Arch.two_pow_half (a : Arch) : 2 ^ a.bits = 2 * 2 ^ (a.bits - 1) := by
  cases a <;> rfl

end Overtos
