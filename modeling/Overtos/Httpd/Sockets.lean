import Overtos.Lib.Runs

/-! Who uses which socket: the task's one `client_storage`, the WebSocket pool, and the TCP
connections. -/
namespace Overtos.Httpd
open Runs Function Option

inductive SockAddr where
  | client
  | pooled (slot : ℕ)
  deriving DecidableEq

structure WsConn where
  sock : SockAddr
  storage : Option ℕ
  active : Bool
  owner : ℕ

/-- `fds` says which TCP connection an open descriptor stands for. Each use of a socket is noted
with the connection it is meant for and the one it reaches. -/
structure Sockets where
  fds : ℕ → Option ℕ
  accepted : ℕ
  clientStorage : Option ℕ
  pool : ℕ → WsConn
  serving : Option ℕ
  uses : List (ℕ × Option ℕ)

def Sockets.init : Sockets where
  fds := fun _ => none
  accepted := 0
  clientStorage := none
  pool := fun _ => ⟨.client, none, false, 0⟩
  serving := none
  uses := []

namespace Sockets

def fd (s : Sockets) : SockAddr → Option ℕ
  | .client => s.clientStorage
  | .pooled slot => (s.pool slot).storage

def setFd (s : Sockets) (fd : Option ℕ) : SockAddr → Sockets
  | .client => { s with clientStorage := fd }
  | .pooled slot =>
    { s with pool := update s.pool slot { s.pool slot with storage := fd } }

def designates (s : Sockets) (a : SockAddr) : Option ℕ := (s.fd a).bind s.fds

def use (s : Sockets) (peer : ℕ) (a : SockAddr) : Sockets :=
  { s with uses := (peer, s.designates a) :: s.uses }

def oveSocketAccept (s : Sockets) (fd : ℕ) : Sockets :=
  { s with
    fds := update s.fds fd (some s.accepted)
    accepted := s.accepted + 1
    clientStorage := some fd }

def oveSocketClose (s : Sockets) (a : SockAddr) : Sockets :=
  match s.fd a with
  | none => s
  | some fd => ({ s with fds := update s.fds fd none }).setFd none a

def setServing (s : Sockets) (peer : Option ℕ) : Sockets := { s with serving := peer }

def wsPoolAlloc (conns : ℕ) (s : Sockets) : Option ℕ :=
  (List.range conns).find? fun i => !(s.pool i).active

def wsPoolFree (s : Sockets) (slot : ℕ) : Sockets :=
  let s := (s.use (s.pool slot).owner (s.pool slot).sock).oveSocketClose (s.pool slot).sock
  { s with pool := update s.pool slot { s.pool slot with active := false } }

def transfer (s : Sockets) (slot peer : ℕ) : Sockets :=
  { s with pool := update s.pool slot ⟨.client, s.clientStorage, true, peer⟩ }

end Sockets

inductive SocketAct where
  | accept (fd : ℕ)
  | request
  | upgrade
  | finish
  | wsUse (slot : ℕ)
  | wsFree (slot : ℕ)

def socketStep (conns : ℕ) (s : Sockets) : SocketAct → Option Sockets
  | .accept fd =>
    if s.serving = none ∧ s.fds fd = none then
      some ((s.oveSocketAccept fd).setServing (some s.accepted))
    else none
  | .request => s.serving.map fun peer => s.use peer .client
  | .upgrade => s.serving.bind fun peer => (s.wsPoolAlloc conns).map fun slot =>
      (s.transfer slot peer).setServing none
  | .finish => s.serving.map fun peer =>
      ((s.use peer .client).oveSocketClose .client).setServing none
  | .wsUse slot =>
    if slot < conns ∧ (s.pool slot).active = true then
      some (s.use (s.pool slot).owner (s.pool slot).sock)
    else none
  | .wsFree slot =>
    if slot < conns ∧ (s.pool slot).active = true then some (s.wsPoolFree slot) else none

structure Sockets.Separate (s : Sockets) : Prop where
  own : ∀ i, (s.pool i).active = true → s.designates (s.pool i).sock = some (s.pool i).owner
  apart : ∀ i j, (s.pool i).active = true → (s.pool j).active = true →
    (s.pool i).sock = (s.pool j).sock → i = j
  request : ∀ peer, s.serving = some peer → s.designates .client = some peer ∧
    ∀ i, (s.pool i).active = true → (s.pool i).sock ≠ .client
  reached : ∀ u ∈ s.uses, u.2 = some u.1

def AcceptsAlone (s : Sockets) : SocketAct → Prop
  | .accept _ => ∀ i, (s.pool i).active = false
  | _ => True

def Sockets.Borrows (s : Sockets) : Prop :=
  ∀ i, (s.pool i).active = true → (s.pool i).sock = .client

variable {s : Sockets}

theorem Sockets.Separate.unique (h : s.Separate) (hb : s.Borrows) {i j : ℕ}
    (hi : (s.pool i).active = true) (hj : (s.pool j).active = true) : i = j :=
  h.apart i j hi hj ((hb i hi).trans (hb j hj).symm)

theorem Sockets.Separate.alone (h : s.Separate) (hb : s.Borrows) {peer : ℕ}
    (hs : s.serving = some peer) (i : ℕ) : (s.pool i).active = false := by
  cases hi : (s.pool i).active with
  | false => rfl
  | true => exact absurd (hb i hi) ((h.request peer hs).2 i hi)

namespace Sockets

variable {s : Sockets}

theorem separate_of_inactive (hidle : ∀ i, (s.pool i).active = false)
    (hrequest : ∀ peer, s.serving = some peer → s.designates .client = some peer)
    (hreached : ∀ u ∈ s.uses, u.2 = some u.1) : s.Separate where
  own i hi := by simp [hidle i] at hi
  apart i j hi := by simp [hidle i] at hi
  request peer hp := ⟨hrequest peer hp, fun i hi => by simp [hidle i] at hi⟩
  reached := hreached

theorem Separate.use (h : s.Separate) {peer : ℕ} {a : SockAddr}
    (ha : s.designates a = some peer) : (s.use peer a).Separate where
  own := h.own
  apart := h.apart
  request := h.request
  reached u hu := by
    rcases List.mem_cons.mp hu with rfl | hu
    · exact ha
    · exact h.reached u hu

theorem oveSocketClose_client (s : Sockets) :
    (s.oveSocketClose .client).pool = s.pool ∧ (s.oveSocketClose .client).serving = s.serving ∧
      (s.oveSocketClose .client).uses = s.uses := by
  unfold oveSocketClose
  split
  · exact ⟨rfl, rfl, rfl⟩
  · exact ⟨rfl, rfl, rfl⟩

end Sockets

section

variable {conns : ℕ} {s t : Sockets} (hb : s.Borrows) (h : s.Separate)

include hb h

theorem accept_separate {fd : ℕ} : ((s.oveSocketAccept fd).setServing (some s.accepted)).Separate ↔
      ∀ i, (s.pool i).active = false := by
  constructor
  · intro ht i
    exact ht.alone hb rfl i
  · intro hidle
    apply Sockets.separate_of_inactive
    · exact hidle
    · intro peer hp
      obtain rfl : s.accepted = peer := some.inj hp
      simp [Sockets.designates, Sockets.fd, Sockets.oveSocketAccept, Sockets.setServing]
    · exact h.reached

variable {slot peer : ℕ}

theorem upgrade_separate (hpeer : s.serving = some peer) :
    ((s.transfer slot peer).setServing none).Borrows ∧
      ((s.transfer slot peer).setServing none).Separate := by
  have hothers (i : ℕ) (hi : ((s.transfer slot peer).pool i).active = true) : i = slot := by
    by_contra hne
    have hpool : (s.transfer slot peer).pool i = s.pool i := update_of_ne hne _ _
    simp [hpool, h.alone hb hpeer i] at hi
  have hslot : (s.transfer slot peer).pool slot = ⟨.client, s.clientStorage, true, peer⟩ :=
    update_self _ _ _
  refine ⟨fun i hi => ?_, fun i hi => ?_, fun i j hi hj _ => ?_, fun _ hp => ?_, h.reached⟩
  · obtain rfl := hothers i hi
    exact congrArg WsConn.sock hslot
  · obtain rfl := hothers i hi
    show Sockets.designates _ ((s.transfer i peer).pool i).sock =
      some ((s.transfer i peer).pool i).owner
    rw [hslot]
    exact (h.request peer hpeer).1
  · exact (hothers i hi).trans (hothers j hj).symm
  · cases hp

theorem finish_separate (hpeer : s.serving = some peer) :
    (((s.use peer .client).oveSocketClose .client).setServing none).Borrows ∧
      (((s.use peer .client).oveSocketClose .client).setServing none).Separate := by
  obtain ⟨hpool, -, huses⟩ := (s.use peer .client).oveSocketClose_client
  have hidle (i : ℕ) : (((s.use peer .client).oveSocketClose .client).pool i).active = false := by
    rw [hpool]
    exact h.alone hb hpeer i
  refine ⟨fun i hi => ?_, Sockets.separate_of_inactive hidle (fun _ hp => ?_) ?_⟩
  · have hi' : (((s.use peer .client).oveSocketClose .client).pool i).active = true := hi
    simp [hidle i] at hi'
  · cases hp
  · show ∀ u ∈ ((s.use peer .client).oveSocketClose .client).uses, u.2 = some u.1
    rw [huses]
    exact (h.use (h.request peer hpeer).1).reached

theorem wsPoolFree_separate (hslot : (s.pool slot).active = true) :
    (s.wsPoolFree slot).Borrows ∧ (s.wsPoolFree slot).Separate := by
  have hsock := hb slot hslot
  obtain ⟨hpool, hserving, huses⟩ := (s.use (s.pool slot).owner .client).oveSocketClose_client
  have hidle (i : ℕ) : ((s.wsPoolFree slot).pool i).active = false := by
    rw [Sockets.wsPoolFree, hsock]
    by_cases hi : i = slot
    · simp [hi]
    · simp only [update_of_ne hi, hpool]
      cases hact : (s.pool i).active with
      | false => exact hact
      | true => exact absurd (h.unique hb hact hslot) hi
  have hnone : s.serving = none := by
    cases hs : s.serving with
    | none => rfl
    | some peer => simp [h.alone hb hs slot] at hslot
  refine ⟨fun i hi => by simp [hidle i] at hi, Sockets.separate_of_inactive hidle ?_ ?_⟩
  · intro peer hp
    rw [Sockets.wsPoolFree, hsock] at hp
    rw [hserving] at hp
    simp [Sockets.use, hnone] at hp
  · rw [Sockets.wsPoolFree, hsock]
    show ∀ u ∈ ((s.use (s.pool slot).owner .client).oveSocketClose .client).uses, u.2 = some u.1
    rw [huses]
    exact (h.use (hsock ▸ h.own slot hslot)).reached

theorem socketStep_separate {a : SocketAct} (hstep : socketStep conns s a = some t) :
    t.Borrows ∧ (t.Separate ↔ AcceptsAlone s a) := by
  cases a with
  | accept fd =>
    simp only [socketStep, ite_none_right_eq_some, some.injEq] at hstep
    obtain ⟨-, rfl⟩ := hstep
    exact ⟨hb, accept_separate hb h⟩
  | request =>
    obtain ⟨peer, hpeer, rfl⟩ := map_eq_some_iff.mp hstep
    exact ⟨hb, iff_of_true (h.use (h.request peer hpeer).1) trivial⟩
  | upgrade =>
    obtain ⟨peer, hpeer, hslot⟩ := bind_eq_some_iff.mp hstep
    obtain ⟨slot, -, rfl⟩ := map_eq_some_iff.mp hslot
    have ht := @upgrade_separate s hb h slot peer hpeer
    exact ⟨ht.1, iff_of_true ht.2 trivial⟩
  | finish =>
    obtain ⟨peer, hpeer, rfl⟩ := map_eq_some_iff.mp hstep
    have ht := finish_separate hb h hpeer
    exact ⟨ht.1, iff_of_true ht.2 trivial⟩
  | wsUse slot =>
    simp only [socketStep, ite_none_right_eq_some, some.injEq] at hstep
    obtain ⟨⟨-, hslot⟩, rfl⟩ := hstep
    exact ⟨hb, iff_of_true (h.use (h.own slot hslot)) trivial⟩
  | wsFree slot =>
    simp only [socketStep, ite_none_right_eq_some, some.injEq] at hstep
    obtain ⟨⟨-, hslot⟩, rfl⟩ := hstep
    have ht := wsPoolFree_separate hb h hslot
    exact ⟨ht.1, iff_of_true ht.2 trivial⟩

end

/-- The sockets stay apart exactly if no connection is accepted while a WebSocket is active. -/
theorem sockets_separate_iff (conns : ℕ) (acts : List SocketAct) :
    Always (socketStep conns) Sockets.Separate .init acts ↔
      Each (socketStep conns) AcceptsAlone .init acts := by
  have hinit : Sockets.init.Borrows := fun i hi => by simp [Sockets.init] at hi
  have hsep : Sockets.init.Separate := by
    apply Sockets.separate_of_inactive
    · intro i
      rfl
    · intro peer hp
      simp [Sockets.init] at hp
    · intro u hu
      simp [Sockets.init] at hu
  exact always_iff_each (fun _ _ _ hb h hstep => socketStep_separate hb h hstep) hinit hsep acts

theorem second_client_takes_socket :
    ¬Always (socketStep 4) Sockets.Separate .init [.accept 3, .upgrade, .accept 4] := by
  intro h
  have hlast := (h.2 _ rfl).2 _ rfl |>.2 _ rfl
  have hown := hlast.own 0 rfl
  simp [Sockets.designates, Sockets.fd, Sockets.transfer, Sockets.oveSocketAccept,
    Sockets.setServing, Sockets.init] at hown

end Overtos.Httpd
