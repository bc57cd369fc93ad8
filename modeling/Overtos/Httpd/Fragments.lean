import Overtos.Httpd.Frames

/-! Messages in fragments: what of them reaches the callback. -/
namespace Overtos.Httpd.WsStream
open CStr Duplex WebSocket

/-- All messages reach the callback whole and in order once each frame was polled. -/
def Reassembled (p : Peer) (t : Conversation) : Prop :=
  ∀ (frameBuf : Vector UInt8 p.maxFrame) (polls : List Polled), .broken ∉ polls →
    polls.count .ready = t.frames.length →
    ∃ alive c, run p polls (start frameBuf.toList (t.frames.flatMap Frame.encode)) =
        some (alive, c) ∧
      c.messages = t.messages.map Fragmented.payload

def FirstOnly (m : Fragmented) : Prop := ∀ part ∈ m.rest, part.frame.payload = []

def StartsHeard (maxFrame : ℕ) (frames : List Frame) : Prop :=
  ∀ before f after, frames = before ++ f :: after → ¬Taken maxFrame f →
    ∀ g ∈ f :: after, g.opcode.starts = false

section
variable {maxFrame : ℕ}

theorem messageOf_control {f : Frame} (h : f.opcode.isControl = true) : messageOf f = [] := by
  revert h
  rw [messageOf]
  cases f.opcode <;> simp [Opcode.isControl, Opcode.starts]

theorem flatMap_messageOf_controls {controls : List Frame}
    (h : ∀ f ∈ controls, f.opcode.isControl = true) : controls.flatMap messageOf = [] :=
  List.flatMap_eq_nil_iff.mpr fun f hf => messageOf_control (h f hf)

theorem fragmented_messageOf (m : Fragmented) : m.frames.flatMap messageOf = [m.first.payload] := by
  have hrest : (m.rest.flatMap fun part => part.controls ++ [part.frame]).flatMap messageOf =
      [] := by
    rw [List.flatMap_assoc]
    refine List.flatMap_eq_nil_iff.mpr fun part _ => ?_
    rw [List.flatMap_append, flatMap_messageOf_controls part.control]
    simp [messageOf, part.continues, Opcode.starts]
  rw [Fragmented.frames, List.flatMap_append, flatMap_messageOf_controls m.control,
    List.flatMap_cons, hrest]
  simp [messageOf, m.starts]

theorem conversation_messageOf (t : Conversation) :
    t.frames.flatMap messageOf = t.messages.map (·.first.payload) := by
  rw [Conversation.frames, List.flatMap_append, flatMap_messageOf_controls t.control,
    List.append_nil, List.flatMap_assoc, List.map_eq_flatMap]
  simp only [fragmented_messageOf]

theorem firstOnly_iff (m : Fragmented) : m.first.payload = m.payload ↔ FirstOnly m := by
  rw [Fragmented.payload, List.self_eq_append_right, List.flatMap_eq_nil_iff, FirstOnly]

theorem startsHeard_iff (frames : List Frame) : StartsHeard maxFrame frames ↔
    (frames.takeWhile (Taken maxFrame ·)).flatMap messageOf = frames.flatMap messageOf := by
  have hsplit := List.takeWhile_append_dropWhile (p := (Taken maxFrame ·)) (l := frames)
  have hlost : (frames.takeWhile (Taken maxFrame ·)).flatMap messageOf =
      frames.flatMap messageOf ↔ ∀ g ∈ frames.dropWhile (Taken maxFrame ·),
        g.opcode.starts = false := by
    conv_lhs => rhs; rw [← hsplit]
    rw [List.flatMap_append, List.self_eq_append_right, List.flatMap_eq_nil_iff]
    simp [messageOf]
  rw [hlost, StartsHeard]
  constructor
  · intro h
    cases htail : frames.dropWhile (Taken maxFrame ·) with
    | nil => simp
    | cons f after =>
      rw [htail] at hsplit
      refine h _ f after hsplit.symm ?_
      have hhead := List.head?_dropWhile_not (Taken maxFrame ·) frames
      rw [htail] at hhead
      simpa using hhead
  · rintro h before f after rfl hf g hg
    refine h g ?_
    rw [List.dropWhile_append]
    split_ifs with hbefore
    · rwa [List.dropWhile_cons_of_neg (by simpa using hf)]
    · exact List.mem_append_right _ hg

end

theorem reassembled_iff_heard {p : Peer} {handler : List Bytes → List Bytes}
    (hm : p.onMessage = some handler) (t : Conversation) : Reassembled p t ↔
      (t.frames.takeWhile (Taken p.maxFrame ·)).flatMap messageOf =
        t.messages.map Fragmented.payload := by
  have hrun (frameBuf : Vector UInt8 p.maxFrame) {polls : List Polled} (hpolls : .broken ∉ polls)
      (hcount : polls.count .ready = t.frames.length) :
      ∃ alive c, run p polls (start frameBuf.toList (t.frames.flatMap Frame.encode)) =
          some (alive, c) ∧
        c.messages = (t.frames.takeWhile (Taken p.maxFrame ·)).flatMap messageOf := by
    obtain ⟨alive, c, hc, hmessages, -⟩ := run_frames
      (c := start frameBuf.toList (t.frames.flatMap Frame.encode)) hm Vector.length_toList rfl
      hpolls hcount.le
    rw [hcount, List.take_length] at hmessages
    exact ⟨alive, c, hc, hmessages⟩
  constructor
  · intro h
    have hpolls : Polled.broken ∉ List.replicate t.frames.length Polled.ready := by
      simp [List.mem_replicate]
    obtain ⟨alive, c, hc, hmessages⟩ :=
      h (Vector.replicate p.maxFrame 0) _ hpolls List.count_replicate_self
    obtain ⟨alive', c', hc', hheard⟩ :=
      hrun (Vector.replicate p.maxFrame 0) hpolls List.count_replicate_self
    cases hc.symm.trans hc'
    exact hheard.symm.trans hmessages
  · intro h frameBuf polls hpolls hcount
    obtain ⟨alive, c, hc, hheard⟩ := hrun frameBuf hpolls hcount
    exact ⟨alive, c, hc, hheard.trans h⟩

/-- Every message reaches the callback whole exactly if nothing of it is in later frames and none
starts with or behind a frame that is too long. -/
theorem reassembled_iff (p : Peer) (handler : List Bytes → List Bytes)
    (hm : p.onMessage = some handler) (t : Conversation) :
    Reassembled p t ↔ (∀ m ∈ t.messages, FirstOnly m) ∧ StartsHeard p.maxFrame t.frames := by
  have hfirst : t.messages.map (·.first.payload) = t.messages.map Fragmented.payload ↔
      ∀ m ∈ t.messages, FirstOnly m := by
    simp only [List.map_inj_left, firstOnly_iff]
  rw [reassembled_iff_heard hm, startsHeard_iff, conversation_messageOf, ← hfirst]
  constructor
  · intro h
    -- what is heard has as many messages as there are, so nothing of the frames is lost
    have hfront : (t.frames.takeWhile (Taken p.maxFrame ·)).flatMap messageOf <+:
        t.messages.map (·.first.payload) := by
      rw [← conversation_messageOf]
      exact List.IsPrefix.flatMap ( List.takeWhile_prefix _) _
    have hall : (t.frames.takeWhile (Taken p.maxFrame ·)).flatMap messageOf =
        t.messages.map (·.first.payload) := hfront.eq_of_length (by rw [h]; simp)
    exact ⟨hall.symm.trans h, hall⟩
  · rintro ⟨hwhole, hall⟩
    exact hall.trans hwhole

theorem longPing_control : ∀ f ∈ [longPing], f.opcode.isControl = true := by
  simp [longPing, Opcode.isControl]

theorem no_controls : ∀ f ∈ ([] : List Frame), f.opcode.isControl = true := by simp

def cutGreeting (payload : Bytes) (h : Form.Fits .short payload.length) : Conversation where
  messages := [{
    controls := []
    first := { greeting with fin := false, control := Bool.noConfusion }
    rest := [{
      controls := [longPing]
      frame := ⟨true, .continuation, .short, [5, 6, 7, 8], payload, rfl, h, Bool.noConfusion⟩
      control := longPing_control
      continues := rfl }]
    control := no_controls
    starts := rfl
    final := rfl }]
  controls := []
  control := no_controls

theorem nothing_fits : Form.Fits .short ([] : Bytes).length := by decide

theorem mark_fits : Form.Fits .short [(0x21 : UInt8)].length := by decide

theorem empty_end_reassembled :
    Reassembled ⟨1024, ⟨fun _ => 0, fun _ => 2⟩, some fun _ => []⟩
      (cutGreeting [] nothing_fits) := by
  refine (reassembled_iff _ _ rfl _).mpr ⟨?_, ?_⟩
  · simp [cutGreeting, FirstOnly]
  · have hall : ∀ f ∈ (cutGreeting [] nothing_fits).frames, Taken 1024 f := by decide +kernel
    intro before f after hframes hf
    rw [hframes] at hall
    exact absurd (hall f (by simp)) hf

theorem first_fragment_delivered :
    (run ⟨1024, ⟨fun _ => 0, fun _ => 2⟩, some fun _ => []⟩ [.ready, .ready, .ready]
      (start (List.replicate 1024 0)
        ((cutGreeting [0x21] mark_fits).frames.flatMap Frame.encode))).map
          (fun r => (r.1, r.2.messages)) = some (true, [[0x68, 0x69]]) ∧
    (cutGreeting [0x21] mark_fits).messages.map Fragmented.payload = [[0x68, 0x69, 0x21]] ∧
    ¬Reassembled ⟨1024, ⟨fun _ => 0, fun _ => 2⟩, some fun _ => []⟩
      (cutGreeting [0x21] mark_fits) := by
  refine ⟨by decide +kernel, by decide +kernel, fun h => ?_⟩
  have hheard := (reassembled_iff_heard rfl _).mp h
  exact absurd hheard (by decide +kernel)

end Overtos.Httpd.WsStream
