import Overtos.Audio.Graph
import Overtos.Lib.Checked

/-! The channel mapper of `ove_audio_nodes.c`: its loops over interleaved samples. -/
namespace Overtos.Audio
open Word Checked List

def maxChannels : ℕ := 8

structure ChannelMap where
  outChannels : ℕ
  map : ℕ → ℤ
  nonzero : outChannels ≠ 0
  le_max : outChannels ≤ maxChannels

def mapSample (m : ChannelMap) (inCh size : ℕ) (input : List UInt8) (f : ℕ) (out : List UInt8)
    (c : ℕ) : Option (List UInt8) :=
  let dst := wrap 32 (wrap 32 (f * m.outChannels + c) * size)
  if 0 ≤ m.map c ∧ m.map c < inCh then
    let src := wrap 32 (wrap 32 (f * inCh + (m.map c).toNat) * size)
    Checked.copy out dst (input.drop src) size
  else Checked.put out dst (replicate size 0)

def channelMapProcess (m : ChannelMap) (inCh : ℕ) (fmt : SampleFmt) (frames : ℕ)
    (input out : List UInt8) : Option (List UInt8) :=
  (range frames).foldlM (fun out f =>
    (range m.outChannels).foldlM (mapSample m inCh (oveAudioSampleSize fmt) input f) out) out

def ChannelMap.compose (m₁ m₂ : ChannelMap) : ChannelMap :=
  { m₂ with
    map := fun c =>
      if 0 ≤ m₂.map c ∧ m₂.map c < m₁.outChannels then m₁.map (m₂.map c).toNat else -1 }

def sampleAt (m : ChannelMap) (inCh size : ℕ) (input : List UInt8) (f c : ℕ) : List UInt8 :=
  if 0 ≤ m.map c ∧ m.map c < inCh then
    (input.drop ((f * inCh + (m.map c).toNat) * size)).take size
  else replicate size 0

def frameAt (m : ChannelMap) (inCh size : ℕ) (input : List UInt8) (f : ℕ) : List UInt8 :=
  (range m.outChannels).flatMap (sampleAt m inCh size input f)

def mapped (m : ChannelMap) (inCh size frames : ℕ) (input : List UInt8) : List UInt8 :=
  (range frames).flatMap (frameAt m inCh size input)

section

variable {f c frames ch size : ℕ} (hf : f < frames) (hc : c < ch)
include hf hc

theorem offset_le (size : ℕ) : (f * ch + c) * size + size ≤ frames * ch * size := by
  rw [← Nat.succ_mul]
  apply Nat.mul_le_mul_right
  calc f * ch + c + 1 ≤ f * ch + ch := by omega
    _ = (f + 1) * ch := (Nat.succ_mul f ch).symm
    _ ≤ frames * ch := Nat.mul_le_mul_right ch hf

theorem offset_eq (hfits : frames * ch * size ≤ 2 ^ 32) :
    wrap 32 (wrap 32 (f * ch + c) * size) = (f * ch + c) * size := by
  have hle := offset_le hf hc size
  have hlt : (f * ch + c) * size < 2 ^ 32 := by
    rcases Nat.eq_zero_or_pos size with rfl | hpos
    · rw [Nat.mul_zero]
      norm_num
    · omega
  rw [wrap, wrap, Nat.mod_mul_mod, Nat.mod_eq_of_lt hlt]

end

section

variable {m : ChannelMap} {inCh size frames : ℕ} {input : List UInt8}
  (hin : input.length = frames * inCh * size)
include hin

variable {f c : ℕ}

theorem length_sampleAt (hf : f < frames) (c : ℕ) :
    (sampleAt m inCh size input f c).length = size := by
  rw [sampleAt]
  split_ifs with hsrc
  · have hle := offset_le hf (show (m.map c).toNat < inCh by omega) size
    rw [length_take, length_drop]
    omega
  · exact length_replicate

theorem length_frameAt (hf : f < frames) :
    (frameAt m inCh size input f).length = m.outChannels * size :=
  length_flatMap_range fun c _ => length_sampleAt hin hf c

theorem length_mapped :
    (mapped m inCh size frames input).length = frames * m.outChannels * size := by
  rw [mapped, length_flatMap_range fun f hf => length_frameAt hin hf, Nat.mul_assoc]

theorem sample_of_mapped (hf : f < frames) (hc : c < m.outChannels) :
    ((mapped m inCh size frames input).drop ((f * m.outChannels + c) * size)).take size =
      sampleAt m inCh size input f c := by
  have hframe := take_drop_flatMap_range (fun f hf => length_frameAt (m := m) hin hf) hf
  have hsample := take_drop_flatMap_range (fun c _ => length_sampleAt (m := m) hin hf c) hc
  have hle : c * size + size ≤ m.outChannels * size := by
    rw [← Nat.succ_mul]
    exact Nat.mul_le_mul_right size hc
  rw [← hsample, ← frameAt, ← hframe, drop_take, take_take, drop_drop,
    Nat.min_eq_left (by omega), mapped, Nat.add_mul, Nat.mul_assoc]

variable (hfits : frames * inCh * size ≤ 2 ^ 32) (hfits' : frames * m.outChannels * size ≤ 2 ^ 32)
include hfits hfits'

theorem mapSample_eq (hf : f < frames) (hc : c < m.outChannels) {written free : List UInt8}
    (hw : written.length = (f * m.outChannels + c) * size) (hfree : size ≤ free.length) :
    mapSample m inCh size input f (written ++ free) c =
      some (written ++ sampleAt m inCh size input f c ++ free.drop size) := by
  have hlen := length_sampleAt (m := m) hin hf c
  rw [mapSample, offset_eq hf hc hfits']
  rw [sampleAt] at hlen ⊢
  dsimp only
  split_ifs at hlen ⊢ with hsrc
  · have hch : (m.map c).toNat < inCh := by omega
    have hle := offset_le hf hch size
    rw [offset_eq hf hch hfits, Checked.copy, if_pos (by rw [length_drop]; omega),
      put_append hw.symm (by omega), hlen]
  · rw [put_append hw.symm (by omega), hlen]

theorem process_eq {out : List UInt8} (hout : frames * m.outChannels * size ≤ out.length) :
    (range frames).foldlM (fun out f =>
      (range m.outChannels).foldlM (mapSample m inCh size input f) out) out =
    some (mapped m inCh size frames input ++ out.drop (frames * m.outChannels * size)) := by
  have hframe (f : ℕ) (hf : f < frames) (written free : List UInt8)
      (hw : written.length = 0 + f * (m.outChannels * size))
      (hfree : m.outChannels * size ≤ free.length) :
      (range m.outChannels).foldlM (mapSample m inCh size input f) (written ++ free) =
        some (written ++ frameAt m inCh size input f ++ free.drop (m.outChannels * size)) :=
    foldlM_fill (fun c _ => length_sampleAt hin hf c) (fun c hc w fr hw' hfr =>
      mapSample_eq hin hfits hfits' hf hc (by rw [hw', hw]; ring) hfr) rfl hfree
  rw [Nat.mul_assoc] at hout ⊢
  exact foldlM_fill (fun f hf => length_frameAt hin hf) hframe length_nil hout

end

theorem sampleAt_compose {m₁ m₂ : ChannelMap} {inCh size frames f : ℕ} {input : List UInt8}
    (hin : input.length = frames * inCh * size) (hf : f < frames) (c : ℕ) :
    sampleAt m₂ m₁.outChannels size (mapped m₁ inCh size frames input) f c =
      sampleAt (m₁.compose m₂) inCh size input f c := by
  by_cases hsrc : 0 ≤ m₂.map c ∧ m₂.map c < m₁.outChannels
  · rw [sampleAt, if_pos hsrc, sample_of_mapped hin hf (by omega)]
    simp only [sampleAt, ChannelMap.compose, if_pos hsrc]
  · rw [sampleAt, if_neg hsrc]
    simp [sampleAt, ChannelMap.compose, if_neg hsrc]

/-- Two channel maps one after the other give the bytes of the composed map. -/
theorem channelMaps_compose (m₁ m₂ : ChannelMap) (fmt : SampleFmt) {inCh frames : ℕ}
    {input out₁ out₂ out : List UInt8}
    (hin : input.length = frames * inCh * oveAudioSampleSize fmt)
    (hfits : frames * inCh * oveAudioSampleSize fmt ≤ 2 ^ 32)
    (hfits₁ : frames * m₁.outChannels * oveAudioSampleSize fmt ≤ 2 ^ 32)
    (hfits₂ : frames * m₂.outChannels * oveAudioSampleSize fmt ≤ 2 ^ 32)
    (hout₁ : out₁.length = frames * m₁.outChannels * oveAudioSampleSize fmt)
    (hout₂ : frames * m₂.outChannels * oveAudioSampleSize fmt ≤ out₂.length)
    (hout : frames * m₂.outChannels * oveAudioSampleSize fmt ≤ out.length) :
    ∃ middle bytes, channelMapProcess m₁ inCh fmt frames input out₁ = some middle ∧
      middle.length = frames * m₁.outChannels * oveAudioSampleSize fmt ∧
      channelMapProcess m₂ m₁.outChannels fmt frames middle out₂ =
        some (bytes ++ out₂.drop (frames * m₂.outChannels * oveAudioSampleSize fmt)) ∧
      channelMapProcess (m₁.compose m₂) inCh fmt frames input out =
        some (bytes ++ out.drop (frames * m₂.outChannels * oveAudioSampleSize fmt)) ∧
      bytes.length = frames * m₂.outChannels * oveAudioSampleSize fmt := by
  have hmiddle := length_mapped (m := m₁) hin
  have hsame : mapped (m₁.compose m₂) inCh (oveAudioSampleSize fmt) frames input =
      mapped m₂ m₁.outChannels (oveAudioSampleSize fmt) frames
        (mapped m₁ inCh (oveAudioSampleSize fmt) frames input) := by
    refine flatMap_congr fun f hf => ?_
    exact (flatMap_congr fun c _ => sampleAt_compose hin (mem_range.mp hf) c).symm
  refine ⟨mapped m₁ inCh (oveAudioSampleSize fmt) frames input,
    mapped (m₁.compose m₂) inCh (oveAudioSampleSize fmt) frames input, ?_, hmiddle, ?_, ?_, ?_⟩
  · rw [channelMapProcess, process_eq hin hfits hfits₁ hout₁.ge, ← hout₁, drop_length, append_nil]
  · rw [channelMapProcess, process_eq hmiddle hfits₁ hfits₂ hout₂, hsame]
  · exact process_eq (m := m₁.compose m₂) hin hfits hfits₂ hout
  · exact length_mapped (m := m₁.compose m₂) hin

def swap : ChannelMap := ⟨2, fun c => 1 - c, by decide, by decide⟩

theorem swap_twice :
    channelMapProcess (swap.compose swap) 2 .s16 1 [1, 2, 3, 4] [0, 0, 0, 0] = some [1, 2, 3, 4] ∧
      ∃ middle bytes, channelMapProcess swap 2 .s16 1 [1, 2, 3, 4] [0, 0, 0, 0] = some middle ∧
        middle.length = 4 ∧
        channelMapProcess swap 2 .s16 1 middle [0, 0, 0, 0] = some (bytes ++ []) ∧
        channelMapProcess (swap.compose swap) 2 .s16 1 [1, 2, 3, 4] [0, 0, 0, 0] =
          some (bytes ++ []) ∧ bytes.length = 4 :=
  ⟨by decide, channelMaps_compose swap swap .s16 rfl (by decide) (by decide) (by decide) rfl
    (by decide) (by decide)⟩

end Overtos.Audio
