import PickleChat.Jitter
import Mathlib.Algebra.Ring.Nat

/-!
# Playback order

What a run of `push`, `pop` and `reset` plays. Each payload carries the true
sequence number it was pushed under, so that a popped frame tells which it is.
-/

namespace PickleChat

open Keyed Async

namespace JitterBuffer
variable {β σ : Type}

/-! ## Extended numbers stay in the range of an `i64` -/

def sinceReset (n : Nat) : JitterOp σ β → Nat
  | .push _ _ => n + 1
  | .pop => n
  | .reset => 0

/-- Every number the buffer holds is at most `n * 2 ^ 31` away from the first. -/
structure Within (n : Nat) (b : JitterBuffer β) : Prop where
  ahead : b.Ahead
  anchor : ∀ a ∈ b.anchor, -(n * 2 ^ 31 : Int) ≤ a.extended ∧ a.extended ≤ n * 2 ^ 31
  packets : ∀ e ∈ b.packets.entries, -(n * 2 ^ 31 : Int) ≤ e.1 ∧ e.1 ≤ n * 2 ^ 31
  next : ∀ next ∈ b.nextExtended, -(n * 2 ^ 31 : Int) ≤ next ∧ next ≤ n * 2 ^ 31 + 1

theorem toInt32_bound (x : UInt32) : -2 ^ 31 ≤ x.toInt32.toInt ∧ x.toInt32.toInt < 2 ^ 31 :=
  ⟨x.toInt32.le_toInt, x.toInt32.toInt_lt⟩

theorem Within.extend {n : Nat} {b : JitterBuffer β} (h : Within n b) (seq : UInt32) :
    -((n + 1 : Nat) * 2 ^ 31 : Int) ≤ (b.extend seq).1 ∧ (b.extend seq).1 ≤ (n + 1 : Nat) * 2 ^ 31 := by
  rw [extend_fst]
  cases ha : b.anchor with
  | none => constructor <;> simp only <;> omega
  | some a =>
    have hb := toInt32_bound (seq - a.seq)
    have hn := h.anchor a ha
    constructor <;> simp only <;> omega

theorem ahead_place {b : JitterBuffer β} (h : b.Ahead) (e : Int) (p : β) : (b.place e p).Ahead := by
  rcases place_cases b e p with ⟨next, hn, hlt, heq⟩ | ⟨hle, htrim⟩
  · rw [heq]
    exact h
  · apply htrim.ahead
    intro next hn x hx
    rcases OrdMap.mem_insert.mp hx with rfl | ⟨hx, -⟩
    · exact hle next hn
    · exact h next hn x hx

theorem Within.push {n : Nat} {b : JitterBuffer β} (h : Within n b) (seq : UInt32) (p : β) :
    Within (n + 1) (b.push seq p) := by
  have he := h.extend seq
  rw [push_eq]
  rcases place_cases b.count (b.extend seq).1 p with ⟨next, hn, hlt, heq⟩ | ⟨hle, htrim⟩
  · rw [heq]
    refine ⟨h.ahead, by simpa using he, fun x hx => ?_, fun next hn => ?_⟩
    · have := h.packets x hx
      omega
    · have := h.next next hn
      omega
  · have hin : ∀ x ∈ (b.packets.insert (b.extend seq).1 p).entries,
        -((n + 1 : Nat) * 2 ^ 31 : Int) ≤ x.1 ∧ x.1 ≤ (n + 1 : Nat) * 2 ^ 31 := by
      intro x hx
      rcases OrdMap.mem_insert.mp hx with rfl | ⟨hx, -⟩
      · exact he
      · have := h.packets x hx
        omega
    refine ⟨ahead_place (b := b.count) h.ahead _ p, by simpa using he, fun x hx => hin x (htrim.entries x hx), ?_⟩
    intro next' hn'
    obtain ⟨next, hn, hle', hor⟩ := htrim.next next' hn'
    have hlow := h.next next hn
    rcases hor with rfl | ⟨x, hx, rfl⟩
    · omega
    · have := hin x hx
      omega

theorem Within.take {n : Nat} {b : JitterBuffer β} (h : Within n b) : Within n b.take.2 := by
  have hahead := h.ahead.take
  rcases take_cases b with ⟨hn, heq⟩ | ⟨next, p, hn, hmem, heq⟩ | ⟨next, hn, hnil, heq⟩ | ⟨next, hn, hg, hne, heq⟩
  · rw [heq]
    exact h
  · rw [heq] at hahead ⊢
    refine ⟨hahead, h.anchor, fun e he => h.packets e (OrdMap.mem_remove.mp he).1, fun next' hn' => ?_⟩
    obtain rfl := Option.some.inj hn'
    have := h.packets _ hmem
    omega
  · rw [heq] at hahead ⊢
    exact ⟨hahead, h.anchor, h.packets, by simp⟩
  · rw [heq] at hahead ⊢
    obtain ⟨e, he⟩ := List.exists_mem_of_ne_nil _ hne
    refine ⟨hahead, h.anchor, h.packets, fun next' hn' => ?_⟩
    obtain rfl := Option.some.inj hn'
    have := h.next next hn
    have := h.packets e he
    have := h.ahead.lt hn hg he
    omega

theorem Within.pop {n : Nat} {b : JitterBuffer β} (h : Within n b) : Within n b.pop.2 := by
  rcases pop_cases b with ⟨hp, heq⟩ | ⟨hp, hl, heq⟩ | ⟨hp, hl, heq⟩
  · rw [heq]
    exact h.take
  · rw [heq]
    exact h
  · rw [heq]
    apply Within.take
    refine ⟨ahead_start b, h.anchor, h.packets, fun next hn => ?_⟩
    obtain ⟨p, hp⟩ := OrdMap.mem_of_firstKey hn
    have := h.packets _ hp
    exact ⟨this.1, by have := this.2; simp only at this; omega⟩

theorem within_reset (b : JitterBuffer β) : Within 0 b.reset := by
  constructor <;> simp [Ahead, reset, OrdMap.empty]

theorem within_run {n : Nat} {b : JitterBuffer β} (h : Within n b) (ops : List (JitterOp UInt32 β)) :
    Within (ops.foldl sinceReset n) (ops.foldl (fun b op => (b.step push op).2) b) := by
  induction ops generalizing n b with
  | nil => exact h
  | cons op ops ih =>
    cases op with
    | push seq p => exact ih (h.push seq p)
    | pop => exact ih h.pop
    | reset => exact ih (within_reset b)

/-- Below `2 ^ 32` pushes from one reset to the next, no number leaves the range of an `i64`. -/
theorem extended_fits (target max : Nat) (ops : List (JitterOp UInt32 β)) (hn : ops.foldl sinceReset 0 < 2 ^ 32) :
    (∀ a ∈ (ops.foldl (fun b op => (b.step push op).2) (new target max)).anchor,
      -2 ^ 63 ≤ a.extended ∧ a.extended < 2 ^ 63) ∧
    (∀ e ∈ (ops.foldl (fun b op => (b.step push op).2) (new target max)).packets.entries, -2 ^ 63 ≤ e.1 ∧
      e.1 < 2 ^ 63) ∧
    ∀ next ∈ (ops.foldl (fun b op => (b.step push op).2) (new target max)).nextExtended,
      -2 ^ 63 ≤ next ∧ next < 2 ^ 63 := by
  have h := within_run (within_reset (new target max)) ops
  have hnew : (new target max : JitterBuffer β).reset = new target max := rfl
  rw [hnew] at h
  generalize ops.foldl sinceReset 0 = n at h hn
  refine ⟨fun a ha => ?_, fun e he => ?_, fun next hnext => ?_⟩
  · have := h.anchor a ha
    omega
  · have := h.packets e he
    omega
  · have := h.next next hnext
    omega

end JitterBuffer

/-! ## What is played

The buffer with, beside it, the true number of the latest push and those of the
frames played since the last reset. -/

structure Playback (β : Type) where
  buffer : JitterBuffer (Int × β)
  last : Option Int
  played : List Int

namespace Playback
variable {β : Type}

def start (target max : Nat) : Playback β := ⟨.new target max, none, []⟩

/-- The true numbers of what `pop` returned. -/
def heard : Option (JitterOutput (Int × β)) → List Int
  | some (.frame (t, _)) => [t]
  | _ => []

def exec (s : Playback β) : JitterOp Int β → Playback β
  | .push t payload => ⟨s.buffer.push (JitterBuffer.wire t) (t, payload), some t, s.played⟩
  | .pop => ⟨s.buffer.pop.2, s.last, s.played ++ heard s.buffer.pop.1⟩
  | .reset => ⟨s.buffer.reset, none, []⟩

def Step (s : Playback β) (op : JitterOp Int β) (s' : Playback β) : Prop := s' = s.exec op

/-- A push is less than `2 ^ 31` away from the push before it. -/
def Near (s : Playback β) (op : JitterOp Int β) : Prop :=
  ∀ t payload, op = .push t payload → ∀ last ∈ s.last, -2 ^ 31 < t - last ∧ t - last < 2 ^ 31

/-- While the buffer is filling, nothing comes in that is not newer than all that has been played. -/
def Timely (s : Playback β) (op : JitterOp Int β) : Prop :=
  ∀ t payload, op = .push t payload → s.buffer.playing = false → ∀ x ∈ s.played, x < t

/-- The ideal buffer beside the real one, and where playback stands in it. -/
structure InOrder (s : Playback β) (i : JitterBuffer (Int × β)) : Prop where
  simulates : JitterBuffer.Simulates s.buffer s.last i
  tagged : ∀ e ∈ i.packets.entries, e.2.1 = e.1
  played : s.played.Pairwise (· < ·)
  slot : ∀ next ∈ i.nextExtended, ∀ x ∈ s.played, x < next
  filling : i.playing = false → i.nextExtended = none ∧ ∀ x ∈ s.played, ∀ e ∈ i.packets.entries, x < e.1

variable {s : Playback β} {i : JitterBuffer (Int × β)}

theorem InOrder.playing (h : InOrder s i) : i.playing = s.buffer.playing := by
  obtain ⟨o, rfl, -⟩ := h.simulates.shifted
  rfl

theorem InOrder.push (h : InOrder s i) {t : Int} {payload : β} (near : Near s (.push t payload))
    (timely : Timely s (.push t payload)) : InOrder (s.exec (.push t payload)) (i.idealPush t (t, payload)) := by
  have hsim := h.simulates.push (t, payload) (near t payload rfl)
  rcases JitterBuffer.place_cases i.count t (t, payload) with ⟨next, hn, hlt, heq⟩ | ⟨hle, htrim⟩
  · refine ⟨hsim, ?_, h.played, ?_, ?_⟩
    · rw [JitterBuffer.idealPush, heq]
      exact h.tagged
    · rw [JitterBuffer.idealPush, heq]
      exact h.slot
    · rw [JitterBuffer.idealPush, heq]
      exact h.filling
  · refine ⟨hsim, fun e he => ?_, h.played, fun next' hn' x hx => ?_, fun hp => ?_⟩
    · rcases OrdMap.mem_insert.mp (htrim.entries e he) with rfl | ⟨he, -⟩
      · rfl
      · exact h.tagged e he
    · obtain ⟨next, hn, hle', -⟩ := htrim.next next' hn'
      have := h.slot next hn x hx
      omega
    · have hfill : i.playing = false := htrim.playing.symm.trans hp
      obtain ⟨hnone, hold⟩ := h.filling hfill
      refine ⟨htrim.idle hnone, fun x hx e he => ?_⟩
      rcases OrdMap.mem_insert.mp (htrim.entries e he) with rfl | ⟨he, -⟩
      · exact timely t payload rfl (h.playing.symm.trans hfill) x hx
      · exact hold x hx e he

theorem take_inOrder (tagged : ∀ e ∈ i.packets.entries, e.2.1 = e.1) {played : List Int}
    (sorted : played.Pairwise (· < ·)) (slot : ∀ next ∈ i.nextExtended, ∀ x ∈ played, x < next)
    (hplaying : i.playing = true) :
    (∀ e ∈ i.take.2.packets.entries, e.2.1 = e.1) ∧ (played ++ heard i.take.1).Pairwise (· < ·) ∧
      (∀ next ∈ i.take.2.nextExtended, ∀ x ∈ played ++ heard i.take.1, x < next) ∧
      (i.take.2.playing = false → i.take.2.nextExtended = none ∧
        ∀ x ∈ played ++ heard i.take.1, ∀ e ∈ i.take.2.packets.entries, x < e.1) := by
  rcases JitterBuffer.take_cases i with
    ⟨hn, heq⟩ | ⟨next, p, hn, hmem, heq⟩ | ⟨next, hn, hnil, heq⟩ | ⟨next, hn, hg, hne, heq⟩
  · rw [heq]
    exact ⟨tagged, by simpa [heard] using sorted, by simp [hn], by simp [hplaying]⟩
  · have hp : p.1 = next := tagged _ hmem
    have hheard : heard (some (.frame p)) = [next] := congrArg ([·]) hp
    rw [heq, hheard]
    refine ⟨fun e he => tagged e (OrdMap.mem_remove.mp he).1, ?_, fun next' hn' x hx => ?_, ?_⟩
    · apply List.pairwise_append.mpr
      refine ⟨sorted, List.pairwise_singleton _ _, fun x hx y hy => ?_⟩
      obtain rfl := List.mem_singleton.mp hy
      exact slot _ hn x hx
    · obtain rfl := Option.some.inj hn'
      rcases List.mem_append.mp hx with hx | hx
      · have := slot next hn x hx
        omega
      · obtain rfl := List.mem_singleton.mp hx
        omega
    · simp [hplaying]
  · rw [heq]
    simp only [heard, List.append_nil]
    exact ⟨tagged, sorted, by simp, fun _ => ⟨trivial, by simp [hnil]⟩⟩
  · rw [heq]
    simp only [heard, List.append_nil]
    refine ⟨tagged, sorted, fun next' hn' x hx => ?_, by simp [hplaying]⟩
    obtain rfl := Option.some.inj hn'
    have := slot next hn x hx
    omega

theorem InOrder.pop (h : InOrder s i) : InOrder (s.exec .pop) i.pop.2 := by
  obtain ⟨hout, hsim⟩ := h.simulates.pop
  have taken : ∀ j : JitterBuffer (Int × β), i.pop = j.take → j.packets = i.packets →
      (∀ next ∈ j.nextExtended, ∀ x ∈ s.played, x < next) → j.playing = true → InOrder (s.exec .pop) i.pop.2 := by
    intro j hj hpackets hslot hplaying
    obtain ⟨h₁, h₂, h₃, h₄⟩ := take_inOrder (hpackets ▸ h.tagged) h.played hslot hplaying
    rw [← hj, hout] at h₂ h₃ h₄
    rw [← hj] at h₁
    exact ⟨hsim, h₁, h₂, h₃, h₄⟩
  rcases JitterBuffer.pop_cases i with ⟨hp, heq⟩ | ⟨hp, hl, heq⟩ | ⟨hp, hl, heq⟩
  · exact taken i heq rfl h.slot hp
  · have hheard : heard s.buffer.pop.1 = [] := by rw [← hout, heq]; rfl
    have hplayed : (s.exec .pop).played = s.played := by simp [exec, hheard]
    rw [heq] at hsim ⊢
    exact ⟨hsim, h.tagged, hplayed ▸ h.played, hplayed ▸ h.slot, hplayed ▸ h.filling⟩
  · refine taken _ heq rfl (fun next hn x hx => ?_) rfl
    -- playback starts at the oldest frame held, and all of them are past what has been played
    obtain ⟨p, hmem⟩ := OrdMap.mem_of_firstKey hn
    exact (h.filling hp).2 x hx _ hmem

theorem InOrder.reset (h : InOrder s i) : InOrder (s.exec .reset) i.reset :=
  ⟨h.simulates.reset, by simp [JitterBuffer.reset, OrdMap.empty], .nil, by simp [JitterBuffer.reset],
    fun _ => ⟨rfl, by simp [exec]⟩⟩

theorem inOrder_start (target max : Nat) : InOrder (start target max : Playback β) (.new target max) :=
  ⟨JitterBuffer.simulates_new target max, by simp [JitterBuffer.new, OrdMap.empty], .nil, by simp [JitterBuffer.new],
    fun _ => ⟨rfl, by simp [start]⟩⟩

/-- Where nothing stale is taken in while the buffer fills, frames are played in their true order. -/
theorem plays_in_order (target max : Nat) (s : Playback β)
    (h : Run Step (fun s op => Near s op ∧ Timely s op) (start target max) s) : s.played.Pairwise (· < ·) := by
  have hinv : ∃ i, InOrder s i := by
    refine Run.invariant (fun s => ∃ i, InOrder s i) ⟨_, inOrder_start target max⟩ ?_ h
    rintro s op s' ⟨i, hi⟩ ⟨near, timely⟩ rfl
    cases op with
    | push t payload => exact ⟨_, hi.push near timely⟩
    | pop => exact ⟨_, hi.pop⟩
    | reset => exact ⟨_, hi.reset⟩
  exact hinv.choose_spec.played

theorem near_first {t : Int} {p : β} (h : s.last = none) : Near s (.push t p) := by
  intro t' p' _ last hl
  rw [h] at hl
  cases hl

theorem near_pop : Near s .pop := by
  intro t p e
  cases e

/-- Two frames are played, the buffer runs dry, and a newer one comes in while it fills. -/
theorem plays_in_order_two :
    let s : Playback Unit := [.push 5 (), .push 6 (), .pop, .pop, .pop, .push 9 (), .pop].foldl exec (start 1 4)
    s.played = [5, 6, 9] ∧ s.played.Pairwise (· < ·) := by
  have near : ∀ {s : Playback Unit} {t last : Int}, s.last = some last → -2 ^ 31 < t - last ∧ t - last < 2 ^ 31 →
      Near s (.push t ()) := by
    rintro s t last hlast hnear _ _ ⟨⟩ last' hl
    obtain rfl := Option.some.inj (hlast.symm.trans hl)
    exact hnear
  have timely : ∀ {s : Playback Unit} {t : Int}, (∀ x ∈ s.played, x < t) → Timely s (.push t ()) := by
    rintro s t hplayed _ _ ⟨⟩ - x hx
    exact hplayed x hx
  have silent : ∀ s : Playback Unit, Timely s .pop := by
    rintro s _ _ ⟨⟩
  refine ⟨by decide, plays_in_order 1 4 _ (.step .pop (.step (.push 9 ()) (.step .pop (.step .pop (.step .pop
    (.step (.push 6 ()) (.step (.push 5 ()) .refl
    ⟨near_first rfl, timely (by decide)⟩ rfl)
    ⟨near rfl (by decide), timely (by decide)⟩ rfl)
    ⟨near_pop, silent _⟩ rfl)
    ⟨near_pop, silent _⟩ rfl)
    ⟨near_pop, silent _⟩ rfl)
    ⟨near rfl (by decide), timely (by decide)⟩ rfl)
    ⟨near_pop, silent _⟩ rfl)⟩

/-- After the buffer has run dry, a frame older than the one played last is taken in and played. -/
theorem underrun_plays_old_frame : ¬ ∀ (target max : Nat) (s : Playback Unit),
    Run Step Near (start target max) s → s.played.Pairwise (· < ·) := by
  intro h
  have near3 : Near ((((start 1 1 : Playback Unit).exec (.push 5 ())).exec .pop).exec .pop) (.push 3 ()) := by
    intro t p e last hl
    cases e
    obtain rfl := Option.some.inj hl
    decide
  have hrun : Run Step Near (start 1 1 : Playback Unit)
      ((((((start 1 1).exec (.push 5 ())).exec .pop).exec .pop).exec (.push 3 ())).exec .pop) :=
    .step .pop (.step (.push 3 ()) (.step .pop (.step .pop (.step (.push 5 ()) .refl (near_first rfl) rfl)
      near_pop rfl) near_pop rfl) near3 rfl) near_pop rfl
  exact absurd (h 1 1 _ hrun) (by decide)

end Playback

end PickleChat
