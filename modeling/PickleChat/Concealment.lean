import PickleChat.Playback

/-!
# Concealment

Between two pushes, `pop` plays what is held and reports every slot in between
that holds nothing as lost. How many those are depends on how far apart the
frames are held, which nothing in `push` bounds.
-/

namespace PickleChat

open Keyed

namespace JitterBuffer
variable {β : Type}

/-- The slots from `next` up to the last frame held that hold none. -/
def missingFrom (b : JitterBuffer β) (next : Int) : Nat :=
  match b.packets.entries.getLast? with
  | none => 0
  | some last => (last.1 + 1 - next).toNat - b.packets.size

/-- The slots that playback is to cross without a frame. -/
def missing (b : JitterBuffer β) : Nat :=
  if b.playing then (b.nextExtended.map b.missingFrom).getD 0
  else if b.packets.size < b.targetFrames then 0
  else (b.packets.firstKey.map b.missingFrom).getD 0

def after (target max : Nat) (ops : List (JitterOp UInt32 β)) : JitterBuffer β :=
  ops.foldl (fun b op => (b.step push op).2) (new target max)

def lostOne : Option (JitterOutput β) → Nat
  | some .lost => 1
  | _ => 0

def lostIn : Nat → JitterBuffer β → Nat
  | 0, _ => 0
  | k + 1, b => lostOne b.pop.1 + lostIn k b.pop.2

def popped : Nat → JitterBuffer β → JitterBuffer β
  | 0, b => b
  | k + 1, b => popped k b.pop.2

/-! ## What holds of the buffer throughout -/

/-- A buffer plays just when it knows the next slot, and waits for some frame at least. -/
structure Poised (b : JitterBuffer β) : Prop where
  ahead : b.Ahead
  playing : b.playing = b.nextExtended.isSome
  target : 0 < b.targetFrames

theorem trim_settings (n : Nat) (b : JitterBuffer β) :
    (b.trim n).nextExtended.isSome = b.nextExtended.isSome ∧ (b.trim n).targetFrames = b.targetFrames ∧
      (b.trim n).maxFrames = b.maxFrames := by
  induction n generalizing b with
  | zero => exact ⟨rfl, rfl, rfl⟩
  | succ n ih =>
    rw [trim]
    by_cases h : b.maxFrames < b.packets.size
    · rw [if_pos h]
      cases hf : b.packets.firstKey with
      | none => exact ⟨rfl, rfl, rfl⟩
      | some oldest =>
        obtain ⟨hnext, htarget, hmax⟩ := ih (b.dropOldest oldest)
        exact ⟨hnext.trans (by simp [dropOldest]), htarget, hmax⟩
    · rw [if_neg h]
      exact ⟨rfl, rfl, rfl⟩

theorem push_settings (b : JitterBuffer β) (seq : UInt32) (p : β) :
    (b.push seq p).nextExtended.isSome = b.nextExtended.isSome ∧ (b.push seq p).playing = b.playing ∧
      (b.push seq p).targetFrames = b.targetFrames ∧ (b.push seq p).maxFrames = b.maxFrames := by
  rw [push_eq]
  generalize (b.extend seq).1 = e
  unfold place
  by_cases h : ∃ next ∈ b.count.nextExtended, e < next
  · rw [if_pos h]
    exact ⟨rfl, rfl, rfl, rfl⟩
  · rw [if_neg h]
    let b₁ : JitterBuffer β := { b.count with packets := b.count.packets.insert e p }
    obtain ⟨hnext, htarget, hmax⟩ := trim_settings b₁.packets.size b₁
    exact ⟨hnext, (trimmed_trim b₁.packets.size b₁).playing, htarget, hmax⟩

theorem take_settings (b : JitterBuffer β) :
    b.take.2.targetFrames = b.targetFrames ∧ b.take.2.maxFrames = b.maxFrames := by
  rcases take_cases b with ⟨-, heq⟩ | ⟨_, _, -, -, heq⟩ | ⟨_, -, -, heq⟩ | ⟨_, -, -, -, heq⟩
  all_goals rw [heq]; exact ⟨rfl, rfl⟩

theorem pop_settings (b : JitterBuffer β) :
    b.pop.2.targetFrames = b.targetFrames ∧ b.pop.2.maxFrames = b.maxFrames := by
  rcases pop_cases b with ⟨-, heq⟩ | ⟨-, -, heq⟩ | ⟨-, -, heq⟩
  · rw [heq]
    exact take_settings b
  · rw [heq]
    exact ⟨rfl, rfl⟩
  · rw [heq]
    exact take_settings _

theorem Poised.push {b : JitterBuffer β} (h : Poised b) (seq : UInt32) (p : β) : Poised (b.push seq p) := by
  obtain ⟨hnext, hplaying, htarget, -⟩ := push_settings b seq p
  refine ⟨?_, by rw [hplaying, hnext, h.playing], by rw [htarget]; exact h.target⟩
  rw [push_eq]
  exact ahead_place (b := b.count) h.ahead _ p

theorem Poised.take {b : JitterBuffer β} (h : Poised b) (hp : b.playing = true) : Poised b.take.2 := by
  have hahead := h.ahead.take
  rcases take_cases b with ⟨hn, heq⟩ | ⟨next, p, -, -, heq⟩ | ⟨next, -, -, heq⟩ | ⟨next, -, -, -, heq⟩
  · rw [heq]
    exact h
  · rw [heq] at hahead ⊢
    exact ⟨hahead, hp, h.target⟩
  · rw [heq] at hahead ⊢
    exact ⟨hahead, rfl, h.target⟩
  · rw [heq] at hahead ⊢
    exact ⟨hahead, hp, h.target⟩

theorem Poised.started {b : JitterBuffer β} (h : Poised b) (hl : b.targetFrames ≤ b.packets.size) :
    Poised { b with playing := true, nextExtended := b.packets.firstKey } := by
  refine ⟨ahead_start b, ?_, h.target⟩
  have hpos := h.target
  cases he : b.packets.entries with
  | nil => simp [OrdMap.size, he] at hl; omega
  | cons e l => simp [OrdMap.firstKey, he]

theorem Poised.pop {b : JitterBuffer β} (h : Poised b) : Poised b.pop.2 := by
  rcases pop_cases b with ⟨hp, heq⟩ | ⟨-, -, heq⟩ | ⟨-, hl, heq⟩
  · rw [heq]
    exact h.take hp
  · rw [heq]
    exact h
  · rw [heq]
    exact (h.started hl).take rfl

theorem Poised.reset {b : JitterBuffer β} (h : Poised b) : Poised b.reset :=
  ⟨by simp [Ahead, JitterBuffer.reset], rfl, h.target⟩

theorem poised_new (target max : Nat) : Poised (new target max : JitterBuffer β) :=
  ⟨by simp [Ahead, new], rfl, by simp [new]⟩

theorem poised_after (target max : Nat) (ops : List (JitterOp UInt32 β)) : Poised (after target max ops) := by
  unfold after
  generalize hb : (new target max : JitterBuffer β) = b
  have h : Poised b := hb ▸ poised_new target max
  clear hb
  induction ops generalizing b with
  | nil => exact h
  | cons op ops ih =>
    cases op with
    | push seq p => exact ih _ (h.push seq p)
    | pop => exact ih _ h.pop
    | reset => exact ih _ h.reset

/-! ## How much is concealed -/

/-- There are at least as many slots as frames. -/
theorem length_le_span {l : List (Int × β)} (hs : l.Pairwise fun a b => a.1 < b.1) {first : Int}
    (hf : ∀ e ∈ l, first ≤ e.1) {last : Int × β} (hlast : l.getLast? = some last) :
    (l.length : Int) ≤ last.1 + 1 - first := by
  induction l generalizing first with
  | nil => cases hlast
  | cons e l ih =>
    obtain ⟨hlt, hs⟩ := List.pairwise_cons.mp hs
    have he := hf e List.mem_cons_self
    rw [List.getLast?_cons] at hlast
    rw [List.length_cons]
    cases hl : l.getLast? with
    | none =>
      obtain rfl := List.getLast?_eq_none_iff.mp hl
      obtain rfl := Option.some.inj hlast
      simp
      omega
    | some last' =>
      rw [hl] at hlast
      obtain rfl := Option.some.inj hlast
      have hrest : ∀ x ∈ l, first + 1 ≤ x.1 := fun x hx => by
        have := hlt x hx
        omega
      have := ih hs hrest hl
      push_cast
      omega

theorem take_missing {b : JitterBuffer β} (h : Poised b) (hp : b.playing = true) :
    lostOne b.take.1 + b.take.2.missing = b.missing := by
  have hnext := h.playing.symm.trans hp
  rcases take_cases b with ⟨hn, -⟩ | ⟨next, p, hn, hmem, heq⟩ | ⟨next, hn, hnil, heq⟩ | ⟨next, hn, hg, hne, heq⟩
  · rw [hn] at hnext
    cases hnext
  · obtain ⟨l, hl⟩ := h.ahead.first hn hmem
    have hsorted := hl ▸ b.packets.sorted
    have hrest : (b.packets.remove next).entries = l := OrdMap.entries_remove_first hl
    rw [heq]
    simp only [lostOne, missing, hp, hn, if_true, Option.map_some, Option.getD_some, missingFrom, OrdMap.size, hrest,
      hl, List.getLast?_cons, List.length_cons]
    cases hlast : l.getLast? with
    | none =>
      obtain rfl := List.getLast?_eq_none_iff.mp hlast
      simp
    | some last =>
      have hlt := (List.pairwise_cons.mp hsorted).1 last (List.mem_of_getLast? hlast)
      simp only [Option.getD_some] at hlt ⊢
      omega
  · rw [heq]
    have hsize : b.packets.size = 0 := by rw [OrdMap.size, hnil, List.length_nil]
    simp [lostOne, missing, missingFrom, hp, hn, hnil, hsize, h.target]
  · rw [heq]
    obtain ⟨last, hlast⟩ := Option.ne_none_iff_exists'.mp (mt List.getLast?_eq_none_iff.mp hne)
    have hlater : ∀ e ∈ b.packets.entries, next + 1 ≤ e.1 := fun e he => by
      have := h.ahead.lt hn hg he
      omega
    have hspan := length_le_span b.packets.sorted hlater hlast
    have hpos := List.length_pos_of_ne_nil hne
    simp only [lostOne, missing, hp, hn, if_true, Option.map_some, Option.getD_some, missingFrom, OrdMap.size, hlast]
    omega

/-- Each `Lost` crosses one of the slots that hold nothing, and nothing else does. -/
theorem pop_missing {b : JitterBuffer β} (h : Poised b) : lostOne b.pop.1 + b.pop.2.missing = b.missing := by
  rcases pop_cases b with ⟨hp, heq⟩ | ⟨hp, hl, heq⟩ | ⟨hp, hl, heq⟩
  · rw [heq]
    exact take_missing h hp
  · rw [heq]
    simp [lostOne]
  · rw [heq, take_missing (h.started hl) rfl]
    have hl' : ¬ b.packets.size < b.targetFrames := by omega
    simp only [missing, hp, hl', if_true, if_false, Bool.false_eq_true]
    rfl

theorem lostIn_missing (k : Nat) {b : JitterBuffer β} (h : Poised b) :
    lostIn k b + (popped k b).missing = b.missing := by
  induction k generalizing b with
  | zero => simp [lostIn, popped]
  | succ k ih =>
    have hstep := pop_missing h
    have hrest := ih h.pop
    simp only [lostIn, popped]
    omega

theorem take_progress {b : JitterBuffer β} (h : Poised b) (hp : b.playing = true) (hm : b.missing ≠ 0) :
    b.take.2.missing + b.take.2.packets.size < b.missing + b.packets.size := by
  have hmissing := take_missing h hp
  have hnext := h.playing.symm.trans hp
  rcases take_cases b with ⟨hn, -⟩ | ⟨next, p, hn, hmem, heq⟩ | ⟨next, hn, hnil, -⟩ | ⟨next, -, -, -, heq⟩
  · rw [hn] at hnext
    cases hnext
  · obtain ⟨l, hl⟩ := h.ahead.first hn hmem
    have hrest : b.take.2.packets.entries = l := by
      rw [heq]
      exact OrdMap.entries_remove_first hl
    have hlost : lostOne b.take.1 = 0 := by rw [heq]; rfl
    simp only [OrdMap.size, hrest, hl, List.length_cons]
    omega
  · exact absurd (by simp [missing, missingFrom, hp, hn, hnil]) hm
  · have hlost : lostOne b.take.1 = 1 := by rw [heq]; rfl
    have hsame : b.take.2.packets = b.packets := by rw [heq]
    rw [hsame]
    omega

/-- Where slots are missing, a pop uses one up, or a frame. -/
theorem pop_progress {b : JitterBuffer β} (h : Poised b) (hm : b.missing ≠ 0) :
    b.pop.2.missing + b.pop.2.packets.size < b.missing + b.packets.size := by
  rcases pop_cases b with ⟨hp, heq⟩ | ⟨hp, hl, -⟩ | ⟨hp, hl, heq⟩
  · rw [heq]
    exact take_progress h hp hm
  · exact absurd (by simp [missing, hp, hl]) hm
  · have hl' : ¬ b.packets.size < b.targetFrames := by omega
    have hsame : missing { b with playing := true, nextExtended := b.packets.firstKey } = b.missing := by
      simp only [missing, hp, hl', if_true, if_false, Bool.false_eq_true]
      rfl
    rw [heq, ← hsame]
    exact take_progress (h.started hl) rfl (hsame ▸ hm)

/-- In the end every missing slot is crossed. -/
theorem lostIn_all {b : JitterBuffer β} (h : Poised b) : ∃ k, lostIn k b = b.missing := by
  induction hn : b.missing + b.packets.size using Nat.strong_induction_on generalizing b with
  | _ n ih =>
    by_cases hm : b.missing = 0
    · exact ⟨0, hm.symm⟩
    · obtain ⟨k, hk⟩ := ih _ (hn ▸ pop_progress h hm) h.pop rfl
      have hstep := pop_missing h
      exact ⟨k + 1, by simp only [lostIn]; omega⟩

/-- Between a push and the next, `pop` returns `Lost` at most `max_frames` times, however often it is called,
exactly if no more slots than that are missing up to the last frame held. -/
theorem concealment_bounded_iff (target max : Nat) (ops : List (JitterOp UInt32 β)) (seq : UInt32) (p : β) :
    (∀ k, lostIn k ((after target max ops).push seq p) ≤ ((after target max ops).push seq p).maxFrames) ↔
      ((after target max ops).push seq p).missing ≤ ((after target max ops).push seq p).maxFrames := by
  have h := (poised_after target max ops).push seq p
  constructor
  · intro hall
    obtain ⟨k, hk⟩ := lostIn_all h
    exact hk ▸ hall k
  · intro hm k
    have := lostIn_missing k h
    omega

/-- A frame that is held far ahead keeps the concealment going. -/
theorem far_frame_concealed : ¬ ∀ (target max : Nat) (ops : List (JitterOp UInt32 Unit)) (seq : UInt32) (k : Nat),
    lostIn k ((after target max ops).push seq ()) ≤ ((after target max ops).push seq ()).maxFrames := by
  intro h
  have := h 3 16 [.push 0 (), .push 1 (), .push 2 (), .pop] 100 100
  exact absurd this (by decide +kernel)

end JitterBuffer

end PickleChat
