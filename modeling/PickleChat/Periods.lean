import PickleChat.Bursts

/-!
# Playing periods

From where `pop` starts playback to where it runs dry, a frame that was held or
came in time is played or dropped for want of room, and its slot is never
reported as lost.
-/

namespace PickleChat

open Keyed

/-- A buffer, and the numbers of the frames that this playing period is to play: those held when it began and
those pushed since, before their slots were reached. -/
structure Period (β : Type) where
  buffer : JitterBuffer β
  due : List Int

namespace JitterBuffer
variable {β : Type}

def held (b : JitterBuffer β) : List Int := b.packets.entries.map Prod.fst

/-- The slot that `pop` is to play, where it plays. -/
def slot (b : JitterBuffer β) : Option Int := if b.playing then b.nextExtended else b.packets.firstKey

end JitterBuffer

namespace Period
variable {β : Type}

/-- What is due where `pop` is called: a period may begin with it. -/
def dueAt (a : Period β) : List Int := if a.buffer.playing then a.due else a.buffer.held

def exec (a : Period β) : JitterOp UInt32 β → Period β
  | .push seq payload =>
    { buffer := a.buffer.push seq payload
      due :=
        if ∃ next ∈ a.buffer.nextExtended, next ≤ (a.buffer.extend seq).1 then (a.buffer.extend seq).1 :: a.due
        else a.due }
  | .pop => { buffer := a.buffer.pop.2, due := if a.buffer.pop.2.playing then a.dueAt else [] }
  | .reset => { buffer := a.buffer.reset, due := [] }

def run (target max : Nat) (ops : List (JitterOp UInt32 β)) : Period β :=
  ops.foldl exec ⟨.new target max, []⟩

end Period

namespace JitterBuffer
variable {β : Type}

theorem mem_held {b : JitterBuffer β} {e : Int} : e ∈ b.held ↔ ∃ p, (e, p) ∈ b.packets.entries := by
  unfold held
  constructor
  · intro h
    obtain ⟨x, hx, rfl⟩ := List.mem_map.mp h
    exact ⟨x.2, hx⟩
  · rintro ⟨p, hp⟩
    exact List.mem_map.mpr ⟨(e, p), hp, rfl⟩

theorem mem_held_insert {b : JitterBuffer β} {e k : Int} {p : β} (h : e = k ∨ e ∈ b.held) :
    e ∈ held { b with packets := b.packets.insert k p } := by
  apply mem_held.mpr
  by_cases hk : e = k
  · exact ⟨p, OrdMap.mem_insert.mpr (.inl (by rw [hk]))⟩
  · obtain ⟨q, hq⟩ := mem_held.mp (h.resolve_left hk)
    exact ⟨q, OrdMap.mem_insert.mpr (.inr ⟨hq, hk⟩)⟩

theorem mem_held_remove {b : JitterBuffer β} {e k : Int} (h : e ∈ b.held) (hk : e ≠ k) :
    e ∈ held { b with packets := b.packets.remove k } := by
  obtain ⟨p, hp⟩ := mem_held.mp h
  exact mem_held.mpr ⟨p, OrdMap.mem_remove.mpr ⟨hp, hk⟩⟩

/-! ## How much is held -/

theorem trim_room {n : Nat} {b : JitterBuffer β} (h : b.packets.size ≤ n) : (b.trim n).packets.size ≤ b.maxFrames := by
  induction n generalizing b with
  | zero => exact h.trans (Nat.zero_le _)
  | succ n ih =>
    rw [trim]
    by_cases hroom : b.maxFrames < b.packets.size
    · rw [if_pos hroom]
      cases hf : b.packets.firstKey with
      | none =>
        have hnil : b.packets.entries = [] := List.head?_eq_none_iff.mp (Option.map_eq_none_iff.mp hf)
        simp [OrdMap.size, hnil]
      | some oldest =>
        obtain ⟨p, hp⟩ := OrdMap.mem_of_firstKey hf
        have hone : b.packets.size = (b.dropOldest oldest).packets.size + 1 := OrdMap.size_of_mem hp
        exact ih (b := b.dropOldest oldest) (by omega)
    · rw [if_neg hroom]
      omega

theorem size_place (b : JitterBuffer β) (e : Int) (p : β) (h : b.packets.size ≤ b.maxFrames) :
    (b.place e p).packets.size ≤ b.maxFrames := by
  unfold place
  by_cases hlate : ∃ next ∈ b.nextExtended, e < next
  · rw [if_pos hlate]
    exact h
  · rw [if_neg hlate]
    exact trim_room (b := { b with packets := b.packets.insert e p }) (le_refl _)

/-! ## What the loop drops is passed -/

/-- A frame that the loop drops is behind the next slot. -/
theorem trim_passes (n : Nat) {b : JitterBuffer β} {e : Int} (h : e ∈ b.held) :
    (∀ next' ∈ (b.trim n).nextExtended, e < next') ∨ e ∈ (b.trim n).held := by
  induction n generalizing b with
  | zero => exact .inr h
  | succ n ih =>
    rw [trim]
    by_cases hroom : b.maxFrames < b.packets.size
    · rw [if_pos hroom]
      cases hf : b.packets.firstKey with
      | none => exact .inr h
      | some oldest =>
        by_cases he : e = oldest
        · left
          intro next' hn'
          -- the loop never moves the next slot back
          obtain ⟨next, hn, hle, -⟩ := (trimmed_trim n (b.dropOldest oldest)).next next' hn'
          obtain ⟨before, -, rfl⟩ := Option.map_eq_some_iff.mp hn
          split at hle
          · omega
          · omega
        · exact ih (b := b.dropOldest oldest) (mem_held_remove h he)
    · rw [if_neg hroom]
      exact .inr h

/-- So is one that was dropped before. -/
theorem trim_stays_passed (n : Nat) {b : JitterBuffer β} {e : Int} (h : ∀ next ∈ b.nextExtended, e < next) :
    ∀ next' ∈ (b.trim n).nextExtended, e < next' := by
  intro next' hn'
  obtain ⟨next, hn, hle, -⟩ := (trimmed_trim n b).next next' hn'
  have := h next hn
  omega

/-- A frame has been passed, or it is still held. -/
def Spared (b : JitterBuffer β) (e : Int) : Prop := (∀ next ∈ b.nextExtended, e < next) ∨ e ∈ b.held

theorem Spared.place {b : JitterBuffer β} {x e : Int} {p : β}
    (h : b.Spared x ∨ (x = e ∧ ∃ next ∈ b.nextExtended, next ≤ e)) : (b.place e p).Spared x := by
  unfold JitterBuffer.place
  by_cases hlate : ∃ next ∈ b.nextExtended, e < next
  · rw [if_pos hlate]
    rcases h with h | ⟨-, next, hn, hle⟩
    · exact h
    · obtain ⟨next', hn', hlt⟩ := hlate
      obtain rfl := Option.mem_unique hn hn'
      omega
  · rw [if_neg hlate]
    have hcases : (∀ next ∈ b.nextExtended, x < next) ∨ x = e ∨ x ∈ b.held := by
      rcases h with (h | h) | ⟨rfl, -⟩
      · exact .inl h
      · exact .inr (.inr h)
      · exact .inr (.inl rfl)
    rcases hcases with hpassed | hheld
    · exact .inl (trim_stays_passed _ (b := { b with packets := b.packets.insert e p }) hpassed)
    · exact trim_passes _ (mem_held_insert hheld)

theorem Spared.take {b : JitterBuffer β} {e : Int} (h : b.Spared e) : b.take.2.playing = true → b.take.2.Spared e := by
  rcases take_cases b with ⟨hn, heq⟩ | ⟨next, p, hn, hmem, heq⟩ | ⟨next, hn, hnil, heq⟩ | ⟨next, hn, hg, hne, heq⟩
  · rw [heq]
    exact fun _ => h
  · rw [heq]
    intro _
    by_cases he : e = next
    · left
      intro next' hn'
      obtain rfl := Option.some.inj hn'
      omega
    · rcases h with h | h
      · left
        intro next' hn'
        obtain rfl := Option.some.inj hn'
        have := h next hn
        omega
      · exact .inr (mem_held_remove h he)
  · rw [heq]
    intro hp
    cases hp
  · rw [heq]
    intro _
    rcases h with h | h
    · left
      intro next' hn'
      obtain rfl := Option.some.inj hn'
      have := h next hn
      omega
    · exact .inr h

/-- What is reported as lost is neither passed nor held. -/
theorem take_lost {b : JitterBuffer β} (h : b.take.1 = some .lost) : ∃ next ∈ b.nextExtended, ¬ b.Spared next := by
  rcases take_cases b with ⟨hn, heq⟩ | ⟨next, p, hn, hmem, heq⟩ | ⟨next, hn, hnil, heq⟩ | ⟨next, hn, hg, hne, heq⟩
  · rw [heq] at h
    cases h
  · rw [heq] at h
    cases h
  · rw [heq] at h
    cases h
  · refine ⟨next, hn, ?_⟩
    rintro (hpassed | hheld)
    · have := hpassed next hn
      omega
    · obtain ⟨p, hp⟩ := mem_held.mp hheld
      exact Keyed.get_eq_none.mp (Option.map_eq_none_iff.mp hg) (next, p) hp rfl

end JitterBuffer

/-! ## What holds throughout -/

namespace Period
variable {β : Type} {a : Period β}

/-- The buffer is poised and within its size, and every frame that is due has been passed or is held. -/
structure Sound (a : Period β) : Prop where
  poised : a.buffer.Poised
  room : a.buffer.packets.size ≤ a.buffer.maxFrames
  due : ∀ e ∈ a.due, a.buffer.Spared e

theorem Sound.push (h : Sound a) (seq : UInt32) (p : β) : Sound (a.exec (.push seq p)) := by
  obtain ⟨-, -, -, hmax⟩ := a.buffer.push_settings seq p
  have hpush := a.buffer.push_eq seq p
  refine ⟨h.poised.push seq p, ?_, ?_⟩
  · have hroom := JitterBuffer.size_place a.buffer.count (a.buffer.extend seq).1 p h.room
    change (a.buffer.push seq p).packets.size ≤ (a.buffer.push seq p).maxFrames
    rw [hmax, hpush]
    exact hroom
  · have hspared : ∀ x, a.buffer.Spared x ∨ (x = (a.buffer.extend seq).1 ∧
        ∃ next ∈ a.buffer.nextExtended, next ≤ (a.buffer.extend seq).1) → (a.buffer.push seq p).Spared x := by
      intro x hx
      rw [hpush]
      exact JitterBuffer.Spared.place (b := a.buffer.count) hx
    intro x hx
    apply hspared
    unfold exec at hx
    simp only at hx
    split at hx
    · rename_i htimely
      rcases List.mem_cons.mp hx with rfl | hx
      · exact .inr ⟨rfl, htimely⟩
      · exact .inl (h.due x hx)
    · exact .inl (h.due x hx)

/-- `pop` leaves a buffer that does not play, or takes from one that plays and holds what is due. -/
theorem Sound.popped (h : Sound a) :
    (a.buffer.pop = (none, a.buffer) ∧ a.buffer.playing = false) ∨
      ∃ b : JitterBuffer β, a.buffer.pop = b.take ∧ a.buffer.slot = b.nextExtended ∧ ∀ e ∈ a.dueAt, b.Spared e := by
  rcases a.buffer.pop_cases with ⟨hp, heq⟩ | ⟨hp, -, heq⟩ | ⟨hp, -, heq⟩
  · refine .inr ⟨a.buffer, heq, by simp [JitterBuffer.slot, hp], fun e he => h.due e ?_⟩
    simpa [dueAt, hp] using he
  · exact .inl ⟨heq, hp⟩
  · refine .inr ⟨_, heq, by simp [JitterBuffer.slot, hp], fun e he => .inr ?_⟩
    simpa [dueAt, hp, JitterBuffer.held] using he

theorem Sound.pop (h : Sound a) : Sound (a.exec .pop) := by
  refine ⟨h.poised.pop, ?_, ?_⟩
  · obtain ⟨-, hmax⟩ := a.buffer.pop_settings
    have hsize := a.buffer.pop_size
    have hroom := h.room
    change a.buffer.pop.2.packets.size ≤ a.buffer.pop.2.maxFrames
    omega
  · intro e he
    unfold exec at he
    simp only at he
    split at he
    · rename_i hplaying
      rcases h.popped with ⟨heq, hp⟩ | ⟨b, heq, -, hspared⟩
      · rw [heq, hp] at hplaying
        cases hplaying
      · rw [heq] at hplaying
        change a.buffer.pop.2.Spared e
        rw [heq]
        exact (hspared e he).take hplaying
    · cases he

theorem Sound.reset (h : Sound a) : Sound (a.exec .reset) :=
  ⟨h.poised.reset, Nat.zero_le _, fun e he => by cases he⟩

theorem sound_run (target max : Nat) (ops : List (JitterOp UInt32 β)) : Sound (run target max ops) := by
  unfold run
  generalize hstart : (⟨.new target max, []⟩ : Period β) = a
  have h : Sound a := by
    rw [← hstart]
    exact ⟨JitterBuffer.poised_new target max, Nat.zero_le _, fun e he => by cases he⟩
  clear hstart
  induction ops generalizing a with
  | nil => exact h
  | cons op ops ih =>
    cases op with
    | push seq p => exact ih _ (h.push seq p)
    | pop => exact ih _ h.pop
    | reset => exact ih _ h.reset

/-- What is kept beside the buffer changes nothing in it. -/
theorem run_buffer (target max : Nat) (ops : List (JitterOp UInt32 β)) :
    (run target max ops).buffer = JitterBuffer.after target max ops := by
  have hfrom : ∀ a : Period β, (ops.foldl exec a).buffer =
      ops.foldl (fun b op => (b.step JitterBuffer.push op).2) a.buffer := by
    induction ops with
    | nil => exact fun a => rfl
    | cons op ops ih =>
      intro a
      rw [List.foldl_cons, List.foldl_cons, ih]
      cases op with
      | push seq p => rfl
      | pop => rfl
      | reset => rfl
  exact hfrom _

theorem after_maxFrames (target max : Nat) (ops : List (JitterOp UInt32 β)) :
    (JitterBuffer.after target max ops).maxFrames = (JitterBuffer.new target max : JitterBuffer β).maxFrames := by
  unfold JitterBuffer.after
  generalize (JitterBuffer.new target max : JitterBuffer β) = b
  induction ops generalizing b with
  | nil => rfl
  | cons op ops ih =>
    rw [List.foldl_cons, ih]
    cases op with
    | push seq p => exact (b.push_settings seq p).2.2.2
    | pop => exact b.pop_settings.2
    | reset => rfl

/-- After every operation, a buffer plays just when it knows the next slot, holds no frame that is before it and
no more than it has room for, and `pop` reports no slot as lost whose frame is due in this period. -/
theorem no_phantom_loss (target max : Nat) (ops : List (JitterOp UInt32 β)) :
    ((run target max ops).buffer.playing = true ↔ (run target max ops).buffer.nextExtended.isSome = true) ∧
      (run target max ops).buffer.Ahead ∧
      (run target max ops).buffer.packets.size ≤ (JitterBuffer.new target max : JitterBuffer β).maxFrames ∧
      ((run target max ops).buffer.pop.1 = some .lost →
        ∃ slot ∈ (run target max ops).buffer.slot, slot ∉ (run target max ops).dueAt) := by
  have h := sound_run target max ops
  refine ⟨by rw [h.poised.playing], h.poised.ahead, ?_, fun hlost => ?_⟩
  · rw [← after_maxFrames target max ops, ← run_buffer]
    exact h.room
  · rcases h.popped with ⟨heq, -⟩ | ⟨b, heq, hslot, hspared⟩
    · rw [heq] at hlost
      cases hlost
    · rw [heq] at hlost
      obtain ⟨next, hn, hnot⟩ := JitterBuffer.take_lost hlost
      exact ⟨next, hslot ▸ hn, fun hdue => hnot (hspared next hdue)⟩

end Period

end PickleChat
