import PickleChat.Concealment
import PickleChat.Mixer

/-!
# Bursts

Packets of one burst that come in the order they were sent form a line in the
jitter buffer, and `pop` serves the line from its head, as long as playback is
under way or the line is long enough to start it. Nothing else starts it: the
flag on the last packet is not read. And the flag on the first is read when
that packet comes, not when its turn does.
-/

namespace PickleChat

open Keyed

namespace JitterBuffer
variable {β : Type}

/-! ## A line of frames -/

def numbered (first : Int) : List β → List (Int × β)
  | [] => []
  | p :: q => (first, p) :: numbered (first + 1) q

@[simp] theorem length_numbered (first : Int) (q : List β) : (numbered first q).length = q.length := by
  induction q generalizing first with
  | nil => rfl
  | cons p q ih => rw [numbered, List.length_cons, ih, List.length_cons]

theorem numbered_concat (first : Int) (q : List β) (p : β) :
    numbered first (q ++ [p]) = numbered first q ++ [(first + q.length, p)] := by
  induction q generalizing first with
  | nil => simp [numbered]
  | cons x q ih =>
    rw [List.cons_append, numbered, ih, numbered, List.cons_append, List.length_cons]
    have : first + 1 + (q.length : Int) = first + (q.length + 1 : Nat) := by omega
    rw [this]

theorem numbered_bounds {first : Int} {q : List β} {e : Int × β} (h : e ∈ numbered first q) :
    first ≤ e.1 ∧ e.1 < first + q.length := by
  induction q generalizing first with
  | nil => cases h
  | cons p q ih =>
    rw [List.length_cons]
    rcases List.mem_cons.mp h with rfl | h
    · constructor
      · exact le_refl _
      · simp only
        omega
    · have := ih h
      omega

/-- The frames held are `q`, without a gap, from the next slot on. -/
structure Lined (b : JitterBuffer β) (first : Int) (q : List β) : Prop where
  entries : b.packets.entries = numbered first q
  next : b.nextExtended = if b.playing then some first else none

theorem Lined.size {b : JitterBuffer β} {first : Int} {q : List β} (h : b.Lined first q) :
    b.packets.size = q.length := by
  rw [OrdMap.size, h.entries, length_numbered]

theorem trim_of_le {b : JitterBuffer β} (h : b.packets.size ≤ b.maxFrames) (n : Nat) : b.trim n = b := by
  cases n with
  | zero => rfl
  | succ n => rw [trim, if_neg (by omega)]

theorem place_of_room {b : JitterBuffer β} {e : Int} {p : β} (hlate : ∀ next ∈ b.nextExtended, next ≤ e)
    (hroom : (b.packets.insert e p).size ≤ b.maxFrames) : b.place e p = { b with packets := b.packets.insert e p } := by
  unfold place
  rw [if_neg (by rintro ⟨next, hn, hlt⟩; have := hlate next hn; omega)]
  exact trim_of_le (b := { b with packets := b.packets.insert e p }) hroom _

variable {b : JitterBuffer β} {first : Int} {p : β} {q : List β}

/-- A frame that comes in its turn goes to the end of the line. -/
theorem Lined.place (h : b.Lined first q) (hroom : q.length < b.maxFrames) (p : β) :
    (b.place (first + q.length) p).Lined first (q ++ [p]) ∧ (b.place (first + q.length) p).playing = b.playing := by
  have hlast : ∀ e ∈ b.packets.entries, e.1 < first + q.length := by
    intro e he
    rw [h.entries] at he
    exact (numbered_bounds he).2
  have hentries := OrdMap.entries_insert_last hlast p
  rw [place_of_room]
  · exact ⟨⟨by rw [hentries, h.entries, numbered_concat], h.next⟩, rfl⟩
  · intro next hn
    rw [h.next] at hn
    split at hn
    · obtain rfl := Option.some.inj hn
      omega
    · cases hn
  · rw [OrdMap.size, hentries, h.entries]
    simp
    omega

theorem pop_waiting (hp : b.playing = false) (hl : b.packets.size < b.targetFrames) : b.pop = (none, b) := by
  unfold pop
  rw [if_neg (by simp [hp]), if_pos hl]

theorem Lined.take (h : b.Lined first (p :: q)) (hp : b.playing = true) :
    b.take.1 = some (.frame p) ∧ b.take.2.Lined (first + 1) q ∧ b.take.2.playing = true := by
  have hn : b.nextExtended = some first := by rw [h.next, if_pos hp]
  have hg : b.packets.get first = some p := OrdMap.get_first h.entries
  have htake : b.take = (some (.frame p),
      { b with packets := b.packets.remove first, nextExtended := some (first + 1) }) := by
    simp only [JitterBuffer.take, hn, hg]
  rw [htake]
  exact ⟨rfl, ⟨OrdMap.entries_remove_first h.entries, by simp [hp]⟩, hp⟩

/-- The head of the line is played while playback is under way, or once the line is long enough. -/
theorem Lined.pop_head (h : b.Lined first (p :: q)) (hr : b.playing = true ∨ b.targetFrames ≤ b.packets.size) :
    b.pop.1 = some (.frame p) ∧ b.pop.2.Lined (first + 1) q ∧ b.pop.2.playing = true := by
  rcases pop_cases b with ⟨hp, heq⟩ | ⟨hp, hl, -⟩ | ⟨hp, hl, heq⟩
  · rw [heq]
    exact h.take hp
  · rcases hr with hr | hr
    · rw [hp] at hr
      cases hr
    · omega
  · have hfirst : b.packets.firstKey = some first := by simp [OrdMap.firstKey, h.entries, numbered]
    rw [heq]
    exact Lined.take (b := { b with playing := true, nextExtended := b.packets.firstKey }) ⟨h.entries, hfirst⟩ rfl

/-- A line that has run out stops playback. -/
theorem Lined.pop_end (h : b.Lined first []) (hp : b.playing = true) :
    b.pop.1 = none ∧ b.pop.2.Lined first [] ∧ b.pop.2.playing = false := by
  have hn : b.nextExtended = some first := by rw [h.next, if_pos hp]
  have hnil : b.packets.entries = [] := h.entries
  have hg : b.packets.get first = none := by simp [OrdMap.get, hnil]
  have hsize : b.packets.size = 0 := by rw [OrdMap.size, hnil, List.length_nil]
  have htake : b.take = (none, { b with
      stats := { b.stats with underruns := b.stats.underruns + 1 }, playing := false, nextExtended := none }) := by
    simp only [JitterBuffer.take, hn, hg, hsize, if_true]
  unfold pop
  rw [if_pos hp, htake]
  exact ⟨rfl, ⟨hnil, rfl⟩, rfl⟩

theorem Lined.push (h : b.Lined first q) {last : UInt32} (ha : b.anchor = some ⟨last, first + q.length - 1⟩)
    (hroom : q.length < b.maxFrames) (p : β) :
    (b.push (last + 1) p).Lined first (q ++ [p]) ∧ (b.push (last + 1) p).playing = b.playing ∧
      (b.push (last + 1) p).anchor = some ⟨last + 1, first + (q ++ [p]).length - 1⟩ := by
  have hone : (last + 1 - last).toInt32.toInt = 1 := by
    have : last + 1 - last = 1 := by grind
    rw [this]
    rfl
  have he : (b.extend (last + 1)).1 = first + q.length := by
    simp only [extend_fst, ha, hone]
    omega
  rw [push_eq, he]
  obtain ⟨hline, hplaying⟩ := Lined.place (b := b.count) ⟨h.entries, h.next⟩ hroom p
  refine ⟨⟨hline.entries, hline.next⟩, hplaying, ?_⟩
  have hlen : first + ((q ++ [p]).length : Int) - 1 = first + q.length := by
    rw [List.length_append, List.length_singleton]
    omega
  rw [hlen]

/-- The first frame to come starts a line. -/
theorem push_first (he : b.packets = .empty) (hn : b.nextExtended = none) (ha : b.anchor = none)
    (hp : b.playing = false) (hmax : 0 < b.maxFrames) (seq : UInt32) (p : β) :
    (b.push seq p).Lined 0 [p] ∧ (b.push seq p).playing = false ∧ (b.push seq p).anchor = some ⟨seq, 0⟩ := by
  have hline : b.Lined 0 [] := ⟨by rw [he]; rfl, by simp [hn, hp]⟩
  have hext : (b.extend seq).1 = 0 := by rw [extend_fst, ha]
  rw [push_eq, hext]
  obtain ⟨hline, hplaying⟩ := Lined.place (b := b.count) (q := []) ⟨hline.entries, hline.next⟩ hmax p
  exact ⟨⟨hline.entries, hline.next⟩, hplaying.trans hp, rfl⟩

end JitterBuffer

/-! ## A speaker's line -/

section
variable {δ β α : Type} {o : Opus δ β α} {f : Samples α}

def Opus.Decodes (o : Opus δ β α) (q : List β) : Prop := ∀ decoder, ∀ p ∈ q, (o.decode decoder p).1.isSome

namespace SenderStream
variable {s : SenderStream δ β α}

theorem render_idle (o : Opus δ β α) (s : SenderStream δ β α) :
    (s.render o).idleFrames = if (s.decoded o).1.isSome then 0 else s.idleFrames + 1 := by
  unfold render
  split
  · rename_i h
    simp [h]
  · rename_i h
    simp [h]

theorem kept_of_le (h : (s.render o).idleFrames ≤ idleFramesBeforeRelease) : s.kept o = some (s.render o) := by
  unfold kept
  rw [if_neg (by omega)]

/-- Frames that wait for more of them before playback starts. -/
def Waiting (s : SenderStream δ β α) : Prop :=
  s.jitter.playing = false ∧ 0 < s.jitter.packets.size ∧ s.jitter.packets.size < s.jitter.targetFrames

instance decidable_waiting (s : SenderStream δ β α) : Decidable s.Waiting := inferInstanceAs (Decidable (_ ∧ _ ∧ _))

theorem render_idle_of_frame {p : β} (hp : s.jitter.pop.1 = some (.frame p)) (hd : (o.decode s.decoder p).1.isSome) :
    (s.render o).idleFrames = 0 := by
  rw [render_idle, if_pos]
  simp only [decoded, hp]
  exact hd

theorem render_idle_le (o : Opus δ β α) (s : SenderStream δ β α) : (s.render o).idleFrames ≤ s.idleFrames + 1 := by
  rw [render_idle]
  split <;> omega

end SenderStream

namespace VoiceMixer
variable {m : VoiceMixer δ β α} {c : ClientId} {s : SenderStream δ β α}

theorem popped_render (hs : m.streams.get c = some s) : m.popped c (.render samplesPerFrame) = s.jitter.pop.1 := by
  rw [popped_rendered, hs, Option.bind_some]

theorem render_stream (hs : m.streams.get c = some s) :
    (m.exec o f (.render samplesPerFrame)).streams.get c = s.kept o := by
  rw [rendered_stream, hs, Option.bind_some]

/-- A line that may be served is served to its end, if its frames can be decoded or the stream has not been idle
for long. -/
theorem heard_line {q : List β} {first : Int} (hs : m.streams.get c = some s) (hl : s.jitter.Lined first q)
    (hr : s.jitter.playing = true ∨ s.jitter.targetFrames ≤ s.jitter.packets.size)
    (hkeep : o.Decodes q ∨ s.idleFrames + q.length ≤ idleFramesBeforeRelease) :
    m.heard o f c (List.replicate q.length (.render samplesPerFrame)) = q.map .frame := by
  induction q generalizing m s first with
  | nil => rfl
  | cons p q ih =>
    obtain ⟨hp, hl', hplaying⟩ := hl.pop_head hr
    have hkept : s.kept o = some (s.render o) := by
      apply SenderStream.kept_of_le
      rcases hkeep with hd | hle
      · rw [SenderStream.render_idle_of_frame hp (hd _ p List.mem_cons_self)]
        exact Nat.zero_le _
      · have := SenderStream.render_idle_le o s
        rw [List.length_cons] at hle
        omega
    have hkeep' : o.Decodes q ∨ (s.render o).idleFrames + q.length ≤ idleFramesBeforeRelease := by
      rcases hkeep with hd | hle
      · exact .inl fun decoder x hx => hd decoder x (List.mem_cons_of_mem p hx)
      · have := SenderStream.render_idle_le o s
        rw [List.length_cons] at hle
        exact .inr (by omega)
    rw [List.length_cons, List.replicate_succ, heard, popped_render hs, hp, List.map_cons]
    rw [ih ((render_stream hs).trans hkept) (by rw [SenderStream.render_jitter]; exact hl')
      (.inl (by rw [SenderStream.render_jitter]; exact hplaying)) hkeep']
    rfl

end VoiceMixer

/-! ## Nothing is played that did not come -/

namespace JitterBuffer

theorem size_insert_le (m : OrdMap Int β) (k : Int) (p : β) : (m.insert k p).size ≤ m.size + 1 := by
  rw [OrdMap.size_insert]
  exact Nat.succ_le_succ (List.length_filter_le _ _)

theorem trim_sublist (n : Nat) (b : JitterBuffer β) :
    List.Sublist (b.trim n).packets.entries b.packets.entries := by
  induction n generalizing b with
  | zero => exact .refl _
  | succ n ih =>
    rw [trim]
    by_cases h : b.maxFrames < b.packets.size
    · rw [if_pos h]
      cases hf : b.packets.firstKey with
      | none => exact .refl _
      | some oldest => exact (ih (b.dropOldest oldest)).trans List.filter_sublist
    · rw [if_neg h]

/-- What is held after a push was held before it, or has just come. -/
theorem push_subperm (b : JitterBuffer β) (seq : UInt32) (p : β) :
    List.Subperm ((b.push seq p).packets.entries.map Prod.snd) (p :: b.packets.entries.map Prod.snd) := by
  rw [push_eq]
  generalize (b.extend seq).1 = e
  change List.Subperm ((b.count.place e p).packets.entries.map Prod.snd) _
  unfold place
  by_cases hlate : ∃ next ∈ b.count.nextExtended, e < next
  · rw [if_pos hlate]
    exact (List.sublist_cons_self p _).subperm
  · rw [if_neg hlate]
    have htrim := trim_sublist (b.packets.insert e p).size { b.count with packets := b.packets.insert e p }
    have hinsert := (OrdMap.insert_perm b.packets e p).map Prod.snd
    have hremove : List.Sublist (b.packets.remove e).entries b.packets.entries := List.filter_sublist
    have hheld := hinsert.subperm.trans ((hremove.map Prod.snd).cons_cons p).subperm
    exact (htrim.map Prod.snd).subperm.trans hheld

/-- What `pop` returns was held, and the rest still is. -/
theorem take_perm (b : JitterBuffer β) :
    (b.take.1.toList.filterMap JitterOutput.frame? ++ b.take.2.packets.entries.map Prod.snd).Perm
      (b.packets.entries.map Prod.snd) := by
  rcases take_cases b with ⟨-, heq⟩ | ⟨next, p, -, hmem, heq⟩ | ⟨_, -, -, heq⟩ | ⟨_, -, -, -, heq⟩
  · rw [heq]
    exact .refl _
  · rw [heq]
    exact ((OrdMap.perm_of_mem hmem).map Prod.snd).symm
  · rw [heq]
    exact .refl _
  · rw [heq]
    exact .refl _

theorem pop_perm (b : JitterBuffer β) :
    (b.pop.1.toList.filterMap JitterOutput.frame? ++ b.pop.2.packets.entries.map Prod.snd).Perm
      (b.packets.entries.map Prod.snd) := by
  rcases pop_cases b with ⟨-, heq⟩ | ⟨-, -, heq⟩ | ⟨-, -, heq⟩
  · rw [heq]
    exact take_perm b
  · rw [heq]
    exact .refl _
  · rw [heq]
    exact take_perm { b with playing := true, nextExtended := b.packets.firstKey }

theorem size_push_le (b : JitterBuffer β) (seq : UInt32) (p : β) :
    (b.push seq p).packets.size ≤ b.packets.size + 1 := by
  have hheld := (b.push_subperm seq p).length_le
  rw [List.length_cons, List.length_map, List.length_map] at hheld
  exact hheld

theorem pop_size (b : JitterBuffer β) :
    (b.pop.1.toList.filterMap JitterOutput.frame?).length + b.pop.2.packets.size = b.packets.size := by
  have hheld := b.pop_perm.length_eq
  rw [List.length_append, List.length_map, List.length_map] at hheld
  exact hheld

end JitterBuffer

def heldOf (stream : Option (SenderStream δ β α)) : Nat := stream.elim 0 (·.jitter.packets.size)

theorem SenderStream.accept_size (s : SenderStream δ β α) (packet : VoicePacket β) :
    (s.accept packet).jitter.packets.size ≤ s.jitter.packets.size + 1 := by
  unfold SenderStream.accept
  by_cases h : packet.startsBurst
  · simp only [h, if_true]
    have hempty : s.jitter.reset.packets.size = 0 := rfl
    have := s.jitter.reset.size_push_le packet.seq packet.payload
    omega
  · simp only [h]
    exact s.jitter.size_push_le packet.seq packet.payload

theorem heldOf_accept (o : Opus δ β α) (f : Samples α) (stream : Option (SenderStream δ β α)) (packet : VoicePacket β) :
    heldOf ((SenderStream.found o f stream).map (·.accept packet)) ≤ heldOf stream + 1 := by
  cases stream with
  | some s => exact s.accept_size packet
  | none =>
    cases hd : o.newDecoder with
    | error e => simp [SenderStream.found, hd, Except.toOption, heldOf]
    | ok decoder =>
      have hempty : (SenderStream.new f decoder : SenderStream δ β α).jitter.packets.size = 0 := rfl
      have := (SenderStream.new f decoder : SenderStream δ β α).accept_size packet
      rw [hempty] at this
      simpa [SenderStream.found, hd, Except.toOption, heldOf] using this

theorem heldOf_map {g : SenderStream δ β α → SenderStream δ β α} (hg : ∀ s, (g s).jitter = s.jitter)
    (stream : Option (SenderStream δ β α)) : heldOf (stream.map g) = heldOf stream := by
  cases stream with
  | none => rfl
  | some s => simp [heldOf, hg]

namespace VoiceMixer

/-- What a step plays of a speaker was held before it or has come with it. -/
theorem exec_held (m : VoiceMixer δ β α) (c : ClientId) (op : MixerOp β α) :
    ((m.popped c op).toList.filterMap JitterOutput.frame?).length + heldOf ((m.exec o f op).streams.get c) ≤
      heldOf (m.streams.get c) + (op.arrival c).toList.length := by
  rw [exec_stream]
  rcases op.kinds o f c with ⟨packet, rfl, hc⟩ | rfl | ⟨hidle, -, hnone⟩ | ⟨hidle, g, hg, hmap⟩
  · simpa [popped, MixerOp.onStream, MixerOp.arrival, hc] using heldOf_accept o f (m.streams.get c) packet
  · cases hs : m.streams.get c with
    | none => simp [popped, MixerOp.onStream, hs, heldOf]
    | some s =>
      have hpop := s.jitter.pop_size
      have hkept : heldOf (s.kept o) ≤ s.jitter.pop.2.packets.size := by
        unfold SenderStream.kept
        split
        · exact Nat.zero_le _
        · simp [heldOf]
      rw [popped_render hs]
      simp only [MixerOp.onStream, if_true, Option.bind_some, MixerOp.arrival, Option.toList_none, List.length_nil]
      simp only [heldOf, Option.elim_some] at hkept ⊢
      omega
  · rw [hidle.popped, hnone]
    simp [heldOf]
  · rw [hidle.popped, hmap, heldOf_map fun s => (hg s).1]
    simp

theorem heard_held (m : VoiceMixer δ β α) (c : ClientId) (ops : List (MixerOp β α)) :
    ((m.heard o f c ops).filterMap JitterOutput.frame?).length + heldOf ((m.run o f ops).streams.get c) ≤
      heldOf (m.streams.get c) + (arrivals c ops).length := by
  induction ops generalizing m with
  | nil => simp [heard, run, arrivals]
  | cons op ops ih =>
    have hstep := m.exec_held (o := o) (f := f) c op
    have hrest := ih (m.exec o f op)
    rw [heard, List.filterMap_append, List.length_append, arrivals_cons, List.length_append]
    have hrun : m.run o f (op :: ops) = (m.exec o f op).run o f ops := rfl
    rw [hrun]
    omega

end VoiceMixer

/-! ## A burst that comes in order -/

def talk (c : ClientId) (seq : UInt32) : List β → List (VoicePacket β)
  | [] => []
  | [p] => [⟨c, seq, flagBurstEnd, p⟩]
  | p :: q => ⟨c, seq, 0, p⟩ :: talk c (seq + 1) q

/-- The packets of a burst, numbered from `seq`. -/
def burst (c : ClientId) (seq : UInt32) : List β → List (VoicePacket β)
  | [] => []
  | [p] => [⟨c, seq, flagBurstStart ||| flagBurstEnd, p⟩]
  | p :: q => ⟨c, seq, flagBurstStart, p⟩ :: talk c (seq + 1) q

theorem talk_cons (c : ClientId) (seq : UInt32) (p : β) (q : List β) :
    ∃ packet, talk c seq (p :: q) = packet :: talk c (seq + 1) q ∧ packet.sender = c ∧ packet.seq = seq ∧
      packet.payload = p ∧ packet.startsBurst = false := by
  cases q with
  | nil => exact ⟨_, rfl, rfl, rfl, rfl, (by decide : decide (flagBurstEnd &&& flagBurstStart ≠ 0) = false)⟩
  | cons p' q => exact ⟨_, rfl, rfl, rfl, rfl, (by decide : decide (0 &&& flagBurstStart ≠ 0) = false)⟩

theorem length_talk (c : ClientId) (seq : UInt32) (q : List β) : (talk c seq q).length = q.length := by
  induction q generalizing seq with
  | nil => rfl
  | cons p q ih =>
    obtain ⟨packet, htalk, -⟩ := talk_cons c seq p q
    rw [htalk, List.length_cons, ih, List.length_cons]

theorem burst_cons (c : ClientId) (seq : UInt32) (p : β) (q : List β) :
    ∃ packet, burst c seq (p :: q) = packet :: talk c (seq + 1) q ∧ packet.sender = c ∧ packet.seq = seq ∧
      packet.payload = p ∧ packet.startsBurst = true := by
  cases q with
  | nil =>
    exact ⟨_, rfl, rfl, rfl, rfl, (by decide :
      decide ((flagBurstStart ||| flagBurstEnd) &&& flagBurstStart ≠ 0) = true)⟩
  | cons p' q => exact ⟨_, rfl, rfl, rfl, rfl, (by decide : decide (flagBurstStart &&& flagBurstStart ≠ 0) = true)⟩

theorem length_burst (c : ClientId) (seq : UInt32) (q : List β) : (burst c seq q).length = q.length := by
  cases q with
  | nil => rfl
  | cons p q =>
    obtain ⟨packet, hburst, -⟩ := burst_cons c seq p q
    rw [hburst, List.length_cons, length_talk, List.length_cons]

theorem talk_starts (c : ClientId) (seq : UInt32) (q : List β) :
    ∀ packet ∈ talk c seq q, packet.startsBurst = false := by
  induction q generalizing seq with
  | nil => simp [talk]
  | cons p q ih =>
    obtain ⟨packet, htalk, -, -, -, hstart⟩ := talk_cons c seq p q
    rw [htalk]
    exact List.forall_mem_cons.mpr ⟨hstart, ih _⟩

def JitterBuffer.Sized (b : JitterBuffer β) : Prop :=
  b.targetFrames = defaultTargetFrames ∧ b.maxFrames = defaultMaxFrames

theorem JitterBuffer.sized_kept : Kept (Sized (β := β)) where
  new := ⟨rfl, rfl⟩
  reset _ h := h
  push b seq p h := by
    obtain ⟨-, -, htarget, hmax⟩ := b.push_settings seq p
    unfold Sized
    rw [htarget, hmax]
    exact h
  pop b h := by
    obtain ⟨htarget, hmax⟩ := b.pop_settings
    unfold Sized
    rw [htarget, hmax]
    exact h

/-- What is held of a speaker is a line of frames, the last of them numbered `last`. -/
structure InLine (stream : Option (SenderStream δ β α)) (last : UInt32) (q : List β) : Prop where
  gone : stream = none → q = []
  lined : ∀ s ∈ stream, ∃ first, s.jitter.Lined first q ∧ s.jitter.anchor = some ⟨last, first + q.length - 1⟩
  sized : ∀ s ∈ stream, s.jitter.Sized

section
variable {stream : Option (SenderStream δ β α)} {last : UInt32} {q : List β} {packet : VoicePacket β}

theorem found_ne_none (hnew : ∃ decoder, o.newDecoder = .ok decoder) : SenderStream.found o f stream ≠ none := by
  obtain ⟨decoder, hd⟩ := hnew
  cases stream with
  | none => simp [SenderStream.found, hd, Except.toOption]
  | some s => simp [SenderStream.found]

/-- The first packet of a burst starts a new line, whatever was there. -/
theorem line_start {s : SenderStream δ β α} (hs : s.jitter.Sized) (hstart : packet.startsBurst = true) :
    (s.accept packet).jitter.Lined 0 [packet.payload] ∧ (s.accept packet).jitter.playing = false ∧
      (s.accept packet).jitter.anchor = some ⟨packet.seq, 0⟩ := by
  have hmax : s.jitter.reset.maxFrames = defaultMaxFrames := hs.2
  have hjitter : (s.accept packet).jitter = s.jitter.reset.push packet.seq packet.payload := by
    simp [SenderStream.accept, hstart]
  rw [hjitter]
  exact JitterBuffer.push_first rfl rfl rfl rfl (by rw [hmax]; decide) packet.seq packet.payload

theorem inLine_start (hnew : ∃ decoder, o.newDecoder = .ok decoder) (hsized : ∀ s ∈ stream, s.jitter.Sized)
    (hstart : packet.startsBurst = true) :
    InLine ((SenderStream.found o f stream).map (·.accept packet)) packet.seq [packet.payload] := by
  refine ⟨fun h => absurd (Option.map_eq_none_iff.mp h) (found_ne_none hnew), fun s' hs' => ?_, ?_⟩
  · obtain ⟨s, hs, rfl⟩ := Option.map_eq_some_iff.mp hs'
    obtain ⟨hl, -, ha⟩ := line_start (jitter_found JitterBuffer.sized_kept hsized hs) hstart
    exact ⟨0, hl, ha⟩
  · have hsized' := jitter_onStream (o := o) (f := f) JitterBuffer.sized_kept hsized packet.sender (.accept packet)
    simpa [MixerOp.onStream] using hsized'

/-- The packet that is due joins the line. -/
theorem InLine.accept (h : InLine stream last q) (hnew : ∃ decoder, o.newDecoder = .ok decoder)
    (hstart : packet.startsBurst = false) (hseq : packet.seq = last + 1) (hroom : q.length < defaultMaxFrames) :
    InLine ((SenderStream.found o f stream).map (·.accept packet)) packet.seq (q ++ [packet.payload]) := by
  refine ⟨fun h => absurd (Option.map_eq_none_iff.mp h) (found_ne_none hnew), fun s' hs' => ?_, ?_⟩
  · obtain ⟨s, hs, rfl⟩ := Option.map_eq_some_iff.mp hs'
    simp only [SenderStream.accept, hstart, if_false, Bool.false_eq_true]
    rcases SenderStream.mem_found hs with hs | ⟨hnone, decoder, -, rfl⟩
    · obtain ⟨first, hl, ha⟩ := h.lined s hs
      obtain ⟨hl', -, ha'⟩ := hl.push ha ((h.sized s hs).2 ▸ hroom) packet.payload
      rw [hseq]
      exact ⟨first, hl', ha'⟩
    · obtain rfl := h.gone hnone
      obtain ⟨hl, -, ha⟩ := JitterBuffer.push_first (b := (SenderStream.new f decoder : SenderStream δ β α).jitter)
        rfl rfl rfl rfl (Nat.succ_pos 15) packet.seq packet.payload
      exact ⟨0, hl, ha⟩
  · have hsized' := jitter_onStream (o := o) (f := f) JitterBuffer.sized_kept h.sized packet.sender (.accept packet)
    simpa [MixerOp.onStream] using hsized'

/-- The buffer after a pop, where the stream is kept. -/
theorem inLine_kept {s : SenderStream δ β α} {first : Int} (hsized : s.jitter.Sized)
    (hl : s.jitter.pop.2.Lined first q) (ha : s.jitter.anchor = some ⟨last, first + q.length - 1⟩)
    (hgone : s.kept o = none → q = []) : InLine (s.kept o) last q := by
  refine ⟨hgone, fun s' hs' => ?_, fun s' hs' => ?_⟩
  · rw [SenderStream.mem_kept hs', SenderStream.render_jitter, JitterBuffer.anchor_pop]
    exact ⟨first, hl, ha⟩
  · rw [SenderStream.mem_kept hs', SenderStream.render_jitter]
    exact JitterBuffer.sized_kept.pop _ hsized

/-- A render serves the head of the line or leaves the line as it is, unless it gives up on frames that wait. -/
theorem InLine.render (h : InLine stream last q) (hdec : o.Decodes q)
    (hpatient : ∀ s ∈ stream, s.Waiting → s.idleFrames < idleFramesBeforeRelease) :
    ∃ q', (stream.bind (·.jitter.pop.1)).toList ++ q'.map .frame = q.map .frame ∧
      InLine (stream.bind (·.kept o)) last q' := by
  cases hs : stream with
  | none =>
    subst hs
    exact ⟨q, rfl, h⟩
  | some s =>
    obtain ⟨first, hl, ha⟩ := h.lined s hs
    have hsized := h.sized s hs
    simp only [Option.bind_some]
    cases q with
    | nil =>
      cases hp : s.jitter.playing with
      | true =>
        obtain ⟨hnone, hl', -⟩ := hl.pop_end hp
        exact ⟨[], by rw [hnone]; rfl, inLine_kept hsized hl' ha fun _ => rfl⟩
      | false =>
        have hpop := JitterBuffer.pop_waiting hp (by rw [hl.size, hsized.1]; exact Nat.succ_pos 2)
        exact ⟨[], by rw [hpop]; rfl, inLine_kept hsized (by rw [hpop]; exact hl) ha fun _ => rfl⟩
    | cons p q =>
      by_cases hr : s.jitter.playing = true ∨ s.jitter.targetFrames ≤ s.jitter.packets.size
      · obtain ⟨hhead, hl', -⟩ := hl.pop_head hr
        have hidle := SenderStream.render_idle_of_frame hhead (hdec s.decoder p List.mem_cons_self)
        have hkept : s.kept o = some (s.render o) := SenderStream.kept_of_le (hidle ▸ Nat.zero_le _)
        refine ⟨q, by rw [hhead]; rfl, inLine_kept hsized hl' ?_ fun hn => by rw [hkept] at hn; cases hn⟩
        have hlast : first + ((p :: q).length : Int) - 1 = first + 1 + q.length - 1 := by
          rw [List.length_cons]
          omega
        rw [ha, hlast]
      · have hwait : s.Waiting := by
          refine ⟨by simpa using mt Or.inl hr, by rw [hl.size]; exact Nat.succ_pos _, ?_⟩
          have := mt Or.inr hr
          omega
        have hpop := JitterBuffer.pop_waiting hwait.1 hwait.2.2
        have hkept : s.kept o = some (s.render o) := by
          have := hpatient s hs hwait
          have := SenderStream.render_idle_le o s
          exact SenderStream.kept_of_le (by omega)
        refine ⟨p :: q, by rw [hpop]; rfl, inLine_kept hsized (by rw [hpop]; exact hl) ha fun hn => ?_⟩
        rw [hkept] at hn
        cases hn

end

namespace VoiceMixer
variable {m : VoiceMixer δ β α} {c : ClientId}

def Roomy (c : ClientId) (m : VoiceMixer δ β α) (op : MixerOp β α) : Prop :=
  ∀ packet, op.arrival c = some packet → heldOf (m.streams.get c) < defaultMaxFrames

/-- No frame waits through more renders than an idle stream is kept for. -/
def Patient (c : ClientId) (m : VoiceMixer δ β α) (op : MixerOp β α) : Prop :=
  op = .render samplesPerFrame → ∀ s ∈ m.streams.get c, s.Waiting → s.idleFrames < idleFramesBeforeRelease

theorem heldOf_inLine {stream : Option (SenderStream δ β α)} {last : UInt32} {q : List β} (h : InLine stream last q) :
    heldOf stream = q.length := by
  cases hs : stream with
  | none => rw [h.gone hs]; rfl
  | some s =>
    obtain ⟨first, hl, -⟩ := h.lined s hs
    exact hl.size

theorem inLine_map {stream : Option (SenderStream δ β α)} {last : UInt32} {q : List β} (h : InLine stream last q)
    {g : SenderStream δ β α → SenderStream δ β α} (hg : ∀ s, (g s).jitter = s.jitter) :
    InLine (stream.map g) last q := by
  refine ⟨fun hn => h.gone (Option.map_eq_none_iff.mp hn), fun s' hs' => ?_, fun s' hs' => ?_⟩
  · obtain ⟨s, hs, rfl⟩ := Option.map_eq_some_iff.mp hs'
    rw [hg]
    exact h.lined s hs
  · obtain ⟨s, hs, rfl⟩ := Option.map_eq_some_iff.mp hs'
    rw [hg]
    exact h.sized s hs

theorem mem_of_frames {l : List (JitterOutput β)} {q q' : List β} (h : l ++ q'.map .frame = q.map .frame) {p : β}
    (hp : p ∈ q') : p ∈ q := by
  have hmem : JitterOutput.frame p ∈ q.map JitterOutput.frame := by
    rw [← h]
    exact List.mem_append_right _ (List.mem_map_of_mem hp)
  obtain ⟨p', hp', he⟩ := List.mem_map.mp hmem
  cases he
  exact hp'

/-- Over a run that brings the rest of a burst in order, what has been played and what is still held make up
the burst. -/
theorem heard_inLine (hnew : ∃ decoder, o.newDecoder = .ok decoder) {last : UInt32} {q rest : List β}
    (h : InLine (m.streams.get c) last q) {ops : List (MixerOp β α)} (harr : arrivals c ops = talk c (last + 1) rest)
    (hkeeps : ∀ op ∈ ops, op.Keeps c) (hroom : m.Along o f (Roomy c) ops) (hpatient : m.Along o f (Patient c) ops)
    (hdec : o.Decodes (q ++ rest)) :
    ∃ q' last', m.heard o f c ops ++ q'.map .frame = (q ++ rest).map .frame ∧
      InLine ((m.run o f ops).streams.get c) last' q' := by
  induction ops generalizing m last q rest with
  | nil =>
    cases rest with
    | nil => exact ⟨q, last, by simp [heard], h⟩
    | cons p rest =>
      obtain ⟨packet, htalk, -⟩ := talk_cons c (last + 1) p rest
      rw [htalk] at harr
      cases harr
  | cons op ops ih =>
    obtain ⟨hroom₀, hroom⟩ := hroom
    obtain ⟨hpatient₀, hpatient⟩ := hpatient
    have hkeeps' : ∀ op ∈ ops, op.Keeps c := fun op hop => hkeeps op (List.mem_cons_of_mem _ hop)
    rcases op.kinds o f c with ⟨packet, rfl, hc⟩ | rfl | ⟨-, hgone, -⟩ | ⟨hidle, g, hg, hmap⟩
    · rw [arrivals_cons, MixerOp.arrival_accept hc, Option.toList_some, List.singleton_append] at harr
      cases rest with
      | nil => cases harr
      | cons p rest =>
        obtain ⟨packet', htalk, -, hseq, hpayload, hstart⟩ := talk_cons c (last + 1) p rest
        rw [htalk] at harr
        obtain ⟨rfl, htail⟩ := List.cons.inj harr
        have hq := h.accept (f := f) hnew hstart hseq (heldOf_inLine h ▸ hroom₀ packet (MixerOp.arrival_accept hc))
        rw [← m.accepted_stream o f hc, hpayload] at hq
        have hsplit : q ++ p :: rest = q ++ [p] ++ rest := by simp
        rw [hsplit] at hdec ⊢
        obtain ⟨q', last', hheard, hq'⟩ := ih hq (hseq ▸ htail) hkeeps' hroom hpatient hdec
        exact ⟨q', last', hheard, hq'⟩
    · obtain ⟨q₁, hpop, hq⟩ := h.render (o := o) (fun d p hp => hdec d p (List.mem_append_left _ hp)) (hpatient₀ rfl)
      rw [← m.rendered_stream o f c] at hq
      have hdec' : o.Decodes (q₁ ++ rest) := by
        intro d p hp
        rcases List.mem_append.mp hp with hp | hp
        · exact hdec d p (List.mem_append_left _ (mem_of_frames hpop hp))
        · exact hdec d p (List.mem_append_right _ hp)
      obtain ⟨q', last', hheard, hq'⟩ := ih hq harr hkeeps' hroom hpatient hdec'
      refine ⟨q', last', ?_, hq'⟩
      rw [heard, popped_rendered, List.append_assoc, hheard, List.map_append, ← List.append_assoc, hpop,
        List.map_append]
    · exact absurd (hkeeps op List.mem_cons_self) hgone
    · have hstream : (m.exec o f op).streams.get c = (m.streams.get c).map g := by rw [exec_stream, hmap]
      have hq := inLine_map h (g := g) fun s => (hg s).1
      rw [arrivals_cons, hidle.arrival] at harr
      obtain ⟨q', last', hheard, hq'⟩ := ih (hstream ▸ hq) harr hkeeps' hroom hpatient hdec
      exact ⟨q', last', by rw [heard, hidle.popped]; exact hheard, hq'⟩

/-- Frames that wait are not played by rendering. -/
theorem heard_waiting (h : ∀ s ∈ m.streams.get c, s.Waiting) (k : Nat) :
    m.heard o f c (List.replicate k (.render samplesPerFrame)) = [] := by
  induction k generalizing m with
  | zero => rfl
  | succ k ih =>
    have hpop : ∀ s ∈ m.streams.get c, s.jitter.pop = (none, s.jitter) :=
      fun s hs => JitterBuffer.pop_waiting (h s hs).1 (h s hs).2.2
    have hpopped : m.popped c (.render samplesPerFrame) = none := by
      cases hs : m.streams.get c with
      | none => rw [popped_rendered, hs, Option.bind_none]
      | some s => rw [popped_render hs, hpop s hs]
    rw [List.replicate_succ, heard, hpopped]
    refine ih fun s' hs' => ?_
    rw [rendered_stream] at hs'
    obtain ⟨s, hs, hs'⟩ := Option.bind_eq_some_iff.mp hs'
    unfold SenderStream.Waiting
    rw [SenderStream.mem_kept hs', SenderStream.render_jitter, hpop s hs]
    exact h s hs

/-- Where a stream is given up with frames in it, they are never played. -/
theorem heard_lost {ops : List (MixerOp β α)} (h : ¬ m.Along o f (Patient c) ops) :
    ((m.heard o f c ops).filterMap JitterOutput.frame?).length + heldOf ((m.run o f ops).streams.get c) <
      heldOf (m.streams.get c) + (arrivals c ops).length := by
  induction ops generalizing m with
  | nil => exact absurd trivial h
  | cons op ops ih =>
    have hstep := m.exec_held (o := o) (f := f) c op
    have hrun : m.run o f (op :: ops) = (m.exec o f op).run o f ops := rfl
    rw [heard, List.filterMap_append, List.length_append, arrivals_cons, List.length_append, hrun]
    by_cases hop : Patient c m op
    · have hrest := ih fun hrest => h ⟨hop, hrest⟩
      omega
    · unfold Patient at hop
      simp only [Classical.not_imp, not_forall, Nat.not_lt] at hop
      obtain ⟨rfl, s, hs, hwait, hidle⟩ := hop
      have hpop := JitterBuffer.pop_waiting hwait.1 hwait.2.2
      have hnone : s.kept o = none := by
        have hdecoded : s.decoded o = (none, s.decoder) := by simp only [SenderStream.decoded, hpop]
        unfold SenderStream.kept
        rw [if_pos]
        rw [SenderStream.render_idle, hdecoded, if_neg (by simp)]
        omega
      have hheld : heldOf (m.streams.get c) = s.jitter.packets.size := congrArg heldOf hs
      have hgone : heldOf ((m.exec o f (.render samplesPerFrame)).streams.get c) = 0 := by
        rw [render_stream hs, hnone]
        rfl
      have hrest := (m.exec o f (.render samplesPerFrame)).heard_held (o := o) (f := f) c ops
      rw [popped_render hs, hpop]
      have hpos := hwait.2.1
      simp only [Option.toList_none, List.filterMap_nil, List.length_nil, MixerOp.arrival]
      omega

theorem frames_map (q : List β) : (q.map JitterOutput.frame).filterMap JitterOutput.frame? = q := by
  rw [List.filterMap_map]
  exact List.filterMap_some

theorem arrivals_renders (k : Nat) : arrivals c (List.replicate k (.render samplesPerFrame : MixerOp β α)) = [] := by
  simp [arrivals, MixerOp.arrival]

/-- A line that does not wait is served to its end. -/
theorem heard_end {s : SenderStream δ β α} {first : Int} {q : List β} (hs : m.streams.get c = some s)
    (hl : s.jitter.Lined first q) (hend : ¬ s.Waiting)
    (hkeep : o.Decodes q ∨ s.idleFrames + q.length ≤ idleFramesBeforeRelease) :
    m.heard o f c (List.replicate q.length (.render samplesPerFrame)) = q.map .frame := by
  cases q with
  | nil => rfl
  | cons p q =>
    apply heard_line hs hl _ hkeep
    by_contra hr
    refine hend ⟨by simpa using mt Or.inl hr, by rw [hl.size]; exact Nat.succ_pos _, ?_⟩
    have := mt Or.inr hr
    omega

def Reachable (o : Opus δ β α) (f : Samples α) (m : VoiceMixer δ β α) : Prop := ∃ ops, m = (new f).run o f ops

theorem Reachable.run (h : m.Reachable o f) (ops : List (MixerOp β α)) : (m.run o f ops).Reachable o f := by
  obtain ⟨pre, rfl⟩ := h
  exact ⟨pre ++ ops, (run_append ..).symm⟩

theorem Reachable.jitter {P : JitterBuffer β → Prop} (hP : JitterBuffer.Kept P) (h : m.Reachable o f) (c : ClientId) :
    ∀ s ∈ m.streams.get c, P s.jitter := by
  obtain ⟨ops, rfl⟩ := h
  exact jitter_run hP (by simp [new]) ops

/-- A burst that comes in order, in whatever way renders fall between its packets, is played to its end exactly if
its frames are never left to wait: not for long between two packets, and not at the end. -/
theorem burst_drains_iff (o : Opus δ β α) (f : Samples α) (hnew : ∃ decoder, o.newDecoder = .ok decoder)
    (m : VoiceMixer δ β α) (hm : m.Reachable o f) (c : ClientId) (seq : UInt32) (payloads : List β)
    (hdec : o.Decodes payloads) (first : VoicePacket β) (ops : List (MixerOp β α))
    (hburst : burst c seq payloads = first :: arrivals c ops) (hkeeps : ∀ op ∈ ops, op.Keeps c)
    (hroom : (m.exec o f (.accept first)).Along o f (Roomy c) ops) :
    (∃ k, m.heard o f c (.accept first :: ops ++ List.replicate k (.render samplesPerFrame)) = payloads.map .frame) ↔
      (m.exec o f (.accept first)).Along o f (Patient c) ops ∧
        ∀ s ∈ ((m.exec o f (.accept first)).run o f ops).streams.get c, ¬ s.Waiting := by
  cases payloads with
  | nil => cases hburst
  | cons p rest =>
    obtain ⟨packet, hcons, hc, hseq, hpayload, hstart⟩ := burst_cons c seq p rest
    rw [hcons] at hburst
    obtain ⟨rfl, harr⟩ := List.cons.inj hburst
    have hq : InLine ((m.exec o f (.accept packet)).streams.get c) seq [p] := by
      rw [m.accepted_stream o f hc, ← hseq, ← hpayload]
      exact inLine_start hnew (hm.jitter JitterBuffer.sized_kept c) hstart
    have hheard : ∀ k, m.heard o f c (.accept packet :: ops ++ List.replicate k (.render samplesPerFrame)) =
        (m.exec o f (.accept packet)).heard o f c ops ++
          ((m.exec o f (.accept packet)).run o f ops).heard o f c (List.replicate k (.render samplesPerFrame)) := by
      intro k
      rw [← heard_append]
      rfl
    have hlen : (arrivals c ops).length = rest.length := by rw [← harr, length_talk]
    have hone : heldOf ((m.exec o f (.accept packet)).streams.get c) = 1 := heldOf_inLine hq
    constructor
    · rintro ⟨k, hk⟩
      rw [hheard] at hk
      have hframes := congrArg (fun l => (l.filterMap JitterOutput.frame?).length) hk
      simp only [List.filterMap_append, List.length_append, frames_map, List.length_cons] at hframes
      have hrest := heard_held (o := o) (f := f) ((m.exec o f (.accept packet)).run o f ops) c
        (List.replicate k (.render samplesPerFrame))
      rw [arrivals_renders] at hrest
      refine ⟨not_not.mp fun himpatient => ?_, fun s hs hwait => ?_⟩
      · have hlost := heard_lost himpatient
        simp only [List.length_nil] at hrest
        omega
      · have hnone := heard_waiting (o := o) (f := f) (fun s' hs' => Option.some.inj (hs.symm.trans hs') ▸ hwait) k
        have hops := (m.exec o f (.accept packet)).heard_held (o := o) (f := f) c ops
        have hpos : 0 < heldOf (((m.exec o f (.accept packet)).run o f ops).streams.get c) := by
          rw [hs]
          exact hwait.2.1
        rw [hnone] at hframes
        simp only [List.filterMap_nil, List.length_nil] at hframes
        omega
    · rintro ⟨hpatient, hend⟩
      obtain ⟨q', last', hplayed, hq'⟩ := heard_inLine hnew hq harr.symm hkeeps hroom hpatient hdec
      cases hs : ((m.exec o f (.accept packet)).run o f ops).streams.get c with
      | none =>
        obtain rfl := hq'.gone hs
        exact ⟨0, by rw [hheard]; simpa [heard] using hplayed⟩
      | some s =>
        obtain ⟨first, hl, -⟩ := hq'.lined s hs
        have hdec' : o.Decodes q' := fun d x hx => hdec d x (mem_of_frames hplayed hx)
        refine ⟨q'.length, ?_⟩
        rw [hheard, heard_end hs hl (hend s hs) (.inl hdec')]
        exact hplayed

theorem burst_drains_four : ∃ k, (new wholeSamples : VoiceMixer Unit Nat Int).heard (silentOpus Nat) wholeSamples 7
    (.accept ⟨7, 0, flagBurstStart, 10⟩ ::
        [.accept ⟨7, 1, 0, 11⟩, .accept ⟨7, 2, 0, 12⟩, .accept ⟨7, 3, flagBurstEnd, 13⟩] ++
      List.replicate k (.render samplesPerFrame)) = [10, 11, 12, 13].map .frame := by
  refine (burst_drains_iff (silentOpus Nat) wholeSamples ⟨(), rfl⟩ _ ⟨[], rfl⟩ 7 0 [10, 11, 12, 13]
    (fun _ _ _ => rfl) _ _ rfl ?_ ?_).mpr ⟨?_, ?_⟩
  · intro op hop
    simp only [List.mem_cons, List.not_mem_nil, or_false] at hop
    rcases hop with rfl | rfl | rfl <;> trivial
  · exact ⟨fun _ _ => by decide +kernel, fun _ _ => by decide +kernel, fun _ _ => by decide +kernel, trivial⟩
  · refine ⟨?_, ?_, ?_, trivial⟩
    all_goals
      intro h
      cases h
  · decide +kernel

/-- A burst of a single frame is never played. -/
theorem single_frame_never_plays : ¬ ∀ (c : ClientId) (seq : UInt32) (payloads : List Nat) (first : VoicePacket Nat)
    (ops : List (MixerOp Nat Int)), burst c seq payloads = first :: arrivals c ops → (∀ op ∈ ops, op.Keeps c) →
    ((new wholeSamples).exec (silentOpus Nat) wholeSamples (.accept first)).Along (silentOpus Nat) wholeSamples
      (Roomy c) ops →
    ∃ k, (new wholeSamples).heard (silentOpus Nat) wholeSamples c
      (.accept first :: ops ++ List.replicate k (.render samplesPerFrame)) = payloads.map .frame := by
  intro h
  obtain ⟨k, hk⟩ := h 7 0 [10] ⟨7, 0, flagBurstStart ||| flagBurstEnd, 10⟩ [] rfl (by simp) trivial
  have hwait : ∀ s ∈ ((new wholeSamples : VoiceMixer Unit Nat Int).exec (silentOpus Nat) wholeSamples
      (.accept ⟨7, 0, flagBurstStart ||| flagBurstEnd, 10⟩)).streams.get 7, s.Waiting := by decide +kernel
  have hnone := heard_waiting (o := silentOpus Nat) (f := wholeSamples) hwait k
  have hsame : (new wholeSamples : VoiceMixer Unit Nat Int).heard (silentOpus Nat) wholeSamples 7
      (.accept ⟨7, 0, flagBurstStart ||| flagBurstEnd, 10⟩ :: [] ++ List.replicate k (.render samplesPerFrame)) = [] :=
    hnone
  rw [hsame] at hk
  cases hk

end VoiceMixer

end

end PickleChat
