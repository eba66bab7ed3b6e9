import PickleChat.BurstOrder

/-!
# What comes in order is played in order

Whatever comes from a speaker, nothing is played of it that did not come, and
nothing twice. Where each packet that opens no burst is numbered ahead of the
packet before it, the frames are played in the order in which they came.
-/

namespace PickleChat

open Keyed

namespace JitterBuffer
variable {β : Type} {b : JitterBuffer β} {p : β}

def payloads (b : JitterBuffer β) : List β := b.packets.entries.map Prod.snd

def frames (outputs : List (JitterOutput β)) : List β := outputs.filterMap JitterOutput.frame?

/-- The buffer's last packet was numbered so, and no frame held is numbered ahead of it. -/
def Trails (seq : UInt32) (b : JitterBuffer β) : Prop :=
  ∃ extended, b.anchor = some ⟨seq, extended⟩ ∧ ∀ e ∈ b.packets.entries, e.1 ≤ extended

theorem place_sublist (b : JitterBuffer β) {extended : Int} (h : ∀ e ∈ b.packets.entries, e.1 < extended) (p : β) :
    (b.place extended p).payloads.Sublist (b.payloads ++ [p]) ∧
      ∀ e ∈ (b.place extended p).packets.entries, e.1 ≤ extended := by
  unfold place
  by_cases hlate : ∃ next ∈ b.nextExtended, extended < next
  · rw [if_pos hlate]
    exact ⟨List.sublist_append_left _ _, fun e he => (h e he).le⟩
  · rw [if_neg hlate]
    have htrim := trim_sublist (b.packets.insert extended p).size { b with packets := b.packets.insert extended p }
    have hentries : (b.packets.insert extended p).entries = b.packets.entries ++ [(extended, p)] :=
      OrdMap.entries_insert_last h p
    simp only [hentries] at htrim
    refine ⟨?_, fun e he => ?_⟩
    · have hpayloads := htrim.map Prod.snd
      rw [List.map_append] at hpayloads
      exact hpayloads
    · rcases List.mem_append.mp (htrim.subset he) with he | he
      · exact (h e he).le
      · rw [List.mem_singleton.mp he]

/-- A packet numbered ahead of the last goes behind what is held. -/
theorem Trails.push {seq : UInt32} (h : b.Trails seq) {seq' : UInt32} (hahead : 0 < (seq' - seq).toInt32.toInt)
    (p : β) :
    (b.push seq' p).payloads.Sublist (b.payloads ++ [p]) ∧ (b.push seq' p).Trails seq' := by
  obtain ⟨extended, hanchor, hheld⟩ := h
  have hnext : ∀ e ∈ b.packets.entries, e.1 < (b.extend seq').1 := by
    intro e he
    rw [extend_fst, hanchor]
    have := hheld e he
    simp only
    omega
  rw [push_eq]
  obtain ⟨hsub, hle⟩ := place_sublist b.count hnext p
  exact ⟨hsub, _, rfl, hle⟩

/-- The first packet after a reset is all that is held. -/
theorem push_reset (hempty : b.packets.entries = []) (seq : UInt32) (p : β) :
    (b.push seq p).payloads.Sublist [p] ∧ (b.push seq p).Trails seq := by
  have hnext : ∀ e ∈ b.count.packets.entries, e.1 < (b.extend seq).1 := by
    intro e he
    have he : e ∈ b.packets.entries := he
    rw [hempty] at he
    cases he
  rw [push_eq]
  obtain ⟨hsub, hle⟩ := place_sublist b.count hnext p
  have hnone : b.count.payloads = [] := by
    change b.packets.entries.map Prod.snd = []
    rw [hempty]
    rfl
  rw [hnone] at hsub
  exact ⟨hsub, _, rfl, hle⟩

theorem first_of_ahead {next : Int} (hahead : ∀ e ∈ b.packets.entries, next ≤ e.1)
    (hmem : (next, p) ∈ b.packets.entries) :
    b.packets.entries = (next, p) :: (b.packets.remove next).entries := by
  have hsorted := b.packets.sorted
  cases hl : b.packets.entries with
  | nil =>
    rw [hl] at hmem
    cases hmem
  | cons e l =>
    rw [hl] at hsorted hmem hahead
    have hfirst : e = (next, p) := by
      rcases List.mem_cons.mp hmem with he | he
      · exact he.symm
      · have hlt := (List.pairwise_cons.mp hsorted).1 _ he
        have hle := hahead e List.mem_cons_self
        omega
    subst hfirst
    rw [OrdMap.entries_remove_first hl]

/-- What is taken is the first of what is held. -/
theorem take_sublist (hahead : b.Ahead) :
    (frames b.take.1.toList ++ b.take.2.payloads).Sublist b.payloads ∧
      ∀ e ∈ b.take.2.packets.entries, e ∈ b.packets.entries := by
  rcases take_cases b with ⟨-, heq⟩ | ⟨next, p, hn, hmem, heq⟩ | ⟨next, -, hnil, heq⟩ | ⟨next, -, -, -, heq⟩
  · rw [heq]
    exact ⟨List.Sublist.refl _, fun _ he => he⟩
  · rw [heq]
    have hfirst := first_of_ahead (hahead next hn) hmem
    refine ⟨?_, fun e he => (OrdMap.mem_remove.mp he).1⟩
    unfold payloads
    rw [hfirst]
    exact List.Sublist.refl _
  · rw [heq]
    exact ⟨List.Sublist.refl _, fun _ he => he⟩
  · rw [heq]
    exact ⟨List.Sublist.refl _, fun _ he => he⟩

theorem pop_sublist (hahead : b.Ahead) :
    (frames b.pop.1.toList ++ b.pop.2.payloads).Sublist b.payloads ∧
      ∀ e ∈ b.pop.2.packets.entries, e ∈ b.packets.entries := by
  rcases pop_cases b with ⟨-, heq⟩ | ⟨-, -, heq⟩ | ⟨-, -, heq⟩
  · rw [heq]
    exact take_sublist hahead
  · rw [heq]
    exact ⟨List.Sublist.refl _, fun _ he => he⟩
  · rw [heq]
    exact take_sublist (ahead_start b)

theorem Trails.pop {seq : UInt32} (h : b.Trails seq) (hahead : b.Ahead) : b.pop.2.Trails seq := by
  obtain ⟨extended, hanchor, hheld⟩ := h
  exact ⟨extended, (anchor_pop b).trans hanchor, fun e he => hheld e ((pop_sublist hahead).2 e he)⟩

end JitterBuffer

section
variable {δ β α : Type} {o : Opus δ β α} {f : Samples α} {c : ClientId} {m : VoiceMixer δ β α}

open JitterBuffer (frames Trails)

def payloadsOf (stream : Option (SenderStream δ β α)) : List β := stream.elim [] (·.jitter.payloads)

namespace VoiceMixer

theorem accept_subperm (stream : Option (SenderStream δ β α)) (packet : VoicePacket β) :
    (payloadsOf ((SenderStream.found o f stream).map (·.accept packet))).Subperm
      (payloadsOf stream ++ [packet.payload]) := by
  have hpush : ∀ b : JitterBuffer β,
      (b.push packet.seq packet.payload).payloads.Subperm (b.payloads ++ [packet.payload]) :=
    fun b => (b.push_subperm packet.seq packet.payload).trans (List.perm_append_singleton _ _).symm.subperm
  cases hfound : SenderStream.found o f stream with
  | none => exact List.nil_subperm
  | some s =>
    change (s.accept packet).jitter.payloads.Subperm _
    unfold SenderStream.accept
    by_cases hstart : packet.startsBurst = true
    · simp only [hstart, if_true]
      exact (hpush s.jitter.reset).trans (List.sublist_append_right _ _).subperm
    · simp only [hstart]
      rcases SenderStream.mem_found hfound with rfl | ⟨rfl, decoder, -, rfl⟩
      · exact hpush s.jitter
      · exact hpush _

theorem payloadsOf_kept (s : SenderStream δ β α) : (payloadsOf (s.kept o)).Sublist s.jitter.pop.2.payloads := by
  cases hk : s.kept o with
  | none => exact List.nil_sublist _
  | some s' =>
    rw [SenderStream.mem_kept hk]
    change (s.render o).jitter.payloads.Sublist _
    rw [SenderStream.render_jitter]

theorem payloadsOf_map {g : SenderStream δ β α → SenderStream δ β α} (hg : ∀ s, (g s).jitter = s.jitter)
    (stream : Option (SenderStream δ β α)) : payloadsOf (stream.map g) = payloadsOf stream := by
  cases stream with
  | none => rfl
  | some s => simp [payloadsOf, hg s]

/-- What is played of a speaker was held or has come, each frame once. -/
theorem heard_subperm (ops : List (MixerOp β α)) :
    (frames (m.heard o f c ops)).Subperm
      (payloadsOf (m.streams.get c) ++ (arrivals c ops).map VoicePacket.payload) := by
  induction ops generalizing m with
  | nil => exact List.nil_subperm
  | cons op ops ih =>
    have hrest := ih (m := m.exec o f op)
    rw [arrivals_cons]
    rw [heard, frames, List.filterMap_append]
    rcases op.kinds o f c with ⟨packet, rfl, hc⟩ | rfl | ⟨hidle, -, hgone⟩ | ⟨hidle, g, hg, hmap⟩
    · rw [MixerOp.arrival_accept hc]
      have hsub := accept_subperm (o := o) (f := f) (m.streams.get c) packet
      rw [← accepted_stream o f m hc] at hsub
      have hheld := (List.subperm_append_right ((arrivals c ops).map VoicePacket.payload)).mpr hsub
      rw [List.append_assoc] at hheld
      exact hrest.trans hheld
    · cases hs : m.streams.get c with
      | none =>
        rw [rendered_stream, hs] at hrest
        rw [popped_rendered, hs]
        exact hrest
      | some s =>
        rw [render_stream hs] at hrest
        have hlater := hrest.trans ((List.subperm_append_right _).mpr (payloadsOf_kept (o := o) s).subperm)
        have hnow := (List.subperm_append_right ((arrivals c ops).map VoicePacket.payload)).mpr
          s.jitter.pop_perm.subperm
        rw [List.append_assoc] at hnow
        rw [popped_render hs]
        exact ((List.subperm_append_left (frames s.jitter.pop.1.toList)).mpr hlater).trans hnow
    · rw [exec_stream, hgone] at hrest
      rw [hidle.arrival, hidle.popped]
      exact hrest.trans (List.sublist_append_right _ _).subperm
    · rw [exec_stream, hmap, payloadsOf_map fun s => (hg s).1] at hrest
      rw [hidle.arrival, hidle.popped]
      exact hrest

/-- Each packet opens a burst, or is numbered ahead of the one before it. -/
def Advancing : Option UInt32 → List (VoicePacket β) → Prop
  | _, [] => True
  | last, packet :: packets =>
    (packet.startsBurst = true ∨ ∀ seq ∈ last, 0 < (packet.seq - seq).toInt32.toInt) ∧
      Advancing (some packet.seq) packets

/-- Every stream has had the last packet for its last. -/
def Trailing (last : Option UInt32) (stream : Option (SenderStream δ β α)) : Prop :=
  ∀ s ∈ stream, ∃ seq, last = some seq ∧ s.jitter.Trails seq

theorem accept_sublist {last : Option UInt32} {stream : Option (SenderStream δ β α)} {packet : VoicePacket β}
    (htrails : Trailing last stream)
    (hnext : packet.startsBurst = true ∨ ∀ seq ∈ last, 0 < (packet.seq - seq).toInt32.toInt) :
    (payloadsOf ((SenderStream.found o f stream).map (·.accept packet))).Sublist
        (payloadsOf stream ++ [packet.payload]) ∧
      Trailing (some packet.seq) ((SenderStream.found o f stream).map (·.accept packet)) := by
  cases hfound : SenderStream.found o f stream with
  | none => exact ⟨List.nil_sublist _, fun s hs => by cases hs⟩
  | some s =>
    have hjitter : (s.accept packet).jitter.payloads.Sublist (payloadsOf stream ++ [packet.payload]) ∧
        (s.accept packet).jitter.Trails packet.seq := by
      unfold SenderStream.accept
      by_cases hstart : packet.startsBurst = true
      · simp only [hstart, if_true]
        obtain ⟨hsub, htrail⟩ := JitterBuffer.push_reset (b := s.jitter.reset) rfl packet.seq packet.payload
        exact ⟨hsub.trans (List.sublist_append_right _ _), htrail⟩
      · simp only [hstart]
        rcases SenderStream.mem_found hfound with rfl | ⟨rfl, decoder, -, rfl⟩
        · obtain ⟨seq, hlast, htrail⟩ := htrails s rfl
          exact htrail.push (hnext.resolve_left hstart seq hlast) packet.payload
        · exact JitterBuffer.push_reset rfl packet.seq packet.payload
    refine ⟨hjitter.1, fun s' hs' => ?_⟩
    obtain rfl := Option.some.inj hs'
    exact ⟨packet.seq, rfl, hjitter.2⟩

/-- A speaker's frames are played in the order in which they came. -/
theorem heard_sublist {ops : List (MixerOp β α)} {last : Option UInt32}
    (hahead : ∀ s ∈ m.streams.get c, s.jitter.Ahead) (htrails : Trailing last (m.streams.get c))
    (hadvancing : Advancing last (arrivals c ops)) :
    (frames (m.heard o f c ops)).Sublist
      (payloadsOf (m.streams.get c) ++ (arrivals c ops).map VoicePacket.payload) := by
  induction ops generalizing m last with
  | nil => exact List.nil_sublist _
  | cons op ops ih =>
    have hahead' : ∀ s ∈ (m.exec o f op).streams.get c, s.jitter.Ahead := by
      rw [exec_stream]
      exact jitter_onStream ahead_kept hahead c op
    rw [arrivals_cons] at hadvancing ⊢
    rw [heard, frames, List.filterMap_append]
    rcases op.kinds o f c with ⟨packet, rfl, hc⟩ | rfl | ⟨hidle, -, hgone⟩ | ⟨hidle, g, hg, hmap⟩
    · rw [MixerOp.arrival_accept hc] at hadvancing ⊢
      obtain ⟨hnext, hadvancing⟩ := hadvancing
      obtain ⟨hsub, htrails'⟩ := accept_sublist (o := o) (f := f) htrails hnext
      rw [← accepted_stream o f m hc] at hsub htrails'
      have hrest := ih hahead' htrails' hadvancing
      have hheld := hsub.append_right ((arrivals c ops).map VoicePacket.payload)
      rw [List.append_assoc] at hheld
      exact hrest.trans hheld
    · have hrest := @ih (m.exec o f (.render samplesPerFrame)) last hahead' ?_ hadvancing
      · cases hs : m.streams.get c with
        | none =>
          rw [rendered_stream, hs] at hrest
          rw [popped_rendered, hs]
          exact hrest
        | some s =>
          obtain ⟨hpop, -⟩ := JitterBuffer.pop_sublist (hahead s hs)
          have hkept := payloadsOf_kept (o := o) s
          rw [← render_stream hs] at hkept
          have hlater := hrest.trans (hkept.append_right ((arrivals c ops).map VoicePacket.payload))
          have hnow := (hpop.append_right ((arrivals c ops).map VoicePacket.payload))
          rw [List.append_assoc] at hnow
          rw [popped_render hs]
          exact (hlater.append_left (frames s.jitter.pop.1.toList)).trans hnow
      · rw [rendered_stream]
        intro s' hs'
        obtain ⟨s, hs, hk⟩ := Option.bind_eq_some_iff.mp hs'
        obtain ⟨seq, hlast, htrail⟩ := htrails s hs
        rw [SenderStream.mem_kept hk, SenderStream.render_jitter]
        exact ⟨seq, hlast, htrail.pop (hahead s hs)⟩
    · rw [hidle.arrival] at hadvancing ⊢
      rw [hidle.popped]
      have hrest := @ih (m.exec o f op) last hahead' ?_ hadvancing
      · rw [exec_stream, hgone] at hrest
        exact hrest.trans (List.sublist_append_right _ _)
      · rw [exec_stream, hgone]
        intro s hs
        cases hs
    · rw [hidle.arrival] at hadvancing ⊢
      rw [hidle.popped]
      have hrest := @ih (m.exec o f op) last hahead' ?_ hadvancing
      · rw [exec_stream, hmap, payloadsOf_map fun s => (hg s).1] at hrest
        exact hrest
      · rw [exec_stream, hmap]
        intro s hs
        obtain ⟨s₀, hs₀, rfl⟩ := Option.map_eq_some_iff.mp hs
        obtain ⟨seq, hlast, htrail⟩ := htrails s₀ hs₀
        rw [(hg s₀).1]
        exact ⟨seq, hlast, htrail⟩

end VoiceMixer

end

end PickleChat
