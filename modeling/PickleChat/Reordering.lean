import PickleChat.Bursts

/-!
# Packets that overtake one another

The jitter buffer puts the packets of a burst in order, whichever way they
come. The mixer clears it when the first packet of a burst comes, and what has
overtaken that packet goes with it.
-/

namespace PickleChat

open Keyed

namespace JitterBuffer
variable {β : Type}

theorem numbered_sorted (first : Int) (q : List β) : (numbered first q).Pairwise fun a b => a.1 < b.1 := by
  induction q generalizing first with
  | nil => exact .nil
  | cons p q ih =>
    refine List.pairwise_cons.mpr ⟨fun e he => ?_, ih (first + 1)⟩
    have := numbered_bounds he
    simp only
    omega

theorem wire_toNat (x : UInt32) : wire (x.toNat : Int) = x := by
  unfold wire
  rw [BitVec.ofInt_natCast]
  exact UInt32.toBitVec_inj.mp (BitVec.ofNat_toNat _ _)

/-- Near numbers are as far apart as their distances from a third say. -/
theorem sub_near {base x y : UInt32} (hx : (x - base).toNat < 2 ^ 31) (hy : (y - base).toNat < 2 ^ 31) :
    (x - y).toInt32.toInt = (x - base).toNat - (y - base).toNat := by
  have hsub : x - y = (x - base) - (y - base) := by grind
  have hwire := wire_sub (t := ((x - base).toNat : Int)) (p := ((y - base).toNat : Int)) (by omega)
  rw [wire_toNat, wire_toNat] at hwire
  rw [hsub, hwire]

end JitterBuffer

section
variable {δ β α : Type} {o : Opus δ β α} {f : Samples α}

def VoicePacket.entry (base : UInt32) (packet : VoicePacket β) : Int × β := ((packet.seq - base).toNat, packet.payload)

theorem talk_entries (c : ClientId) (base : UInt32) (i : Nat) (q : List β) (hi : i + q.length ≤ 2 ^ 32) :
    (talk c (base + UInt32.ofNat i) q).map (VoicePacket.entry base) = JitterBuffer.numbered i q := by
  induction q generalizing i with
  | nil => rfl
  | cons p q ih =>
    obtain ⟨packet, htalk, -, hseq, hpayload, -⟩ := talk_cons c (base + UInt32.ofNat i) p q
    rw [List.length_cons] at hi
    have hdist : (packet.seq - base).toNat = i := by
      have : packet.seq - base = UInt32.ofNat i := by rw [hseq]; grind
      have hsize : UInt32.size = 2 ^ 32 := rfl
      rw [this, UInt32.toNat_ofNat_of_lt' (by omega)]
    have hnext : base + UInt32.ofNat i + 1 = base + UInt32.ofNat (i + 1) := by
      rw [UInt32.ofNat_add, UInt32.add_assoc]
      rfl
    rw [htalk, List.map_cons, hnext, ih (i + 1) (by omega), VoicePacket.entry, hdist, hpayload]
    rfl

theorem burst_entries (c : ClientId) (base : UInt32) (q : List β) (hq : q.length ≤ 2 ^ 32) :
    (burst c base q).map (VoicePacket.entry base) = JitterBuffer.numbered 0 q := by
  cases q with
  | nil => rfl
  | cons p q =>
    obtain ⟨packet, hburst, -, hseq, hpayload, -⟩ := burst_cons c base p q
    rw [List.length_cons] at hq
    have hzero : (packet.seq - base).toNat = 0 := by rw [hseq, UInt32.sub_self]; rfl
    have htail := talk_entries c base 1 q (by omega)
    rw [hburst, List.map_cons, VoicePacket.entry, hzero, hpayload]
    exact congrArg _ htail

/-- A buffer that waits holds just the frames of the packets `l`, in places counted from `base`. -/
structure Filed (base : UInt32) (b : JitterBuffer β) (l : List (VoicePacket β)) : Prop where
  anchor : ∃ a, b.anchor = some ⟨a, (a - base).toNat⟩ ∧ (a - base).toNat < 2 ^ 31
  waiting : b.playing = false ∧ b.nextExtended = none
  entries : ∀ e, e ∈ b.packets.entries ↔ e ∈ l.map (VoicePacket.entry base)
  size : b.packets.size ≤ l.length

theorem Filed.push {base : UInt32} {b : JitterBuffer β} {l : List (VoicePacket β)} (h : Filed base b l)
    {packet : VoicePacket β} (hnear : (packet.seq - base).toNat < 2 ^ 31)
    (hnew : ∀ e ∈ l.map (VoicePacket.entry base), e.1 ≠ (packet.entry base).1) (hroom : l.length < b.maxFrames) :
    Filed base (b.push packet.seq packet.payload) (l ++ [packet]) := by
  obtain ⟨a, ha, hlt⟩ := h.anchor
  have hext : (b.extend packet.seq).1 = (packet.seq - base).toNat := by
    simp only [JitterBuffer.extend_fst, ha, JitterBuffer.sub_near hnear hlt]
    omega
  have hinsert : (b.packets.insert (packet.seq - base).toNat packet.payload).size ≤ b.packets.size + 1 :=
    JitterBuffer.size_insert_le _ _ _
  have hsize := h.size
  have hplace := JitterBuffer.place_of_room (b := b.count) (e := (packet.seq - base).toNat) (p := packet.payload)
    (fun next hn => by rw [show b.count.nextExtended = none from h.waiting.2] at hn; cases hn)
    (hinsert.trans (by have : b.count.maxFrames = b.maxFrames := rfl; omega))
  rw [JitterBuffer.push_eq, hext, hplace]
  refine ⟨⟨packet.seq, rfl, hnear⟩, h.waiting, fun e => ?_, ?_⟩
  · rw [OrdMap.mem_insert, List.map_append, List.mem_append, or_comm, List.map_singleton, List.mem_singleton]
    apply or_congr_left
    rw [show b.count.packets.entries = b.packets.entries from rfl, h.entries]
    exact ⟨And.left, fun he => ⟨he, hnew e he⟩⟩
  · rw [List.length_append, List.length_singleton]
    exact hinsert.trans (by omega)

namespace VoiceMixer
variable {m : VoiceMixer δ β α} {c : ClientId}

theorem filed_run {base : UInt32} {l : List (VoicePacket β)} {s : SenderStream δ β α} (hs : m.streams.get c = some s)
    (hfiled : Filed base s.jitter l) (hidle : s.idleFrames = 0) (hsized : s.jitter.Sized) {ops : List (MixerOp β α)}
    (hkeeps : ∀ op ∈ ops, op.Keeps c) (hrender : ∀ op ∈ ops, op ≠ .render samplesPerFrame)
    (hstart : ∀ packet ∈ arrivals c ops, packet.startsBurst = false)
    (hnear : ∀ packet ∈ arrivals c ops, (packet.seq - base).toNat < 2 ^ 31)
    (hdistinct : ((l ++ arrivals c ops).map fun packet => (packet.entry base).1).Nodup)
    (hroom : (l ++ arrivals c ops).length ≤ defaultMaxFrames) :
    ∃ s', (m.run o f ops).streams.get c = some s' ∧ Filed base s'.jitter (l ++ arrivals c ops) ∧ s'.idleFrames = 0 := by
  induction ops generalizing m l s with
  | nil => exact ⟨s, hs, by simpa [arrivals] using hfiled, hidle⟩
  | cons op ops ih =>
    have hkeeps' : ∀ op ∈ ops, op.Keeps c := fun op hop => hkeeps op (List.mem_cons_of_mem _ hop)
    have hrender' : ∀ op ∈ ops, op ≠ .render samplesPerFrame := fun op hop => hrender op (List.mem_cons_of_mem _ hop)
    rw [arrivals_cons] at hstart hnear hdistinct hroom ⊢
    have hstart' := fun packet hp => hstart packet (List.mem_append_right _ hp)
    have hnear' := fun packet hp => hnear packet (List.mem_append_right _ hp)
    rcases op.kinds o f c with ⟨packet, rfl, hc⟩ | rfl | ⟨-, hgone, -⟩ | ⟨hquiet, g, hg, hmap⟩
    · rw [MixerOp.arrival_accept hc, Option.toList_some, ← List.append_assoc] at hdistinct hroom ⊢
      rw [MixerOp.arrival_accept hc] at hstart hnear
      have hstream : (m.exec o f (.accept packet)).streams.get c = some (s.accept packet) := by
        simp [accepted_stream o f m hc, hs, SenderStream.found]
      have hjitter : (s.accept packet).jitter = s.jitter.push packet.seq packet.payload := by
        simp [SenderStream.accept, hstart packet (by simp)]
      refine ih hstream ?_ rfl ?_ hkeeps' hrender' hstart' hnear' hdistinct hroom
      · rw [hjitter]
        apply hfiled.push (hnear packet (by simp))
        · intro e he heq
          obtain ⟨packet', hmem, rfl⟩ := List.mem_map.mp he
          rw [List.map_append, List.map_append, List.append_assoc] at hdistinct
          have hdisj := (List.nodup_append.mp hdistinct).2.2
          exact hdisj _ (List.mem_map_of_mem hmem) _ (by simp) heq
        · rw [hsized.2]
          simp only [List.length_append, List.length_singleton] at hroom
          omega
      · rw [hjitter]
        exact JitterBuffer.sized_kept.push _ _ _ hsized
    · exact absurd rfl (hrender _ List.mem_cons_self)
    · exact absurd (hkeeps op List.mem_cons_self) hgone
    · rw [hquiet.arrival, Option.toList_none, List.nil_append] at hdistinct hroom ⊢
      have hstream : (m.exec o f op).streams.get c = some (g s) := by rw [exec_stream, hmap, hs, Option.map_some]
      exact ih hstream ((hg s).1.symm ▸ hfiled) ((hg s).2.trans hidle) ((hg s).1.symm ▸ hsized) hkeeps' hrender' hstart'
        hnear' hdistinct hroom

theorem arrivals_split {ops : List (MixerOp β α)} {l r : List (VoicePacket β)} {packet : VoicePacket β}
    (h : arrivals c ops = l ++ packet :: r) : ∃ ops₁ ops₂, ops = ops₁ ++ .accept packet :: ops₂ ∧ packet.sender = c ∧
      arrivals c ops₁ = l ∧ arrivals c ops₂ = r := by
  obtain ⟨ops₁, ops', rfl, hl, h⟩ := List.filterMap_eq_append_iff.mp h
  obtain ⟨ops₂, op, ops₃, rfl, hnone, hop, hr⟩ := List.filterMap_eq_cons_iff.mp h
  have haccept : op = .accept packet ∧ packet.sender = c := by
    cases op with
    | accept packet' =>
      simp only [MixerOp.arrival, Option.ite_none_right_eq_some, Option.some.injEq] at hop
      obtain ⟨hc, rfl⟩ := hop
      exact ⟨rfl, hc⟩
    | _ => cases hop
  obtain ⟨rfl, hc⟩ := haccept
  refine ⟨ops₁ ++ ops₂, ops₃, by simp, hc, ?_, hr⟩
  rw [arrivals, List.filterMap_append, hl, List.filterMap_eq_nil_iff.mpr hnone, List.append_nil]

/-- A mixer right after the first packet of a burst. -/
theorem started (hnew : ∃ decoder, o.newDecoder = .ok decoder) (hm : m.Reachable o f) {packet : VoicePacket β}
    (hc : packet.sender = c) (hstart : packet.startsBurst = true) :
    ∃ s, (m.exec o f (.accept packet)).streams.get c = some s ∧ Filed packet.seq s.jitter [packet] ∧
      s.jitter.packets.size = 1 ∧ s.idleFrames = 0 ∧ s.jitter.Sized := by
  have hsized := hm.jitter JitterBuffer.sized_kept c
  have hfound : SenderStream.found o f (m.streams.get c) ≠ none := found_ne_none hnew
  obtain ⟨s, hs⟩ := Option.ne_none_iff_exists'.mp hfound
  have hs₀ := jitter_found JitterBuffer.sized_kept hsized hs
  obtain ⟨hl, hplaying, ha⟩ := line_start hs₀ hstart
  have hzero : (packet.seq - packet.seq).toNat = 0 := by rw [UInt32.sub_self]; rfl
  refine ⟨s.accept packet, by simp [accepted_stream o f m hc, hs], ?_, hl.size, rfl, ?_⟩
  · refine ⟨⟨packet.seq, by rw [ha, hzero]; rfl, by rw [hzero]; decide⟩, ⟨hplaying, ?_⟩, fun e => ?_, hl.size.le⟩
    · rw [hl.next, hplaying]
      rfl
    · rw [hl.entries, List.map_singleton, VoicePacket.entry, hzero]
      rfl
  · have hsized' := jitter_onStream (o := o) (f := f) JitterBuffer.sized_kept hsized c (.accept packet)
    refine hsized' _ ?_
    simp [MixerOp.onStream, hc, hs]

/-- The packets of a burst may come in any order, all before the next render, and are played in theirs, exactly if
its first packet is not overtaken. -/
theorem reordering_absorbed_iff (o : Opus δ β α) (f : Samples α) (hnew : ∃ decoder, o.newDecoder = .ok decoder)
    (m : VoiceMixer δ β α) (hm : m.Reachable o f) (c : ClientId) (seq : UInt32) (payloads : List β)
    (h3 : 3 ≤ payloads.length) (h16 : payloads.length ≤ 16) (ops : List (MixerOp β α))
    (harr : (arrivals c ops).Perm (burst c seq payloads)) (hkeeps : ∀ op ∈ ops, op.Keeps c)
    (hrender : ∀ op ∈ ops, op ≠ .render samplesPerFrame) :
    (m.run o f ops).heard o f c (List.replicate payloads.length (.render samplesPerFrame)) = payloads.map .frame ↔
      ∃ first ∈ (arrivals c ops).head?, first.startsBurst = true := by
  cases payloads with
  | nil => simp at h3
  | cons p rest =>
    obtain ⟨packet, hcons, hc, hseq, hpayload, hstart⟩ := burst_cons c seq p rest
    have hmem : packet ∈ arrivals c ops := harr.mem_iff.mpr (by rw [hcons]; exact List.mem_cons_self)
    obtain ⟨l, r, hsplit⟩ := List.append_of_mem hmem
    obtain ⟨ops₁, ops₂, hops, -, hl, hr⟩ := arrivals_split hsplit
    have hlen : l.length + (r.length + 1) = rest.length + 1 := by
      have := harr.length_eq
      rwa [hsplit, length_burst, List.length_append, List.length_cons, List.length_cons] at this
    have hrun : m.run o f ops = (((m.run o f ops₁).exec o f (.accept packet)).run o f ops₂) := by
      rw [hops, run_append]
      rfl
    obtain ⟨s, hs, hfiled, hone, hidle, hsized⟩ := started hnew (hm.run ops₁) hc hstart
    constructor
    · intro hheard
      -- what came before the first packet has been cleared away, so that nothing came before it
      have hheld : heldOf (((m.run o f ops₁).exec o f (.accept packet)).streams.get c) = 1 := by rw [hs]; exact hone
      have hbefore := heard_held (o := o) (f := f) ((m.run o f ops₁).exec o f (.accept packet)) c ops₂
      have hafter := heard_held (o := o) (f := f) (m.run o f ops) c
        (List.replicate (p :: rest).length (.render samplesPerFrame))
      rw [hheard, frames_map, arrivals_renders, List.length_cons, List.length_nil] at hafter
      rw [← hrun, hheld, hr] at hbefore
      have hnil : l = [] := List.length_eq_zero_iff.mp (by omega)
      rw [hsplit, hnil]
      exact ⟨packet, rfl, hstart⟩
    · rintro ⟨first, hfirst, hfstart⟩
      have hnil : l = [] := by
        cases l with
        | nil => rfl
        | cons x l =>
          rw [hsplit] at hfirst harr
          obtain rfl : x = first := Option.some.inj hfirst
          rw [hcons] at harr
          have hx : x = packet := by
            rcases List.mem_cons.mp (harr.mem_iff.mp (List.mem_append_left _ List.mem_cons_self)) with hx | hx
            · exact hx
            · rw [talk_starts c _ _ x hx] at hfstart
              cases hfstart
          subst hx
          have htwice : x ∈ talk c (seq + 1) rest :=
            (List.Perm.cons_inv harr).mem_iff.mp (List.mem_append_right _ List.mem_cons_self)
          rw [talk_starts c _ _ x htwice] at hfstart
          cases hfstart
      rw [hnil, List.nil_append] at hsplit
      rw [hsplit] at harr
      have hentries : (([packet] ++ r).map (VoicePacket.entry seq)).Perm (JitterBuffer.numbered 0 (p :: rest)) := by
        rw [← burst_entries c seq (p :: rest) (by omega)]
        exact harr.map _
      have hr' : r.Perm (talk c (seq + 1) rest) := List.Perm.cons_inv (hcons ▸ harr)
      have hkeys : ∀ x ∈ r, (x.seq - seq).toNat < 2 ^ 31 := by
        intro x hx
        have hbounds := JitterBuffer.numbered_bounds
            (hentries.mem_iff.mp (List.mem_map_of_mem (List.mem_append_right _ hx)))
        simp only [VoicePacket.entry] at hbounds
        omega
      have hdistinct : (([packet] ++ r).map fun x => (x.entry seq).1).Nodup := by
        have hsorted := Unique.of_sorted (JitterBuffer.numbered_sorted 0 (p :: rest))
        have hnodup := ((hentries.map Prod.fst).nodup_iff).mpr hsorted
        rwa [List.map_map] at hnodup
      have hshort : 1 + r.length ≤ 16 := by
        rw [List.length_cons] at h16
        omega
      obtain ⟨s', hs', hfiled', hidle'⟩ := filed_run (o := o) (f := f) hs (hseq ▸ hfiled) hidle hsized
        (fun op hop => hkeeps op (by rw [hops]; simp [hop])) (fun op hop => hrender op (by rw [hops]; simp [hop]))
        (fun x hx => talk_starts c _ _ x (hr'.mem_iff.mp (hr ▸ hx))) (hr ▸ hkeys) (hr ▸ hdistinct)
        (by rw [hr, List.length_append, List.length_singleton]; exact hshort)
      rw [← hrun] at hs'
      rw [hr] at hfiled'
      have hlined : s'.jitter.Lined 0 (p :: rest) := by
        refine ⟨?_, by rw [hfiled'.waiting.2, hfiled'.waiting.1]; rfl⟩
        refine eq_of_sorted s'.jitter.packets.sorted (JitterBuffer.numbered_sorted 0 _) fun e => ?_
        rw [hfiled'.entries, hentries.mem_iff]
      have htarget : s'.jitter.targetFrames = 3 := ((hm.run ops).jitter JitterBuffer.sized_kept c s' hs').1
      refine heard_line hs' hlined (.inr ?_) (.inr ?_)
      · rw [htarget, hlined.size]
        exact h3
      · rw [hidle', Nat.zero_add]
        exact h16.trans (by decide)

theorem reordering_absorbed_three : (((new wholeSamples : VoiceMixer Unit Nat Int).run (silentOpus Nat) wholeSamples
    [.accept ⟨7, 0, flagBurstStart, 10⟩, .accept ⟨7, 2, flagBurstEnd, 12⟩, .accept ⟨7, 1, 0, 11⟩]).heard
    (silentOpus Nat)
      wholeSamples 7 (List.replicate 3 (.render samplesPerFrame))) = [10, 11, 12].map .frame := by
  refine (reordering_absorbed_iff (silentOpus Nat) wholeSamples ⟨(), rfl⟩ _ ⟨[], rfl⟩ 7 0 [10, 11, 12] (by decide)
    (by decide) _ (by decide) ?_ ?_).mpr ⟨⟨7, 0, flagBurstStart, 10⟩, rfl, rfl⟩
  all_goals
    intro op hop
    simp only [List.mem_cons, List.not_mem_nil, or_false] at hop
    rcases hop with rfl | rfl | rfl <;> simp [MixerOp.Keeps]

/-- Where the second packet overtakes the first it is lost. -/
theorem overtaking_frame_lost : ¬ ∀ (c : ClientId) (seq : UInt32) (payloads : List Nat) (ops : List (MixerOp Nat Int)),
    3 ≤ payloads.length → payloads.length ≤ 16 → (arrivals c ops).Perm (burst c seq payloads) →
    (∀ op ∈ ops, op.Keeps c) → (∀ op ∈ ops, op ≠ .render samplesPerFrame) →
    ((new wholeSamples : VoiceMixer Unit Nat Int).run (silentOpus Nat) wholeSamples ops).heard (silentOpus Nat)
      wholeSamples c (List.replicate payloads.length (.render samplesPerFrame)) = payloads.map .frame := by
  intro h
  have hplayed := h 7 0 [10, 11, 12, 13] [.accept ⟨7, 1, 0, 11⟩, .accept ⟨7, 0, flagBurstStart, 10⟩,
    .accept ⟨7, 2, 0, 12⟩, .accept ⟨7, 3, flagBurstEnd, 13⟩] (by decide) (by decide) (by decide)
      (by simp [MixerOp.Keeps])
    (by simp)
  revert hplayed
  decide +kernel

end VoiceMixer

end

end PickleChat
