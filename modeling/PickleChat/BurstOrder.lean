import Mathlib.Data.List.Chain
import PickleChat.Bursts

/-!
# Bursts one after the other

Every burst is numbered from the beginning, and only the first packet says that
a new one starts. When that packet is lost the numbers of the next burst meet
the frames of the last one, and those that are smaller go before them.
-/

namespace PickleChat

open Keyed

namespace JitterBuffer
variable {β : Type} {label : β → Nat} {b : JitterBuffer β} {played latest : Nat}

/-- The frames held are of bursts between that of the frame played last and that of the latest packet, in the order of
their bursts. -/
structure Ranked (label : β → Nat) (played latest : Nat) (b : JitterBuffer β) : Prop where
  ordered : ∀ e ∈ b.packets.entries, ∀ e' ∈ b.packets.entries, e.1 < e'.1 → label e.2 ≤ label e'.2
  bounds : ∀ e ∈ b.packets.entries, played ≤ label e.2 ∧ label e.2 ≤ latest

/-- A packet comes too late to be filed, or is not filed before a frame of an earlier burst. -/
def Fits (label : β → Nat) (b : JitterBuffer β) (seq : UInt32) (payload : β) : Prop :=
  (∃ next ∈ b.nextExtended, (b.extend seq).1 < next) ∨
    ∀ e ∈ b.packets.entries, label e.2 < label payload → e.1 ≤ (b.extend seq).1

theorem Ranked.mono (h : Ranked label played latest b) {latest' : Nat} (hle : latest ≤ latest') :
    Ranked label played latest' b :=
  ⟨h.ordered, fun e he => ⟨(h.bounds e he).1, (h.bounds e he).2.trans hle⟩⟩

theorem Ranked.part (h : Ranked label played latest b) {b' : JitterBuffer β}
    (hpart : ∀ e ∈ b'.packets.entries, e ∈ b.packets.entries) : Ranked label played latest b' :=
  ⟨fun e he e' he' => h.ordered e (hpart e he) e' (hpart e' he'), fun e he => h.bounds e (hpart e he)⟩

theorem ranked_empty (hempty : b.packets.entries = []) : Ranked label played latest b :=
  ⟨fun e he => by simp [hempty] at he, fun e he => by simp [hempty] at he⟩

/-- The frame is filed behind those of earlier bursts, and the frames held are of no later one. -/
theorem Ranked.insert (h : Ranked label played latest b) {ext : Int} {p : β}
    (hfits : ∀ e ∈ b.packets.entries, label e.2 < label p → e.1 ≤ ext) (hplayed : played ≤ latest)
    (hlatest : latest ≤ label p) :
    Ranked label played (label p) { b with packets := b.packets.insert ext p } := by
  have hbounds : ∀ e ∈ b.packets.entries, played ≤ label e.2 ∧ label e.2 ≤ label p :=
    fun e he => ⟨(h.bounds e he).1, (h.bounds e he).2.trans hlatest⟩
  constructor
  · intro e he e' he' hlt
    rcases OrdMap.mem_insert.mp he with rfl | ⟨he, -⟩
    · rcases OrdMap.mem_insert.mp he' with rfl | ⟨he', -⟩
      · exact le_refl _
      · by_contra hless
        have := hfits e' he' (by simpa using hless)
        simp only at hlt
        omega
    · rcases OrdMap.mem_insert.mp he' with rfl | ⟨he', -⟩
      · exact (hbounds e he).2
      · exact h.ordered e he e' he' hlt
  · intro e he
    rcases OrdMap.mem_insert.mp he with rfl | ⟨he, -⟩
    · exact ⟨hplayed.trans hlatest, le_refl _⟩
    · exact hbounds e he

theorem Ranked.push (h : Ranked label played latest b) {seq : UInt32} {p : β} (hfits : Fits label b seq p)
    (hplayed : played ≤ latest) (hlatest : latest ≤ label p) : Ranked label played (label p) (b.push seq p) := by
  rw [push_eq]
  rcases place_cases b.count (b.extend seq).1 p with ⟨-, -, -, heq⟩ | ⟨hon, htrimmed⟩
  · rw [heq]
    exact (h.mono hlatest).part fun _ he => he
  · rcases hfits with ⟨next, hn, hlt⟩ | hfits
    · have := hon next hn
      omega
    · exact (h.insert hfits hplayed hlatest).part htrimmed.entries

/-- A buffer that plays a frame plays one of the earliest burst it holds. -/
theorem Ranked.take (h : Ranked label played latest b) (hahead : b.Ahead) (hplayed : played ≤ latest) :
    ∃ played', played ≤ played' ∧ played' ≤ latest ∧ (∀ p ∈ b.take.1.bind JitterOutput.frame?, label p = played') ∧
      Ranked label played' latest b.take.2 := by
  rcases take_cases b with ⟨-, heq⟩ | ⟨next, p, hn, hmem, heq⟩ | ⟨next, -, hnil, heq⟩ | ⟨next, -, -, -, heq⟩
  · rw [heq]
    exact ⟨played, le_refl _, hplayed, nofun, h⟩
  · rw [heq]
    have hp := h.bounds _ hmem
    refine ⟨label p, hp.1, hp.2, fun p' hp' => congrArg label (Option.some.inj hp').symm, ?_⟩
    have hrest : ∀ e ∈ (b.packets.remove next).entries, e ∈ b.packets.entries ∧ next < e.1 := by
      intro e he
      obtain ⟨hmem', hne⟩ := OrdMap.mem_remove.mp he
      have := hahead next hn e hmem'
      exact ⟨hmem', by omega⟩
    refine ⟨(h.part fun e he => (hrest e he).1).ordered, fun e he => ?_⟩
    exact ⟨h.ordered _ hmem e (hrest e he).1 (hrest e he).2, (h.bounds e (hrest e he).1).2⟩
  · rw [heq]
    exact ⟨played, le_refl _, hplayed, nofun, ranked_empty hnil⟩
  · rw [heq]
    exact ⟨played, le_refl _, hplayed, nofun, h.part fun _ he => he⟩

theorem Ranked.pop (h : Ranked label played latest b) (hahead : b.Ahead) (hplayed : played ≤ latest) :
    ∃ played', played ≤ played' ∧ played' ≤ latest ∧ (∀ p ∈ b.pop.1.bind JitterOutput.frame?, label p = played') ∧
      Ranked label played' latest b.pop.2 := by
  rcases pop_cases b with ⟨-, heq⟩ | ⟨-, -, heq⟩ | ⟨-, -, heq⟩
  · rw [heq]
    exact h.take hahead hplayed
  · rw [heq]
    exact ⟨played, le_refl _, hplayed, nofun, h⟩
  · rw [heq]
    exact Ranked.take (h.part fun _ he => he) (ahead_start b) hplayed

end JitterBuffer

section
variable {δ β α : Type} {o : Opus δ β α} {f : Samples α} {label : β → Nat} {c : ClientId} {m : VoiceMixer δ β α}

theorem ahead_kept : JitterBuffer.Kept (JitterBuffer.Ahead (β := β)) where
  new := (JitterBuffer.poised_new _ _).ahead
  reset b _ := by simp [JitterBuffer.Ahead, JitterBuffer.reset]
  push b seq p h := by
    rw [JitterBuffer.push_eq]
    exact JitterBuffer.ahead_place (b := b.count) h _ p
  pop _ h := h.pop

namespace VoiceMixer

/-- The step brings no packet of a later burst in before the frames of an earlier one, but the first of the burst. -/
def Ordered (label : β → Nat) (c : ClientId) (m : VoiceMixer δ β α) : MixerOp β α → Prop
  | .accept packet => packet.sender = c → packet.startsBurst = false →
      ∀ s ∈ m.streams.get c, s.jitter.Fits label packet.seq packet.payload
  | _ => True

theorem ordered_idle {op : MixerOp β α} (hidle : op.arrival c = none) : Ordered label c m op := by
  cases op with
  | accept packet =>
    intro hc
    simp [MixerOp.arrival, hc] at hidle
  | _ => trivial

/-- One packet of the speaker comes. -/
theorem ranked_accept {played latest : Nat} {stream : Option (SenderStream δ β α)} {packet : VoicePacket β}
    (h : ∀ s ∈ stream, s.jitter.Ranked label played latest)
    (hfits : packet.startsBurst = false → ∀ s ∈ stream, s.jitter.Fits label packet.seq packet.payload)
    (hplayed : played ≤ latest) (hlatest : latest ≤ label packet.payload) :
    ∀ s ∈ (SenderStream.found o f stream).map (·.accept packet),
      s.jitter.Ranked label played (label packet.payload) := by
  intro s hs
  obtain ⟨s₀, hs₀, rfl⟩ := Option.map_eq_some_iff.mp hs
  have hempty : ∀ b : JitterBuffer β, b.packets.entries = [] → (b.push packet.seq packet.payload).Ranked label played
      (label packet.payload) := fun b hb => (JitterBuffer.ranked_empty hb).push (.inr (by simp [hb])) hplayed hlatest
  simp only [SenderStream.accept]
  by_cases hstart : packet.startsBurst = true
  · rw [if_pos hstart]
    exact hempty _ rfl
  · rw [if_neg hstart]
    rcases SenderStream.mem_found hs₀ with hs₀ | ⟨-, decoder, -, rfl⟩
    · exact (h s₀ hs₀).push (hfits (by simpa using hstart) s₀ hs₀) hplayed hlatest
    · exact hempty _ rfl

/-- What is played from some state on, by induction on the run. -/
theorem heard_ranked {played latest : Nat} {ops : List (MixerOp β α)}
    (h : ∀ s ∈ m.streams.get c, s.jitter.Ranked label played latest) (hahead : ∀ s ∈ m.streams.get c, s.jitter.Ahead)
    (hplayed : played ≤ latest) (hlatest : ∀ packet ∈ arrivals c ops, latest ≤ label packet.payload)
    (hsent : (arrivals c ops).Pairwise fun p p' => label p.payload ≤ label p'.payload)
    (hfits : m.Along o f (Ordered label c) ops) :
    (∀ p ∈ (m.heard o f c ops).filterMap JitterOutput.frame?, played ≤ label p) ∧
      ((m.heard o f c ops).filterMap JitterOutput.frame?).Pairwise fun p p' => label p ≤ label p' := by
  induction ops generalizing m played latest with
  | nil => exact ⟨by simp [heard], .nil⟩
  | cons op ops ih =>
    obtain ⟨hop, hfits⟩ := hfits
    have hahead' : ∀ s ∈ (m.exec o f op).streams.get c, s.jitter.Ahead := by
      rw [exec_stream]
      exact jitter_onStream ahead_kept hahead c op
    rw [arrivals_cons] at hlatest hsent
    rw [heard, List.filterMap_append]
    rcases op.kinds o f c with ⟨packet, rfl, hc⟩ | rfl | ⟨hidle, -, hgone⟩ | ⟨hidle, g, hg, hmap⟩
    · rw [MixerOp.arrival_accept hc] at hlatest hsent
      obtain ⟨hfirst, hsent⟩ := List.pairwise_cons.mp hsent
      have hnew := hlatest packet List.mem_cons_self
      refine ih (m := m.exec o f (.accept packet)) ?_ hahead' (hplayed.trans hnew) hfirst hsent hfits
      rw [accepted_stream o f m hc]
      exact ranked_accept h (hop hc) hplayed hnew
    · cases hs : m.streams.get c with
      | none =>
        rw [popped_rendered, hs]
        refine ih (m := m.exec o f (.render samplesPerFrame)) ?_ hahead' hplayed hlatest hsent hfits
        rw [rendered_stream, hs]
        intro s' hs'
        cases hs'
      | some s =>
        obtain ⟨played', hle, hle', hlabel, hrest⟩ := (h s hs).pop (hahead s hs) hplayed
        have hframes : s.jitter.pop.1.toList.filterMap JitterOutput.frame? =
            (s.jitter.pop.1.bind JitterOutput.frame?).toList := by
          cases s.jitter.pop.1 with
          | none => rfl
          | some out => cases out <;> rfl
        have hheld : ∀ s' ∈ (m.exec o f (.render samplesPerFrame)).streams.get c,
            s'.jitter.Ranked label played' latest := by
          intro s' hs'
          rw [render_stream hs] at hs'
          rw [SenderStream.mem_kept hs', SenderStream.render_jitter]
          exact hrest
        have hlater := ih hheld hahead' hle' hlatest hsent hfits
        rw [popped_render hs, hframes]
        cases hp : s.jitter.pop.1.bind JitterOutput.frame? with
        | none => exact ⟨fun p hmem => hle.trans (hlater.1 p hmem), hlater.2⟩
        | some p =>
          have hlabel := hlabel p hp
          refine ⟨List.forall_mem_cons.mpr ⟨by omega, fun p' hmem => hle.trans (hlater.1 p' hmem)⟩, ?_⟩
          exact List.pairwise_cons.mpr ⟨fun p' hmem => hlabel ▸ hlater.1 p' hmem, hlater.2⟩
    · rw [hidle.arrival] at hlatest hsent
      rw [hidle.popped]
      refine ih (m := m.exec o f op) ?_ hahead' hplayed hlatest hsent hfits
      rw [exec_stream, hgone]
      intro s hs
      cases hs
    · rw [hidle.arrival] at hlatest hsent
      rw [hidle.popped]
      refine ih (m := m.exec o f op) ?_ hahead' hplayed hlatest hsent hfits
      rw [exec_stream, hmap]
      intro s hs
      obtain ⟨s₀, hs₀, rfl⟩ := Option.map_eq_some_iff.mp hs
      rw [(hg s₀).1]
      exact h s₀ hs₀

end VoiceMixer

/-! ## Bursts that are sent one after the other -/

theorem talk_payloads (c : ClientId) (seq : UInt32) (q : List β) : (talk c seq q).map (·.payload) = q := by
  induction q generalizing seq with
  | nil => rfl
  | cons p q ih =>
    obtain ⟨packet, htalk, -, -, hpayload, -⟩ := talk_cons c seq p q
    rw [htalk, List.map_cons, ih, hpayload]

theorem burst_payloads (c : ClientId) (seq : UInt32) (q : List β) : (burst c seq q).map (·.payload) = q := by
  cases q with
  | nil => rfl
  | cons p q =>
    obtain ⟨packet, hburst, -, -, hpayload, -⟩ := burst_cons c seq p q
    rw [hburst, List.map_cons, talk_payloads, hpayload]

/-- The packets that come of some bursts, each numbered from 0: some are lost, those of one burst overtake one another,
and those of the next come later. -/
def Arriving (c : ClientId) (bursts : List (List β)) (packets : List (VoicePacket β)) : Prop :=
  ∃ parts : List (List (VoicePacket β)), packets = parts.flatten ∧
    List.Forall₂ (fun part payloads => part.Subperm (burst c 0 payloads)) parts bursts

def Labelled (label : β → Nat) (bursts : List (List β)) : Prop := ∀ k, ∀ q ∈ bursts[k]?, ∀ p ∈ q, label p = k

theorem parts_labels {parts : List (List (VoicePacket β))} {bursts : List (List β)} (k : Nat)
    (hparts : List.Forall₂ (fun part payloads => part.Subperm (burst c 0 payloads)) parts bursts)
    (hlabel : ∀ i, ∀ q ∈ bursts[i]?, ∀ p ∈ q, label p = k + i) :
    (∀ packet ∈ parts.flatten, k ≤ label packet.payload) ∧
      parts.flatten.Pairwise fun p p' => label p.payload ≤ label p'.payload := by
  induction hparts generalizing k with
  | nil => exact ⟨by simp, .nil⟩
  | @cons part q parts bursts hpart hparts ih =>
    obtain ⟨hmin, hpairs⟩ := ih (k + 1) fun i q' hq' p hp => (hlabel (i + 1) q' hq' p hp).trans (by omega)
    have hfirst : ∀ packet ∈ part, label packet.payload = k := by
      intro packet hmem
      have hpayload : packet.payload ∈ q := by
        rw [← burst_payloads c 0 q]
        exact List.mem_map_of_mem (hpart.subset hmem)
      exact hlabel 0 q rfl _ hpayload
    rw [List.flatten_cons]
    constructor
    · intro packet hmem
      rcases List.mem_append.mp hmem with hmem | hmem
      · exact (hfirst packet hmem).ge
      · have := hmin packet hmem
        omega
    · refine List.pairwise_append.mpr ⟨?_, hpairs, fun p hp p' hp' => ?_⟩
      · exact List.pairwise_of_forall_mem_list fun p hp p' hp' => by rw [hfirst p hp, hfirst p' hp']
      · have := hmin p' hp'
        have := hfirst p hp
        omega

theorem Arriving.labels {bursts : List (List β)} {packets : List (VoicePacket β)} (h : Arriving c bursts packets)
    (hlabel : Labelled label bursts) : packets.Pairwise fun p p' => label p.payload ≤ label p'.payload := by
  obtain ⟨parts, rfl, hparts⟩ := h
  exact (parts_labels 0 hparts fun i q hq p hp => (hlabel i q hq p hp).trans (Nat.zero_add i).symm).2

namespace VoiceMixer

/-- A packet of a later burst than the one before it is the first of its burst. -/
def Announced (label : β → Nat) (last packet : VoicePacket β) : Prop :=
  label last.payload < label packet.payload → packet.startsBurst = true

/-- The frames held are of no burst before that of the packet that came last, which announces the next one. -/
def FromLast (label : β → Nat) (b : JitterBuffer β) (rest : List (VoicePacket β)) : Prop :=
  ∃ last : VoicePacket β, (∀ packet ∈ rest.head?, Announced label last packet) ∧
    ∀ e ∈ b.packets.entries, label last.payload ≤ label e.2

theorem fromLast_push {b : JitterBuffer β} {packet : VoicePacket β} {rest : List (VoicePacket β)}
    (hheld : ∀ e ∈ b.packets.entries, label packet.payload ≤ label e.2)
    (hnext : ∀ packet' ∈ rest.head?, Announced label packet packet') :
    FromLast label (b.push packet.seq packet.payload) rest := by
  refine ⟨packet, hnext, ?_⟩
  rw [JitterBuffer.push_eq]
  rcases JitterBuffer.place_cases b.count (b.extend packet.seq).1 packet.payload with ⟨-, -, -, heq⟩ | ⟨-, htrimmed⟩
  · rw [heq]
    exact hheld
  · intro e he
    rcases OrdMap.mem_insert.mp (htrimmed.entries e he) with rfl | ⟨he, -⟩
    · exact le_refl _
    · exact hheld e he

theorem pop_entries (b : JitterBuffer β) : ∀ e ∈ b.pop.2.packets.entries, e ∈ b.packets.entries := by
  have htake : ∀ b : JitterBuffer β, ∀ e ∈ b.take.2.packets.entries, e ∈ b.packets.entries := by
    intro b e he
    rcases b.take_cases with ⟨-, heq⟩ | ⟨next, p, -, -, heq⟩ | ⟨next, -, -, heq⟩ | ⟨next, -, -, -, heq⟩
    all_goals rw [heq] at he
    · exact he
    · exact (OrdMap.mem_remove.mp he).1
    · exact he
    · exact he
  rcases b.pop_cases with ⟨-, heq⟩ | ⟨-, -, heq⟩ | ⟨-, -, heq⟩
  · rw [heq]
    exact htake b
  · rw [heq]
    exact fun _ he => he
  · rw [heq]
    exact htake { b with playing := true, nextExtended := b.packets.firstKey }

/-- A run is ordered where the first packet that comes of each burst is its first. -/
theorem ordered_of_announced {ops : List (MixerOp β α)}
    (hheld : ∀ s ∈ m.streams.get c, FromLast label s.jitter (arrivals c ops))
    (hannounced : (arrivals c ops).IsChain (Announced label)) : m.Along o f (Ordered label c) ops := by
  induction ops generalizing m with
  | nil => trivial
  | cons op ops ih =>
    rw [arrivals_cons] at hheld hannounced
    rcases op.kinds o f c with ⟨packet, rfl, hc⟩ | rfl | ⟨hidle, -, hgone⟩ | ⟨hidle, g, hg, hmap⟩
    · rw [MixerOp.arrival_accept hc] at hheld hannounced
      obtain ⟨hnext, hrest⟩ := List.isChain_cons.mp hannounced
      -- what is held when a packet comes that announces no burst is of no earlier one
      have hold : packet.startsBurst = false → ∀ s ∈ m.streams.get c, ∀ e ∈ s.jitter.packets.entries,
          label packet.payload ≤ label e.2 := by
        intro hstart s hs e he
        obtain ⟨last, hlast, hheld⟩ := hheld s hs
        by_contra hlt
        have hle := hheld e he
        have hnew := hlast packet rfl (by omega)
        rw [hstart] at hnew
        cases hnew
      refine ⟨fun _ hstart s hs => .inr fun e he hlt => ?_, ih (m := m.exec o f (.accept packet)) ?_ hrest⟩
      · have := hold hstart s hs e he
        omega
      · rw [accepted_stream o f m hc]
        intro s hs
        obtain ⟨s₀, hs₀, rfl⟩ := Option.map_eq_some_iff.mp hs
        simp only [SenderStream.accept]
        by_cases hstart : packet.startsBurst = true
        · rw [if_pos hstart]
          exact fromLast_push (fun _ he => absurd he List.not_mem_nil) hnext
        · rw [if_neg hstart]
          rcases SenderStream.mem_found hs₀ with hs₀ | ⟨-, decoder, -, rfl⟩
          · exact fromLast_push (hold (by simpa using hstart) s₀ hs₀) hnext
          · exact fromLast_push (fun _ he => absurd he List.not_mem_nil) hnext
    · refine ⟨trivial, ih (m := m.exec o f (.render samplesPerFrame)) ?_ hannounced⟩
      rw [rendered_stream]
      intro s hs
      obtain ⟨s₀, hs₀, hs⟩ := Option.bind_eq_some_iff.mp hs
      obtain ⟨last, hlast, hold⟩ := hheld s₀ hs₀
      rw [SenderStream.mem_kept hs, SenderStream.render_jitter]
      exact ⟨last, hlast, fun e he => hold e (pop_entries _ e he)⟩
    · rw [hidle.arrival] at hheld hannounced
      refine ⟨ordered_idle hidle.arrival, ih (m := m.exec o f op) ?_ hannounced⟩
      rw [exec_stream, hgone]
      intro s hs
      cases hs
    · rw [hidle.arrival] at hheld hannounced
      refine ⟨ordered_idle hidle.arrival, ih (m := m.exec o f op) ?_ hannounced⟩
      rw [exec_stream, hmap]
      intro s hs
      obtain ⟨s₀, hs₀, rfl⟩ := Option.map_eq_some_iff.mp hs
      rw [(hg s₀).1]
      exact hheld s₀ hs₀

/-- No frame is played after one of a later burst. -/
theorem bursts_in_order (o : Opus δ β α) (f : Samples α) (label : β → Nat) (bursts : List (List β))
    (hlabel : Labelled label bursts) (c : ClientId) (ops : List (MixerOp β α))
    (harr : Arriving c bursts (arrivals c ops)) (hordered : (new f).Along o f (Ordered label c) ops) :
    (((new f).heard o f c ops).filterMap JitterOutput.frame?).Pairwise fun p p' => label p ≤ label p' := by
  have hnone : ∀ s ∈ (new f : VoiceMixer δ β α).streams.get c, False := nofun
  have hranked : ∀ s ∈ (new f : VoiceMixer δ β α).streams.get c, s.jitter.Ranked label 0 0 :=
    fun s hs => (hnone s hs).elim
  exact (heard_ranked hranked (fun s hs => (hnone s hs).elim) (le_refl _) (fun _ _ => Nat.zero_le _)
    (harr.labels hlabel) hordered).2

theorem bursts_in_order_two : (((new wholeSamples : VoiceMixer Unit (Nat × Nat) Int).heard (silentOpus (Nat × Nat))
    wholeSamples 7 ([.accept ⟨7, 0, flagBurstStart, (0, 10)⟩, .accept ⟨7, 1, 0, (0, 11)⟩, .accept ⟨7, 2, 0, (0, 12)⟩,
      .render samplesPerFrame, .accept ⟨7, 0, flagBurstStart, (1, 20)⟩, .accept ⟨7, 2, flagBurstEnd, (1, 22)⟩,
      .accept ⟨7, 1, 0, (1, 21)⟩] ++ List.replicate 3 (.render samplesPerFrame))).filterMap
        JitterOutput.frame?).Pairwise fun p p' => p.1 ≤ p'.1 := by
  refine bursts_in_order (silentOpus (Nat × Nat)) wholeSamples Prod.fst
    [[(0, 10), (0, 11), (0, 12), (0, 13)], [(1, 20), (1, 21), (1, 22)]] ?_ 7 _
      ⟨[[⟨7, 0, flagBurstStart, (0, 10)⟩, ⟨7, 1, 0, (0, 11)⟩, ⟨7, 2, 0, (0, 12)⟩],
        [⟨7, 0, flagBurstStart, (1, 20)⟩, ⟨7, 2, flagBurstEnd, (1, 22)⟩, ⟨7, 1, 0, (1, 21)⟩]], rfl, ?_⟩ ?_
  · rintro (_ | _ | k) q hq p hp
    · obtain rfl := Option.some.inj hq
      revert p
      decide
    · obtain rfl := Option.some.inj hq
      revert p
      decide
    · cases hq
  · exact .cons (by decide) (.cons (by decide) .nil)
  · exact ordered_of_announced nofun (by unfold Announced; decide)

/-- A later burst whose first packet is lost is played before the rest of an earlier one. -/
theorem lost_start_mixes_bursts : ¬ ∀ (bursts : List (List (Nat × Nat))) (c : ClientId)
    (ops : List (MixerOp (Nat × Nat) Int)), Labelled Prod.fst bursts → Arriving c bursts (arrivals c ops) →
    (((new wholeSamples : VoiceMixer Unit (Nat × Nat) Int).heard (silentOpus (Nat × Nat)) wholeSamples c ops).filterMap
      JitterOutput.frame?).Pairwise fun p p' => p.1 ≤ p'.1 := by
  intro h
  have hplayed := h [[(0, 10), (0, 11), (0, 12)], [(1, 20), (1, 21)]] 7 ([.accept ⟨7, 0, flagBurstStart, (0, 10)⟩,
    .accept ⟨7, 1, 0, (0, 11)⟩, .accept ⟨7, 2, flagBurstEnd, (0, 12)⟩, .accept ⟨7, 1, flagBurstEnd, (1, 21)⟩] ++
      List.replicate 3 (.render samplesPerFrame)) ?_
        ⟨[[⟨7, 0, flagBurstStart, (0, 10)⟩, ⟨7, 1, 0, (0, 11)⟩, ⟨7, 2, flagBurstEnd, (0, 12)⟩],
          [⟨7, 1, flagBurstEnd, (1, 21)⟩]], rfl, .cons (by decide) (.cons (by decide) .nil)⟩
  · revert hplayed
    decide +kernel
  · rintro (_ | _ | k) q hq p hp
    · obtain rfl := Option.some.inj hq
      revert p
      decide
    · obtain rfl := Option.some.inj hq
      revert p
      decide
    · cases hq

end VoiceMixer

end

end PickleChat
