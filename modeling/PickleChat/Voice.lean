import PickleChat.Lib.Stream
import PickleChat.Proto

/-!
# Voice datagrams

The two layouts of a voice packet, from a client and to a client: a tag, the
numbers in little-endian order, the flags, and the payload to the end.
-/

namespace PickleChat

open Stream

def maxOpusPacket : Nat := 1275

def upstreamHeaderLen : Nat := 6

def downstreamHeaderLen : Nat := 10

def tagUpstream : UInt8 := 1

def tagDownstream : UInt8 := 2

/-- `FLAG_BURST_START`: the first packet of a talk burst. -/
def flagBurstStart : UInt8 := 1

/-- `FLAG_BURST_END`: the last one. -/
def flagBurstEnd : UInt8 := 2

inductive VoiceDecodeError where
  | tooShort (len : Nat)
  | unknownTag (tag : UInt8)
  | payloadTooLarge (len : Nat)
  deriving DecidableEq

/-- `datagram[from..to]`. -/
def slice (datagram : List UInt8) (first last : Nat) : List UInt8 := (datagram.drop first).take (last - first)

namespace VoiceUpstream

def encode (p : VoiceUpstream) : List UInt8 := [tagUpstream] ++ u32Le p.seq ++ [p.flags] ++ p.payload

def decode (datagram : List UInt8) : Except VoiceDecodeError VoiceUpstream :=
  if datagram.length < upstreamHeaderLen then .error (.tooShort datagram.length) else
  if datagram.getD 0 0 ≠ tagUpstream then .error (.unknownTag (datagram.getD 0 0)) else
  let seq := fromLe (slice datagram 1 5)
  let flags := datagram.getD 5 0
  let payload := datagram.drop upstreamHeaderLen
  if payload.length > maxOpusPacket then .error (.payloadTooLarge payload.length) else
  .ok { seq, flags, payload }

end VoiceUpstream

namespace VoiceDownstream

def encode (p : VoiceDownstream) : List UInt8 :=
  [tagDownstream] ++ u32Le p.sender ++ u32Le p.seq ++ [p.flags] ++ p.payload

def decode (datagram : List UInt8) : Except VoiceDecodeError VoiceDownstream :=
  if datagram.length < downstreamHeaderLen then .error (.tooShort datagram.length) else
  if datagram.getD 0 0 ≠ tagDownstream then .error (.unknownTag (datagram.getD 0 0)) else
  let sender := fromLe (slice datagram 1 5)
  let seq := fromLe (slice datagram 5 9)
  let flags := datagram.getD 9 0
  let payload := datagram.drop downstreamHeaderLen
  if payload.length > maxOpusPacket then .error (.payloadTooLarge payload.length) else
  .ok { sender, seq, flags, payload }

end VoiceDownstream

/-- `seq_newer_than`, with `u32::MAX / 2` written out. -/
def seqNewerThan (a b : UInt32) : Bool := a ≠ b && a - b < 0xFFFFFFFF / 2

/-- The datagram has the tag, a whole header and no more payload than allowed. -/
def WellFormed (tag : UInt8) (headerLen : Nat) (b : List UInt8) : Prop :=
  b.head? = some tag ∧ headerLen ≤ b.length ∧ b.length ≤ headerLen + maxOpusPacket

/-! ## One direction -/

section
variable {b : List UInt8}

theorem VoiceUpstream.decode_encode {p : VoiceUpstream} (h : p.payload.length ≤ maxOpusPacket) :
    VoiceUpstream.decode p.encode = .ok p := by
  have hlen : ¬ p.encode.length < upstreamHeaderLen := by
    simp only [VoiceUpstream.encode, upstreamHeaderLen, List.length_append, length_u32Le, List.length_singleton]
    omega
  have hseq : slice p.encode 1 5 = u32Le p.seq := rfl
  have hpayload : p.encode.drop upstreamHeaderLen = p.payload := rfl
  unfold VoiceUpstream.decode
  rw [if_neg hlen, if_neg (by exact fun hn => hn rfl)]
  dsimp only
  rw [hseq, fromLe_u32Le, hpayload, if_neg (by omega)]
  rfl

theorem VoiceDownstream.decode_encode {p : VoiceDownstream} (h : p.payload.length ≤ maxOpusPacket) :
    VoiceDownstream.decode p.encode = .ok p := by
  have hlen : ¬ p.encode.length < downstreamHeaderLen := by
    simp only [VoiceDownstream.encode, downstreamHeaderLen, List.length_append, length_u32Le, List.length_singleton]
    omega
  have hsender : slice p.encode 1 5 = u32Le p.sender := rfl
  have hseq : slice p.encode 5 9 = u32Le p.seq := rfl
  have hpayload : p.encode.drop downstreamHeaderLen = p.payload := rfl
  unfold VoiceDownstream.decode
  rw [if_neg hlen, if_neg (by exact fun hn => hn rfl)]
  dsimp only
  rw [hsender, hseq, fromLe_u32Le, fromLe_u32Le, hpayload, if_neg (by omega)]
  rfl

theorem exists_header {n : Nat} (h : ¬ b.length < n) : ∃ header payload, header.length = n ∧ b = header ++ payload :=
  ⟨b.take n, b.drop n, by rw [List.length_take]; omega, (List.take_append_drop n b).symm⟩

/-- What is accepted from a client is well formed, and is the encoding of what was read. -/
theorem VoiceUpstream.encode_decode {p : VoiceUpstream} (h : VoiceUpstream.decode b = .ok p) :
    WellFormed tagUpstream upstreamHeaderLen b ∧ p.encode = b := by
  unfold VoiceUpstream.decode at h
  split at h; · cases h
  split at h; · cases h
  dsimp only at h
  split at h; · cases h
  rename_i hlen htag hpayload
  cases h
  obtain ⟨header, payload, hheader, rfl⟩ := exists_header hlen
  match header, hheader with
  | [t, b₁, b₂, b₃, b₄, f], _ =>
    obtain rfl : t = tagUpstream := Decidable.not_not.mp htag
    refine ⟨⟨rfl, ?_, ?_⟩, ?_⟩
    · simp [upstreamHeaderLen]
    · simp only [upstreamHeaderLen, List.cons_append, List.nil_append, List.length_cons,
        List.drop_succ_cons, List.drop_zero] at hpayload ⊢
      omega
    · have hseq : u32Le (fromLe [b₁, b₂, b₃, b₄]) = [b₁, b₂, b₃, b₄] := u32Le_fromLe rfl
      change [tagUpstream] ++ u32Le (fromLe [b₁, b₂, b₃, b₄]) ++ [f] ++ payload = _
      rw [hseq]
      rfl

theorem VoiceDownstream.encode_decode {p : VoiceDownstream} (h : VoiceDownstream.decode b = .ok p) :
    WellFormed tagDownstream downstreamHeaderLen b ∧ p.encode = b := by
  unfold VoiceDownstream.decode at h
  split at h; · cases h
  split at h; · cases h
  dsimp only at h
  split at h; · cases h
  rename_i hlen htag hpayload
  cases h
  obtain ⟨header, payload, hheader, rfl⟩ := exists_header hlen
  match header, hheader with
  | [t, b₁, b₂, b₃, b₄, b₅, b₆, b₇, b₈, f], _ =>
    obtain rfl : t = tagDownstream := Decidable.not_not.mp htag
    refine ⟨⟨rfl, ?_, ?_⟩, ?_⟩
    · simp [downstreamHeaderLen]
    · simp only [downstreamHeaderLen, List.cons_append, List.nil_append, List.length_cons,
        List.drop_succ_cons, List.drop_zero] at hpayload ⊢
      omega
    · have hsender : u32Le (fromLe [b₁, b₂, b₃, b₄]) = [b₁, b₂, b₃, b₄] := u32Le_fromLe rfl
      have hseq : u32Le (fromLe [b₅, b₆, b₇, b₈]) = [b₅, b₆, b₇, b₈] := u32Le_fromLe rfl
      change [tagDownstream] ++ u32Le (fromLe [b₁, b₂, b₃, b₄]) ++ u32Le (fromLe [b₅, b₆, b₇, b₈]) ++ [f] ++ payload = _
      rw [hsender, hseq]
      rfl

theorem getD_of_head? {t : UInt8} (h : b.head? = some t) : b.getD 0 0 = t := by
  cases b with
  | nil => cases h
  | cons a b => exact Option.some.inj h

theorem VoiceUpstream.decode_of_wellFormed (h : WellFormed tagUpstream upstreamHeaderLen b) :
    ∃ p, VoiceUpstream.decode b = .ok p := by
  obtain ⟨htag, hmin, hmax⟩ := h
  have hpayload : ¬ (b.drop upstreamHeaderLen).length > maxOpusPacket := by
    rw [List.length_drop]
    omega
  unfold VoiceUpstream.decode
  rw [if_neg (by omega), getD_of_head? htag, if_neg (by exact fun hn => hn rfl)]
  exact ⟨_, if_neg hpayload⟩

theorem VoiceDownstream.decode_of_wellFormed (h : WellFormed tagDownstream downstreamHeaderLen b) :
    ∃ p, VoiceDownstream.decode b = .ok p := by
  obtain ⟨htag, hmin, hmax⟩ := h
  have hpayload : ¬ (b.drop downstreamHeaderLen).length > maxOpusPacket := by
    rw [List.length_drop]
    omega
  unfold VoiceDownstream.decode
  rw [if_neg (by omega), getD_of_head? htag, if_neg (by exact fun hn => hn rfl)]
  exact ⟨_, if_neg hpayload⟩

theorem VoiceUpstream.payload_of_decode {p : VoiceUpstream} (h : VoiceUpstream.decode b = .ok p) :
    p.payload.length ≤ maxOpusPacket := by
  obtain ⟨⟨-, -, hmax⟩, rfl⟩ := encode_decode h
  simp only [VoiceUpstream.encode, upstreamHeaderLen, List.length_append, length_u32Le, List.length_singleton] at hmax
  omega

end

/-! ## Both directions -/

/-- Both layouts are exact inverses on what they accept, accept just what is well
formed, never the same datagram, and a relayed packet keeps all but its sender. -/
theorem voice_format_exact :
    (∀ p : VoiceUpstream, p.payload.length ≤ maxOpusPacket → VoiceUpstream.decode p.encode = .ok p) ∧
    (∀ p : VoiceDownstream, p.payload.length ≤ maxOpusPacket → VoiceDownstream.decode p.encode = .ok p) ∧
    (∀ b, ((∃ p, VoiceUpstream.decode b = .ok p) ↔ WellFormed tagUpstream upstreamHeaderLen b) ∧
      ∀ p, VoiceUpstream.decode b = .ok p → p.encode = b) ∧
    (∀ b, ((∃ p, VoiceDownstream.decode b = .ok p) ↔ WellFormed tagDownstream downstreamHeaderLen b) ∧
      ∀ p, VoiceDownstream.decode b = .ok p → p.encode = b) ∧
    (∀ b p q, VoiceUpstream.decode b = .ok p → VoiceDownstream.decode b ≠ .ok q) ∧
    ∀ b p sender, VoiceUpstream.decode b = .ok p →
      VoiceDownstream.decode (p.intoDownstream sender).encode = .ok ⟨sender, p.seq, p.flags, p.payload⟩ := by
  refine ⟨fun p => p.decode_encode, fun p => p.decode_encode, fun b => ⟨⟨?_, ?_⟩, fun p h => ?_⟩,
    fun b => ⟨⟨?_, ?_⟩, fun p h => ?_⟩, ?_, ?_⟩
  · rintro ⟨p, h⟩
    exact (VoiceUpstream.encode_decode h).1
  · exact VoiceUpstream.decode_of_wellFormed
  · exact (VoiceUpstream.encode_decode h).2
  · rintro ⟨p, h⟩
    exact (VoiceDownstream.encode_decode h).1
  · exact VoiceDownstream.decode_of_wellFormed
  · exact (VoiceDownstream.encode_decode h).2
  · intro b p q hp hq
    have hup := (VoiceUpstream.encode_decode hp).1.1
    have hdown := (VoiceDownstream.encode_decode hq).1.1
    exact absurd (Option.some.inj (hup.symm.trans hdown)) (by decide)
  · intro b p sender h
    exact VoiceDownstream.decode_encode (VoiceUpstream.payload_of_decode h)

end PickleChat
