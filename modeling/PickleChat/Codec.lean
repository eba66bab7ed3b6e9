import PickleChat.Frames
import PickleChat.Lib.Stream

/-!
# Length-prefixed frames

The control stream carries frames: a little-endian length, then that many bytes
of a message. The message format and the writer are parameters; the reader sees
the bytes of a stream in whatever pieces they arrive.
-/

namespace PickleChat

open Stream

def lenPrefixLen : Nat := 4

inductive CodecError (ε : Type) where
  | io (e : IoError)
  | encode (e : ε)
  | decode (e : ε)
  | frameTooLarge (len max : UInt32)
  | closed

/-- The message format: `postcard::to_stdvec` and `postcard::from_bytes`. -/
structure Format (T ε : Type) where
  toStdvec : T → Except ε (List UInt8)
  fromBytes : List UInt8 → Except ε T

section
variable {T ε W : Type} (format : Format T ε)

/-- `write_frame`; the writer's `write_all` takes all the bytes or fails. -/
def writeFrame (writeAll : List UInt8 → W → Except IoError Unit × W) (message : T) (writer : W) :
    Except (CodecError ε) Unit × W :=
  match format.toStdvec message with
  | .error e => (.error (.encode e), writer)
  | .ok payload =>
    if payload.length > maxFrameLen then
      (.error (.frameTooLarge (.ofNat payload.length) (.ofNat maxFrameLen)), writer) else
    let framed := u32Le (.ofNat payload.length) ++ payload
    match writeAll framed writer with
    | (.ok (), writer) => (.ok (), writer)
    | (.error e, writer) => (.error (.io e), writer)

/-- What a read of a frame comes to: the message or an error, the stream after
it and the bytes reserved for the payload. -/
structure FrameRead (T ε : Type) where
  result : Except (CodecError ε) T
  rest : Source
  reserved : Nat

def readFrame (reader : Source) : FrameRead T ε :=
  match readExact lenPrefixLen reader with
  | (.error .unexpectedEof, reader) => ⟨.error .closed, reader, 0⟩
  | (.error e, reader) => ⟨.error (.io e), reader, 0⟩
  | (.ok lenBytes, reader) =>
    let len := fromLe lenBytes
    if len.toNat > maxFrameLen then ⟨.error (.frameTooLarge len (.ofNat maxFrameLen)), reader, 0⟩ else
    match readExact len.toNat reader with
    | (.error e, reader) => ⟨.error (.io e), reader, len.toNat⟩
    | (.ok payload, reader) =>
      match format.fromBytes payload with
      | .error e => ⟨.error (.decode e), reader, len.toNat⟩
      | .ok message => ⟨.ok message, reader, len.toNat⟩

/-- Read until there is an error: the messages, and the error. -/
inductive Yields : Source → List T → CodecError ε → Prop
  | stop {s : Source} {e : CodecError ε} : (readFrame format s).result = .error e → Yields s [] e
  | next {s : Source} {m : T} {ms : List T} {e : CodecError ε} : (readFrame format s).result = .ok m →
      Yields (readFrame format s).rest ms e → Yields s (m :: ms) e

variable {format}

theorem Yields.unique {s : Source} {ms ms' : List T} {e e' : CodecError ε} (h : Yields format s ms e)
    (h' : Yields format s ms' e') : ms = ms' ∧ e = e' := by
  induction h generalizing ms' with
  | stop he =>
    cases h' with
    | stop he' => exact ⟨rfl, Except.error.inj (he.symm.trans he')⟩
    | next hm' _ => exact absurd (he.symm.trans hm') (by simp)
  | next hm _ ih =>
    cases h' with
    | stop he' => exact absurd (hm.symm.trans he') (by simp)
    | next hm' h' =>
      obtain ⟨rfl, rfl⟩ := ih h'
      exact ⟨congrArg (· :: _) (Except.ok.inj (hm.symm.trans hm')), rfl⟩

/-! ## One frame -/

def framed (payload : List UInt8) : List UInt8 := u32Le (.ofNat payload.length) ++ payload

theorem length_framed (payload : List UInt8) : (framed payload).length = lenPrefixLen + payload.length := by
  simp [framed, lenPrefixLen]

theorem fromLe_framed {payload : List UInt8} (h : payload.length ≤ maxFrameLen) :
    (fromLe ((framed payload).take lenPrefixLen)).toNat = payload.length := by
  have htake : (framed payload).take lenPrefixLen = u32Le (.ofNat payload.length) := List.take_left' rfl
  have hlt : payload.length < 2 ^ 32 := lt_of_le_of_lt h (by decide)
  rw [htake, fromLe_u32Le, UInt32.toNat_ofNat_of_lt' hlt]

/-- At the end of a stream there is no frame, and none in less than a prefix. -/
theorem readFrame_short {s : Source} (hs : Unbroken s) (h : (content s).length < lenPrefixLen) :
    (readFrame format s).result = .error .closed := by
  unfold readFrame
  rw [readExact_of_lt hs h]

variable (format) in
theorem readFrame_eq {s : Source} (hs : Unbroken s) (h : lenPrefixLen ≤ (content s).length) :
    ∃ rest, content rest = (content s).drop lenPrefixLen ∧ Unbroken rest ∧
      readFrame format s =
        let len := fromLe ((content s).take lenPrefixLen)
        if len.toNat > maxFrameLen then ⟨.error (.frameTooLarge len (.ofNat maxFrameLen)), rest, 0⟩ else
        match readExact len.toNat rest with
        | (.error e, reader) => ⟨.error (.io e), reader, len.toNat⟩
        | (.ok payload, reader) =>
          match format.fromBytes payload with
          | .error e => ⟨.error (.decode e), reader, len.toNat⟩
          | .ok message => ⟨.ok message, reader, len.toNat⟩ := by
  obtain ⟨rest, hr, hc, hu⟩ := readExact_of_le hs h
  refine ⟨rest, hc, hu, ?_⟩
  unfold readFrame
  rw [hr]

theorem readFrame_whole {s : Source} {payload more : List UInt8} {m : T} (hs : Unbroken s)
    (hc : content s = framed payload ++ more) (hlen : payload.length ≤ maxFrameLen)
    (hm : format.fromBytes payload = .ok m) :
    (readFrame format s).result = .ok m ∧ content (readFrame format s).rest = more ∧
      Unbroken (readFrame format s).rest := by
  have hlong : lenPrefixLen ≤ (framed payload).length := by
    rw [length_framed]
    omega
  obtain ⟨rest, hrest, hu, heq⟩ := readFrame_eq format hs
    (by rw [hc, List.length_append]; omega)
  rw [hc, List.drop_append_of_le_length hlong] at hrest
  rw [hc, List.take_append_of_le_length hlong] at heq
  dsimp only at heq
  have hpayload : (framed payload).drop lenPrefixLen = payload := List.drop_left' rfl
  rw [hpayload] at hrest
  rw [fromLe_framed hlen, if_neg (by omega)] at heq
  obtain ⟨rest', hr, hmore, hu'⟩ := readExact_of_le hu (n := payload.length)
    (by rw [hrest, List.length_append]; omega)
  rw [hrest, List.take_left' rfl] at hr
  rw [hrest, List.drop_left' rfl] at hmore
  rw [hr] at heq
  dsimp only at heq
  rw [hm] at heq
  rw [heq]
  exact ⟨rfl, hmore, hu'⟩

theorem readFrame_cut {s : Source} {payload : List UInt8} {k : Nat} (hs : Unbroken s)
    (hc : content s = (framed payload).take k) (hlen : payload.length ≤ maxFrameLen) (hk : lenPrefixLen ≤ k)
    (hcut : k < (framed payload).length) : (readFrame format s).result = .error (.io .unexpectedEof) := by
  have hcontent : (content s).length = k := by
    rw [hc, List.length_take]
    omega
  obtain ⟨rest, hrest, hu, heq⟩ := readFrame_eq format hs (by omega)
  rw [hc, List.take_take, Nat.min_eq_left hk] at heq
  dsimp only at heq
  rw [fromLe_framed hlen, if_neg (by omega)] at heq
  have hshort : (content rest).length < payload.length := by
    rw [hrest, List.length_drop, hcontent]
    rw [length_framed] at hcut
    omega
  rw [readExact_of_lt hu hshort] at heq
  rw [heq]

theorem readFrame_reserved (s : Source) : (readFrame format s).reserved ≤ maxFrameLen := by
  unfold readFrame
  split
  · exact Nat.zero_le _
  · exact Nat.zero_le _
  · dsimp only
    split
    · exact Nat.zero_le _
    · split
      · dsimp only
        omega
      · split <;> (dsimp only; omega)

theorem readFrame_consumes {s : Source} {m : T} (hs : Unbroken s) (h : (readFrame format s).result = .ok m) :
    lenPrefixLen + (fromLe ((content s).take lenPrefixLen)).toNat ≤ (content s).length ∧
      content (readFrame format s).rest =
        (content s).drop (lenPrefixLen + (fromLe ((content s).take lenPrefixLen)).toNat) := by
  rcases Nat.lt_or_ge (content s).length lenPrefixLen with hshort | hlong
  · rw [readFrame_short hs hshort] at h
    cases h
  obtain ⟨rest, hrest, hu, heq⟩ := readFrame_eq format hs hlong
  dsimp only at heq
  split at heq
  · rw [heq] at h
    cases h
  rcases Nat.lt_or_ge (content rest).length (fromLe ((content s).take lenPrefixLen)).toNat with hless | hmore
  · rw [readExact_of_lt hu hless] at heq
    rw [heq] at h
    cases h
  obtain ⟨rest', hr, hdrop, -⟩ := readExact_of_le hu hmore
  have hlength : (content rest).length = (content s).length - lenPrefixLen := by rw [hrest, List.length_drop]
  refine ⟨by omega, ?_⟩
  have hfinal : (readFrame format s).rest = rest' := by
    rw [heq, hr]
    dsimp only
    split <;> rfl
  rw [hfinal, hdrop, hrest, List.drop_drop]

/-! ## Streams of frames -/

def Format.Lawful (format : Format T ε) : Prop := ∀ m b, format.toStdvec m = .ok b → format.fromBytes b = .ok m

def pushAll (bytes : List UInt8) (writer : List UInt8) : Except IoError Unit × List UInt8 :=
  (.ok (), writer ++ bytes)

variable (format) in
def output (m : T) : List UInt8 := (writeFrame format pushAll m []).2

variable (format) in
def Sendable (m : T) : Prop := ∃ b, format.toStdvec m = .ok b ∧ b.length ≤ maxFrameLen

theorem output_eq {m : T} {b : List UInt8} (hb : format.toStdvec m = .ok b) (hlen : b.length ≤ maxFrameLen) :
    output format m = framed b := by
  unfold output writeFrame
  rw [hb]
  dsimp only
  rw [if_neg (by omega)]
  rfl

theorem yields_output (hlaw : format.Lawful) {ms : List T} (hms : ∀ m ∈ ms, Sendable format m) {s : Source}
    (hs : Unbroken s) (hc : content s = ms.flatMap (output format)) : Yields format s ms .closed := by
  induction ms generalizing s with
  | nil =>
    refine .stop (readFrame_short hs ?_)
    rw [hc]
    exact Nat.zero_lt_succ _
  | cons m ms ih =>
    obtain ⟨b, hb, hlen⟩ := hms m List.mem_cons_self
    rw [List.flatMap_cons, output_eq hb hlen] at hc
    obtain ⟨hm, hrest, hu⟩ := readFrame_whole hs hc hlen (hlaw m b hb)
    exact .next hm (ih (fun m' hm' => hms m' (List.mem_cons_of_mem _ hm')) hu hrest)

/-- A message is refused just when its encoding is too long, and then nothing is written. -/
theorem writeFrame_refuses (writeAll : List UInt8 → W → Except IoError Unit × W) {m : T} {b : List UInt8}
    (hb : format.toStdvec m = .ok b) (writer : W) :
    ((∃ len max, (writeFrame format writeAll m writer).1 = .error (.frameTooLarge len max)) ↔ maxFrameLen < b.length) ∧
      (maxFrameLen < b.length → (writeFrame format writeAll m writer).2 = writer) := by
  unfold writeFrame
  rw [hb]
  dsimp only
  by_cases hlen : b.length > maxFrameLen
  · rw [if_pos hlen]
    exact ⟨⟨fun _ => hlen, fun _ => ⟨_, _, rfl⟩⟩, fun _ => rfl⟩
  · rw [if_neg hlen]
    refine ⟨⟨?_, fun h => absurd h hlen⟩, fun h => absurd h hlen⟩
    rintro ⟨len, max, h⟩
    split at h <;> cases h

/-- Messages come back as they were sent, however their bytes arrive; only a
message that is too long is refused; and any bytes at all are a message or an
error, within the limit. -/
theorem frames_roundtrip (hlaw : format.Lawful) :
    (∀ (ms : List T) (s : Source), (∀ m ∈ ms, Sendable format m) → Unbroken s →
      content s = ms.flatMap (output format) → ∀ ms' e, Yields format s ms' e ↔ ms' = ms ∧ e = .closed) ∧
    (∀ (writeAll : List UInt8 → W → Except IoError Unit × W) (m : T) (b : List UInt8) (writer : W),
      format.toStdvec m = .ok b →
        ((∃ len max, (writeFrame format writeAll m writer).1 = .error (.frameTooLarge len max)) ↔
          maxFrameLen < b.length) ∧
        (maxFrameLen < b.length → (writeFrame format writeAll m writer).2 = writer)) ∧
    ∀ s : Source, Unbroken s → (readFrame format s).reserved ≤ maxFrameLen ∧
      ((∃ m, (readFrame format s).result = .ok m ∧
        lenPrefixLen + (fromLe ((content s).take lenPrefixLen)).toNat ≤ (content s).length ∧
        content (readFrame format s).rest =
          (content s).drop (lenPrefixLen + (fromLe ((content s).take lenPrefixLen)).toNat)) ∨
      ∃ e, (readFrame format s).result = .error e) := by
  refine ⟨fun ms s hms hs hc ms' e => ⟨fun h => ?_, ?_⟩, fun writeAll m b writer hb => ?_, fun s hs => ⟨?_, ?_⟩⟩
  · exact h.unique (yields_output hlaw hms hs hc)
  · rintro ⟨rfl, rfl⟩
    exact yields_output hlaw hms hs hc
  · exact writeFrame_refuses writeAll hb writer
  · exact readFrame_reserved s
  · cases hr : (readFrame format s).result with
    | ok m => exact .inl ⟨m, rfl, readFrame_consumes hs hr⟩
    | error e => exact .inr ⟨e, rfl⟩

/-! ## Cut streams -/

variable (format)

/-- The messages whose frames lie wholly before the cut. -/
def wholeBefore : List T → Nat → List T
  | [], _ => []
  | m :: ms, k => if (output format m).length ≤ k then m :: wholeBefore ms (k - (output format m).length) else []

def frameStart (ms : List T) (j : Nat) : Nat := ((ms.take j).flatMap (output format)).length

def AtBoundary (ms : List T) (k : Nat) : Prop := ∃ j ≤ ms.length, k = frameStart format ms j

/-- The cut leaves a frame one to three bytes of its prefix. -/
def InPrefix (ms : List T) (k : Nat) : Prop :=
  ∃ j < ms.length, frameStart format ms j < k ∧ k < frameStart format ms j + lenPrefixLen

variable {format}

theorem frameStart_zero (ms : List T) : frameStart format ms 0 = 0 := rfl

theorem frameStart_succ (m : T) (ms : List T) (j : Nat) :
    frameStart format (m :: ms) (j + 1) = (output format m).length + frameStart format ms j := by
  simp [frameStart]

theorem atBoundary_cons {m : T} {ms : List T} {k : Nat} :
    AtBoundary format (m :: ms) k ↔
      k = 0 ∨ ((output format m).length ≤ k ∧ AtBoundary format ms (k - (output format m).length)) := by
  constructor
  · rintro ⟨j, hj, rfl⟩
    cases j with
    | zero => exact .inl rfl
    | succ j =>
      rw [frameStart_succ]
      refine .inr ⟨by omega, j, ?_, by omega⟩
      simpa using hj
  · rintro (rfl | ⟨hle, j, hj, he⟩)
    · exact ⟨0, Nat.zero_le _, rfl⟩
    · refine ⟨j + 1, by simpa using hj, ?_⟩
      rw [frameStart_succ]
      omega

theorem inPrefix_cons {m : T} {ms : List T} {k : Nat} :
    InPrefix format (m :: ms) k ↔ (0 < k ∧ k < lenPrefixLen) ∨
      ((output format m).length ≤ k ∧ InPrefix format ms (k - (output format m).length)) := by
  constructor
  · rintro ⟨j, hj, hlt, hgt⟩
    cases j with
    | zero => exact .inl ⟨by simpa [frameStart_zero] using hlt, by simpa [frameStart_zero] using hgt⟩
    | succ j =>
      rw [frameStart_succ] at hlt hgt
      exact .inr ⟨by omega, j, by simpa using hj, by omega, by omega⟩
  · rintro (⟨hlt, hgt⟩ | ⟨hle, j, hj, hlt, hgt⟩)
    · exact ⟨0, by simp, by simpa [frameStart_zero] using hlt, by simpa [frameStart_zero] using hgt⟩
    · refine ⟨j + 1, by simpa using hj, ?_, ?_⟩ <;> rw [frameStart_succ] <;> omega

/-- What a reader makes of a cut stream: it sees a close at a boundary and
inside a prefix, and an error inside a payload. -/
theorem yields_cut (hlaw : format.Lawful) {ms : List T} (hms : ∀ m ∈ ms, Sendable format m) {k : Nat}
    (hk : k ≤ (ms.flatMap (output format)).length) {s : Source} (hs : Unbroken s)
    (hc : content s = (ms.flatMap (output format)).take k) :
    (Yields format s (wholeBefore format ms k) .closed ∧ (AtBoundary format ms k ∨ InPrefix format ms k)) ∨
      (Yields format s (wholeBefore format ms k) (.io .unexpectedEof) ∧
        ¬ AtBoundary format ms k ∧ ¬ InPrefix format ms k) := by
  induction ms generalizing k s with
  | nil =>
    obtain rfl : k = 0 := by simpa using hk
    refine .inl ⟨.stop (readFrame_short hs ?_), .inl ⟨0, Nat.le_refl _, rfl⟩⟩
    rw [hc]
    exact Nat.zero_lt_succ _
  | cons m ms ih =>
    obtain ⟨b, hb, hlen⟩ := hms m List.mem_cons_self
    have hout : output format m = framed b := output_eq hb hlen
    rw [List.flatMap_cons] at hk hc
    rw [atBoundary_cons, inPrefix_cons]
    unfold wholeBefore
    by_cases hwhole : (output format m).length ≤ k
    · -- The first frame is there, and the cut is behind it.
      rw [if_pos hwhole]
      rw [List.take_append, List.take_of_length_le hwhole, hout] at hc
      obtain ⟨hm, hrest, hu⟩ := readFrame_whole hs hc hlen (hlaw m b hb)
      rw [← hout] at hrest
      rw [List.length_append] at hk
      have hpos : k ≠ 0 ∧ ¬ (0 < k ∧ k < lenPrefixLen) := by
        rw [hout, length_framed] at hwhole
        unfold lenPrefixLen at hwhole ⊢
        omega
      rcases ih (fun m' hm' => hms m' (List.mem_cons_of_mem _ hm')) (by omega) hu hrest with ⟨hy, hb | hp⟩ |
        ⟨hy, hb, hp⟩
      · exact .inl ⟨.next hm hy, .inl (.inr ⟨hwhole, hb⟩)⟩
      · exact .inl ⟨.next hm hy, .inr (.inr ⟨hwhole, hp⟩)⟩
      · refine .inr ⟨.next hm hy, ?_, ?_⟩
        · rintro (h0 | ⟨-, h⟩)
          · exact hpos.1 h0
          · exact hb h
        · rintro (h0 | ⟨-, h⟩)
          · exact hpos.2 h0
          · exact hp h
    · rw [if_neg hwhole]
      have hlt : k < (output format m).length := by omega
      rw [List.take_append_of_le_length (by omega)] at hc
      rcases Nat.lt_or_ge k lenPrefixLen with hshort | hlong
      · refine .inl ⟨.stop (readFrame_short hs ?_), ?_⟩
        · rw [hc, List.length_take]
          omega
        · rcases Nat.eq_zero_or_pos k with h0 | hpos
          · exact .inl (.inl h0)
          · exact .inr (.inl ⟨hpos, hshort⟩)
      · rw [hout] at hc hlt
        refine .inr ⟨.stop (readFrame_cut hs hc hlen hlong hlt), ?_, ?_⟩
        · rintro (h0 | ⟨h, -⟩)
          · unfold lenPrefixLen at hlong
            omega
          · exact hwhole h
        · rintro (h0 | ⟨h, -⟩)
          · omega
          · exact hwhole h

variable (format) in
/-- A cut stream gives the messages before the cut, then a clean close just
when the cut is at a boundary, and an error of the stream otherwise. -/
def ToldApart (ms : List T) (k : Nat) (s : Source) : Prop :=
  ∃ e, Yields format s (wholeBefore format ms k) e ∧ (e = .closed ↔ AtBoundary format ms k) ∧
    (¬ AtBoundary format ms k → ∃ io, e = .io io)

theorem not_atBoundary_of_inPrefix {ms : List T} (hms : ∀ m ∈ ms, Sendable format m) {k : Nat}
    (h : InPrefix format ms k) : ¬ AtBoundary format ms k := by
  induction ms generalizing k with
  | nil =>
    obtain ⟨j, hj, -⟩ := h
    exact absurd hj (Nat.not_lt_zero j)
  | cons m ms ih =>
    obtain ⟨b, hb, hlen⟩ := hms m List.mem_cons_self
    have hout : (output format m).length = lenPrefixLen + b.length := by rw [output_eq hb hlen, length_framed]
    rw [inPrefix_cons] at h
    rw [atBoundary_cons]
    rcases h with ⟨hpos, hlt⟩ | ⟨hle, h⟩
    · rintro (h0 | ⟨hle, -⟩) <;> omega
    · rintro (h0 | ⟨-, hb⟩)
      · unfold lenPrefixLen at hout
        omega
      · exact ih (fun m' hm' => hms m' (List.mem_cons_of_mem _ hm')) h hb

/-- Truncation is told apart from a clean close unless the cut falls into a prefix. -/
theorem toldApart_iff (hlaw : format.Lawful) {ms : List T} (hms : ∀ m ∈ ms, Sendable format m) {k : Nat}
    (hk : k ≤ (ms.flatMap (output format)).length) {s : Source} (hs : Unbroken s)
    (hc : content s = (ms.flatMap (output format)).take k) :
    ToldApart format ms k s ↔ ¬ InPrefix format ms k := by
  constructor
  · rintro ⟨e, hy, hclosed, -⟩ hp
    have hb := not_atBoundary_of_inPrefix hms hp
    rcases yields_cut hlaw hms hk hs hc with ⟨hy', -⟩ | ⟨-, -, hn⟩
    · exact hb (hclosed.mp (hy.unique hy').2)
    · exact hn hp
  · intro hp
    rcases yields_cut hlaw hms hk hs hc with ⟨hy, hb | hp'⟩ | ⟨hy, hb, -⟩
    · exact ⟨_, hy, ⟨fun _ => hb, fun _ => rfl⟩, fun hn => absurd hb hn⟩
    · exact absurd hp' hp
    · exact ⟨_, hy, ⟨fun h => (nomatch h), fun h => absurd h hb⟩, fun _ => ⟨_, rfl⟩⟩

end

/-! ## Bytes as messages -/

/-- `u8` in the message format: itself. What follows it is not looked at. -/
def byteFormat : Format UInt8 Unit where
  toStdvec b := .ok [b]
  fromBytes
    | b :: _ => .ok b
    | [] => .error ()

theorem byteFormat_lawful : byteFormat.Lawful := by
  intro m b h
  cases h
  rfl

theorem sendable_byte (m : UInt8) : Sendable byteFormat m := ⟨[m], rfl, (by decide : 1 ≤ maxFrameLen)⟩

/-- Two messages in three pieces. -/
theorem frames_roundtrip_pieces :
    Yields byteFormat [.bytes 1 [0, 0], .bytes 0 [7, 1, 0], .bytes 0 [0, 8]] [7, 8] .closed ∧
      ∀ ms e, Yields byteFormat [.bytes 1 [0, 0], .bytes 0 [7, 1, 0], .bytes 0 [0, 8]] ms e →
        ms = [7, 8] ∧ e = .closed := by
  have h := (frames_roundtrip (W := Unit) byteFormat_lawful).1 [7, 8]
      [.bytes 1 [0, 0], .bytes 0 [7, 1, 0], .bytes 0 [0, 8]]
    (fun m _ => sendable_byte m) (by unfold Unbroken; simp) (by decide)
  exact ⟨(h _ _).mpr ⟨rfl, rfl⟩, fun ms e => (h ms e).mp⟩

/-- Half a payload. -/
theorem toldApart_iff_payload :
    ToldApart byteFormat [7] 4 [.bytes 1 [0, 0, 0]] ↔ ¬ InPrefix byteFormat [7] 4 :=
  toldApart_iff byteFormat_lawful (fun m _ => sendable_byte m) (by decide) (by unfold Unbroken; simp) (by decide)

/-- Half a prefix looks like a clean close. -/
theorem half_prefix_closes : ¬ ToldApart byteFormat [7] 2 [.bytes 1 [0]] := by
  rintro ⟨e, hy, hclosed, -⟩
  have hshort : Yields byteFormat [.bytes 1 [0]] [] .closed := .stop rfl
  obtain ⟨j, hj, hstart⟩ := hclosed.mp (hy.unique hshort).2
  have hends : ∀ j ≤ [(7 : UInt8)].length, 2 ≠ frameStart byteFormat [7] j := by decide
  exact hends j hj hstart

end PickleChat
