import PickleChat.Lib.Keyed
import PickleChat.Lib.Run
import Mathlib.Algebra.Order.Group.Int

/-!
# The jitter buffer

`pickle-audio/src/jitter.rs`. Payloads are never looked at, so their type is
left open. Extended sequence numbers are `i64` in the source and integers
here: `extended_le` bounds them by the number of pushes since the last reset,
and it takes more than `2 ^ 32` of those to leave the range of an `i64`.
-/

namespace PickleChat

open Keyed

inductive JitterOutput (β : Type)
  | frame (payload : β)
  | lost
  deriving DecidableEq

structure JitterStats where
  received : Nat
  late : Nat
  lost : Nat
  underruns : Nat
  overflows : Nat
  deriving DecidableEq

structure Anchor where
  seq : UInt32
  extended : Int
  deriving DecidableEq

structure JitterBuffer (β : Type) where
  targetFrames : Nat
  maxFrames : Nat
  packets : OrdMap Int β
  anchor : Option Anchor
  nextExtended : Option Int
  playing : Bool
  stats : JitterStats

namespace JitterBuffer
variable {β : Type}

def new (targetFrames maxFrames : Nat) : JitterBuffer β :=
  { targetFrames := max targetFrames 1
    maxFrames := max maxFrames (max targetFrames 1)
    packets := .empty
    anchor := none
    nextExtended := none
    playing := false
    stats := ⟨0, 0, 0, 0, 0⟩ }

/-- The extended number of a wire sequence number, and the buffer with its anchor moved there. -/
def extend (b : JitterBuffer β) (seq : UInt32) : Int × JitterBuffer β :=
  let extended :=
    match b.anchor with
    | none => 0
    | some anchor => anchor.extended + (seq - anchor.seq).toInt32.toInt
  (extended, { b with anchor := some ⟨seq, extended⟩ })

def reset (b : JitterBuffer β) : JitterBuffer β :=
  { b with packets := .empty, anchor := none, nextExtended := none, playing := false }

/-- The body of the `while` loop of `push`. -/
def dropOldest (oldest : Int) (b : JitterBuffer β) : JitterBuffer β :=
  { b with
    packets := b.packets.remove oldest
    stats := { b.stats with overflows := b.stats.overflows + 1 }
    nextExtended := b.nextExtended.map fun next => if next ≤ oldest then oldest + 1 else next }

/-- The `while` loop; every round takes a frame out, so their number bounds the rounds. -/
def trim : Nat → JitterBuffer β → JitterBuffer β
  | 0, b => b
  | n + 1, b =>
    if b.maxFrames < b.packets.size then
      match b.packets.firstKey with
      | none => b
      | some oldest => trim n (b.dropOldest oldest)
    else b

/-- `push` from where the extended sequence number is known. -/
def place (b : JitterBuffer β) (extended : Int) (payload : β) : JitterBuffer β :=
  if ∃ next ∈ b.nextExtended, extended < next then
    { b with stats := { b.stats with late := b.stats.late + 1 } }
  else
    let packets := b.packets.insert extended payload
    trim packets.size { b with packets }

def count (b : JitterBuffer β) : JitterBuffer β :=
  { b with stats := { b.stats with received := b.stats.received + 1 } }

def push (b : JitterBuffer β) (seq : UInt32) (payload : β) : JitterBuffer β :=
  let (extended, b) := b.count.extend seq
  b.place extended payload

/-- `pop` from where playback has, or has not, been started. -/
def take (b : JitterBuffer β) : Option (JitterOutput β) × JitterBuffer β :=
  match b.nextExtended with
  | none => (none, b)
  | some next =>
    match b.packets.get next with
    | some payload =>
      (some (.frame payload), { b with packets := b.packets.remove next, nextExtended := some (next + 1) })
    | none =>
      if b.packets.size = 0 then
        (none, { b with
          stats := { b.stats with underruns := b.stats.underruns + 1 }, playing := false, nextExtended := none })
      else
        (some .lost, { b with stats := { b.stats with lost := b.stats.lost + 1 }, nextExtended := some (next + 1) })

def pop (b : JitterBuffer β) : Option (JitterOutput β) × JitterBuffer β :=
  if b.playing then b.take
  else if b.packets.size < b.targetFrames then (none, b)
  else { b with playing := true, nextExtended := b.packets.firstKey }.take

end JitterBuffer

/-! ## Runs

A run is a list of operations. The same operations drive the buffer of the
source, which is given `u32` numbers, and an ideal one, which is given the true
numbers and files each frame under its own. -/

inductive JitterOp (σ β : Type)
  | push (seq : σ) (payload : β)
  | pop
  | reset

def JitterOp.mapSeq {σ τ β : Type} (f : σ → τ) : JitterOp σ β → JitterOp τ β
  | push seq payload => push (f seq) payload
  | pop => pop
  | reset => reset

namespace JitterBuffer
variable {β σ : Type}

/-- The true number as it travels. -/
def wire (t : Int) : UInt32 := UInt32.ofBitVec (BitVec.ofInt 32 t)

def idealPush (b : JitterBuffer β) (t : Int) (payload : β) : JitterBuffer β := b.count.place t payload

def step (push : JitterBuffer β → σ → β → JitterBuffer β) (b : JitterBuffer β) :
    JitterOp σ β → Option (JitterOutput β) × JitterBuffer β
  | .push seq payload => (none, push b seq payload)
  | .pop => b.pop
  | .reset => (none, b.reset)

/-- What can be seen of a run: the output of every operation and the stats after it. -/
def observe (push : JitterBuffer β → σ → β → JitterBuffer β) (b : JitterBuffer β) :
    List (JitterOp σ β) → List (Option (JitterOutput β) × JitterStats)
  | [] => []
  | op :: ops => ((b.step push op).1, (b.step push op).2.stats) :: (b.step push op).2.observe push ops

/-- Between resets, each push is less than `2 ^ 31` away from the one before it. -/
def Near : Option Int → List (JitterOp Int β) → Prop
  | _, [] => True
  | last, .push t _ :: ops => (∀ p ∈ last, -2 ^ 31 < t - p ∧ t - p < 2 ^ 31) ∧ Near (some t) ops
  | last, .pop :: ops => Near last ops
  | _, .reset :: ops => Near none ops

/-! ## Shifting every number of a buffer -/

def shift (o : Int) (b : JitterBuffer β) : JitterBuffer β :=
  { b with
    packets := b.packets.mapKeys (f := (· + o)) (fun _ _ h => Int.add_lt_add_right h o)
    nextExtended := b.nextExtended.map (· + o)
    anchor := none }

@[simp] theorem shift_maxFrames (o : Int) (b : JitterBuffer β) : (b.shift o).maxFrames = b.maxFrames := rfl
@[simp] theorem shift_stats (o : Int) (b : JitterBuffer β) : (b.shift o).stats = b.stats := rfl
@[simp] theorem shift_size (o : Int) (b : JitterBuffer β) : (b.shift o).packets.size = b.packets.size :=
  OrdMap.size_mapKeys _ _

theorem shift_firstKey (o : Int) (b : JitterBuffer β) :
    (b.shift o).packets.firstKey = b.packets.firstKey.map (· + o) :=
  OrdMap.firstKey_mapKeys _ _

theorem shift_get (o : Int) (b : JitterBuffer β) (k : Int) : (b.shift o).packets.get (k + o) = b.packets.get k :=
  OrdMap.get_mapKeys (fun _ _ h => Int.add_lt_add_right h o) b.packets k

theorem shift_remove (o : Int) (b : JitterBuffer β) (k : Int) :
    (b.shift o).packets.remove (k + o) = ({ b with packets := b.packets.remove k }.shift o).packets :=
  OrdMap.remove_mapKeys (fun _ _ h => Int.add_lt_add_right h o) b.packets k

theorem shift_insert (o : Int) (b : JitterBuffer β) (k : Int) (p : β) :
    (b.shift o).packets.insert (k + o) p = ({ b with packets := b.packets.insert k p }.shift o).packets :=
  OrdMap.insert_mapKeys (fun _ _ h => Int.add_lt_add_right h o) b.packets k p

theorem dropOldest_shift (o oldest : Int) (b : JitterBuffer β) :
    (b.shift o).dropOldest (oldest + o) = (b.dropOldest oldest).shift o := by
  have hnext : (b.shift o).nextExtended.map (fun next => if next ≤ oldest + o then oldest + o + 1 else next) =
      (b.dropOldest oldest).nextExtended.map (· + o) := by
    cases hn : b.nextExtended with
    | none => simp [shift, dropOldest, hn]
    | some next =>
      by_cases h : next ≤ oldest
      · simp [shift, dropOldest, hn, h]; omega
      · simp [shift, dropOldest, hn, h]
  simp only [dropOldest, hnext, shift_remove]
  rfl

theorem trim_shift (o : Int) (n : Nat) (b : JitterBuffer β) : (b.shift o).trim n = (b.trim n).shift o := by
  induction n generalizing b with
  | zero => rfl
  | succ n ih =>
    rw [trim, trim, shift_maxFrames, shift_size, shift_firstKey]
    by_cases h : b.maxFrames < b.packets.size
    · rw [if_pos h, if_pos h]
      cases hf : b.packets.firstKey with
      | none => rfl
      | some oldest =>
        simp only [Option.map_some]
        rw [dropOldest_shift, ih]
    · rw [if_neg h, if_neg h]

theorem place_shift (o e : Int) (b : JitterBuffer β) (p : β) :
    (b.shift o).place (e + o) p = (b.place e p).shift o := by
  have hlate : (∃ next ∈ (b.shift o).nextExtended, e + o < next) ↔ ∃ next ∈ b.nextExtended, e < next := by
    simp [shift]
  unfold place
  by_cases h : ∃ next ∈ b.nextExtended, e < next
  · rw [if_pos h, if_pos (hlate.mpr h)]
    rfl
  · rw [if_neg h, if_neg (fun hl => h (hlate.mp hl))]
    simp only [shift_insert, shift_size]
    exact trim_shift o _ { b with packets := b.packets.insert e p }

theorem take_shift (o : Int) (b : JitterBuffer β) : (b.shift o).take = (b.take.1, b.take.2.shift o) := by
  unfold take
  cases hn : b.nextExtended with
  | none => simp [shift, hn]
  | some next =>
    have hs : (b.shift o).nextExtended = some (next + o) := by simp [shift, hn]
    simp only [hs, shift_get, shift_remove, shift_size]
    cases hg : b.packets.get next with
    | some p => simp [shift]; omega
    | none =>
      by_cases h0 : b.packets.size = 0
      · simp [h0, shift]
      · simp [h0, shift]; omega

theorem pop_shift (o : Int) (b : JitterBuffer β) : (b.shift o).pop = (b.pop.1, b.pop.2.shift o) := by
  unfold pop
  by_cases hp : b.playing
  · have : (b.shift o).playing := hp
    rw [if_pos hp, if_pos this]
    exact take_shift o b
  · have hp' : ¬ (b.shift o).playing := hp
    rw [if_neg hp, if_neg hp', shift_size, shift_firstKey]
    by_cases hl : b.packets.size < b.targetFrames
    · have hl' : b.packets.size < (b.shift o).targetFrames := hl
      rw [if_pos hl, if_pos hl']
    · have hl' : ¬ b.packets.size < (b.shift o).targetFrames := hl
      rw [if_neg hl, if_neg hl']
      exact take_shift o { b with playing := true, nextExtended := b.packets.firstKey }

/-! ## What each operation does to the anchor -/

theorem trim_anchor (n : Nat) (b : JitterBuffer β) (a : Option Anchor) :
    { b with anchor := a }.trim n = { b.trim n with anchor := a } := by
  induction n generalizing b with
  | zero => rfl
  | succ n ih =>
    rw [trim, trim]
    by_cases h : b.maxFrames < b.packets.size
    · rw [if_pos h, if_pos h]
      cases hf : b.packets.firstKey with
      | none => rfl
      | some oldest => exact ih (b.dropOldest oldest)
    · rw [if_neg h, if_neg h]

theorem place_anchor (b : JitterBuffer β) (a : Option Anchor) (e : Int) (p : β) :
    { b with anchor := a }.place e p = { b.place e p with anchor := a } := by
  unfold place
  by_cases h : ∃ next ∈ b.nextExtended, e < next
  · rw [if_pos h, if_pos h]
  · rw [if_neg h, if_neg h]
    exact trim_anchor _ { b with packets := b.packets.insert e p } a

theorem take_anchor (b : JitterBuffer β) (a : Option Anchor) :
    { b with anchor := a }.take = (b.take.1, { b.take.2 with anchor := a }) := by
  unfold take
  cases hn : b.nextExtended with
  | none => simp only [hn]
  | some next =>
    cases hg : b.packets.get next with
    | some p => simp only [hg]
    | none =>
      by_cases h0 : b.packets.size = 0
      · simp only [hg, h0, if_true]
      · simp only [hg, h0, if_false]

theorem pop_anchor (b : JitterBuffer β) (a : Option Anchor) :
    { b with anchor := a }.pop = (b.pop.1, { b.pop.2 with anchor := a }) := by
  unfold pop
  by_cases hp : b.playing
  · rw [if_pos hp, if_pos hp]
    exact take_anchor b a
  · rw [if_neg hp, if_neg hp]
    by_cases hl : b.packets.size < b.targetFrames
    · rw [if_pos hl, if_pos hl]
    · rw [if_neg hl, if_neg hl]
      exact take_anchor { b with playing := true, nextExtended := b.packets.firstKey } a

theorem anchor_pop (b : JitterBuffer β) : b.pop.2.anchor = b.anchor := congrArg (·.2.anchor) (pop_anchor b b.anchor)

/-- `push` with the number it gives the frame written out. -/
theorem push_eq (b : JitterBuffer β) (seq : UInt32) (p : β) :
    b.push seq p = { b.count.place (b.extend seq).1 p with anchor := some ⟨seq, (b.extend seq).1⟩ } :=
  place_anchor b.count _ _ p

theorem extend_fst (b : JitterBuffer β) (seq : UInt32) :
    (b.extend seq).1 = match b.anchor with
      | none => 0
      | some a => a.extended + (seq - a.seq).toInt32.toInt := rfl

theorem pop_of_empty {b : JitterBuffer β} (hp : b.packets = .empty) (hn : b.nextExtended = none) :
    b.pop.1 = none ∧ b.pop.2.packets = .empty ∧ b.pop.2.nextExtended = none := by
  have hfirst : b.packets.firstKey = none := by rw [hp]; rfl
  unfold pop
  by_cases hb : b.playing
  · rw [if_pos hb]
    simp [take, hn, hp]
  · rw [if_neg hb]
    by_cases hl : b.packets.size < b.targetFrames
    · rw [if_pos hl]
      exact ⟨rfl, hp, hn⟩
    · rw [if_neg hl, hfirst]
      exact ⟨rfl, hp, rfl⟩

/-! ## The simulation -/

theorem wire_sub {t p : Int} (h : -2 ^ 31 < t - p ∧ t - p < 2 ^ 31) : (wire t - wire p).toInt32.toInt = t - p := by
  have hb : (wire t - wire p).toInt32.toInt = (BitVec.ofInt 32 t - BitVec.ofInt 32 p).toInt := rfl
  rw [hb, BitVec.toInt_sub, BitVec.toInt_ofInt, BitVec.toInt_ofInt, Int.bmod_sub_bmod, Int.sub_bmod_bmod]
  apply Int.bmod_eq_of_le
  · omega
  · omega

/-- The ideal buffer is the real one with every number shifted by the true number of the first push;
`last` is the true number of the latest push. -/
structure Simulates (b : JitterBuffer β) (last : Option Int) (i : JitterBuffer β) : Prop where
  idle : b.anchor = none → b.packets = .empty ∧ b.nextExtended = none ∧ last = none
  shifted : ∃ o, i = b.shift o ∧ ∀ a ∈ b.anchor, last = some (a.extended + o) ∧ a.seq = wire (a.extended + o)

variable {b i : JitterBuffer β} {last : Option Int}

theorem shift_of_idle (hp : b.packets = .empty) (hn : b.nextExtended = none) (o o' : Int) :
    b.shift o = b.shift o' := by
  simp only [shift, hp, hn, Option.map_none]
  rfl

theorem Simulates.push (h : Simulates b last i) {t : Int} (p : β)
    (near : ∀ q ∈ last, -2 ^ 31 < t - q ∧ t - q < 2 ^ 31) :
    Simulates (b.push (wire t) p) (some t) (i.idealPush t p) := by
  -- the frame's number is the true one, less the offset
  have key : ∃ o, i = b.shift o ∧ (b.extend (wire t)).1 + o = t := by
    obtain ⟨o, rfl, hanchor⟩ := h.shifted
    rw [extend_fst]
    cases ha : b.anchor with
    | none =>
      obtain ⟨hp, hn, -⟩ := h.idle ha
      exact ⟨t, shift_of_idle hp hn o t, by simp⟩
    | some a =>
      obtain ⟨hlast, hseq⟩ := hanchor a ha
      have hd := wire_sub (near _ hlast)
      refine ⟨o, rfl, ?_⟩
      simp only [hseq, hd]
      omega
  obtain ⟨o, rfl, ho⟩ := key
  rw [push_eq]
  refine ⟨by simp, o, ?_, by simp [ho]⟩
  have hplace := place_shift o (b.extend (wire t)).1 b.count p
  rw [ho] at hplace
  exact hplace

theorem Simulates.pop (h : Simulates b last i) : i.pop.1 = b.pop.1 ∧ Simulates b.pop.2 last i.pop.2 := by
  obtain ⟨o, rfl, ho⟩ := h.shifted
  rw [pop_shift]
  refine ⟨rfl, fun hn => ?_, o, rfl, by rw [anchor_pop]; exact ho⟩
  obtain ⟨hp, hnext, hlast⟩ := h.idle (anchor_pop b ▸ hn)
  obtain ⟨-, hp', hn'⟩ := pop_of_empty hp hnext
  exact ⟨hp', hn', hlast⟩

theorem Simulates.reset (h : Simulates b last i) : Simulates b.reset none i.reset := by
  obtain ⟨o, rfl, -⟩ := h.shifted
  exact ⟨fun _ => ⟨rfl, rfl, rfl⟩, o, rfl, by simp [JitterBuffer.reset]⟩

theorem Simulates.stats (h : Simulates b last i) : i.stats = b.stats := by
  obtain ⟨o, rfl, -⟩ := h.shifted
  rfl

theorem Simulates.observe {ops : List (JitterOp Int β)} (h : Simulates b last i) (near : Near last ops) :
    b.observe JitterBuffer.push (ops.map (JitterOp.mapSeq wire)) = i.observe idealPush ops := by
  induction ops generalizing b i last with
  | nil => rfl
  | cons op ops ih =>
    cases op with
    | push t p =>
      have h' := h.push p near.1
      exact congrArg₂ _ (congrArg (none, ·) h'.stats.symm) (ih h' near.2)
    | pop =>
      obtain ⟨hout, h'⟩ := h.pop
      exact congrArg₂ _ (congrArg₂ Prod.mk hout.symm h'.stats.symm) (ih h' near)
    | reset =>
      have h' := h.reset
      exact congrArg₂ _ (congrArg (none, ·) h'.stats.symm) (ih h' near)

theorem simulates_new (target max : Nat) :
    Simulates (new target max : JitterBuffer β) none (new target max) :=
  ⟨fun _ => ⟨rfl, rfl, rfl⟩, 0, rfl, by simp [new]⟩

/-! ## Adding a constant on the wire -/

def rebase (c : UInt32) (b : JitterBuffer β) : JitterBuffer β :=
  { b with anchor := b.anchor.map fun a => { a with seq := a.seq + c } }

theorem extend_rebase (c seq : UInt32) (b : JitterBuffer β) : ((b.rebase c).extend (seq + c)).1 = (b.extend seq).1 := by
  rw [extend_fst, extend_fst]
  cases ha : b.anchor with
  | none => simp [rebase, ha]
  | some a =>
    have hsub : seq + c - (a.seq + c) = seq - a.seq := by grind
    simp only [rebase, ha, Option.map_some, hsub]

theorem push_rebase (c seq : UInt32) (b : JitterBuffer β) (p : β) :
    (b.rebase c).push (seq + c) p = (b.push seq p).rebase c := by
  rw [push_eq, push_eq, extend_rebase]
  exact congrArg (fun x : JitterBuffer β => { x with anchor := some ⟨seq + c, (b.extend seq).1⟩ })
    (place_anchor b.count _ _ p)

theorem pop_rebase (c : UInt32) (b : JitterBuffer β) : (b.rebase c).pop = (b.pop.1, b.pop.2.rebase c) := by
  unfold rebase
  rw [pop_anchor, anchor_pop]

theorem observe_rebase (c : UInt32) (b : JitterBuffer β) (ops : List (JitterOp UInt32 β)) :
    (b.rebase c).observe push (ops.map (JitterOp.mapSeq (· + c))) = b.observe push ops := by
  induction ops generalizing b with
  | nil => rfl
  | cons op ops ih =>
    cases op with
    | push seq p =>
      simp only [List.map_cons, JitterOp.mapSeq, observe, step, push_rebase, ih]
      rfl
    | pop =>
      simp only [List.map_cons, JitterOp.mapSeq, observe, step, pop_rebase, ih]
      rfl
    | reset => exact congrArg _ (ih b.reset)

/-- Given only the true sequence numbers modulo `2 ^ 32`, the buffer behaves as the ideal one given the
numbers themselves; and what the numbers on the wire start from does not matter. -/
theorem extension_simulates_integers (target max : Nat) (ops : List (JitterOp Int β)) (near : Near none ops) :
    (new target max).observe push (ops.map (JitterOp.mapSeq wire)) = (new target max).observe idealPush ops ∧
      ∀ c : UInt32, (new target max).observe push ((ops.map (JitterOp.mapSeq wire)).map (JitterOp.mapSeq (· + c))) =
        (new target max).observe push (ops.map (JitterOp.mapSeq wire)) :=
  ⟨(simulates_new target max).observe near, fun c => observe_rebase c (new target max) _⟩

theorem extension_simulates_integers_wrap :
    (new 1 2).observe push ([.push (2 ^ 32 - 1) 'a', .push (2 ^ 32) 'b', .pop, .pop].map (JitterOp.mapSeq wire)) =
      (new 1 2).observe idealPush [.push (2 ^ 32 - 1) 'a', .push (2 ^ 32) 'b', .pop, .pop] :=
  (extension_simulates_integers 1 2 _ (by simp [Near])).1

/-! ## What `push` and `pop` leave -/

def Ahead (b : JitterBuffer β) : Prop := ∀ next ∈ b.nextExtended, ∀ e ∈ b.packets.entries, next ≤ e.1

theorem firstKey_lt {m : OrdMap Int β} {k : Int} (hk : m.firstKey = some k) {e : Int × β}
    (he : e ∈ (m.remove k).entries) : k < e.1 := by
  obtain ⟨hmem, hne⟩ := OrdMap.mem_remove.mp he
  obtain ⟨x, hx, rfl⟩ := Option.map_eq_some_iff.mp hk
  obtain ⟨rest, hrest⟩ : ∃ rest, m.entries = x :: rest := by
    cases hm : m.entries with
    | nil => simp [hm] at hx
    | cons y rest => exact ⟨rest, by simpa [hm] using hx⟩
  rw [hrest] at hmem
  rcases List.mem_cons.mp hmem with rfl | hmem
  · exact absurd rfl hne
  · have hsorted := m.sorted
    rw [hrest] at hsorted
    exact (List.pairwise_cons.mp hsorted).1 e hmem

/-- What the loop may change: frames leave, and the next slot moves to just behind one that left. -/
structure Trimmed (b b' : JitterBuffer β) : Prop where
  entries : ∀ e ∈ b'.packets.entries, e ∈ b.packets.entries
  idle : b.nextExtended = none → b'.nextExtended = none
  next : ∀ next' ∈ b'.nextExtended, ∃ next ∈ b.nextExtended,
    next ≤ next' ∧ (next' = next ∨ ∃ e ∈ b.packets.entries, next' = e.1 + 1)
  playing : b'.playing = b.playing
  ahead : b.Ahead → b'.Ahead

theorem Trimmed.refl (b : JitterBuffer β) : Trimmed b b :=
  ⟨fun _ h => h, fun h => h, fun next h => ⟨next, h, le_refl _, .inl rfl⟩, rfl, fun h => h⟩

theorem trimmed_dropOldest {b : JitterBuffer β} {oldest : Int} (h : b.packets.firstKey = some oldest) :
    Trimmed b (b.dropOldest oldest) where
  entries _ he := (OrdMap.mem_remove.mp he).1
  idle h := by simp [dropOldest, h]
  next next' hn := by
    obtain ⟨next, hb, rfl⟩ := Option.map_eq_some_iff.mp hn
    refine ⟨next, hb, ?_⟩
    by_cases hle : next ≤ oldest
    · obtain ⟨p, hp⟩ := OrdMap.mem_of_firstKey h
      rw [if_pos hle]
      exact ⟨by omega, .inr ⟨(oldest, p), hp, rfl⟩⟩
    · rw [if_neg hle]
      exact ⟨le_refl _, .inl rfl⟩
  playing := rfl
  ahead ha next' hn e he := by
    obtain ⟨next, hb, rfl⟩ := Option.map_eq_some_iff.mp hn
    have hlt : oldest < e.1 := firstKey_lt h he
    have hle := ha next hb e (OrdMap.mem_remove.mp he).1
    split
    · omega
    · exact hle

theorem Trimmed.trans {b b' b'' : JitterBuffer β} (h : Trimmed b b') (h' : Trimmed b' b'') : Trimmed b b'' where
  entries e he := h.entries e (h'.entries e he)
  idle hn := h'.idle (h.idle hn)
  next n hn := by
    obtain ⟨n', hn', hle', hor'⟩ := h'.next n hn
    obtain ⟨n'', hn'', hle, hor⟩ := h.next n' hn'
    refine ⟨n'', hn'', by omega, ?_⟩
    rcases hor' with rfl | ⟨e, he, rfl⟩
    · exact hor
    · exact .inr ⟨e, h.entries e he, rfl⟩
  playing := h'.playing.trans h.playing
  ahead ha := h'.ahead (h.ahead ha)

theorem trimmed_trim (n : Nat) (b : JitterBuffer β) : Trimmed b (b.trim n) := by
  induction n generalizing b with
  | zero => exact .refl b
  | succ n ih =>
    rw [trim]
    by_cases h : b.maxFrames < b.packets.size
    · rw [if_pos h]
      cases hf : b.packets.firstKey with
      | none => exact .refl b
      | some oldest => exact (trimmed_dropOldest hf).trans (ih _)
    · rw [if_neg h]
      exact .refl b

/-- A frame is dropped as late, or filed under its number and the backlog trimmed. -/
theorem place_cases (b : JitterBuffer β) (e : Int) (p : β) :
    (∃ next ∈ b.nextExtended, e < next ∧
        b.place e p = { b with stats := { b.stats with late := b.stats.late + 1 } }) ∨
      ((∀ next ∈ b.nextExtended, next ≤ e) ∧ Trimmed { b with packets := b.packets.insert e p } (b.place e p)) := by
  unfold place
  by_cases h : ∃ next ∈ b.nextExtended, e < next
  · rw [if_pos h]
    obtain ⟨next, hn, hlt⟩ := h
    exact .inl ⟨next, hn, hlt, rfl⟩
  · rw [if_neg h]
    refine .inr ⟨fun next hn => ?_, trimmed_trim _ _⟩
    by_contra hlt
    exact h ⟨next, hn, by omega⟩

theorem take_cases (b : JitterBuffer β) :
    (b.nextExtended = none ∧ b.take = (none, b)) ∨
    (∃ next p, b.nextExtended = some next ∧ (next, p) ∈ b.packets.entries ∧
      b.take = (some (.frame p), { b with packets := b.packets.remove next, nextExtended := some (next + 1) })) ∨
    (∃ next, b.nextExtended = some next ∧ b.packets.entries = [] ∧
      b.take = (none, { b with
        stats := { b.stats with underruns := b.stats.underruns + 1 }, playing := false, nextExtended := none })) ∨
    (∃ next, b.nextExtended = some next ∧ b.packets.get next = none ∧ b.packets.entries ≠ [] ∧
      b.take = (some .lost,
        { b with stats := { b.stats with lost := b.stats.lost + 1 }, nextExtended := some (next + 1) })) := by
  cases hn : b.nextExtended with
  | none => exact .inl ⟨rfl, by simp only [take, hn]⟩
  | some next =>
    cases hg : b.packets.get next with
    | some p => exact .inr (.inl ⟨next, p, rfl, OrdMap.mem_of_get hg, by simp only [take, hn, hg]⟩)
    | none =>
      by_cases h0 : b.packets.size = 0
      · refine .inr (.inr (.inl ⟨next, rfl, List.length_eq_zero_iff.mp h0, ?_⟩))
        simp only [take, hn, hg, h0, if_true]
      · refine .inr (.inr (.inr ⟨next, rfl, hg, fun h => h0 (List.length_eq_zero_iff.mpr h), ?_⟩))
        simp only [take, hn, hg, h0, if_false]

/-- `pop` waits for the backlog, or takes from a buffer that plays or has just been started. -/
theorem pop_cases (b : JitterBuffer β) :
    (b.playing = true ∧ b.pop = b.take) ∨
    (b.playing = false ∧ b.packets.size < b.targetFrames ∧ b.pop = (none, b)) ∨
    (b.playing = false ∧ b.targetFrames ≤ b.packets.size ∧
      b.pop = { b with playing := true, nextExtended := b.packets.firstKey }.take) := by
  unfold pop
  cases hp : b.playing with
  | true => exact .inl ⟨rfl, by simp⟩
  | false =>
    by_cases hl : b.packets.size < b.targetFrames
    · exact .inr (.inl ⟨rfl, hl, by simp [hl]⟩)
    · exact .inr (.inr ⟨rfl, by omega, by simp [hl]⟩)

/-! ## No held frame falls behind -/

theorem Ahead.lt {b : JitterBuffer β} (h : b.Ahead) {next : Int} (hn : b.nextExtended = some next)
    (hg : b.packets.get next = none) {e : Int × β} (he : e ∈ b.packets.entries) : next < e.1 := by
  have hle := h next hn e he
  have hne : next ≠ e.1 := by
    rintro rfl
    exact Keyed.get_eq_none.mp (Option.map_eq_none_iff.mp hg) e he rfl
  omega

/-- A frame in the next slot is the first one held. -/
theorem Ahead.first {b : JitterBuffer β} (h : b.Ahead) {next : Int} (hn : b.nextExtended = some next) {p : β}
    (hp : (next, p) ∈ b.packets.entries) : ∃ l, b.packets.entries = (next, p) :: l := by
  have hsorted := b.packets.sorted
  cases hl : b.packets.entries with
  | nil => rw [hl] at hp; cases hp
  | cons e l =>
    rw [hl] at hp hsorted
    rcases List.mem_cons.mp hp with rfl | hp
    · exact ⟨l, rfl⟩
    · have hlt := (List.pairwise_cons.mp hsorted).1 _ hp
      have hle := h next hn e (hl ▸ List.mem_cons_self)
      simp only at hlt
      omega

theorem Ahead.take {b : JitterBuffer β} (h : b.Ahead) : b.take.2.Ahead := by
  rcases take_cases b with ⟨hn, heq⟩ | ⟨next, p, hn, hmem, heq⟩ | ⟨next, hn, hnil, heq⟩ | ⟨next, hn, hg, hne, heq⟩
  · rw [heq]
    exact h
  · rw [heq]
    intro next' hn' e he
    obtain rfl := Option.some.inj hn'
    obtain ⟨hmem', hne⟩ := OrdMap.mem_remove.mp he
    have := h next hn e hmem'
    omega
  · rw [heq]
    simp [Ahead]
  · rw [heq]
    intro next' hn' e he
    obtain rfl := Option.some.inj hn'
    have := h.lt hn hg he
    omega

theorem ahead_start (b : JitterBuffer β) : Ahead { b with playing := true, nextExtended := b.packets.firstKey } := by
  intro next hn e he
  by_cases hk : e.1 = next
  · omega
  · exact Int.le_of_lt (firstKey_lt hn (OrdMap.mem_remove.mpr ⟨he, hk⟩))

theorem Ahead.pop {b : JitterBuffer β} (h : b.Ahead) : b.pop.2.Ahead := by
  rcases pop_cases b with ⟨-, heq⟩ | ⟨-, -, heq⟩ | ⟨-, -, heq⟩
  · rw [heq]
    exact h.take
  · rw [heq]
    exact h
  · rw [heq]
    exact (ahead_start b).take

end JitterBuffer

end PickleChat
