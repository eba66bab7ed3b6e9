import PickleChat.Bursts

/-!
# Where the frames go

A frame that comes is late, dropped for want of room, played, cleared by a
reset, replaced by one of the same number, or still held; and none is played
twice.
-/

namespace PickleChat

open Keyed

/-! ## Payloads -/

def JitterOutput.map {β γ : Type} (g : β → γ) : JitterOutput β → JitterOutput γ
  | frame payload => frame (g payload)
  | lost => lost

def JitterOp.mapPayload {σ β γ : Type} (g : β → γ) : JitterOp σ β → JitterOp σ γ
  | push seq payload => push seq (g payload)
  | pop => pop
  | reset => reset

def JitterOp.pushed {σ β : Type} : JitterOp σ β → List β
  | push _ payload => [payload]
  | pop => []
  | reset => []

namespace JitterBuffer
variable {β γ : Type} (g : β → γ)

def map (b : JitterBuffer β) : JitterBuffer γ where
  targetFrames := b.targetFrames
  maxFrames := b.maxFrames
  packets := b.packets.map g
  anchor := b.anchor
  nextExtended := b.nextExtended
  playing := b.playing
  stats := b.stats

@[simp] theorem map_maxFrames (b : JitterBuffer β) : (b.map g).maxFrames = b.maxFrames := rfl
@[simp] theorem map_size (b : JitterBuffer β) : (b.map g).packets.size = b.packets.size := OrdMap.size_map g _

theorem map_firstKey (b : JitterBuffer β) : (b.map g).packets.firstKey = b.packets.firstKey := OrdMap.firstKey_map g _

theorem dropOldest_map (oldest : Int) (b : JitterBuffer β) :
    (b.map g).dropOldest oldest = (b.dropOldest oldest).map g := by
  have hpackets : (b.map g).packets.remove oldest = (b.packets.remove oldest).map g := OrdMap.remove_map g _ _
  unfold dropOldest
  rw [hpackets]
  rfl

theorem trim_map (n : Nat) (b : JitterBuffer β) : (b.map g).trim n = (b.trim n).map g := by
  induction n generalizing b with
  | zero => rfl
  | succ n ih =>
    rw [trim, trim, map_maxFrames, map_size, map_firstKey]
    by_cases h : b.maxFrames < b.packets.size
    · rw [if_pos h, if_pos h]
      cases hf : b.packets.firstKey with
      | none => rfl
      | some oldest =>
        simp only
        rw [dropOldest_map, ih]
    · rw [if_neg h, if_neg h]

theorem place_map (e : Int) (p : β) (b : JitterBuffer β) : (b.map g).place e (g p) = (b.place e p).map g := by
  unfold place
  by_cases h : ∃ next ∈ b.nextExtended, e < next
  · have h' : ∃ next ∈ (b.map g).nextExtended, e < next := h
    rw [if_pos h, if_pos h']
    rfl
  · have h' : ¬ ∃ next ∈ (b.map g).nextExtended, e < next := h
    have hpackets : (b.map g).packets.insert e (g p) = (b.packets.insert e p).map g := OrdMap.insert_map g _ _ _
    rw [if_neg h, if_neg h', hpackets]
    simp only [OrdMap.size_map]
    exact trim_map g _ { b with packets := b.packets.insert e p }

theorem push_map (seq : UInt32) (p : β) (b : JitterBuffer β) : (b.map g).push seq (g p) = (b.push seq p).map g := by
  rw [push_eq, push_eq]
  exact congrArg (fun x : JitterBuffer γ => { x with anchor := some ⟨seq, (b.extend seq).1⟩ })
    (place_map g (b.extend seq).1 p b.count)

theorem take_map (b : JitterBuffer β) : (b.map g).take = (b.take.1.map (·.map g), b.take.2.map g) := by
  have hget : ∀ k, (b.map g).packets.get k = (b.packets.get k).map g := OrdMap.get_map g _
  have hremove : ∀ k, (b.map g).packets.remove k = (b.packets.remove k).map g := OrdMap.remove_map g _
  unfold take
  cases hn : b.nextExtended with
  | none =>
    have hs : (b.map g).nextExtended = none := hn
    simp only [hs]
    rfl
  | some next =>
    have hs : (b.map g).nextExtended = some next := hn
    simp only [hs, hget, hremove, map_size]
    cases hg : b.packets.get next with
    | some p => rfl
    | none =>
      by_cases h0 : b.packets.size = 0
      · simp only [Option.map_none, h0, if_true]
        rfl
      · simp only [Option.map_none, h0, if_false]
        rfl

theorem pop_map (b : JitterBuffer β) : (b.map g).pop = (b.pop.1.map (·.map g), b.pop.2.map g) := by
  have hplaying : (b.map g).playing = b.playing := rfl
  have htarget : (b.map g).targetFrames = b.targetFrames := rfl
  unfold pop
  rw [hplaying, htarget, map_size, map_firstKey]
  by_cases hp : b.playing
  · rw [if_pos hp, if_pos hp]
    exact take_map g b
  · rw [if_neg hp, if_neg hp]
    by_cases hl : b.packets.size < b.targetFrames
    · rw [if_pos hl, if_pos hl]
      rfl
    · rw [if_neg hl, if_neg hl]
      exact take_map g { b with playing := true, nextExtended := b.packets.firstKey }

end JitterBuffer

/-! ## The accounts -/

/-- A buffer, what `pop` has returned, how many frames resets have cleared, and how many pushes have replaced a
frame of the same number. -/
structure Accounts (β : Type) where
  buffer : JitterBuffer β
  returned : List β
  cleared : Nat
  replaced : Nat

/-- A push replaces a frame where it is not late and its number is held. -/
def JitterBuffer.replaces {β : Type} (b : JitterBuffer β) (seq : UInt32) : Bool :=
  (b.packets.get (b.extend seq).1).isSome && !decide (∃ next ∈ b.nextExtended, (b.extend seq).1 < next)

namespace Accounts
variable {β γ : Type}

def exec (a : Accounts β) : JitterOp UInt32 β → Accounts β
  | .push seq payload =>
    { a with
      buffer := a.buffer.push seq payload
      replaced := a.replaced + (a.buffer.replaces seq).toNat }
  | .pop =>
    { a with
      buffer := a.buffer.pop.2
      returned := a.returned ++ a.buffer.pop.1.toList.filterMap JitterOutput.frame? }
  | .reset => { a with buffer := a.buffer.reset, cleared := a.cleared + a.buffer.packets.size }

def start (target max : Nat) : Accounts β := ⟨.new target max, [], 0, 0⟩

def run (target max : Nat) (ops : List (JitterOp UInt32 β)) : Accounts β := ops.foldl exec (start target max)

/-- Every frame that came has gone one of six ways. -/
def Balanced (a : Accounts β) : Prop :=
  a.buffer.stats.received =
    a.buffer.stats.late + a.buffer.stats.overflows + a.returned.length + a.buffer.packets.size + a.cleared + a.replaced

def kept (a : Accounts β) : List β := a.returned ++ a.buffer.packets.entries.map Prod.snd

def labelled {σ : Type} : Nat → List (JitterOp σ β) → List (JitterOp σ (Nat × β))
  | _, [] => []
  | n, op :: ops => op.mapPayload (Prod.mk n) :: labelled (n + 1) ops

end Accounts

namespace JitterBuffer
variable {β : Type}

/-! ## What each operation moves -/

theorem trim_balance (n : Nat) (b : JitterBuffer β) :
    (b.trim n).stats.overflows + (b.trim n).packets.size = b.stats.overflows + b.packets.size ∧
      (b.trim n).stats.received = b.stats.received ∧ (b.trim n).stats.late = b.stats.late := by
  induction n generalizing b with
  | zero => exact ⟨rfl, rfl, rfl⟩
  | succ n ih =>
    rw [trim]
    by_cases h : b.maxFrames < b.packets.size
    · rw [if_pos h]
      cases hf : b.packets.firstKey with
      | none => exact ⟨rfl, rfl, rfl⟩
      | some oldest =>
        obtain ⟨p, hp⟩ := OrdMap.mem_of_firstKey hf
        have hsize := OrdMap.size_of_mem hp
        obtain ⟨hmoved, hreceived, hlate⟩ := ih (b.dropOldest oldest)
        refine ⟨?_, hreceived, hlate⟩
        simp only [dropOldest] at hmoved ⊢
        omega
    · rw [if_neg h]
      exact ⟨rfl, rfl, rfl⟩

/-- A frame that is filed is one more, unless one of its number was held. -/
theorem size_insert_held (m : OrdMap Int β) (e : Int) (p : β) :
    (m.insert e p).size + (m.get e).isSome.toNat = m.size + 1 := by
  rw [OrdMap.size_insert]
  cases hg : m.get e with
  | none =>
    rw [OrdMap.remove_of_get_none hg]
    rfl
  | some q =>
    have hsize := OrdMap.size_of_mem (OrdMap.mem_of_get hg)
    simp only [Option.isSome_some, Bool.toNat_true]
    omega

theorem push_balance (b : JitterBuffer β) (seq : UInt32) (p : β) :
    (b.push seq p).stats.received = b.stats.received + 1 ∧
      (b.push seq p).stats.late + (b.push seq p).stats.overflows + (b.push seq p).packets.size +
          (b.replaces seq).toNat =
        b.stats.late + b.stats.overflows + b.packets.size + 1 := by
  rw [push_eq]
  unfold replaces
  generalize (b.extend seq).1 = e
  unfold place
  by_cases hlate : ∃ next ∈ b.nextExtended, e < next
  · have hlate' : ∃ next ∈ b.count.nextExtended, e < next := hlate
    rw [if_pos hlate']
    refine ⟨rfl, ?_⟩
    simp only [hlate, decide_true, Bool.not_true, Bool.and_false, Bool.toNat_false, count]
    omega
  · have hlate' : ¬ ∃ next ∈ b.count.nextExtended, e < next := hlate
    rw [if_neg hlate']
    have hinsert := size_insert_held b.packets e p
    obtain ⟨hmoved, hreceived, hstays⟩ :=
      trim_balance (b.packets.insert e p).size { b.count with packets := b.packets.insert e p }
    simp only [hlate, decide_false, Bool.not_false, Bool.and_true]
    refine ⟨hreceived, ?_⟩
    simp only [count] at hmoved hstays ⊢
    omega

theorem take_stats (b : JitterBuffer β) :
    b.take.2.stats.received = b.stats.received ∧ b.take.2.stats.late = b.stats.late ∧
      b.take.2.stats.overflows = b.stats.overflows := by
  rcases take_cases b with ⟨-, heq⟩ | ⟨next, p, -, hmem, heq⟩ | ⟨_, -, -, heq⟩ | ⟨_, -, -, -, heq⟩
  all_goals rw [heq]; exact ⟨rfl, rfl, rfl⟩

theorem pop_stats (b : JitterBuffer β) :
    b.pop.2.stats.received = b.stats.received ∧ b.pop.2.stats.late = b.stats.late ∧
      b.pop.2.stats.overflows = b.stats.overflows := by
  rcases pop_cases b with ⟨-, heq⟩ | ⟨-, -, heq⟩ | ⟨-, -, heq⟩
  · rw [heq]
    exact take_stats b
  · rw [heq]
    exact ⟨rfl, rfl, rfl⟩
  · rw [heq]
    exact take_stats { b with playing := true, nextExtended := b.packets.firstKey }

end JitterBuffer

namespace Accounts
variable {β γ : Type} {a : Accounts β}

/-! ## Each operation keeps the balance -/

theorem Balanced.exec (h : Balanced a) (op : JitterOp UInt32 β) : Balanced (a.exec op) := by
  unfold Balanced at h ⊢
  cases op with
  | push seq p =>
    obtain ⟨hreceived, hmoved⟩ := a.buffer.push_balance seq p
    simp only [Accounts.exec]
    omega
  | pop =>
    obtain ⟨hreceived, hlate, hoverflows⟩ := a.buffer.pop_stats
    have hsize := a.buffer.pop_size
    simp only [Accounts.exec, List.length_append]
    omega
  | reset =>
    have hempty : a.buffer.reset.packets.size = 0 := rfl
    have hstats : a.buffer.reset.stats = a.buffer.stats := rfl
    simp only [Accounts.exec, hempty, hstats]
    omega

theorem balanced_run (target max : Nat) (ops : List (JitterOp UInt32 β)) : Balanced (run target max ops) := by
  unfold run
  have hstart : Balanced (start target max : Accounts β) := rfl
  generalize (start target max : Accounts β) = a at hstart
  induction ops generalizing a with
  | nil => exact hstart
  | cons op ops ih => exact ih _ (hstart.exec op)

/-! ## No frame is played twice -/

/-- An operation brings what it pushes; nothing else is played or held after it. -/
theorem kept_exec (a : Accounts β) (op : JitterOp UInt32 β) : List.Subperm (a.exec op).kept (a.kept ++ op.pushed) := by
  cases op with
  | push seq p =>
    have hpush := a.buffer.push_subperm seq p
    have hmove : (p :: a.buffer.packets.entries.map Prod.snd).Perm
        (a.buffer.packets.entries.map Prod.snd ++ [p]) := (List.perm_append_singleton p _).symm
    unfold kept
    rw [List.append_assoc]
    exact (List.subperm_append_left a.returned).mpr (hpush.trans hmove.subperm)
  | pop =>
    have hpop := a.buffer.pop_perm
    unfold kept
    simp only [Accounts.exec, JitterOp.pushed, List.append_nil, List.append_assoc]
    exact (hpop.append_left a.returned).subperm
  | reset =>
    simp only [kept, Accounts.exec, JitterBuffer.reset, OrdMap.empty, JitterOp.pushed, List.map_nil, List.append_nil]
    exact (List.sublist_append_left _ _).subperm

theorem kept_run (a : Accounts β) (ops : List (JitterOp UInt32 β)) :
    List.Subperm (ops.foldl Accounts.exec a).kept (a.kept ++ ops.flatMap JitterOp.pushed) := by
  induction ops generalizing a with
  | nil =>
    rw [List.flatMap_nil, List.append_nil]
    exact .refl _
  | cons op ops ih =>
    rw [List.foldl_cons, List.flatMap_cons, ← List.append_assoc]
    exact (ih _).trans ((List.subperm_append_right _).mpr (kept_exec a op))

theorem pushed_labelled {σ : Type} (n : Nat) (ops : List (JitterOp σ β)) :
    (((labelled n ops).flatMap JitterOp.pushed).map Prod.fst).Nodup ∧
      ∀ x ∈ (labelled n ops).flatMap JitterOp.pushed, n ≤ x.1 := by
  induction ops generalizing n with
  | nil => simp [labelled]
  | cons op ops ih =>
    obtain ⟨hnodup, hle⟩ := ih (n + 1)
    rw [labelled, List.flatMap_cons]
    cases op with
    | push seq p =>
      simp only [JitterOp.mapPayload, JitterOp.pushed, List.singleton_append, List.map_cons, List.nodup_cons,
        List.mem_cons]
      refine ⟨⟨fun hmem => ?_, hnodup⟩, ?_⟩
      · obtain ⟨x, hx, heq⟩ := List.mem_map.mp hmem
        have := hle x hx
        omega
      · rintro x (rfl | hx)
        · exact le_refl _
        · exact (Nat.le_succ n).trans (hle x hx)
    | pop => exact ⟨hnodup, fun x hx => (Nat.le_succ n).trans (hle x hx)⟩
    | reset => exact ⟨hnodup, fun x hx => (Nat.le_succ n).trans (hle x hx)⟩

theorem nodup_returned {a : Accounts (Nat × β)} {l : List (Nat × β)} (h : List.Subperm a.kept l)
    (hl : (l.map Prod.fst).Nodup) : (a.returned.map Prod.fst).Nodup := by
  obtain ⟨l', hperm, hsub⟩ := h
  have hkept : (a.kept.map Prod.fst).Nodup := (hperm.map Prod.fst).nodup_iff.mp (hl.sublist (hsub.map Prod.fst))
  exact hkept.sublist ((List.sublist_append_left _ _).map Prod.fst)

/-! ## The labels change nothing -/

def map (g : β → γ) (a : Accounts β) : Accounts γ :=
  { a with buffer := a.buffer.map g, returned := a.returned.map g }

theorem exec_map (g : β → γ) (a : Accounts β) (op : JitterOp UInt32 β) :
    (a.map g).exec (op.mapPayload g) = (a.exec op).map g := by
  cases op with
  | push seq p =>
    have hpush : (a.map g).buffer.push seq (g p) = (a.buffer.push seq p).map g := JitterBuffer.push_map g seq p _
    have hreplaces : (a.map g).buffer.replaces seq = a.buffer.replaces seq := by
      have hget : (a.buffer.packets.map g).get (a.buffer.extend seq).1 =
          (a.buffer.packets.get (a.buffer.extend seq).1).map g := OrdMap.get_map g _ _
      change (((a.buffer.packets.map g).get (a.buffer.extend seq).1).isSome && _) = _
      rw [hget, Option.isSome_map]
      rfl
    simp only [JitterOp.mapPayload, exec, hpush, hreplaces]
    rfl
  | pop =>
    have hpop := JitterBuffer.pop_map g a.buffer
    have hframe : ∀ out : Option (JitterOutput β), (out.map (·.map g)).toList.filterMap JitterOutput.frame? =
        (out.toList.filterMap JitterOutput.frame?).map g := by
      intro out
      rcases out with _ | ⟨payload⟩ | _
      · rfl
      · rfl
      · rfl
    simp only [JitterOp.mapPayload, exec, hpop, hframe, map, List.map_append]
  | reset =>
    have hsize : (a.map g).buffer.packets.size = a.buffer.packets.size := OrdMap.size_map g _
    simp only [JitterOp.mapPayload, exec, hsize]
    rfl

theorem run_map (g : β → γ) (target max : Nat) (ops : List (JitterOp UInt32 β)) :
    run target max (ops.map (JitterOp.mapPayload g)) = (run target max ops).map g := by
  unfold run
  have hstart : (start target max : Accounts γ) = (start target max : Accounts β).map g := rfl
  rw [hstart]
  generalize (start target max : Accounts β) = a
  induction ops generalizing a with
  | nil => rfl
  | cons op ops ih => rw [List.map_cons, List.foldl_cons, exec_map, ih, List.foldl_cons]

theorem labelled_forget {σ : Type} (n : Nat) (ops : List (JitterOp σ β)) :
    (labelled n ops).map (JitterOp.mapPayload Prod.snd) = ops := by
  induction ops generalizing n with
  | nil => rfl
  | cons op ops ih =>
    rw [labelled, List.map_cons, ih]
    cases op with
    | push seq p => rfl
    | pop => rfl
    | reset => rfl

/-- Every frame received is late, dropped, played, held, cleared or replaced; and of the frames played, in order,
no two come from one push. -/
theorem frames_accounted (target max : Nat) (ops : List (JitterOp UInt32 β)) :
    Balanced (run target max ops) ∧
      (run target max ops).returned = (run target max (labelled 0 ops)).returned.map Prod.snd ∧
      ((run target max (labelled 0 ops)).returned.map Prod.fst).Nodup := by
  refine ⟨balanced_run target max ops, ?_, ?_⟩
  · have hforget := run_map Prod.snd target max (labelled 0 ops)
    rw [labelled_forget] at hforget
    exact congrArg returned hforget
  · exact nodup_returned (kept_run (start target max) (labelled 0 ops)) (pushed_labelled 0 ops).1

end Accounts

end PickleChat
