import Mathlib.Data.List.Dedup
import PickleChat.Store
import PickleChat.Lib.Newest

/-!
# What a prune leaves

`prune_to_limit` finds in each channel the row after those to keep and deletes
it with all before it. What is left of a channel is its newest rows.
-/

namespace PickleChat

open Newest (Highest)

namespace Db

def rowsOf (db : Db) (channel : Int64) : List MessageRow := db.messages.rows.filter fun r => r.channel = channel

theorem mem_rowsOf {db : Db} {channel : Int64} {r : MessageRow} :
    r ∈ db.rowsOf channel ↔ r ∈ db.messages.rows ∧ r.channel = channel := by
  simp [rowsOf]

theorem rows_nodup (db : Db) : db.messages.rows.Nodup := db.messages.unique.of_map

theorem rowsOf_nodup (db : Db) (channel : Int64) : (db.rowsOf channel).Nodup := db.rows_nodup.filter _

theorem eq_of_messages {db db' : Db} (h : db' = { db with messages := db'.messages })
    (hrows : db'.messages.rows = db.messages.rows) : db' = db := by
  obtain ⟨⟨rows, hu⟩, _⟩ := db'
  obtain ⟨⟨rows₀, hu₀⟩, _⟩ := db
  obtain rfl : rows = rows₀ := hrows
  exact h

/-- A prune of some channels: how many rows went, and what is left. -/
structure PrunedOn (keep : UInt32) (db : Db) (channels : List Int64) (out : Nat × Db) : Prop where
  kept : out.2.messages.rows.Sublist db.messages.rows
  newest : ∀ c ∈ channels, Highest MessageRow.id keep.toNat (db.rowsOf c) (out.2.rowsOf c)
  untouched : ∀ c, c ∉ channels → out.2.rowsOf c = db.rowsOf c
  removed : out.1 + out.2.messages.rows.length = db.messages.rows.length
  others : out.2 = { db with messages := out.2.messages }

/-- What `prune_to_limit` is for. -/
structure PrunedTo (keep : UInt32) (db : Db) (out : Nat × Db) : Prop where
  kept : out.2.messages.rows.Sublist db.messages.rows
  newest : ∀ c, Highest MessageRow.id keep.toNat (db.rowsOf c) (out.2.rowsOf c)
  removed : out.1 + out.2.messages.rows.length = db.messages.rows.length
  others : out.2 = { db with messages := out.2.messages }

section
variable {keep : UInt32} {db : Db}

def newestFirst (db : Db) (channel : Int64) : List MessageRow :=
  (db.rowsOf channel).insertionSort fun a b => b.id ≤ a.id

theorem newestFirst_perm (db : Db) (channel : Int64) : (db.newestFirst channel).Perm (db.rowsOf channel) :=
  List.perm_insertionSort _ _

theorem newestFirst_descending (db : Db) (channel : Int64) :
    (db.newestFirst channel).Pairwise fun a b => b.id < a.id := by
  have hne : (db.newestFirst channel).Pairwise fun a b => a.id ≠ b.id := by
    have hids := ((newestFirst_perm db channel).map MessageRow.id).nodup_iff.mpr
      (Keyed.Unique.filter db.messages.unique _)
    exact List.pairwise_map.mp hids
  have hle := List.pairwise_insertionSort (fun a b : MessageRow => b.id ≤ a.id) (db.rowsOf channel)
  exact (hle.and hne).imp fun h => Std.lt_of_le_of_ne h.1 h.2.symm

variable (keep) in
/-- One channel: nothing when it is under the cap, or the row after those to keep and all before it. -/
theorem pruneChannel_cases (acc : Nat × Db) (channel : Int64) :
    ((acc.2.rowsOf channel).length ≤ keep.toNat ∧ pruneChannel keep acc channel = acc) ∨
    ∃ cutoff t, (acc.2.newestFirst channel)[keep.toNat]? = some cutoff ∧
      t = acc.2.messages.delete (fun r => r.channel = channel ∧ r.id ≤ cutoff.id) ∧
      pruneChannel keep acc channel =
        (acc.1 + (acc.2.messages.rows.length - t.rows.length), { acc.2 with messages := t }) := by
  cases hcut : (acc.2.newestFirst channel)[keep.toNat]? with
  | none =>
    have hlen := List.getElem?_eq_none_iff.mp hcut
    rw [(newestFirst_perm _ _).length_eq] at hlen
    refine .inl ⟨hlen, ?_⟩
    unfold newestFirst rowsOf at hcut
    simp only [pruneChannel, hcut]
  | some cutoff =>
    refine .inr ⟨cutoff, _, rfl, rfl, ?_⟩
    unfold newestFirst rowsOf at hcut
    simp only [pruneChannel, hcut]

theorem pruneChannel_newest (acc : Nat × Db) (channel : Int64) :
    Highest MessageRow.id keep.toNat (acc.2.rowsOf channel) ((pruneChannel keep acc channel).2.rowsOf channel) := by
  rcases pruneChannel_cases keep acc channel with ⟨hlen, he⟩ | ⟨cutoff, t, hcut, rfl, he⟩
  · rw [he]
    exact Newest.highest_self (rowsOf_nodup _ _) hlen
  · have hperm := newestFirst_perm acc.2 channel
    have hdesc := newestFirst_descending acc.2 channel
    have htake := Newest.highest_take (n := keep.toNat) hperm hdesc
    apply htake.congr (.refl _)
    rw [List.perm_ext_iff_of_nodup (rowsOf_nodup _ _) htake.nodup]
    intro r
    rw [Newest.mem_take_iff hdesc hcut, hperm.mem_iff, mem_rowsOf, mem_rowsOf, he, Keyed.Table.mem_delete]
    simp only [decide_eq_false_iff_not, not_and]
    constructor
    · rintro ⟨⟨hr, hgt⟩, hc⟩
      exact ⟨⟨hr, hc⟩, hgt hc⟩
    · rintro ⟨⟨hr, hc⟩, hgt⟩
      exact ⟨⟨hr, fun _ => hgt⟩, hc⟩

theorem pruneChannel_untouched (acc : Nat × Db) {channel c : Int64} (hc : c ≠ channel) :
    (pruneChannel keep acc channel).2.rowsOf c = acc.2.rowsOf c := by
  rcases pruneChannel_cases keep acc channel with ⟨-, he⟩ | ⟨cutoff, t, -, rfl, he⟩
  · rw [he]
  · rw [he]
    unfold rowsOf Keyed.Table.delete
    rw [List.filter_filter]
    apply List.filter_congr
    intro r _
    by_cases h : r.channel = c
    · simp [h, hc]
    · simp [h]

theorem PrunedOn.pruneChannel {channels : List Int64} {channel : Int64} {out : Nat × Db}
    (h : PrunedOn keep db channels out) (hnew : channel ∉ channels) :
    PrunedOn keep db (channel :: channels) (pruneChannel keep out channel) := by
  have hkept : (Db.pruneChannel keep out channel).2.messages.rows.Sublist out.2.messages.rows ∧
      (Db.pruneChannel keep out channel).1 + (Db.pruneChannel keep out channel).2.messages.rows.length =
        out.1 + out.2.messages.rows.length ∧
      (Db.pruneChannel keep out channel).2 =
        { out.2 with messages := (Db.pruneChannel keep out channel).2.messages } := by
    rcases pruneChannel_cases keep out channel with ⟨-, he⟩ | ⟨cutoff, t, -, rfl, he⟩
    · rw [he]
      exact ⟨.refl _, rfl, rfl⟩
    · rw [he]
      refine ⟨List.filter_sublist, ?_, rfl⟩
      have hle : (out.2.messages.delete fun r => r.channel = channel ∧ r.id ≤ cutoff.id).rows.length ≤
          out.2.messages.rows.length := List.length_filter_le _ _
      dsimp only
      omega
  refine ⟨hkept.1.trans h.kept, ?_, ?_, hkept.2.1.trans h.removed, ?_⟩
  · intro c hc
    by_cases he : c = channel
    · subst he
      exact h.untouched c hnew ▸ pruneChannel_newest out c
    · rw [pruneChannel_untouched out he]
      exact h.newest c ((List.mem_cons.mp hc).resolve_left he)
  · intro c hc
    rw [List.mem_cons, not_or] at hc
    rw [pruneChannel_untouched out hc.1, h.untouched c hc.2]
  · rw [hkept.2.2, h.others]

theorem PrunedOn.foldl {channels done : List Int64} {out : Nat × Db} (h : PrunedOn keep db done out)
    (hnodup : channels.Nodup) (hnew : ∀ c ∈ channels, c ∉ done) :
    ∃ all, (∀ c ∈ channels, c ∈ all) ∧ (∀ c ∈ done, c ∈ all) ∧
      PrunedOn keep db all (channels.foldl (Db.pruneChannel keep) out) := by
  induction channels generalizing done out with
  | nil => exact ⟨done, by simp, fun _ => id, h⟩
  | cons c channels ih =>
    obtain ⟨hc, hnodup⟩ := List.nodup_cons.mp hnodup
    obtain ⟨all, hall, hdone, hout⟩ := ih (h.pruneChannel (hnew c List.mem_cons_self)) hnodup fun c' hc' hm => by
      rcases List.mem_cons.mp hm with rfl | hm
      · exact hc hc'
      · exact hnew c' (List.mem_cons_of_mem _ hc') hm
    refine ⟨all, ?_, fun c' hc' => hdone c' (List.mem_cons_of_mem _ hc'), hout⟩
    intro c' hc'
    rcases List.mem_cons.mp hc' with rfl | hc'
    · exact hdone c' List.mem_cons_self
    · exact hall c' hc'

theorem pruneToLimit_prunes (db : Db) (keep : UInt32) : PrunedTo keep db (db.pruneToLimit keep) := by
  have hstart : PrunedOn keep db [] (0, db) := ⟨.refl _, by simp, fun _ _ => rfl, by simp, rfl⟩
  obtain ⟨all, hall, -, hout⟩ := hstart.foldl (List.nodup_dedup (db.messages.rows.map MessageRow.channel)) (by simp)
  refine ⟨hout.kept, ?_, hout.removed, hout.others⟩
  intro c
  by_cases hc : c ∈ all
  · exact hout.newest c hc
  · -- A channel that no row names has nothing to keep.
    have hempty : db.rowsOf c = [] := by
      apply List.eq_nil_iff_forall_not_mem.mpr
      intro r hr
      obtain ⟨hrow, rfl⟩ := mem_rowsOf.mp hr
      exact hc (hall _ (List.mem_dedup.mpr (List.mem_map_of_mem hrow)))
    have huntouched : (db.pruneToLimit keep).2.rowsOf c = [] := (hout.untouched c hc).trans hempty
    rw [huntouched, hempty]
    exact Newest.highest_self .nil (Nat.zero_le _)

/-- What is left is told by what it is. -/
theorem PrunedTo.unique {out out' : Nat × Db} (h : PrunedTo keep db out) (h' : PrunedTo keep db out') :
    out.2 = out'.2 := by
  have hrows : out.2.messages.rows = out'.2.messages.rows := by
    apply Newest.eq_of_sublist db.rows_nodup h.kept h'.kept
    intro r
    have hiff := (h.newest r.channel).mem_iff (h'.newest r.channel) (a := r)
    simpa [mem_rowsOf] using hiff
  apply eq_of_messages _ hrows
  rw [h.others, h'.others]

theorem PrunedTo.trans {keep' : UInt32} {out out' : Nat × Db} (h : PrunedTo keep db out)
    (h' : PrunedTo keep' out.2 out') : PrunedTo (min keep keep') db (out.1 + out'.1, out'.2) where
  kept := h'.kept.trans h.kept
  newest c := by
    have hmin : (min keep keep').toNat = min keep.toNat keep'.toNat := by
      rw [Std.min_eq_if]
      split
      · rename_i hle
        exact (Nat.min_eq_left (UInt32.le_iff_toNat_le.mp hle)).symm
      · rename_i hle
        rw [UInt32.le_iff_toNat_le] at hle
        omega
    rw [hmin]
    exact (h.newest c).trans (h'.newest c)
  removed := by
    have := h.removed
    have := h'.removed
    dsimp only
    omega
  others := by rw [h'.others, h.others]

end

/-- `prune_to_limit` leaves of each channel its newest rows, `keep` of them or all
there are, changes nothing else and returns how many went; a second prune to the
same limit does nothing, and one to another limit amounts to one to the lower. -/
theorem pruneToLimit_exact (db : Db) (keep : UInt32) :
    PrunedTo keep db (db.pruneToLimit keep) ∧
    (db.pruneToLimit keep).2.pruneToLimit keep = (0, (db.pruneToLimit keep).2) ∧
    ∀ keep', ((db.pruneToLimit keep).2.pruneToLimit keep').2 = (db.pruneToLimit (min keep keep')).2 := by
  have hfirst := pruneToLimit_prunes db keep
  have htwice : ∀ keep', ((db.pruneToLimit keep).2.pruneToLimit keep').2 = (db.pruneToLimit (min keep keep')).2 := by
    intro keep'
    have hboth := hfirst.trans (pruneToLimit_prunes (db.pruneToLimit keep).2 keep')
    exact hboth.unique (pruneToLimit_prunes db (min keep keep'))
  have hsame : ((db.pruneToLimit keep).2.pruneToLimit keep).2 = (db.pruneToLimit keep).2 := by
    rw [htwice keep, Std.min_self]
  refine ⟨hfirst, Prod.ext ?_ hsame, htwice⟩
  have hremoved := (pruneToLimit_prunes (db.pruneToLimit keep).2 keep).removed
  rw [hsame] at hremoved
  change _ = 0
  omega

end Db

end PickleChat
