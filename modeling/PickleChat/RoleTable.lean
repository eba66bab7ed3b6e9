import PickleChat.RoleLists

/-!
# The role table

What the schema promises about roles: ids are unique, positions dense and
unique with everyone at the bottom, grants name roles there are. Sequentially
handled role commands keep it, whatever the store answers.
-/

namespace PickleChat

open Async (exec)

/-- Dense, unique positions in the order of the list, everyone first. -/
structure RoleOrder (roles : List Role) : Prop where
  ids : Keyed.Unique Role.id roles
  positions : roles.map Role.position = (List.range roles.length).map UInt32.ofNat
  everyone : ∃ r ∈ roles, r.id = everyoneRoleId ∧ r.position = 0

/-- The role list of a snapshot is in order, and its grants name roles in it. -/
structure RoleTable (p : PermState) : Prop extends RoleOrder p.roles where
  granted : ∀ m, ∀ id ∈ p.grants m, id ≠ everyoneRoleId ∧ ∃ r ∈ p.roles, r.id = id

def Db.roleIds (db : Db) : List Int64 := db.roles.rows.map RoleRow.id

def RolesStored (p : PermState) (db : Db) : Prop := ∀ r ∈ p.roles, Word.toColumn r.id ∈ db.roleIds

/-! ## Dense positions -/

theorem sortByPosition_positions (l : List Role) :
    (sortByPosition l).map Role.position = (l.map Role.position).insertionSort (· ≤ ·) :=
  List.map_insertionSort _ _ Role.position l fun _ _ _ _ => Iff.rfl

namespace RoleOrder

variable {roles : List Role} (h : RoleOrder roles)
include h

theorem length_le : roles.length ≤ 2 ^ 32 := by simpa using Word.length_le h.ids

theorem sorted : roles.Pairwise fun a b => a.position < b.position :=
  List.pairwise_map.mp (h.positions ▸ Word.sorted_range h.length_le)

theorem position_inj {r q : Role} (hr : r ∈ roles) (hq : q ∈ roles) (hpos : r.position = q.position) : r = q :=
  List.inj_on_of_nodup_map (h.positions ▸ Word.nodup_range h.length_le) hr hq hpos

theorem position_lt {r : Role} (hr : r ∈ roles) : r.position.toNat < roles.length := by
  have hm : r.position ∈ (List.range roles.length).map UInt32.ofNat := h.positions ▸ List.mem_map_of_mem hr
  obtain ⟨i, hi, he⟩ := List.mem_map.mp hm
  rw [List.mem_range] at hi
  rw [← he, Word.toNat_ofNat_lt h.length_le hi]
  exact hi

theorem head : ∃ e rest, roles = e :: rest ∧ e.id = everyoneRoleId ∧ e.position = 0 := by
  obtain ⟨e, he, hid, hpos⟩ := h.everyone
  have hp := h.positions
  have hinj := @position_inj roles h
  cases hr : roles with
  | nil => simp [hr] at he
  | cons r rest =>
    refine ⟨r, rest, rfl, ?_⟩
    have hr0 : r.position = 0 := by
      rw [hr, List.length_cons, List.range_succ_eq_map, List.map_cons, List.map_cons] at hp
      exact (List.cons.inj hp).1
    obtain rfl : r = e := hinj (by simp [hr]) he (hr0.trans hpos.symm)
    exact ⟨hid, hpos⟩

end RoleOrder

/-! ## A new role -/

def shift (position : UInt32) : UInt32 := if position = 0 then 0 else position + 1

theorem get_shifted {roles : List Role} (hu : Keyed.Unique Role.id roles) {r : Role} (hr : r ∈ roles) :
    Keyed.get Prod.fst r.id (shiftedPositions roles) = some (r.id, shift r.position) := by
  have hmap : shiftedPositions roles = roles.map fun r => (r.id, shift r.position) := by
    unfold shiftedPositions shift
    exact List.map_congr_left fun r _ => by split <;> rfl
  rw [hmap, Keyed.get_map (fun _ => rfl : ∀ r : Role, (r.id, shift r.position).1 = r.id), Keyed.get_of_mem hu hr]
  rfl

theorem newPosition_shifted {roles : List Role} (hu : Keyed.Unique Role.id roles) {r : Role} (hr : r ∈ roles) :
    newPosition (shiftedPositions roles) r = shift r.position := by
  simp [newPosition, get_shifted hu hr]

def shifted (r : Role) : Role := { r with position := shift r.position }

theorem mem_created {p : PermState} (hu : Keyed.Unique Role.id p.roles) {role r : Role} :
    r ∈ (createdPerms p role).roles ↔ r = role ∨ ∃ q ∈ p.roles, shifted q = r := by
  have hmap : withPositions (shiftedPositions p.roles) p.roles = p.roles.map shifted :=
    List.map_congr_left fun q hq => by simp [shifted, newPosition_shifted hu hq]
  simp only [createdPerms, mem_sortByPosition, hmap, List.mem_append, List.mem_map, List.mem_singleton]
  exact or_comm

theorem toNat_shift {position : UInt32} (h : position.toNat + 1 < 2 ^ 32) :
    (shift position).toNat = if position = 0 then 0 else position.toNat + 1 := by
  unfold shift
  split
  · rfl
  · rw [UInt32.toNat_add]; simp; omega

/-- `0 2 .. n` with a `1` at its end is `0 1 .. n` in another order. -/
theorem shift_range {n : Nat} (hn : n + 1 < 2 ^ 32) :
    (((List.range (n + 1)).map UInt32.ofNat).map shift ++ [1]).Perm ((List.range (n + 2)).map UInt32.ofNat) := by
  have h : ((List.range (n + 1)).map UInt32.ofNat).map shift =
      0 :: (List.range n).map fun i => UInt32.ofNat (i + 2) := by
    rw [List.range_succ_eq_map]
    simp only [List.map_cons, List.map_map]
    refine congrArg₂ _ (by rfl) (List.map_congr_left fun i hi => ?_)
    have hi := List.mem_range.mp hi
    have hlt : (UInt32.ofNat (i + 1)).toNat = i + 1 := Word.toNat_ofNat_lt (Nat.le_of_lt hn) (by omega)
    apply UInt32.toNat_inj.mp
    have hne : UInt32.ofNat (i + 1) ≠ 0 := fun e => by rw [e] at hlt; simp at hlt
    rw [Function.comp_apply, Function.comp_apply, Nat.succ_eq_add_one, toNat_shift (by omega), if_neg hne, hlt]
    exact (UInt32.toNat_ofNat_of_lt' (show i + 2 < 2 ^ 32 by omega)).symm
  rw [h, List.range_succ_eq_map, List.map_cons, List.range_succ_eq_map]
  simp only [List.map_cons, List.map_map, List.cons_append]
  refine List.Perm.cons _ ?_
  exact List.perm_append_singleton _ _

theorem RoleOrder.created {p : PermState} (h : RoleOrder p.roles) {role : Role} (hpos : role.position = 1)
    (hfresh : ∀ r ∈ p.roles, r.id ≠ role.id) : RoleOrder (createdPerms p role).roles := by
  have hmap : withPositions (shiftedPositions p.roles) p.roles = p.roles.map shifted :=
    List.map_congr_left fun q hq => by simp [shifted, newPosition_shifted h.ids hq]
  have hu : Keyed.Unique Role.id (p.roles.map shifted ++ [role]) := by
    have hs : Keyed.Unique Role.id (p.roles.map shifted) := h.ids.map fun r => show (shifted r).id = r.id from rfl
    refine hs.append_new fun r hr => ?_
    obtain ⟨q, hq, rfl⟩ := List.mem_map.mp hr
    exact hfresh q hq
  have hlen : p.roles.length + 1 ≤ 2 ^ 32 := by simpa using Word.length_le hu
  obtain ⟨e, rest, hroles, -, -⟩ := h.head
  refine ⟨?_, ?_, ?_⟩
  · simp only [createdPerms, hmap]
    exact unique_sortByPosition hu
  · have hlen' : (createdPerms p role).roles.length = p.roles.length + 1 := by
      simp [createdPerms, hmap, (perm_sortByPosition _).length_eq]
    rw [hlen']
    simp only [createdPerms, hmap, sortByPosition_positions]
    refine Word.insertionSort_range hlen ?_
    have hps : (p.roles.map shifted ++ [role]).map Role.position = (p.roles.map Role.position).map shift ++ [1] := by
      simp [shifted, hpos]
    rw [hps, h.positions, hroles, List.length_cons]
    rw [hroles, List.length_cons] at hlen
    exact shift_range (by omega)
  · obtain ⟨e, he, hid, h0⟩ := h.everyone
    exact ⟨shifted e, (mem_created h.ids).mpr (.inr ⟨e, he, rfl⟩), hid, by simp [shifted, shift, h0]⟩

theorem RoleTable.created {p : PermState} (h : RoleTable p) {role : Role} (hpos : role.position = 1)
    (hfresh : ∀ r ∈ p.roles, r.id ≠ role.id) : RoleTable (createdPerms p role) := by
  refine ⟨h.toRoleOrder.created hpos hfresh, fun m id hid => ?_⟩
  obtain ⟨hne, r, hr, hrid⟩ := h.granted m id hid
  exact ⟨hne, shifted r, (mem_created h.ids).mpr (.inr ⟨r, hr, rfl⟩), hrid⟩

/-! ## A new order -/

theorem densePermutation_spec {roles : List Role} {positions : List (RoleId × UInt32)}
    (hu : Keyed.Unique Role.id roles) (h : densePermutation roles positions = true) :
    (roles.map Role.id).Perm (positions.map Prod.fst) ∧ roles.length ≤ 2 ^ 32 ∧
      (positions.map Prod.snd).Perm ((List.range roles.length).map UInt32.ofNat) := by
  simp only [densePermutation, decide_eq_true_eq, List.all_eq_true, List.any_eq_true] at h
  obtain ⟨⟨hlen, hall⟩, hsort⟩ := h
  have hsub : roles.map Role.id ⊆ positions.map Prod.fst := by
    intro id hid
    obtain ⟨r, hr, rfl⟩ := List.mem_map.mp hid
    obtain ⟨q, hq, he⟩ := hall r hr
    exact List.mem_map.mpr ⟨q, hq, he⟩
  have hperm := (List.subperm_of_subset hu hsub).perm_of_length_le (by simp [hlen])
  have hn : (UInt32.ofNat roles.length).toNat = roles.length := by
    have := congrArg List.length hsort
    simpa [hlen] using this.symm
  refine ⟨hperm, Word.length_le hu |> fun h => by simpa using h, ?_⟩
  rw [hn] at hsort
  exact hsort ▸ (List.perm_insertionSort _ _).symm

section
variable {roles : List Role} {positions : List (RoleId × UInt32)} (hu : Keyed.Unique Role.id roles)
  (h : densePermutation roles positions = true)
include hu h

theorem unique_positions : Keyed.Unique Prod.fst positions :=
  ((densePermutation_spec hu h).1.nodup_iff).mp hu

theorem mem_newPosition {r : Role} (hr : r ∈ roles) : (r.id, newPosition positions r) ∈ positions := by
  have hid : r.id ∈ positions.map Prod.fst := (densePermutation_spec hu h).1.mem_iff.mp (List.mem_map_of_mem hr)
  obtain ⟨q, hq, he⟩ := List.mem_map.mp hid
  have hget : Keyed.get Prod.fst r.id positions = some q :=
    (Keyed.get_eq_some (unique_positions hu h)).mpr ⟨hq, he⟩
  have : newPosition positions r = q.2 := by simp [newPosition, hget]
  rw [this, ← he]
  exact hq

theorem perm_withPositions :
    ((withPositions positions roles).map Role.position).Perm ((List.range roles.length).map UInt32.ofNat) := by
  obtain ⟨hperm, -, hdense⟩ := densePermutation_spec hu h
  refine List.Perm.trans ?_ hdense
  let look (id : RoleId) : UInt32 := ((Keyed.get Prod.fst id positions).map Prod.snd).getD 0
  have hl : (withPositions positions roles).map Role.position = (roles.map Role.id).map look := by
    simp only [withPositions, List.map_map]
    refine List.map_congr_left fun r hr => ?_
    have := Keyed.get_of_mem (unique_positions hu h) (mem_newPosition hu h hr)
    simp [look, this]
  have hr : positions.map Prod.snd = (positions.map Prod.fst).map look := by
    rw [List.map_map]
    refine List.map_congr_left fun q hq => ?_
    have := Keyed.get_of_mem (unique_positions hu h) hq
    simp [look, this]
  rw [hl, hr]
  exact hperm.map look

end

theorem mem_reordered {p : PermState} {positions : List (RoleId × UInt32)} {r : Role} (hr : r ∈ p.roles) :
    { r with position := newPosition positions r } ∈ (reorderedPerms p positions).roles :=
  mem_sortByPosition.mpr (List.mem_map.mpr ⟨r, hr, rfl⟩)

theorem RoleOrder.reordered {p : PermState} (h : RoleOrder p.roles) {positions : List (RoleId × UInt32)}
    (hd : densePermutation p.roles positions = true) (hev : ∀ q ∈ positions, q.1 = everyoneRoleId → q.2 = 0) :
    RoleOrder (reorderedPerms p positions).roles := by
  refine ⟨unique_sortByPosition (unique_withPositions h.ids positions), ?_, ?_⟩
  · unfold reorderedPerms
    rw [sortByPosition_positions, (perm_sortByPosition _).length_eq,
      show (withPositions positions p.roles).length = p.roles.length by simp [withPositions]]
    exact Word.insertionSort_range h.length_le (perm_withPositions h.ids hd)
  · obtain ⟨e, he, hid, -⟩ := h.everyone
    exact ⟨_, mem_reordered he, hid, hev _ (mem_newPosition h.ids hd he) hid⟩

theorem RoleTable.reordered {p : PermState} (h : RoleTable p) {positions : List (RoleId × UInt32)}
    (hd : densePermutation p.roles positions = true) (hev : ∀ q ∈ positions, q.1 = everyoneRoleId → q.2 = 0) :
    RoleTable (reorderedPerms p positions) := by
  refine ⟨h.toRoleOrder.reordered hd hev, fun m id hid => ?_⟩
  obtain ⟨hne, r, hr, hrid⟩ := h.granted m id hid
  exact ⟨hne, _, mem_reordered hr, hrid⟩

/-! ## One role less -/

theorem compacted_positions (l : List Role) :
    (compacted l).map Role.position = (List.range (compacted l).length).map UInt32.ofNat := by
  unfold compacted
  rw [List.map_map, List.length_map, List.length_zipIdx]
  have : (Role.position ∘ fun q : Role × Nat => { q.1 with position := UInt32.ofNat q.2 }) =
      UInt32.ofNat ∘ Prod.snd := rfl
  rw [this, ← List.map_map, List.zipIdx_map_snd, List.range_eq_range']

theorem exists_compacted {l : List Role} {r : Role} (hr : r ∈ l) :
    ∃ r' ∈ compacted l, r'.unplaced = r.unplaced := by
  have : r.unplaced ∈ (compacted l).map Role.unplaced := by
    rw [compacted_unplaced]
    exact List.mem_map_of_mem (mem_sortByPosition.mpr hr)
  simpa using this

theorem compacted_lt_iff {l : List Role} (hu : Keyed.Unique Role.id l)
    (hs : l.Pairwise fun a b => a.position < b.position) {r q r' q' : Role} (hr : r ∈ l) (hq : q ∈ l)
    (hr' : r' ∈ compacted l) (hq' : q' ∈ compacted l) (her : r'.id = r.id) (heq : q'.id = q.id) :
    q'.position < r'.position ↔ q.position < r.position := by
  have hlen : l.length ≤ 2 ^ 32 := by simpa using Word.length_le hu
  have hsort : sortByPosition l = l := List.Pairwise.insertionSort_eq (hs.imp UInt32.le_of_lt)
  have index : ∀ {x x' : Role}, x ∈ l → x' ∈ compacted l → x'.id = x.id →
      ∃ i, ∃ h : i < l.length, l[i] = x ∧ x'.position.toNat = i := by
    intro x x' hx hx' he
    unfold compacted at hx'
    rw [hsort] at hx'
    obtain ⟨⟨y, i⟩, hy, rfl⟩ := List.mem_map.mp hx'
    obtain ⟨hi, hyi⟩ := List.getElem?_eq_some_iff.mp (List.mem_zipIdx_iff_getElem?.mp hy)
    refine ⟨i, hi, ?_, Word.toNat_ofNat_lt hlen hi⟩
    exact Keyed.eq_of_key hu (List.getElem_mem hi) hx (hyi ▸ he)
  obtain ⟨i, hi, rfl, hri⟩ := index hr hr' her
  obtain ⟨j, hj, rfl, hqj⟩ := index hq hq' heq
  rw [UInt32.lt_iff_toNat_lt, hri, hqj]
  have hp := List.pairwise_iff_getElem.mp hs
  constructor
  · exact hp j i hj hi
  · intro hlt
    by_contra hge
    rcases Nat.lt_or_eq_of_le (Nat.le_of_not_lt hge) with h | h
    · exact UInt32.lt_irrefl _ (UInt32.lt_trans hlt (hp i j hi hj h))
    · subst h; exact UInt32.lt_irrefl _ hlt

theorem RoleOrder.sort_erase {roles : List Role} (h : RoleOrder roles) (id : RoleId) :
    sortByPosition (Keyed.erase Role.id id roles) = Keyed.erase Role.id id roles :=
  List.Pairwise.insertionSort_eq ((h.sorted.imp UInt32.le_of_lt).filter _)

theorem RoleOrder.deleted {p : PermState} (h : RoleOrder p.roles) {id : RoleId} (hne : id ≠ everyoneRoleId) :
    RoleOrder (deletedPerms p id).roles := by
  refine ⟨unique_compacted (h.ids.erase id), compacted_positions _, ?_⟩
  obtain ⟨e, rest, hroles, hid, -⟩ := h.head
  have herase : Keyed.erase Role.id id p.roles = e :: Keyed.erase Role.id id rest := by
    rw [hroles]
    unfold Keyed.erase
    rw [List.filter_cons, if_pos (by simpa [hid] using hne.symm)]
  refine ⟨{ e with position := 0 }, ?_, hid, rfl⟩
  unfold deletedPerms compacted
  rw [h.sort_erase, herase, List.zipIdx_cons, List.map_cons]
  exact List.mem_cons_self

theorem RoleTable.deleted {p : PermState} (h : RoleTable p) {id : RoleId} (hne : id ≠ everyoneRoleId) :
    RoleTable (deletedPerms p id) := by
  refine ⟨h.toRoleOrder.deleted hne, fun m x hx => ?_⟩
  rw [deletedPerms_grants, List.mem_filter] at hx
  obtain ⟨hxe, r, hr, hrid⟩ := h.granted m x hx.1
  have hr' : r ∈ Keyed.erase Role.id id p.roles := Keyed.mem_erase.mpr ⟨hr, by simpa [hrid] using hx.2⟩
  obtain ⟨r', hm, hun⟩ := exists_compacted hr'
  exact ⟨hxe, r', hm, (Role.id_of_unplaced hun).trans hrid⟩

/-! ## An edit, and new grants -/

theorem modifyFirst_updated {l : List Role} (hu : Keyed.Unique Role.id l) (updated : Role) :
    Keyed.modifyFirst Role.id updated.id (fun _ => updated) l =
      l.map fun r => if r.id = updated.id then updated else r := Keyed.modifyFirst_eq _ hu

theorem RoleOrder.updated {p : PermState} (h : RoleOrder p.roles) {existing updated : Role}
    (hget : Keyed.get Role.id updated.id p.roles = some existing) (hpos : updated.position = existing.position) :
    RoleOrder (updatedPerms p updated).roles := by
  have hsame : ∀ r ∈ p.roles, (if r.id = updated.id then updated else r).position = r.position := by
    intro r hr
    split
    · rename_i he
      have := Keyed.get_of_mem h.ids hr
      rw [he, hget] at this
      rw [hpos, Option.some.inj this]
    · rfl
  have hid : ∀ r : Role, (if r.id = updated.id then updated else r).id = r.id := by intro r; split <;> simp_all
  unfold updatedPerms
  rw [modifyFirst_updated h.ids]
  refine ⟨h.ids.map hid, ?_, ?_⟩
  · rw [List.map_map, List.length_map, ← h.positions]
    exact List.map_congr_left hsame
  · obtain ⟨e, he, heid, h0⟩ := h.everyone
    exact ⟨_, List.mem_map_of_mem he, (hid e).trans heid, (hsame e he).trans h0⟩

theorem RoleTable.updated {p : PermState} (h : RoleTable p) {existing updated : Role}
    (hget : Keyed.get Role.id updated.id p.roles = some existing) (hpos : updated.position = existing.position) :
    RoleTable (updatedPerms p updated) := by
  refine ⟨h.toRoleOrder.updated hget hpos, fun m x hx => ?_⟩
  obtain ⟨hxe, r, hr, hrid⟩ := h.granted m x hx
  unfold updatedPerms
  rw [modifyFirst_updated h.ids]
  exact ⟨hxe, _, List.mem_map_of_mem hr, by split <;> simp_all⟩

theorem RoleTable.regranted {p : PermState} (h : RoleTable p) {f : Fingerprint} {roles : List RoleId}
    (hne : everyoneRoleId ∉ roles) (hex : ∀ id ∈ roles, ∃ r ∈ p.roles, r.id = id) :
    RoleTable (grantedPerms p f roles) := by
  refine ⟨h.toRoleOrder, fun m id hid => ?_⟩
  rw [grantedPerms_grants] at hid
  split at hid
  · exact ⟨fun e => hne (e ▸ hid), hex id hid⟩
  · exact h.granted m id hid

/-! ## Role ids in the database -/

theorem updateRole_roleIds (db : Db) (r : Role) : (db.updateRole r).roleIds = db.roleIds :=
  db.roles.update_keys _ _ (by intro; rfl)

theorem setRolePositions_roleIds (db : Db) (positions : List (RoleId × UInt32)) :
    (db.setRolePositions positions).roleIds = db.roleIds := by
  have h : ∀ (positions : List (RoleId × UInt32)) (t : Keyed.Table RoleRow Int64 RoleRow.id),
      (positions.foldl Db.placeRole t).rows.map RoleRow.id = t.rows.map RoleRow.id := by
    intro positions
    induction positions with
    | nil => intro t; rfl
    | cons q positions ih => intro t; exact (ih _).trans (t.update_keys _ _ (by intro; rfl))
  exact h positions db.roles

theorem insertRole_roleIds {db db' : Db} {r : Role} (h : db.insertRole r = some db') :
    db'.roleIds = db.roleIds ++ [Word.toColumn r.id] ∧ Word.toColumn r.id ∉ db.roleIds := by
  obtain ⟨t, ht, rfl⟩ := Option.map_eq_some_iff.mp h
  obtain ⟨hrows, hn⟩ := Keyed.Table.insert_rows ht
  refine ⟨by simp [Db.roleIds, hrows, roleRow], fun hm => ?_⟩
  obtain ⟨row, hrow, he⟩ := List.mem_map.mp hm
  exact hn row hrow he

theorem mem_deleteRole_roleIds {db : Db} {role : RoleId} {n : Int64} :
    n ∈ (db.deleteRole role).roleIds ↔ n ∈ db.roleIds ∧ n ≠ Word.toColumn role := by
  simp only [Db.roleIds, Db.deleteRole, List.mem_map, Keyed.Table.mem_delete, decide_eq_false_iff_not]
  constructor
  · rintro ⟨row, ⟨hrow, hne⟩, rfl⟩; exact ⟨⟨row, hrow, rfl⟩, hne⟩
  · rintro ⟨⟨row, hrow, rfl⟩, hne⟩; exact ⟨row, ⟨hrow, hne⟩, rfl⟩

theorem replaceMemberRoles_roleIds {db db' : Db} {f : Fingerprint} {roles : List RoleId}
    (h : db.replaceMemberRoles f roles = some db') : db'.roleIds = db.roleIds := by
  obtain ⟨t, -, rfl⟩ := Option.map_eq_some_iff.mp h
  rfl

/-! ## Every role command -/

section
variable {perform : (op : Await) → World → op.Reply × World} {s : Shared} {w : World} {client : ClientId}
  {nonce : UInt64} {cmd : RoleCommand}

theorem RolesStored.of_ids {p : PermState} {db db' : Db} (h : RolesStored p db) (hids : db'.roleIds = db.roleIds) :
    RolesStored p db' := fun r hr => hids ▸ h r hr

theorem RolesStored.of_unplaced {p p' : PermState} {db : Db} (h : RolesStored p db)
    (hex : ∀ r ∈ p'.roles, ∃ q ∈ p.roles, q.id = r.id) : RolesStored p' db := by
  intro r hr
  obtain ⟨q, hq, he⟩ := hex r hr
  exact he ▸ h q hq

/-- Once its checks have passed, a command leaves role table and rows in step, saved or not. -/
theorem Passes.keeps_table (hf : Faulty perform) (ht : RoleTable s.perms) (hs : RolesStored s.perms w.db) {a : Actor}
    {next : PermState} {save : Todo} (h : Passes s client nonce a cmd next save) :
    RoleTable (save.run perform s w).1.perms ∧
      RolesStored (save.run perform s w).1.perms (save.run perform s w).2.db := by
  have refused : ∀ {s' : Shared} {db : Db}, Refused s client s' → db.roleIds = w.db.roleIds →
      RoleTable s'.perms ∧ RolesStored s'.perms db := fun hr hids => by
    rw [hr.perms]; exact ⟨ht, hs.of_ids hids⟩
  cases h with
  | @create name permissions _ _ =>
    generalize hrole : newRole s.perms (Text.trim name) (permissions.intersect .all) = role
    unfold createRoleSave
    simp only [run_onSaved]
    rcases hf.save (.setRolePositions (shiftedPositions s.perms.roles)) w with ⟨db, hdb, hp⟩ | hp
    · obtain rfl : w.db.setRolePositions (shiftedPositions s.perms.roles) = db := Option.some.inj hdb
      rcases hf.save (.insertRole role) { w with db := w.db.setRolePositions (shiftedPositions s.perms.roles) }
        with ⟨db', hdb', hp'⟩ | hp'
      · obtain ⟨hids, hnew⟩ := insertRole_roleIds hdb'
        rw [setRolePositions_roleIds] at hids hnew
        have hfresh : ∀ r ∈ s.perms.roles, r.id ≠ role.id := fun r hr he => hnew (he ▸ hs r hr)
        simp only [hp, hp', if_true, Async.Task.run_done, createRoleSwap_eq]
        refine ⟨ht.created (by simp [← hrole, newRole]) hfresh, fun r hr => ?_⟩
        rw [hids]
        rcases (mem_created ht.ids).mp hr with rfl | ⟨q, hq, rfl⟩
        · simp
        · exact List.mem_append_left _ (hs q hq)
      · simp only [hp, hp', if_true, Bool.false_eq_true, if_false]
        exact refused (.refuse ..) (setRolePositions_roleIds ..)
    · simp only [hp, Bool.false_eq_true, if_false]
      exact refused (.refuse ..) rfl
  | @update id name color permissions existing updated hget _ _ hedit =>
    obtain ⟨hid, hpos, -, -⟩ := editedRole_ok hedit
    have hget' : Keyed.get Role.id updated.id s.perms.roles = some existing := by
      rw [hid, ← hget, Keyed.get_key hget]
    unfold updateRoleSave
    simp only [run_onSaved]
    rcases hf.save (.updateRole updated) w with ⟨db, hdb, hp⟩ | hp
    · obtain rfl : w.db.updateRole updated = db := Option.some.inj hdb
      simp only [hp, if_true, Async.Task.run_done, updateRoleSwap_eq]
      refine ⟨ht.updated hget' hpos, (hs.of_ids (updateRole_roleIds ..)).of_unplaced fun r hr => ?_⟩
      change r ∈ Keyed.modifyFirst Role.id updated.id (fun _ => updated) s.perms.roles at hr
      rw [modifyFirst_updated ht.ids] at hr
      obtain ⟨q, hq, rfl⟩ := List.mem_map.mp hr
      exact ⟨q, hq, by split <;> simp_all⟩
    · simp only [hp, Bool.false_eq_true, if_false]
      exact refused (.refuse ..) rfl
  | @delete id hne _ _ =>
    unfold deleteRoleSave
    simp only [run_onSaved, run_onWritten]
    rcases hf.save (.deleteRole id) w with ⟨db, hdb, hp⟩ | hp
    · obtain rfl : w.db.deleteRole id = db := Option.some.inj hdb
      simp only [hp, if_true, Async.Task.run_done, deleteRoleSwap_eq]
      refine ⟨ht.deleted hne, fun r hr => ?_⟩
      have hdel : Word.toColumn r.id ∈ (w.db.deleteRole id).roleIds := by
        have hun : r.unplaced ∈ (compacted (Keyed.erase Role.id id s.perms.roles)).map Role.unplaced :=
          List.mem_map_of_mem hr
        rw [compacted_unplaced] at hun
        obtain ⟨q, hq, he⟩ := List.mem_map.mp hun
        obtain ⟨hq, hqid⟩ := Keyed.mem_erase.mp (mem_sortByPosition.mp hq)
        rw [mem_deleteRole_roleIds, ← Role.id_of_unplaced he]
        exact ⟨hs q hq, fun e => hqid (Word.toColumn_inj e)⟩
      rcases hf.save (.setRolePositions (ordering (deletedPerms s.perms id).roles)) { w with db := w.db.deleteRole id }
        with ⟨db', hdb', hp'⟩ | hp'
      · obtain rfl := Option.some.inj hdb'
        rw [hp', setRolePositions_roleIds]
        exact hdel
      · rw [hp']
        exact hdel
    · simp only [hp, Bool.false_eq_true, if_false]
      exact refused (.refuse ..) rfl
  | @reorder positions hd hev _ =>
    unfold reorderRolesSave
    simp only [run_onSaved]
    rcases hf.save (.setRolePositions positions) w with ⟨db, hdb, hp⟩ | hp
    · obtain rfl : w.db.setRolePositions positions = db := Option.some.inj hdb
      simp only [hp, if_true, Async.Task.run_done, reorderRolesSwap_eq]
      refine ⟨ht.reordered hd hev, (hs.of_ids (setRolePositions_roleIds ..)).of_unplaced fun r hr => ?_⟩
      obtain ⟨q, hq, rfl⟩ := List.mem_map.mp (mem_sortByPosition.mp hr)
      exact ⟨q, hq, rfl⟩
    · simp only [hp, Bool.false_eq_true, if_false]
      exact refused (.refuse ..) rfl
  | @grant f roles hne hex _ _ =>
    unfold setMemberRolesSave
    simp only [run_onSaved]
    rcases hf.save (.replaceMemberRoles f roles) w with ⟨db, hdb, hp⟩ | hp
    · simp only [hp, if_true, Async.Task.run_done, setMemberRolesSwap_eq]
      exact ⟨ht.regranted hne hex, hs.of_ids (replaceMemberRoles_roleIds hdb)⟩
    · simp only [hp, Bool.false_eq_true, if_false]
      exact refused (.refuse ..) rfl

/-- Sequentially handled role commands keep the role table, and its rows with it. -/
theorem RoleCommand.keeps_table (hf : Faulty perform) (ht : RoleTable s.perms) (hs : RolesStored s.perms w.db) :
    RoleTable (exec perform (cmd.handle client nonce) s w).1.perms ∧
      RolesStored (exec perform (cmd.handle client nonce) s w).1.perms
        (exec perform (cmd.handle client nonce) s w).2.db := by
  unfold exec
  rcases handle_cases (rfl : cmd.handle client nonce s = _) with ⟨hd, hr⟩ | ⟨a, next, save, -, -, hp, he⟩
  · rw [hd, Async.Task.run_done, hr.perms]
    exact ⟨ht, hs⟩
  · rw [he]
    exact hp.keeps_table hf ht hs

end

end PickleChat
