import PickleChat.Lib.Run
import PickleChat.RoleTable

/-!
# Hierarchy over a run

Whatever one manager does with role commands, in any order and number: the
roles at or above its top one stay as they were, with their holders and in
their order, and whoever it could not act on stays out of its reach.
-/

namespace PickleChat

open Async (exec Run)

def PermState.top (p : PermState) (m : Fingerprint) : UInt32 := topRolePosition p.roles (p.grants m)

def Senior (p : PermState) (m : Fingerprint) (r : Role) : Prop := r ∈ p.roles ∧ p.top m ≤ r.position

def TopRole (p : PermState) (m : Fingerprint) (id : RoleId) : Prop :=
  id ∈ p.grants m ∧ ∃ r ∈ p.roles, r.id = id ∧ r.position = p.top m

/-- From `p` to `p'`, nothing at or above the top of `m` has changed. -/
structure Respects (m : Fingerprint) (p p' : PermState) : Prop where
  kept : ∀ r, Senior p m r → ∃ r', Senior p' m r' ∧ r'.id = r.id ∧ r'.name = r.name ∧ r'.color = r.color ∧
    r'.permissions = r.permissions
  holders : ∀ r, Senior p m r → ∀ f, r.id ∈ p'.grants f ↔ r.id ∈ p.grants f
  order : ∀ r q, Senior p m r → Senior p m q → ∀ r' ∈ p'.roles, ∀ q' ∈ p'.roles, r'.id = r.id → q'.id = q.id →
    (r'.position < q'.position ↔ r.position < q.position)
  tops : ∀ id, TopRole p' m id ↔ TopRole p m id

/-! ## Top roles -/

section
variable {p p' : PermState} {m : Fingerprint} (ht : RoleTable p)
include ht

theorem RoleTable.position_pos {r : Role} (hr : r ∈ p.roles) (hne : r.id ≠ everyoneRoleId) : 0 < r.position := by
  obtain ⟨e, he, hid, h0⟩ := ht.everyone
  rw [UInt32.lt_iff_toNat_lt]
  refine Nat.pos_of_ne_zero fun h => hne ?_
  have : r = e := ht.position_inj hr he (by rw [h0]; exact UInt32.toNat_inj.mp h)
  rw [this, hid]

theorem RoleTable.le_top {r : Role} (hr : r ∈ p.roles) (hg : r.id ∈ p.grants m) : r.position ≤ p.top m := by
  refine UInt32.not_lt.mp fun h => ?_
  have := lt_topRolePosition.mpr ⟨r.id, hg, r, Keyed.get_of_mem ht.ids hr, h⟩
  exact UInt32.lt_irrefl _ this

theorem RoleTable.top_cases :
    (p.grants m = [] ∧ p.top m = 0) ∨ ∃ x ∈ p.roles, x.id ∈ p.grants m ∧ x.position = p.top m := by
  by_cases hg : p.grants m = []
  · exact .inl ⟨hg, by simp [PermState.top, topRolePosition, hg, Word.maxOr0]⟩
  · obtain ⟨id, hid⟩ := List.exists_mem_of_ne_nil _ hg
    obtain ⟨hne, r, hr, rfl⟩ := ht.granted m id hid
    have hpos : 0 < p.top m := UInt32.lt_of_lt_of_le (ht.position_pos hr hne) (ht.le_top hr hid)
    rcases Word.maxOr0_mem (((p.grants m).filterMap fun id => Keyed.get Role.id id p.roles).map Role.position)
      with h0 | hm
    · rw [show p.top m = 0 from h0] at hpos
      exact absurd hpos (UInt32.lt_irrefl 0)
    · obtain ⟨x, hx, hpos⟩ := List.mem_map.mp hm
      obtain ⟨id', hid', hget⟩ := List.mem_filterMap.mp hx
      exact .inr ⟨x, Keyed.get_mem hget, Keyed.get_key hget ▸ hid', hpos⟩

end

/-! ## One step -/

section
variable {p p' : PermState} {m : Fingerprint} (ht : RoleTable p) (ht' : RoleTable p')
include ht ht'

/-- A step respects `m` once it keeps the roles at or above its top with their
holders and order, and what else `m` then holds stands below them. -/
theorem Respects.of
    (hkept : ∀ r, Senior p m r → ∃ r' ∈ p'.roles, r'.unplaced = r.unplaced)
    (hholders : ∀ r, Senior p m r → ∀ f, r.id ∈ p'.grants f ↔ r.id ∈ p.grants f)
    (horder : ∀ r q, Senior p m r → Senior p m q → ∀ r' ∈ p'.roles, ∀ q' ∈ p'.roles, r'.id = r.id → q'.id = q.id →
      (r'.position < q'.position ↔ r.position < q.position))
    (hbelow : ∀ q ∈ p'.roles, q.id ∈ p'.grants m → (∃ r, Senior p m r ∧ r.id = q.id) ∨
      ∀ r, Senior p m r → ∀ r' ∈ p'.roles, r'.id = r.id → q.position < r'.position) :
    Respects m p p' := by
  have keep : (∀ r, Senior p m r → ∀ r' ∈ p'.roles, r'.id = r.id → p'.top m ≤ r'.position) →
      (∀ id, TopRole p' m id ↔ TopRole p m id) → Respects m p p' := by
    intro habove htops
    refine ⟨fun r hr => ?_, hholders, horder, htops⟩
    obtain ⟨r', hr', hun⟩ := hkept r hr
    refine ⟨r', ⟨hr', habove r hr r' hr' (Role.id_of_unplaced hun)⟩, Role.id_of_unplaced hun, ?_⟩
    simpa [Role.unplaced] using (Role.mk.inj hun).2
  rcases ht.top_cases (m := m) with ⟨hnil, h0⟩ | ⟨x, hx, hxg, hxp⟩
  · -- Without grants every role is senior, and none comes to `m`.
    have hall : ∀ r ∈ p.roles, Senior p m r := fun r hr => ⟨hr, by rw [h0, UInt32.le_iff_toNat_le]; simp⟩
    have hnil' : p'.grants m = [] := by
      refine List.eq_nil_iff_forall_not_mem.mpr fun id hid => ?_
      obtain ⟨-, q, hq, rfl⟩ := ht'.granted m id hid
      rcases hbelow q hq hid with ⟨r, hr, he⟩ | hlow
      · have := (hholders r hr m).mp (he ▸ hid)
        simp [hnil] at this
      · obtain ⟨e, he, heid, -⟩ := ht.everyone
        obtain ⟨e', he', heid', h0'⟩ := ht'.everyone
        have := hlow e (hall e he) e' he' (heid'.trans heid.symm)
        rw [h0', UInt32.lt_iff_toNat_lt] at this
        simp at this
    have htop' : p'.top m = 0 := by simp [PermState.top, topRolePosition, hnil', Word.maxOr0]
    refine keep (fun r _ r' _ _ => by rw [htop', UInt32.le_iff_toNat_le]; simp) fun id => ?_
    simp [TopRole, hnil, hnil']
  · -- The top role of `m` is senior, so it stays, and stays on top.
    have hsx : Senior p m x := ⟨hx, hxp ▸ UInt32.le_refl _⟩
    obtain ⟨x', hx', hun⟩ := hkept x hsx
    have hid := Role.id_of_unplaced hun
    have hxg' : x'.id ∈ p'.grants m := hid ▸ (hholders x hsx m).mpr hxg
    have hmax : ∀ q ∈ p'.roles, q.id ∈ p'.grants m → q = x' ∨ q.position < x'.position := by
      intro q hq hqg
      rcases hbelow q hq hqg with ⟨r, hr, he⟩ | hlow
      · refine .inl (Keyed.eq_of_key ht'.ids hq hx' ?_)
        have hrx : r = x := by
          refine ht.position_inj hr.1 hx (UInt32.le_antisymm ?_ (hxp ▸ hr.2))
          exact hxp ▸ ht.le_top hr.1 ((hholders r hr m).mp (he ▸ hqg))
        rw [← he, hrx, hid]
      · exact .inr (hlow x hsx x' hx' hid)
    have htop' : x'.position = p'.top m := by
      refine UInt32.le_antisymm (ht'.le_top hx' hxg') ?_
      rcases ht'.top_cases (m := m) with ⟨hnil, -⟩ | ⟨y, hy, hyg, hyp⟩
      · simp [hnil] at hxg'
      · rw [← hyp]
        rcases hmax y hy hyg with rfl | hlt
        · exact UInt32.le_refl _
        · exact UInt32.le_of_lt hlt
    refine keep (fun r hr r' hr' he => ?_) fun id => ?_
    · rw [← htop']
      refine UInt32.not_lt.mp fun hlt => ?_
      have := (horder r x hr hsx r' hr' x' hx' he hid).mp hlt
      exact UInt32.lt_irrefl _ (UInt32.lt_of_lt_of_le this (hxp ▸ hr.2))
    · constructor
      · rintro ⟨-, q, hq, rfl, hpos⟩
        obtain rfl : q = x' := ht'.position_inj hq hx' (hpos.trans htop'.symm)
        exact ⟨hid ▸ hxg, x, hx, hid.symm, hxp⟩
      · rintro ⟨-, q, hq, rfl, hpos⟩
        obtain rfl : q = x := ht.position_inj hq hx (hpos.trans hxp.symm)
        exact ⟨hid ▸ hxg', x', hx', hid, htop'⟩

/-- The same from what a step does to positions: whoever stood below a senior
role, or not below it, still does. -/
theorem Respects.of_order
    (hkept : ∀ r, Senior p m r → ∃ r' ∈ p'.roles, r'.unplaced = r.unplaced)
    (hholders : ∀ r, Senior p m r → ∀ f, r.id ∈ p'.grants f ↔ r.id ∈ p.grants f)
    (hmono : ∀ r, Senior p m r → ∀ q ∈ p.roles, ∀ r' ∈ p'.roles, ∀ q' ∈ p'.roles, r'.id = r.id → q'.id = q.id →
      (q'.position < r'.position ↔ q.position < r.position))
    (hgrants : ∀ id ∈ p'.grants m, ∃ q ∈ p.roles, q.id = id) : Respects m p p' := by
  refine .of ht ht' hkept hholders ?_ ?_
  · intro r q hr hq r' hr' q' hq' her heq
    exact hmono q hq r hr.1 q' hq' r' hr' heq her
  · intro q' hq' hg
    obtain ⟨q, hq, he⟩ := hgrants _ hg
    by_cases hsen : p.top m ≤ q.position
    · exact .inl ⟨q, ⟨hq, hsen⟩, he⟩
    · refine .inr fun r hr r' hr' her => (hmono r hr q hq r' hr' q' hq' her he.symm).mpr ?_
      exact UInt32.lt_of_lt_of_le (UInt32.not_le.mp hsen) hr.2

end

theorem Respects.refl (m : Fingerprint) (p : PermState) (hu : Keyed.Unique Role.id p.roles) : Respects m p p where
  kept r hr := ⟨r, hr, rfl, rfl, rfl, rfl⟩
  holders _ _ _ := Iff.rfl
  order r q hr hq r' hr' q' hq' her heq := by
    rw [Keyed.eq_of_key hu hr' hr.1 her, Keyed.eq_of_key hu hq' hq.1 heq]
  tops _ := Iff.rfl

theorem Respects.trans {m : Fingerprint} {p p' p'' : PermState} (h : Respects m p p') (h' : Respects m p' p'') :
    Respects m p p'' where
  kept r hr := by
    obtain ⟨r', hr', hid, hname, hcolor, hperm⟩ := h.kept r hr
    obtain ⟨r'', hr'', hid', hname', hcolor', hperm'⟩ := h'.kept r' hr'
    exact ⟨r'', hr'', hid'.trans hid, hname'.trans hname, hcolor'.trans hcolor, hperm'.trans hperm⟩
  holders r hr f := by
    obtain ⟨r', hr', hid, -⟩ := h.kept r hr
    rw [← h.holders r hr f, ← hid]
    exact h'.holders r' hr' f
  order r q hr hq r'' hr'' q'' hq'' her heq := by
    obtain ⟨r', hr', hid, -⟩ := h.kept r hr
    obtain ⟨q', hq', hid', -⟩ := h.kept q hq
    rw [← h.order r q hr hq r' hr'.1 q' hq'.1 hid hid']
    exact h'.order r' q' hr' hq' r'' hr'' q'' hq'' (her.trans hid.symm) (heq.trans hid'.symm)
  tops id := (h'.tops id).trans (h.tops id)

/-! ## What a manager can reach -/

section
variable {p : PermState} {m : Fingerprint} (ht : RoleTable p)
include ht

theorem below_of_canManage {r : Role} (hr : r ∈ p.roles)
    (h : canManageRole p.roles (p.grants m) false r.id = true) : ¬ p.top m ≤ r.position := by
  simp only [canManageRole, Bool.false_eq_true, if_false, Keyed.get_of_mem ht.ids hr, decide_eq_true_eq] at h
  exact UInt32.not_le.mpr h

theorem Respects.created {role : Role} (hpos : role.position = 1) (ht' : RoleTable (createdPerms p role)) :
    Respects m p (createdPerms p role) := by
  have hmem : ∀ r ∈ p.roles, shifted r ∈ (createdPerms p role).roles := fun r hr =>
    (mem_created ht.ids).mpr (.inr ⟨r, hr, rfl⟩)
  have hshift : ∀ r ∈ p.roles, (shifted r).position.toNat = if r.position = 0 then 0 else r.position.toNat + 1 := by
    intro r hr
    refine toNat_shift ?_
    have hlen := ht'.length_le
    have hlt := ht.position_lt hr
    rw [show (createdPerms p role).roles.length = p.roles.length + 1 by
      simp [createdPerms, (perm_sortByPosition _).length_eq, withPositions]] at hlen
    omega
  have hfresh : ∀ r ∈ p.roles, r.id ≠ role.id := by
    intro r hr he
    have hr1 : shifted r = role :=
      Keyed.eq_of_key ht'.ids (hmem r hr) ((mem_created ht.ids).mpr (.inl rfl)) he
    have h1 : (shifted r).position.toNat = 1 := by rw [hr1, hpos]; rfl
    rw [hshift r hr] at h1
    split at h1
    · simp at h1
    · rename_i hne
      exact hne (UInt32.toNat_inj.mp (by simpa using h1))
  have hold : ∀ r ∈ p.roles, ∀ r' ∈ (createdPerms p role).roles, r'.id = r.id → r' = shifted r := by
    intro r hr r' hr' he
    exact Keyed.eq_of_key ht'.ids hr' (hmem r hr) he
  refine .of_order ht ht' (fun r hr => ⟨shifted r, hmem r hr.1, rfl⟩) (fun _ _ _ => Iff.rfl) ?_ ?_
  · intro r hr q hq r' hr' q' hq' her heq
    rw [hold r hr.1 r' hr' her, hold q hq q' hq' heq, UInt32.lt_iff_toNat_lt, UInt32.lt_iff_toNat_lt,
      hshift r hr.1, hshift q hq]
    have hz : ∀ x : Role, x.position = 0 ↔ x.position.toNat = 0 := fun x => UInt32.toNat_inj.symm
    simp only [hz]
    split <;> split <;> omega
  · exact fun id hid => (ht.granted m id hid).2

theorem Respects.updated {existing updated : Role}
    (hget : Keyed.get Role.id updated.id p.roles = some existing) (hpos : updated.position = existing.position)
    (hbelow : canManageRole p.roles (p.grants m) false updated.id = true) :
    Respects m p (updatedPerms p updated) := by
  have hex : existing ∈ p.roles ∧ existing.id = updated.id := ⟨Keyed.get_mem hget, Keyed.get_key hget⟩
  have hlow := below_of_canManage (m := m) ht hex.1 (hex.2 ▸ hbelow)
  have hsame : ∀ r ∈ p.roles, ∀ r' ∈ Keyed.modifyFirst Role.id updated.id (fun _ => updated) p.roles, r'.id = r.id →
      r'.position = r.position := by
    intro r hr r' hr' he
    rw [modifyFirst_updated ht.ids] at hr'
    obtain ⟨q, hq, rfl⟩ := List.mem_map.mp hr'
    split at he
    · rename_i hq
      rw [if_pos hq, hpos, Keyed.eq_of_key ht.ids hex.1 hr (hex.2.trans he)]
    · rename_i hq
      rw [if_neg hq, Keyed.eq_of_key ht.ids ‹_› hr he]
  refine .of_order ht (ht.updated hget hpos) (fun r hr => ⟨r, ?_, rfl⟩) (fun _ _ _ => Iff.rfl) ?_ ?_
  · change r ∈ Keyed.modifyFirst Role.id updated.id (fun _ => updated) p.roles
    rw [modifyFirst_updated ht.ids]
    refine List.mem_map.mpr ⟨r, hr.1, if_neg fun he => hlow ?_⟩
    rw [Keyed.eq_of_key ht.ids hex.1 hr.1 (hex.2.trans he.symm)]
    exact hr.2
  · intro r hr q hq r' hr' q' hq' her heq
    rw [hsame r hr.1 r' hr' her, hsame q hq q' hq' heq]
  · exact fun id hid => (ht.granted m id hid).2

theorem Respects.reordered {positions : List (RoleId × UInt32)} (hd : densePermutation p.roles positions = true)
    (hev : ∀ q ∈ positions, q.1 = everyoneRoleId → q.2 = 0)
    (hmoves : ∀ q ∈ positions, movesAbove p.roles (p.top m) q = false) :
    Respects m p (reorderedPerms p positions) := by
  have ht' := ht.reordered hd hev
  have hmem : ∀ r ∈ p.roles, { r with position := newPosition positions r } ∈
      sortByPosition (withPositions positions p.roles) := fun r hr =>
    mem_sortByPosition.mpr (List.mem_map.mpr ⟨r, hr, rfl⟩)
  have hnew : ∀ r ∈ p.roles, newPosition positions r = r.position ∨
      (r.position < p.top m ∧ newPosition positions r < p.top m) := by
    intro r hr
    have h := hmoves _ (mem_newPosition ht.ids hd hr)
    simp only [movesAbove, Keyed.get_of_mem ht.ids hr, Option.map_some, Option.getD_some, decide_eq_false_iff_not,
      not_and, not_or] at h
    by_cases he : newPosition positions r = r.position
    · exact .inl he
    · obtain ⟨h₁, h₂⟩ := h (Ne.symm he)
      exact .inr ⟨UInt32.not_le.mp h₁, UInt32.not_le.mp h₂⟩
  have hold : ∀ r ∈ p.roles, ∀ r' ∈ sortByPosition (withPositions positions p.roles), r'.id = r.id →
      r'.position = newPosition positions r := by
    intro r hr r' hr' he
    rw [Keyed.eq_of_key ht'.ids hr' (hmem r hr) he]
  refine .of_order ht ht' (fun r hr => ⟨_, hmem r hr.1, rfl⟩) (fun _ _ _ => Iff.rfl) ?_ ?_
  · intro r hr q hq r' hr' q' hq' her heq
    rw [hold r hr.1 r' hr' her, hold q hq q' hq' heq]
    have hr0 : newPosition positions r = r.position :=
      (hnew r hr.1).resolve_right fun h => UInt32.not_le.mpr h.1 hr.2
    rw [hr0]
    rcases hnew q hq with hq0 | ⟨h₁, h₂⟩
    · rw [hq0]
    · exact iff_of_true (UInt32.lt_of_lt_of_le h₂ hr.2) (UInt32.lt_of_lt_of_le h₁ hr.2)
  · exact fun id hid => (ht.granted m id hid).2

theorem Respects.deleted {id : RoleId} (hne : id ≠ everyoneRoleId) (hex : ∃ r ∈ p.roles, r.id = id)
    (hbelow : canManageRole p.roles (p.grants m) false id = true) : Respects m p (deletedPerms p id) := by
  obtain ⟨x, hx, rfl⟩ := hex
  have hlow := below_of_canManage (m := m) ht hx hbelow
  have hsen : ∀ r, Senior p m r → r.id ≠ x.id := by
    intro r hr he
    exact hlow (Keyed.eq_of_key ht.ids hr.1 hx he ▸ hr.2)
  have herase : ∀ q ∈ p.roles, q.id ≠ x.id → q ∈ Keyed.erase Role.id x.id p.roles := fun q hq h =>
    Keyed.mem_erase.mpr ⟨hq, h⟩
  have hgone : ∀ q' ∈ (deletedPerms p x.id).roles, q'.id ≠ x.id := by
    intro q' hq'
    have hun : q'.unplaced ∈ (compacted (Keyed.erase Role.id x.id p.roles)).map Role.unplaced :=
      List.mem_map_of_mem hq'
    rw [compacted_unplaced] at hun
    obtain ⟨q, hq, he⟩ := List.mem_map.mp hun
    rw [← Role.id_of_unplaced he]
    exact (Keyed.mem_erase.mp (mem_sortByPosition.mp hq)).2
  refine .of_order ht (ht.deleted hne) (fun r hr => exists_compacted (herase r hr.1 (hsen r hr))) ?_ ?_ ?_
  · intro r hr f
    rw [deletedPerms_grants, List.mem_filter]
    simp [hsen r hr]
  · intro r hr q hq r' hr' q' hq' her heq
    exact compacted_lt_iff (ht.ids.erase _) (ht.sorted.filter _) (herase r hr.1 (hsen r hr))
      (herase q hq (heq ▸ hgone q' hq')) hr' hq' her heq
  · intro id hid
    rw [deletedPerms_grants, List.mem_filter] at hid
    exact (ht.granted m id hid.1).2

theorem Respects.regranted {f : Fingerprint} {roles : List RoleId} (hev : everyoneRoleId ∉ roles)
    (hex : ∀ id ∈ roles, ∃ r ∈ p.roles, r.id = id)
    (hbelow : ∀ id ∈ changedRoles (p.grants f) roles, canManageRole p.roles (p.grants m) false id = true) :
    Respects m p (grantedPerms p f roles) := by
  have ht' := ht.regranted hev hex (f := f)
  refine .of_order ht ht' (fun r hr => ⟨r, hr.1, rfl⟩) ?_ ?_ fun id hid => (ht'.granted m id hid).2
  · intro r hr g
    rw [grantedPerms_grants]
    split
    · rename_i hg
      subst hg
      have hsame : r.id ∉ changedRoles (p.grants g) roles := fun h =>
        below_of_canManage ht hr.1 (hbelow _ h) hr.2
      simp only [changedRoles, List.mem_append, List.mem_filter, decide_eq_true_eq, not_or, not_and, not_not] at hsame
      exact ⟨hsame.2, hsame.1⟩
    · rfl
  · intro r hr q hq r' hr' q' hq' her heq
    rw [Keyed.eq_of_key ht.ids hr' hr.1 her, Keyed.eq_of_key ht.ids hq' hq heq]

end

/-- A command of `m` that passes its checks respects `m`. -/
theorem Passes.respects {s : Shared} {client : ClientId} {nonce : UInt64} {a : Actor} {cmd : RoleCommand}
    {next : PermState} {save : Todo} {m : Fingerprint} (h : Passes s client nonce a cmd next save)
    (hroles : a.roles = s.perms.grants m) (howner : a.owner = false) (ht : RoleTable s.perms)
    (ht' : RoleTable next) : Respects m s.perms next := by
  cases h with
  | create => exact .created ht rfl ht'
  | @update id name color permissions existing updated hget hman _ hedit =>
    obtain ⟨hid, hpos, -, -⟩ := editedRole_ok hedit
    obtain rfl : id = updated.id := by rw [hid, Keyed.get_key hget]
    exact .updated ht hget hpos (by rwa [hroles, howner] at hman)
  | delete hne hex hman => exact .deleted ht hne hex (by rwa [hroles, howner] at hman)
  | reorder hd hev hmoves => exact .reordered ht hd hev (by rw [hroles] at hmoves; exact hmoves howner)
  | grant hev hex _ hman => exact .regranted ht hev hex (by rwa [hroles, howner] at hman)

/-! ## A run -/

/-- Whoever `m` could not act on before it still cannot act on. -/
theorem Respects.canActOn {m : Fingerprint} {p p' : PermState} (h : Respects m p p') (ht : RoleTable p)
    (ht' : RoleTable p') (f : Fingerprint) (owner : Bool)
    (hno : canActOn p.roles (p.grants m) false (p.grants f) owner = false) :
    PickleChat.canActOn p'.roles (p'.grants m) false (p'.grants f) owner = false := by
  cases owner with
  | true => rfl
  | false =>
    simp only [PickleChat.canActOn, Bool.false_eq_true, if_false, decide_eq_false_iff_not] at hno ⊢
    change ¬ p.top f < p.top m at hno
    change ¬ p'.top f < p'.top m
    rw [UInt32.not_lt] at hno ⊢
    rcases ht.top_cases (m := m) with ⟨hnil, -⟩ | ⟨x, hx, hxg, hxp⟩
    · -- Without a top role `m` reaches nobody, then as now.
      rcases ht'.top_cases (m := m) with ⟨-, h0⟩ | ⟨y, hy, hyg, hyp⟩
      · rw [h0, UInt32.le_iff_toNat_le]; simp
      · have := ((h.tops y.id).mp ⟨hyg, y, hy, rfl, hyp⟩).1
        simp [hnil] at this
    · have hpos : 0 < p.top m := hxp ▸ ht.position_pos hx (ht.granted m _ hxg).1
      rcases ht.top_cases (m := f) with ⟨-, h0⟩ | ⟨y, hy, hyg, hyp⟩
      · rw [h0] at hno
        exact absurd (UInt32.lt_of_lt_of_le hpos hno) (UInt32.lt_irrefl 0)
      · -- The top role of `f` is senior to `m` and stays with `f`.
        have hsen : Senior p m y := ⟨hy, hyp ▸ hno⟩
        obtain ⟨y', hy', hid, -⟩ := h.kept y hsen
        exact UInt32.le_trans hy'.2 (ht'.le_top hy'.1 (hid ▸ (h.holders y hsen f).mpr hyg))

/-- A role command as one client sends it, and how the store behaves meanwhile. -/
structure ManagerStep where
  perform : (op : Await) → World → op.Reply × World
  nonce : UInt64
  cmd : RoleCommand

def ManagerStep.step (client : ClientId) (x : Shared × World) (l : ManagerStep) (x' : Shared × World) : Prop :=
  x' = exec l.perform (l.cmd.handle client l.nonce) x.1 x.2

/-- The command is accepted; the store may have failed where that goes unnoticed. -/
def ManagerStep.accepted (client : ClientId) (x : Shared × World) (l : ManagerStep) : Prop :=
  Faulty l.perform ∧ Acked x.1 (exec l.perform (l.cmd.handle client l.nonce) x.1 x.2).1 client l.nonce

/-- A run of accepted role commands of one client, who is not the owner. -/
theorem hierarchy_kept {s₀ s : Shared} {w₀ w : World} {client : ClientId} {m : Fingerprint}
    (ht : RoleTable s₀.perms) (hs : RolesStored s₀.perms w₀.db) (hm : s₀.fingerprintOf client = some m)
    (howner : s₀.isOwner m = false)
    (h : Run (ManagerStep.step client) (ManagerStep.accepted client) (s₀, w₀) (s, w)) :
    Respects m s₀.perms s.perms ∧ ∀ f,
      canActOn s₀.perms.roles (s₀.perms.grants m) false (s₀.perms.grants f) (s₀.isOwner f) = false →
      canActOn s.perms.roles (s.perms.grants m) false (s.perms.grants f) (s.isOwner f) = false := by
  have hinv : (RoleTable s.perms ∧ RolesStored s.perms w.db) ∧ SameSessions s₀ s ∧ Respects m s₀.perms s.perms := by
    refine h.invariant (fun x => (RoleTable x.1.perms ∧ RolesStored x.1.perms x.2.db) ∧ SameSessions s₀ x.1 ∧
      Respects m s₀.perms x.1.perms) ⟨⟨ht, hs⟩, .refl s₀, .refl m s₀.perms ht.ids⟩ ?_
    rintro ⟨t, v⟩ l _ ⟨⟨htt, hts⟩, hsame, hresp⟩ ⟨hf, hack⟩ rfl
    have hkeep : RoleTable (exec l.perform (l.cmd.handle client l.nonce) t v).1.perms ∧ _ :=
      RoleCommand.keeps_table hf htt hts
    obtain ⟨a, next, save, ha, -, hp, hnext, hsame'⟩ := RoleCommand.acked hack
    obtain ⟨-, e, he, rfl⟩ := actor_ok ha
    have hfe : e.info.fingerprint = m := by
      have := hsame.fingerprint client
      rw [hm] at this
      exact Option.some.inj ((by simp [Shared.fingerprintOf, he] :
        some e.info.fingerprint = t.fingerprintOf client).trans this)
    subst hfe
    have hto : t.isOwner e.info.fingerprint = false := by
      rw [← howner, Shared.isOwner, Shared.isOwner, hsame.owner]
    refine ⟨hkeep, ⟨hsame'.owner.trans hsame.owner, fun k => (hsame'.fingerprint k).trans (hsame.fingerprint k)⟩,
      hresp.trans ?_⟩
    rw [hnext]
    exact hp.respects rfl hto htt (hnext ▸ hkeep.1)
  obtain ⟨⟨ht', -⟩, hsame, hresp⟩ := hinv
  refine ⟨hresp, fun f hno => ?_⟩
  have : s.isOwner f = s₀.isOwner f := by rw [Shared.isOwner, Shared.isOwner, hsame.owner]
  rw [this]
  exact hresp.canActOn ht ht' f _ hno

theorem managerServer_roleTable : RoleTable managerServer.perms where
  ids := by unfold Keyed.Unique; decide
  positions := by decide
  everyone := ⟨exampleRole 0 0 .defaultEveryone, by decide, rfl, rfl⟩
  granted m id hid := by
    have : id ∈ [(2 : RoleId)] := by
      simp only [managerServer, exampleServer, PermState.grants, List.find?_cons, List.find?_nil] at hid
      split at hid
      · exact hid
      · simp at hid
    obtain rfl : id = 2 := by simpa using this
    exact ⟨by decide, exampleRole 2 2 .manageRoles, by decide, rfl⟩

theorem hierarchy_kept_createRole :
    Respects (.rep 1) managerServer.perms
      (exec Await.perform (RoleCommand.handle 1 7 (.create "door" .viewChannel)) managerServer managerWorld).1.perms :=
  (hierarchy_kept managerServer_roleTable (by unfold RolesStored; decide +kernel) (by decide +kernel) rfl
    (.step ⟨Await.perform, 7, .create "door" .viewChannel⟩ .refl ⟨fun _ _ => .inl rfl, by decide +kernel⟩ rfl)).1

end PickleChat
