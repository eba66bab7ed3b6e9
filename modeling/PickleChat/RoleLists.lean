import PickleChat.RoleCommands

/-!
# Role lists

Sorting, renumbering and compaction leave everything about a role but its
position alone, and keep role ids unique.
-/

namespace PickleChat

def Role.unplaced (r : Role) : Role := { r with position := 0 }

@[simp] theorem Role.unplaced_id (r : Role) : r.unplaced.id = r.id := rfl

theorem Role.id_of_unplaced {r r' : Role} (h : r'.unplaced = r.unplaced) : r'.id = r.id := by
  have := congrArg Role.id h
  simpa using this

theorem get_unplaced (id : RoleId) (l : List Role) :
    Keyed.get Role.id id (l.map Role.unplaced) = (Keyed.get Role.id id l).map Role.unplaced :=
  Keyed.get_map Role.unplaced_id id l

theorem unique_unplaced {l : List Role} : Keyed.Unique Role.id (l.map Role.unplaced) ↔ Keyed.Unique Role.id l := by
  unfold Keyed.Unique
  rw [List.map_map]
  exact Iff.rfl

theorem rolePermissions_unplaced (l : List Role) (id : RoleId) :
    rolePermissions (l.map Role.unplaced) id = rolePermissions l id := by
  unfold rolePermissions
  rw [get_unplaced, Option.map_map]
  rfl

theorem rolePermissions_of_unplaced {l l' : List Role} (h : l.map Role.unplaced = l'.map Role.unplaced)
    (id : RoleId) : rolePermissions l id = rolePermissions l' id := by
  rw [← rolePermissions_unplaced l, h, rolePermissions_unplaced]

theorem unique_of_unplaced {l l' : List Role} (h : l.map Role.unplaced = l'.map Role.unplaced)
    (hu : Keyed.Unique Role.id l') : Keyed.Unique Role.id l := by
  rw [← unique_unplaced, h, unique_unplaced]
  exact hu

/-! ## Positions -/

theorem withPositions_unplaced (ps : List (RoleId × UInt32)) (l : List Role) :
    (withPositions ps l).map Role.unplaced = l.map Role.unplaced := by
  simp [withPositions, Role.unplaced]

theorem perm_sortByPosition (l : List Role) : (sortByPosition l).Perm l := List.perm_insertionSort _ l

theorem mem_sortByPosition {l : List Role} {r : Role} : r ∈ sortByPosition l ↔ r ∈ l :=
  (perm_sortByPosition l).mem_iff

theorem unique_sortByPosition {l : List Role} (hu : Keyed.Unique Role.id l) :
    Keyed.Unique Role.id (sortByPosition l) := hu.perm (perm_sortByPosition l).symm

theorem get_sortByPosition {l : List Role} (hu : Keyed.Unique Role.id l) (id : RoleId) :
    Keyed.get Role.id id (sortByPosition l) = Keyed.get Role.id id l :=
  Keyed.get_congr (unique_sortByPosition hu) hu (fun _ => mem_sortByPosition) id

theorem rolePermissions_sort {l : List Role} (hu : Keyed.Unique Role.id l) (id : RoleId) :
    rolePermissions (sortByPosition l) id = rolePermissions l id := by
  unfold rolePermissions
  rw [get_sortByPosition hu]

theorem unique_withPositions {l : List Role} (hu : Keyed.Unique Role.id l) (ps : List (RoleId × UInt32)) :
    Keyed.Unique Role.id (withPositions ps l) := unique_of_unplaced (withPositions_unplaced ps l) hu

theorem compacted_unplaced (l : List Role) :
    (compacted l).map Role.unplaced = (sortByPosition l).map Role.unplaced := by
  unfold compacted
  rw [List.map_map]
  have h : (Role.unplaced ∘ fun p : Role × Nat => { p.1 with position := UInt32.ofNat p.2 }) =
      Role.unplaced ∘ Prod.fst := rfl
  rw [h, ← List.map_map, List.zipIdx_map_fst]

theorem unique_compacted {l : List Role} (hu : Keyed.Unique Role.id l) : Keyed.Unique Role.id (compacted l) :=
  unique_of_unplaced (compacted_unplaced l) (unique_sortByPosition hu)

theorem rolePermissions_compacted {l : List Role} (hu : Keyed.Unique Role.id l) (id : RoleId) :
    rolePermissions (compacted l) id = rolePermissions l id := by
  rw [rolePermissions_of_unplaced (compacted_unplaced l), rolePermissions_sort hu]

/-! ## The bits of each role after a command -/

theorem rolePermissions_erase (l : List Role) (id j : RoleId) :
    rolePermissions (Keyed.erase Role.id id l) j = if j = id then .none else rolePermissions l j := by
  unfold rolePermissions
  rw [Keyed.get_erase]
  split <;> rfl

/-- After a role is added, each id has the bits it had or those of the new role. -/
theorem rolePermissions_created {p : PermState} (hu : Keyed.Unique Role.id p.roles) (role : Role) (id : RoleId) :
    rolePermissions (createdPerms p role).roles id = rolePermissions p.roles id ∨
      (id = role.id ∧ rolePermissions (createdPerms p role).roles id = role.permissions) := by
  have hw := unique_withPositions hu (shiftedPositions p.roles)
  generalize hl : withPositions (shiftedPositions p.roles) p.roles = l at hw
  have hold : rolePermissions l id = rolePermissions p.roles id :=
    hl ▸ rolePermissions_of_unplaced (withPositions_unplaced _ _) id
  simp only [createdPerms, hl, ← hold]
  by_cases hid : id = role.id
  · subst hid
    cases hg : Keyed.get Role.id role.id (sortByPosition (l ++ [role])) with
    | none =>
      have := Keyed.get_eq_none.mp hg role (by simp [mem_sortByPosition])
      exact absurd rfl this
    | some r =>
      have hr : r ∈ l ++ [role] := mem_sortByPosition.mp (Keyed.get_mem hg)
      rcases List.mem_append.mp hr with hr | hr
      · refine .inl ?_
        have := Keyed.get_of_mem hw hr
        rw [Keyed.get_key hg] at this
        simp [rolePermissions, hg, this]
      · refine .inr ⟨rfl, ?_⟩
        rw [List.mem_singleton.mp hr] at hg
        simp [rolePermissions, hg]
  · -- Away from the new id the sorted list reads like `l`.
    have hperm : (Keyed.erase Role.id role.id (sortByPosition (l ++ [role]))).Perm (Keyed.erase Role.id role.id l) := by
      have h := (perm_sortByPosition (l ++ [role])).filter fun r => decide (r.id ≠ role.id)
      simpa [Keyed.erase] using h
    have hget : Keyed.get Role.id id (sortByPosition (l ++ [role])) = Keyed.get Role.id id l := by
      have h := Keyed.get_congr ((hw.erase role.id).perm hperm.symm) (hw.erase _) (fun _ => hperm.mem_iff) id
      rwa [Keyed.get_erase, Keyed.get_erase, if_neg hid, if_neg hid] at h
    exact .inl (by simp [rolePermissions, hget])

/-- A new id is fresh, unless the ids have run out and it is everyone's. -/
theorem newRole_id (p : PermState) (name : String) (permissions : Permissions) :
    (∀ r ∈ p.roles, r.id ≠ (newRole p name permissions).id) ∨ (newRole p name permissions).id = everyoneRoleId := by
  by_cases h : (Word.maxOr0 (p.roles.map Role.id)).toNat + 1 < 2 ^ 32
  · refine .inl fun r hr he => Word.maxOr0_succ_not_mem h ?_
    rw [show Word.maxOr0 (p.roles.map Role.id) + 1 = r.id from he.symm]
    exact List.mem_map_of_mem hr
  · refine .inr ?_
    have := UInt32.toNat_lt (Word.maxOr0 (p.roles.map Role.id))
    apply UInt32.toNat_inj.mp
    simp only [newRole, everyoneRoleId, UInt32.toNat_add]
    simp at this ⊢
    omega

/-- What an edit may change: never the id or the position, and bits within the subset rule. -/
theorem editedRole_ok {a : Actor} {existing updated : Role} {name : Option String} {color : Option (Option UInt32)}
    {permissions : Option Permissions} (h : editedRole a existing name color permissions = .ok updated) :
    updated.id = existing.id ∧ updated.position = existing.position ∧
      (permissions = none → updated.permissions = existing.permissions) ∧
      ∀ p, permissions = some p → updated.permissions = p.intersect .all ∧
        a.mayGrant ((p.intersect .all).without existing.permissions) = true := by
  unfold editedRole at h
  split at h
  · cases h
  · split at h
    · cases h; simp
    · dsimp only at h
      split at h
      · cases h
      · cases h; simp_all

theorem rolePermissions_updated {p : PermState} (hu : Keyed.Unique Role.id p.roles) {existing updated : Role}
    (he : Keyed.get Role.id updated.id p.roles = some existing) (j : RoleId) :
    rolePermissions (Keyed.modifyFirst Role.id updated.id (fun _ => updated) p.roles) j =
      if j = updated.id then updated.permissions else rolePermissions p.roles j := by
  have hget : Keyed.get Role.id j (Keyed.modifyFirst Role.id updated.id (fun _ => updated) p.roles) =
      if j = updated.id then some updated else Keyed.get Role.id j p.roles := by
    have hm : Keyed.modifyFirst Role.id updated.id (fun _ => updated) p.roles =
        p.roles.map fun r => if r.id = updated.id then updated else r := Keyed.modifyFirst_eq _ hu
    have hid : ∀ r : Role, (if r.id = updated.id then updated else r).id = r.id := by
      intro r; split <;> simp_all
    rw [hm, Keyed.get_map hid]
    by_cases hj : j = updated.id
    · simp [hj, he, Keyed.get_key he]
    · cases hg : Keyed.get Role.id j p.roles with
      | none => simp [hj]
      | some r => simp [hj, Keyed.get_key hg]
  unfold rolePermissions
  rw [hget]
  split <;> rfl

/-! ## Grants after a command -/

theorem rolePermissions_deleted {p : PermState} (hu : Keyed.Unique Role.id p.roles) (id j : RoleId) :
    rolePermissions (deletedPerms p id).roles j = if j = id then .none else rolePermissions p.roles j := by
  rw [show (deletedPerms p id).roles = compacted (Keyed.erase Role.id id p.roles) from rfl,
    rolePermissions_compacted (hu.erase id), rolePermissions_erase]

theorem deletedPerms_id_ne (p : PermState) (id : RoleId) : ∀ r ∈ (deletedPerms p id).roles, r.id ≠ id := by
  intro r hr
  have hmem : r.unplaced ∈ (sortByPosition (Keyed.erase Role.id id p.roles)).map Role.unplaced := by
    rw [← compacted_unplaced]
    exact List.mem_map.mpr ⟨r, hr, rfl⟩
  obtain ⟨r', hr', he⟩ := List.mem_map.mp hmem
  rw [← Role.id_of_unplaced he]
  exact (Keyed.mem_erase.mp (mem_sortByPosition.mp hr')).2

theorem deletedPerms_grants (p : PermState) (id : RoleId) (m : Fingerprint) :
    (deletedPerms p id).grants m = (p.grants m).filter (· ≠ id) := by
  unfold PermState.grants deletedPerms
  cases h : p.members m <;> simp [h]

theorem grantedPerms_grants (p : PermState) (f : Fingerprint) (roles : List RoleId) (m : Fingerprint) :
    (grantedPerms p f roles).grants m = if m = f then roles else p.grants m := by
  unfold grantedPerms PermState.grants
  by_cases hm : m = f
  · by_cases hr : roles = [] <;> simp [hm, hr]
  · simp [hm]

end PickleChat
