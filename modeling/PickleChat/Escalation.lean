import PickleChat.RoleLists

/-!
# Minting powers

When an acknowledged role command of a plain manager leaves nobody with a base
permission that neither they nor the manager had.
-/

namespace PickleChat

open Async (exec)

/-- What a member holds before any channel has its say. -/
def PermState.base (p : PermState) (m : Fingerprint) : Permissions := resolve p.roles (p.grants m) m false none

/-- The roles that speak for a member: everyone and its grants. -/
def PermState.held (p : PermState) (m : Fingerprint) : List RoleId := everyoneRoleId :: p.grants m

/-- Nobody but the owner holds more than it did, beyond what the actor held. -/
def NoneMinted (s s' : Shared) (actor : Fingerprint) : Prop :=
  ∀ m, s.isOwner m = false →
    ((s.perms.base m).union (s.perms.base actor)).contains (s'.perms.base m) = true

def anySets (roles : List Role) (ids : List RoleId) (i : Nat) : Bool :=
  ids.any fun id => (rolePermissions roles id).has i

def administers (roles : List Role) (ids : List RoleId) : Bool :=
  ids.any fun id => (rolePermissions roles id).contains .administrator

/-- These roles set no bit outside the known ones and `mine`. -/
def setsKnown (roles : List Role) (mine : Permissions) (ids : List RoleId) : Bool :=
  ids.all fun id => (Permissions.all.union mine).contains (rolePermissions roles id)

/-- Whoever administers through this role alone holds no unknown bit through another. -/
def StripsCleanly (s : Shared) (mine : Permissions) (id : RoleId) : Prop :=
  ∀ m, s.isOwner m = false → administers s.perms.roles (s.perms.held m) = true →
    administers s.perms.roles ((s.perms.held m).filter (· ≠ id)) = false →
    setsKnown s.perms.roles mine ((s.perms.held m).filter (· ≠ id)) = true

/-- The bits-subset rule as it would have to be, command by command. -/
def WithinMeans (s : Shared) (mine : Permissions) : RoleCommand → Prop
  | .create .. | .reorder _ | .update _ _ _ none => True
  | .update id _ _ (some permissions) => permissions.contains .administrator = false → StripsCleanly s mine id
  | .delete id => StripsCleanly s mine id
  | .grant f roles => s.isOwner f = false →
    if administers s.perms.roles (s.perms.held f) then
      administers s.perms.roles (everyoneRoleId :: roles) = true ∨
        setsKnown s.perms.roles mine (everyoneRoleId :: roles) = true
    else ∀ id ∈ roles, id ∉ s.perms.grants f →
      ((s.perms.base f).union mine).contains (rolePermissions s.perms.roles id) = true

/-! ## Bases bit by bit -/

theorem administers_eq (roles : List Role) (ids : List RoleId) : administers roles ids = anySets roles ids 0 := by
  simp [administers, anySets, Permissions.contains_administrator]

theorem setsKnown_iff {roles : List Role} {mine : Permissions} {ids : List RoleId} :
    setsKnown roles mine ids = true ↔
      ∀ i, anySets roles ids i = true → Permissions.all.has i = true ∨ mine.has i = true := by
  simp only [setsKnown, anySets, List.all_eq_true, List.any_eq_true, Permissions.contains_iff,
    Permissions.has_union, Bool.or_eq_true]
  constructor
  · rintro h i ⟨id, hid, hi⟩; exact h id hid i hi
  · intro h id hid i hi; exact h i ⟨id, hid, hi⟩

theorem has_base_held (p : PermState) (m : Fingerprint) (i : Nat) :
    (basePermissions p.roles (p.grants m)).has i = anySets p.roles (p.held m) i := has_base p.roles (p.grants m) i

theorem contains_base_iff {p p' : PermState} {m : Fingerprint} {mine : Permissions} (hmine : mine.has 0 = false) :
    ((p.base m).union mine).contains (p'.base m) = true ↔
      if anySets p.roles (p.held m) 0 = true then
        anySets p'.roles (p'.held m) 0 = true ∨
          ∀ i, anySets p'.roles (p'.held m) i = true → Permissions.all.has i = true ∨ mine.has i = true
      else ∀ i, anySets p'.roles (p'.held m) i = true → anySets p.roles (p.held m) i = true ∨ mine.has i = true := by
  have hall : Permissions.all.has 0 = true := by decide
  unfold PermState.base
  rw [resolve_none, resolve_none]
  simp only [has_base_held, Permissions.contains_iff, Permissions.has_union, Bool.or_eq_true]
  cases h : anySets p.roles (p.held m) 0 <;> cases h' : anySets p'.roles (p'.held m) 0
  · simp [has_base_held]
  · -- Nobody may become an administrator: the bit is neither theirs nor the actor's.
    simp only [Bool.false_eq_true, if_false, if_true, has_base_held]
    constructor
    · intro hc
      rcases hc 0 hall with hc | hc
      · simp [h] at hc
      · simp [hmine] at hc
    · intro hc
      rcases hc 0 h' with hc | hc
      · simp [h] at hc
      · simp [hmine] at hc
  · simp [has_base_held]
  · simp only [if_true, true_or, iff_true]
    exact fun i hi => .inl hi

theorem anySets_congr {roles roles' : List Role} {ids : List RoleId}
    (h : ∀ id ∈ ids, rolePermissions roles' id = rolePermissions roles id) (i : Nat) :
    anySets roles' ids i = anySets roles ids i := by
  unfold anySets
  rw [Bool.eq_iff_iff, List.any_eq_true, List.any_eq_true]
  exact exists_congr fun id => and_congr_right fun hid => by rw [h id hid]

theorem anySets_split (roles : List Role) (ids : List RoleId) (id : RoleId) (i : Nat) :
    anySets roles ids i =
      (anySets roles (ids.filter (· ≠ id)) i || decide (id ∈ ids) && (rolePermissions roles id).has i) := by
  unfold anySets
  rw [Bool.eq_iff_iff]
  simp only [List.any_eq_true, Bool.or_eq_true, Bool.and_eq_true, decide_eq_true_eq, List.mem_filter]
  constructor
  · rintro ⟨j, hj, hi⟩
    by_cases h : j = id
    · exact .inr ⟨h ▸ hj, h ▸ hi⟩
    · exact .inl ⟨j, ⟨hj, h⟩, hi⟩
  · rintro (⟨j, ⟨hj, -⟩, hi⟩ | ⟨hj, hi⟩)
    · exact ⟨j, hj, hi⟩
    · exact ⟨id, hj, hi⟩

/-! ## One command -/

section
variable {s : Shared} {p' : PermState} {mine : Permissions} (hmine : mine.has 0 = false)
include hmine

/-- A base that only grows by bits of `mine` and keeps its administrators. -/
theorem base_grows {m : Fingerprint}
    (hbits : ∀ i, anySets p'.roles (p'.held m) i = true →
      anySets s.perms.roles (s.perms.held m) i = true ∨ mine.has i = true)
    (hadmin : anySets s.perms.roles (s.perms.held m) 0 = true → anySets p'.roles (p'.held m) 0 = true) :
    ((s.perms.base m).union mine).contains (p'.base m) = true := by
  refine (contains_base_iff hmine).mpr ?_
  split
  · exact .inl (hadmin ‹_›)
  · exact hbits

/-- One role's bits become `n`, or the role goes and takes its bits along. -/
theorem strip_iff {id : RoleId} {n : Permissions}
    (hbits : ∀ m i, anySets p'.roles (p'.held m) i =
      (anySets s.perms.roles ((s.perms.held m).filter (· ≠ id)) i || decide (id ∈ s.perms.held m) && n.has i))
    (hadd : ∀ i, n.has i = true → (rolePermissions s.perms.roles id).has i = true ∨ mine.has i = true)
    (hknown : ∀ i, n.has i = true → Permissions.all.has i = true) :
    (∀ m, s.isOwner m = false → ((s.perms.base m).union mine).contains (p'.base m) = true) ↔
      (n.has 0 = false → StripsCleanly s mine id) := by
  have hsplit := fun m i => anySets_split s.perms.roles (s.perms.held m) id i
  constructor
  · intro h hn m hm hadm hrest
    rw [administers_eq] at hadm hrest
    have hg := (contains_base_iff hmine).mp (h m hm)
    rw [if_pos hadm] at hg
    simp only [hbits, hrest, hn, Bool.and_false, Bool.or_false, Bool.false_eq_true, false_or, Bool.or_eq_true] at hg
    exact setsKnown_iff.mpr fun i hi => hg i (.inl hi)
  · intro h m hm
    by_cases hstay : anySets s.perms.roles (s.perms.held m) 0 = true ∧ anySets p'.roles (p'.held m) 0 = false
    · -- `m` loses its administrator bit: what is left must be known or the actor's.
      obtain ⟨hadm, hlost⟩ := hstay
      rw [hbits, Bool.or_eq_false_iff] at hlost
      have hid : id ∈ s.perms.held m := by
        rw [hsplit, hlost.1, Bool.false_or, Bool.and_eq_true, decide_eq_true_eq] at hadm
        exact hadm.1
      have hn : n.has 0 = false := by simpa [hid] using hlost.2
      have hk := setsKnown_iff.mp
        (h hn m hm ((administers_eq ..).trans hadm) ((administers_eq ..).trans hlost.1))
      refine (contains_base_iff hmine).mpr ?_
      rw [if_pos hadm]
      refine .inr fun i hi => ?_
      rw [hbits, Bool.or_eq_true, Bool.and_eq_true] at hi
      rcases hi with hi | ⟨-, hi⟩
      · exact hk i hi
      · exact .inl (hknown i hi)
    · refine base_grows hmine (fun i hi => ?_) fun hadm => by
        by_contra hc
        exact hstay ⟨hadm, by simpa using hc⟩
      rw [hbits, Bool.or_eq_true, Bool.and_eq_true, decide_eq_true_eq] at hi
      rcases hi with hi | ⟨hid, hi⟩
      · exact .inl (by rw [hsplit, hi, Bool.true_or])
      · refine (hadd i hi).imp_left fun ho => ?_
        simp [hsplit, hid, ho]

theorem create_grows (hu : Keyed.Unique Role.id s.perms.roles)
    (heveryone : (rolePermissions s.perms.roles everyoneRoleId).has 0 = false) (name : String)
    {permissions : Permissions} (hsub : ∀ i, permissions.has i = true → mine.has i = true) (m : Fingerprint) :
    ((s.perms.base m).union mine).contains
      ((createdPerms s.perms (newRole s.perms name permissions)).base m) = true := by
  have hrole := rolePermissions_created hu (newRole s.perms name permissions)
  refine base_grows hmine (fun i hi => ?_) fun hadm => ?_
  · obtain ⟨id, hid, hi⟩ := List.any_eq_true.mp hi
    rcases hrole id with h | ⟨-, h⟩
    · exact .inl (List.any_eq_true.mpr ⟨id, hid, h ▸ hi⟩)
    · exact .inr (hsub i (by rwa [h] at hi))
  · -- The role that makes `m` an administrator is neither new nor everyone's.
    obtain ⟨id, hid, hi⟩ := List.any_eq_true.mp hadm
    refine List.any_eq_true.mpr ⟨id, hid, ?_⟩
    rcases hrole id with h | ⟨hnew, -⟩
    · rwa [h]
    · exfalso
      rcases newRole_id s.perms name permissions with hfresh | hev
      · have hnone : Keyed.get Role.id id s.perms.roles = none := Keyed.get_eq_none.mpr (hnew ▸ hfresh)
        simp [rolePermissions, hnone] at hi
      · rw [hnew, hev, heveryone] at hi
        cases hi

omit hmine in
theorem anySets_updated (hu : Keyed.Unique Role.id s.perms.roles) {existing updated : Role}
    (hget : Keyed.get Role.id updated.id s.perms.roles = some existing) (m : Fingerprint) (i : Nat) :
    anySets (Keyed.modifyFirst Role.id updated.id (fun _ => updated) s.perms.roles) (s.perms.held m) i =
      (anySets s.perms.roles ((s.perms.held m).filter (· ≠ updated.id)) i ||
        decide (updated.id ∈ s.perms.held m) && updated.permissions.has i) := by
  have hrole := rolePermissions_updated hu hget
  rw [anySets_split _ _ updated.id, anySets_congr fun j hj => ?_, hrole, if_pos rfl]
  rw [hrole, if_neg (by simpa using (List.mem_filter.mp hj).2)]

theorem rename_grows (hu : Keyed.Unique Role.id s.perms.roles) {existing updated : Role}
    (hget : Keyed.get Role.id updated.id s.perms.roles = some existing)
    (hsame : updated.permissions = existing.permissions) (m : Fingerprint) :
    ((s.perms.base m).union mine).contains ((updatedPerms s.perms updated).base m) = true := by
  have hold : rolePermissions s.perms.roles updated.id = existing.permissions := by simp [rolePermissions, hget]
  have hall : ∀ i, anySets (Keyed.modifyFirst Role.id updated.id (fun _ => updated) s.perms.roles)
      (s.perms.held m) i = anySets s.perms.roles (s.perms.held m) i := by
    intro i
    rw [anySets_updated hu hget, anySets_split s.perms.roles (s.perms.held m) updated.id, hold, hsame]
  exact base_grows hmine (fun i hi => .inl ((hall i) ▸ hi)) fun h => (hall 0).trans h

theorem update_iff (hu : Keyed.Unique Role.id s.perms.roles) {existing updated : Role}
    (hget : Keyed.get Role.id updated.id s.perms.roles = some existing) {permissions : Permissions}
    (hperm : updated.permissions = permissions.intersect .all)
    (hadd : ∀ i, (updated.permissions.without existing.permissions).has i = true → mine.has i = true) :
    (∀ m, s.isOwner m = false → ((s.perms.base m).union mine).contains ((updatedPerms s.perms updated).base m) = true) ↔
      (permissions.contains .administrator = false → StripsCleanly s mine updated.id) := by
  have hzero : permissions.contains .administrator = updated.permissions.has 0 := by
    rw [Permissions.contains_administrator, hperm, Permissions.has_intersect,
      show Permissions.all.has 0 = true by decide, Bool.and_true]
  rw [hzero]
  refine strip_iff hmine (anySets_updated hu hget) (fun i hi => ?_) fun i hi => ?_
  · rw [show rolePermissions s.perms.roles updated.id = existing.permissions by simp [rolePermissions, hget]]
    by_cases ho : existing.permissions.has i = true
    · exact .inl ho
    · refine .inr (hadd i ?_)
      rw [Permissions.has_without, hi]
      simpa using ho
  · rw [hperm, Permissions.has_intersect, Bool.and_eq_true] at hi
    exact hi.2

theorem delete_iff (hu : Keyed.Unique Role.id s.perms.roles) {id : RoleId} (hne : id ≠ everyoneRoleId) :
    (∀ m, s.isOwner m = false →
      ((s.perms.base m).union mine).contains ((deletedPerms s.perms id).base m) = true) ↔
      StripsCleanly s mine id := by
  have hbits : ∀ m i, anySets (deletedPerms s.perms id).roles ((deletedPerms s.perms id).held m) i =
      (anySets s.perms.roles ((s.perms.held m).filter (· ≠ id)) i ||
        decide (id ∈ s.perms.held m) && Permissions.none.has i) := by
    intro m i
    have hheld : (deletedPerms s.perms id).held m = (s.perms.held m).filter (· ≠ id) := by
      unfold PermState.held
      rw [deletedPerms_grants, List.filter_cons, if_pos (by simpa using Ne.symm hne)]
    rw [hheld, Permissions.has_none, Bool.and_false, Bool.or_false]
    refine anySets_congr (fun j hj => ?_) i
    have hj : j ≠ id := by simpa using (List.mem_filter.mp hj).2
    rw [show (deletedPerms s.perms id).roles = compacted (Keyed.erase Role.id id s.perms.roles) from rfl,
      rolePermissions_compacted (hu.erase id), rolePermissions_erase, if_neg hj]
  refine (strip_iff hmine hbits (fun i hi => ?_) fun i hi => ?_).trans (by simp)
  · simp at hi
  · simp at hi

theorem reorder_grows (hu : Keyed.Unique Role.id s.perms.roles) (positions : List (RoleId × UInt32))
    (m : Fingerprint) :
    ((s.perms.base m).union mine).contains ((reorderedPerms s.perms positions).base m) = true := by
  have hrole : ∀ id, rolePermissions (sortByPosition (withPositions positions s.perms.roles)) id =
      rolePermissions s.perms.roles id := by
    intro id
    rw [rolePermissions_sort (unique_withPositions hu positions),
      rolePermissions_of_unplaced (withPositions_unplaced _ _)]
  have hall := fun i => anySets_congr (fun id (_ : id ∈ s.perms.held m) => hrole id) i
  exact base_grows hmine (fun i hi => .inl ((hall i) ▸ hi)) fun h => (hall 0).trans h

/-- A member's grants become `roles`. -/
theorem grant_iff (f : Fingerprint) (roles : List RoleId) :
    (∀ m, s.isOwner m = false →
      ((s.perms.base m).union mine).contains ((grantedPerms s.perms f roles).base m) = true) ↔
      WithinMeans s mine (.grant f roles) := by
  have hgrants := grantedPerms_grants s.perms f roles
  have hother : ∀ m, m ≠ f → ((s.perms.base m).union mine).contains ((grantedPerms s.perms f roles).base m) = true := by
    intro m hm
    have : (grantedPerms s.perms f roles).held m = s.perms.held m := by simp [PermState.held, hgrants, hm]
    exact base_grows hmine (fun i hi => .inl (by rwa [this] at hi)) fun h => by rwa [this]
  have hheld : (grantedPerms s.perms f roles).held f = everyoneRoleId :: roles := by simp [PermState.held, hgrants]
  have hself : ((s.perms.base f).union mine).contains ((grantedPerms s.perms f roles).base f) = true ↔
      if administers s.perms.roles (s.perms.held f) then
        administers s.perms.roles (everyoneRoleId :: roles) = true ∨
          setsKnown s.perms.roles mine (everyoneRoleId :: roles) = true
      else ∀ id ∈ roles, id ∉ s.perms.grants f →
        ((s.perms.base f).union mine).contains (rolePermissions s.perms.roles id) = true := by
    rw [contains_base_iff hmine, hheld, administers_eq, administers_eq, setsKnown_iff,
      show (grantedPerms s.perms f roles).roles = s.perms.roles from rfl]
    cases hadm : anySets s.perms.roles (s.perms.held f) 0 with
    | true => rfl
    | false =>
      have hb : ∀ i, (s.perms.base f).has i = anySets s.perms.roles (s.perms.held f) i := by
        intro i
        unfold PermState.base
        rw [resolve_none, has_base_held, hadm, if_neg Bool.false_ne_true, has_base_held]
      simp only [Bool.false_eq_true, if_false, Permissions.contains_iff, Permissions.has_union, hb, Bool.or_eq_true]
      constructor
      · intro h id hid _ i hi
        exact h i (List.any_eq_true.mpr ⟨id, by simp [hid], hi⟩)
      · intro h i hi
        obtain ⟨id, hid, hi⟩ := List.any_eq_true.mp hi
        by_cases hg : id ∈ s.perms.held f
        · exact .inl (List.any_eq_true.mpr ⟨id, hg, hi⟩)
        · have hne : id ≠ everyoneRoleId := fun e => hg (by simp [PermState.held, e])
          exact h id (by simpa [hne] using hid) (fun e => hg (by simp [PermState.held, e])) i hi
  constructor
  · intro h hf
    exact hself.mp (h f hf)
  · intro h m hm
    by_cases hmf : m = f
    · subst hmf; exact hself.mpr (h hm)
    · exact hother m hmf

end

/-! ## Every acknowledged command -/

section
variable {perform : (op : Await) → World → op.Reply × World} {s : Shared} {w : World} {client : ClientId}
  {nonce : UInt64}

theorem base_of_plain {p : PermState} {m : Fingerprint} (h : (p.base m).has 0 = false) :
    p.base m = basePermissions p.roles (p.grants m) := by
  unfold PermState.base at h ⊢
  rw [resolve_none] at h ⊢
  split at h
  · exact absurd h (by decide)
  · rename_i hn; rw [if_neg hn]

/-- An acknowledged role command of a manager who is neither owner nor
administrator mints nothing exactly when it stays within the manager's means. -/
theorem noneMinted_iff {cmd : RoleCommand} {e : ConnectedClient} (hu : Keyed.Unique Role.id s.perms.roles)
    (he : s.client? client = some e) (howner : s.isOwner e.info.fingerprint = false)
    (hplain : (s.perms.base e.info.fingerprint).contains .administrator = false)
    (hack : Acked s (exec perform (cmd.handle client nonce) s w).1 client nonce) :
    NoneMinted s (exec perform (cmd.handle client nonce) s w).1 e.info.fingerprint ↔
      WithinMeans s (s.perms.base e.info.fingerprint) cmd := by
  obtain ⟨a, next, save, ha, -, hp, hnext, -⟩ := RoleCommand.acked hack
  obtain ⟨-, e', he', rfl⟩ := actor_ok ha
  obtain rfl : e = e' := Option.some.inj (he.symm.trans he')
  rw [howner] at hp
  change Passes s client nonce ⟨_, _, s.perms.base e.info.fingerprint⟩ cmd next save at hp
  unfold NoneMinted
  rw [hnext]
  have hmine : (s.perms.base e.info.fingerprint).has 0 = false := by rwa [Permissions.contains_administrator] at hplain
  have hgrant : ∀ bits : Permissions,
      (Actor.mk (s.perms.grants e.info.fingerprint) false (s.perms.base e.info.fingerprint)).mayGrant bits = true →
      ∀ i, bits.has i = true → (s.perms.base e.info.fingerprint).has i = true := by
    intro bits h i hi
    simp only [Actor.mayGrant, hplain, Bool.or_self, Bool.false_or] at h
    exact Permissions.has_of_contains h hi
  cases hp with
  | @create name permissions _ hmay =>
    have heveryone : (rolePermissions s.perms.roles everyoneRoleId).has 0 = false := by
      rw [base_of_plain hmine, has_base, Bool.or_eq_false_iff] at hmine
      exact hmine.1
    exact iff_of_true (fun m _ => create_grows hmine hu heveryone _ (hgrant _ hmay) m) trivial
  | @update id name color permissions existing updated hget _ _ hedit =>
    obtain ⟨hid, -, hsame, hnew⟩ := editedRole_ok hedit
    obtain rfl : id = updated.id := by rw [hid, Keyed.get_key hget]
    cases permissions with
    | none => exact iff_of_true (fun m _ => rename_grows hmine hu hget (hsame rfl) m) trivial
    | some permissions =>
      obtain ⟨hperm, hmay⟩ := hnew permissions rfl
      exact update_iff hmine hu hget hperm (by rw [hperm]; exact hgrant _ hmay)
  | @delete id hne _ _ => exact delete_iff hmine hu hne
  | @reorder positions _ _ _ => exact iff_of_true (fun m _ => reorder_grows hmine hu positions m) trivial
  | grant => exact grant_iff hmine ..

end

theorem noneMinted_iff_createRole :
    NoneMinted managerServer
      (exec Await.perform (RoleCommand.handle 1 7 (.create "door" .viewChannel)) managerServer .empty).1 (.rep 1) :=
  (noneMinted_iff (e := exampleClient 1 1 [2] none) (by unfold Keyed.Unique; decide) (by decide +kernel) rfl
    (by decide +kernel) (by decide +kernel)).mpr trivial

/-- The manager gives itself the role that bans: hierarchy is checked, the bits are not. -/
theorem setMemberRoles_mints :
    let s' := (exec Await.perform (RoleCommand.handle 1 7 (.grant (.rep 1) [2, 1])) managerServer .empty).1
    managerServer.isOwner (.rep 1) = false ∧ (managerServer.perms.base (.rep 1)).contains .administrator = false ∧
      Acked managerServer s' 1 7 ∧ ¬ NoneMinted managerServer s' (.rep 1) := by
  refine ⟨rfl, by decide +kernel, by decide +kernel, fun h => ?_⟩
  have : ((managerServer.perms.base (.rep 1)).union (managerServer.perms.base (.rep 1))).contains
      (PermState.base _ (.rep 1)) = true := h (.rep 1) rfl
  revert this
  decide +kernel

end PickleChat
