import PickleChat.Identity
import PickleChat.Lib.Keyed
import PickleChat.Lib.Word

/-!
# Permissions

The bitset, roles, channel overwrites and `resolve`, as both ends of the wire
share them, and what each of them does to a single bit.
-/

namespace PickleChat

abbrev RoleId := UInt32

def everyoneRoleId : RoleId := 0

structure Permissions where
  bits : BitVec 64
  deriving DecidableEq

namespace Permissions

def administrator : Permissions := ⟨1#64 <<< 0⟩
def manageServer : Permissions := ⟨1#64 <<< 1⟩
def manageRoles : Permissions := ⟨1#64 <<< 2⟩
def manageChannels : Permissions := ⟨1#64 <<< 3⟩
def kickMembers : Permissions := ⟨1#64 <<< 4⟩
def banMembers : Permissions := ⟨1#64 <<< 5⟩
def viewChannel : Permissions := ⟨1#64 <<< 16⟩
def sendMessages : Permissions := ⟨1#64 <<< 17⟩
def readHistory : Permissions := ⟨1#64 <<< 18⟩
def manageMessages : Permissions := ⟨1#64 <<< 19⟩
def connect : Permissions := ⟨1#64 <<< 20⟩
def speak : Permissions := ⟨1#64 <<< 21⟩
def muteMembers : Permissions := ⟨1#64 <<< 22⟩
def moveMembers : Permissions := ⟨1#64 <<< 23⟩

def all : Permissions :=
  ⟨administrator.bits ||| manageServer.bits ||| manageRoles.bits ||| manageChannels.bits ||| kickMembers.bits |||
    banMembers.bits ||| viewChannel.bits ||| sendMessages.bits ||| readHistory.bits ||| manageMessages.bits |||
    connect.bits ||| speak.bits ||| muteMembers.bits ||| moveMembers.bits⟩

/-- The bits an overwrite may touch. -/
def channelScoped : Permissions :=
  ⟨viewChannel.bits ||| sendMessages.bits ||| readHistory.bits ||| manageMessages.bits ||| connect.bits |||
    speak.bits ||| muteMembers.bits ||| moveMembers.bits⟩

def none : Permissions := ⟨0⟩

def defaultEveryone : Permissions :=
  ⟨viewChannel.bits ||| sendMessages.bits ||| readHistory.bits ||| connect.bits ||| speak.bits⟩

def contains (p bits : Permissions) : Bool := p.bits &&& bits.bits == bits.bits
def union (p bits : Permissions) : Permissions := ⟨p.bits ||| bits.bits⟩
def without (p bits : Permissions) : Permissions := ⟨p.bits &&& ~~~bits.bits⟩
def intersect (p bits : Permissions) : Permissions := ⟨p.bits &&& bits.bits⟩
def isEmpty (p : Permissions) : Bool := p.bits == 0

/-! ## One bit at a time -/

def has (p : Permissions) (i : Nat) : Bool := p.bits.getLsbD i

theorem ext_has {p q : Permissions} (h : ∀ i, p.has i = q.has i) : p = q := by
  cases p; cases q
  exact congrArg Permissions.mk (BitVec.eq_of_getLsbD_eq fun i _ => h i)

@[simp] theorem has_none (i : Nat) : none.has i = false := by simp [has, none]

@[simp] theorem has_union (p q : Permissions) (i : Nat) : (p.union q).has i = (p.has i || q.has i) := by
  simp [has, union]

@[simp] theorem has_intersect (p q : Permissions) (i : Nat) : (p.intersect q).has i = (p.has i && q.has i) := by
  simp [has, intersect]

@[simp] theorem has_without (p q : Permissions) (i : Nat) : (p.without q).has i = (p.has i && !q.has i) := by
  unfold has without
  by_cases h : i < 64
  · simp [h]
  · simp [BitVec.getLsbD_of_ge _ i (Nat.le_of_not_lt h)]

theorem contains_iff {p q : Permissions} : p.contains q = true ↔ ∀ i, q.has i = true → p.has i = true := by
  unfold contains
  rw [beq_iff_eq]
  constructor
  · intro h i hi
    have := congrArg (fun b => b.getLsbD i) h
    simp only [has] at hi
    simp only [BitVec.getLsbD_and, hi, Bool.and_true] at this
    exact this
  · intro h
    apply BitVec.eq_of_getLsbD_eq
    intro i _
    rw [BitVec.getLsbD_and]
    cases hq : q.bits.getLsbD i with
    | false => simp
    | true => rw [show p.bits.getLsbD i = true from h i hq]; rfl

theorem has_bit {k : Nat} (hk : k < 64) (i : Nat) : (Permissions.mk (1#64 <<< k)).has i = decide (i = k) := by
  unfold has
  rw [BitVec.getLsbD_shiftLeft]
  by_cases h : i = k
  · subst h; simp [hk]
  · rcases Nat.lt_or_ge i k with hlt | hge
    · simp [h, hlt]
    · have : i - k ≠ 0 := by omega
      simp [h, this]

theorem contains_bit {k : Nat} (hk : k < 64) (p : Permissions) : p.contains ⟨1#64 <<< k⟩ = p.has k := by
  rw [Bool.eq_iff_iff, contains_iff]
  simp [has_bit hk]

theorem contains_administrator (p : Permissions) : p.contains administrator = p.has 0 :=
  contains_bit (by decide) p

theorem contains_viewChannel (p : Permissions) : p.contains viewChannel = p.has 16 :=
  contains_bit (by decide) p

theorem has_of_contains {p q : Permissions} (h : p.contains q = true) {i : Nat} (hi : q.has i = true) :
    p.has i = true := contains_iff.mp h i hi

end Permissions

/-! ## Roles and overwrites -/

structure Role where
  id : RoleId
  name : String
  color : Option UInt32
  position : UInt32
  permissions : Permissions
  deriving DecidableEq

inductive OverwriteTarget where
  | role (id : RoleId)
  | member (fingerprint : Fingerprint)
  deriving DecidableEq

structure Overwrite where
  target : OverwriteTarget
  allow : Permissions
  deny : Permissions
  deriving DecidableEq

def rolePermissions (roles : List Role) (id : RoleId) : Permissions :=
  ((Keyed.get Role.id id roles).map Role.permissions).getD .none

def overwriteForRole (overwrites : List Overwrite) (id : RoleId) : Option Overwrite :=
  Keyed.get Overwrite.target (.role id) overwrites

def overwriteForMember (overwrites : List Overwrite) (member : Fingerprint) : Option Overwrite :=
  Keyed.get Overwrite.target (.member member) overwrites

/-- Step 1 of `resolve`: everyone's bits and those of every role held. -/
def basePermissions (roles : List Role) (memberRoles : List RoleId) : Permissions :=
  memberRoles.foldl (fun base id => base.union (rolePermissions roles id)) (rolePermissions roles everyoneRoleId)

/-- Deny, then allow, within the channel-scoped bits. -/
def applyBits (perms deny allow : Permissions) : Permissions :=
  (perms.without (deny.intersect .channelScoped)).union (allow.intersect .channelScoped)

def applyOverwrite (perms : Permissions) : Option Overwrite → Permissions
  | none => perms
  | some ow => applyBits perms ow.deny ow.allow

/-- The denies and allows gathered so far, and those of one more role. -/
def addRoleOverwrite (overwrites : List Overwrite) (acc : Permissions × Permissions) (id : RoleId) :
    Permissions × Permissions :=
  match overwriteForRole overwrites id with
  | some ow => (acc.1.union ow.deny, acc.2.union ow.allow)
  | none => acc

/-- All denies and all allows of the overwrites for the roles held. -/
def roleOverwrites (overwrites : List Overwrite) (memberRoles : List RoleId) : Permissions × Permissions :=
  memberRoles.foldl (addRoleOverwrite overwrites) (.none, .none)

/-- Steps 3 to 5: the overwrites of a channel on top of a base. -/
def channelPermissions (base : Permissions) (overwrites : List Overwrite) (memberRoles : List RoleId)
    (member : Fingerprint) : Permissions :=
  let perms := applyOverwrite base (overwriteForRole overwrites everyoneRoleId)
  let (denies, allows) := roleOverwrites overwrites memberRoles
  let perms := applyBits perms denies allows
  applyOverwrite perms (overwriteForMember overwrites member)

def resolve (roles : List Role) (memberRoles : List RoleId) (member : Fingerprint) (owner : Bool)
    (channelOverwrites : Option (List Overwrite)) : Permissions :=
  if owner then .all else
  let base := basePermissions roles memberRoles
  if base.contains .administrator then .all else
  match channelOverwrites with
  | none => base
  | some overwrites =>
    let perms := channelPermissions base overwrites memberRoles member
    if !perms.contains .viewChannel then .none else perms

def topRolePosition (roles : List Role) (memberRoles : List RoleId) : UInt32 :=
  Word.maxOr0 ((memberRoles.filterMap fun id => Keyed.get Role.id id roles).map Role.position)

def canActOn (roles : List Role) (actorRoles : List RoleId) (actorOwner : Bool) (targetRoles : List RoleId)
    (targetOwner : Bool) : Bool :=
  if targetOwner then false else
  if actorOwner then true else
  topRolePosition roles actorRoles > topRolePosition roles targetRoles

def canManageRole (roles : List Role) (actorRoles : List RoleId) (actorOwner : Bool) (role : RoleId) : Bool :=
  if actorOwner then true else
  match Keyed.get Role.id role roles with
  | none => false
  | some target => target.position < topRolePosition roles actorRoles

/-! ## What each step does to a bit -/

theorem has_foldl_union (f : RoleId → Permissions) (i : Nat) :
    ∀ (l : List RoleId) (p : Permissions),
      (l.foldl (fun base id => base.union (f id)) p).has i = (p.has i || l.any fun id => (f id).has i)
  | [], p => by simp
  | id :: l, p => by
    rw [List.foldl_cons, has_foldl_union f i l, Permissions.has_union, List.any_cons, Bool.or_assoc]

theorem has_base (roles : List Role) (g : List RoleId) (i : Nat) :
    (basePermissions roles g).has i =
      ((rolePermissions roles everyoneRoleId).has i || g.any fun id => (rolePermissions roles id).has i) :=
  has_foldl_union _ i g _

@[simp] theorem has_applyBits (p deny allow : Permissions) (i : Nat) :
    (applyBits p deny allow).has i =
      (p.has i && !(deny.has i && Permissions.channelScoped.has i) ||
        allow.has i && Permissions.channelScoped.has i) := by
  simp [applyBits]

/-- Whether some overwrite for one of the roles sets bit `i` in its `part`. -/
def anyRoleOverwrite (overwrites : List Overwrite) (g : List RoleId) (part : Overwrite → Permissions)
    (i : Nat) : Bool :=
  g.any fun id => ((overwriteForRole overwrites id).map fun ow => (part ow).has i).getD false

theorem has_roleOverwrites (overwrites : List Overwrite) (g : List RoleId) (i : Nat) :
    (roleOverwrites overwrites g).1.has i = anyRoleOverwrite overwrites g Overwrite.deny i ∧
      (roleOverwrites overwrites g).2.has i = anyRoleOverwrite overwrites g Overwrite.allow i := by
  have h : ∀ (l : List RoleId) (acc : Permissions × Permissions),
      (l.foldl (addRoleOverwrite overwrites) acc).1.has i =
          (acc.1.has i || anyRoleOverwrite overwrites l Overwrite.deny i) ∧
        (l.foldl (addRoleOverwrite overwrites) acc).2.has i =
          (acc.2.has i || anyRoleOverwrite overwrites l Overwrite.allow i) := by
    intro l
    induction l with
    | nil => intro acc; simp [anyRoleOverwrite]
    | cons id l ih =>
      intro acc
      rw [List.foldl_cons, (ih _).1, (ih _).2]
      simp only [anyRoleOverwrite, List.any_cons, addRoleOverwrite]
      cases h : overwriteForRole overwrites id <;> simp [Bool.or_assoc]
  simpa [roleOverwrites] using h g (.none, .none)

theorem has_channelPermissions (base : Permissions) (ows : List Overwrite) (g : List RoleId) (m : Fingerprint)
    (i : Nat) :
    (channelPermissions base ows g m).has i =
      (applyOverwrite (applyBits (applyOverwrite base (overwriteForRole ows everyoneRoleId))
        (roleOverwrites ows g).1 (roleOverwrites ows g).2) (overwriteForMember ows m)).has i := rfl

theorem resolve_owner (roles : List Role) (g : List RoleId) (m : Fingerprint) (ows : Option (List Overwrite)) :
    resolve roles g m true ows = .all := rfl

theorem resolve_none (roles : List Role) (g : List RoleId) (m : Fingerprint) :
    resolve roles g m false none =
      if (basePermissions roles g).has 0 then .all else basePermissions roles g := by
  simp [resolve, Permissions.contains_administrator]

theorem resolve_some (roles : List Role) (g : List RoleId) (m : Fingerprint) (ows : List Overwrite) :
    resolve roles g m false (some ows) =
      if (basePermissions roles g).has 0 then .all
      else if (channelPermissions (basePermissions roles g) ows g m).has 16 then
        channelPermissions (basePermissions roles g) ows g m
      else .none := by
  simp only [resolve, Permissions.contains_administrator, Permissions.contains_viewChannel]
  cases (channelPermissions (basePermissions roles g) ows g m).has 16 <;> simp

/-! ## Resolution reads sets -/

theorem any_congr_mem {l l' : List RoleId} (h : ∀ id, id ∈ l ↔ id ∈ l') (f : RoleId → Bool) :
    l.any f = l'.any f := by
  rw [Bool.eq_iff_iff, List.any_eq_true, List.any_eq_true]
  simp only [h]

section
variable {roles roles' : List Role} {g g' : List RoleId} {ows ows' : List Overwrite}

theorem rolePermissions_congr (hu : Keyed.Unique Role.id roles) (hu' : Keyed.Unique Role.id roles')
    (hr : ∀ r, r ∈ roles ↔ r ∈ roles') (id : RoleId) : rolePermissions roles id = rolePermissions roles' id := by
  unfold rolePermissions
  rw [Keyed.get_congr hu hu' hr]

theorem basePermissions_congr (hr : ∀ id, rolePermissions roles id = rolePermissions roles' id)
    (hg : ∀ id, id ∈ g ↔ id ∈ g') : basePermissions roles g = basePermissions roles' g' := by
  apply Permissions.ext_has
  intro i
  rw [has_base, has_base, any_congr_mem hg, hr]
  simp only [hr]

theorem channelPermissions_congr (hget : ∀ t, Keyed.get Overwrite.target t ows = Keyed.get Overwrite.target t ows')
    (hg : ∀ id, id ∈ g ↔ id ∈ g') (base : Permissions) (m : Fingerprint) :
    channelPermissions base ows g m = channelPermissions base ows' g' m := by
  have hany : ∀ part i, anyRoleOverwrite ows g part i = anyRoleOverwrite ows' g' part i := by
    intro part i
    unfold anyRoleOverwrite overwriteForRole
    rw [any_congr_mem hg]
    simp only [hget]
  have hro : roleOverwrites ows g = roleOverwrites ows' g' := by
    apply Prod.ext <;> apply Permissions.ext_has <;> intro i
    · rw [(has_roleOverwrites ..).1, (has_roleOverwrites ..).1, hany]
    · rw [(has_roleOverwrites ..).2, (has_roleOverwrites ..).2, hany]
  unfold channelPermissions overwriteForRole overwriteForMember
  rw [hro, hget, hget]

theorem resolve_none_congr (hr : ∀ id, rolePermissions roles id = rolePermissions roles' id)
    (hg : ∀ id, id ∈ g ↔ id ∈ g') (m : Fingerprint) (owner : Bool) :
    resolve roles g m owner none = resolve roles' g' m owner none := by
  cases owner with
  | true => rw [resolve_owner, resolve_owner]
  | false => simp only [resolve_none, basePermissions_congr hr hg]

theorem resolve_some_congr (hr : ∀ id, rolePermissions roles id = rolePermissions roles' id)
    (hg : ∀ id, id ∈ g ↔ id ∈ g') (hget : ∀ t, Keyed.get Overwrite.target t ows = Keyed.get Overwrite.target t ows')
    (m : Fingerprint) (owner : Bool) :
    resolve roles g m owner (some ows) = resolve roles' g' m owner (some ows') := by
  cases owner with
  | true => rw [resolve_owner, resolve_owner]
  | false => simp only [resolve_some, basePermissions_congr hr hg, channelPermissions_congr hget hg]

/-- `resolve` depends on the roles, grants and overwrites as sets. -/
theorem resolve_congr (hu : Keyed.Unique Role.id roles) (hu' : Keyed.Unique Role.id roles')
    (hr : ∀ r, r ∈ roles ↔ r ∈ roles') (hg : ∀ id, id ∈ g ↔ id ∈ g')
    (hou : Keyed.Unique Overwrite.target ows) (hou' : Keyed.Unique Overwrite.target ows')
    (ho : ∀ o, o ∈ ows ↔ o ∈ ows') (m : Fingerprint) (owner : Bool) :
    resolve roles g m owner none = resolve roles' g' m owner none ∧
      resolve roles g m owner (some ows) = resolve roles' g' m owner (some ows') := by
  have hr' := rolePermissions_congr hu hu' hr
  exact ⟨resolve_none_congr hr' hg m owner, resolve_some_congr hr' hg (Keyed.get_congr hou hou' ho) m owner⟩

theorem topRolePosition_congr (hu : Keyed.Unique Role.id roles) (hu' : Keyed.Unique Role.id roles')
    (hr : ∀ r, r ∈ roles ↔ r ∈ roles') (hg : ∀ id, id ∈ g ↔ id ∈ g') :
    topRolePosition roles g = topRolePosition roles' g' := by
  apply Word.maxOr0_congr
  intro a
  simp only [List.mem_map, List.mem_filterMap, Keyed.get_congr hu hu' hr, hg]

end

/-! ## More bits, more channels -/

section
variable {roles roles' : List Role} {g : List RoleId}
  (h : ∀ id i, (rolePermissions roles' id).has i = true → (rolePermissions roles id).has i = true)
include h

theorem has_base_mono (i : Nat) (hb : (basePermissions roles' g).has i = true) :
    (basePermissions roles g).has i = true := by
  rw [has_base, Bool.or_eq_true, List.any_eq_true] at hb ⊢
  rcases hb with hb | ⟨id, hid, hb⟩
  · exact .inl (h _ i hb)
  · exact .inr ⟨id, hid, h _ i hb⟩

end

theorem has_applyOverwrite_mono {p q : Permissions} {i : Nat} (h : q.has i = true → p.has i = true)
    (o : Option Overwrite)
    (hq : (applyOverwrite q o).has i = true) : (applyOverwrite p o).has i = true := by
  cases o with
  | none => exact h hq
  | some ow =>
    simp only [applyOverwrite, has_applyBits, Bool.or_eq_true, Bool.and_eq_true] at hq ⊢
    exact hq.imp_left fun hq => ⟨h hq.1, hq.2⟩

theorem has_channelPermissions_mono {p q : Permissions} {i : Nat} (h : q.has i = true → p.has i = true)
    {ows : List Overwrite} {g : List RoleId} {m : Fingerprint} (hq : (channelPermissions q ows g m).has i = true) :
    (channelPermissions p ows g m).has i = true := by
  rw [has_channelPermissions] at hq ⊢
  refine has_applyOverwrite_mono (fun hq => ?_) _ hq
  simp only [has_applyBits, Bool.or_eq_true, Bool.and_eq_true] at hq ⊢
  exact hq.imp_left fun hq => ⟨has_applyOverwrite_mono h _ hq.1, hq.2⟩

theorem resolve_view_mono {roles roles' : List Role} {g : List RoleId} {m : Fingerprint} {owner : Bool}
    {ows : List Overwrite}
    (h : ∀ id i, (rolePermissions roles' id).has i = true → (rolePermissions roles id).has i = true)
    (hv : (resolve roles' g m owner (some ows)).contains .viewChannel = true) :
    (resolve roles g m owner (some ows)).contains .viewChannel = true := by
  cases owner with
  | true =>
    rw [resolve_owner] at hv ⊢
    exact hv
  | false =>
    rw [Permissions.contains_viewChannel, resolve_some] at hv ⊢
    split at hv
    · rename_i h0
      rw [if_pos (has_base_mono h 0 h0)]
      exact hv
    · split at hv
      · split
        · decide
        · rename_i hv' _
          have hp := has_channelPermissions_mono (has_base_mono h 16) hv'
          rw [if_pos hp]
          exact hp
      · cases hv

/-! ## A role that nothing names -/

section
variable {roles : List Role} {g : List RoleId} {ows : List Overwrite} {role : RoleId}

theorem any_filter_ne {f : RoleId → Bool} (hf : f role = false) : (g.filter (· ≠ role)).any f = g.any f := by
  rw [Bool.eq_iff_iff, List.any_eq_true, List.any_eq_true]
  constructor
  · rintro ⟨id, hid, h⟩
    exact ⟨id, (List.mem_filter.mp hid).1, h⟩
  · rintro ⟨id, hid, h⟩
    have hne : id ≠ role := by
      rintro rfl
      rw [hf] at h
      cases h
    exact ⟨id, List.mem_filter.mpr ⟨hid, by simpa using hne⟩, h⟩

theorem resolve_filter_ne (hr : rolePermissions roles role = .none) (ho : overwriteForRole ows role = none)
    (m : Fingerprint) (owner : Bool) :
    resolve roles (g.filter (· ≠ role)) m owner (some ows) = resolve roles g m owner (some ows) := by
  have hb : basePermissions roles (g.filter (· ≠ role)) = basePermissions roles g := by
    apply Permissions.ext_has
    intro i
    rw [has_base, has_base, any_filter_ne]
    simp [hr]
  have hany : ∀ part i, anyRoleOverwrite ows (g.filter (· ≠ role)) part i = anyRoleOverwrite ows g part i := by
    intro part i
    refine any_filter_ne ?_
    rw [ho]
    rfl
  have hro : roleOverwrites ows (g.filter (· ≠ role)) = roleOverwrites ows g := by
    apply Prod.ext <;> apply Permissions.ext_has <;> intro i
    · rw [(has_roleOverwrites ..).1, (has_roleOverwrites ..).1, hany]
    · rw [(has_roleOverwrites ..).2, (has_roleOverwrites ..).2, hany]
  have hc : channelPermissions (basePermissions roles g) ows (g.filter (· ≠ role)) m =
      channelPermissions (basePermissions roles g) ows g m := by
    unfold channelPermissions
    rw [hro]
  cases owner with
  | true => rw [resolve_owner, resolve_owner]
  | false => rw [resolve_some, resolve_some, hb, hc]

end

theorem lt_topRolePosition {roles : List Role} {g : List RoleId} {p : UInt32} :
    p < topRolePosition roles g ↔ ∃ id ∈ g, ∃ r, Keyed.get Role.id id roles = some r ∧ p < r.position := by
  unfold topRolePosition
  rw [Word.lt_maxOr0]
  constructor
  · rintro ⟨a, ha, hp⟩
    obtain ⟨r, hr, rfl⟩ := List.mem_map.mp ha
    obtain ⟨id, hid, hget⟩ := List.mem_filterMap.mp hr
    exact ⟨id, hid, r, hget, hp⟩
  · rintro ⟨id, hid, r, hget, hp⟩
    exact ⟨_, List.mem_map.mpr ⟨r, List.mem_filterMap.mpr ⟨id, hid, hget⟩, rfl⟩, hp⟩

/-- The ladder of the source's tests: an administrator holds every bit, in any
channel. -/
example : resolve [⟨0, "everyone", none, 0, .defaultEveryone⟩, ⟨2, "admin", none, 2, .administrator⟩] [2]
    (.rep 1) false (some [⟨.role 0, .none, .viewChannel⟩]) = .all := by decide

end PickleChat
