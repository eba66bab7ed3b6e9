import PickleChat.ChannelMatrix

/-!
# The roles tab

The admin dialog lists the roles senior first, everyone pinned to the bottom, and
edits the list one click at a time. A click sends one command, made from the list
on the screen; the news that follow an acceptance redraw it for every client.
-/

namespace PickleChat

/-! ## Moving a role -/

def movable (roles : List RoleDto) : List RoleDto := roles.filter fun role => !role.isEveryone

def everyoneOf (roles : List RoleDto) : Option RoleDto := roles.find? RoleDto.isEveryone

/-- The two buttons of a row. -/
inductive Direction where
  | up
  | down
  deriving DecidableEq

/-- The row that a role changes places with. -/
def Direction.other (index : Nat) : Direction → Nat
  | .up => index - 1
  | .down => index + 1

/-- The row has the button, and it is not disabled. -/
def Direction.Enabled (rungs : List RoleDto) (index : Nat) : Direction → Prop
  | .up => index < rungs.length ∧ index ≠ 0
  | .down => index < rungs.length ∧ index ≠ rungs.length - 1

instance (rungs : List RoleDto) (index : Nat) (d : Direction) : Decidable (d.Enabled rungs index) := by
  cases d <;> exact inferInstanceAs (Decidable (_ ∧ _))

def swapAt {α : Type} (l : List α) (i j : Nat) : List α :=
  match l[i]?, l[j]? with
  | some a, some b => (l.set i b).set j a
  | _, _ => l

/-- Every id with its new position: dense, seniors high. -/
def ranked (next : List RoleDto) : List (RoleId × UInt32) :=
  next.mapIdx fun i role => (role.id, UInt32.ofNat (next.length - i))

/-- `move`: one swap on the screen, the whole permutation on the wire. -/
def moveRole (roles : List RoleDto) (index : Nat) (d : Direction) : RoleCommand :=
  .reorder (ranked (swapAt (movable roles) index (d.other index)) ++
    ((everyoneOf roles).map fun e => (e.id, 0)).toList)

/-! ## Editing a role -/

/-- The white space of a script: what Rust calls so, but for one control character and a mark. -/
def jsWhitespace (c : Char) : Bool := (Text.isWhitespace c && c.toNat != 0x85) || c.toNat == 0xFEFF

def jsTrim (s : String) : String :=
  String.ofList ((s.toList.dropWhile jsWhitespace).reverse.dropWhile jsWhitespace).reverse

def hexDigit (c : Char) : Option Nat :=
  if '0' ≤ c ∧ c ≤ '9' then some (c.toNat - 48) else
  if 'a' ≤ c ∧ c ≤ 'f' then some (c.toNat - 87) else
  if 'A' ≤ c ∧ c ≤ 'F' then some (c.toNat - 55) else none

/-- `parseInt(_, 16)`, which stops at the first character that is no digit. -/
def parseHex : List Char → Nat → Nat
  | [], n => n
  | c :: cs, n =>
    match hexDigit c with
    | some d => parseHex cs (16 * n + d)
    | none => n

/-- `parseInt(color.slice(1), 16)` -/
def parseColor (text : String) : UInt32 := UInt32.ofNat (parseHex (text.toList.drop 1) 0)

def lowercase (text : String) : String := String.ofList (text.toList.map Text.toLowercase)

/-- The state of the editor: the colour is the text of one, and no bit is ticked twice. -/
structure RoleDraft where
  name : String
  color : Option String
  bits : List String
  colored : ∀ text ∈ color, ∃ c, text = colorText c
  distinct : bits.Nodup

/-- Only what changed: a colour of `some none` clears it. -/
structure RolePatch where
  name : Option String
  color : Option (Option UInt32)
  permissions : Option (List String)
  deriving DecidableEq

def RolePatch.empty : RolePatch := ⟨none, none, none⟩

/-- The patch against the role as it stands on the screen. -/
def RoleDraft.patch (draft : RoleDraft) (role : RoleDto) : RolePatch :=
  let trimmed := jsTrim draft.name
  { name := if !role.isEveryone ∧ trimmed ≠ "" ∧ trimmed ≠ role.name then some trimmed else none
    color :=
      if lowercase (draft.color.getD "") ≠ lowercase (role.color.getD "") then some (draft.color.map parseColor)
      else none
    permissions :=
      if draft.bits.length ≠ role.permissions.length ∨ draft.bits.any (fun bit => bit ∉ role.permissions) then
        some draft.bits
      else none }

/-- `updateRole` of the interface, then `update_role` of the backend: absent and null are one
there, so that clearing has a flag of its own. -/
def RolePatch.command (id : RoleId) (patch : RolePatch) : RoleCommand :=
  let color := patch.color.join
  let clearColor := if patch.color = some none then some true else none
  .update id patch.name (if clearColor.getD false then some none else color.map some)
    (patch.permissions.map permissionsFromNames)

/-! ## The four edits -/

inductive RolesTabEdit where
  | move (index : Nat) (d : Direction)
  | save (role : RoleDto) (draft : RoleDraft)
  | remove (role : RoleDto)
  | create (name : String)

namespace RolesTabEdit

/-- What the tab offers for the list it shows. -/
def Offered (roles : List RoleDto) : RolesTabEdit → Prop
  | .move index d => d.Enabled (movable roles) index
  | .save role _ => role ∈ roles
  | .remove role => role ∈ movable roles
  | .create _ => True

def command (roles : List RoleDto) : RolesTabEdit → Option RoleCommand
  | .move index d => some (moveRole roles index d)
  | .save role draft =>
    if draft.patch role = .empty then none else some ((draft.patch role).command role.id)
  | .remove role => some (.delete role.id)
  | .create name => if jsTrim name = "" then none else some (.create (jsTrim name) (permissionsFromNames []))

end RolesTabEdit

/-! ## What an edit is to do -/

/-- Dense positions from the bottom up, above everyone. -/
def stacked (rungs : List RoleDto) : List RoleDto :=
  rungs.mapIdx fun i role => { role with position := UInt32.ofNat (rungs.length - i) }

def namesOf (bits : List String) : List String :=
  (editablePermissions.filter fun p => p.1 ∈ bits).map Prod.fst

/-- The role with what the draft says; everyone keeps its name, and so does a draft without one. -/
def RoleDraft.saved (draft : RoleDraft) (role : RoleDto) : RoleDto :=
  let trimmed := jsTrim draft.name
  { role with
    name := if role.isEveryone ∨ trimmed = "" ∨ trimmed = role.name then role.name else Text.trim trimmed
    color := draft.color
    permissions := namesOf draft.bits }

def freshRole (roles : List RoleDto) (name : String) : RoleDto :=
  { id := Word.maxOr0 (roles.map RoleDto.id) + 1, name := Text.trim (jsTrim name), color := none, position := 1,
    permissions := [], isEveryone := false }

def RolesTabEdit.result (roles : List RoleDto) : RolesTabEdit → List RoleDto
  | .move index d => stacked (swapAt (movable roles) index (d.other index)) ++ (everyoneOf roles).toList
  | .save role draft => roles.map fun r => if r.id = role.id then draft.saved r else r
  | .remove role => stacked ((movable roles).filter (·.id ≠ role.id)) ++ (everyoneOf roles).toList
  | .create name => stacked (movable roles ++ [freshRole roles name]) ++ (everyoneOf roles).toList

/-! ## Swapping -/

section
variable {α β : Type} {l : List α} {i j : Nat}

theorem swapAt_perm : (swapAt l i j).Perm l := by
  unfold swapAt
  split
  · rename_i a b ha hb
    obtain ⟨hi, rfl⟩ := List.getElem?_eq_some_iff.mp ha
    obtain ⟨hj, rfl⟩ := List.getElem?_eq_some_iff.mp hb
    have h : (l.toArray.swap i j hi hj).toList.Perm l := (Array.swap_perm hi hj).toList
    simpa [Array.swap] using h
  · exact .refl l

theorem length_swapAt : (swapAt l i j).length = l.length := swapAt_perm.length_eq

theorem getElem?_swapAt (hi : i < l.length) (hj : j < l.length) (m : Nat) :
    (swapAt l i j)[m]? = if m = j then l[i]? else if m = i then l[j]? else l[m]? := by
  unfold swapAt
  rw [List.getElem?_eq_getElem hi, List.getElem?_eq_getElem hj]
  simp only [List.getElem?_set, List.length_set]
  by_cases hmj : m = j
  · simp [hmj, hj]
  · by_cases hmi : m = i
    · subst hmi
      simp [hi, hmj, Ne.symm hmj]
    · simp [hmj, hmi, Ne.symm hmj, Ne.symm hmi]

theorem swapAt_map (f : α → β) : swapAt (l.map f) i j = (swapAt l i j).map f := by
  unfold swapAt
  simp only [List.getElem?_map]
  cases l[i]? <;> cases l[j]? <;> simp [List.map_set]

end

theorem mem_ranked {l : List Role} {q : RoleId × UInt32} :
    q ∈ ranked (l.map roleDto) ↔ ∃ m, ∃ r ∈ l[m]?, q = (r.id, UInt32.ofNat (l.length - m)) := by
  unfold ranked
  rw [List.mem_mapIdx]
  constructor
  · rintro ⟨m, hm, rfl⟩
    rw [List.length_map] at hm
    refine ⟨m, l[m], List.getElem?_eq_getElem hm, ?_⟩
    simp [roleDto]
  · rintro ⟨m, r, hr, rfl⟩
    obtain ⟨hm, rfl⟩ := List.getElem?_eq_some_iff.mp hr
    refine ⟨m, by rwa [List.length_map], ?_⟩
    simp [roleDto]

/-! ## The list of a server in order -/

def shownRoles (roles : List Role) : List RoleDto := (roles.map roleDto).reverse

theorem sortByPosition_eq {l m : List Role} (hp : l.Perm m) (hm : m.Pairwise fun a b => a.position < b.position) :
    sortByPosition l = m := by
  have hinj := List.inj_on_of_nodup_map (List.pairwise_map.mpr (hm.imp UInt32.ne_of_lt))
  refine List.Perm.eq_of_pairwise (fun a b ha hb hab hba => ?_) (List.pairwise_insertionSort _ _)
    (hm.imp UInt32.le_of_lt) ((perm_sortByPosition l).trans hp)
  exact hinj (hp.mem_iff.mp (mem_sortByPosition.mp ha)) hb (UInt32.le_antisymm hab hba)

theorem PermMirror.HasRoles.rolesDto {p : PermMirror} {roles : List Role} (h : p.HasRoles roles)
    (ho : RoleOrder roles) : p.rolesDto = shownRoles roles := by
  have hperm : p.roles.Perm roles := (List.perm_ext_iff_of_nodup (.of_map _ h.ids) (.of_map _ ho.ids)).mpr h.same
  have hsorted : (shownRoles roles).Pairwise fun a b => b.position ≤ a.position :=
    List.pairwise_reverse.mpr (List.pairwise_map.mpr (ho.sorted.imp UInt32.le_of_lt))
  have hdto : (p.roles.map roleDto).Perm (shownRoles roles) := (hperm.map roleDto).trans (List.reverse_perm _).symm
  refine List.Perm.eq_of_pairwise (fun a b ha hb hab hba => ?_) (List.pairwise_insertionSort _ _) hsorted
    ((List.perm_insertionSort _ _).trans hdto)
  obtain ⟨r, hr, rfl⟩ := List.mem_map.mp ((List.mem_insertionSort _).mp ha)
  obtain ⟨q, hq, rfl⟩ := List.mem_map.mp (List.mem_reverse.mp hb)
  rw [ho.position_inj ((h.same r).mp hr) hq (UInt32.le_antisymm hba hab)]

section
variable {roles : List Role} {e : Role} {rest : List Role}

theorem movable_shown (hu : Keyed.Unique Role.id (e :: rest)) (he : e.id = everyoneRoleId) :
    movable (shownRoles (e :: rest)) = (rest.map roleDto).reverse := by
  unfold movable shownRoles
  rw [List.filter_reverse, List.map_cons, List.filter_cons, if_neg (by simp [roleDto, he])]
  refine congrArg List.reverse (List.filter_eq_self.mpr fun d hd => ?_)
  obtain ⟨r, hr, rfl⟩ := List.mem_map.mp hd
  have hne : r.id ≠ e.id := fun h => (List.nodup_cons.mp hu).1 (h ▸ List.mem_map_of_mem hr)
  simpa [roleDto, ← he] using hne

theorem everyoneOf_shown (hu : Keyed.Unique Role.id (e :: rest)) (he : e.id = everyoneRoleId) :
    everyoneOf (shownRoles (e :: rest)) = some (roleDto e) := by
  have hnone : (rest.map roleDto).reverse.find? RoleDto.isEveryone = none := by
    refine List.find?_eq_none.mpr fun d hd => ?_
    obtain ⟨r, hr, rfl⟩ := List.mem_map.mp (List.mem_reverse.mp hd)
    have hne : r.id ≠ e.id := fun h => (List.nodup_cons.mp hu).1 (h ▸ List.mem_map_of_mem hr)
    simpa [roleDto, ← he] using hne
  unfold everyoneOf shownRoles
  rw [List.map_cons, List.reverse_cons, List.find?_append, hnone]
  simp [roleDto, he]

theorem roleDto_unplaced (r : Role) : roleDto r = { roleDto r.unplaced with position := r.position } := rfl

/-- A list of roles in order is told by the order of its roles. -/
theorem RoleOrder.shown_stacked (ho : RoleOrder roles) {rungs : List Role}
    (hroles : roles.map Role.unplaced = (e :: rungs.reverse).map Role.unplaced) (he : e.position = 0) :
    shownRoles roles = stacked (rungs.map roleDto) ++ [roleDto e] := by
  have hpos := ho.positions
  cases roles with
  | nil => cases hroles
  | cons e' rest' =>
    rw [List.map_cons, List.map_cons] at hroles
    obtain ⟨hfirst, hrest⟩ := List.cons.inj hroles
    rw [List.map_cons, List.length_cons, List.range_succ_eq_map, List.map_cons, List.map_map] at hpos
    obtain ⟨hzero, hpos⟩ := List.cons.inj hpos
    obtain rfl : e' = e := by
      rw [← unplaced_eq hfirst, show e'.position = e.position from hzero.trans he.symm]
    have hlen : rest'.length = rungs.length := by simpa using congrArg List.length hrest
    unfold shownRoles
    rw [List.map_cons, List.reverse_cons]
    refine congrArg (· ++ [roleDto e']) (List.ext_getElem (by simp [stacked, hlen]) fun i h₁ h₂ => ?_)
    have hi : i < rungs.length := by simpa [hlen] using h₁
    have hj : rest'.length - 1 - i < rest'.length := by omega
    have hback : rungs.length - 1 - (rest'.length - 1 - i) = i := by omega
    have hat : rest'[rest'.length - 1 - i].unplaced = rungs[i].unplaced := by
      have h := List.getElem_of_eq hrest (by rwa [List.length_map])
      simpa [hback] using h
    have hrank : rest'[rest'.length - 1 - i].position = UInt32.ofNat (rungs.length - i) := by
      have h := List.getElem_of_eq hpos (by rwa [List.length_map])
      rw [List.getElem_map, List.getElem_map, List.getElem_range, Function.comp_apply] at h
      rw [h, show (rest'.length - 1 - i).succ = rungs.length - i by omega]
    simp only [stacked, List.getElem_reverse, List.getElem_map, List.length_map, List.getElem_mapIdx]
    rw [roleDto_unplaced, roleDto_unplaced rungs[i], hat, hrank]

end

/-! ## Texts of colours -/

theorem hexDigit_digitChar : ∀ d < 16, hexDigit d.digitChar = some d := by decide

theorem toLowercase_digitChar : ∀ d < 16, Text.toLowercase d.digitChar = d.digitChar := by decide

theorem parseHex_toDigits (n : Nat) (rest : List Char) : parseHex (Nat.toDigits 16 n ++ rest) 0 = parseHex rest n := by
  induction n using Nat.strong_induction_on generalizing rest with
  | h n ih =>
    rw [Nat.toDigits_eq_if (by decide)]
    by_cases hn : n < 16
    · simp [hn, parseHex, hexDigit_digitChar]
    · have hd : n % 16 < 16 := Nat.mod_lt _ (by decide)
      rw [if_neg hn, List.append_assoc, ih (n / 16) (by omega)]
      simp only [List.cons_append, List.nil_append, parseHex, hexDigit_digitChar _ hd]
      rw [Nat.div_add_mod]

theorem parseHex_zeros (k : Nat) (rest : List Char) : parseHex (List.replicate k '0' ++ rest) 0 = parseHex rest 0 := by
  induction k with
  | zero => rfl
  | succ k ih => rwa [List.replicate_succ, List.cons_append, parseHex]

theorem parseColor_colorText (c : UInt32) : parseColor (colorText c) = c := by
  have h := parseHex_toDigits c.toNat []
  rw [List.append_nil] at h
  simp [parseColor, colorText, parseHex_zeros, h, parseHex]

theorem toLowercase_toDigits (n : Nat) : (Nat.toDigits 16 n).map Text.toLowercase = Nat.toDigits 16 n := by
  induction n using Nat.strong_induction_on with
  | h n ih =>
    rw [Nat.toDigits_eq_if (by decide)]
    by_cases hn : n < 16
    · simp [hn, toLowercase_digitChar]
    · have hd : n % 16 < 16 := Nat.mod_lt _ (by decide)
      rw [if_neg hn, List.map_append, ih (n / 16) (by omega), List.map_singleton, toLowercase_digitChar _ hd]

theorem lowercase_colorText (c : UInt32) : lowercase (colorText c) = colorText c := by
  have hzero : Text.toLowercase '0' = '0' := by decide
  have hmark : Text.toLowercase '#' = '#' := by decide
  simp [lowercase, colorText, toLowercase_toDigits, hzero, hmark]

theorem colorText_ne_empty (c : UInt32) : colorText c ≠ "" := by
  intro h
  simpa [colorText] using congrArg String.toList h

/-- Colours compare as texts in lower case as they do. -/
theorem lowercase_inj {a b : Option String} (ha : ∀ text ∈ a, ∃ c, text = colorText c)
    (hb : ∀ text ∈ b, ∃ c, text = colorText c) (h : lowercase (a.getD "") = lowercase (b.getD "")) : a = b := by
  have hempty : lowercase "" = "" := by decide
  cases a with
  | none =>
    cases b with
    | none => rfl
    | some y =>
      obtain ⟨d, rfl⟩ := hb y rfl
      rw [Option.getD_none, Option.getD_some, hempty, lowercase_colorText] at h
      exact absurd h.symm (colorText_ne_empty d)
  | some x =>
    obtain ⟨c, rfl⟩ := ha x rfl
    cases b with
    | none =>
      rw [Option.getD_none, Option.getD_some, hempty, lowercase_colorText] at h
      exact absurd h (colorText_ne_empty c)
    | some y =>
      obtain ⟨d, rfl⟩ := hb y rfl
      rw [Option.getD_some, Option.getD_some, lowercase_colorText, lowercase_colorText] at h
      rw [h]

theorem roleDto_colored (r : Role) : ∀ text ∈ (roleDto r).color, ∃ c, text = colorText c := by
  intro text htext
  obtain ⟨c, -, rfl⟩ := Option.map_eq_some_iff.mp htext
  exact ⟨c, rfl⟩

/-! ## Names of permissions -/

theorem editable_names : (editablePermissions.map Prod.fst).Nodup := by decide

theorem editableBits_known : ∀ p ∈ editableBits, Permissions.all.has p.2 = true := by decide

theorem permissionNames_nodup (bits : Permissions) : (permissionNames bits).Nodup :=
  editable_names.sublist (List.filter_sublist.map Prod.fst)

theorem mem_permissionNames {bits : Permissions} {p : String × Permissions} (hp : p ∈ editablePermissions) :
    p.1 ∈ permissionNames bits ↔ bits.contains p.2 = true := by
  unfold permissionNames
  rw [List.mem_map]
  constructor
  · rintro ⟨q, hq, hname⟩
    obtain ⟨hq, hbits⟩ := List.mem_filter.mp hq
    rwa [← List.inj_on_of_nodup_map editable_names hq hp hname]
  · exact fun h => ⟨p, List.mem_filter.mpr ⟨hp, h⟩, rfl⟩

/-- The ticked names come back in the order of the editor. -/
theorem permissionNames_fromNames (names : List String) :
    permissionNames ((permissionsFromNames names).intersect .all) = namesOf names := by
  unfold permissionNames namesOf
  refine congrArg (List.map Prod.fst) (List.filter_congr fun p hp => ?_)
  rw [editablePermissions_eq] at hp
  obtain ⟨⟨name, k⟩, hk, rfl⟩ := List.mem_map.mp hp
  have honly : ∀ other, (other, k) ∈ editableBits ↔ other = name := by
    refine fun other => ⟨fun hm => ?_, fun he => he ▸ hk⟩
    exact congrArg Prod.fst (List.inj_on_of_nodup_map editableBits_bits hm hk rfl)
  change Permissions.contains _ (bitAt k) = decide (name ∈ names)
  rw [bitAt, Permissions.contains_bit (editableBits_lt _ hk), Permissions.has_intersect, editableBits_known _ hk,
    Bool.and_true, Bool.eq_iff_iff, has_permissionsFromNames, decide_eq_true_eq]
  simp [honly]

/-- Boxes that do not differ from the role's permissions are the role's permissions. -/
theorem namesOf_unchanged {names : List String} {bits : Permissions} (hu : names.Nodup)
    (hlen : names.length = (permissionNames bits).length) (hsub : ∀ n ∈ names, n ∈ permissionNames bits) :
    namesOf names = permissionNames bits := by
  have hperm := (List.subperm_of_subset hu hsub).perm_of_length_le (Nat.le_of_eq hlen.symm)
  refine congrArg (List.map Prod.fst) (List.filter_congr fun p hp => ?_)
  rw [Bool.eq_iff_iff, decide_eq_true_eq, hperm.mem_iff, mem_permissionNames hp]

/-! ## Drafts -/

namespace RoleDraft

variable (draft : RoleDraft)

def seed (role : Role) : RoleDraft where
  name := (roleDto role).name
  color := (roleDto role).color
  bits := (roleDto role).permissions
  colored := roleDto_colored role
  distinct := permissionNames_nodup role.permissions

def setName (name : String) : RoleDraft := { draft with name }

/-- A colour picked in the input, which reports its text. -/
def setColor (c : UInt32) : RoleDraft where
  name := draft.name
  color := some (colorText c)
  bits := draft.bits
  colored := fun _ htext => ⟨c, (Option.some.inj htext).symm⟩
  distinct := draft.distinct

def clearColor : RoleDraft := { draft with color := none, colored := nofun }

def toggle (bit : String) : RoleDraft where
  name := draft.name
  color := draft.color
  bits := if bit ∈ draft.bits then draft.bits.filter (· ≠ bit) else draft.bits ++ [bit]
  colored := draft.colored
  distinct := by
    split
    · exact draft.distinct.filter _
    · exact draft.distinct.append (List.nodup_singleton bit) (by simpa using ‹_›)

/-- A click on a box changes that bit and no other. -/
theorem mem_toggle {bit b : String} :
    b ∈ (draft.toggle bit).bits ↔ if b = bit then b ∉ draft.bits else b ∈ draft.bits := by
  unfold toggle
  by_cases hb : b = bit
  · subst hb
    by_cases hm : b ∈ draft.bits <;> simp [hm]
  · by_cases hm : bit ∈ draft.bits <;> simp [hm, hb]

/-- An editor that is opened and saved sends nothing, if the name has no white space at its ends. -/
theorem seed_patch (r : Role) (hname : jsTrim r.name = r.name) : (seed r).patch (roleDto r) = .empty := by
  have hbits : ¬ ((seed r).bits.length ≠ (roleDto r).permissions.length ∨
      (seed r).bits.any (fun bit => bit ∉ (roleDto r).permissions) = true) := by
    have hb : (seed r).bits = (roleDto r).permissions := rfl
    simp [hb]
  have hkept : ¬ (!(roleDto r).isEveryone ∧ jsTrim (seed r).name ≠ "" ∧ jsTrim (seed r).name ≠ (roleDto r).name) :=
    fun h => h.2.2 hname
  have hcolor : ¬ lowercase ((seed r).color.getD "") ≠ lowercase ((roleDto r).color.getD "") := fun h => h rfl
  unfold patch
  dsimp only
  rw [if_neg hkept, if_neg hcolor, if_neg hbits]
  rfl

end RoleDraft

theorem RolePatch.command_eq (id : RoleId) (patch : RolePatch) :
    patch.command id = .update id patch.name patch.color (patch.permissions.map permissionsFromNames) := by
  obtain ⟨name, color, permissions⟩ := patch
  rcases color with _ | _ | c <;> rfl

section
variable (draft : RoleDraft) (r : Role)

theorem RoleDraft.saved_name : ((draft.patch (roleDto r)).name.map Text.trim).getD r.name =
    (draft.saved (roleDto r)).name := by
  change (Option.map Text.trim (if !(roleDto r).isEveryone ∧ jsTrim draft.name ≠ "" ∧ jsTrim draft.name ≠ r.name
      then some (jsTrim draft.name) else none)).getD r.name =
    if (roleDto r).isEveryone ∨ jsTrim draft.name = "" ∨ jsTrim draft.name = r.name then r.name
      else Text.trim (jsTrim draft.name)
  by_cases hkept : (roleDto r).isEveryone = true ∨ jsTrim draft.name = "" ∨ jsTrim draft.name = r.name
  · rw [if_pos hkept, if_neg (by simpa [or_iff_not_imp_left] using hkept)]
    rfl
  · rw [if_neg hkept, if_pos (by simpa [or_iff_not_imp_left] using hkept)]
    rfl

theorem RoleDraft.saved_color : ((draft.patch (roleDto r)).color.getD r.color).map colorText = draft.color := by
  change (Option.getD (if lowercase (draft.color.getD "") ≠ lowercase ((roleDto r).color.getD "")
    then some (draft.color.map parseColor) else none) r.color).map colorText = draft.color
  by_cases hsame : lowercase (draft.color.getD "") = lowercase ((roleDto r).color.getD "")
  · rw [if_neg (not_not_intro hsame)]
    exact (lowercase_inj draft.colored (roleDto_colored r) hsame).symm
  · rw [if_pos hsame, Option.getD_some]
    cases hc : draft.color with
    | none => rfl
    | some text =>
      obtain ⟨c, rfl⟩ := draft.colored text hc
      simp [parseColor_colorText]

theorem RoleDraft.saved_permissions : permissionNames ((((draft.patch (roleDto r)).permissions.map
    permissionsFromNames).map (·.intersect .all)).getD r.permissions) = namesOf draft.bits := by
  change permissionNames (((Option.map permissionsFromNames
    (if draft.bits.length ≠ (permissionNames r.permissions).length ∨
      draft.bits.any (fun bit => bit ∉ permissionNames r.permissions) = true
      then some draft.bits else none)).map (·.intersect .all)).getD r.permissions) = _
  by_cases hdirty : draft.bits.length ≠ (permissionNames r.permissions).length ∨
      draft.bits.any (fun bit => bit ∉ permissionNames r.permissions) = true
  · rw [if_pos hdirty]
    exact permissionNames_fromNames draft.bits
  · rw [if_neg hdirty]
    obtain ⟨hlen, hsub⟩ := not_or.mp hdirty
    exact (namesOf_unchanged draft.distinct (not_not.mp hlen) (by simpa using hsub)).symm

/-- A role edited as the patch says is the role the draft shows. -/
theorem RoleDraft.saved_eq {a : Actor} {updated : Role} {patch : RolePatch} (hpatch : draft.patch (roleDto r) = patch)
    (h : editedRole a r patch.name patch.color (patch.permissions.map permissionsFromNames) = .ok updated) :
    roleDto updated = draft.saved (roleDto r) := by
  rw [editedRole_eq h, ← hpatch]
  unfold Role.edited
  have hname := draft.saved_name r
  have hcolor := draft.saved_color r
  have hbits := draft.saved_permissions r
  unfold saved at hname ⊢
  simp only [roleDto, RoleDto.mk.injEq] at *
  exact ⟨trivial, hname, hcolor, trivial, hbits, trivial⟩

end

/-- An editor with nothing to save shows the role as it stands. -/
theorem RoleDraft.saved_of_empty (draft : RoleDraft) (r : Role) (h : draft.patch (roleDto r) = .empty) :
    draft.saved (roleDto r) = roleDto r := by
  have hedit : editedRole ⟨[], true, .none⟩ r none none none = .ok r := rfl
  exact (draft.saved_eq r h hedit).symm

/-! ## What a command does to the list -/

section
variable {s : Shared} {client : ClientId} {nonce : UInt64} {a : Actor} {next : PermState} {save : Todo}
  (ho : RoleOrder s.perms.roles) (hnext : RoleOrder next.roles)
include ho

theorem moveRole_eq {e : Role} {rest : List Role} (hroles : s.perms.roles = e :: rest) (he : e.id = everyoneRoleId)
    (index : Nat) (d : Direction) :
    moveRole (shownRoles s.perms.roles) index d =
      .reorder (ranked ((swapAt rest.reverse index (d.other index)).map roleDto) ++ [(e.id, 0)]) := by
  have hu := ho.ids
  rw [hroles] at hu
  unfold moveRole
  rw [hroles, movable_shown hu he, everyoneOf_shown hu he, ← List.map_reverse, swapAt_map]
  rfl

/-- The positions of a move, read back. -/
theorem newPosition_ranked {e : Role} {rungs : List Role}
    (hd : densePermutation s.perms.roles (ranked (rungs.map roleDto) ++ [(e.id, 0)]) = true) :
    newPosition (ranked (rungs.map roleDto) ++ [(e.id, 0)]) e = 0 ∧ ∀ i (hi : i < rungs.length),
      newPosition (ranked (rungs.map roleDto) ++ [(e.id, 0)]) rungs[i] = UInt32.ofNat (rungs.length - i) := by
  have hu := unique_positions ho.ids hd
  refine ⟨?_, fun i hi => ?_⟩
  · have hget := Keyed.get_of_mem hu (List.mem_append_right _ (List.mem_singleton_self (e.id, (0 : UInt32))))
    simp only [newPosition, hget]
  · have hmem : (rungs[i].id, UInt32.ofNat (rungs.length - i)) ∈ ranked (rungs.map roleDto) :=
      mem_ranked.mpr ⟨i, _, List.getElem?_eq_getElem hi, rfl⟩
    have hget := Keyed.get_of_mem hu (List.mem_append_left _ hmem)
    simp only [newPosition, hget]

/-- A reorder that names the roles in this order leaves them in this order. -/
theorem reordered_order {e : Role} {rungs : List Role} (hp : (e :: rungs.reverse).Perm s.perms.roles)
    (hd : densePermutation s.perms.roles (ranked (rungs.map roleDto) ++ [(e.id, 0)]) = true) :
    (reorderedPerms s.perms (ranked (rungs.map roleDto) ++ [(e.id, 0)])).roles.map Role.unplaced =
      (e :: rungs.reverse).map Role.unplaced := by
  generalize hpositions : ranked (rungs.map roleDto) ++ [(e.id, 0)] = positions at *
  have hnew := newPosition_ranked ho (hpositions ▸ hd)
  rw [hpositions] at hnew
  have hlen : rungs.length < 2 ^ 32 := by
    have hle := ho.length_le
    rw [← hp.length_eq, List.length_cons, List.length_reverse] at hle
    omega
  have hrank : ∀ i < rungs.length, (UInt32.ofNat (rungs.length - i)).toNat = rungs.length - i := fun i hi =>
    UInt32.toNat_ofNat_of_lt' (show rungs.length - i < 2 ^ 32 by omega)
  have hsorted : (withPositions positions (e :: rungs.reverse)).Pairwise fun a b => a.position < b.position := by
    unfold withPositions
    refine List.pairwise_map.mpr (List.pairwise_cons.mpr ⟨fun r hr => ?_, List.pairwise_reverse.mpr ?_⟩)
    · obtain ⟨i, hi, rfl⟩ := List.getElem_of_mem (List.mem_reverse.mp hr)
      rw [hnew.1, hnew.2 i hi, UInt32.lt_iff_toNat_lt, hrank i hi]
      exact Nat.sub_pos_of_lt hi
    · refine List.pairwise_iff_getElem.mpr fun i j hi hj hij => ?_
      rw [hnew.2 i hi, hnew.2 j hj, UInt32.lt_iff_toNat_lt, hrank i hi, hrank j hj]
      omega
  have hperm : (withPositions positions s.perms.roles).Perm (withPositions positions (e :: rungs.reverse)) :=
    (hp.map _).symm
  unfold reorderedPerms
  dsimp only
  rw [sortByPosition_eq hperm hsorted, withPositions_unplaced]

theorem Passes.shown_move {index : Nat} {d : Direction}
    (h : Passes s client nonce a (moveRole (shownRoles s.perms.roles) index d) next save)
    (hnext : RoleOrder next.roles) :
    shownRoles next.roles = RolesTabEdit.result (shownRoles s.perms.roles) (.move index d) := by
  obtain ⟨e, rest, hroles, hid, hpos⟩ := ho.head
  have hu := ho.ids
  rw [hroles] at hu
  rw [moveRole_eq ho hroles hid] at h
  generalize hrungs : swapAt rest.reverse index (d.other index) = rungs at h
  have hp : (e :: rungs.reverse).Perm s.perms.roles := by
    rw [hroles, ← hrungs]
    exact ((List.reverse_perm _).trans (swapAt_perm.trans (List.reverse_perm rest))).cons e
  cases h with
  | reorder hd =>
    rw [hnext.shown_stacked (reordered_order ho hp hd) hpos, hroles]
    simp only [RolesTabEdit.result, movable_shown hu hid, everyoneOf_shown hu hid, ← List.map_reverse, swapAt_map,
      hrungs]
    rfl

theorem Passes.shown_remove {role : RoleDto} (h : Passes s client nonce a (.delete role.id) next save)
    (hnext : RoleOrder next.roles) :
    shownRoles next.roles = RolesTabEdit.result (shownRoles s.perms.roles) (.remove role) := by
  obtain ⟨e, rest, hroles, hid, hpos⟩ := ho.head
  have hu := ho.ids
  rw [hroles] at hu
  cases h with
  | delete hne _ _ =>
    have herase : Keyed.erase Role.id role.id s.perms.roles =
        e :: (rest.reverse.filter fun r => r.id ≠ role.id).reverse := by
      rw [hroles, List.filter_reverse, List.reverse_reverse]
      unfold Keyed.erase
      rw [List.filter_cons, if_pos (by simpa [hid] using hne.symm)]
    have hkept : (deletedPerms s.perms role.id).roles.map Role.unplaced =
        (e :: (rest.reverse.filter fun r => r.id ≠ role.id).reverse).map Role.unplaced := by
      rw [← herase, ← ho.sort_erase]
      exact compacted_unplaced _
    rw [hnext.shown_stacked hkept hpos, hroles]
    simp only [RolesTabEdit.result, movable_shown hu hid, everyoneOf_shown hu hid, ← List.map_reverse, List.filter_map]
    rfl

end

/-- A new role comes in just above everyone, and lifts the others. -/
theorem RoleOrder.created_roles {p : PermState} (h : RoleOrder p.roles) {e : Role} {rest : List Role}
    (hroles : p.roles = e :: rest) (hpos : e.position = 0) {role : Role} (hone : role.position = 1)
    (hnext : RoleOrder (createdPerms p role).roles) :
    (createdPerms p role).roles = e :: role :: rest.map shifted := by
  have hfirst : shifted e = e := by
    unfold shifted shift
    rw [if_pos hpos, ← hpos]
  have hmap : withPositions (shiftedPositions p.roles) p.roles = e :: rest.map shifted := by
    rw [← hfirst, ← List.map_cons, ← hroles]
    exact List.map_congr_left fun q hq => by simp [shifted, newPosition_shifted h.ids hq]
  have hlen : rest.length + 2 ≤ 2 ^ 32 := by
    have hle := hnext.length_le
    unfold createdPerms at hle
    rw [(perm_sortByPosition _).length_eq, hmap, List.length_append, List.length_cons, List.length_map,
      List.length_singleton] at hle
    omega
  have hsorted := h.sorted
  rw [hroles] at hsorted
  obtain ⟨habove, hrest⟩ := List.pairwise_cons.mp hsorted
  have hshift : ∀ r ∈ rest, (shifted r).position.toNat = r.position.toNat + 1 := by
    intro r hr
    have hlt := h.position_lt (hroles ▸ List.mem_cons_of_mem e hr)
    have hne : r.position ≠ 0 := fun h0 => UInt32.lt_irrefl 0 (by simpa [hpos, h0] using habove r hr)
    rw [hroles, List.length_cons] at hlt
    unfold shifted
    rw [toNat_shift (by omega), if_neg hne]
  unfold createdPerms
  rw [hmap]
  apply sortByPosition_eq (List.Perm.cons e (List.perm_append_singleton role _))
  refine List.pairwise_cons.mpr ⟨fun r hr => ?_, List.pairwise_cons.mpr ⟨fun r hr => ?_, ?_⟩⟩
  · rw [hpos, UInt32.lt_iff_toNat_lt]
    rcases List.mem_cons.mp hr with rfl | hr
    · rw [hone]
      decide
    · obtain ⟨q, hq, rfl⟩ := List.mem_map.mp hr
      rw [hshift q hq]
      exact Nat.succ_pos _
  · obtain ⟨q, hq, rfl⟩ := List.mem_map.mp hr
    have hq0 := habove q hq
    rw [hpos, UInt32.lt_iff_toNat_lt] at hq0
    rw [hone, UInt32.lt_iff_toNat_lt, hshift q hq]
    exact Nat.succ_lt_succ hq0
  · refine List.pairwise_map.mpr (hrest.imp_of_mem fun {r q} hr hq hlt => ?_)
    rw [UInt32.lt_iff_toNat_lt] at hlt ⊢
    rw [hshift r hr, hshift q hq]
    exact Nat.succ_lt_succ hlt

/-- The role that the server makes is the one the tab asks for. -/
theorem freshRole_eq {p : PermState} {name : String} {e : Role} (he : e ∈ p.roles) (hid : e.id = everyoneRoleId)
    {role : Role} (hrole : newRole p (Text.trim (jsTrim name)) ((permissionsFromNames []).intersect .all) = role)
    (hnew : ∀ r ∈ p.roles, r.id ≠ role.id) : roleDto role = freshRole (shownRoles p.roles) name := by
  have hmax : Word.maxOr0 (p.roles.map Role.id) = Word.maxOr0 ((shownRoles p.roles).map RoleDto.id) := by
    apply Word.maxOr0_congr
    intro id
    simp [shownRoles, roleDto]
  have hne : role.id ≠ everyoneRoleId := fun h => hnew e he (hid.trans h.symm)
  have hnone : permissionNames ((permissionsFromNames []).intersect .all) = [] := permissionNames_fromNames []
  subst hrole
  simp only [newRole] at hne
  simp only [roleDto, newRole, freshRole, ← hmax, hnone, hne, Option.map_none, decide_false]

section
variable {s : Shared} {client : ClientId} {nonce : UInt64} {a : Actor} {next : PermState} {save : Todo}
  (ho : RoleOrder s.perms.roles)
include ho

theorem Passes.shown_create {name : String}
    (h : Passes s client nonce a (.create (jsTrim name) (permissionsFromNames [])) next save)
    (hnext : RoleOrder next.roles) :
    shownRoles next.roles = RolesTabEdit.result (shownRoles s.perms.roles) (.create name) := by
  obtain ⟨e, rest, hroles, hid, hpos⟩ := ho.head
  have hu := ho.ids
  rw [hroles] at hu
  cases h with
  | create =>
    generalize hrole : newRole s.perms (Text.trim (jsTrim name)) ((permissionsFromNames []).intersect .all) = role
      at hnext ⊢
    have hone : role.position = 1 := by
      rw [← hrole]
      rfl
    have hcreated := ho.created_roles hroles hpos hone hnext
    have hfresh : roleDto role = freshRole (shownRoles s.perms.roles) name := by
      refine freshRole_eq (hroles ▸ List.mem_cons_self) hid hrole fun r hr he => ?_
      have hids := hnext.ids
      unfold Keyed.Unique at hids
      rw [hcreated, List.map_cons, List.map_cons, List.map_map] at hids
      obtain ⟨hnotE, hids⟩ := List.nodup_cons.mp hids
      rw [hroles] at hr
      rcases List.mem_cons.mp hr with rfl | hr
      · exact hnotE (he ▸ List.mem_cons_self)
      · exact (List.nodup_cons.mp hids).1 (he ▸ List.mem_map_of_mem hr)
    have horder : (createdPerms s.perms role).roles.map Role.unplaced =
        (e :: (rest.reverse ++ [role]).reverse).map Role.unplaced := by
      rw [hcreated, List.reverse_append, List.reverse_reverse]
      simp [shifted, Role.unplaced]
    rw [hnext.shown_stacked horder hpos, List.map_append, List.map_singleton, hfresh, hroles]
    simp only [RolesTabEdit.result, movable_shown hu hid, everyoneOf_shown hu hid, ← List.map_reverse]
    rfl

theorem Passes.shown_save {role : RoleDto} {draft : RoleDraft} (hrole : role ∈ shownRoles s.perms.roles)
    (h : Passes s client nonce a ((draft.patch role).command role.id) next save) :
    shownRoles next.roles = RolesTabEdit.result (shownRoles s.perms.roles) (.save role draft) := by
  obtain ⟨r, hr, rfl⟩ := List.mem_map.mp (List.mem_reverse.mp hrole)
  rw [RolePatch.command_eq] at h
  cases h with
  | @update _ _ _ _ existing updated hget _ _ hedit =>
    obtain rfl : r = existing := Option.some.inj ((Keyed.get_of_mem ho.ids hr).symm.trans hget)
    have hid : updated.id = r.id := (editedRole_ok hedit).1
    have hsaved := draft.saved_eq r rfl hedit
    unfold updatedPerms shownRoles
    rw [modifyFirst_updated ho.ids, RolesTabEdit.result, ← List.map_reverse, ← List.map_reverse, ← List.map_reverse,
      List.map_map, List.map_map]
    refine List.map_congr_left fun q hq => ?_
    simp only [Function.comp_apply, hid]
    by_cases he : q.id = r.id
    · rw [if_pos he, if_pos (show (roleDto q).id = (roleDto r).id from he), hsaved,
        Keyed.eq_of_key ho.ids (List.mem_reverse.mp hq) hr he]
    · rw [if_neg he, if_neg (show (roleDto q).id ≠ (roleDto r).id from he)]

/-- The list that an accepted edit leaves behind. -/
theorem Passes.shown_edit {edit : RolesTabEdit} (hoffered : edit.Offered (shownRoles s.perms.roles)) {cmd : RoleCommand}
    (hcmd : edit.command (shownRoles s.perms.roles) = some cmd) (h : Passes s client nonce a cmd next save)
    (hnext : RoleOrder next.roles) : shownRoles next.roles = edit.result (shownRoles s.perms.roles) := by
  cases edit with
  | move index d =>
    cases hcmd
    exact h.shown_move ho hnext
  | save role draft =>
    simp only [RolesTabEdit.command] at hcmd
    split at hcmd
    · cases hcmd
    · cases hcmd
      exact h.shown_save ho hoffered
  | remove role =>
    cases hcmd
    exact h.shown_remove ho hnext
  | create name =>
    simp only [RolesTabEdit.command] at hcmd
    split at hcmd
    · cases hcmd
    · cases hcmd
      exact h.shown_create ho hnext

end

end PickleChat
