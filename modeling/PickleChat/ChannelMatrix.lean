import PickleChat.RenderedRuns

/-!
# The permission matrix of a channel

The admin dialog shows every role crossed with every channel permission, and a
click on a cell sends the role's whole overwrite with one bit moved on. The
names of permissions cross to the frontend and back; the bits never do.
-/

namespace PickleChat

open Async (Run exec)

/-- `CHANNEL_PERMISSIONS`, the columns of the matrix. -/
def matrixColumns : List (String × Permissions) :=
  [("viewChannel", .viewChannel), ("sendMessages", .sendMessages), ("readHistory", .readHistory),
    ("manageMessages", .manageMessages), ("connect", .connect), ("speak", .speak), ("muteMembers", .muteMembers),
    ("moveMembers", .moveMembers)]

/-- A name that is not in the list adds nothing. -/
def unionNamed (bits : Permissions) (name : String) : Permissions :=
  match editablePermissions.find? fun p => p.1 = name with
  | some (_, bit) => bits.union bit
  | none => bits

def permissionsFromNames (names : List String) : Permissions := names.foldl unionNamed .none

inductive CellState where
  | allow
  | deny
  | inherit
  deriving DecidableEq

structure MatrixCellDto where
  name : String
  effective : Bool
  base : Bool
  state : CellState
  deriving DecidableEq

structure MatrixRowDto where
  roleId : RoleId
  roleName : String
  color : Option String
  isEveryone : Bool
  cells : List MatrixCellDto
  deriving DecidableEq

def cellState (overwrite : Option Overwrite) (bit : Permissions) : CellState :=
  match overwrite with
  | some o => if o.deny.contains bit then .deny else if o.allow.contains bit then .allow else .inherit
  | none => .inherit

def onlyRole (id : RoleId) : List RoleId := if id = everyoneRoleId then [] else [id]

namespace PermMirror

variable (p : PermMirror)

/-- `probe` is a fingerprint that belongs to nobody. -/
def matrixRow (probe : Fingerprint) (overwrites : List Overwrite) (role : Role) : MatrixRowDto :=
  let base := resolve p.roles (onlyRole role.id) probe false none
  let effective := resolve p.roles (onlyRole role.id) probe false (some overwrites)
  let overwrite := overwriteForRole overwrites role.id
  { roleId := role.id, roleName := role.name, color := role.color.map colorText,
    isEveryone := role.id = everyoneRoleId,
    cells := matrixColumns.map fun (name, bit) =>
      { name, effective := effective.contains bit, base := base.contains bit, state := cellState overwrite bit } }

/-- Senior roles first. -/
def channelMatrix (probe : Fingerprint) (channel : ChannelId) : List MatrixRowDto :=
  match Keyed.get Channel.id channel p.channels with
  | none => []
  | some target =>
    (p.roles.insertionSort fun a b => b.position ≤ a.position).map (p.matrixRow probe target.overwrites)

end PermMirror

/-! ## A click -/

/-- `Set.add` on the elements in their order. -/
def setAdd (name : String) (names : List String) : List String := if name ∈ names then names else names ++ [name]

def namesIn (state : CellState) (row : MatrixRowDto) : List String :=
  (row.cells.filter fun c => c.state = state).map MatrixCellDto.name

/-- The full allow and deny lists of the role, with one bit moved one step on. -/
def cycle (row : MatrixRowDto) (cell : MatrixCellDto) : List String × List String :=
  let allow := namesIn .allow row
  let deny := namesIn .deny row
  match cell.state with
  | .inherit => (setAdd cell.name allow, deny)
  | .allow => (allow.filter (· ≠ cell.name), setAdd cell.name deny)
  | .deny => (allow, deny.filter (· ≠ cell.name))

def clickCommand (channel : ChannelId) (row : MatrixRowDto) (cell : MatrixCellDto) : ChannelCommand :=
  let (allow, deny) := cycle row cell
  if allow = [] ∧ deny = [] then .deleteOverwrite channel (.role row.roleId)
  else .setOverwrite channel (.role row.roleId) (permissionsFromNames allow) (permissionsFromNames deny)

def CellState.next : CellState → CellState
  | .inherit => .allow
  | .allow => .deny
  | .deny => .inherit

/-! ## Names and bits -/

/-- The names that can be edited, each with its bit's place. -/
def editableBits : List (String × Nat) :=
  [("administrator", 0), ("manageServer", 1), ("manageRoles", 2), ("manageChannels", 3), ("kickMembers", 4),
    ("banMembers", 5), ("viewChannel", 16), ("sendMessages", 17), ("readHistory", 18), ("manageMessages", 19),
    ("connect", 20), ("speak", 21), ("muteMembers", 22), ("moveMembers", 23)]

def bitAt (k : Nat) : Permissions := ⟨1#64 <<< k⟩

theorem editablePermissions_eq : editablePermissions = editableBits.map fun p => (p.1, bitAt p.2) := rfl

theorem editableBits_names : (editableBits.map Prod.fst).Nodup := by decide

theorem editableBits_bits : (editableBits.map Prod.snd).Nodup := by decide

theorem editableBits_lt : ∀ p ∈ editableBits, p.2 < 64 := by decide

theorem find?_editable (name : String) :
    editablePermissions.find? (fun p => p.1 = name) =
      (editableBits.find? fun p => p.1 = name).map fun p => (p.1, bitAt p.2) := by
  rw [editablePermissions_eq, List.find?_map]
  rfl

theorem has_unionNamed (bits : Permissions) (name : String) (k : Nat) :
    (unionNamed bits name).has k = true ↔ bits.has k = true ∨ (name, k) ∈ editableBits := by
  unfold unionNamed
  rw [find?_editable]
  cases hf : editableBits.find? fun p => p.1 = name with
  | none =>
    have hnot : (name, k) ∉ editableBits := fun hm => by simpa using List.find?_eq_none.mp hf _ hm
    simp [hnot]
  | some q =>
    obtain ⟨n, j⟩ := q
    have hmem := List.mem_of_find?_eq_some hf
    obtain rfl : n = name := by simpa using List.find?_some hf
    -- A name stands once in the list.
    have hj : (n, k) ∈ editableBits ↔ k = j := by
      refine ⟨fun hm => ?_, fun h => h ▸ hmem⟩
      exact congrArg Prod.snd (List.inj_on_of_nodup_map editableBits_names hm hmem rfl)
    simp [bitAt, Permissions.has_bit (editableBits_lt _ hmem), hj]

theorem has_foldl_unionNamed (names : List String) (bits : Permissions) (k : Nat) :
    (names.foldl unionNamed bits).has k = true ↔ bits.has k = true ∨ ∃ name ∈ names, (name, k) ∈ editableBits := by
  induction names generalizing bits with
  | nil => simp
  | cons name names ih => rw [List.foldl_cons, ih, has_unionNamed, List.exists_mem_cons_iff, or_assoc]

theorem has_permissionsFromNames (names : List String) (k : Nat) :
    (permissionsFromNames names).has k = true ↔ ∃ name ∈ names, (name, k) ∈ editableBits := by
  simp [permissionsFromNames, has_foldl_unionNamed]

theorem matrixColumns_mem {column : String × Permissions} (h : column ∈ matrixColumns) :
    ∃ k, (column.1, k) ∈ editableBits ∧ column.2 = bitAt k ∧ Permissions.channelScoped.has k = true := by
  simp only [matrixColumns, List.mem_cons, List.not_mem_nil, or_false] at h
  rcases h with rfl | rfl | rfl | rfl | rfl | rfl | rfl | rfl
  · exact ⟨16, by decide, rfl, by decide⟩
  · exact ⟨17, by decide, rfl, by decide⟩
  · exact ⟨18, by decide, rfl, by decide⟩
  · exact ⟨19, by decide, rfl, by decide⟩
  · exact ⟨20, by decide, rfl, by decide⟩
  · exact ⟨21, by decide, rfl, by decide⟩
  · exact ⟨22, by decide, rfl, by decide⟩
  · exact ⟨23, by decide, rfl, by decide⟩

/-- What an overwrite of named bits says of a column. -/
theorem contains_named {column : String × Permissions} (h : column ∈ matrixColumns) (names : List String) :
    (channelBits (permissionsFromNames names)).contains column.2 = decide (column.1 ∈ names) := by
  obtain ⟨k, hk, hbit, hscope⟩ := matrixColumns_mem h
  have hlt : k < 64 := editableBits_lt _ hk
  have honly : ∀ name, (name, k) ∈ editableBits ↔ name = column.1 := by
    refine fun name => ⟨fun hm => ?_, fun he => he ▸ hk⟩
    exact congrArg Prod.fst (List.inj_on_of_nodup_map editableBits_bits hm hk rfl)
  rw [hbit, bitAt, Permissions.contains_bit hlt, channelBits, Permissions.has_intersect, hscope, Bool.and_true,
    Bool.eq_iff_iff, has_permissionsFromNames, decide_eq_true_eq]
  simp [honly]

/-! ## What a click does to an overwrite -/

theorem matrixColumns_names : (matrixColumns.map Prod.fst).Nodup := by decide

@[simp] theorem mem_setAdd {name n : String} {names : List String} : n ∈ setAdd name names ↔ n = name ∨ n ∈ names := by
  unfold setAdd
  split
  · exact ⟨.inr, fun h => h.elim (fun he => he ▸ ‹_›) id⟩
  · simp [or_comm]

def clicked (row : MatrixRowDto) (cell : MatrixCellDto) : Option Overwrite :=
  let (allow, deny) := cycle row cell
  if allow = [] ∧ deny = [] then none
  else some ⟨.role row.roleId, channelBits (permissionsFromNames allow), channelBits (permissionsFromNames deny)⟩

section
variable {p : PermMirror} {probe : Fingerprint} {overwrites : List Overwrite} {role : Role} {cell : MatrixCellDto}
  {column : String × Permissions}

theorem PermMirror.mem_cells : cell ∈ (p.matrixRow probe overwrites role).cells ↔ ∃ column ∈ matrixColumns,
    { name := column.1,
      effective := (resolve p.roles (onlyRole role.id) probe false (some overwrites)).contains column.2,
      base := (resolve p.roles (onlyRole role.id) probe false none).contains column.2,
      state := cellState (overwriteForRole overwrites role.id) column.2 : MatrixCellDto } = cell :=
  List.mem_map

theorem PermMirror.cell_state (hcell : cell ∈ (p.matrixRow probe overwrites role).cells)
    (hcolumn : column ∈ matrixColumns)
    (hname : column.1 = cell.name) : cell.state = cellState (overwriteForRole overwrites role.id) column.2 := by
  obtain ⟨own, hown, rfl⟩ := mem_cells.mp hcell
  obtain rfl : column = own := List.inj_on_of_nodup_map matrixColumns_names hcolumn hown hname
  rfl

/-- A row names a column under what the overwrite says of it. -/
theorem PermMirror.mem_namesIn (hcolumn : column ∈ matrixColumns) (state : CellState) :
    column.1 ∈ namesIn state (p.matrixRow probe overwrites role) ↔
      cellState (overwriteForRole overwrites role.id) column.2 = state := by
  unfold namesIn
  rw [List.mem_map]
  constructor
  · rintro ⟨cell, hcell, hname⟩
    obtain ⟨hcell, hstate⟩ := List.mem_filter.mp hcell
    obtain ⟨c, hc, rfl⟩ := mem_cells.mp hcell
    obtain rfl : c = column := List.inj_on_of_nodup_map matrixColumns_names hc hcolumn hname
    exact of_decide_eq_true hstate
  · intro hstate
    exact ⟨_, List.mem_filter.mpr ⟨mem_cells.mpr ⟨column, hcolumn, rfl⟩, decide_eq_true hstate⟩, rfl⟩

/-- What the lists that a click sends say of a column. -/
theorem PermMirror.mem_cycle (hcell : cell ∈ (p.matrixRow probe overwrites role).cells)
    (hcolumn : column ∈ matrixColumns)
    {after : CellState}
    (hafter : after = if column.1 = cell.name then cell.state.next
      else cellState (overwriteForRole overwrites role.id) column.2) :
    (column.1 ∈ (cycle (p.matrixRow probe overwrites role) cell).1 ↔ after = .allow) ∧
      (column.1 ∈ (cycle (p.matrixRow probe overwrites role) cell).2 ↔ after = .deny) := by
  have hnames : ∀ state, column.1 ∈ namesIn state (p.matrixRow probe overwrites role) ↔
      cellState (overwriteForRole overwrites role.id) column.2 = state := mem_namesIn hcolumn
  obtain ⟨own, hown, rfl⟩ := mem_cells.mp hcell
  by_cases hname : column.1 = own.1
  · obtain rfl : column = own := List.inj_on_of_nodup_map matrixColumns_names hcolumn hown hname
    rw [if_pos rfl] at hafter
    unfold cycle
    cases hs : cellState (overwriteForRole overwrites role.id) column.2 <;>
      simp [hafter, hs, hnames, CellState.next]
  · rw [if_neg hname] at hafter
    unfold cycle
    cases hs : cellState (overwriteForRole overwrites role.id) own.2 <;> simp [hafter, hnames, hname]

/-- A click moves its own cell one step round the cycle, and no other. -/
theorem PermMirror.cellState_clicked (hcell : cell ∈ (p.matrixRow probe overwrites role).cells)
    (hcolumn : column ∈ matrixColumns) :
    cellState (clicked (p.matrixRow probe overwrites role) cell) column.2 =
      if column.1 = cell.name then cell.state.next else cellState (overwriteForRole overwrites role.id) column.2 := by
  obtain ⟨hallow, hdeny⟩ := mem_cycle hcell hcolumn rfl
  unfold clicked
  dsimp only
  split
  · obtain ⟨ha, hd⟩ := ‹_ ∧ _›
    rw [ha] at hallow
    rw [hd] at hdeny
    cases hafter : (if column.1 = cell.name then cell.state.next
        else cellState (overwriteForRole overwrites role.id) column.2) with
    | inherit => rfl
    | allow => exact absurd (hallow.mpr hafter) List.not_mem_nil
    | deny => exact absurd (hdeny.mpr hafter) List.not_mem_nil
  · generalize hafter : (if column.1 = cell.name then cell.state.next
      else cellState (overwriteForRole overwrites role.id) column.2) = after at hallow hdeny ⊢
    simp only [cellState, contains_named hcolumn, hallow, hdeny]
    cases after <;> simp

end

/-! ## The matrix of a mirror in step with the server -/

def shownStates (matrix : List MatrixRowDto) : List (RoleId × String × CellState) :=
  matrix.flatMap fun row => row.cells.map fun cell => (row.roleId, cell.name, cell.state)

theorem PermMirror.mem_channelMatrix {p : PermMirror} {probe : Fingerprint} {channel : ChannelId} {row : MatrixRowDto} :
    row ∈ p.channelMatrix probe channel ↔ ∃ c, Keyed.get Channel.id channel p.channels = some c ∧
      ∃ role ∈ p.roles, p.matrixRow probe c.overwrites role = row := by
  unfold channelMatrix
  cases Keyed.get Channel.id channel p.channels with
  | none => simp
  | some c => simp [List.mem_insertionSort]

section
variable {s : Shared} {i : UserInfo} {p : PermMirror} (h : InTouch s i p) {probe : Fingerprint} {channel : ChannelId}
include h

theorem InTouch.mem_channelMatrix {row : MatrixRowDto} :
    row ∈ p.channelMatrix probe channel ↔ ∃ c, s.view i channel = some c ∧
      ∃ role ∈ s.perms.roles, p.matrixRow probe c.overwrites role = row := by
  rw [PermMirror.mem_channelMatrix, show Keyed.get Channel.id channel p.channels = s.view i channel from
    congrFun h.channels channel]
  simp only [h.roles]

theorem InTouch.mem_shownStates {r : RoleId} {name : String} {state : CellState} :
    (r, name, state) ∈ shownStates (p.channelMatrix probe channel) ↔ ∃ c, s.view i channel = some c ∧
      r ∈ s.perms.roleIds ∧ ∃ bit, (name, bit) ∈ matrixColumns ∧
        cellState (overwriteForRole c.overwrites r) bit = state := by
  unfold shownStates
  rw [List.mem_flatMap]
  constructor
  · rintro ⟨row, hrow, hcell⟩
    obtain ⟨c, hc, role, hrole, rfl⟩ := h.mem_channelMatrix.mp hrow
    obtain ⟨cell, hcell, he⟩ := List.mem_map.mp hcell
    obtain ⟨column, hcolumn, rfl⟩ := PermMirror.mem_cells.mp hcell
    cases he
    exact ⟨c, hc, List.mem_map_of_mem hrole, column.2, hcolumn, rfl⟩
  · rintro ⟨c, hc, hr, bit, hbit, rfl⟩
    obtain ⟨role, hrole, rfl⟩ := List.mem_map.mp hr
    exact ⟨_, h.mem_channelMatrix.mpr ⟨c, hc, role, hrole, rfl⟩,
      List.mem_map.mpr ⟨_, PermMirror.mem_cells.mpr ⟨_, hbit, rfl⟩, rfl⟩⟩

/-- A cell's answers are those that the server gives to whoever holds only that role. -/
theorem InTouch.cell_enforced (hu : Keyed.Unique Role.id s.perms.roles) {c : Channel} (hc : s.channel channel = some c)
    (hprobe : overwriteForMember c.overwrites probe = none) {role : Role} {column : String × Permissions}
    {k : ClientId} {e : ConnectedClient} (he : s.client? k = some e) (howner : e.info.owner = false)
    (hroles : ∀ r, r ∈ e.info.roles ↔ r ∈ onlyRole role.id)
    (hmember : overwriteForMember c.overwrites e.info.fingerprint = none) :
    (resolve p.roles (onlyRole role.id) probe false (some c.overwrites)).contains column.2 = s.can k channel column.2 ∧
      (resolve p.roles (onlyRole role.id) probe false none).contains column.2 = s.canGlobally k column.2 := by
  have hr := rolePermissions_congr h.ids hu h.roles
  have hg : ∀ r, r ∈ onlyRole role.id ↔ r ∈ e.info.roles := fun r => (hroles r).symm
  unfold Shared.can Shared.canGlobally Shared.bits
  simp only [he, hc, howner]
  constructor
  · rw [resolve_some_congr hr hg (fun _ => rfl) probe false, resolve_some, resolve_some]
    have hunnamed : channelPermissions (basePermissions s.perms.roles e.info.roles) c.overwrites e.info.roles probe =
        channelPermissions (basePermissions s.perms.roles e.info.roles) c.overwrites e.info.roles
          e.info.fingerprint := by
      unfold channelPermissions
      rw [hprobe, hmember]
    rw [hunnamed]
  · rw [resolve_none_congr hr hg probe false, resolve_none, resolve_none]

end

/-! ## Clicks in a run -/

/-- The command of a click edits the overwrite of one role in one channel. -/
theorem click_edits {s : Shared} {client : ClientId} {nonce : UInt64} {channel : ChannelId} {row : MatrixRowDto}
    {cell : MatrixCellDto} {c : Change} (hp : ChannelPasses s client nonce (clickCommand channel row cell) c) :
    ∃ edit : Channel → Channel, (∀ c, (edit c).id = c.id) ∧
      (∀ c r, overwriteForRole (edit c).overwrites r =
        if r = row.roleId then clicked row cell else overwriteForRole c.overwrites r) ∧
      c.mem s = s.modifyChannel channel edit := by
  unfold clickCommand at hp
  dsimp only at hp
  by_cases hempty : (cycle row cell).1 = [] ∧ (cycle row cell).2 = []
  · have hnone : clicked row cell = none := if_pos hempty
    rw [if_pos hempty] at hp
    cases hp with
    | deleteOverwrite =>
      refine ⟨fun c => { c with overwrites := Keyed.erase Overwrite.target (.role row.roleId) c.overwrites },
        fun _ => rfl, fun c r => (Keyed.get_erase _ _ c.overwrites).trans ?_, rfl⟩
      rw [hnone]
      simp [overwriteForRole]
  · have hsome : clicked row cell = some ⟨.role row.roleId, channelBits (permissionsFromNames (cycle row cell).1),
        channelBits (permissionsFromNames (cycle row cell).2)⟩ := if_neg hempty
    rw [if_neg hempty] at hp
    cases hp with
    | setOverwrite =>
      refine ⟨fun c => { c with overwrites := Keyed.put Overwrite.target _ c.overwrites },
        fun _ => rfl, fun c r => (Keyed.get_put _ _ c.overwrites).trans ?_, rfl⟩
      rw [hsome]
      simp [overwriteForRole]

theorem Shared.modifyChannel_edited {s : Shared} {channel : ChannelId} {edit : Channel → Channel}
    (hedit : ∀ c, (edit c).id = c.id) :
    (s.modifyChannel channel edit).channel channel = (s.channel channel).map edit := by
  refine (Keyed.get_modify hedit _ _ s.channels).trans ?_
  rw [if_pos rfl]
  rfl

theorem Shared.can_view {s : Shared} {k : ClientId} {e : ConnectedClient} (he : s.client? k = some e)
    {channel : ChannelId} {c : Channel} (hc : s.channel channel = some c) :
    s.can k channel .viewChannel = s.views e.info c := by
  unfold can
  rw [he, hc]
  rfl

/-- How the matrix of one client tells what that of another says once the overwrites of a channel have changed. -/
theorem InTouch.shownStates_after {s t : Shared} {i j : UserInfo} {p p' : PermMirror} (h : InTouch s i p)
    (h' : InTouch t j p') (hroles : t.perms.roleIds = s.perms.roleIds) {probe probe' : Fingerprint}
    {channel : ChannelId}
    {c c' : Channel} (hc : s.view i channel = some c) (hc' : t.channel channel = some c')
    (f : RoleId → String → CellState → CellState)
    (hf : ∀ r, ∀ column ∈ matrixColumns, cellState (overwriteForRole c'.overwrites r) column.2 =
      f r column.1 (cellState (overwriteForRole c.overwrites r) column.2))
    {r : RoleId} {name : String} {state : CellState} :
    (r, name, state) ∈ shownStates (p'.channelMatrix probe' channel) ↔
      t.views j c' = true ∧
        ∃ old, (r, name, old) ∈ shownStates (p.channelMatrix probe channel) ∧ state = f r name old := by
  rw [h'.mem_shownStates]
  constructor
  · rintro ⟨c₁, hc₁, hr, bit, hbit, rfl⟩
    obtain ⟨hc₁, hv⟩ := Shared.view_eq_some.mp hc₁
    obtain rfl : c₁ = c' := Option.some.inj (hc₁.symm.trans hc')
    exact ⟨hv, _, h.mem_shownStates.mpr ⟨c, hc, hroles ▸ hr, bit, hbit, rfl⟩, hf r _ hbit⟩
  · rintro ⟨hv, old, hold, rfl⟩
    obtain ⟨c₁, hc₁, hr, bit, hbit, rfl⟩ := h.mem_shownStates.mp hold
    obtain rfl : c₁ = c := Option.some.inj (hc₁.symm.trans hc)
    exact ⟨c', Shared.view_eq_some.mpr ⟨hc', hv⟩, hroles ▸ hr, bit, hbit, hf r _ hbit⟩

theorem instep_of_run {config : ServerConfig} {now : UInt64} {x₀ x : Shared × World}
    (hstart : Server.bind config now .empty = some (x₀.1, x₀.2.db)) (hrun : Run LifeStep (fun _ _ => True) x₀ x)
    (hello : ServerHello) : InStepWithAll hello x := by
  have h₀ : InStepWithAll hello x₀ := .bind hello hstart (fun _ h => nomatch h) .empty
  exact hrun.invariant (InStepWithAll hello) h₀ fun _ _ _ hi _ hst => hi.step hst

/-- A guest and the owner are connected, and the owner has made a channel. -/
def guestAndOwner (s₀ : Shared) (db₀ : Db) : Shared × World :=
  let x := serve Await.perform (.connect ⟨protocolVersion, ⟨.rep 2, 8⟩, "n", none, true⟩) s₀ ⟨db₀, []⟩
  let x := serve Await.perform ownerConnects x.1 x.2
  serve Await.perform (.control 2 (.createChannel 7 "r" none "" .text none 0)) x.1 x.2

theorem guestAndOwner_run (s₀ : Shared) (db₀ : Db) :
    Run LifeStep (fun _ _ => True) (s₀, ⟨db₀, []⟩) (guestAndOwner s₀ db₀) := by
  have handled : ∀ {x : Shared × World} (i : Input), LifeStep x (.input i) (serve Await.perform i x.1 x.2) :=
    fun i => ⟨Await.perform, Await.faulty, rfl⟩
  exact .step (.input (.control 2 (.createChannel 7 "r" none "" .text none 0)))
    (.step (.input ownerConnects)
      (.step (.input (.connect ⟨protocolVersion, ⟨.rep 2, 8⟩, "n", none, true⟩)) .refl trivial (handled _))
      trivial (handled _)) trivial (handled _)

/-- What the matrix of a connected client says of a role is what the server enforces for
whoever holds only that role, and it says it of every role in every channel the client may view. -/
theorem matrix_enforced {config : ServerConfig} {now : UInt64} {x₀ x : Shared × World}
    (hstart : Server.bind config now .empty = some (x₀.1, x₀.2.db)) (hrun : Run LifeStep (fun _ _ => True) x₀ x)
    (hello : ServerHello) {k : ClientId} {e : ConnectedClient} (he : x.1.client? k = some e) {probe : Fingerprint}
    {channel : ChannelId}
    (hprobe : ∀ c, x.1.channel channel = some c → overwriteForMember c.overwrites probe = none) :
    ∃ p, clientMirror hello x.2.wire e = some p ∧
      (∀ row ∈ p.channelMatrix probe channel, ∀ cell ∈ row.cells, ∃ c bit, x.1.channel channel = some c ∧
        (cell.name, bit) ∈ matrixColumns ∧ ∀ k' e', x.1.client? k' = some e' → e'.info.owner = false →
          (∀ r, r ∈ e'.info.roles ↔ r ∈ onlyRole row.roleId) →
          overwriteForMember c.overwrites e'.info.fingerprint = none →
          cell.effective = x.1.can k' channel bit ∧ cell.base = x.1.canGlobally k' bit) ∧
      (x.1.can k channel .viewChannel = true → ∀ r ∈ x.1.perms.roleIds, ∀ column ∈ matrixColumns,
        ∃ row ∈ p.channelMatrix probe channel, row.roleId = r ∧ ∃ cell ∈ row.cells, cell.name = column.1) := by
  have hx := instep_of_run hstart hrun hello
  obtain ⟨p, hp, h⟩ := hx.shown.mirrors k e he
  refine ⟨p, hp, fun row hrow cell hcell => ?_, fun hcan r hr column hcolumn => ?_⟩
  · obtain ⟨c, hc, role, hrole, rfl⟩ := h.mem_channelMatrix.mp hrow
    obtain ⟨hc, -⟩ := Shared.view_eq_some.mp hc
    obtain ⟨column, hcolumn, rfl⟩ := PermMirror.mem_cells.mp hcell
    refine ⟨c, column.2, hc, hcolumn, fun k' e' he' howner hroles hmember => ?_⟩
    exact h.cell_enforced hx.roles.ids hc (hprobe c hc) he' howner hroles hmember
  · obtain ⟨c, hc, hid⟩ := can_channel hcan
    have hget : x.1.channel channel = some c := hid ▸ Keyed.get_of_mem (.of_sorted hx.rooms.sorted) hc
    have hview := Shared.view_eq_some.mpr ⟨hget, (Shared.can_view he hget).symm.trans hcan⟩
    obtain ⟨role, hrole, rfl⟩ := List.mem_map.mp hr
    exact ⟨_, h.mem_channelMatrix.mpr ⟨c, hview, role, hrole, rfl⟩, rfl, _,
      PermMirror.mem_cells.mpr ⟨column, hcolumn, rfl⟩, rfl⟩

/-- The owner is shown what a guest without roles may do. -/
theorem guest_matrix_enforced : ∃ s₀ db₀ e, Server.bind ownedConfig 5 .empty = some (s₀, db₀) ∧
    (guestAndOwner s₀ db₀).1.client? 2 = some e ∧ ∀ hello, ∃ p,
      clientMirror hello (guestAndOwner s₀ db₀).2.wire e = some p ∧
      (∃ row ∈ p.channelMatrix (.rep 3) 1, row.roleId = everyoneRoleId) ∧
      ∀ row ∈ p.channelMatrix (.rep 3) 1, row.roleId = everyoneRoleId → ∀ cell ∈ row.cells, ∃ bit,
        (cell.name, bit) ∈ matrixColumns ∧ cell.effective = (guestAndOwner s₀ db₀).1.can 1 1 bit := by
  obtain ⟨s₀, db₀, hstart, howner, hguest, hchannel, hcan, heveryone⟩ : ∃ s₀ db₀,
      Server.bind ownedConfig 5 .empty = some (s₀, db₀) ∧
      ((guestAndOwner s₀ db₀).1.client? 2).isSome = true ∧
      (((guestAndOwner s₀ db₀).1.client? 1).any fun e => !e.info.owner && e.info.roles.isEmpty) = true ∧
      (((guestAndOwner s₀ db₀).1.channel 1).map Channel.overwrites) = some [] ∧
      (guestAndOwner s₀ db₀).1.can 2 1 .viewChannel = true ∧ everyoneRoleId ∈ (guestAndOwner s₀ db₀).1.perms.roleIds :=
    ⟨_, _, rfl, by decide +kernel, by decide +kernel, by decide +kernel, by decide +kernel, by decide +kernel⟩
  obtain ⟨e, he⟩ := Option.isSome_iff_exists.mp howner
  obtain ⟨g, hg, hplain⟩ := (Option.any_eq_true _ _).mp hguest
  obtain ⟨c, hc, hnone⟩ := Option.map_eq_some_iff.mp hchannel
  have hempty : ∀ c', (guestAndOwner s₀ db₀).1.channel 1 = some c' →
      ∀ m, overwriteForMember c'.overwrites m = none := by
    intro c' hc' m
    obtain rfl : c' = c := Option.some.inj (hc'.symm.trans hc)
    rw [hnone]
    rfl
  rw [Bool.and_eq_true, Bool.not_eq_true', List.isEmpty_iff] at hplain
  refine ⟨s₀, db₀, e, hstart, he, fun hello => ?_⟩
  obtain ⟨p, hp, hcells, hrows⟩ := matrix_enforced hstart (guestAndOwner_run s₀ db₀) hello he
    (fun c' hc' => hempty c' hc' (.rep 3))
  refine ⟨p, hp, ?_, fun row hrow heveryone cell hcell => ?_⟩
  · obtain ⟨row, hrow, heveryone, -⟩ := hrows hcan _ heveryone _ (List.mem_cons_self ..)
    exact ⟨row, hrow, heveryone⟩
  · obtain ⟨c', bit, hc', hbit, henforced⟩ := hcells row hrow cell hcell
    refine ⟨bit, hbit, (henforced 1 g hg hplain.1 (fun r => ?_) (hempty c' hc' _)).1⟩
    rw [hplain.2, heveryone]
    rfl

/-- A click on a cell, once it has been handled: the matrix of every client that may view
the channel says what the clicker's said, with that cell moved on if the click was acked. -/
theorem click_moves_one_cell {config : ServerConfig} {now : UInt64} {x₀ x y : Shared × World}
    (hstart : Server.bind config now .empty = some (x₀.1, x₀.2.db)) (hrun : Run LifeStep (fun _ _ => True) x₀ x)
    (hello : ServerHello) {k : ClientId} {e : ConnectedClient} (he : x.1.client? k = some e) {p : PermMirror}
    (hp : clientMirror hello x.2.wire e = some p)
    {probe : Fingerprint} {channel : ChannelId} {row : MatrixRowDto} (hrow : row ∈ p.channelMatrix probe channel)
    {cell : MatrixCellDto} (hcell : cell ∈ row.cells) {nonce : UInt64}
    (hst : LifeStep x (.input (.control k ((clickCommand channel row cell).frame nonce))) y) {k' : ClientId}
    {e' : ConnectedClient} (he' : y.1.client? k' = some e') :
    ∃ p', clientMirror hello y.2.wire e' = some p' ∧ ∀ probe' r name state,
      (r, name, state) ∈ shownStates (p'.channelMatrix probe' channel) ↔
        y.1.can k' channel .viewChannel = true ∧ ∃ old, (r, name, old) ∈ shownStates (p.channelMatrix probe channel) ∧
          state = if Acked x.1 y.1 k nonce ∧ r = row.roleId ∧ name = cell.name then old.next else old := by
  have hx := instep_of_run hstart hrun hello
  have hy := hx.step hst
  obtain ⟨p₁, hp₁, h⟩ := hx.shown.mirrors k e he
  obtain rfl : p₁ = p := Option.some.inj (hp₁.symm.trans hp)
  obtain ⟨p', hp', h'⟩ := hy.shown.mirrors k' e' he'
  obtain ⟨c, hview, role, hrole, rfl⟩ := h.mem_channelMatrix.mp hrow
  obtain ⟨hc, -⟩ := Shared.view_eq_some.mp hview
  refine ⟨p', hp', fun probe' r name state => ?_⟩
  obtain ⟨perform, hf, rfl⟩ := hst
  rw [serve_channel] at *
  generalize hexec : exec perform
    ((clickCommand channel (p₁.matrixRow probe c.overwrites role) cell).handle k nonce) x.1 x.2 = y at *
  -- The handled click ended in a refusal, or in the edit of one overwrite.
  obtain ⟨c', hc', hroles, hstates⟩ : ∃ c', y.1.channel channel = some c' ∧ y.1.perms.roleIds = x.1.perms.roleIds ∧
      ∀ r, ∀ column ∈ matrixColumns, cellState (overwriteForRole c'.overwrites r) column.2 =
        if Acked x.1 y.1 k nonce ∧ r = role.id ∧ column.1 = cell.name
        then (cellState (overwriteForRole c.overwrites r) column.2).next
        else cellState (overwriteForRole c.overwrites r) column.2 := by
    rcases (clickCommand channel (p₁.matrixRow probe c.overwrites role) cell).exec_cases hf x.1 x.2 k nonce with
      ⟨hr, -⟩ | ⟨change, db, -, hpasses, -, hdone⟩
    · rw [hexec] at hr
      refine ⟨c, (congrArg (Keyed.get Channel.id channel) hr.rooms.channels).trans hc,
        congrArg PermState.roleIds hr.perms,
        fun r column _ => ?_⟩
      rw [if_neg fun ⟨hacked, _⟩ => hr.not_acked nonce hacked]
    · obtain ⟨edit, hedit, hoverwrite, hmem⟩ := click_edits hpasses
      rw [hexec, hmem] at hdone
      have hacked : Acked x.1 y.1 k nonce := by
        have hconnected : (x.1.modifyChannel channel edit).client? k = some e := he
        rw [hdone, Acked, Shared.queue_deliver, hconnected, show (x.1.modifyChannel channel edit).queue k = x.1.queue k
          from rfl, List.drop_left]
        refine List.mem_append_right _ ?_
        simp [acks, Shared.client?_id he]
      refine ⟨edit c, ?_, ?_, fun r column hcolumn => ?_⟩
      · rw [hdone, Shared.deliver_channel, Shared.modifyChannel_edited hedit, hc]
        rfl
      · rw [hdone]
        rfl
      · simp only [hoverwrite, hacked, true_and]
        change cellState (if r = role.id then _ else _) _ = _
        by_cases hr : r = role.id
        · subst hr
          rw [if_pos rfl, PermMirror.cellState_clicked hcell hcolumn]
          by_cases hname : column.1 = cell.name
          · rw [if_pos hname, if_pos ⟨rfl, hname⟩, PermMirror.cell_state hcell hcolumn hname]
          · rw [if_neg hname, if_neg fun h => hname h.2]
        · rw [if_neg hr, if_neg fun h => hr h.1]
  rw [Shared.can_view he' hc']
  exact h.shownStates_after h' hroles hview hc' (fun r name old =>
    if Acked x.1 y.1 k nonce ∧ r = role.id ∧ name = cell.name then old.next else old) hstates

def gridHello : ServerHello :=
  ⟨protocolVersion, "s", ⟨.replicate 32 0, 0⟩, .replicate 32 0, 0, false, ⟨.replicate 32 0, []⟩⟩

def firstCell (x : Shared × World) : Option (ConnectedClient × PermMirror × MatrixRowDto × MatrixCellDto) := do
  let e ← x.1.client? 2
  let p ← clientMirror gridHello x.2.wire e
  let row ← (p.channelMatrix (.rep 3) 1).head?
  let cell ← row.cells.head?
  some (e, p, row, cell)

/-- The owner's click is acked, and what everyone is shown is that it has moved. -/
theorem owner_click_moves : ∃ s₀ db₀ e p row cell y, Server.bind ownedConfig 5 .empty = some (s₀, db₀) ∧
    (guestAndOwner s₀ db₀).1.client? 2 = some e ∧ clientMirror gridHello (guestAndOwner s₀ db₀).2.wire e = some p ∧
    row ∈ p.channelMatrix (.rep 3) 1 ∧ cell ∈ row.cells ∧ Acked (guestAndOwner s₀ db₀).1 y.1 2 9 ∧
    LifeStep (guestAndOwner s₀ db₀) (.input (.control 2 ((clickCommand 1 row cell).frame 9))) y ∧
    ∀ k' e', y.1.client? k' = some e' → ∃ p', clientMirror gridHello y.2.wire e' = some p' ∧
      ∀ probe' r name state, (r, name, state) ∈ shownStates (p'.channelMatrix probe' 1) ↔
        y.1.can k' 1 .viewChannel = true ∧ ∃ old, (r, name, old) ∈ shownStates (p.channelMatrix (.rep 3) 1) ∧
          state = if Acked (guestAndOwner s₀ db₀).1 y.1 2 9 ∧ r = row.roleId ∧ name = cell.name
            then old.next else old := by
  obtain ⟨s₀, db₀, hstart, hclick⟩ : ∃ s₀ db₀, Server.bind ownedConfig 5 .empty = some (s₀, db₀) ∧
      ((firstCell (guestAndOwner s₀ db₀)).any fun (_, _, row, cell) => decide (Acked (guestAndOwner s₀ db₀).1
        (serve Await.perform (.control 2 ((clickCommand 1 row cell).frame 9)) (guestAndOwner s₀ db₀).1
          (guestAndOwner s₀ db₀).2).1 2 9)) = true :=
    ⟨_, _, rfl, by decide +kernel⟩
  obtain ⟨⟨e, p, row, cell⟩, hfirst, hacked⟩ := (Option.any_eq_true _ _).mp hclick
  simp only [firstCell, Option.bind_eq_bind, Option.bind_eq_some_iff, Option.some.injEq, Prod.mk.injEq] at hfirst
  obtain ⟨e, he, p, hp, row, hrow, cell, hcell, rfl, rfl, rfl, rfl⟩ := hfirst
  have hst : LifeStep (guestAndOwner s₀ db₀) (.input (.control 2 ((clickCommand 1 row cell).frame 9)))
      (serve Await.perform (.control 2 ((clickCommand 1 row cell).frame 9)) (guestAndOwner s₀ db₀).1
        (guestAndOwner s₀ db₀).2) := ⟨Await.perform, Await.faulty, rfl⟩
  refine ⟨s₀, db₀, e, p, row, cell, _, hstart, he, hp, List.mem_of_mem_head? hrow, List.mem_of_mem_head? hcell,
    of_decide_eq_true hacked, hst, fun k' e' he' => ?_⟩
  exact click_moves_one_cell hstart (guestAndOwner_run s₀ db₀) gridHello he hp (List.mem_of_mem_head? hrow)
    (List.mem_of_mem_head? hcell) hst he'

end PickleChat
