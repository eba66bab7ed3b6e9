import PickleChat.ListedRuns
import PickleChat.RoleEdits

/-!
# The members tab

A row stages a member's roles as boxes and replaces the whole set with what is
ticked; a form does so for a fingerprint that is typed in.
-/

namespace PickleChat

open Async (Run exec)

def toggleRole (staged : List RoleId) (id : RoleId) : List RoleId :=
  if id ∈ staged then staged.filter (· ≠ id) else staged ++ [id]

/-- The boxes of a row differ from what the server says. -/
def rowDirty (user : UserDto) (staged : List RoleId) : Bool :=
  staged.length ≠ user.roles.length || staged.any (fun id => id ∉ user.roles)

inductive MembersTabEdit where
  | apply (user : UserDto) (staged : List RoleId)
  | grant (text : String) (staged : List RoleId)

namespace MembersTabEdit

/-- The text that the backend reads a fingerprint from. -/
def target : MembersTabEdit → String
  | .apply user _ => user.fingerprint
  | .grant text _ => jsTrim text

def staged : MembersTabEdit → List RoleId
  | .apply _ staged => staged
  | .grant _ staged => staged

/-- The button is disabled, or the form is empty. -/
def idle : MembersTabEdit → Bool
  | .apply user staged => !rowDirty user staged
  | .grant text _ => jsTrim text = ""

def command (edit : MembersTabEdit) : Option RoleCommand :=
  if edit.idle then none else (Fingerprint.parse edit.target).map fun f => .grant f edit.staged

def result (users : List UserDto) (edit : MembersTabEdit) : List UserDto :=
  users.map fun u =>
    if Fingerprint.parse u.fingerprint = Fingerprint.parse edit.target then { u with roles := edit.staged } else u

end MembersTabEdit

/-- A click on a box stages that role, or takes it off again, and no other. -/
theorem mem_toggleRole {staged : List RoleId} {id j : RoleId} :
    j ∈ toggleRole staged id ↔ if j = id then j ∉ staged else j ∈ staged := by
  unfold toggleRole
  by_cases hj : j = id
  · subst hj
    by_cases hm : j ∈ staged <;> simp [hm]
  · by_cases hm : id ∈ staged <;> simp [hm, hj]

/-- A row that is not dirty shows the roles the member has. -/
theorem mem_of_not_dirty {user : UserDto} {staged : List RoleId} (hu : staged.Nodup)
    (h : rowDirty user staged = false) (id : RoleId) : id ∈ staged ↔ id ∈ user.roles := by
  simp only [rowDirty, Bool.or_eq_false_iff, decide_eq_false_iff_not, not_not, List.any_eq_false,
    decide_eq_true_eq] at h
  exact ((List.subperm_of_subset hu h.2).perm_of_length_le (Nat.le_of_eq h.1.symm)).mem_iff

section
variable {perform : (op : Await) → World → op.Reply × World} {s : Shared} {w : World} {client : ClientId}
  {nonce : UInt64} {f : Fingerprint} {roles : List RoleId}

theorem Refused.users {s' : Shared} (h : Refused s client s') : s'.users = s.users := by
  rcases h with rfl | ⟨_, _, _, rfl⟩
  · rfl
  · rw [refuse_eq, Shared.deliver_users]

theorem withGrants_users (p : PermState) : (s.withGrants p f roles).users =
    s.users.map fun u => if u.fingerprint = f then { u with roles } else u := by
  simp only [Shared.users, Shared.withGrants, Shared.updateLiveMemberRoles, List.map_map]
  apply List.map_congr_left
  intro e _
  simp only [Function.comp_apply]
  split <;> rfl

/-- Who is connected with which roles, once a grant has been handled. -/
theorem grant_users {e : ConnectedClient} (he : s.client? client = some e) :
    (exec perform ((RoleCommand.grant f roles).handle client nonce) s w).1.users =
      if Acked s (exec perform ((RoleCommand.grant f roles).handle client nonce) s w).1 client nonce
        then s.users.map fun u => if u.fingerprint = f then { u with roles } else u
        else s.users := by
  unfold exec
  rcases RoleCommand.handle_cases (rfl : (RoleCommand.grant f roles).handle client nonce s = _) with
    ⟨hd, hr⟩ | ⟨a, next, save, -, -, hp, hs⟩
  · rw [hd, Async.Task.run_done, if_neg (hr.not_acked nonce), hr.users]
  · rw [hs]
    have hrun : (Refused s client (save.run perform s w).1 ∧ _) ∨ _ := hp.acks he w
    generalize hy : save.run perform s w = y at hrun
    rcases hrun with ⟨hr, -⟩ | ⟨-, hacked⟩
    · rw [if_neg (hr.not_acked nonce), hr.users]
    · rw [if_pos hacked]
      cases hp with
      | grant =>
        unfold setMemberRolesSave at hy
        simp only [run_onSaved] at hy
        split at hy
        · rw [← hy, Async.Task.run_done, setMemberRolesSwap_eq, Shared.deliver_users, withGrants_users]
        · rw [← hy] at hacked
          exact absurd hacked ((Refused.refuse s client nonce _ _).not_acked nonce)

end

theorem UserDto.of_granted (u : UserInfo) (f : Fingerprint) (roles : List RoleId) :
    UserDto.of (if u.fingerprint = f then { u with roles } else u) =
      if Fingerprint.parse (UserDto.of u).fingerprint = some f then { UserDto.of u with roles } else .of u := by
  have hparse : Fingerprint.parse (UserDto.of u).fingerprint = some u.fingerprint := Fingerprint.parse_toText _
  by_cases hf : u.fingerprint = f
  · rw [if_pos hf, if_pos (hparse.trans (congrArg some hf))]
    rfl
  · rw [if_neg hf, if_neg fun h => hf (Option.some.inj (hparse.symm.trans h))]

theorem MembersTabEdit.result_of {edit : MembersTabEdit} {f : Fingerprint}
    (hparse : Fingerprint.parse edit.target = some f) (users : List UserInfo) :
    edit.result (users.map .of) =
      (users.map fun u => if u.fingerprint = f then { u with roles := edit.staged } else u).map .of := by
  unfold result
  rw [List.map_map, List.map_map]
  refine List.map_congr_left fun u _ => ?_
  rw [Function.comp_apply, Function.comp_apply, UserDto.of_granted]
  simp only [hparse]

theorem MembersTabEdit.command_some {edit : MembersTabEdit} {cmd : RoleCommand} (h : edit.command = some cmd) :
    ∃ f, Fingerprint.parse edit.target = some f ∧ cmd = .grant f edit.staged := by
  unfold command at h
  by_cases hidle : edit.idle = true
  · rw [if_pos hidle] at h
    cases h
  · rw [if_neg hidle] at h
    obtain ⟨f, hparse, rfl⟩ := Option.map_eq_some_iff.mp h
    exact ⟨f, hparse, rfl⟩

/-- A row that is dirty sends its member's fingerprint. -/
theorem MembersTabEdit.command_apply (u : UserInfo) (staged : List RoleId) (h : rowDirty (.of u) staged = true) :
    (MembersTabEdit.apply (.of u) staged).command = some (.grant u.fingerprint staged) := by
  have hparse : Fingerprint.parse (MembersTabEdit.apply (.of u) staged).target = some u.fingerprint :=
    Fingerprint.parse_toText _
  unfold command
  rw [if_neg (by simp [idle, h]), hparse]
  rfl

/-- What the members tab sends, once it has been handled: every tab that has reduced all
that the server queued for its client lists the users as before, with the roles of the
member replaced by the ticked ones if the command was acked. -/
theorem ticked_roles_replace {config : ServerConfig} {now : UInt64} {x₀ x y : Shared × World}
    (hstart : Server.bind config now .empty = some (x₀.1, x₀.2.db)) (hrun : Run LifeStep IdSpare x₀ x)
    (hello : ServerHello) {k : ClientId} {e : ConnectedClient} (he : x.1.client? k = some e) {edit : MembersTabEdit}
    {cmd : RoleCommand} (hcmd : edit.command = some cmd) {nonce : UInt64}
    (hst : LifeStep x (.input (.control k (cmd.frame nonce))) y) {k' : ClientId} {e' : ConnectedClient}
    (he' : y.1.client? k' = some e') :
    ∃ login, loginSession hello y.2.wire e' = some login ∧
      ∀ sha256 session tabs o,
        Run Opening.Step Opening.InTime (.start sha256 session e'.info.fingerprint login tabs) o →
        o.stage = .opened → o.emitted = [] → o.inbox = [] →
        o.taken.filter (fun event => !event.isVoice) = e'.control.filterMap translate →
        ∃ c, o.tabs.byId session = some c ∧ c.disconnected = none ∧
          c.users.Perm (if Acked x.1 y.1 k nonce then edit.result (x.1.users.map .of) else x.1.users.map .of) := by
  have h₀ : AllListed hello x₀ := .bind hstart nofun .empty
  have hx := hrun.invariant (AllListed hello) h₀ fun _ _ _ hi hfree hst => hi.step hfree hst
  have hfree : IdSpare x (.input (.control k (cmd.frame nonce))) := fun _ h => nomatch h
  have hy := hx.step hfree hst
  obtain ⟨f, hparse, rfl⟩ := MembersTabEdit.command_some hcmd
  have husers : y.1.users.map UserDto.of =
      if Acked x.1 y.1 k nonce then edit.result (x.1.users.map .of) else x.1.users.map .of := by
    obtain ⟨perform, hf, rfl⟩ := hst
    rw [serve_role, grant_users he]
    split
    · rw [MembersTabEdit.result_of hparse]
    · rfl
  obtain ⟨login, hlogin, hlists⟩ := hy.listed he'
  refine ⟨login, hlogin, fun sha256 session tabs o ho hopened hreduced hread hall => ?_⟩
  obtain ⟨c, hc, hend, hu, -⟩ := hlists sha256 session tabs o ho hopened hreduced hread hall
  exact ⟨c, hc, hend, husers ▸ hu⟩

def guestTab (x : Shared × World) : Option (ConnectedClient × SessionInfo × Opening) := do
  let e ← x.1.client? 2
  let login ← loginSession openHello x.2.wire e
  let o ← Async.replay (fun o l => if decide (Opening.InTime o l) then o.exec l else none)
    (.start (fun _ => Vector.replicate 32 0) 1 e.info.fingerprint login .empty) (watchSteps e.control 2)
  some (e, login, o)

/-- The owner ticks a role for the guest, whose own tab then lists it. -/
theorem owner_ticks_guest :
    ∃ s₀ db₀ x y u e, Server.bind ownedConfig 5 .empty = some (s₀, db₀) ∧ Run LifeStep IdSpare (s₀, ⟨db₀, []⟩) x ∧
      x.1.user 2 = some u ∧ Acked x.1 y.1 1 9 ∧ y.1.client? 2 = some e ∧
      LifeStep x (.input (.control 1 ((RoleCommand.grant u.fingerprint [1]).frame 9))) y ∧
      ∃ login, loginSession openHello y.2.wire e = some login ∧
        ∃ o c, Run Opening.Step Opening.InTime
            (.start (fun _ => Vector.replicate 32 0) 1 e.info.fingerprint login .empty) o ∧
          o.tabs.byId 1 = some c ∧ c.users.Perm ((MembersTabEdit.apply (.of u) [1]).result (x.1.users.map .of)) := by
  have handled : ∀ {x : Shared × World} (i : Input), LifeStep x (.input i) (serve Await.perform i x.1 x.2) :=
    fun i => ⟨Await.perform, Await.faulty, rfl⟩
  obtain ⟨s₀, db₀, x, hstart, hrun, howner, hgranted⟩ : ∃ s₀ db₀ x, Server.bind ownedConfig 5 .empty = some (s₀, db₀) ∧
      Run LifeStep IdSpare (s₀, ⟨db₀, []⟩) x ∧ (x.1.client? 1).isSome = true ∧ ((x.1.user 2).any fun u =>
        let y := serve Await.perform (.control 1 ((RoleCommand.grant u.fingerprint [1]).frame 9)) x.1 x.2
        rowDirty (.of u) [1] && decide (Acked x.1 y.1 1 9) && (guestTab y).any fun (e, login, o) =>
          decide (o.stage = .opened ∧ o.emitted = [] ∧ o.inbox = [] ∧
            o.taken.filter (fun event => !event.isVoice) = e.control.filterMap translate)) = true :=
    ⟨_, _, _, rfl,
      .step (.input (.connect ⟨protocolVersion, ⟨.rep 2, 8⟩, "n", none, true⟩))
        (.step (.input ownerConnects) .refl (fun _ _ => by decide +kernel) (handled _))
        (fun _ _ => by decide +kernel) (handled _),
      by decide +kernel, by decide +kernel⟩
  obtain ⟨owner, howner⟩ := Option.isSome_iff_exists.mp howner
  obtain ⟨u, hu, hgranted⟩ := (Option.any_eq_true _ _).mp hgranted
  obtain ⟨hclick, htab⟩ := (Bool.and_eq_true _ _).mp hgranted
  obtain ⟨hdirty, hacked⟩ := (Bool.and_eq_true _ _).mp hclick
  have hacked := of_decide_eq_true hacked
  obtain ⟨⟨e, login, o⟩, hsome, hend⟩ := (Option.any_eq_true _ _).mp htab
  obtain ⟨hopened, hreduced, hread, hall⟩ := of_decide_eq_true hend
  unfold guestTab at hsome
  obtain ⟨e', he, hsome⟩ := Option.bind_eq_some_iff.mp hsome
  obtain ⟨login', hlogin, hsome⟩ := Option.bind_eq_some_iff.mp hsome
  obtain ⟨o', ho, hsome⟩ := Option.bind_eq_some_iff.mp hsome
  cases hsome
  have hopening := Run.of_checked Opening.exec (fun o l => decide (o.InTime l)) (fun _ _ h => of_decide_eq_true h) _ ho
  obtain ⟨login', hlogin', hlists⟩ := ticked_roles_replace hstart hrun openHello howner
    (MembersTabEdit.command_apply u [1] hdirty) (handled _) he
  obtain rfl := Option.some.inj (hlogin.symm.trans hlogin')
  obtain ⟨c, hc, -, hshown⟩ := hlists _ 1 .empty o hopening hopened hreduced hread hall
  rw [if_pos hacked] at hshown
  exact ⟨s₀, db₀, x, _, u, e, hstart, hrun, hu, hacked, he, handled _, login, hlogin, o, c, hopening, hc, hshown⟩

end PickleChat
