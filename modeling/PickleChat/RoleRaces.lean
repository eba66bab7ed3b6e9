import PickleChat.RoleMirror

/-!
# Role commands that overlap

Every role command takes a snapshot, awaits its store calls and swaps in a
snapshot built from the one it took. Commands of different clients interleave
at the awaits, and nothing makes a later swap start from an earlier one. As
long as no command begins to write on a snapshot that is no longer current,
or while another one is writing, memory and tables stay in step.
-/

namespace PickleChat

open Async (Run Pool Event Settles Swaps Serial)

abbrev RolePool := Pool Shared Await Await.Reply World Nat

abbrev RoleEvent := Event Shared Await Await.Reply Nat

/-- What the tables give back is what memory holds. -/
def RolesAgree (p : PermState) (db : Db) : Prop :=
  db.loadRoles.Perm p.roles ∧ ∀ f id, (f, id) ∈ db.loadRoleMembers ↔ id ∈ p.grants f

/-- Every handler is that of a role command; whatever else happens meanwhile leaves the snapshot alone. -/
def RoleTraffic : RoleEvent → Prop
  | .spawn _ h => ∃ (cmd : RoleCommand) (client : ClientId) (nonce : UInt64), h = cmd.handle client nonce
  | .outside f => ∀ s, (f s).perms = s.perms
  | _ => True

/-- A command's first store call meets the snapshot the command took, and no
other command is between its first store call and its swap. -/
def RaceFree (p : RolePool) : RoleEvent → Prop
  | .perform i => ∀ j, p.jobs i = some j → j.begun = false →
      p.state.perms = j.seen.perms ∧ ∀ k j', p.jobs k = some j' → ¬ j'.active
  | _ => True

/-! ## Each command alone -/

abbrev Mirrors : PermState → World → Prop := fun p w => RolesMirror p w.db

section
variable {p : PermState} {w : World}

theorem settles_onSaved {call : StoreWrite} {failed : Shared → Shared} {saved : Handler}
    (h : ∀ db, call.perform w.db = some db → ∀ t : Shared, t.perms = p →
      ((saved t).2 ≠ .done → (saved t).1.perms = p) ∧
        Settles Performs Shared.perms Mirrors (saved t).2 (saved t).1.perms { w with db }) :
    Settles Performs Shared.perms Mirrors (onSaved call failed saved) p w := by
  intro r w' hp t ht
  cases hp with
  | save hdb => exact h _ hdb t ht

theorem settles_onWritten {call : StoreWrite} {k : Handler}
    (h : ∀ db, call.perform w.db = some db → ∀ t : Shared, t.perms = p →
      ((k t).2 ≠ .done → (k t).1.perms = p) ∧
        Settles Performs Shared.perms Mirrors (k t).2 (k t).1.perms { w with db }) :
    Settles Performs Shared.perms Mirrors (onWritten call k) p w := by
  intro r w' hp t ht
  cases hp with
  | save hdb => exact h _ hdb t ht

/-- A swap at the end of a command settles when the tables already hold the new snapshot. -/
theorem settles_swap {s : Shared} (h : RolesMirror s.perms w.db) :
    ((Async.Task.done : Todo) ≠ .done → s.perms = p) ∧
      Settles Performs Shared.perms Mirrors (.done : Todo) s.perms w :=
  ⟨fun hn => absurd rfl hn, h⟩

end

theorem Passes.settles {s : Shared} {client : ClientId} {nonce : UInt64} {a : Actor} {cmd : RoleCommand}
    {next : PermState} {save : Todo} (h : Passes s client nonce a cmd next save) {w : World}
    (hm : RolesMirror s.perms w.db) : Settles Performs Shared.perms Mirrors save s.perms w := by
  cases h with
  | create =>
    unfold createRoleSave
    refine settles_onSaved fun db hdb t ht => ⟨fun _ => ht, ?_⟩
    rw [ht]
    refine settles_onSaved fun db' hdb' t' _ => settles_swap ?_
    rw [createRoleSwap_eq]
    obtain rfl := Option.some.inj hdb
    exact hm.created hdb'
  | @update id name color permissions existing updated hget _ _ hedit =>
    obtain ⟨hid, hpos, -, -⟩ := editedRole_ok hedit
    have hget' : Keyed.get Role.id updated.id s.perms.roles = some existing := by
      rw [hid, ← hget, Keyed.get_key hget]
    unfold updateRoleSave
    refine settles_onSaved fun db hdb t _ => settles_swap ?_
    rw [updateRoleSwap_eq]
    obtain rfl := Option.some.inj hdb
    exact hm.updated hget' hpos
  | delete =>
    unfold deleteRoleSave
    refine settles_onSaved fun db hdb t ht => ⟨fun _ => ht, ?_⟩
    rw [ht]
    refine settles_onWritten fun db' hdb' t' _ => settles_swap ?_
    rw [deleteRoleSwap_eq]
    obtain rfl := Option.some.inj hdb
    obtain rfl := Option.some.inj hdb'
    exact hm.deleted _
  | reorder hd =>
    unfold reorderRolesSave
    refine settles_onSaved fun db hdb t _ => settles_swap ?_
    rw [reorderRolesSwap_eq]
    obtain rfl := Option.some.inj hdb
    exact hm.reordered hd
  | grant =>
    unfold setMemberRolesSave
    refine settles_onSaved fun db hdb t _ => settles_swap ?_
    rw [setMemberRolesSwap_eq]
    exact hm.granted hdb

theorem RoleCommand.swaps (cmd : RoleCommand) (client : ClientId) (nonce : UInt64) :
    Swaps Performs Shared.perms Mirrors (cmd.handle client nonce) := by
  intro s
  rcases handle_cases (rfl : cmd.handle client nonce s = _) with ⟨hd, hr⟩ | ⟨a, next, save, -, -, hp, he⟩
  · rw [hd, hr.perms]
    exact ⟨rfl, fun w hw => hw⟩
  · rw [he]
    exact ⟨rfl, fun w hw => hp.settles hw⟩

theorem serial_of_raceFree {p : RolePool} {e : RoleEvent} (ht : RoleTraffic e) (h : RaceFree p e) :
    Serial Performs Shared.perms Mirrors p e := by
  cases e with
  | spawn i hd =>
    obtain ⟨cmd, client, nonce, rfl⟩ := ht
    exact cmd.swaps client nonce
  | perform i => exact h
  | resume i => trivial
  | outside f => exact ht

/-- In every race-free run, once every command is through memory is what the
tables give back; and a command that is writing still builds on the current
snapshot, so its swap undoes nothing. -/
theorem rolesAgree_of_raceFree {p₀ p : RolePool} (hjobs : ∀ i, p₀.jobs i = none)
    (h₀ : RolesMirror p₀.state.perms p₀.world.db)
    (h : Run (Pool.Step Performs) (fun p e => RoleTraffic e ∧ RaceFree p e) p₀ p) :
    ((∀ i j, p.jobs i = some j → j.finished) → RolesAgree p.state.perms p.world.db) ∧
      ∀ i j, p.jobs i = some j → j.active → j.seen.perms = p.state.perms := by
  have hserial : Run (Pool.Step Performs) (Serial Performs Shared.perms Mirrors) p₀ p :=
    h.mono fun p e hok => serial_of_raceFree hok.1 hok.2
  obtain ⟨hq, hs⟩ := Async.agree_of_serial hjobs h₀ hserial
  refine ⟨fun hfin => ?_, hs⟩
  have hm : RolesMirror p.state.perms p.world.db := hq fun i j hi ha => ha.2 (hfin i j hi)
  exact ⟨hm.loadRoles_perm, hm.loadRoleMembers⟩

/-! ## A revocation undone -/

/-- Clients 1 and 2 manage roles; client 3 holds the role below theirs. -/
def raceServer : Shared :=
  exampleServer [exampleRole 0 0 .defaultEveryone, exampleRole 1 1 .banMembers, exampleRole 2 2 .manageRoles] []
    [exampleClient 1 1 [2] none, exampleClient 2 2 [2] none, exampleClient 3 3 [1] none]

def raceWorld : World :=
  ⟨{ Db.empty with
      roles := ⟨raceServer.perms.roles.map roleRow, by decide⟩
      roleMembers := ⟨[memberRow (.rep 1) 2, memberRow (.rep 2) 2, memberRow (.rep 3) 1], by decide⟩ }, []⟩

theorem raceServer_mirror : RolesMirror raceServer.perms raceWorld.db where
  ids := by unfold Keyed.Unique; decide
  roles row := by simp [raceWorld]
  grants row := by
    have hg : ∀ f, raceServer.perms.grants f =
        if f = .rep 1 then [2] else if f = .rep 2 then [2] else if f = .rep 3 then [1] else [] := by
      intro f
      by_cases h₁ : f = .rep 1; · subst h₁; rfl
      by_cases h₂ : f = .rep 2; · subst h₂; rfl
      by_cases h₃ : f = .rep 3; · subst h₃; rfl
      have hnone : raceServer.perms.members f = none := by
        simp [raceServer, exampleServer, exampleClient, UserInfo.fingerprint, Ne.symm h₁, Ne.symm h₂, Ne.symm h₃]
      simp [h₁, h₂, h₃, PermState.grants, hnone]
    simp only [raceWorld, List.mem_cons, List.not_mem_nil, or_false]
    constructor
    · rintro (rfl | rfl | rfl)
      · exact ⟨.rep 1, 2, by decide, rfl⟩
      · exact ⟨.rep 2, 2, by decide, rfl⟩
      · exact ⟨.rep 3, 1, by decide, rfl⟩
    · rintro ⟨f, id, hid, rfl⟩
      rw [hg] at hid
      split_ifs at hid with h₁ h₂ h₃ <;> simp_all

def racePool : RolePool := ⟨raceServer, raceWorld, fun _ => none⟩

/-- Client 1 renames the role, client 3 is refused while that is being saved, and
client 2 then takes the role from client 3. -/
theorem rolesAgree_of_raceFree_turns :
    ∃ p, Run (Pool.Step Performs) (fun p e => RoleTraffic e ∧ RaceFree p e) racePool p ∧
      Acked racePool.state p.state 1 7 ∧ Acked racePool.state p.state 2 8 ∧ p.state.perms.grants (.rep 3) = [] ∧
      RolesAgree p.state.perms p.world.db := by
  have hrun : ∃ p, Run (Pool.Step Performs) (fun p e => RoleTraffic e ∧ RaceFree p e) racePool p ∧
      (∀ i j, p.jobs i = some j → j.finished) ∧ Acked racePool.state p.state 1 7 ∧ Acked racePool.state p.state 2 8 ∧
      p.state.perms.grants (.rep 3) = [] := by
    refine ⟨_, .step (.resume 2) (.step (.perform 2) (.step (.spawn 2 _) (.step (.resume 1) (.step (.spawn 3 _)
      (.step (.perform 1) (.step (.spawn 1 _) .refl
      ⟨⟨.update 1 (some "door") none none, 1, 7, rfl⟩, trivial⟩ (.spawn 1 _ rfl))
      ⟨trivial, fun j hj _ => ?_⟩ (.perform 1 rfl rfl (.save rfl)))
      ⟨⟨.grant (.rep 3) [], 3, 9, rfl⟩, trivial⟩ (.spawn 3 _ rfl))
      ⟨trivial, trivial⟩ (.resume 1 rfl rfl))
      ⟨⟨.grant (.rep 3) [], 2, 8, rfl⟩, trivial⟩ (.spawn 2 _ rfl))
      ⟨trivial, fun j hj _ => ?_⟩ (.perform 2 rfl rfl (.save rfl)))
      ⟨trivial, trivial⟩ (.resume 2 rfl rfl), ?_, by decide +kernel, by decide +kernel, by decide +kernel⟩
    · cases hj
      refine ⟨rfl, fun k j' hk => ?_⟩
      rcases Async.set_eq hk with ⟨-, rfl⟩ | ⟨-, hk⟩
      · exact Async.fresh_not_active rfl
      · cases hk
    · cases hj
      refine ⟨rfl, fun k j' hk => ?_⟩
      rcases Async.set_eq hk with ⟨-, rfl⟩ | ⟨-, hk⟩
      · exact Async.fresh_not_active rfl
      rcases Async.set_eq hk with ⟨-, rfl⟩ | ⟨h₁, hk⟩
      · exact fun h => h.2 rfl
      rcases Async.set_eq hk with ⟨-, rfl⟩ | ⟨-, hk⟩
      · exact Async.fresh_not_active rfl
      rw [Async.set_set] at hk
      rcases Async.set_eq hk with ⟨h, -⟩ | ⟨-, hk⟩
      · exact absurd h h₁
      cases hk
    · intro i j hj
      simp only [Async.set_set] at hj
      rcases Async.set_eq hj with ⟨-, rfl⟩ | ⟨-, hj⟩
      · rfl
      rcases Async.set_eq hj with ⟨-, rfl⟩ | ⟨h₁, hj⟩
      · rfl
      rcases Async.set_eq hj with ⟨-, rfl⟩ | ⟨-, hj⟩
      · rfl
      rcases Async.set_eq hj with ⟨h, -⟩ | ⟨-, hj⟩
      · exact absurd h h₁
      cases hj
  obtain ⟨p, hrun, hfin, hack, hack', hgone⟩ := hrun
  exact ⟨p, hrun, hack, hack', hgone, (rolesAgree_of_raceFree (fun _ => rfl) raceServer_mirror hrun).1 hfin⟩

/-- While client 1 renames the role, client 2 takes it from client 3. Both are
acknowledged, the grant is gone from the table, and client 3 still holds the
role: the rename swapped in the grants it had read before. -/
theorem revocation_undone : RolesMirror racePool.state.perms racePool.world.db ∧
    ∃ p, Run (Pool.Step Performs) (fun _ e => RoleTraffic e) racePool p ∧
      (∀ i j, p.jobs i = some j → j.finished) ∧ Acked racePool.state p.state 1 7 ∧ Acked racePool.state p.state 2 8 ∧
      ¬ RolesAgree p.state.perms p.world.db := by
  refine ⟨raceServer_mirror, _, .step (.resume 1)
    (.step (.perform 1) (.step (.resume 2) (.step (.perform 2) (.step (.spawn 2 _)
    (.step (.spawn 1 _) .refl ⟨.update 1 (some "door") none none, 1, 7, rfl⟩ (.spawn 1 _ rfl))
    ⟨.grant (.rep 3) [], 2, 8, rfl⟩ (.spawn 2 _ rfl))
    trivial (.perform 2 rfl rfl (.save rfl)))
    trivial (.resume 2 rfl rfl))
    trivial (.perform 1 rfl rfl (.save rfl)))
    trivial (.resume 1 rfl rfl), ?_, by decide +kernel, by decide +kernel, fun h => ?_⟩
  · intro i j hj
    simp only [Async.set_set] at hj
    rcases Async.set_eq hj with ⟨-, rfl⟩ | ⟨h₁, hj⟩
    · rfl
    rcases Async.set_eq hj with ⟨-, rfl⟩ | ⟨-, hj⟩
    · rfl
    rcases Async.set_eq hj with ⟨h, -⟩ | ⟨-, hj⟩
    · exact absurd h h₁
    cases hj
  · have := (h.2 (.rep 3) 1).mpr (by decide +kernel)
    revert this
    decide +kernel

end PickleChat
