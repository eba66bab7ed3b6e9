import PickleChat.Faults
import PickleChat.RolesTab

/-!
# Edits of roles

What becomes of an edit made in the roles tab, in whatever state the server is
reached: which edits are accepted, and what every client is shown after it.
-/

namespace PickleChat

open Async (Run exec)

/-! ## Accepted or not -/

section
variable {s : Shared} {client : ClientId} {nonce : UInt64} {perform : (op : Await) → World → op.Reply × World}
  {cmd : RoleCommand}

/-- A role command of a connected client is refused, or acked with its snapshot in. -/
theorem RoleCommand.acked_cases {e : ConnectedClient} (he : s.client? client = some e) (w : World) :
    (¬ Acked s (exec perform (cmd.handle client nonce) s w).1 client nonce ∧
        (exec perform (cmd.handle client nonce) s w).1.perms = s.perms) ∨
      ∃ a next save, Passes s client nonce a cmd next save ∧
        (exec perform (cmd.handle client nonce) s w).1.perms = next ∧
        Acked s (exec perform (cmd.handle client nonce) s w).1 client nonce := by
  unfold exec
  rcases handle_cases (rfl : cmd.handle client nonce s = _) with ⟨hd, hr⟩ | ⟨a, next, save, -, -, hp, hs⟩
  · rw [hd]
    exact .inl ⟨hr.not_acked nonce, hr.perms⟩
  · rw [hs]
    rcases hp.acks he w with ⟨hr, -⟩ | ⟨hn, hacked⟩
    · exact .inl ⟨hr.not_acked nonce, hr.perms⟩
    · exact .inr ⟨a, next, save, hp, hn, hacked⟩

end

/-! ## Whole runs -/

/-- A restart finds the rows of the roles it had, and no edit of them half saved. -/
def WholeRestart (x : Shared × World) : Happening → Prop
  | .input _ => True
  | .restart _ _ => RoleRows x.1.perms.roles x.2.db

theorem loadOrSeedRoles_order {db db' : Db} {roles : List Role} (h : loadOrSeedRoles db = some (roles, db'))
    (hdb : db.loadRoles = [] ∨ RoleOrder db.loadRoles) : RoleOrder roles := by
  unfold loadOrSeedRoles at h
  split at h
  · obtain ⟨db₁, -, he⟩ := Option.map_eq_some_iff.mp h
    cases he
    exact defaultRoles_order
  · cases h
    exact hdb.resolve_left ‹_›

theorem bind_order {config : ServerConfig} {now : UInt64} {db : Db} {y : Shared × World}
    (h : Server.bind config now db = some (y.1, y.2.db)) (hdb : db.loadRoles = [] ∨ RoleOrder db.loadRoles) :
    RoleOrder y.1.perms.roles := by
  obtain ⟨channels, db₁, roles, hc, hr, hperms, -⟩ := bind_some h
  have hsame : db₁.loadRoles = db.loadRoles := by
    unfold loadOrSeedChannels at hc
    split at hc
    · obtain ⟨db₂, h₂, he⟩ := Option.map_eq_some_iff.mp hc
      cases he
      rw [insertChannels_tables h₂]
      rfl
    · cases hc
      rfl
  rw [hperms]
  exact loadOrSeedRoles_order hr (hsame.symm ▸ hdb)

section
variable {perform : (op : Await) → World → op.Reply × World} {s : Shared} {w : World}

theorem Written.keeps_order {p next : PermState} {db db' : Db} {cmd : RoleCommand} (h : Written p db cmd next db')
    (ho : RoleOrder p.roles) (hi : RolesIntact p db) : RoleOrder next.roles := by
  cases h with
  | create hrole hdb =>
    obtain ⟨-, hnew⟩ := insertRole_roleIds hdb
    rw [setRolePositions_roleIds] at hnew
    refine ho.created (hrole ▸ rfl) fun r hr he => hnew ((hi.rows _).mpr ⟨r.id, List.mem_map_of_mem hr, ?_⟩)
    rw [he]
  | update hget hpos => exact ho.updated hget hpos
  | delete hne => exact ho.deleted hne
  | reorder hd hev => exact ho.reordered hd hev
  | grant => exact ho

/-- Whatever fails on the way, a role command keeps the roles in order. -/
theorem RoleCommand.keeps_order (hf : Faulty perform) {client : ClientId} {nonce : UInt64} {cmd : RoleCommand}
    (ho : RoleOrder s.perms.roles) (hi : RolesIntact s.perms w.db) :
    RoleOrder (exec perform (cmd.handle client nonce) s w).1.perms.roles := by
  unfold exec
  rcases RoleCommand.handle_cases (rfl : cmd.handle client nonce s = _) with ⟨hd, hr⟩ | ⟨a, next, save, -, -, hp, he⟩
  · rw [hd, Async.Task.run_done, hr.perms]
    exact ho
  · rw [he]
    have hout := hp.outcome hf w
    generalize save.run perform s w = y at hout
    cases hout with
    | unsaved => exact ho
    | halfCreated => exact ho
    | uncompacted hswap =>
      rw [hswap.perms]
      cases hp with
      | delete hne => exact ho.deleted hne
    | saved hswap hw =>
      rw [hswap.perms]
      exact hw.keeps_order ho hi

theorem Input.keeps_order {x y : Shared × World} {i : Input} (ho : RoleOrder x.1.perms.roles)
    (hi : RolesIntact x.1.perms x.2.db) (hst : FaultyStep x i y) : RoleOrder y.1.perms.roles := by
  obtain ⟨perform, hf, rfl⟩ := hst
  obtain ⟨s, w⟩ := x
  have hban : ∀ b, Spares (fun _ => ()) (.insertBan b) := fun _ _ _ _ => rfl
  have hunban : ∀ f, Spares (fun _ => ()) (.deleteBan f) := fun _ _ _ _ => rfl
  have quiet := fun hi => by
    have hu := i.undisturbed hf hban hunban s w hi
    exact hu.1.perms.symm ▸ ho
  cases i with
  | control client frame =>
    rcases frame.kinds with ⟨nonce, cmd, rfl⟩ | ⟨nonce, cmd, rfl⟩ | hm | hp
    · rw [serve_role]
      exact RoleCommand.keeps_order hf ho hi
    · rw [serve_channel]
      rcases cmd.exec_cases hf s w client nonce with ⟨hr, -⟩ | ⟨c, db, -, hp, -, he⟩
      · rw [hr.perms]
        exact ho
      · rw [he]
        exact hp.perms.symm ▸ ho
    · exact quiet fun _ _ he => by cases he; exact .inr ⟨fun _ _ _ _ => rfl, hm⟩
    · exact quiet fun _ _ he => by cases he; exact .inl hp
  | connect => exact quiet fun _ _ he => nomatch he
  | voice => exact quiet fun _ _ he => nomatch he
  | disconnect => exact quiet fun _ _ he => nomatch he
  | tick => exact quiet fun _ _ he => nomatch he

end

structure InRank (hello : ServerHello) (x : Shared × World) : Prop extends InStepWithAll hello x where
  order : RoleOrder x.1.perms.roles

theorem InRank.step {hello : ServerHello} {x y : Shared × World} {e : Happening} (h : InRank hello x)
    (hok : WholeRestart x e) (hst : LifeStep x e y) : InRank hello y := by
  refine ⟨h.toInStepWithAll.step hst, ?_⟩
  cases e with
  | restart config now => exact bind_order hst (.inr (RoleRows.loadRoles hok h.order ▸ h.order))
  | input i => exact Input.keeps_order h.order h.roles hst

theorem inRank_of_run {config : ServerConfig} {now : UInt64} {x₀ x : Shared × World}
    (hstart : Server.bind config now .empty = some (x₀.1, x₀.2.db)) (hrun : Run LifeStep WholeRestart x₀ x)
    (hello : ServerHello) : InRank hello x := by
  have h₀ : InRank hello x₀ := ⟨.bind hello hstart (fun _ h => nomatch h) .empty, bind_order hstart (.inl rfl)⟩
  exact hrun.invariant (InRank hello) h₀ fun _ _ _ hi hok hst => hi.step hok hst

/-- What the roles tab of a connected client lists. -/
theorem InRank.listed {hello : ServerHello} {x : Shared × World} (h : InRank hello x) {k : ClientId}
    {e : ConnectedClient} (he : x.1.client? k = some e) :
    ∃ p, clientMirror hello x.2.wire e = some p ∧ p.rolesDto = shownRoles x.1.perms.roles := by
  obtain ⟨p, hp, hin⟩ := h.shown.mirrors k e he
  have hroles : p.HasRoles x.1.perms.roles := ⟨hin.ids, hin.roles⟩
  exact ⟨p, hp, hroles.rolesDto h.order⟩

/-- A guest and the owner are connected, by inputs only. -/
theorem guestAndOwner_inputs {ok : Shared × World → Happening → Prop} (hok : ∀ x i, ok x (.input i)) (s₀ : Shared)
    (db₀ : Db) : Run LifeStep ok (s₀, ⟨db₀, []⟩) (guestAndOwner s₀ db₀) := by
  have handled : ∀ {x : Shared × World} (i : Input), LifeStep x (.input i) (serve Await.perform i x.1 x.2) :=
    fun i => ⟨Await.perform, Await.faulty, rfl⟩
  exact .step (.input (.control 2 (.createChannel 7 "r" none "" .text none 0)))
    (.step (.input ownerConnects)
      (.step (.input (.connect ⟨protocolVersion, ⟨.rep 2, 8⟩, "n", none, true⟩)) .refl (hok _ _) (handled _))
      (hok _ _) (handled _)) (hok _ _) (handled _)

def ownerMirror (x : Shared × World) : Option (ConnectedClient × PermMirror) := do
  let e ← x.1.client? 2
  let p ← clientMirror gridHello x.2.wire e
  some (e, p)

theorem ownerMirror_some {x : Shared × World} {e : ConnectedClient} {p : PermMirror}
    (h : ownerMirror x = some (e, p)) : x.1.client? 2 = some e ∧ clientMirror gridHello x.2.wire e = some p := by
  simp only [ownerMirror, Option.bind_eq_bind, Option.bind_eq_some_iff, Option.some.injEq, Prod.mk.injEq] at h
  obtain ⟨e', he, p', hp, rfl, rfl⟩ := h
  exact ⟨he, hp⟩

/-- The editor of a role, saved with one box ticked. -/
def tickAndSave (role : Role) : RolesTabEdit := .save (roleDto role) ((RoleDraft.seed role).toggle "kickMembers")

/-- An edit of the roles tab, once it has been handled: every client is shown the list the
tab was to make of the clicker's if the edit was acked, and else that list as it was. -/
theorem tab_edits_list {config : ServerConfig} {now : UInt64} {x₀ x y : Shared × World}
    (hstart : Server.bind config now .empty = some (x₀.1, x₀.2.db)) (hrun : Run LifeStep WholeRestart x₀ x)
    (hello : ServerHello) {k : ClientId} {e : ConnectedClient} (he : x.1.client? k = some e) {p : PermMirror}
    (hp : clientMirror hello x.2.wire e = some p) {edit : RolesTabEdit} (hoffered : edit.Offered p.rolesDto)
    {cmd : RoleCommand} (hcmd : edit.command p.rolesDto = some cmd) {nonce : UInt64}
    (hst : LifeStep x (.input (.control k (cmd.frame nonce))) y) {k' : ClientId} {e' : ConnectedClient}
    (he' : y.1.client? k' = some e') :
    ∃ p', clientMirror hello y.2.wire e' = some p' ∧
      p'.rolesDto = if Acked x.1 y.1 k nonce then edit.result p.rolesDto else p.rolesDto := by
  have hx := inRank_of_run hstart hrun hello
  have hy : InRank hello y := hx.step (e := .input _) trivial hst
  obtain ⟨p₁, hp₁, hlist⟩ := hx.listed he
  obtain rfl : p₁ = p := Option.some.inj (hp₁.symm.trans hp)
  obtain ⟨p', hp', hlist'⟩ := hy.listed he'
  refine ⟨p', hp', ?_⟩
  rw [hlist] at hoffered hcmd ⊢
  rw [hlist']
  have hafter := hy.order
  obtain ⟨perform, hf, rfl⟩ := hst
  obtain ⟨s, w⟩ := x
  rw [serve_role] at *
  rcases RoleCommand.acked_cases he w with ⟨hnot, hperms⟩ | ⟨a, next, save, hpasses, hperms, hacked⟩
  · rw [if_neg hnot, hperms]
  · rw [if_pos hacked]
    rw [hperms] at hafter ⊢
    exact hpasses.shown_edit hx.order hoffered hcmd hafter

/-- The owner ticks a box of the most senior role and saves, and the guest is shown it too. -/
theorem owner_saves_role : ∃ s₀ db₀ e p role cmd y, Server.bind ownedConfig 5 .empty = some (s₀, db₀) ∧
    (guestAndOwner s₀ db₀).1.client? 2 = some e ∧ clientMirror gridHello (guestAndOwner s₀ db₀).2.wire e = some p ∧
    (tickAndSave role).command p.rolesDto = some cmd ∧ Acked (guestAndOwner s₀ db₀).1 y.1 2 9 ∧
    LifeStep (guestAndOwner s₀ db₀) (.input (.control 2 (cmd.frame 9))) y ∧ (y.1.client? 1).isSome = true ∧
    ∀ k' e', y.1.client? k' = some e' → ∃ p', clientMirror gridHello y.2.wire e' = some p' ∧
      p'.rolesDto = (tickAndSave role).result p.rolesDto := by
  obtain ⟨s₀, db₀, hstart, hclick⟩ : ∃ s₀ db₀, Server.bind ownedConfig 5 .empty = some (s₀, db₀) ∧
      ((ownerMirror (guestAndOwner s₀ db₀)).any fun (_, p) => p.roles.getLast?.any fun role =>
        ((tickAndSave role).command p.rolesDto).any fun cmd =>
          let y := serve Await.perform (.control 2 (cmd.frame 9)) (guestAndOwner s₀ db₀).1 (guestAndOwner s₀ db₀).2
          decide (Acked (guestAndOwner s₀ db₀).1 y.1 2 9) && (y.1.client? 1).isSome) = true :=
    ⟨_, _, rfl, by decide +kernel⟩
  obtain ⟨⟨e, p⟩, hmirror, hclick⟩ := (Option.any_eq_true _ _).mp hclick
  obtain ⟨role, hrole, hclick⟩ := (Option.any_eq_true _ _).mp hclick
  obtain ⟨cmd, hcmd, hclick⟩ := (Option.any_eq_true _ _).mp hclick
  obtain ⟨hacked, hguest⟩ := (Bool.and_eq_true _ _).mp hclick
  have hacked := of_decide_eq_true hacked
  obtain ⟨he, hp⟩ := ownerMirror_some hmirror
  have hst : LifeStep (guestAndOwner s₀ db₀) (.input (.control 2 (cmd.frame 9)))
      (serve Await.perform (.control 2 (cmd.frame 9)) (guestAndOwner s₀ db₀).1 (guestAndOwner s₀ db₀).2) :=
    ⟨Await.perform, Await.faulty, rfl⟩
  have hoffered : (tickAndSave role).Offered p.rolesDto :=
    (List.mem_insertionSort _).mpr (List.mem_map_of_mem (List.mem_of_getLast? hrole))
  refine ⟨s₀, db₀, e, p, role, cmd, _, hstart, he, hp, hcmd, hacked, hst, hguest, fun k' e' he' => ?_⟩
  obtain ⟨p', hp', hlist⟩ := tab_edits_list hstart (guestAndOwner_inputs (fun _ _ => trivial) s₀ db₀) gridHello he hp
    hoffered hcmd hst he'
  exact ⟨p', hp', hlist.trans (if_pos hacked)⟩

/-! ## Which moves are accepted -/

/-- What the clicker's own mirror says of a move: the clicker manages roles, and owns the
server or stands above both of the roles that change places. -/
def PermMirror.MayMove (p : PermMirror) (index : Nat) (d : Direction) : Prop :=
  (resolve p.roles p.myRoles p.fingerprint p.owner none).contains .manageRoles = true ∧
    (p.owner = true ∨ ∀ i ∈ [index, d.other index], ∀ role ∈ (movable p.rolesDto)[i]?,
      role.position < topRolePosition p.roles p.myRoles)

section
variable {roles : List Role} (ho : RoleOrder roles) {e : Role} {rest : List Role} (hroles : roles = e :: rest)
include ho hroles

/-- Seniors first, the positions count down. -/
theorem rung_position {m : Nat} (hm : m < rest.reverse.length) :
    rest.reverse[m].position = UInt32.ofNat (rest.reverse.length - m) := by
  have hpos := ho.positions
  rw [hroles, List.map_cons, List.length_cons, List.range_succ_eq_map, List.map_cons, List.map_map] at hpos
  have hrest := (List.cons.inj hpos).2
  have hm' : m < rest.length := by simpa using hm
  have h := List.getElem_of_eq hrest (i := rest.length - 1 - m) (by rw [List.length_map]; omega)
  rw [List.getElem_map, List.getElem_map, List.getElem_range, Function.comp_apply] at h
  rw [List.getElem_reverse, h, List.length_reverse, show (rest.length - 1 - m).succ = rest.length - m by omega]

omit ho in
/-- The positions of a list of all roles, everyone last, are as the server asks for. -/
theorem ranked_dense {rungs : List Role} (hp : rungs.Perm rest) (hlen : roles.length < 2 ^ 32) :
    densePermutation roles (ranked (rungs.map roleDto) ++ [(e.id, 0)]) = true := by
  have hn : rungs.length = rest.length := hp.length_eq
  have hcount : (UInt32.ofNat roles.length).toNat = roles.length := UInt32.toNat_ofNat_of_lt' hlen
  simp only [densePermutation, decide_eq_true_eq, List.all_eq_true, List.any_eq_true, hcount]
  refine ⟨⟨by simp [ranked, hroles, hn], fun r hr => ?_⟩, ?_⟩
  · rw [hroles] at hr
    rcases List.mem_cons.mp hr with rfl | hr
    · exact ⟨_, List.mem_append_right _ (List.mem_singleton_self _), rfl⟩
    · obtain ⟨i, hi, rfl⟩ := List.getElem_of_mem (hp.mem_iff.mpr hr)
      exact ⟨_, List.mem_append_left _ (mem_ranked.mpr ⟨i, _, List.getElem?_eq_getElem hi, rfl⟩), rfl⟩
  · apply Word.insertionSort_range (Nat.le_of_lt hlen)
    have hranks : (ranked (rungs.map roleDto) ++ [(e.id, (0 : UInt32))]).map Prod.snd =
        ((List.range roles.length).map UInt32.ofNat).reverse := by
      refine List.ext_getElem (by simp [ranked, hroles, hn]) fun i h₁ h₂ => ?_
      have hsize : roles.length = rungs.length + 1 := by rw [hroles, List.length_cons, hn]
      rw [List.getElem_map, List.getElem_reverse, List.getElem_map, List.getElem_range]
      by_cases hi : i < rungs.length
      · rw [List.getElem_append_left (by simpa [ranked] using hi)]
        simp [ranked, hsize]
      · rw [List.getElem_append_right (by simpa [ranked] using hi)]
        simp [hsize, show rungs.length - i = 0 by omega]
    rw [hranks]
    exact List.reverse_perm _

/-- A list in which two rungs change places moves these two and no other. -/
theorem swap_moves {i j : Nat} (hi : i < rest.reverse.length) (hj : j < rest.reverse.length) (hij : i ≠ j)
    (hlen : roles.length < 2 ^ 32) (top : UInt32) :
    (∀ q ∈ ranked ((swapAt rest.reverse i j).map roleDto) ++ [(e.id, 0)], movesAbove roles top q = false) ↔
      rest.reverse[i].position < top ∧ rest.reverse[j].position < top := by
  have hrung : ∀ m (hm : m < rest.reverse.length), rest.reverse[m].position = UInt32.ofNat (rest.reverse.length - m) :=
    fun m hm => rung_position ho hroles hm
  have hkept : ∀ r ∈ roles, ∀ pos, movesAbove roles top (r.id, pos) = false ↔
      r.position = pos ∨ r.position < top ∧ pos < top := by
    intro r hr pos
    simp only [movesAbove, Keyed.get_of_mem ho.ids hr, Option.map_some, Option.getD_some, decide_eq_false_iff_not,
      not_and, not_or, UInt32.not_le, ge_iff_le, ne_eq]
    tauto
  have hmem : ∀ m (hm : m < rest.reverse.length), rest.reverse[m] ∈ roles := fun m hm =>
    hroles ▸ List.mem_cons_of_mem e (List.mem_reverse.mp (List.getElem_mem hm))
  constructor
  · intro h
    have hstart : (rest.reverse[j].id, UInt32.ofNat (rest.reverse.length - i)) ∈
        ranked ((swapAt rest.reverse i j).map roleDto) := by
      refine mem_ranked.mpr ⟨i, rest.reverse[j], ?_, by rw [length_swapAt]⟩
      rw [getElem?_swapAt hi hj, if_neg hij, if_pos rfl, List.getElem?_eq_getElem hj]
      rfl
    have hne : rest.reverse[j].position ≠ UInt32.ofNat (rest.reverse.length - i) := by
      rw [hrung j hj]
      intro hsame
      have hsize : rest.reverse.length < 2 ^ 32 := by
        rw [hroles, List.length_cons] at hlen
        rw [List.length_reverse]
        omega
      have hnat := congrArg UInt32.toNat hsame
      rw [UInt32.toNat_ofNat_of_lt' (show rest.reverse.length - j < 2 ^ 32 by omega),
        UInt32.toNat_ofNat_of_lt' (show rest.reverse.length - i < 2 ^ 32 by omega)] at hnat
      omega
    have hboth := ((hkept _ (hmem j hj) _).mp (h _ (List.mem_append_left _ hstart))).resolve_left hne
    exact ⟨hrung i hi ▸ hboth.2, hboth.1⟩
  · rintro ⟨hitop, hjtop⟩ q hq
    rcases List.mem_append.mp hq with hq | hq
    · obtain ⟨m, r, hr, rfl⟩ := mem_ranked.mp hq
      rw [getElem?_swapAt hi hj] at hr
      rw [length_swapAt]
      by_cases hmj : m = j
      · subst hmj
        rw [if_pos rfl, List.getElem?_eq_getElem hi] at hr
        obtain rfl := Option.some.inj hr
        exact (hkept _ (hmem i hi) _).mpr (.inr ⟨hitop, hrung m hj ▸ hjtop⟩)
      · by_cases hmi : m = i
        · subst hmi
          rw [if_neg hmj, if_pos rfl, List.getElem?_eq_getElem hj] at hr
          obtain rfl := Option.some.inj hr
          exact (hkept _ (hmem j hj) _).mpr (.inr ⟨hjtop, hrung m hi ▸ hitop⟩)
        · rw [if_neg hmj, if_neg hmi] at hr
          obtain ⟨hm, rfl⟩ := List.getElem?_eq_some_iff.mp hr
          exact (hkept _ (hmem m hm) _).mpr (.inl (hrung m hm))
    · obtain rfl := List.mem_singleton.mp hq
      obtain ⟨e', rest', hroles', -, hpos⟩ := ho.head
      obtain ⟨rfl, -⟩ := List.cons.inj (hroles.symm.trans hroles')
      exact (hkept e (hroles ▸ List.mem_cons_self) 0).mpr (.inl hpos)

end

section
variable {s : Shared} {w : World} {client : ClientId} {nonce : UInt64} {e : ConnectedClient}

/-- When saving does not fail, a reorder is acked exactly if it passes the checks. -/
theorem reorder_acked_iff (he : s.client? client = some e) (hstore : s.store = true)
    {positions : List (RoleId × UInt32)} (hd : densePermutation s.perms.roles positions = true)
    (hev : ∀ q ∈ positions, q.1 = everyoneRoleId → q.2 = 0) :
    Acked s (exec Await.perform ((RoleCommand.reorder positions).handle client nonce) s w).1 client nonce ↔
      s.canGlobally client .manageRoles = true ∧ (s.isOwner e.info.fingerprint = true ∨ ∀ q ∈ positions,
        movesAbove s.perms.roles (topRolePosition s.perms.roles (s.perms.grants e.info.fingerprint)) q = false) := by
  constructor
  · intro h
    obtain ⟨a, next, save, ha, -, hp, -, -⟩ := RoleCommand.acked h
    obtain ⟨hcan, e', he', rfl⟩ := actor_ok ha
    obtain rfl : e' = e := Option.some.inj (he'.symm.trans he)
    refine ⟨hcan, ?_⟩
    cases hp with
    | reorder _ _ hmoves =>
      by_cases howner : s.isOwner e'.info.fingerprint = true
      · exact .inl howner
      · exact .inr (hmoves (by simpa using howner))
  · rintro ⟨hcan, hrank⟩
    have hf : s.fingerprintOf client = some e.info.fingerprint := congrArg (Option.map _) he
    obtain ⟨a, ha, hroles, howner⟩ : ∃ a, actor s client nonce = .ok a ∧
        a.roles = s.perms.grants e.info.fingerprint ∧ a.owner = s.isOwner e.info.fingerprint := by
      unfold actor
      simp only [hcan, Bool.not_true, Bool.false_eq_true, if_false, hf]
      exact ⟨_, rfl, rfl, rfl⟩
    rw [← hroles, ← howner] at hrank
    have hp : Passes s client nonce a (.reorder positions) _ _ := .reorder hd hev fun hplain =>
      hrank.resolve_left fun h => Bool.false_ne_true (hplain.symm.trans h)
    have hsaved : (Await.perform (.save (.setRolePositions positions)) w).1 = true := by
      rw [Await.perform_saved (by rfl)]
    unfold exec
    rw [hp.handle_eq hstore ha]
    unfold reorderRolesSave
    simp only [run_onSaved, hsaved, if_true, Async.Task.run_done, reorderRolesSwap_eq]
    exact acked_swap he (swap_sessions ..) (by rfl) _

end

/-- A move is accepted exactly when the mirror of whoever makes it says it may be made. -/
theorem move_accepted_iff {config : ServerConfig} {now : UInt64} {x₀ x : Shared × World}
    (hstart : Server.bind config now .empty = some (x₀.1, x₀.2.db)) (hrun : Run LifeStep WholeRestart x₀ x)
    (hello : ServerHello) {k : ClientId} {e : ConnectedClient} (he : x.1.client? k = some e) {p : PermMirror}
    (hp : clientMirror hello x.2.wire e = some p) {index : Nat} {d : Direction}
    (henabled : d.Enabled (movable p.rolesDto) index) (hstore : x.1.store = true)
    (hlen : x.1.perms.roles.length < 2 ^ 32) (nonce : UInt64) :
    Acked x.1 (serve Await.perform (.control k ((moveRole p.rolesDto index d).frame nonce)) x.1 x.2).1 k nonce ↔
      p.MayMove index d := by
  have hx := inRank_of_run hstart hrun hello
  obtain ⟨p₁, hp₁, hin⟩ := hx.shown.mirrors k e he
  obtain rfl : p₁ = p := Option.some.inj (hp₁.symm.trans hp)
  have hin' : p₁.HasRoles x.1.perms.roles := ⟨hin.ids, hin.roles⟩
  have hlist := hin'.rolesDto hx.order
  obtain ⟨e₀, rest, hroles, hid, hpos⟩ := hx.order.head
  have hu := hx.order.ids
  rw [hroles] at hu
  have hrungs : movable p₁.rolesDto = rest.reverse.map roleDto := by
    rw [hlist, hroles, movable_shown hu hid, List.map_reverse]
  obtain ⟨hi, hj, hij⟩ : index < rest.reverse.length ∧ d.other index < rest.reverse.length ∧ index ≠ d.other index := by
    rw [hrungs] at henabled
    cases d <;> simp only [Direction.Enabled, Direction.other, List.length_map] at henabled ⊢ <;> omega
  have hclient := Keyed.get_mem he
  have howner : p₁.owner = x.1.isOwner e.info.fingerprint := hin.owner.trans (hx.shown.coherent.owner e hclient)
  have htop : topRolePosition p₁.roles p₁.myRoles =
      topRolePosition x.1.perms.roles (x.1.perms.grants e.info.fingerprint) := by
    rw [hin.mine, hx.shown.coherent.roles e hclient]
    exact topRolePosition_congr hin.ids hx.order.ids hin.roles fun _ => .rfl
  have hcan : (resolve p₁.roles p₁.myRoles p₁.fingerprint p₁.owner none).contains .manageRoles =
      x.1.canGlobally k .manageRoles := by
    rw [hin.resolve_eq hx.order.ids, Shared.canGlobally, he]
  have hpair : (∀ i ∈ [index, d.other index], ∀ role ∈ (movable p₁.rolesDto)[i]?,
        role.position < topRolePosition p₁.roles p₁.myRoles) ↔
      rest.reverse[index].position < topRolePosition p₁.roles p₁.myRoles ∧
        rest.reverse[d.other index].position < topRolePosition p₁.roles p₁.myRoles := by
    rw [hrungs]
    simp only [List.mem_cons, List.not_mem_nil, or_false, forall_eq_or_imp, forall_eq, List.getElem?_map,
      List.getElem?_eq_getElem hi, List.getElem?_eq_getElem hj, Option.map_some, Option.mem_def, Option.some.injEq]
    simp [roleDto]
  unfold PermMirror.MayMove
  rw [hpair, hcan, howner, htop, serve_role, hlist, moveRole_eq hx.order hroles hid, reorder_acked_iff he hstore,
    swap_moves hx.order hroles hi hj hij hlen]
  · exact ranked_dense hroles (swapAt_perm.trans (List.reverse_perm rest)) hlen
  · intro q hq hq0
    rcases List.mem_append.mp hq with hq | hq
    · obtain ⟨m, r, hr, rfl⟩ := mem_ranked.mp hq
      have hmem := List.mem_reverse.mp (swapAt_perm.mem_iff.mp (List.mem_of_getElem? hr))
      have hne : r.id ≠ e₀.id := fun h => (List.nodup_cons.mp hu).1 (h ▸ List.mem_map_of_mem hmem)
      exact absurd (hq0.trans hid.symm) hne
    · obtain rfl := List.mem_singleton.mp hq
      rfl

/-- The owner may move the most senior role down. -/
theorem owner_move_accepted : ∃ s₀ db₀ e p, Server.bind ownedConfig 5 .empty = some (s₀, db₀) ∧
    (guestAndOwner s₀ db₀).1.client? 2 = some e ∧ clientMirror gridHello (guestAndOwner s₀ db₀).2.wire e = some p ∧
    p.MayMove 0 .down := by
  obtain ⟨s₀, db₀, hstart, hstore, hlen, hclick⟩ : ∃ s₀ db₀, Server.bind ownedConfig 5 .empty = some (s₀, db₀) ∧
      (guestAndOwner s₀ db₀).1.store = true ∧ (guestAndOwner s₀ db₀).1.perms.roles.length < 2 ^ 32 ∧
      ((ownerMirror (guestAndOwner s₀ db₀)).any fun (_, p) => decide (Direction.down.Enabled (movable p.rolesDto) 0) &&
        decide (Acked (guestAndOwner s₀ db₀).1
          (serve Await.perform (.control 2 ((moveRole p.rolesDto 0 .down).frame 9)) (guestAndOwner s₀ db₀).1
            (guestAndOwner s₀ db₀).2).1 2 9)) = true :=
    ⟨_, _, rfl, by decide +kernel, by decide +kernel, by decide +kernel⟩
  obtain ⟨⟨e, p⟩, hmirror, hclick⟩ := (Option.any_eq_true _ _).mp hclick
  obtain ⟨henabled, hacked⟩ := (Bool.and_eq_true _ _).mp hclick
  obtain ⟨he, hp⟩ := ownerMirror_some hmirror
  exact ⟨s₀, db₀, e, p, hstart, he, hp, (move_accepted_iff hstart
    (guestAndOwner_inputs (fun _ _ => trivial) s₀ db₀) gridHello he hp (of_decide_eq_true henabled) hstore hlen 9).mp
      (of_decide_eq_true hacked)⟩

end PickleChat
