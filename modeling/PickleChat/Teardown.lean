import PickleChat.Lifecycle

/-!
# Leaving the roster and closing the connection

A client leaves the roster because its session ended, because its handshake did
not finish, because it was ejected, or because its queue was full. The first
three are followed by the server's own close of the transport. The last is not:
the writer task ends with the sender, but the control loop goes on waiting for
the client's next frame.
-/

namespace PickleChat

open Async (Run)

/-- A handshake past its admission, or a running session. -/
def Phase.serving : Phase → Bool
  | admitted | greeting | greeted | running => true
  | _ => false

namespace Hall

/-- The server has closed the transport of connection `k`, or is about to. -/
def Closes (h : Hall) (k : Nat) : Prop :=
  (∃ d, h.connections[k]? = some d ∧ d.shut = true) ∨ (∃ client reason, .tellEjected client reason k ∈ h.chores) ∨
    .shut k ∈ h.chores

/-- Nothing is being removed or closed. -/
def Settled (h : Hall) : Prop :=
  h.chores = [] ∧ ∀ d ∈ h.connections, (d.phase.serving = true ∧ d.shut = false) ∨ d.phase = .closed

/-- Steps of the server's own tasks that wait for nothing the client does. -/
def Unaided (h : Hall) : Move → Prop
  | .chore _ | .release _ | .depart _ | .farewell _ | .close _ => True
  | .hangUp k => ∃ d, h.connections[k]? = some d ∧ d.shut = true
  | _ => False

/-- No client that is still served is dropped for its queue, and no id in use is
handed out again. -/
def Patient (h : Hall) : Move → Prop
  | .admission _ _ _ => h.Fresh
  | .chore (.drop client) =>
    (h.shared.user client).isSome = true →
      ∀ (k : Nat) d, h.connections[k]? = some d → d.id = client → d.phase.serving = true → d.shut = true
  | _ => True

/-- Every connection that is served has its entry, or is being closed. -/
structure Manned (h : Hall) : Prop extends h.Sound where
  room : h.shared.clients.length ≤ h.shared.config.maxUsers.toNat
  closed : ∀ d ∈ h.connections, d.phase = .closed → d.shut = true
  seated : ∀ (k : Nat) (d : Connection), h.connections[k]? = some d → d.phase.serving = true →
    (∃ e ∈ h.shared.clients, e.id = d.id) ∨ h.Closes k

section
variable {h : Hall}

theorem mem_edit {k : Nat} {f : Connection → Connection} {d : Connection} (hd : d ∈ (h.edit k f).connections) :
    d ∈ h.connections ∨ ∃ d₀, h.connections[k]? = some d₀ ∧ d = f d₀ := by
  obtain ⟨j, hj⟩ := List.mem_iff_getElem?.mp hd
  rw [getElem?_edit] at hj
  split at hj
  · rename_i hk
    subst hk
    obtain ⟨d₀, hd₀, rfl⟩ := Option.map_eq_some_iff.mp hj
    exact .inr ⟨d₀, hd₀, rfl⟩
  · exact .inl (List.mem_of_getElem? hj)

theorem Closes.edit {k j : Nat} {f : Connection → Connection} (hf : ∀ d, d.shut = true → (f d).shut = true)
    (hc : h.Closes j) : (h.edit k f).Closes j := by
  rcases hc with ⟨d, hd, hshut⟩ | hchore
  · left
    rw [getElem?_edit]
    split
    · exact ⟨f d, by rw [hd]; rfl, hf d hshut⟩
    · exact ⟨d, hd, hshut⟩
  · exact .inr hchore

theorem Closes.chores {cs : List Chore} {j : Nat} (hsub : ∀ c ∈ h.chores, c ∈ cs) (hc : h.Closes j) :
    Closes { h with chores := cs } j := by
  rcases hc with hd | ⟨client, reason, hc⟩ | hc
  · exact .inl hd
  · exact .inr (.inl ⟨client, reason, hsub _ hc⟩)
  · exact .inr (.inr (hsub _ hc))

theorem Manned.edit {k : Nat} {d : Connection} {f : Connection → Connection} (hm : h.Manned)
    (hs : (h.edit k f).Sound) (hd : h.connections[k]? = some d) (hid : (f d).id = d.id)
    (hshut : ∀ d, d.shut = true → (f d).shut = true) (hclosed : (f d).phase = .closed → (f d).shut = true)
    (hserving : (f d).phase.serving = true → d.phase.serving = true) : (h.edit k f).Manned where
  toSound := hs
  room := hm.room
  closed := by
    intro d' hd' hc
    rcases mem_edit hd' with hd' | ⟨d₀, hd₀, rfl⟩
    · exact hm.closed d' hd' hc
    · cases hd.symm.trans hd₀
      exact hclosed hc
  seated := by
    intro j d' hd' hserv
    rw [getElem?_edit] at hd'
    split at hd'
    · rename_i hk
      subst hk
      rw [hd] at hd'
      cases hd'
      rw [hid]
      exact (hm.seated k d hd (hserving hserv)).imp id (Closes.edit hshut)
    · exact (hm.seated j d' hd' hserv).imp id (Closes.edit hshut)

theorem Manned.chores (hm : h.Manned) {cs : List Chore}
    (hc : ∀ (k : Nat) d, h.connections[k]? = some d → h.Closes k → Closes { h with chores := cs } k) :
    Manned { h with chores := cs } where
  toSound := hm.toSound.chores cs
  room := hm.room
  closed := hm.closed
  seated k d hd hserv := (hm.seated k d hd hserv).imp id (hc k d hd)

theorem Manned.trySend (hm : h.Manned) (p : ConnectedClient → Bool) (m : ServerControl) : (h.trySend p m).Manned where
  toSound := hm.toSound.trySend p m
  room := by simpa [Hall.trySend] using hm.room
  closed := hm.closed
  seated := by
    intro k d hd hserv
    refine (hm.seated k d hd hserv).imp ?_ id
    rintro ⟨e, he, hid⟩
    exact ⟨_, (h.mem_trySend p m).mpr ⟨e, he, rfl⟩, (h.offer_id p m e).trans hid⟩

theorem Manned.queue (hm : h.Manned) (p : ConnectedClient → Bool) (m : ServerControl) : (h.queue p m).Manned :=
  (hm.trySend p m).chores fun _ _ _ => Closes.chores (h := h.trySend p m) fun _ hc => List.mem_append_left _ hc

theorem Manned.remove (hm : h.Manned) {client : ClientId} {cs : List Chore} (hsub : ∀ c ∈ h.chores, c ∈ cs)
    (hout : ∀ (k : Nat) d, h.connections[k]? = some d → d.id = client → d.phase.serving = true →
      Closes { h with chores := cs } k) : Manned { h.remove client with chores := cs } where
  toSound := (hm.toSound.remove client).chores cs
  room := (List.length_filter_le _ _).trans hm.room
  closed := hm.closed
  seated := by
    intro k d hd hserv
    by_cases hid : d.id = client
    · exact .inr (hout k d hd hid hserv)
    · rcases hm.seated k d hd hserv with ⟨e, he, hide⟩ | hc
      · exact .inl ⟨e, h.mem_remove.mpr ⟨he, fun hc => hid (hide.symm.trans hc)⟩, hide⟩
      · exact .inr (Closes.chores hsub hc)

theorem Manned.welcome (hm : h.Manned) (hf : h.Fresh) {info : UserInfo} (hi : info.clientId = h.shared.nextClientId)
    (hroom : h.shared.clients.length < h.shared.config.maxUsers.toNat) : (h.welcome info).Manned where
  toSound := hm.toSound.welcome hf hi
  room := by
    have hput : (Keyed.put ConnectedClient.id ⟨info, [], []⟩ h.shared.clients).length ≤
        h.shared.clients.length + 1 := by
      simp [Keyed.put, Keyed.erase, List.length_filter_le]
    exact hput.trans hroom
  closed := by
    intro d hd hc
    rcases List.mem_append.mp hd with hd | hd
    · exact hm.closed d hd hc
    · rw [List.mem_singleton.mp hd] at hc
      cases hc
  seated := by
    intro k d hd hserv
    rcases h.getElem?_welcome info hd with hd | ⟨-, rfl⟩
    · refine (hm.seated k d hd hserv).imp ?_ ?_
      · rintro ⟨e, he, hid⟩
        refine ⟨e, Keyed.mem_put.mpr (.inr ⟨he, ?_⟩), hid⟩
        show e.id ≠ info.clientId
        rw [hi]
        exact hm.toSound.fresh_ne hf he
      · rintro (⟨d', hd', hshut⟩ | hc)
        · refine .inl ⟨d', ?_, hshut⟩
          exact (List.getElem?_append_left (List.getElem?_eq_some_iff.mp hd').1).trans hd'
        · exact .inr hc
    · exact .inl ⟨⟨info, [], []⟩, Keyed.mem_put.mpr (.inl rfl), rfl⟩

theorem Manned.elsewhere (hm : h.Manned) {s : Shared} (hsame : SameRoster h.shared s) :
    Manned { h with shared := s } where
  toSound := hm.toSound.elsewhere hsame
  room := by
    have hlen := congrArg List.length hsame.ids
    rw [List.length_map, List.length_map] at hlen
    show s.clients.length ≤ s.config.maxUsers.toNat
    rw [hlen, hsame.1]
    exact hm.room
  closed := hm.closed
  seated := by
    intro k d hd hserv
    refine (hm.seated k d hd hserv).imp ?_ id
    rintro ⟨e, he, hid⟩
    have hm : e.id ∈ h.shared.clients.map ConnectedClient.id := List.mem_map_of_mem he
    rw [← hsame.ids] at hm
    obtain ⟨e', he', hid'⟩ := List.mem_map.mp hm
    exact ⟨e', he', hid'.trans hid⟩

theorem Manned.remove_own (hm : h.Manned) {k : Nat} {d : Connection} (hd : h.connections[k]? = some d)
    (hopen : d.phase ≠ .closed) (hout : d.phase.serving = false) : (h.remove d.id).Manned := by
  refine (hm.remove (fun _ hc => hc) fun j d' hd' hid hserv => ?_ : Manned { h.remove d.id with chores := h.chores })
  have hjk : j = k := by
    refine hm.distinct j k d' d hd' hd ?_ hopen hid
    intro hc
    rw [hc] at hserv
    cases hserv
  subst hjk
  cases hd.symm.trans hd'
  rw [hout] at hserv
  cases hserv

theorem Manned.doChore (hm : h.Manned) {c : Chore} (hc : c ∈ h.chores) (hp : h.Patient (.chore c)) :
    (doChore { h with chores := h.chores.erase c } c).Manned := by
  have hother : (∀ client reason k, c ≠ .tellEjected client reason k) → (∀ k, c ≠ .shut k) →
      Manned { h with chores := h.chores.erase c } := by
    intro hne hne'
    refine hm.chores fun k d _ => ?_
    rintro (hd | ⟨client, reason, hmem⟩ | hmem)
    · exact .inl hd
    · exact .inr (.inl ⟨client, reason, (List.mem_erase_of_ne (hne client reason k).symm).mpr hmem⟩)
    · exact .inr (.inr ((List.mem_erase_of_ne (hne' k).symm).mpr hmem))
  cases c with
  | drop client =>
    have hm' := hother (fun _ _ _ => by simp) (fun _ => by simp)
    simp only [Hall.doChore]
    split
    · rename_i hu
      refine hm'.remove (fun _ hc => List.mem_append_left _ hc) fun k d hd hid hserv => ?_
      exact .inl ⟨d, hd, hp hu k d hd hid hserv⟩
    · exact hm'
  | tellDropped client => exact (hother (fun _ _ _ => by simp) (fun _ => by simp)).trySend _ _
  | tellEjected client reason k =>
    refine (hm.trySend _ _).chores fun j d hd => ?_
    rintro (hd | ⟨client', reason', hmem⟩ | hmem)
    · exact .inl hd
    · by_cases he : Chore.tellEjected client' reason' j = .tellEjected client reason k
      · cases he
        exact .inr (.inr (List.mem_append_right _ (List.mem_singleton_self _)))
      · exact .inr (.inl ⟨client', reason', List.mem_append_left _ (List.mem_append_left _
          ((List.mem_erase_of_ne he).mpr hmem))⟩)
    · exact .inr (.inr (List.mem_append_left _ (List.mem_append_left _ ((List.mem_erase_of_ne (by simp)).mpr hmem))))
  | shut k =>
    -- Closed first and struck off the list then, so that nothing is lost in between.
    have hshut : (h.edit k fun d => { d with shut := true }).Manned := by
      cases hd : h.connections[k]? with
      | none =>
        rw [edit_of_none h hd]
        exact hm
      | some d => exact hm.edit (hm.toSound.doChore (.shut k)) hd rfl (fun _ _ => rfl) (fun _ => rfl) id
    refine hshut.chores fun j d hd => ?_
    rintro (hc | ⟨client, reason, hmem⟩ | hmem)
    · exact .inl hc
    · exact .inr (.inl ⟨client, reason, (List.mem_erase_of_ne (by simp)).mpr hmem⟩)
    · by_cases hj : j = k
      · subst hj
        refine .inl ⟨d, hd, ?_⟩
        rw [getElem?_edit, if_pos rfl] at hd
        obtain ⟨d₀, -, rfl⟩ := Option.map_eq_some_iff.mp hd
        rfl
      · exact .inr (.inr ((List.mem_erase_of_ne (by simpa using hj)).mpr hmem))

theorem Manned.step {h' : Hall} {l : Move} (hm : h.Manned) (hp : h.Patient l) (hst : Stepped h l h') : h'.Manned := by
  have hs' := hm.toSound.step hst fun _ _ _ he => by subst he; exact hp
  cases hst with
  | admission identity nickname roles hroom => exact hm.welcome hp rfl hroom
  | assemble hd hph => exact hm.edit hs' hd rfl (fun _ hc => hc) (fun hc => by cases hc) fun _ => by rw [hph]; rfl
  | write ok hd hph =>
    refine hm.edit hs' hd rfl (fun _ hc => hc) (fun hc => ?_) fun _ => by rw [hph]; rfl
    cases ok <;> cases hc
  | announce hd hph =>
    exact (hm.queue _ _).edit hs' hd rfl (fun _ hc => hc) (fun hc => by cases hc) fun _ => by rw [hph]; rfl
  | release hd hph =>
    exact (hm.remove_own hd (by simp [hph]) (by rw [hph]; rfl)).edit hs' hd rfl (fun _ hc => hc) (fun hc => by cases hc)
      fun hc => by cases hc
  | hangUp hd hph => exact hm.edit hs' hd rfl (fun _ hc => hc) (fun hc => by cases hc) fun hc => by cases hc
  | depart hd hph hu =>
    exact (hm.remove_own hd (by simp [hph]) (by rw [hph]; rfl)).edit hs' hd rfl (fun _ hc => hc) (fun hc => by cases hc)
      fun hc => by cases hc
  | gone hd hph hu => exact hm.edit hs' hd rfl (fun _ hc => hc) (fun hc => by cases hc) fun hc => by cases hc
  | farewell hd hph =>
    exact (hm.queue _ _).edit hs' hd rfl (fun _ hc => hc) (fun hc => by cases hc) fun hc => by cases hc
  | close hd hph => exact hm.edit hs' hd rfl (fun _ _ => rfl) (fun _ => rfl) fun hc => by cases hc
  | @eject victim e reason he =>
    refine hm.remove (fun _ hc => List.mem_append_left _ hc) fun k d hd hid hserv => ?_
    have hmem : e ∈ h.shared.clients := Keyed.get_mem he
    have hide : e.id = victim := Keyed.get_key he
    have hopen : d.phase ≠ .closed := fun hc => by rw [hc] at hserv; cases hserv
    have hline := hm.toSound.line_eq hmem hd hopen (hide.trans hid.symm)
    rw [hide] at hline
    refine .inr (.inl ⟨victim, reason, ?_⟩)
    rw [← hline]
    exact List.mem_append_right _ (List.mem_singleton_self _)
  | chore hc => exact hm.doChore hc hp
  | send | broadcast | broadcastFiltered => exact hm.queue _ _
  | unheard => exact hm
  | drain _ hd hph => exact hm.edit hs' hd rfl (fun _ hc => hc) (fun hc => by rw [hph] at hc; cases hc) id
  | @stopWriting _ d hd hph =>
    exact hm.edit hs' hd rfl (fun _ hc => hc) (fun hc => hm.closed d (List.mem_of_getElem? hd) hc) id
  | elsewhere hsame => exact hm.elsewhere hsame

theorem manned_new {s : Shared} (hs : s.clients = []) : (Hall.new s).Manned where
  unique := by
    show Keyed.Unique _ s.clients
    rw [hs]
    exact .nil
  distinct j k d d' hd := by cases hd
  held e he := by
    have he' : e ∈ s.clients := he
    rw [hs] at he'
    cases he'
  room := by
    show s.clients.length ≤ _
    simp [hs]
  closed d hd := by cases hd
  seated k d hd := by cases hd

theorem manned_of_run {s : Shared} (hs : s.clients = []) (hr : Run Step Patient (Hall.new s) h) : h.Manned :=
  hr.invariant Manned (manned_new hs) fun _ _ _ hm hp hst => hm.step hp hst.stepped

/-! ## The server closes what it has removed -/

/-- Connection `k` is closed after steps of the server's own. -/
def ClosesAlone (h : Hall) (k : Nat) : Prop :=
  ∃ h' d, Run Step Unaided h h' ∧ h'.connections[k]? = some d ∧ d.shut = true

theorem ClosesAlone.of_step {k : Nat} {h' : Hall} {l : Move} (hst : Stepped h l h') (hu : h.Unaided l)
    (hc : h'.ClosesAlone k) : h.ClosesAlone k := by
  obtain ⟨h'', d, hr, hd, hshut⟩ := hc
  exact ⟨h'', d, (Run.step l .refl hu hst.step).trans hr, hd, hshut⟩

theorem closesAlone_closing {k : Nat} {d : Connection} (hd : h.connections[k]? = some d) (hp : d.phase = .closing) :
    h.ClosesAlone k :=
  .of_step (.close hd hp) trivial ⟨_, _, .refl, getElem?_edit_self hd _, rfl⟩

theorem closesAlone_shut {k : Nat} {d : Connection} (hd : h.connections[k]? = some d) (hc : .shut k ∈ h.chores) :
    h.ClosesAlone k :=
  .of_step (.chore hc) trivial ⟨_, _, .refl, getElem?_edit_self hd _, rfl⟩

theorem Manned.closesAlone (hm : h.Manned) {k : Nat} {d : Connection} (hd : h.connections[k]? = some d)
    (hout : ¬∃ e ∈ h.shared.clients, e.id = d.id ∧ h.line e.id = k) : h.ClosesAlone k := by
  have hnone : d.phase ≠ .closed → ∀ e ∈ h.shared.clients, e.id ≠ d.id := fun hopen e he hid =>
    hout ⟨e, he, hid, hm.toSound.line_eq he hd hopen hid⟩
  have hserving : d.phase.serving = true → d.phase ≠ .closed → h.ClosesAlone k := by
    intro hserv hopen
    rcases hm.seated k d hd hserv with ⟨e, he, hid⟩ | ⟨d', hd', hshut⟩ | ⟨client, reason, hc⟩ | hc
    · exact absurd hid (hnone hopen e he)
    · exact ⟨h, d', .refl, hd', hshut⟩
    · refine .of_step (.chore hc) trivial (closesAlone_shut (d := d) hd ?_)
      exact List.mem_append_right _ (List.mem_singleton_self _)
    · exact closesAlone_shut hd hc
  cases hp : d.phase with
  | admitted | greeting | greeted | running => exact hserving (by rw [hp]; rfl) (by simp [hp])
  | ended =>
    refine .of_step (.gone hd hp ?_) trivial (closesAlone_closing (getElem?_edit_self hd _) rfl)
    rw [Bool.eq_false_iff]
    intro hu
    obtain ⟨e, he, hid⟩ := h.isSome_user.mp hu
    exact hnone (by simp [hp]) e he hid
  | parting => exact .of_step (.farewell hd hp) trivial (closesAlone_closing (getElem?_edit_self hd _) rfl)
  | failed => exact .of_step (.release hd hp) trivial (closesAlone_closing (getElem?_edit_self hd _) rfl)
  | closing => exact closesAlone_closing hd hp
  | closed => exact ⟨h, d, .refl, hd, hm.closed d (List.mem_of_getElem? hd) hp⟩

/-! ## Open sessions and the roster -/

theorem Manned.serving_iff (hm : h.Manned) (hset : h.Settled) (i : ClientId) :
    (∃ d ∈ h.connections, d.id = i ∧ d.phase.serving = true) ↔ ∃ e ∈ h.shared.clients, e.id = i := by
  constructor
  · rintro ⟨d, hd, rfl, hserv⟩
    obtain ⟨k, hk⟩ := List.mem_iff_getElem?.mp hd
    rcases hm.seated k d hk hserv with he | ⟨d', hd', hshut⟩ | ⟨client, reason, hc⟩ | hc
    · exact he
    · cases hk.symm.trans hd'
      rcases hset.2 d hd with ⟨-, hopen⟩ | hclosed
      · rw [hopen] at hshut
        cases hshut
      · rw [hclosed] at hserv
        cases hserv
    · rw [hset.1] at hc
      cases hc
    · rw [hset.1] at hc
      cases hc
  · rintro ⟨e, he, rfl⟩
    obtain ⟨d, hd, hid, hheld⟩ := hm.held e he
    refine ⟨d, List.mem_of_getElem? hd, hid, ?_⟩
    rcases hset.2 d (List.mem_of_getElem? hd) with ⟨hserv, -⟩ | hclosed
    · exact hserv
    · rw [hclosed] at hheld
      cases hheld

theorem Sound.serving_nodup (hs : h.Sound) :
    ((h.connections.filter fun d => d.phase.serving).map Connection.id).Nodup := by
  rw [List.Nodup, List.pairwise_map, List.pairwise_filter, List.pairwise_iff_getElem]
  intro i j hi hj hij hserv hserv' hid
  have hopen : ∀ d : Connection, d.phase.serving = true → d.phase ≠ .closed := by
    intro d hd hc
    rw [hc] at hd
    cases hd
  have := hs.distinct i j _ _ (List.getElem?_eq_getElem hi) (List.getElem?_eq_getElem hj) (hopen _ hserv)
      (hopen _ hserv') hid
  omega

theorem Manned.serving_le (hm : h.Manned) (hset : h.Settled) :
    (h.connections.filter fun d => d.phase.serving).length ≤ h.shared.config.maxUsers.toNat := by
  have hsub : ((h.connections.filter fun d => d.phase.serving).map Connection.id) ⊆
      h.shared.clients.map ConnectedClient.id := by
    intro i hi
    obtain ⟨d, hd, hid⟩ := List.mem_map.mp hi
    obtain ⟨hd, hserv⟩ := List.mem_filter.mp hd
    obtain ⟨e, he, hide⟩ := (hm.serving_iff hset i).mp ⟨d, hd, hid, hserv⟩
    exact List.mem_map.mpr ⟨e, he, hide⟩
  have hlen := (List.subperm_of_subset hm.toSound.serving_nodup hsub).length_le
  rw [List.length_map, List.length_map] at hlen
  exact hlen.trans hm.room

end

theorem Stepped.config {h h' : Hall} {l : Move} (hst : Stepped h l h') : h'.shared.config = h.shared.config := by
  cases hst with
  | @chore c hc =>
    cases c with
    | drop client =>
      simp only [doChore]
      split <;> rfl
    | _ => rfl
  | elsewhere hsame => exact hsame.1
  | _ => rfl

/-- As long as no client that is still served is dropped for its queue: whoever
is out of the roster has its transport closed by the server alone; and with no
removal under way, the connections past admission are the roster's, the running
sessions are when no handshake is under way, and there is room for all of them. -/
theorem sessions_of_patient {config : ServerConfig} {channels : List Channel} {perms : PermState} {store : Bool}
    {now : UInt64} {h : Hall} (hr : Run Step Patient (.new (.new config channels perms store now)) h) :
    (∀ (k : Nat) d, h.connections[k]? = some d → (¬∃ e ∈ h.shared.clients, e.id = d.id ∧ h.line e.id = k) →
      h.ClosesAlone k) ∧
    (h.Settled →
      (∀ i, (∃ d ∈ h.connections, d.id = i ∧ d.phase.serving = true) ↔ ∃ e ∈ h.shared.clients, e.id = i) ∧
      ((∀ d ∈ h.connections, d.phase.serving = true → d.phase = .running) →
        ∀ i, (∃ d ∈ h.connections, d.id = i ∧ d.phase = .running) ↔ ∃ e ∈ h.shared.clients, e.id = i) ∧
      (h.connections.filter fun d => d.phase.serving).length ≤ config.maxUsers.toNat) := by
  have hm := manned_of_run rfl hr
  have hconfig : h.shared.config = config := by
    refine hr.invariant (fun h => h.shared.config = config) rfl fun _ _ _ hc _ hst => ?_
    exact hst.stepped.config.trans hc
  refine ⟨fun k d hd hout => hm.closesAlone hd hout, fun hset => ⟨hm.serving_iff hset, ?_, ?_⟩⟩
  · intro hrun i
    rw [← hm.serving_iff hset i]
    constructor
    · rintro ⟨d, hd, hid, hp⟩
      exact ⟨d, hd, hid, by rw [hp]; rfl⟩
    · rintro ⟨d, hd, hid, hserv⟩
      exact ⟨d, hd, hid, hrun d hd hserv⟩
  · rw [← hconfig]
    exact hm.serving_le hset

instance (h : Hall) : Decidable h.Fresh := inferInstanceAs (Decidable (_ ∧ _))

instance (h : Hall) : (l : Move) → Decidable (h.Patient l)
  | .admission _ _ _ => inferInstanceAs (Decidable h.Fresh)
  | .chore (.drop client) => decidable_of_iff ((h.shared.user client).isSome = true → ∀ d ∈ h.connections,
      d.id = client → d.phase.serving = true → d.shut = true)
    ⟨fun hd hin _ d hk => hd hin d (List.mem_of_getElem? hk), fun hd hin d hm =>
      (List.mem_iff_getElem?.mp hm).elim fun k => hd hin k d⟩
  | .chore (.tellDropped _) | .chore (.tellEjected _ _ _) | .chore (.shut _) | .assemble _ | .write _ _ | .announce _
  | .release _ | .hangUp _ | .depart _ | .farewell _ | .close _ | .eject _ _ | .send _ _ | .broadcast _ _
  | .broadcastFiltered _ _ _ | .drain _ | .stopWriting _ | .elsewhere _ => isTrue trivial

/-- Client 1 hangs up and is dropped for its queue before it has departed,
client 2 stays, and client 3 is kicked. -/
def comings : List Move :=
  arrives 0 3 ++ arrives 1 4 ++ [.hangUp 0] ++ List.replicate controlQueueDepth (.send 1 (.pong 0)) ++
    [.chore (.drop 1), .depart 0, .chore (.tellDropped 1), .close 0] ++ arrives 2 5 ++
    [.eject 3 .kicked, .chore (.tellEjected 3 .kicked 2), .chore (.shut 2), .hangUp 2, .depart 2, .close 2]

theorem sessions_of_patient_comings : ∃ h : Hall, Run Step Patient fresh h ∧ h.Settled ∧
    h.connections.map Connection.phase = [.closed, .running, .closed] ∧
    ∀ i, (∃ d ∈ h.connections, d.id = i ∧ d.phase = .running) ↔ ∃ e ∈ h.shared.clients, e.id = i := by
  have hplay : ((fresh.play comings).map fun h => (h.chores, h.connections.map fun d => (d.phase, d.shut))) =
      some ([], [(.closed, true), (.running, false), (.closed, true)]) := by decide +kernel
  obtain ⟨h, hh, heq⟩ := Option.map_eq_some_iff.mp hplay
  simp only [Prod.mk.injEq] at heq
  obtain ⟨hchores, hphases⟩ := heq
  have hr : Run Step Patient fresh h := run_of_meets (by decide +kernel) hh
  have hall : ∀ d ∈ h.connections, (d.phase = .running ∧ d.shut = false) ∨ d.phase = .closed := by
    intro d hd
    have hm : (d.phase, d.shut) ∈ h.connections.map fun d => (d.phase, d.shut) := List.mem_map_of_mem hd
    rw [hphases] at hm
    simp only [List.mem_cons, List.not_mem_nil, or_false, Prod.mk.injEq] at hm
    rcases hm with ⟨hp, -⟩ | hm | ⟨hp, -⟩
    · exact .inr hp
    · exact .inl hm
    · exact .inr hp
  have hset : h.Settled := ⟨hchores, fun d hd => (hall d hd).imp_left fun ⟨hp, hs⟩ => ⟨by rw [hp]; rfl, hs⟩⟩
  refine ⟨h, hr, hset, ?_, ((sessions_of_patient hr).2 hset).2.1 fun d hd hserv => ?_⟩
  · have := congrArg (List.map Prod.fst) hphases
    rw [List.map_map] at this
    exact this
  · rcases hall d hd with ⟨hp, -⟩ | hp
    · exact hp
    · rw [hp] at hserv
      cases hserv

/-- A client that stops reading is pinged out of the roster. -/
def pinged : List Move :=
  arrives 0 3 ++ List.replicate (controlQueueDepth + 1) (.send 1 (.pong 0)) ++
    [.chore (.drop 1), .chore (.tellDropped 1)]

/-- Its control loop runs on with the transport open, nothing is under way, and
the server has no step of its own left. -/
theorem dropped_goes_on : ∃ h d, Run Step (fun _ _ => True) fresh h ∧ h.Settled ∧ h.connections = [d] ∧
    d.phase = .running ∧ d.shut = false ∧ h.shared.clients = [] ∧ ∀ l h', h.Unaided l → ¬Step h l h' := by
  have hplay : ((fresh.play pinged).map fun h =>
      (h.chores, h.shared.clients, h.connections.map fun d => (d.phase, d.shut))) =
      some ([], [], [(.running, false)]) := by decide +kernel
  obtain ⟨h, hh, heq⟩ := Option.map_eq_some_iff.mp hplay
  simp only [Prod.mk.injEq, List.map_eq_singleton_iff] at heq
  obtain ⟨hchores, hclients, d, hd, hp, hshut⟩ := heq
  have hmem : ∀ (k : Nat) d', h.connections[k]? = some d' → d' = d := by
    intro k d' hk
    have hm := List.mem_of_getElem? hk
    rw [hd] at hm
    exact List.mem_singleton.mp hm
  refine ⟨h, d, run_of_play .refl (fun _ _ _ => trivial) hh, ⟨hchores, ?_⟩, hd, hp, hshut, hclients, ?_⟩
  · intro d' hd'
    rw [hd] at hd'
    obtain rfl := List.mem_singleton.mp hd'
    exact .inl ⟨by rw [hp]; rfl, hshut⟩
  · intro l h' hu hst
    cases hst.stepped with
    | release hk hp' | gone hk hp' | depart hk hp' | farewell hk hp' | close hk hp' =>
      rw [hmem _ _ hk, hp] at hp'
      cases hp'
    | hangUp hk =>
      obtain ⟨d', hd', hshut'⟩ := hu
      rw [hmem _ _ hd', hshut] at hshut'
      cases hshut'
    | chore hc =>
      rw [hchores] at hc
      cases hc
    | _ => exact hu

end Hall

end PickleChat
