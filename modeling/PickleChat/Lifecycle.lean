import PickleChat.Sections

/-!
# Connections from admission to close

`serve` with its handshake, its session and its departure, the ejections of
`kick` and `ban`, and the clients dropped because their queue is full. The
roster entry, the writer task, the control loop and the transport of a
connection each have a life of their own. Everything that takes or lets go of
the client lock is a step of its own, and steps of different tasks interleave.
-/

namespace PickleChat

open Async (Run)

def controlQueueDepth : Nat := 64

inductive Phase where
  /-- In the roster, `AuthOk` not assembled. -/
  | admitted
  /-- `AuthOk` is being written. -/
  | greeting
  /-- It has been written, the arrival is not announced. -/
  | greeted
  /-- Inside `control_loop`. -/
  | running
  /-- The loop has returned. -/
  | ended
  /-- Out of the roster, the departure is not announced. -/
  | parting
  /-- `AuthOk` was not written, the guard has not run. -/
  | failed
  /-- Nothing left but `connection.close`. -/
  | closing
  | closed
  deriving DecidableEq

structure Connection where
  info : UserInfo
  /-- The `users` of its `AuthOk`, from when that is assembled. -/
  users : List UserInfo
  phase : Phase
  /-- How many frames the writer task has taken out of the queue. -/
  taken : Nat
  /-- The writer task is over and the queue's receiver gone. -/
  hung : Bool
  /-- The server has closed the transport. -/
  shut : Bool
  deriving DecidableEq

def Connection.id (d : Connection) : ClientId := d.info.clientId

/-- What a task still has to do for a client that is not its own. -/
inductive Chore where
  /-- `drop_overflowed`, the removal. -/
  | drop (client : ClientId)
  | tellDropped (client : ClientId)
  /-- `eject` after the removal, for the entry of connection `k`. -/
  | tellEjected (client : ClientId) (reason : DisconnectReason) (k : Nat)
  /-- `close_transport`, once the grace is over. -/
  | shut (k : Nat)
  deriving DecidableEq

def Chore.client : Chore → Option ClientId
  | drop client | tellDropped client | tellEjected client _ _ => some client
  | shut _ => none

structure Hall where
  shared : Shared
  connections : List Connection
  /-- The connection an entry's queue and transport belong to. -/
  line : ClientId → Nat
  chores : List Chore

namespace Hall

def new (s : Shared) : Hall := ⟨s, [], fun _ => 0, []⟩

def connection (h : Hall) (e : ConnectedClient) : Option Connection := h.connections[h.line e.id]?

/-! ## Queues with a bound -/

/-- The receiver of the entry's queue is there. -/
def listens (h : Hall) (e : ConnectedClient) : Bool := (h.connection e).any fun d => !d.hung

def full (h : Hall) (e : ConnectedClient) : Bool :=
  (h.connection e).any fun d => !d.hung && controlQueueDepth ≤ e.control.length - d.taken

def offer (h : Hall) (p : ConnectedClient → Bool) (m : ServerControl) (e : ConnectedClient) : ConnectedClient :=
  if p e && h.listens e && !h.full e then e.push [m] else e

/-- `try_send` for the clients that `p` picks; a frame for a full or closed queue is lost. -/
def trySend (h : Hall) (p : ConnectedClient → Bool) (m : ServerControl) : Hall :=
  { h with shared := { h.shared with clients := h.shared.clients.map (h.offer p m) } }

/-- `try_queue` for the clients that `p` picks; the ones that overflow are to be dropped. -/
def queue (h : Hall) (p : ConnectedClient → Bool) (m : ServerControl) : Hall :=
  { h.trySend p m with
    chores := h.chores ++ (h.shared.clients.filter fun e => p e && h.full e).map fun e => .drop e.id }

def send (h : Hall) (client : ClientId) (m : ServerControl) : Hall := h.queue (fun e => e.id = client) m

def broadcast (h : Hall) (m : ServerControl) (except : Option ClientId) : Hall :=
  h.queue (fun e => some e.id ≠ except) m

def broadcastFiltered (h : Hall) (m : ServerControl) (channel : ChannelId) (except : Option ClientId) : Hall :=
  match h.shared.channel channel with
  | none => h
  | some target => h.queue (fun e => some e.id ≠ except && h.shared.views e.info target) m

/-! ## Steps -/

def remove (h : Hall) (client : ClientId) : Hall := { h with shared := (h.shared.remove client).2 }

def edit (h : Hall) (k : Nat) (f : Connection → Connection) : Hall :=
  { h with connections := h.connections.modify k f }

def welcome (h : Hall) (info : UserInfo) : Hall :=
  { h with
    shared := h.shared.insertNewcomer info
    connections := h.connections ++ [⟨info, [], .admitted, 0, false, false⟩]
    line := fun i => if i = info.clientId then h.connections.length else h.line i }

def todo (h : Hall) (c : Chore) : Hall := { h with chores := h.chores ++ [c] }

def doChore (h : Hall) : Chore → Hall
  | .drop client => if (h.shared.user client).isSome then (h.remove client).todo (.tellDropped client) else h
  -- Best effort: whoever overflows on this frame is not dropped for it.
  | .tellDropped client => h.trySend (fun _ => true) (.userLeft client .kicked)
  | .tellEjected client reason k => (h.broadcast (.userLeft client reason) none).todo (.shut k)
  | .shut k => h.edit k fun d => { d with shut := true }

end Hall

def ServerControl.aboutRoster : ServerControl → Bool
  | .userJoined _ | .userLeft _ _ => true
  | _ => false

inductive Move where
  /-- The second lock of `admit`, with the grants read under the first. -/
  | admission (identity : PublicIdentity) (nickname : String) (roles : List RoleId)
  | assemble (k : Nat)
  | write (k : Nat) (ok : Bool)
  | announce (k : Nat)
  /-- The guard of a handshake that did not finish. -/
  | release (k : Nat)
  /-- `control_loop` returns. -/
  | hangUp (k : Nat)
  | depart (k : Nat)
  | farewell (k : Nat)
  | close (k : Nat)
  | eject (victim : ClientId) (reason : DisconnectReason)
  | chore (c : Chore)
  /-- Any other frame, for one client, for all, or for a channel's viewers. -/
  | send (client : ClientId) (m : ServerControl)
  | broadcast (m : ServerControl) (except : Option ClientId)
  | broadcastFiltered (m : ServerControl) (channel : ChannelId) (except : Option ClientId)
  /-- The writer task takes a frame out of the queue. -/
  | drain (client : ClientId)
  /-- It ends, on a frame it could not write or because it was aborted. -/
  | stopWriting (k : Nat)
  /-- Whatever leaves the roster and the queues alone. -/
  | elsewhere (s : Shared)

namespace Hall

def SameRoster (s t : Shared) : Prop :=
  t.config = s.config ∧ t.nextClientId = s.nextClientId ∧
    t.clients.map (fun e => (e.id, e.control)) = s.clients.map fun e => (e.id, e.control)

instance (s t : Shared) : Decidable (SameRoster s t) := inferInstanceAs (Decidable (_ ∧ _ ∧ _))

theorem SameRoster.ids {s t : Shared} (h : SameRoster s t) :
    t.clients.map ConnectedClient.id = s.clients.map ConnectedClient.id := by
  have hmap := congrArg (List.map Prod.fst) h.2.2
  rw [List.map_map, List.map_map] at hmap
  exact hmap

theorem SameRoster.back {s t : Shared} (h : SameRoster s t) {e : ConnectedClient} (he : e ∈ t.clients) :
    ∃ e₀ ∈ s.clients, e₀.id = e.id ∧ e₀.control = e.control := by
  have hm : (e.id, e.control) ∈ t.clients.map fun e => (e.id, e.control) := List.mem_map_of_mem he
  rw [h.2.2] at hm
  obtain ⟨e₀, he₀, heq⟩ := List.mem_map.mp hm
  exact ⟨e₀, he₀, congrArg Prod.fst heq, congrArg Prod.snd heq⟩

def inPhase (h : Hall) (k : Nat) (p : Phase) : Option Connection := (h.connections[k]?).filter fun d => d.phase = p

def next (h : Hall) : Move → Option Hall
  | .admission identity nickname roles =>
    if h.shared.config.maxUsers.toNat ≤ h.shared.clients.length then none else
    some (h.welcome (h.shared.newcomer identity nickname roles))
  | .assemble k => (h.inPhase k .admitted).map fun _ =>
    h.edit k fun d => { d with users := h.shared.users, phase := .greeting }
  | .write k ok => (h.inPhase k .greeting).map fun _ =>
    h.edit k fun d => { d with phase := if ok then .greeted else .failed }
  | .announce k => (h.inPhase k .greeted).map fun d =>
    (h.broadcast (.userJoined d.info) (some d.id)).edit k fun d => { d with phase := .running }
  | .release k => (h.inPhase k .failed).map fun d => (h.remove d.id).edit k fun d => { d with phase := .closing }
  | .hangUp k => (h.inPhase k .running).map fun _ => h.edit k fun d => { d with phase := .ended }
  | .depart k => (h.inPhase k .ended).map fun d =>
    if (h.shared.user d.id).isSome then (h.remove d.id).edit k fun d => { d with phase := .parting }
    else h.edit k fun d => { d with phase := .closing }
  | .farewell k => (h.inPhase k .parting).map fun d =>
    (h.broadcast (.userLeft d.id .quit) (some d.id)).edit k fun d => { d with phase := .closing }
  | .close k => (h.inPhase k .closing).map fun _ => h.edit k fun d => { d with phase := .closed, shut := true }
  -- The victim's own copy goes into the queue of an entry that is no longer there.
  | .eject victim reason => (h.shared.client? victim).map fun _ =>
    (h.remove victim).todo (.tellEjected victim reason (h.line victim))
  | .chore c => if c ∈ h.chores then some (doChore { h with chores := h.chores.erase c } c) else none
  | .send client m => if m.aboutRoster then none else some (h.send client m)
  | .broadcast m except => if m.aboutRoster then none else some (h.broadcast m except)
  | .broadcastFiltered m channel except =>
    if m.aboutRoster then none else some (h.broadcastFiltered m channel except)
  | .drain client =>
    match h.shared.client? client with
    | none => none
    | some e => (h.inPhase (h.line client) .running).bind fun d =>
      if d.hung = false ∧ d.taken < e.control.length then
        some (h.edit (h.line client) fun d => { d with taken := d.taken + 1 })
      else none
  | .stopWriting k => (h.connections[k]?).bind fun d =>
    if d.phase = .running ∨ d.phase = .ended then some (h.edit k fun d => { d with hung := true }) else none
  | .elsewhere s => if SameRoster h.shared s then some { h with shared := s } else none

def Step (h : Hall) (l : Move) (h' : Hall) : Prop := h.next l = some h'

def play (h : Hall) : List Move → Option Hall
  | [] => some h
  | l :: ls => (h.next l).bind fun h' => h'.play ls

theorem run_of_play {ok : Hall → Move → Prop} {t : List Move} {h₀ h h' : Hall} (hr : Run Step ok h₀ h)
    (hok : ∀ h l, l ∈ t → ok h l) (hp : h.play t = some h') : Run Step ok h₀ h' := by
  induction t generalizing h with
  | nil => cases hp; exact hr
  | cons l t ih =>
    obtain ⟨h₁, h1, hp⟩ := Option.bind_eq_some_iff.mp hp
    exact ih (.step l hr (hok h l (List.mem_cons_self ..)) h1) (fun h l hl => hok h l (List.mem_cons_of_mem _ hl)) hp

/-- Every move of a play meets `ok` where it is made. -/
def meets (ok : Hall → Move → Prop) [∀ h l, Decidable (ok h l)] (h : Hall) : List Move → Bool
  | [] => true
  | l :: ls => decide (ok h l) && (h.next l).all fun h' => h'.meets ok ls

theorem run_of_meets {ok : Hall → Move → Prop} [∀ h l, Decidable (ok h l)] {t : List Move} {h h' : Hall}
    (hok : h.meets ok t = true) (hp : h.play t = some h') : Run Step ok h h' := by
  suffices ∀ h₀, Run Step ok h₀ h → Run Step ok h₀ h' from this h .refl
  intro h₀ hr
  induction t generalizing h with
  | nil => cases hp; exact hr
  | cons l t ih =>
    obtain ⟨h₁, h1, hp⟩ := Option.bind_eq_some_iff.mp hp
    simp only [meets, h1, Option.all_some, Bool.and_eq_true, decide_eq_true_eq] at hok
    exact ih hok.2 hp (.step l hr hok.1 h1)

theorem inPhase_some {h : Hall} {k : Nat} {p : Phase} {d : Connection} :
    h.inPhase k p = some d ↔ h.connections[k]? = some d ∧ d.phase = p := by
  simp [inPhase, Option.filter_eq_some_iff]

/-- A step told apart, with what it needs. -/
inductive Stepped (h : Hall) : Move → Hall → Prop
  | admission (identity : PublicIdentity) (nickname : String) (roles : List RoleId) :
      h.shared.clients.length < h.shared.config.maxUsers.toNat →
      Stepped h (.admission identity nickname roles) (h.welcome (h.shared.newcomer identity nickname roles))
  | assemble {k : Nat} {d : Connection} : h.connections[k]? = some d → d.phase = .admitted →
      Stepped h (.assemble k) (h.edit k fun d => { d with users := h.shared.users, phase := .greeting })
  | write {k : Nat} {d : Connection} (ok : Bool) : h.connections[k]? = some d → d.phase = .greeting →
      Stepped h (.write k ok) (h.edit k fun d => { d with phase := if ok then .greeted else .failed })
  | announce {k : Nat} {d : Connection} : h.connections[k]? = some d → d.phase = .greeted →
      Stepped h (.announce k)
        ((h.broadcast (.userJoined d.info) (some d.id)).edit k fun d => { d with phase := .running })
  | release {k : Nat} {d : Connection} : h.connections[k]? = some d → d.phase = .failed →
      Stepped h (.release k) ((h.remove d.id).edit k fun d => { d with phase := .closing })
  | hangUp {k : Nat} {d : Connection} : h.connections[k]? = some d → d.phase = .running →
      Stepped h (.hangUp k) (h.edit k fun d => { d with phase := .ended })
  | depart {k : Nat} {d : Connection} : h.connections[k]? = some d → d.phase = .ended →
      (h.shared.user d.id).isSome = true →
      Stepped h (.depart k) ((h.remove d.id).edit k fun d => { d with phase := .parting })
  | gone {k : Nat} {d : Connection} : h.connections[k]? = some d → d.phase = .ended →
      (h.shared.user d.id).isSome = false → Stepped h (.depart k) (h.edit k fun d => { d with phase := .closing })
  | farewell {k : Nat} {d : Connection} : h.connections[k]? = some d → d.phase = .parting →
      Stepped h (.farewell k)
        ((h.broadcast (.userLeft d.id .quit) (some d.id)).edit k fun d => { d with phase := .closing })
  | close {k : Nat} {d : Connection} : h.connections[k]? = some d → d.phase = .closing →
      Stepped h (.close k) (h.edit k fun d => { d with phase := .closed, shut := true })
  | eject {victim : ClientId} {e : ConnectedClient} (reason : DisconnectReason) :
      h.shared.client? victim = some e →
      Stepped h (.eject victim reason) ((h.remove victim).todo (.tellEjected victim reason (h.line victim)))
  | chore {c : Chore} : c ∈ h.chores →
      Stepped h (.chore c) (doChore { h with chores := h.chores.erase c } c)
  | send (client : ClientId) {m : ServerControl} : m.aboutRoster = false →
      Stepped h (.send client m) (h.queue (fun e => e.id = client) m)
  | broadcast {m : ServerControl} (except : Option ClientId) : m.aboutRoster = false →
      Stepped h (.broadcast m except) (h.queue (fun e => some e.id ≠ except) m)
  | broadcastFiltered {m : ServerControl} {channel : ChannelId} (except : Option ClientId) {target : Channel} :
      m.aboutRoster = false → h.shared.channel channel = some target →
      Stepped h (.broadcastFiltered m channel except)
        (h.queue (fun e => some e.id ≠ except && h.shared.views e.info target) m)
  | unheard {m : ServerControl} {channel : ChannelId} (except : Option ClientId) :
      m.aboutRoster = false → h.shared.channel channel = none → Stepped h (.broadcastFiltered m channel except) h
  | drain {client : ClientId} {e : ConnectedClient} {d : Connection} : h.shared.client? client = some e →
      h.connections[h.line client]? = some d → d.phase = .running → d.hung = false ∧ d.taken < e.control.length →
      Stepped h (.drain client) (h.edit (h.line client) fun d => { d with taken := d.taken + 1 })
  | stopWriting {k : Nat} {d : Connection} : h.connections[k]? = some d → d.phase = .running ∨ d.phase = .ended →
      Stepped h (.stopWriting k) (h.edit k fun d => { d with hung := true })
  | elsewhere {s : Shared} : SameRoster h.shared s → Stepped h (.elsewhere s) { h with shared := s }

theorem Step.stepped {h h' : Hall} {l : Move} (hst : Step h l h') : Stepped h l h' := by
  unfold Step at hst
  cases l with
  | admission identity nickname roles =>
    simp only [next] at hst
    split at hst
    · cases hst
    · cases hst
      exact .admission identity nickname roles (by omega)
  | assemble k =>
    obtain ⟨d, hd, rfl⟩ := Option.map_eq_some_iff.mp hst
    obtain ⟨hd, hp⟩ := inPhase_some.mp hd
    exact .assemble hd hp
  | write k ok =>
    obtain ⟨d, hd, rfl⟩ := Option.map_eq_some_iff.mp hst
    obtain ⟨hd, hp⟩ := inPhase_some.mp hd
    exact .write ok hd hp
  | announce k =>
    obtain ⟨d, hd, rfl⟩ := Option.map_eq_some_iff.mp hst
    obtain ⟨hd, hp⟩ := inPhase_some.mp hd
    exact .announce hd hp
  | release k =>
    obtain ⟨d, hd, rfl⟩ := Option.map_eq_some_iff.mp hst
    obtain ⟨hd, hp⟩ := inPhase_some.mp hd
    exact .release hd hp
  | hangUp k =>
    obtain ⟨d, hd, rfl⟩ := Option.map_eq_some_iff.mp hst
    obtain ⟨hd, hp⟩ := inPhase_some.mp hd
    exact .hangUp hd hp
  | depart k =>
    obtain ⟨d, hd, rfl⟩ := Option.map_eq_some_iff.mp hst
    obtain ⟨hd, hp⟩ := inPhase_some.mp hd
    split
    · rename_i hu
      exact .depart hd hp hu
    · rename_i hu
      exact .gone hd hp (by simpa using hu)
  | farewell k =>
    obtain ⟨d, hd, rfl⟩ := Option.map_eq_some_iff.mp hst
    obtain ⟨hd, hp⟩ := inPhase_some.mp hd
    exact .farewell hd hp
  | close k =>
    obtain ⟨d, hd, rfl⟩ := Option.map_eq_some_iff.mp hst
    obtain ⟨hd, hp⟩ := inPhase_some.mp hd
    exact .close hd hp
  | eject victim reason =>
    obtain ⟨e, he, rfl⟩ := Option.map_eq_some_iff.mp hst
    exact .eject reason he
  | chore c =>
    simp only [next] at hst
    split at hst
    · rename_i hc
      cases hst
      exact .chore hc
    · cases hst
  | send client m =>
    simp only [next] at hst
    split at hst
    · cases hst
    · rename_i hm
      cases hst
      exact .send client (by simpa using hm)
  | broadcast m except =>
    simp only [next] at hst
    split at hst
    · cases hst
    · rename_i hm
      cases hst
      exact .broadcast except (by simpa using hm)
  | broadcastFiltered m channel except =>
    simp only [next] at hst
    split at hst
    · cases hst
    · rename_i hm
      cases hst
      unfold Hall.broadcastFiltered
      split
      · rename_i hc
        exact .unheard except (by simpa using hm) hc
      · rename_i hc
        exact .broadcastFiltered except (by simpa using hm) hc
  | drain client =>
    simp only [next] at hst
    split at hst
    · cases hst
    · rename_i he
      obtain ⟨d, hd, hst⟩ := Option.bind_eq_some_iff.mp hst
      obtain ⟨hd, hp⟩ := inPhase_some.mp hd
      split at hst
      · rename_i ht
        cases hst
        exact .drain he hd hp ht
      · cases hst
  | stopWriting k =>
    obtain ⟨d, hd, hst⟩ := Option.bind_eq_some_iff.mp hst
    split at hst
    · rename_i hp
      cases hst
      exact .stopWriting hd hp
    · cases hst
  | elsewhere s =>
    simp only [next] at hst
    split at hst
    · rename_i hs
      cases hst
      exact .elsewhere hs
    · cases hst

theorem Stepped.step {h h' : Hall} {l : Move} (hst : Stepped h l h') : Step h l h' := by
  unfold Step
  cases hst with
  | admission identity nickname roles hroom => exact if_neg (by omega)
  | assemble hd hp | write _ hd hp | announce hd hp | release hd hp | hangUp hd hp | farewell hd hp | close hd hp =>
    simp only [next, inPhase_some.mpr ⟨hd, hp⟩, Option.map_some]
  | depart hd hp hu => simp only [next, inPhase_some.mpr ⟨hd, hp⟩, Option.map_some, hu, if_true]
  | gone hd hp hu => simp only [next, inPhase_some.mpr ⟨hd, hp⟩, Option.map_some, hu, Bool.false_eq_true, if_false]
  | eject reason he => simp only [next, he, Option.map_some]
  | chore hc => exact if_pos hc
  | send client hm => simp only [next, hm, Bool.false_eq_true, if_false, Hall.send]
  | broadcast except hm => simp only [next, hm, Bool.false_eq_true, if_false, Hall.broadcast]
  | broadcastFiltered except hm hc => simp [next, hm, Hall.broadcastFiltered, hc]
  | unheard except hm hc => simp [next, hm, Hall.broadcastFiltered, hc]
  | drain he hd hp ht => simp only [next, he, inPhase_some.mpr ⟨hd, hp⟩, Option.bind_some, if_pos ht]
  | stopWriting hd hp => simp only [next, hd, Option.bind_some, if_pos hp]
  | elsewhere hs => exact if_pos hs

theorem run_stepped {h₀ h h' : Hall} {l : Move} (hr : Run Step (fun _ _ => True) h₀ h) (hst : Stepped h l h') :
    Run Step (fun _ _ => True) h₀ h' := .step l hr trivial hst.step

/-! ## What an operation does to the roster -/

section
variable (h : Hall) (p : ConnectedClient → Bool) (m : ServerControl)

theorem offer_id (e : ConnectedClient) : (h.offer p m e).id = e.id := by
  unfold offer
  split <;> rfl

theorem mem_trySend {e : ConnectedClient} :
    e ∈ (h.trySend p m).shared.clients ↔ ∃ e₀ ∈ h.shared.clients, h.offer p m e₀ = e := List.mem_map

theorem isSome_user {client : ClientId} :
    (h.shared.user client).isSome = true ↔ ∃ e ∈ h.shared.clients, e.id = client := by
  rw [Shared.user, Option.isSome_map]
  exact Keyed.get_isSome

theorem mem_remove {client : ClientId} {e : ConnectedClient} :
    e ∈ (h.remove client).shared.clients ↔ e ∈ h.shared.clients ∧ e.id ≠ client := Keyed.mem_erase

theorem getElem?_edit (k j : Nat) (f : Connection → Connection) :
    (h.edit k f).connections[j]? = if k = j then (h.connections[j]?).map f else h.connections[j]? := by
  simp only [edit, List.getElem?_modify]
  split <;> simp

theorem edit_of_none {k : Nat} (hk : h.connections[k]? = none) (f : Connection → Connection) : h.edit k f = h := by
  rw [edit, List.modify_eq_self (List.getElem?_eq_none_iff.mp hk)]

theorem getElem?_welcome (info : UserInfo) {j : Nat} {d : Connection}
    (hd : (h.welcome info).connections[j]? = some d) :
    h.connections[j]? = some d ∨ (j = h.connections.length ∧ d = ⟨info, [], .admitted, 0, false, false⟩) := by
  simp only [welcome, List.getElem?_append] at hd
  split at hd
  · exact .inl hd
  · rename_i hj
    have hlt := (List.getElem?_eq_some_iff.mp hd).1
    simp only [List.length_singleton] at hlt
    have hz : j - h.connections.length = 0 := by omega
    rw [hz] at hd
    cases hd
    exact .inr ⟨by omega, rfl⟩

theorem connection_edit (k : Nat) (f : Connection → Connection) (e : ConnectedClient) :
    (h.edit k f).connection e = if k = h.line e.id then (h.connection e).map f else h.connection e :=
  h.getElem?_edit k (h.line e.id) f

end

/-! ## Entries and their connections -/

end Hall

/-- Not yet past the removal of its own entry. -/
def Phase.held : Phase → Bool
  | parting | closing | closed => false
  | _ => true

namespace Hall

/-- Every entry is held by one connection that is not through with it, and
connections that are not closed do not share an id. -/
structure Sound (h : Hall) : Prop where
  unique : Keyed.Unique ConnectedClient.id h.shared.clients
  distinct : ∀ (j k : Nat) (d d' : Connection), h.connections[j]? = some d → h.connections[k]? = some d' →
    d.phase ≠ .closed → d'.phase ≠ .closed → d.id = d'.id → j = k
  held : ∀ e ∈ h.shared.clients, ∃ d, h.connection e = some d ∧ d.id = e.id ∧ d.phase.held = true

def Fresh (h : Hall) : Prop :=
  (∀ d ∈ h.connections, d.id = h.shared.nextClientId → d.phase = .closed) ∧
  ∀ c ∈ h.chores, c.client ≠ some h.shared.nextClientId

section
variable {h : Hall} (hs : h.Sound)
include hs

theorem Sound.line_eq {e : ConnectedClient} (he : e ∈ h.shared.clients) {k : Nat} {d : Connection}
    (hd : h.connections[k]? = some d) (hopen : d.phase ≠ .closed) (hid : e.id = d.id) : h.line e.id = k := by
  obtain ⟨d', hd', hid', hheld⟩ := hs.held e he
  refine hs.distinct _ _ d' d hd' hd ?_ hopen (hid'.trans hid)
  intro hc
  rw [hc] at hheld
  cases hheld

theorem Sound.chores (cs : List Chore) : Sound { h with chores := cs } := ⟨hs.unique, hs.distinct, hs.held⟩

theorem Sound.trySend (p : ConnectedClient → Bool) (m : ServerControl) : (h.trySend p m).Sound where
  unique := hs.unique.map (h.offer_id p m)
  distinct := hs.distinct
  held := by
    intro e he
    obtain ⟨e₀, he₀, rfl⟩ := (h.mem_trySend p m).mp he
    obtain ⟨d, hd, hid, hheld⟩ := hs.held e₀ he₀
    refine ⟨d, ?_, ?_, hheld⟩
    · rw [connection, offer_id]
      exact hd
    · rw [offer_id]
      exact hid

theorem Sound.queue (p : ConnectedClient → Bool) (m : ServerControl) : (h.queue p m).Sound :=
  (hs.trySend p m).chores _

theorem Sound.remove (client : ClientId) : (h.remove client).Sound where
  unique := hs.unique.erase client
  distinct := hs.distinct
  held e he := hs.held e ((h.mem_remove).mp he).1

theorem Sound.edit {k : Nat} {d : Connection} {f : Connection → Connection} (hd : h.connections[k]? = some d)
    (hid : (f d).id = d.id) (hclosed : d.phase = .closed → (f d).phase = .closed)
    (hheld : d.phase.held = true → (f d).phase.held = true ∨ ∀ e ∈ h.shared.clients, e.id ≠ d.id) :
    (h.edit k f).Sound where
  unique := hs.unique
  distinct := by
    have hback : ∀ (j : Nat) (d₁ : Connection), (h.edit k f).connections[j]? = some d₁ → d₁.phase ≠ .closed →
        ∃ d₀, h.connections[j]? = some d₀ ∧ d₀.phase ≠ .closed ∧ d₀.id = d₁.id := by
      intro j d₁ h₁ hc
      rw [getElem?_edit] at h₁
      split at h₁
      · rename_i hk
        subst hk
        rw [hd] at h₁
        cases h₁
        exact ⟨d, hd, fun h => hc (hclosed h), hid.symm⟩
      · exact ⟨d₁, h₁, hc, rfl⟩
    intro i j d₁ d₂ h₁ h₂ hc₁ hc₂ he
    obtain ⟨e₁, g₁, ho₁, hi₁⟩ := hback i d₁ h₁ hc₁
    obtain ⟨e₂, g₂, ho₂, hi₂⟩ := hback j d₂ h₂ hc₂
    exact hs.distinct i j e₁ e₂ g₁ g₂ ho₁ ho₂ (hi₁.trans (he.trans hi₂.symm))
  held := by
    intro e he
    obtain ⟨d', hd', hid', hh⟩ := hs.held e he
    rw [connection_edit]
    split
    · rename_i hk
      obtain rfl : d = d' := by
        rw [connection, ← hk, hd] at hd'
        exact Option.some.inj hd'
      refine ⟨f d, by rw [hd']; rfl, hid.trans hid', ?_⟩
      rcases hheld hh with hf | hnone
      · exact hf
      · exact absurd hid'.symm (hnone e he)
    · exact ⟨d', hd', hid', hh⟩

theorem Sound.fresh_ne (hf : h.Fresh) {e : ConnectedClient} (he : e ∈ h.shared.clients) :
    e.id ≠ h.shared.nextClientId := by
  obtain ⟨d, hd, hid, hheld⟩ := hs.held e he
  intro hn
  have hc := hf.1 d (List.mem_of_getElem? hd) (hid.trans hn)
  rw [hc] at hheld
  cases hheld

theorem Sound.welcome (hf : h.Fresh) {info : UserInfo} (hi : info.clientId = h.shared.nextClientId) :
    (h.welcome info).Sound where
  unique := hs.unique.put _
  distinct := by
    have hnew : ∀ (j : Nat) (d : Connection), (h.welcome info).connections[j]? = some d → d.phase ≠ .closed →
        (h.connections[j]? = some d ∧ d.id ≠ info.clientId) ∨ (j = h.connections.length ∧ d.id = info.clientId) := by
      intro j d hd hc
      rcases h.getElem?_welcome info hd with hd | ⟨hj, rfl⟩
      · refine .inl ⟨hd, fun he => hc (hf.1 d (List.mem_of_getElem? hd) (he.trans hi))⟩
      · exact .inr ⟨hj, rfl⟩
    intro i j d₁ d₂ h₁ h₂ hc₁ hc₂ he
    rcases hnew i d₁ h₁ hc₁ with ⟨g₁, n₁⟩ | ⟨g₁, n₁⟩ <;> rcases hnew j d₂ h₂ hc₂ with ⟨g₂, n₂⟩ | ⟨g₂, n₂⟩
    · exact hs.distinct i j d₁ d₂ g₁ g₂ hc₁ hc₂ he
    · exact absurd (he.trans n₂) n₁
    · exact absurd (he.symm.trans n₁) n₂
    · exact g₁.trans g₂.symm
  held := by
    intro e he
    rcases Keyed.mem_put.mp he with rfl | ⟨he, hne⟩
    · refine ⟨⟨info, [], .admitted, 0, false, false⟩, ?_, rfl, rfl⟩
      simp [connection, Hall.welcome, ConnectedClient.id]
    · obtain ⟨d, hd, hid, hheld⟩ := hs.held e he
      refine ⟨d, ?_, hid, hheld⟩
      have hne' : e.id ≠ info.clientId := hne
      have hlt : h.line e.id < h.connections.length := (List.getElem?_eq_some_iff.mp hd).1
      simp only [connection, Hall.welcome, hne', if_false]
      rw [List.getElem?_append_left hlt]
      exact hd

theorem Sound.doChore (c : Chore) : (h.doChore c).Sound := by
  cases c with
  | drop client =>
    simp only [Hall.doChore]
    split
    · exact (hs.remove client).chores _
    · exact hs
  | tellDropped client => exact hs.trySend _ _
  | tellEjected client reason k => exact (hs.queue _ _).chores _
  | shut k =>
    simp only [Hall.doChore]
    cases hk : h.connections[k]? with
    | none =>
      rw [edit_of_none h hk]
      exact hs
    | some d => exact hs.edit hk rfl id fun hh => .inl hh

end

theorem Sound.elsewhere {h : Hall} (hs : h.Sound) {s : Shared} (hsame : SameRoster h.shared s) :
    Sound { h with shared := s } where
  unique := by
    have hu := hs.unique
    unfold Keyed.Unique at hu ⊢
    rw [hsame.ids]
    exact hu
  distinct := hs.distinct
  held := by
    intro e he
    obtain ⟨e₀, he₀, hid, -⟩ := hsame.back he
    have hheld := hs.held e₀ he₀
    rw [connection, hid] at hheld
    exact hheld

theorem Sound.step {h h' : Hall} {l : Move} (hs : h.Sound) (hst : Stepped h l h')
    (hf : ∀ identity nickname roles, l = .admission identity nickname roles → h.Fresh) : h'.Sound := by
  cases hst with
  | admission identity nickname roles => exact hs.welcome (hf _ _ _ rfl) rfl
  | assemble hd hp => exact hs.edit hd rfl (fun hc => by rw [hp] at hc; cases hc) fun _ => .inl rfl
  | write ok hd hp =>
    refine hs.edit hd rfl (fun hc => by rw [hp] at hc; cases hc) fun _ => .inl ?_
    cases ok <;> rfl
  | announce hd hp =>
    exact (hs.queue _ _).edit (h := h.broadcast _ _) hd rfl (fun hc => by rw [hp] at hc; cases hc) fun _ => .inl rfl
  | release hd hp =>
    exact (hs.remove _).edit (h := h.remove _) hd rfl (fun hc => by rw [hp] at hc; cases hc) fun _ =>
      .inr fun e he => (h.mem_remove.mp he).2
  | hangUp hd hp => exact hs.edit hd rfl (fun hc => by rw [hp] at hc; cases hc) fun _ => .inl rfl
  | depart hd hp hu =>
    exact (hs.remove _).edit (h := h.remove _) hd rfl (fun hc => by rw [hp] at hc; cases hc) fun _ =>
      .inr fun e he => (h.mem_remove.mp he).2
  | gone hd hp hu =>
    refine hs.edit hd rfl (fun hc => by rw [hp] at hc; cases hc) fun _ => .inr fun e he hid => ?_
    have hnone := h.isSome_user.mpr ⟨e, he, hid⟩
    rw [hu] at hnone
    cases hnone
  | farewell hd hp =>
    exact (hs.queue _ _).edit (h := h.broadcast _ _) hd rfl (fun hc => by rw [hp] at hc; cases hc) fun hh => by
      rw [hp] at hh; cases hh
  | close hd hp => exact hs.edit hd rfl (fun _ => rfl) fun hh => by rw [hp] at hh; cases hh
  | eject reason he => exact (hs.remove _).chores _
  | chore hc => exact (hs.chores _).doChore _
  | send | broadcast | broadcastFiltered => exact hs.queue _ _
  | unheard => exact hs
  | drain _ hd hp => exact hs.edit hd rfl (fun hc => by rw [hp] at hc; cases hc) fun hh => .inl hh
  | stopWriting hd _ => exact hs.edit hd rfl (fun hc => hc) fun hh => .inl hh
  | elsewhere hsame => exact hs.elsewhere hsame

/-! ## One task at a time

With room in every queue and nobody else in between, the steps of a connection
do what the handlers do. -/

def Roomy (h : Hall) : Prop := ∀ e ∈ h.shared.clients, h.listens e = true ∧ h.full e = false

theorem trySend_roomy {h : Hall} (hr : h.Roomy) (p : ConnectedClient → Bool) (m : ServerControl) :
    h.trySend p m =
      { h with shared := { h.shared with clients := h.shared.clients.map fun e => if p e then e.push [m] else e } } := by
  have hmap : h.shared.clients.map (h.offer p m) = h.shared.clients.map fun e => if p e then e.push [m] else e := by
    refine List.map_congr_left fun e he => ?_
    obtain ⟨hl, hf⟩ := hr e he
    simp [offer, hl, hf]
  rw [trySend, hmap]

theorem broadcast_roomy {h : Hall} (hr : h.Roomy) (m : ServerControl) (except : Option ClientId) :
    h.broadcast m except = { h with shared := h.shared.broadcast m except } := by
  have hnone : (h.shared.clients.filter fun e => (decide (some e.id ≠ except)) && h.full e) = [] := by
    refine List.filter_eq_nil_iff.mpr fun e he => ?_
    simp [(hr e he).2]
  unfold broadcast queue
  rw [trySend_roomy hr, hnone]
  simp only [List.map_nil, List.append_nil, Shared.broadcast, decide_eq_true_eq, ite_not]

theorem connection_welcome (h : Hall) (hs : h.Sound) (info : UserInfo) {e : ConnectedClient}
    (he : e ∈ h.shared.clients) (hne : e.id ≠ info.clientId) : (h.welcome info).connection e = h.connection e := by
  obtain ⟨d, hd, -⟩ := hs.held e he
  have hlt : h.line e.id < h.connections.length := (List.getElem?_eq_some_iff.mp hd).1
  simp only [connection, welcome, hne, if_false]
  exact List.getElem?_append_left hlt

theorem welcome_roomy {h : Hall} (hr : h.Roomy) (hs : h.Sound) (info : UserInfo) : (h.welcome info).Roomy := by
  intro e he
  rcases Keyed.mem_put.mp he with rfl | ⟨he, hne⟩
  · simp [listens, full, connection, welcome, ConnectedClient.id]
    decide
  · have hroom := hr e he
    rw [listens, full] at hroom ⊢
    rw [h.connection_welcome hs info he hne]
    exact hroom

theorem edit_roomy {h : Hall} (hr : h.Roomy) (k : Nat) {f : Connection → Connection}
    (hf : ∀ d, (f d).hung = d.hung ∧ (f d).taken = d.taken) : (h.edit k f).Roomy := by
  intro e he
  have hroom := hr e he
  rw [listens, full] at hroom ⊢
  rw [connection_edit]
  split
  · simpa [Option.any_map, Function.comp_def, hf] using hroom
  · exact hroom

theorem getElem?_edit_self {h : Hall} {k : Nat} {d : Connection} (hd : h.connections[k]? = some d)
    (f : Connection → Connection) : (h.edit k f).connections[k]? = some (f d) := by
  rw [getElem?_edit, if_pos rfl, hd]
  rfl

section
variable {h : Hall} (hr : h.Roomy)
include hr

/-- A handshake whose `AuthOk` is written, from its admission on. -/
theorem run_greeted (hs : h.Sound) {identity : PublicIdentity} {nickname : String} {info : UserInfo} {t : Shared}
    (hentry : h.shared.admitUser identity nickname = .ok (info, t)) :
    ∃ h', Run Step (fun _ _ => True) h h' ∧ h'.shared = t.broadcast (.userJoined info) (some info.clientId) ∧
      h'.connections[h.connections.length]? = some ⟨info, (t.authOk info).users, .running, 0, false, false⟩ := by
  obtain ⟨-, -, -, -, -, hroom, -⟩ := Shared.admitUser_ok hentry
  obtain ⟨clean, hinfo, rfl⟩ := admitUser_sections hentry
  have hnew : (h.welcome info).connections[h.connections.length]? = some ⟨info, [], .admitted, 0, false, false⟩ :=
    List.getElem?_concat_length
  have hassembled := getElem?_edit_self hnew fun d =>
    { d with users := (h.welcome info).shared.users, phase := .greeting }
  have hwritten := getElem?_edit_self hassembled fun d => { d with phase := if true then .greeted else .failed }
  have hroomy := edit_roomy (edit_roomy (welcome_roomy hr hs info) h.connections.length
    (f := fun d => { d with users := (h.welcome info).shared.users, phase := .greeting }) fun _ => ⟨rfl, rfl⟩)
    h.connections.length (f := fun d => { d with phase := if true then .greeted else .failed }) fun _ => ⟨rfl, rfl⟩
  have hrun₁ : Run Step (fun _ _ => True) h (h.welcome info) := by
    rw [hinfo]
    exact run_stepped .refl (.admission identity clean _ hroom)
  have hrun₂ := run_stepped hrun₁ (.assemble hnew rfl)
  have hrun₃ := run_stepped hrun₂ (.write true hassembled rfl)
  have hrun₄ := run_stepped hrun₃ (.announce hwritten rfl)
  rw [broadcast_roomy hroomy] at hrun₄
  exact ⟨_, hrun₄, rfl, getElem?_edit_self hwritten _⟩

omit hr in
/-- A handshake whose `AuthOk` cannot be written. -/
theorem run_released {identity : PublicIdentity} {nickname : String} {info : UserInfo} {t : Shared}
    (hentry : h.shared.admitUser identity nickname = .ok (info, t)) :
    ∃ h', Run Step (fun _ _ => True) h h' ∧ h'.shared = (t.remove info.clientId).2 ∧
      h'.connections[h.connections.length]? = some ⟨info, (t.authOk info).users, .closed, 0, false, true⟩ := by
  obtain ⟨-, -, -, -, -, hroom, -⟩ := Shared.admitUser_ok hentry
  obtain ⟨clean, hinfo, rfl⟩ := admitUser_sections hentry
  have hnew : (h.welcome info).connections[h.connections.length]? = some ⟨info, [], .admitted, 0, false, false⟩ :=
    List.getElem?_concat_length
  have hassembled := getElem?_edit_self hnew fun d =>
    { d with users := (h.welcome info).shared.users, phase := .greeting }
  have hfailed := getElem?_edit_self hassembled fun d => { d with phase := if false then .greeted else .failed }
  have hrun₁ : Run Step (fun _ _ => True) h (h.welcome info) := by
    rw [hinfo]
    exact run_stepped .refl (.admission identity clean _ hroom)
  have hrun₂ := run_stepped hrun₁ (.assemble hnew rfl)
  have hrun₃ := run_stepped hrun₂ (.write false hassembled rfl)
  have hrun₄ := run_stepped hrun₃ (.release hfailed rfl)
  exact ⟨_, run_stepped hrun₄ (.close (getElem?_edit_self hfailed _) rfl), rfl,
    getElem?_edit_self (getElem?_edit_self hfailed _) _⟩

theorem remove_roomy (client : ClientId) : (h.remove client).Roomy := by
  intro e he
  exact hr e (h.mem_remove.mp he).1

/-- A session that is over: its steps, with nobody in between, are `disconnect`, and the transport is closed. -/
theorem run_ended {k : Nat} {d : Connection} (hd : h.connections[k]? = some d) (hp : d.phase = .running) :
    ∃ h', Run Step (fun _ _ => True) h h' ∧ h'.shared = disconnect h.shared d.id ∧
      h'.connections[k]? = some { d with phase := .closed, shut := true } := by
  have hended := getElem?_edit_self hd fun d => { d with phase := .ended }
  have hrun₁ : Run Step (fun _ _ => True) h _ := run_stepped .refl (.hangUp hd hp)
  cases hu : h.shared.user d.id with
  | none =>
    have hrun₂ := run_stepped hrun₁ (.gone hended rfl (congrArg Option.isSome hu))
    have hclosing := getElem?_edit_self hended fun d => { d with phase := .closing }
    refine ⟨_, run_stepped hrun₂ (.close hclosing rfl), ?_, getElem?_edit_self hclosing _⟩
    simp only [disconnect, Shared.remove, hu]
    rfl
  | some info =>
    have hrun₂ := run_stepped hrun₁ (.depart hended rfl (congrArg Option.isSome hu))
    change Run Step _ h (((h.edit k _).remove d.id).edit k fun d => { d with phase := .parting }) at hrun₂
    have hparting := getElem?_edit_self (h := (h.edit k _).remove d.id) hended fun d => { d with phase := .parting }
    have hroomy := edit_roomy (remove_roomy (edit_roomy hr k (f := fun d => { d with phase := .ended }) fun _ =>
        ⟨rfl, rfl⟩)
      d.id) k (f := fun d => { d with phase := .parting }) fun _ => ⟨rfl, rfl⟩
    have hrun₃ := run_stepped hrun₂ (.farewell hparting rfl)
    rw [broadcast_roomy hroomy] at hrun₃
    refine ⟨_, run_stepped hrun₃ (.close (getElem?_edit_self hparting _) rfl), ?_,
      getElem?_edit_self (getElem?_edit_self hparting _) _⟩
    simp only [disconnect, Shared.remove, hu]
    rfl

/-- An ejection, with nobody in between, is `Shared.eject`, and the transport is closed. -/
theorem run_ejected {victim : ClientId} {e : ConnectedClient} (he : h.shared.client? victim = some e)
    (reason : DisconnectReason) :
    ∃ h', Run Step (fun _ _ => True) h h' ∧ h'.shared = (h.shared.eject victim reason).2 ∧
      ∀ d, h'.connections[h.line victim]? = some d → d.shut = true := by
  have hrun₁ : Run Step (fun _ _ => True) h _ := run_stepped .refl (.eject reason he)
  have hrun₂ := run_stepped hrun₁ (.chore (List.mem_append_right _ (List.mem_singleton_self _)))
  have hrun₃ := run_stepped hrun₂ (.chore (List.mem_append_right _ (List.mem_singleton_self _)))
  have hroomy : Roomy { (h.remove victim).todo (.tellEjected victim reason (h.line victim)) with
      chores := ((h.remove victim).todo (.tellEjected victim reason (h.line victim))).chores.erase
        (.tellEjected victim reason (h.line victim)) } := remove_roomy hr victim
  simp only [doChore, broadcast_roomy hroomy] at hrun₃
  refine ⟨_, hrun₃, ?_, ?_⟩
  · simp only [Shared.eject, he]
    rfl
  · intro d hd
    rw [getElem?_edit, if_pos rfl] at hd
    obtain ⟨d₀, -, rfl⟩ := Option.map_eq_some_iff.mp hd
    rfl

end

def plainConfig : ServerConfig :=
  { minSecurityLevel := 0, password := none, owner := none, maxUsers := 8, historyEnabled := true, channels := [] }

def fresh : Hall := .new (.new plainConfig [] ⟨defaultRoles, fun _ => none⟩ true 0)

/-- The moves of a handshake that succeeds. -/
def arrives (k : Nat) (fp : UInt8) : List Move :=
  [.admission ⟨.rep fp, 8⟩ "n" [], .assemble k, .write k true, .announce k]

end Hall

end PickleChat
