import PickleChat.Lib.Run
import PickleChat.PermMirror

/-!
# A tab opens

The event pump of a connection starts before `connect` returns, and what it
emits reaches the frontend on another way than the connection itself. Events
of a connection that has no tab are dropped, so those that overtake it are lost.
-/

namespace PickleChat

open Async (Run)

/-! ## The pump and the command -/

def ClientEvent.isVoice : ClientEvent → Bool
  | .voice _ => true
  | _ => false

def ClientEvent.terminal : ClientEvent → Bool
  | .disconnected _ => true
  | _ => false

/-- What the pump makes of an event: the mirror after it, and what it emits, the original first. -/
def PermMirror.pump (p : PermMirror) (event : ClientEvent) : PermMirror × List EventDto :=
  if event.isVoice then (p, []) else
  let (permsChanged, p) := p.apply event
  (p, (EventDto.fromEvent event).toList ++
    (if PermMirror.touchesRoles event then [.rolesChanged p.rolesDto] else []) ++
    (if permsChanged then [.permissionsChanged p.myPermissions] else []))

/-- How far the `connect` command is. -/
inductive ConnectStage where
  /-- The client core has connected. -/
  | connected
  | pumping
  /-- It has returned, and its result is on the way. -/
  | answered (connection : ConnectionDto)
  | opened
  deriving DecidableEq

/-- One connection from its login on, and the frontend. -/
structure Opening where
  session : SessionId
  login : SessionInfo
  info : SessionDto
  identity : String
  stage : ConnectStage
  /-- The events the pump has taken. -/
  taken : List ClientEvent
  inbox : List ClientEvent
  perms : PermMirror
  finished : Bool
  /-- What is emitted and not yet with the reducer. -/
  emitted : List EventDto
  tabs : ConnectionsState

inductive OpeningStep where
  | receive (event : ClientEvent)
  | spawn
  | pump
  | answer
  | opened
  | event
  | other (action : Action)

namespace Opening

def start (sha256 : List UInt8 → Vector UInt8 32) (session : SessionId) (fingerprint : Fingerprint)
    (login : SessionInfo) (tabs : ConnectionsState) : Opening :=
  { session, login, info := .of sha256 login, identity := fingerprint.toText, stage := .connected, taken := [],
    inbox := [], perms := .fromSession fingerprint login, finished := false, emitted := [], tabs }

def received (x : Opening) : List ClientEvent := x.taken ++ x.inbox

/-- What `connect` would return now. -/
def connection (x : Opening) : ConnectionDto :=
  { permissions := x.perms.myPermissions, roles := x.perms.rolesDto, session := x.session, info := x.info,
    identity := x.identity }

def exec (x : Opening) : OpeningStep → Option Opening
  -- Nothing follows the end of the control stream but voice, which a task of its own reads.
  | .receive event =>
    if x.received.any ClientEvent.terminal && !event.isVoice then none else some { x with inbox := x.inbox ++ [event] }
  | .spawn => if x.stage = .connected then some { x with stage := .pumping } else none
  | .pump =>
    if x.stage = .connected || x.finished then none else
    match x.inbox with
    | [] => none
    | event :: inbox =>
      let (perms, out) := x.perms.pump event
      some { x with
        perms, inbox, taken := x.taken ++ [event], emitted := x.emitted ++ out, finished := event.terminal }
  | .answer => if x.stage = .pumping then some { x with stage := .answered x.connection } else none
  | .opened =>
    match x.stage with
    | .answered connection => some { x with stage := .opened, tabs := reduce x.tabs (.opened connection) }
    | _ => none
  | .event =>
    match x.emitted with
    | [] => none
    | event :: emitted => some { x with emitted, tabs := reduce x.tabs (.event x.session event) }
  | .other action =>
    if action.elsewhere x.session then some { x with tabs := reduce x.tabs action } else none

def Step (x : Opening) (l : OpeningStep) (x' : Opening) : Prop := x.exec l = some x'

end Opening

/-! ## What should be shown -/

/-- The users and the channels there are, and why the connection ended. -/
structure Picture where
  users : List UserInfo
  channels : List Channel
  disconnected : Option String

def SessionInfo.picture (login : SessionInfo) : Picture := ⟨login.users, login.channels, none⟩

def Picture.after (p : Picture) : ClientEvent → Picture
  | .userJoined user => { p with users := p.users.filter (fun u => u.clientId ≠ user.clientId) ++ [user] }
  | .userLeft client _ => { p with users := p.users.filter fun u => u.clientId ≠ client }
  | .userMoved client _ channel =>
    { p with users := p.users.map fun u => if u.clientId = client then { u with channel } else u }
  | .userUpdated user => { p with users := p.users.map fun u => if u.clientId = user.clientId then user else u }
  | .channelCreated channel => { p with channels := p.channels.filter (fun c => c.id ≠ channel.id) ++ [channel] }
  | .channelUpdated channel => { p with channels := p.channels.map fun c => if c.id = channel.id then channel else c }
  | .channelRemoved id => { p with channels := p.channels.filter fun c => c.id ≠ id }
  | .disconnected reason => { p with users := [], disconnected := some reason }
  | _ => p

/-- The picture as a tab shows it. -/
def Picture.dto (p : Picture) : List UserDto × List ChannelDto × Option String :=
  (p.users.map .of, p.channels.map .of, p.disconnected)

/-- Reducing one event after another, whichever tab is looked at. -/
def applyEvents (c : ConnectionState) (events : List EventDto) : ConnectionState :=
  events.foldl (fun c e => applyEvent c e none) c

theorem applyEvents_lists {c c' : ConnectionState} (h : c.lists = c'.lists) (events : List EventDto) :
    (applyEvents c events).lists = (applyEvents c' events).lists := by
  induction events generalizing c c' with
  | nil => exact h
  | cons e events ih => exact ih (applyEvent_lists h e none none)

section
variable {α β κ : Type} [DecidableEq κ] (key : α → κ) (key' : β → κ) {f : α → β} (hf : ∀ a, key' (f a) = key a) (k : κ)
  (l : List α)
include hf

theorem filter_shown : (l.map f).filter (fun b => key' b ≠ k) = (l.filter fun a => key a ≠ k).map f := by
  rw [List.filter_map]
  congr 1
  apply List.filter_congr
  intro a _
  simp [hf]

theorem modify_shown {g : α → α} {m : β → β} (hg : ∀ a, m (f a) = f (g a)) :
    (l.map f).map (fun b => if key' b = k then m b else b) =
      (l.map fun a => if key a = k then g a else a).map f := by
  rw [List.map_map, List.map_map]
  apply List.map_congr_left
  intro a _
  simp only [Function.comp_apply, hf, hg]
  split <;> rfl

end

/-- A translated event does to a tab what the event does to the picture. -/
theorem translated {c : ConnectionState} {p : Picture} (h : c.lists = p.dto) (event : ClientEvent) :
    (applyEvents c (EventDto.fromEvent event).toList).lists = (p.after event).dto := by
  simp only [ConnectionState.lists, Picture.dto, Prod.mk.injEq] at h ⊢
  obtain ⟨husers, hchannels, hend⟩ := h
  have gone := filter_shown UserInfo.clientId UserDto.clientId (f := UserDto.of) fun _ => rfl
  have closed := filter_shown Channel.id ChannelDto.id (f := ChannelDto.of) fun _ => rfl
  cases event with
  | userJoined user =>
    refine ⟨?_, hchannels, hend⟩
    have hl := gone user.clientId p.users
    rw [← husers] at hl
    simp only [Picture.after, List.map_append, ← hl]
    rfl
  | userLeft client reason =>
    refine ⟨?_, hchannels, hend⟩
    have hl := gone client p.users
    rw [← husers] at hl
    exact hl
  | userMoved client source dest =>
    refine ⟨?_, hchannels, hend⟩
    have hl := modify_shown UserInfo.clientId UserDto.clientId (f := UserDto.of) (fun _ => rfl) client p.users
      (g := fun u => { u with channel := dest }) (m := fun u => { u with channel := dest }) fun _ => rfl
    rw [← husers] at hl
    exact hl
  | userUpdated user =>
    refine ⟨?_, hchannels, hend⟩
    have hl := modify_shown UserInfo.clientId UserDto.clientId (f := UserDto.of) (fun _ => rfl) user.clientId p.users
      (g := fun _ => user) (m := fun _ => .of user) fun _ => rfl
    rw [← husers] at hl
    exact hl
  | channelCreated channel =>
    refine ⟨husers, ?_, hend⟩
    have hl := closed channel.id p.channels
    rw [← hchannels] at hl
    simp only [Picture.after, List.map_append, ← hl]
    rfl
  | channelUpdated channel =>
    refine ⟨husers, ?_, hend⟩
    have hl := modify_shown Channel.id ChannelDto.id (f := ChannelDto.of) (fun _ => rfl) channel.id p.channels
      (g := fun _ => channel) (m := fun _ => .of channel) fun _ => rfl
    rw [← hchannels] at hl
    exact hl
  | channelRemoved id =>
    refine ⟨husers, ?_, hend⟩
    have hl := closed id p.channels
    rw [← hchannels] at hl
    exact hl
  | disconnected reason => exact ⟨rfl, hchannels, rfl⟩
  | _ => exact ⟨husers, hchannels, hend⟩

theorem applyEvents_append (c : ConnectionState) (l l' : List EventDto) :
    applyEvents c (l ++ l') = applyEvents (applyEvents c l) l' := List.foldl_append

/-- What the pump derives from the mirror changes no list. -/
theorem pumped {c : ConnectionState} {p : Picture} (h : c.lists = p.dto) (perms : PermMirror) (event : ClientEvent) :
    (applyEvents c (perms.pump event).2).lists = (p.after event).dto := by
  unfold PermMirror.pump
  by_cases hv : event.isVoice = true
  · rw [if_pos hv]
    cases event with
    | voice packet => exact h
    | _ => cases hv
  · rw [if_neg hv]
    dsimp only
    rw [applyEvents_append, applyEvents_append, ← translated h event]
    have roles : ∀ c : ConnectionState, (applyEvents c (if PermMirror.touchesRoles event then
        [.rolesChanged (perms.apply event).2.rolesDto] else [])).lists = c.lists := by
      intro c
      split <;> rfl
    have permissions : ∀ c : ConnectionState, (applyEvents c (if (perms.apply event).1 then
        [.permissionsChanged (perms.apply event).2.myPermissions] else [])).lists = c.lists := by
      intro c
      split <;> rfl
    rw [permissions, roles]

/-! ## In time -/

/-- The event adds to the lists of a login, names something in them or ends the connection. -/
def EventDto.touches (info : SessionDto) : EventDto → Bool
  | .userJoined _ | .channelCreated _ | .disconnected _ => true
  | .userLeft clientId _ | .userMoved clientId _ => info.users.any fun u => u.clientId = clientId
  | .userUpdated user => info.users.any fun u => u.clientId = user.clientId
  | .channelUpdated channel => info.channels.any fun c => c.id = channel.id
  | .channelRemoved channelId => info.channels.any fun c => c.id = channelId
  | _ => false

/-- No event that touches the lists of the login is with the reducer before the tab. -/
def Opening.InTime (x : Opening) : OpeningStep → Prop
  | .event => x.stage = .opened ∨ ∀ event ∈ x.emitted.head?, event.touches x.info = false
  | _ => True

theorem modify_absent {α κ : Type} [DecidableEq κ] {key : α → κ} {k : κ} {l : List α} (g : α → α)
    (h : ∀ a ∈ l, key a ≠ k) : (l.map fun a => if key a = k then g a else a) = l := by
  have hid : (l.map fun a => if key a = k then g a else a) = l.map id :=
    List.map_congr_left fun a ha => if_neg (h a ha)
  rw [hid, List.map_id]

theorem filter_absent {α κ : Type} [DecidableEq κ] {key : α → κ} {k : κ} {l : List α} (h : ∀ a ∈ l, key a ≠ k) :
    (l.filter fun a => key a ≠ k) = l :=
  List.filter_eq_self.mpr fun a ha => decide_eq_true (h a ha)

/-- An event that does not touch them leaves the lists of a new tab as they are. -/
theorem untouched {connection : ConnectionDto} {event : EventDto} (h : event.touches connection.info = false) :
    (applyEvent (.opened connection) event none).lists = (ConnectionState.opened connection).lists := by
  have absent : ∀ {k : ClientId}, (connection.info.users.any fun u => u.clientId = k) = false →
      ∀ u ∈ connection.info.users, u.clientId ≠ k := fun hk => by simpa using hk
  have closed : ∀ {k : ChannelId}, (connection.info.channels.any fun c => c.id = k) = false →
      ∀ c ∈ connection.info.channels, c.id ≠ k := fun hk => by simpa using hk
  cases event with
  | userJoined | channelCreated | disconnected => cases h
  | userLeft clientId reason =>
    have hl := filter_absent (absent h)
    exact congrArg (·, connection.info.channels, none) hl
  | userMoved clientId channel =>
    have hl := modify_absent (fun u => { u with channel }) (absent h)
    exact congrArg (·, connection.info.channels, none) hl
  | userUpdated user =>
    have hl := modify_absent (fun _ => user) (absent h)
    exact congrArg (·, connection.info.channels, none) hl
  | channelUpdated channel =>
    have hl := modify_absent (fun _ => channel) (closed h)
    exact congrArg (connection.info.users, ·, none) hl
  | channelRemoved channelId =>
    have hl := filter_absent (closed h)
    exact congrArg (connection.info.users, ·, none) hl
  | _ => rfl

/-! ## The invariant -/

/-- The tab, or the one that would open now. -/
def Opening.tab (x : Opening) : Option ConnectionState :=
  if x.stage = .opened then x.tabs.byId x.session else some (.opened x.connection)

structure CatchesUp (x : Opening) : Prop where
  /-- The tab with what is on its way shows what the events the pump has taken make of the login. -/
  shown : ∃ c, x.tab = some c ∧ (applyEvents c x.emitted).lists = (x.taken.foldl Picture.after x.login.picture).dto
  /-- A result on its way is for this connection. -/
  answer : ∀ connection, x.stage = .answered connection → connection.session = x.session ∧ connection.info = x.info
  /-- Only voice comes after the end. -/
  ended : x.received.Pairwise fun a b => a.terminal = true → b.isVoice = true
  finished : x.finished = true → ∃ event ∈ x.taken, event.terminal = true

theorem CatchesUp.start (sha256 : List UInt8 → Vector UInt8 32) (session : SessionId) (fingerprint : Fingerprint)
    (login : SessionInfo) (tabs : ConnectionsState) : CatchesUp (.start sha256 session fingerprint login tabs) where
  shown := ⟨_, rfl, rfl⟩
  answer _ h := by cases h
  ended := .nil
  finished h := by cases h

section
variable {x x' : Opening} (h : CatchesUp x)
include h

theorem CatchesUp.receive {event : ClientEvent} (hl : x.exec (.receive event) = some x') : CatchesUp x' := by
  simp only [Opening.exec] at hl
  split at hl; · cases hl
  rename_i hopen
  cases hl
  obtain ⟨hshown, hanswer, hended, hfinished⟩ := h
  refine ⟨hshown, hanswer, ?_, hfinished⟩
  unfold Opening.received at hopen hended ⊢
  rw [← List.append_assoc, List.pairwise_append]
  refine ⟨hended, List.pairwise_singleton .., fun a ha b hb hterm => ?_⟩
  rw [List.mem_singleton] at hb
  subst hb
  by_contra hv
  have hany : (x.taken ++ x.inbox).any ClientEvent.terminal = true := List.any_eq_true.mpr ⟨a, ha, hterm⟩
  simp [hany, hv] at hopen

theorem CatchesUp.pump (hl : x.exec .pump = some x') : CatchesUp x' := by
  simp only [Opening.exec] at hl
  split at hl; · cases hl
  rename_i hrun
  split at hl; · cases hl
  rename_i event inbox hinbox
  cases hl
  obtain ⟨⟨c, hc, hlists⟩, hanswer, hended, hfinished⟩ := h
  refine ⟨?_, hanswer, ?_, ?_⟩
  · have hnext := pumped hlists x.perms event
    by_cases hopened : x.stage = .opened
    · refine ⟨c, by simpa [Opening.tab, hopened] using hc, ?_⟩
      rw [applyEvents_append, List.foldl_append]
      exact hnext
    · -- The tab that would open has newer permissions now, and the same lists.
      simp only [Opening.tab, if_neg hopened, Option.some.injEq] at hc ⊢
      refine ⟨_, rfl, ?_⟩
      rw [applyEvents_append, List.foldl_append, List.foldl_cons, List.foldl_nil, ← hnext]
      apply applyEvents_lists
      apply applyEvents_lists
      rw [← hc]
      rfl
  · rw [Opening.received, hinbox] at hended
    simpa [Opening.received] using hended
  · exact fun hterm => ⟨event, by simp, hterm⟩

theorem CatchesUp.opened (hl : x.exec .opened = some x') : CatchesUp x' := by
  simp only [Opening.exec] at hl
  split at hl
  · rename_i connection hstage
    cases hl
    obtain ⟨⟨c, hc, hlists⟩, hanswer, hended, hfinished⟩ := h
    obtain ⟨hsession, hsame⟩ := hanswer connection hstage
    refine ⟨⟨.opened connection, ?_, ?_⟩, fun _ he => (by cases he), hended, hfinished⟩
    · simp [Opening.tab, reduce, hsession]
    · rw [← hlists]
      apply applyEvents_lists
      simp only [Opening.tab, hstage] at hc
      obtain rfl := Option.some.inj hc
      simp [ConnectionState.lists, ConnectionState.opened, Opening.connection, hsame]
  · cases hl

theorem CatchesUp.event (hok : x.InTime .event) (hl : x.exec .event = some x') : CatchesUp x' := by
  simp only [Opening.exec] at hl
  split at hl; · cases hl
  rename_i event emitted hemitted
  cases hl
  obtain ⟨⟨c, hc, hlists⟩, hanswer, hended, hfinished⟩ := h
  refine ⟨?_, hanswer, hended, hfinished⟩
  rw [hemitted] at hlists
  by_cases hopened : x.stage = .opened
  · simp only [Opening.tab, if_pos hopened] at hc ⊢
    refine ⟨_, patch_at hc, ?_⟩
    rw [← hlists]
    exact applyEvents_lists (applyEvent_lists rfl event x.tabs.active none) emitted
  · -- The event is dropped, and would have changed nothing.
    have htouch : event.touches x.info = false := (hok.resolve_left hopened) event (by simp [hemitted])
    simp only [Opening.tab, if_neg hopened] at hc ⊢
    refine ⟨c, hc, ?_⟩
    rw [← hlists]
    obtain rfl := Option.some.inj hc
    exact applyEvents_lists (untouched htouch).symm emitted

theorem CatchesUp.other {action : Action} (hl : x.exec (.other action) = some x') : CatchesUp x' := by
  simp only [Opening.exec] at hl
  split at hl
  · rename_i helse
    cases hl
    obtain ⟨⟨c, hc, hlists⟩, hanswer, hended, hfinished⟩ := h
    refine ⟨?_, hanswer, hended, hfinished⟩
    by_cases hopened : x.stage = .opened
    · simp only [Opening.tab, if_pos hopened] at hc ⊢
      obtain ⟨c', hc', he⟩ := reduce_elsewhere hc helse
      exact ⟨c', hc', (applyEvents_lists he _).trans hlists⟩
    · simp only [Opening.tab, if_neg hopened] at hc ⊢
      exact ⟨c, hc, hlists⟩
  · cases hl

theorem CatchesUp.step {l : OpeningStep} (hok : x.InTime l) (hl : x.Step l x') : CatchesUp x' := by
  cases l with
  | receive event => exact h.receive hl
  | pump => exact h.pump hl
  | opened => exact h.opened hl
  | event => exact h.event hok hl
  | other action => exact h.other hl
  | spawn =>
    simp only [Opening.Step, Opening.exec] at hl
    split at hl
    · rename_i hstage
      cases hl
      obtain ⟨hshown, hanswer, hended, hfinished⟩ := h
      refine ⟨?_, fun _ he => (by cases he), hended, hfinished⟩
      simp only [Opening.tab, hstage] at hshown
      exact hshown
    · cases hl
  | answer =>
    simp only [Opening.Step, Opening.exec] at hl
    split at hl
    · rename_i hstage
      cases hl
      obtain ⟨hshown, hanswer, hended, hfinished⟩ := h
      refine ⟨?_, fun connection he => ?_, hended, hfinished⟩
      · simp only [Opening.tab, hstage] at hshown
        exact hshown
      · obtain rfl := ConnectStage.answered.inj he
        exact ⟨rfl, rfl⟩
    · cases hl

end

/-! ## Every run -/

theorem Picture.disconnected_kept {p : Picture} (h : p.disconnected ≠ none) (events : List ClientEvent) :
    (events.foldl Picture.after p).disconnected ≠ none := by
  induction events generalizing p with
  | nil => exact h
  | cons event events ih =>
    apply ih
    cases event <;> first | exact h | simp [Picture.after]

theorem Picture.disconnected_of_mem {reason : String} {events : List ClientEvent} (h : .disconnected reason ∈ events)
    (p : Picture) : (events.foldl Picture.after p).disconnected ≠ none := by
  obtain ⟨before, rest, rfl⟩ := List.append_of_mem h
  rw [List.foldl_append]
  exact Picture.disconnected_kept (by simp [Picture.after]) rest

theorem Picture.after_voice {events : List ClientEvent} (h : ∀ event ∈ events, event.isVoice = true) (p : Picture) :
    events.foldl Picture.after p = p := by
  induction events with
  | nil => rfl
  | cons event events ih =>
    have hv := h event List.mem_cons_self
    cases event with
    | voice packet => exact ih fun e he => h e (List.mem_cons_of_mem _ he)
    | _ => cases hv

/-- What a finished pump has not taken is voice. -/
theorem CatchesUp.rest_voice {x : Opening} (h : CatchesUp x) (hfinished : x.finished = true) :
    ∀ event ∈ x.inbox, event.isVoice = true := by
  obtain ⟨last, hlast, hterm⟩ := h.finished hfinished
  have hended := h.ended
  unfold Opening.received at hended
  intro event he
  exact (List.pairwise_append.mp hended).2.2 last hlast event he hterm

theorem Opening.exec_frame {x x' : Opening} {l : OpeningStep} (hl : x.exec l = some x') :
    x'.session = x.session ∧ x'.login = x.login := by
  cases l <;> simp only [Opening.exec] at hl <;> (repeat' split at hl) <;> cases hl <;> exact ⟨rfl, rfl⟩

/-- From a login on, in every run in which no event that touches the lists of
the login overtakes the result of `connect`: once the tab is open and all that
was emitted is reduced, it shows what the events make of the login, and that the
connection has ended if it has. -/
theorem tab_catches_up {sha256 : List UInt8 → Vector UInt8 32} {session : SessionId} {fingerprint : Fingerprint}
    {login : SessionInfo} {tabs : ConnectionsState} {x : Opening}
    (hrun : Run Opening.Step Opening.InTime (.start sha256 session fingerprint login tabs) x)
    (hopened : x.stage = .opened) (hreduced : x.emitted = []) :
    ∃ c, x.tabs.byId session = some c ∧ c.lists = (x.taken.foldl Picture.after login.picture).dto ∧
      (x.inbox = [] ∨ x.finished = true → c.lists = (x.received.foldl Picture.after login.picture).dto) ∧
      ∀ reason, .disconnected reason ∈ x.taken → c.disconnected ≠ none := by
  have h : CatchesUp x ∧ x.session = session ∧ x.login = login := by
    refine hrun.invariant (fun x => CatchesUp x ∧ x.session = session ∧ x.login = login) ⟨.start .., rfl, rfl⟩ ?_
    intro x l x' hi hok hl
    obtain ⟨hi, rfl, rfl⟩ := hi
    exact ⟨hi.step hok hl, Opening.exec_frame hl⟩
  obtain ⟨h, rfl, rfl⟩ := h
  obtain ⟨c, hc, hlists⟩ := h.shown
  rw [hreduced] at hlists
  simp only [Opening.tab, if_pos hopened] at hc
  refine ⟨c, hc, hlists, fun hdone => ?_, fun reason hr => ?_⟩
  · rw [Opening.received, List.foldl_append]
    rcases hdone with hnil | hfinished
    · rw [hnil]
      exact hlists
    · rw [Picture.after_voice (h.rest_voice hfinished)]
      exact hlists
  · have hmark := Picture.disconnected_of_mem hr x.login.picture
    have he : c.disconnected = (x.taken.foldl Picture.after x.login.picture).disconnected :=
      congrArg (fun l => l.2.2) hlists
    rw [he]
    exact hmark

/-! ## A login and a guest -/

def exampleUser (client : ClientId) (b : UInt8) : UserInfo :=
  { clientId := client, identity := ⟨.rep b, 8⟩, nickname := "n", channel := none, voice := {}, connectedAtUnixMs := 5,
    roles := [], owner := false }

/-- Connected as the only client of a server. -/
def aloneStart : Opening :=
  .start (fun _ => Vector.replicate 32 0) 1 (.rep 1)
    { clientId := 1, serverName := "s", serverIdentity := ⟨Vector.replicate 32 0, 0⟩, channels := [],
      users := [exampleUser 1 1], roles := [], defaultChannel := none, limits := {} } .empty

/-- An event is with the reducer while `connect` still has to return. -/
def overtakingSteps (event : ClientEvent) : List OpeningStep :=
  [.receive event, .spawn, .pump, .event, .answer, .opened]

/-- A guest who joined is missing, and the end of the connection is not marked. -/
theorem event_overtakes_tab :
    (¬ ∀ x, Run Opening.Step (fun _ _ => True) aloneStart x → x.stage = .opened → x.emitted = [] → x.inbox = [] →
      ∃ c, x.tabs.byId 1 = some c ∧ c.lists = (x.received.foldl Picture.after x.login.picture).dto) ∧
    ¬ ∀ x, Run Opening.Step (fun _ _ => True) aloneStart x → x.stage = .opened → x.emitted = [] → x.inbox = [] →
      ∃ c, x.tabs.byId 1 = some c ∧ ∀ reason, .disconnected reason ∈ x.received → c.disconnected ≠ none := by
  constructor
  · intro h
    have hrun : (Async.replay Opening.exec aloneStart (overtakingSteps (.userJoined (exampleUser 2 2)))).any (fun x =>
        decide (x.stage = .opened ∧ x.emitted = [] ∧ x.inbox = [] ∧
          (x.tabs.byId 1).map (fun c => c.users.length) = some 1 ∧
          (x.received.foldl Picture.after x.login.picture).users.length = 2)) = true := by decide +kernel
    obtain ⟨x, hx, hend⟩ := (Option.any_eq_true _ _).mp hrun
    obtain ⟨hstage, hemitted, hinbox, hone, htwo⟩ := of_decide_eq_true hend
    obtain ⟨c, hc, hlists⟩ := h x (Run.of_replay Opening.exec _ hx) hstage hemitted hinbox
    have hlen := congrArg (fun l => l.1.length) hlists
    simp only [ConnectionState.lists, Picture.dto, List.length_map, htwo] at hlen
    simp [hc, hlen] at hone
  · intro h
    have hrun : (Async.replay Opening.exec aloneStart (overtakingSteps (.disconnected "gone"))).any (fun x =>
        decide (x.stage = .opened ∧ x.emitted = [] ∧ x.inbox = [] ∧
          (x.tabs.byId 1).map ConnectionState.disconnected = some none ∧
          ClientEvent.disconnected "gone" ∈ x.received)) = true := by decide +kernel
    obtain ⟨x, hx, hend⟩ := (Option.any_eq_true _ _).mp hrun
    obtain ⟨hstage, hemitted, hinbox, hnone, hmem⟩ := of_decide_eq_true hend
    obtain ⟨c, hc, hmark⟩ := h x (Run.of_replay Opening.exec _ hx) hstage hemitted hinbox
    have hsome := hmark "gone" hmem
    simp [hc, hsome] at hnone

instance Opening.instDecidableInTime (x : Opening) : (l : OpeningStep) → Decidable (x.InTime l)
  | .event =>
    inferInstanceAs (Decidable (x.stage = .opened ∨ ∀ event ∈ x.emitted.head?, event.touches x.info = false))
  | .receive _ | .spawn | .pump | .answer | .opened | .other _ => .isTrue trivial

/-- A refusal comes before the tab, a guest after it. -/
def guestSteps : List OpeningStep :=
  overtakingSteps (.serverError .rateLimited "slow down") ++
    [.receive (.userJoined (exampleUser 2 2)), .pump, .other (.focused none), .event]

theorem tab_catches_up_guest : ∃ x, Run Opening.Step Opening.InTime aloneStart x ∧ x.received.length = 2 ∧
    ∃ c, x.tabs.byId 1 = some c ∧ c.lists = (x.received.foldl Picture.after x.login.picture).dto := by
  have hrun : (Async.replay (fun x l => if decide (Opening.InTime x l) then x.exec l
      else none) aloneStart guestSteps).any
      (fun x => decide (x.stage = .opened ∧ x.emitted = [] ∧ x.inbox = [] ∧ x.received.length = 2)) = true := by
    decide +kernel
  obtain ⟨x, hx, hend⟩ := (Option.any_eq_true _ _).mp hrun
  obtain ⟨hstage, hemitted, hinbox, htwo⟩ := of_decide_eq_true hend
  have hr : Run Opening.Step Opening.InTime aloneStart x :=
    Run.of_checked Opening.exec (fun x l => decide (x.InTime l)) (fun _ _ h => of_decide_eq_true h) guestSteps hx
  obtain ⟨c, hc, -, hlists, -⟩ := tab_catches_up hr hstage hemitted
  have hlogin : x.login = aloneStart.login :=
    hr.invariant (fun x => x.login = aloneStart.login) rfl fun _ _ _ hi _ hl => (Opening.exec_frame hl).2.trans hi
  exact ⟨x, hr, htwo, c, hc, hlogin ▸ hlists (.inl hinbox)⟩

end PickleChat
