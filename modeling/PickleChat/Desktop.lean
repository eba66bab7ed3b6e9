import PickleChat.Lib.Program
import PickleChat.State

/-!
# The desktop client's voice

`state.rs`, `bridge.rs` and `commands.rs` of the desktop app, as far as they
touch the audio engine, the sessions and the voice route. Each lock is taken
for one access at a time, so a command is a program of such accesses, and so
is the handling of an event by a session's event pump.
-/

namespace PickleChat

open Threads (Prog System)

abbrev SessionId := Nat

abbrev EngineId := Nat

/-- Its two flags, and the mixer's streams: each speaker's, with the session whose packet created it. -/
structure AudioEngine where
  muted : Bool
  deafened : Bool
  streams : List (ClientId × SessionId)
  deriving DecidableEq

/-- `VoiceMixer::accept`: a new speaker gets a stream if a decoder can be made. -/
def AudioEngine.accept (x : AudioEngine) (sender : ClientId) (session : SessionId) (decoder : Bool) : AudioEngine :=
  if x.streams.any (fun stream => stream.1 = sender) || !decoder then x
  else { x with streams := x.streams ++ [(sender, session)] }

/-- A connection, with what its server holds as our voice state. -/
structure ActiveSession where
  id : SessionId
  heard : VoiceState
  deriving DecidableEq

/-- What `SetVoiceState` makes of it. Deafening implies muting. -/
def VoiceState.announced (v : VoiceState) (muted deafened : Bool) : VoiceState :=
  { v with selfMuted := muted || deafened, selfDeafened := deafened }

/-- An engine that has been replaced lives on, for whoever still holds it. `pumps`
are the event pumps that wait for an event, `dropped` the sessions of those that
have received `Disconnected`. -/
structure AppState where
  engines : List AudioEngine
  engine : Option EngineId
  sessions : List ActiveSession
  nextSessionId : SessionId
  voice : Option SessionId
  pumps : List SessionId
  dropped : List SessionId

namespace AppState

def start : AppState := ⟨[], none, [], 1, none, [], []⟩

def modifyEngine (s : AppState) (e : EngineId) (f : AudioEngine → AudioEngine) : AppState :=
  { s with engines := s.engines.modify e f }

/-- Muted and deafened. -/
def voiceState (s : AppState) : Bool × Bool :=
  match s.engine.bind (s.engines[·]?) with
  | some x => (x.muted, x.deafened)
  | none => (false, false)

end AppState

/-- One access to a lock, or to an engine's own state. -/
inductive Access where
  | nextSessionId
  | currentEngine
  | isMuted (e : EngineId)
  | isDeafened (e : EngineId)
  | setEngineMuted (e : EngineId) (muted : Bool)
  | setEngineDeafened (e : EngineId) (deafened : Bool)
  /-- A new engine takes the slot, muted and deafened as given, or none does. -/
  | replaceEngine (new : Option (Bool × Bool))
  | clearSpeakers (e : EngineId)
  | accept (e : EngineId) (sender : ClientId) (session : SessionId) (decoder : Bool)
  | voiceSession
  | setVoice (session : SessionId)
  | clearVoice
  | clearVoiceIf (session : SessionId)
  | hasSession (session : SessionId)
  | insertSession (session : SessionId)
  | removeSession (session : SessionId)
  | sessionIds
  | sessionsEmpty
  /-- `SetVoiceState` goes to the server of every session. -/
  | tellServers (muted deafened : Bool)
  | spawnEventPump (session : SessionId)
  /-- The pump is aborted and the client disconnected. An aborted pump ends where it next waits;
  here it may still take events, in more runs than there are. -/
  | shutdown (session : SessionId)
  /-- The pump waits for its next event. -/
  | awaitEvent (session : SessionId)

namespace Access

@[reducible] def Reply : Access → Type
  | nextSessionId => SessionId
  | currentEngine => Option EngineId
  | voiceSession => Option SessionId
  | sessionIds => List SessionId
  | isMuted _ | isDeafened _ | clearVoiceIf _ | hasSession _ | removeSession _ | sessionsEmpty => Bool
  | _ => Unit

def perform : (a : Access) → AppState → a.Reply × AppState
  | nextSessionId, s => (s.nextSessionId, { s with nextSessionId := s.nextSessionId + 1 })
  | currentEngine, s => (s.engine, s)
  | isMuted e, s => ((s.engines[e]?).any AudioEngine.muted, s)
  | isDeafened e, s => ((s.engines[e]?).any AudioEngine.deafened, s)
  | setEngineMuted e muted, s => ((), s.modifyEngine e fun x => { x with muted })
  | setEngineDeafened e deafened, s => ((), s.modifyEngine e fun x => { x with deafened })
  | replaceEngine none, s => ((), { s with engine := none })
  | replaceEngine (some (muted, deafened)), s =>
    ((), { s with engines := s.engines ++ [⟨muted, deafened, []⟩], engine := some s.engines.length })
  | clearSpeakers e, s => ((), s.modifyEngine e fun x => { x with streams := [] })
  | accept e sender session decoder, s => ((), s.modifyEngine e fun x => x.accept sender session decoder)
  | voiceSession, s => (s.voice, s)
  | setVoice session, s => ((), { s with voice := some session })
  | clearVoice, s => ((), { s with voice := none })
  | clearVoiceIf session, s => if s.voice = some session then (true, { s with voice := none }) else (false, s)
  | hasSession session, s => (s.sessions.any fun c => c.id = session, s)
  | insertSession session, s => ((), { s with sessions := s.sessions ++ [⟨session, {}⟩] })
  | removeSession session, s =>
    (s.sessions.any fun c => c.id = session, { s with sessions := s.sessions.filter fun c => c.id ≠ session })
  | sessionIds, s => (s.sessions.map ActiveSession.id, s)
  | sessionsEmpty, s => (s.sessions.isEmpty, s)
  | tellServers muted deafened, s =>
    ((), { s with sessions := s.sessions.map fun c => { c with heard := c.heard.announced muted deafened } })
  | spawnEventPump session, s => ((), { s with pumps := s.pumps ++ [session] })
  | shutdown _, s => ((), s)
  | awaitEvent session, s => ((), { s with pumps := s.pumps ++ [session] })

end Access

abbrev App (α : Type) := Prog Access Access.Reply α

def call (a : Access) : App a.Reply := Prog.call a

/-! ## `AppState` -/

/-- Whether the audio devices can be opened is not up to us. -/
def startAudio (opens : Bool) : App Bool := do
  let carried ← match ← call .currentEngine with
    | none => pure (false, false)
    | some old => do
      let muted ← call (.isMuted old)
      let deafened ← call (.isDeafened old)
      pure (muted, deafened)
  if !opens then return false
  call (.replaceEngine (some carried))
  return true

def ensureAudio (opens : Bool) : App Bool := do
  match ← call .currentEngine with
  | some _ => return true
  | none => startAudio opens

def stopAudio : App Unit := call (.replaceEngine none)

/-- What follows a change of the route away from a session. -/
def clearSpeakers : App Unit := do
  match ← call .currentEngine with
  | some engine => call (.clearSpeakers engine)
  | none => return ()

def routeVoice (session : SessionId) : App Unit := do
  if !(← call (.hasSession session)) then return ()
  if (← call .voiceSession) = some session then return ()
  call (.setVoice session)
  clearSpeakers

def announceVoiceState (engine : EngineId) : App Unit := do
  let muted ← call (.isMuted engine)
  let deafened ← call (.isDeafened engine)
  call (.tellServers muted deafened)

def setMuted (muted : Bool) : App Unit := do
  match ← call .currentEngine with
  | none => return ()
  | some engine =>
    call (.setEngineMuted engine muted)
    announceVoiceState engine

def setDeafened (deafened : Bool) : App Unit := do
  match ← call .currentEngine with
  | none => return ()
  | some engine =>
    call (.setEngineDeafened engine deafened)
    -- Deafening implies muting; undeafening leaves it.
    if deafened then call (.setEngineMuted engine true)
    announceVoiceState engine

def toggleMuted : App Unit := do
  match ← call .currentEngine with
  | none => return ()
  | some engine =>
    let muted ← call (.isMuted engine)
    setMuted (!muted)

def toggleDeafened : App Unit := do
  match ← call .currentEngine with
  | none => return ()
  | some engine =>
    let deafened ← call (.isDeafened engine)
    setDeafened (!deafened)

def stopIfLast : App Unit := do
  if ← call .sessionsEmpty then stopAudio

def endSession (session : SessionId) : App Unit := do
  if !(← call (.removeSession session)) then return ()
  call (.shutdown session)
  if ← call (.clearVoiceIf session) then clearSpeakers
  stopIfLast

def endSessions : List SessionId → App Unit
  | [] => return ()
  | session :: sessions => do
    endSession session
    endSessions sessions

/-- A map yields its keys in an order of its own. -/
def endAllSessions (order : List SessionId → List SessionId) : App Unit := do
  let sessions ← call .sessionIds
  endSessions (order sessions)
  call .clearVoice
  stopAudio

/-! ## Commands and event pumps -/

/-- `connect`, once its handshake is done. The first connection takes voice. -/
def connect (opens : Bool) : App Unit := do
  let session ← call .nextSessionId
  if !(← ensureAudio opens) then return ()
  call (.spawnEventPump session)
  call (.insertSession session)
  if (← call .voiceSession) = none then routeVoice session

inductive Command where
  | connect (opens : Bool)
  | disconnect (session : SessionId)
  | endAllSessions (order : List SessionId → List SessionId)
  | setVoiceSession (session : SessionId)
  | setMuted (muted : Bool)
  | setDeafened (deafened : Bool)
  | toggleMuted
  | toggleDeafened
  | startAudio (opens : Bool)
  | startAudioPreview (opens : Bool)
  | stopAudioPreview

def Command.program : Command → App Unit
  | connect opens => PickleChat.connect opens
  | disconnect session => endSession session
  | endAllSessions order => PickleChat.endAllSessions order
  | setVoiceSession session => routeVoice session
  | setMuted muted => PickleChat.setMuted muted
  | setDeafened deafened => PickleChat.setDeafened deafened
  | toggleMuted => PickleChat.toggleMuted
  | toggleDeafened => PickleChat.toggleDeafened
  | startAudio opens => do let _ ← PickleChat.startAudio opens
  | startAudioPreview opens => do let _ ← ensureAudio opens
  | stopAudioPreview => stopIfLast

inductive PumpEvent where
  | voice (sender : ClientId) (decoder : Bool)
  | disconnected

/-- One turn of an event pump; `Disconnected` is its last. -/
def handleEvent (session : SessionId) : PumpEvent → App Unit
  | .voice sender decoder => do
    if (← call .voiceSession) = some session then
      match ← call .currentEngine with
      | some engine => call (.accept engine sender session decoder)
      | none => pure ()
    call (.awaitEvent session)
  | .disconnected => do
    if ← call (.clearVoiceIf session) then clearSpeakers

/-! ## Runs -/

abbrev Desktop := System AppState Access Access.Reply

inductive DesktopStep where
  | call (c : Command)
  | event (session : SessionId) (e : PumpEvent)
  | run (i : Nat)
  /-- The mixer releases a stream that has been silent for long. -/
  | idle (e : EngineId) (sender : ClientId)

namespace Desktop

def initial : Desktop := ⟨.start, []⟩

def exec (w : Desktop) : DesktopStep → Option Desktop
  | .call c => some (w.start c.program)
  | .event session e =>
    if session ∈ w.shared.pumps then
      let dropped := match e with
        | .voice _ _ => w.shared.dropped
        | .disconnected => session :: w.shared.dropped
      some ⟨{ w.shared with pumps := w.shared.pumps.erase session, dropped }, w.threads ++ [handleEvent session e]⟩
    else none
  | .run i => w.act Access.perform i
  | .idle e sender =>
    some { w with shared := w.shared.modifyEngine e fun x =>
      { x with streams := x.streams.filter fun stream => stream.1 ≠ sender } }

end Desktop

end PickleChat
