import PickleChat.Desktop

/-!
# What a thread takes upon itself

Some accesses leave the state as it must not stay. Whoever takes one has to go
on to another, which puts the state right.
-/

namespace PickleChat

open Threads (Prog System)

/-! ## Duties -/

/-- To take the route from the session, at once. -/
def OwesRelease (session : SessionId) : App Unit → Prop
  | .act (.shutdown _) k => OwesRelease session (k ())
  | .act (.clearVoiceIf session') _ => session' = session
  | _ => False

/-- To clear the engine's mixer, at once, if it is the running one. -/
def OwesClear (e : EngineId) : App Unit → Prop
  | .act .currentEngine k => ∃ k', k (some e) = .act (.clearSpeakers e) k'
  | .act (.clearSpeakers e') _ => e' = e
  | _ => False

/-- The voice state that others get to see: deafening implies muting. -/
def effective (v : Bool × Bool) : Bool × Bool := (v.1 || v.2, v.2)

/-- Left alone from here on, the thread tells the servers that voice state. -/
def Foretells (told : Bool × Bool) : App Unit → AppState → Prop
  | .act (.setEngineMuted e muted) k, s => Foretells told (k ()) (s.modifyEngine e fun x => { x with muted })
  | .act (.isMuted e) k, s => ∃ x, s.engines[e]? = some x ∧ Foretells told (k x.muted) s
  | .act (.isDeafened e) k, s => ∃ x, s.engines[e]? = some x ∧ Foretells told (k x.deafened) s
  | .act (.tellServers muted deafened) _, _ => effective (muted, deafened) = told
  | _, _ => False

def OwesAnnouncement (s : AppState) (t : App Unit) : Prop := Foretells (effective s.voiceState) t s

/-- Who removes a session releases it, who moves the route away from one clears the mixer, and
who sets a flag tells the servers. -/
def duties : (a : Access) → a.Reply → App Unit → Prop
  | .removeSession session, true, t => OwesRelease session t
  | .setVoice _, _, t => ∀ e, OwesClear e t
  | .clearVoiceIf _, true, t => ∀ e, OwesClear e t
  | .setEngineMuted e muted, _, t => ∀ s : AppState, s.engine = some e → e < s.engines.length →
    OwesAnnouncement (s.modifyEngine e fun x => { x with muted }) t
  | .setEngineDeafened e deafened, _, t => ∀ s : AppState, s.engine = some e → e < s.engines.length →
    OwesAnnouncement (s.modifyEngine e fun x => { x with deafened }) t
  | _, _, _ => True

section
variable {t : App Unit} (f : Unit → App Unit)

theorem OwesRelease.bind {session : SessionId} (h : OwesRelease session t) : OwesRelease session (t >>= f) := by
  induction t with
  | pure u => cases h
  | act a k ih =>
    cases a with
    | shutdown session' => exact ih () h
    | clearVoiceIf session' => exact h
    | _ => cases h

theorem OwesClear.bind {e : EngineId} (h : OwesClear e t) : OwesClear e (t >>= f) := by
  cases t with
  | pure u => cases h
  | act a k =>
    cases a with
    | currentEngine =>
      obtain ⟨k', hk⟩ := h
      refine ⟨fun r => k' r >>= f, ?_⟩
      change k (some e) >>= f = _
      rw [hk]
      rfl
    | clearSpeakers e' => exact h
    | _ => cases h

theorem Foretells.bind {told : Bool × Bool} {s : AppState} (h : Foretells told t s) : Foretells told (t >>= f) s := by
  induction t generalizing s with
  | pure u => cases h
  | act a k ih =>
    cases a with
    | setEngineMuted e muted => exact ih () h
    | isMuted e =>
      obtain ⟨x, hx, h⟩ := h
      exact ⟨x, hx, ih x.muted h⟩
    | isDeafened e =>
      obtain ⟨x, hx, h⟩ := h
      exact ⟨x, hx, ih x.deafened h⟩
    | tellServers muted deafened => exact h
    | _ => cases h

end

theorem duties_bind (a : Access) (r : a.Reply) (t : App Unit) (f : Unit → App Unit) (h : duties a r t) :
    duties a r (t >>= f) := by
  cases a with
  | removeSession session =>
    cases r with
    | true => exact OwesRelease.bind f h
    | false => trivial
  | setVoice session => exact fun e => OwesClear.bind f (h e)
  | clearVoiceIf session =>
    cases r with
    | true => exact fun e => OwesClear.bind f (h e)
    | false => trivial
  | setEngineMuted e muted => exact fun s hs he => Foretells.bind f (h s hs he)
  | setEngineDeafened e deafened => exact fun s hs he => Foretells.bind f (h s hs he)
  | _ => trivial

/-! ## The programs -/

theorem clearSpeakers_owed (e : EngineId) : OwesClear e clearSpeakers := ⟨_, rfl⟩

theorem dutiful_clearSpeakers : clearSpeakers.Heeds duties := by
  intro r
  cases r with
  | none => exact ⟨trivial, trivial⟩
  | some e => exact ⟨trivial, fun _ => ⟨trivial, trivial⟩⟩

theorem dutiful_stopIfLast : stopIfLast.Heeds duties := by
  intro r
  cases r with
  | false => exact ⟨trivial, trivial⟩
  | true => exact ⟨trivial, fun _ => ⟨trivial, trivial⟩⟩

theorem dutiful_routeVoice (session : SessionId) : (routeVoice session).Heeds duties := by
  intro r
  cases r with
  | false => exact ⟨trivial, trivial⟩
  | true =>
    refine ⟨trivial, fun r => ⟨trivial, ?_⟩⟩
    change Prog.Heeds duties (if r = some session then _ else _)
    split
    · trivial
    · exact fun _ => ⟨clearSpeakers_owed, dutiful_clearSpeakers⟩

theorem dutiful_endSession (session : SessionId) : (endSession session).Heeds duties := by
  intro r
  cases r with
  | false => exact ⟨trivial, trivial⟩
  | true =>
    refine ⟨rfl, fun _ => ⟨trivial, fun b => ?_⟩⟩
    cases b with
    | false => exact ⟨trivial, dutiful_stopIfLast⟩
    | true =>
      exact ⟨fun e => (clearSpeakers_owed e).bind _, dutiful_clearSpeakers.bind duties_bind fun _ => dutiful_stopIfLast⟩

theorem dutiful_endSessions (sessions : List SessionId) : (endSessions sessions).Heeds duties := by
  induction sessions with
  | nil => trivial
  | cons session sessions ih => exact (dutiful_endSession session).bind duties_bind fun _ => ih

theorem dutiful_endAllSessions (order : List SessionId → List SessionId) : (endAllSessions order).Heeds duties :=
  fun sessions => ⟨trivial, (dutiful_endSessions (order sessions)).bind duties_bind fun _ _ =>
    ⟨trivial, fun _ => ⟨trivial, trivial⟩⟩⟩

section
variable {k : Bool → App Unit} (hk : ∀ b, (k b).Heeds duties)
include hk

theorem dutiful_startAudio (opens : Bool) : (startAudio opens >>= k).Heeds duties := by
  have hstarted : ∀ carried : Bool × Bool, Prog.Heeds duties ((if !opens then pure false else
      call (.replaceEngine (some carried)) >>= fun _ => pure true) >>= k) := by
    intro carried
    cases opens with
    | false => exact hk false
    | true => exact fun _ => ⟨trivial, hk true⟩
  intro r
  cases r with
  | none => exact ⟨trivial, hstarted (false, false)⟩
  | some old => exact ⟨trivial, fun m => ⟨trivial, fun d => ⟨trivial, hstarted (m, d)⟩⟩⟩

theorem dutiful_ensureAudio (opens : Bool) : (ensureAudio opens >>= k).Heeds duties := by
  intro r
  cases r with
  | none => exact ⟨trivial, dutiful_startAudio hk opens⟩
  | some e => exact ⟨trivial, hk true⟩

end

theorem dutiful_announceVoiceState (e : EngineId) : (announceVoiceState e).Heeds duties :=
  fun _ => ⟨trivial, fun _ => ⟨trivial, fun _ => ⟨trivial, trivial⟩⟩⟩

theorem voiceState_running {s : AppState} {e : EngineId} {x : AudioEngine} (he : s.engine = some e)
    (hx : s.engines[e]? = some x) : s.voiceState = (x.muted, x.deafened) := by
  simp [AppState.voiceState, he, hx]

theorem announceVoiceState_owed {s : AppState} {e : EngineId} (he : s.engine = some e) (hlt : e < s.engines.length) :
    OwesAnnouncement s (announceVoiceState e) := by
  have hx := List.getElem?_eq_getElem hlt
  rw [OwesAnnouncement, voiceState_running he hx]
  exact ⟨_, hx, _, hx, rfl⟩

theorem dutiful_setMuted (muted : Bool) : (setMuted muted).Heeds duties := by
  intro r
  cases r with
  | none => exact ⟨trivial, trivial⟩
  | some e =>
    refine ⟨trivial, fun _ => ⟨fun s he hlt => ?_, dutiful_announceVoiceState e⟩⟩
    exact announceVoiceState_owed he (by simpa [AppState.modifyEngine] using hlt)

theorem dutiful_setDeafened (deafened : Bool) : (setDeafened deafened).Heeds duties := by
  intro r
  cases r with
  | none => exact ⟨trivial, trivial⟩
  | some e =>
    refine ⟨trivial, fun _ => ?_⟩
    cases deafened with
    | false =>
      refine ⟨fun s he hlt => ?_, dutiful_announceVoiceState e⟩
      exact announceVoiceState_owed he (by simpa [AppState.modifyEngine] using hlt)
    | true =>
      refine ⟨fun s he hlt => ?_, fun _ => ⟨fun s he hlt => ?_, dutiful_announceVoiceState e⟩⟩
      · -- muting comes after, but makes no difference to who sees it
        have hx := List.getElem?_eq_getElem hlt
        have hdeafened : (s.modifyEngine e fun x => { x with deafened := true }).engines[e]? =
            some ⟨s.engines[e].muted, true, s.engines[e].streams⟩ := by
          simp [AppState.modifyEngine, hx]
        have hmuted : ((s.modifyEngine e fun x => { x with deafened := true }).modifyEngine e
            fun x => { x with muted := true }).engines[e]? = some ⟨true, true, s.engines[e].streams⟩ := by
          simp [AppState.modifyEngine, hx]
        have hseen : effective (s.engines[e].muted, true) = effective (true, true) := by simp [effective]
        rw [OwesAnnouncement, voiceState_running (by exact he) hdeafened, hseen]
        exact ⟨_, hmuted, _, hmuted, rfl⟩
      · exact announceVoiceState_owed he (by simpa [AppState.modifyEngine] using hlt)

theorem dutiful_connect (opens : Bool) : (connect opens).Heeds duties := by
  refine fun session => ⟨trivial, dutiful_ensureAudio (fun b => ?_) opens⟩
  cases b with
  | false => trivial
  | true =>
    refine fun _ => ⟨trivial, fun _ => ⟨trivial, fun r => ⟨trivial, ?_⟩⟩⟩
    change Prog.Heeds duties (if r = none then _ else _)
    split
    · exact dutiful_routeVoice session
    · trivial

theorem Command.dutiful (c : Command) : c.program.Heeds duties := by
  cases c with
  | connect opens => exact dutiful_connect opens
  | disconnect session => exact dutiful_endSession session
  | endAllSessions order => exact dutiful_endAllSessions order
  | setVoiceSession session => exact dutiful_routeVoice session
  | setMuted muted => exact dutiful_setMuted muted
  | setDeafened deafened => exact dutiful_setDeafened deafened
  | toggleMuted =>
    intro r
    cases r with
    | none => exact ⟨trivial, trivial⟩
    | some e => exact ⟨trivial, fun muted => ⟨trivial, dutiful_setMuted (!muted)⟩⟩
  | toggleDeafened =>
    intro r
    cases r with
    | none => exact ⟨trivial, trivial⟩
    | some e => exact ⟨trivial, fun deafened => ⟨trivial, dutiful_setDeafened (!deafened)⟩⟩
  | startAudio opens => exact dutiful_startAudio (k := fun _ => pure ()) (fun _ => trivial) opens
  | startAudioPreview opens => exact dutiful_ensureAudio (k := fun _ => pure ()) (fun _ => trivial) opens
  | stopAudioPreview => exact dutiful_stopIfLast

theorem dutiful_handleEvent (session : SessionId) (e : PumpEvent) : (handleEvent session e).Heeds duties := by
  cases e with
  | voice sender decoder =>
    refine fun r => ⟨trivial, ?_⟩
    change Prog.Heeds duties (if r = some session then _ else _)
    split
    · intro r
      cases r with
      | none => exact ⟨trivial, fun _ => ⟨trivial, trivial⟩⟩
      | some e => exact ⟨trivial, fun _ => ⟨trivial, fun _ => ⟨trivial, trivial⟩⟩⟩
    · exact fun _ => ⟨trivial, trivial⟩
  | disconnected =>
    intro b
    cases b with
    | false => exact ⟨trivial, trivial⟩
    | true => exact ⟨clearSpeakers_owed, dutiful_clearSpeakers⟩

theorem dutiful_exec {w w' : Desktop} {l : DesktopStep} (h : w.Heeds duties) (hl : w.exec l = some w') :
    w'.Heeds duties := by
  cases l with
  | call c =>
    obtain rfl := Option.some.inj hl
    exact h.start c.dutiful
  | event session e =>
    simp only [Desktop.exec] at hl
    split at hl
    · obtain rfl := Option.some.inj hl
      exact h.start (dutiful_handleEvent session e)
    · cases hl
  | run i =>
    obtain ⟨a, k, hi, rfl⟩ := System.act_some hl
    exact (h.act hi _ _).2
  | idle e sender =>
    obtain rfl := Option.some.inj hl
    exact h

end PickleChat
