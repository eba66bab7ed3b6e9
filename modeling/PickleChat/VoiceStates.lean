import PickleChat.Duties

/-!
# What the servers hold of our voice state

The engine has the flags, and every server its own copy. A copy begins unset
when a session is admitted, and changes only when it is told.
-/

namespace PickleChat

open Async (Run replay)
open Threads (Prog System)

/-! ## The server's copy -/

/-- A session is heard with neither flag set: `insertSession` on the desktop's side. -/
theorem admitted_heard {s t : Shared} {identity : PublicIdentity} {nickname : String} {info : UserInfo}
    (h : s.admitUser identity nickname = .ok (info, t)) : info.voice = {} := by
  unfold Shared.admitUser at h
  split at h
  · cases h
  · split at h
    · cases h
    · split at h
      · cases h
      · cases h
        rfl

/-- Once told, the server's copy is what was announced: `tellServers` on the desktop's side. -/
theorem setVoiceState_heard {s t : Shared} {client : ClientId} {muted deafened : Bool} {info : UserInfo}
    (h : s.setVoiceState client muted deafened = some (info, t)) : ∃ i, s.user client = some i ∧
      info.voice = i.voice.announced muted deafened ∧
      t = s.modifyInfo client fun i => { i with voice := i.voice.announced muted deafened } := by
  obtain ⟨i, hi, he⟩ := Option.map_eq_some_iff.mp h
  cases he
  exact ⟨i, hi, rfl, rfl⟩

/-! ## Agreement -/

def StatesKnown (s : AppState) : Prop :=
  ∀ c ∈ s.sessions, (c.heard.selfMuted, c.heard.selfDeafened) = effective s.voiceState

/-- Nothing is set on an engine that has been replaced, nothing is told that has changed since,
nobody joins unmuted while we are muted, and no engine starts with flags of its own; unless
somebody is still to tell the servers, or none is there to be told. -/
def Told (w : Desktop) : DesktopStep → Prop
  | .run i =>
    match w.next i with
    | some (.setEngineMuted e _) | some (.setEngineDeafened e _) => w.shared.sessions = [] ∨ w.shared.engine = some e
    | some (.tellServers muted deafened) => effective (muted, deafened) = effective w.shared.voiceState ∨
      ∃ j t, i ≠ j ∧ w.threads[j]? = some t ∧ OwesAnnouncement w.shared t
    | some (.insertSession _) => effective w.shared.voiceState = (false, false) ∨
      ∃ t ∈ w.threads, OwesAnnouncement w.shared t
    | some (.replaceEngine carried) => w.shared.sessions = [] ∨ w.shared.voiceState = carried.getD (false, false)
    | _ => True
  | _ => True

/-- The servers know, or a thread is still to tell them. -/
def Announced (w : Desktop) : Prop := w.Owed StatesKnown OwesAnnouncement

def Started (s : AppState) : Prop := ∀ e, s.engine = some e → e < s.engines.length

theorem started_perform {s : AppState} (h : Started s) (a : Access) : Started (a.perform s).2 := by
  have hmodify : ∀ e f, Started (s.modifyEngine e f) := by
    intro e f e' he
    simpa [AppState.modifyEngine] using h e' he
  cases a with
  | setEngineMuted e muted => exact hmodify e _
  | setEngineDeafened e deafened => exact hmodify e _
  | clearSpeakers e => exact hmodify e _
  | accept e sender session decoder => exact hmodify e _
  | replaceEngine carried =>
    cases carried with
    | none => exact fun e he => (by cases he)
    | some carried =>
      intro e he
      cases he
      simp [Access.perform]
  | clearVoiceIf session =>
    simp only [Access.perform]
    split
    · exact h
    · exact h
  | _ => exact h

def SameFlags (s s' : AppState) : Prop :=
  ∀ (e : EngineId) (x : AudioEngine), s.engines[e]? = some x →
    ∃ x', s'.engines[e]? = some x' ∧ x'.muted = x.muted ∧ x'.deafened = x.deafened

section
variable {s s' : AppState} {e : EngineId} {f : AudioEngine → AudioEngine}

theorem SameFlags.of_engines (h : s'.engines = s.engines) : SameFlags s s' :=
  fun e x hx => ⟨x, by rw [h, hx], rfl, rfl⟩

theorem SameFlags.modifyEngine (h : SameFlags s s') (hf : ∀ x x', x'.muted = x.muted → x'.deafened = x.deafened →
    (f x').muted = (f x).muted ∧ (f x').deafened = (f x).deafened) :
    SameFlags (s.modifyEngine e f) (s'.modifyEngine e f) := by
  intro e' x hx
  simp only [AppState.modifyEngine, List.getElem?_modify] at hx ⊢
  obtain ⟨x₀, hx₀, rfl⟩ := Option.map_eq_some_iff.mp hx
  obtain ⟨x', hx', hm, hd⟩ := h e' x₀ hx₀
  refine ⟨_, by rw [hx']; rfl, ?_⟩
  by_cases heq : e = e'
  · simpa [heq] using hf x₀ x' hm hd
  · simp [heq, hm, hd]

theorem SameFlags.modified (hf : ∀ x, (f x).muted = x.muted ∧ (f x).deafened = x.deafened) :
    SameFlags s (s.modifyEngine e f) := by
  intro e' x hx
  simp only [AppState.modifyEngine, List.getElem?_modify, hx]
  by_cases heq : e = e'
  · simp [heq, hf x]
  · simp [heq]

theorem Foretells.congr {told : Bool × Bool} {t : App Unit} (h : Foretells told t s) (hsame : SameFlags s s') :
    Foretells told t s' := by
  induction t generalizing s s' with
  | pure u => cases h
  | act a k ih =>
    cases a with
    | setEngineMuted e muted =>
      exact ih () h (hsame.modifyEngine fun x x' _ hd => ⟨rfl, hd⟩)
    | isMuted e =>
      obtain ⟨x, hx, h⟩ := h
      obtain ⟨x', hx', hm, -⟩ := hsame e x hx
      exact ⟨x', hx', ih x'.muted (hm ▸ h) hsame⟩
    | isDeafened e =>
      obtain ⟨x, hx, h⟩ := h
      obtain ⟨x', hx', -, hd⟩ := hsame e x hx
      exact ⟨x', hx', ih x'.deafened (hd ▸ h) hsame⟩
    | tellServers muted deafened => exact h
    | _ => cases h

theorem SameFlags.voiceState (h : SameFlags s s') (hengine : s'.engine = s.engine) (hstarted : Started s) :
    s'.voiceState = s.voiceState := by
  cases he : s.engine with
  | none => simp [AppState.voiceState, hengine, he]
  | some e =>
    have hx := List.getElem?_eq_getElem (hstarted e he)
    obtain ⟨x', hx', hm, hd⟩ := h e _ hx
    rw [voiceState_running he hx, voiceState_running (hengine.trans he) hx', hm, hd]

end

section
variable {w w' : Desktop}

theorem known_kept {i : Nat} {a : Access} {k : a.Reply → App Unit} (h : Announced w)
    (hi : w.threads[i]? = some (.act a k)) {s : AppState} {r : a.Reply} (hflags : SameFlags w.shared s)
    (hv : s.voiceState = w.shared.voiceState) (hsessions : ∀ c ∈ s.sessions, c ∈ w.shared.sessions)
    (hown : ∀ told, Foretells told (.act a k) w.shared → Foretells told (k r) s) :
    Announced ⟨s, w.threads.set i (k r)⟩ := by
  apply System.Owed.act h hi
  · exact fun hk => .inl fun c hc => hv ▸ hk c (hsessions c hc)
  · intro ho
    refine .inr ?_
    rw [OwesAnnouncement, hv]
    exact hown _ ho
  · intro t ho
    refine .inl ?_
    rw [OwesAnnouncement, hv]
    exact Foretells.congr ho hflags

/-- Setting a flag of the running engine leaves the thread with an announcement to make. -/
theorem known_set {i : Nat} {a : Access} {k : a.Reply → App Unit}
    (hi : w.threads[i]? = some (.act a k)) {s : AppState} {r : a.Reply} {e : EngineId}
    (hok : w.shared.sessions = [] ∨ w.shared.engine = some e) (hstarted : Started w.shared)
    (hsessions : s.sessions = w.shared.sessions)
    (hrule : w.shared.engine = some e → e < w.shared.engines.length → OwesAnnouncement s (k r)) :
    Announced ⟨s, w.threads.set i (k r)⟩ := by
  cases hok with
  | inl hempty => exact .inl fun c hc => by simp [hsessions, hempty] at hc
  | inr he =>
    have ho := hrule he (hstarted e he)
    exact .inr ⟨k r, List.mem_set (List.getElem?_eq_some_iff.mp hi).1 _, ho⟩

theorem known_tellServers {i : Nat} {muted deafened : Bool} {k : Unit → App Unit}
    (hi : w.threads[i]? = some (.act (.tellServers muted deafened) k)) (hok : Told w (.run i)) :
    Announced
      ⟨(Access.perform (.tellServers muted deafened) w.shared).2, w.threads.set i (k ())⟩ := by
  simp only [Told, System.next_act hi] at hok
  cases hok with
  | inl hsame =>
    refine .inl fun c hc => ?_
    obtain ⟨c', -, rfl⟩ := List.mem_map.mp hc
    exact hsame
  | inr howed =>
    obtain ⟨j, t, hij, hj, ho⟩ := howed
    exact .inr ⟨t, Threads.System.mem_set_ne hij hj, Foretells.congr ho (.of_engines rfl)⟩

theorem known_insertSession {i : Nat} {session : SessionId} {k : Unit → App Unit} (h : Announced w)
    (hi : w.threads[i]? = some (.act (.insertSession session) k)) (hok : Told w (.run i)) :
    Announced ⟨(Access.perform (.insertSession session) w.shared).2, w.threads.set i (k ())⟩ := by
  simp only [Told, System.next_act hi] at hok
  have hkeep : ∀ t, OwesAnnouncement w.shared t →
      OwesAnnouncement (Access.perform (.insertSession session) w.shared).2 t :=
    fun t ho => Foretells.congr ho (.of_engines rfl)
  cases hok with
  | inl hunset =>
    refine System.Owed.kept h hi (fun hk c hc => ?_) (fun ho => ho.elim) hkeep
    cases List.mem_append.mp hc with
    | inl hold => exact hk c hold
    | inr hnew =>
      obtain rfl := List.mem_singleton.mp hnew
      exact hunset.symm
  | inr howed =>
    obtain ⟨t, ht, ho⟩ := howed
    exact System.Owed.other ⟨t, ht, hkeep t ho⟩ hi fun ho => ho.elim

theorem known_replaceEngine {i : Nat} {carried : Option (Bool × Bool)} {k : Unit → App Unit}
    (h : Announced w) (hi : w.threads[i]? = some (.act (.replaceEngine carried) k))
    (hok : Told w (.run i)) :
    Announced ⟨(Access.perform (.replaceEngine carried) w.shared).2, w.threads.set i (k ())⟩ := by
  simp only [Told, System.next_act hi] at hok
  have hsessions : (Access.perform (.replaceEngine carried) w.shared).2.sessions = w.shared.sessions := by
    cases carried with
    | none => rfl
    | some carried => rfl
  have hv : (Access.perform (.replaceEngine carried) w.shared).2.voiceState = carried.getD (false, false) := by
    cases carried with
    | none => rfl
    | some carried => simp [Access.perform, AppState.voiceState]
  have hflags : SameFlags w.shared (Access.perform (.replaceEngine carried) w.shared).2 := by
    cases carried with
    | none => exact .of_engines rfl
    | some carried =>
      intro e x hx
      have hlt := (List.getElem?_eq_some_iff.mp hx).1
      exact ⟨x, by simp [Access.perform, List.getElem?_append_left hlt, hx], rfl, rfl⟩
  cases hok with
  | inl hempty => exact .inl fun c hc => by simp [hsessions, hempty] at hc
  | inr hsame => exact known_kept h hi hflags (hv.trans hsame.symm) (fun c hc => hsessions ▸ hc) fun _ ho => ho.elim

theorem known_act (h : Announced w) (hduties : w.Heeds duties) (hstarted : Started w.shared) {i : Nat}
    (hok : Told w (.run i)) (hl : w.act Access.perform i = some w') : Announced w' := by
  obtain ⟨a, k, hi, rfl⟩ := System.act_some hl
  have hrule := (hduties.act hi (a.perform w.shared).1 (a.perform w.shared).2).1
  have hsame : SameFlags w.shared w.shared := .of_engines rfl
  cases a with
  | setEngineMuted e muted =>
    simp only [Told, System.next_act hi] at hok
    exact known_set hi hok hstarted rfl (hrule w.shared)
  | setEngineDeafened e deafened =>
    simp only [Told, System.next_act hi] at hok
    exact known_set hi hok hstarted rfl (hrule w.shared)
  | tellServers muted deafened => exact known_tellServers hi hok
  | insertSession session => exact known_insertSession h hi hok
  | replaceEngine carried => exact known_replaceEngine h hi hok
  | isMuted e =>
    refine known_kept h hi hsame rfl (fun c hc => hc) fun told ho => ?_
    obtain ⟨x, hx, ho⟩ := ho
    simpa [Access.perform, hx] using ho
  | isDeafened e =>
    refine known_kept h hi hsame rfl (fun c hc => hc) fun told ho => ?_
    obtain ⟨x, hx, ho⟩ := ho
    simpa [Access.perform, hx] using ho
  | clearSpeakers e =>
    have hflags : SameFlags w.shared (Access.perform (.clearSpeakers e) w.shared).2 := .modified fun x => ⟨rfl, rfl⟩
    exact known_kept h hi hflags (hflags.voiceState rfl hstarted) (fun c hc => hc) fun _ ho => ho.elim
  | accept e sender session decoder =>
    have hflags : SameFlags w.shared (Access.perform (.accept e sender session decoder) w.shared).2 := by
      apply SameFlags.modified
      intro x
      unfold AudioEngine.accept
      split
      · exact ⟨rfl, rfl⟩
      · exact ⟨rfl, rfl⟩
    exact known_kept h hi hflags (hflags.voiceState rfl hstarted) (fun c hc => hc) fun _ ho => ho.elim
  | removeSession session =>
    exact known_kept h hi (.of_engines rfl) rfl (fun c hc => List.mem_of_mem_filter hc) fun _ ho => ho.elim
  | clearVoiceIf session =>
    simp only [Access.perform]
    split
    · exact known_kept h hi (.of_engines rfl) rfl (fun c hc => hc) fun _ ho => ho.elim
    · exact known_kept h hi hsame rfl (fun c hc => hc) fun _ ho => ho.elim
  | _ => exact known_kept h hi (.of_engines rfl) rfl (fun c hc => hc) fun _ ho => ho.elim

theorem known_exec {l : DesktopStep} (h : Announced w) (hduties : w.Heeds duties)
    (hstarted : Started w.shared) (hok : Told w l) (hl : w.exec l = some w') : Announced w' := by
  cases l with
  | call c =>
    obtain rfl := Option.some.inj hl
    exact System.Owed.start h _ (fun hk => .inl hk) fun _ ho => ho
  | event session e =>
    simp only [Desktop.exec] at hl
    split at hl
    · obtain rfl := Option.some.inj hl
      exact System.Owed.start h _ (fun hk => .inl hk) fun t ho => Foretells.congr ho (.of_engines rfl)
    · cases hl
  | run i => exact known_act h hduties hstarted hok hl
  | idle e sender =>
    obtain rfl := Option.some.inj hl
    have hflags : SameFlags w.shared (w.shared.modifyEngine e fun x =>
        { x with streams := x.streams.filter fun stream => stream.1 ≠ sender }) := .modified fun x => ⟨rfl, rfl⟩
    have hv := hflags.voiceState rfl hstarted
    apply System.Owed.outside h
    · exact fun hk c hc => hv ▸ hk c hc
    · intro t ho
      rw [OwesAnnouncement, hv]
      exact Foretells.congr ho hflags

theorem started_exec {l : DesktopStep} (h : Started w.shared) (hl : w.exec l = some w') : Started w'.shared := by
  cases l with
  | call c =>
    obtain rfl := Option.some.inj hl
    exact h
  | event session e =>
    simp only [Desktop.exec] at hl
    split at hl
    · obtain rfl := Option.some.inj hl
      exact h
    · cases hl
  | run i =>
    obtain ⟨a, k, -, rfl⟩ := System.act_some hl
    exact started_perform h a
  | idle e sender =>
    obtain rfl := Option.some.inj hl
    intro e' he
    simpa [AppState.modifyEngine] using h e' he

end

/-- In a run of steps that leave nobody untold, every server knows the local voice state whenever
no operation is in progress. -/
theorem voice_states_known {w : Desktop} (h : Run (fun w l w' => Desktop.exec w l = some w') Told .initial w)
    (hq : w.Quiet) : ∀ c ∈ w.shared.sessions,
      (c.heard.selfMuted, c.heard.selfDeafened) = effective w.shared.voiceState := by
  have hinv : Announced w ∧ w.Heeds duties ∧ Started w.shared := by
    apply h.invariant fun w => Announced w ∧ w.Heeds duties ∧ Started w.shared
    · exact ⟨.inl fun c hc => (by cases hc), fun t ht => (by cases ht), fun e he => (by cases he)⟩
    · intro w l w' hw hok hl
      exact ⟨known_exec hw.1 hw.2.1 hw.2.2 hok hl, dutiful_exec hw.2.1 hl, started_exec hw.2.2 hl⟩
  apply System.Owed.met hinv.1
  intro t ht ho
  have hdone := hq t ht
  cases t with
  | pure u => cases ho
  | act a k => cases hdone

def toldChecked (w : Desktop) : DesktopStep → Bool
  | .run i =>
    match w.next i with
    | some (.setEngineMuted e _) | some (.setEngineDeafened e _) => w.shared.engine = some e
    | some (.tellServers muted deafened) => effective (muted, deafened) = effective w.shared.voiceState
    | some (.insertSession _) => effective w.shared.voiceState = (false, false)
    | some (.replaceEngine carried) => w.shared.sessions.isEmpty || w.shared.voiceState = carried.getD (false, false)
    | _ => true
  | _ => true

theorem toldChecked_told (w : Desktop) (l : DesktopStep) (h : toldChecked w l = true) : Told w l := by
  cases l with
  | run i =>
    simp only [Told, toldChecked] at h ⊢
    split at h
    · exact .inr (by simpa using h)
    · exact .inr (by simpa using h)
    · exact .inl (by simpa using h)
    · exact .inl (by simpa using h)
    · simpa using h
    · trivial
  | _ => trivial

/-- Two connections; we deafen ourselves, and change a device. -/
def deafenedSteps : List DesktopStep :=
  .call (.connect true) :: List.replicate 12 (.run 0) ++ .call (.connect true) :: List.replicate 5 (.run 1) ++
    .call (.setDeafened true) :: List.replicate 6 (.run 2) ++ .call (.startAudio true) :: List.replicate 4 (.run 3)

theorem voice_states_known_deafened : ∃ w : Desktop, w.shared.sessions.length = 2 ∧ w.shared.voiceState = (true, true) ∧
    ∀ c ∈ w.shared.sessions, (c.heard.selfMuted, c.heard.selfDeafened) = effective w.shared.voiceState := by
  have hrun : (replay (fun w l => if toldChecked w l then w.exec l else none) .initial deafenedSteps).any (fun w =>
      decide (w.Quiet ∧ w.shared.sessions.length = 2 ∧ w.shared.voiceState = (true, true))) = true := by decide
  obtain ⟨w, hw, hend⟩ := (Option.any_eq_true _ _).mp hrun
  obtain ⟨hq, hlength, hv⟩ := of_decide_eq_true hend
  have htold := Run.of_checked Desktop.exec toldChecked toldChecked_told deafenedSteps hw
  exact ⟨w, hlength, hv, voice_states_known htold hq⟩

/-- We mute ourselves, then connect to a second server. -/
def mutedSteps : List DesktopStep :=
  .call (.connect true) :: List.replicate 12 (.run 0) ++ .call (.setMuted true) :: List.replicate 5 (.run 1) ++
    .call (.connect true) :: List.replicate 5 (.run 2)

theorem voice_states_known_muted : ¬ ∀ w : Desktop, Run (fun w l w' => Desktop.exec w l = some w') (fun _ _ => True)
    .initial w → w.Quiet → ∀ c ∈ w.shared.sessions,
      (c.heard.selfMuted, c.heard.selfDeafened) = effective w.shared.voiceState := by
  intro h
  have hrun : (replay Desktop.exec .initial mutedSteps).any (fun w =>
      decide (w.Quiet ∧ ⟨2, {}⟩ ∈ w.shared.sessions ∧ w.shared.voiceState = (true, false))) = true := by decide
  obtain ⟨w, hw, hend⟩ := (Option.any_eq_true _ _).mp hrun
  obtain ⟨hq, hc, hv⟩ := of_decide_eq_true hend
  have hknown := h w (Run.of_replay Desktop.exec mutedSteps hw) hq _ hc
  rw [hv] at hknown
  cases hknown

end PickleChat
