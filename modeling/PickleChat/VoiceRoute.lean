import PickleChat.Duties

/-!
# Where voice goes

The route is set by whoever moves voice to a session, and released by whoever
takes the session down: its event pump, when the server drops it, or the
command that closes it. Packets are handed to the mixer by the pump of the
session that holds voice, and the mixer is cleared when voice moves.
-/

namespace PickleChat

open Async (Run replay)
open Threads (Prog System)

/-! ## No dead connection -/

def AppState.Live (s : AppState) (session : SessionId) : Prop :=
  (∃ c ∈ s.sessions, c.id = session) ∧ session ∉ s.dropped

/-- Voice is not left with the session when it is gone. -/
def RouteLive (session : SessionId) (s : AppState) : Prop := s.voice = some session → s.Live session

/-- Voice moves to a session only while it is live, or somebody is about to release it. -/
def Unreleased (w : Desktop) : DesktopStep → Prop
  | .run i => ∀ session, w.next i = some (.setVoice session) →
    w.shared.Live session ∨ ∃ t ∈ w.threads, OwesRelease session t
  | _ => True

def Releasing (w : Desktop) : Prop := ∀ session, w.Owed (RouteLive session) fun _ => OwesRelease session

section
variable {w w' : Desktop}

theorem releasing_kept {i : Nat} {a : Access} {k : a.Reply → App Unit} (h : Releasing w)
    (hi : w.threads[i]? = some (.act a k)) {s : AppState} {r : a.Reply} (hvoice : s.voice = w.shared.voice)
    (hlive : ∀ session, w.shared.Live session → s.Live session)
    (hown : ∀ session, OwesRelease session (.act a k) → OwesRelease session (k r)) :
    Releasing ⟨s, w.threads.set i (k r)⟩ := by
  intro session
  apply (h session).act hi
  · exact fun hs => .inl fun hv => hlive session (hs (hvoice ▸ hv))
  · exact fun ho => .inr (hown session ho)
  · exact fun t ho => .inl ho

theorem releasing_act (h : Releasing w) (hduties : w.Heeds duties) {i : Nat} (hok : Unreleased w (.run i))
    (hl : w.act Access.perform i = some w') : Releasing w' := by
  obtain ⟨a, k, hi, rfl⟩ := System.act_some hl
  have hrule := (hduties.act hi (a.perform w.shared).1 (a.perform w.shared).2).1
  cases a with
  | setVoice session =>
    intro session'
    by_cases heq : session' = session
    · subst heq
      cases hok session' (System.next_act hi) with
      | inl hlive => exact .inl fun _ => hlive
      | inr howed => exact System.Owed.other howed hi fun ho => ho.elim
    · exact .inl fun hv => absurd (Option.some.inj hv).symm heq
  | clearVoice => exact fun session => .inl fun hv => by cases hv
  | clearVoiceIf session =>
    intro session'
    by_cases hv : w.shared.voice = some session
    · refine .inl fun hv' => ?_
      simp [Access.perform, hv] at hv'
    · have hperform : Access.perform (.clearVoiceIf session) w.shared = (false, w.shared) := by
        simp [Access.perform, hv]
      rw [hperform]
      apply (h session').act hi
      · exact fun hs => .inl hs
      · intro ho
        cases ho
        exact .inl fun hv' => absurd hv' hv
      · exact fun t ho => .inl ho
  | shutdown session => exact releasing_kept h hi rfl (fun _ hs => hs) fun _ ho => ho
  | insertSession session =>
    refine releasing_kept h hi rfl (fun session' hs => ?_) fun _ ho => ho.elim
    obtain ⟨⟨c, hc, hid⟩, hdropped⟩ := hs
    exact ⟨⟨c, by simp [Access.perform, hc], hid⟩, hdropped⟩
  | removeSession session =>
    intro session'
    apply (h session').act hi
    · intro hs
      by_cases hany : w.shared.sessions.any fun c => c.id = session
      · by_cases heq : session' = session
        · have hrelease : OwesRelease session (k true) := by
            simp only [Access.perform, hany] at hrule
            exact hrule
          exact .inr (by simpa [Access.perform, hany, heq] using hrelease)
        · refine .inl fun hv => ?_
          obtain ⟨⟨c, hc, hid⟩, hdropped⟩ := hs hv
          exact ⟨⟨c, by simp [Access.perform, hc, hid, heq], hid⟩, hdropped⟩
      · refine .inl fun hv => ?_
        obtain ⟨⟨c, hc, hid⟩, hdropped⟩ := hs hv
        simp at hany
        exact ⟨⟨c, by simp [Access.perform, hc, hany c hc], hid⟩, hdropped⟩
    · exact fun ho => ho.elim
    · exact fun t ho => .inl ho
  | tellServers muted deafened =>
    refine releasing_kept h hi rfl (fun session' hs => ?_) fun _ ho => ho.elim
    obtain ⟨⟨c, hc, hid⟩, hdropped⟩ := hs
    exact ⟨⟨_, List.mem_map_of_mem hc, hid⟩, hdropped⟩
  | replaceEngine carried =>
    cases carried with
    | none => exact releasing_kept h hi rfl (fun _ hs => hs) fun _ ho => ho.elim
    | some carried => exact releasing_kept h hi rfl (fun _ hs => hs) fun _ ho => ho.elim
  | _ => exact releasing_kept h hi rfl (fun _ hs => hs) fun _ ho => ho.elim

theorem releasing_exec {l : DesktopStep} (h : Releasing w) (hduties : w.Heeds duties) (hok : Unreleased w l)
    (hl : w.exec l = some w') : Releasing w' := by
  cases l with
  | call c =>
    obtain rfl := Option.some.inj hl
    exact fun session => (h session).start _ (fun hs => .inl hs) fun _ ho => ho
  | event session e =>
    simp only [Desktop.exec] at hl
    split at hl
    · obtain rfl := Option.some.inj hl
      intro session'
      apply (h session').start
      · intro hs
        cases e with
        | voice sender decoder => exact .inl hs
        | disconnected =>
          by_cases heq : session' = session
          · exact .inr heq.symm
          · refine .inl fun hv => ?_
            obtain ⟨hopen, hdropped⟩ := hs hv
            exact ⟨hopen, by simp [heq, hdropped]⟩
      · exact fun _ ho => ho
    · cases hl
  | run i => exact releasing_act h hduties hok hl
  | idle e sender =>
    obtain rfl := Option.some.inj hl
    exact fun session => (h session).outside (fun hs => hs) fun _ ho => ho

end

/-- In a run that moves voice to no session that is gone and released already, the microphone
ends up with a live connection or with none. -/
theorem route_live {w : Desktop} (h : Run (fun w l w' => Desktop.exec w l = some w') Unreleased .initial w)
    (hq : w.Quiet) : w.shared.voice = none ∨ ∃ session, w.shared.voice = some session ∧ w.shared.Live session := by
  have hinv : Releasing w ∧ w.Heeds duties := by
    apply h.invariant fun w => Releasing w ∧ w.Heeds duties
    · exact ⟨fun session => .inl fun hv => (by cases hv), fun t ht => (by cases ht)⟩
    · intro w l w' hw hok hl
      exact ⟨releasing_exec hw.1 hw.2 hok hl, dutiful_exec hw.2 hl⟩
  have hnone : ∀ session, ∀ t ∈ w.threads, ¬ OwesRelease session t := by
    intro session t ht ho
    have hdone := hq t ht
    cases t with
    | pure u => cases ho
    | act a k => cases hdone
  cases hv : w.shared.voice with
  | none => exact .inl rfl
  | some session => exact .inr ⟨session, rfl, (hinv.1 session).met (hnone session) hv⟩

def routesLive (w : Desktop) : DesktopStep → Bool
  | .run i =>
    match w.next i with
    | some (.setVoice session) => w.shared.sessions.any (fun c => c.id = session) && !w.shared.dropped.contains session
    | _ => true
  | _ => true

theorem routesLive_unreleased (w : Desktop) (l : DesktopStep) (h : routesLive w l = true) : Unreleased w l := by
  cases l with
  | run i =>
    intro session hnext
    simp [routesLive, hnext] at h
    exact .inl h
  | _ => trivial

/-- Two connections; the server drops the first, and voice is moved to the second. -/
def movedSteps : List DesktopStep :=
  .call (.connect true) :: List.replicate 12 (.run 0) ++ .call (.connect true) :: List.replicate 5 (.run 1) ++
    .event 1 .disconnected :: List.replicate 3 (.run 2) ++ .call (.setVoiceSession 2) :: List.replicate 5 (.run 3)

theorem route_live_moved : ∃ w : Desktop, w.shared.voice = some 2 ∧
    (w.shared.voice = none ∨ ∃ session, w.shared.voice = some session ∧ w.shared.Live session) := by
  have hmoved : (replay (fun w l => if routesLive w l then w.exec l else none) .initial movedSteps).any
      (fun w => decide (w.Quiet ∧ w.shared.voice = some 2)) = true := by decide
  obtain ⟨w, hw, hend⟩ := (Option.any_eq_true _ _).mp hmoved
  obtain ⟨hq, hv⟩ := of_decide_eq_true hend
  exact ⟨w, hv, route_live (Run.of_checked Desktop.exec routesLive routesLive_unreleased movedSteps hw) hq⟩

/-- The server drops the connection while `connect` is still on its way to the map. -/
def droppedSteps : List DesktopStep :=
  .call (.connect true) :: List.replicate 5 (.run 0) ++ [.event 1 .disconnected, .run 1] ++ List.replicate 7 (.run 0)

theorem route_live_dropped : ¬ ∀ w : Desktop, Run (fun w l w' => Desktop.exec w l = some w')
    (fun _ _ => True) .initial w →
    w.Quiet → w.shared.voice = none ∨ ∃ session, w.shared.voice = some session ∧ w.shared.Live session := by
  intro h
  have hdropped : (replay Desktop.exec .initial droppedSteps).any
      (fun w => decide (w.Quiet ∧ w.shared.voice = some 1 ∧ 1 ∈ w.shared.dropped)) = true := by decide
  obtain ⟨w, hw, hend⟩ := (Option.any_eq_true _ _).mp hdropped
  obtain ⟨hq, hv, hgone⟩ := of_decide_eq_true hend
  cases h w (Run.of_replay Desktop.exec droppedSteps hw) hq with
  | inl hnone => cases hv.symm.trans hnone
  | inr hlive =>
    obtain ⟨session, hv', hlive⟩ := hlive
    obtain rfl := Option.some.inj (hv.symm.trans hv')
    exact hlive.2 hgone

/-! ## No two servers in one mixer -/

/-- If that engine is the running one, its streams were created by the session that holds voice. -/
def Matches (e : EngineId) (s : AppState) : Prop :=
  s.engine = some e → ∀ x, s.engines[e]? = some x → ∀ stream ∈ x.streams, s.voice = some stream.2

/-- The running mixer takes a packet of the session that holds voice, or is about to be cleared, or
makes no stream of it. The route is not dropped without clearing the mixer. -/
def Aligned (w : Desktop) : DesktopStep → Prop
  | .run i =>
    match w.next i with
    | some (.accept e sender session decoder) => w.shared.engine = some e → w.shared.voice = some session ∨
      (∃ t ∈ w.threads, OwesClear e t) ∨ ∀ x, w.shared.engines[e]? = some x → x.accept sender session decoder = x
    | some .clearVoice => w.shared.voice = none
    | _ => True
  | _ => True

def Clearing (w : Desktop) : Prop := ∀ e, w.Owed (Matches e) fun _ => OwesClear e

theorem mem_accept {x : AudioEngine} {sender : ClientId} {session : SessionId} {decoder : Bool}
    {stream : ClientId × SessionId} (h : stream ∈ (x.accept sender session decoder).streams) :
    stream ∈ x.streams ∨ stream = (sender, session) := by
  unfold AudioEngine.accept at h
  split at h
  · exact .inl h
  · simpa using h

section
variable {e e' : EngineId} {s : AppState} {f : AudioEngine → AudioEngine}

theorem modifyEngine_self (x : AudioEngine) (h : (s.modifyEngine e f).engines[e]? = some x) :
    ∃ x', s.engines[e]? = some x' ∧ f x' = x := by
  simpa [AppState.modifyEngine] using h

theorem modifyEngine_ne (hne : e' ≠ e) : (s.modifyEngine e f).engines[e']? = s.engines[e']? := by
  simp [AppState.modifyEngine, Ne.symm hne]

theorem Matches.modify (h : Matches e' s) (hf : ∀ x, ∀ stream ∈ (f x).streams, stream ∈ x.streams) :
    Matches e' (s.modifyEngine e f) := by
  intro he x hx stream hstream
  by_cases heq : e' = e
  · subst heq
    obtain ⟨x', hx', rfl⟩ := modifyEngine_self x hx
    exact h he x' hx' stream (hf x' stream hstream)
  · rw [modifyEngine_ne heq] at hx
    exact h he x hx stream hstream

end

section
variable {w w' : Desktop}

theorem clearing_kept {i : Nat} {a : Access} {k : a.Reply → App Unit} (h : Clearing w)
    (hi : w.threads[i]? = some (.act a k)) {s : AppState} {r : a.Reply} (hs : ∀ e, Matches e w.shared → Matches e s)
    (hown : ∀ e, ¬ OwesClear e (.act a k)) : Clearing ⟨s, w.threads.set i (k r)⟩ :=
  fun e => (h e).kept hi (hs e) (hown e) fun _ ho => ho

theorem clearing_accept {i : Nat} {e' : EngineId} {sender : ClientId} {session : SessionId} {decoder : Bool}
    {k : Unit → App Unit} (h : Clearing w) (hi : w.threads[i]? = some (.act (.accept e' sender session decoder) k))
    (hok : Aligned w (.run i)) :
    Clearing ⟨w.shared.modifyEngine e' fun x => x.accept sender session decoder, w.threads.set i (k ())⟩ := by
  simp only [Aligned, System.next_act hi] at hok
  intro e
  by_cases hrunning : w.shared.engine = some e
  · by_cases heq : e = e'
    · subst heq
      cases hok hrunning with
      | inl hv =>
        refine (h e).kept hi (fun hm he x hx stream hstream => ?_) (fun ho => ho.elim) fun _ ho => ho
        obtain ⟨x', hx', rfl⟩ := modifyEngine_self x hx
        cases mem_accept hstream with
        | inl hold => exact hm he x' hx' stream hold
        | inr hnew => exact hnew ▸ hv
      | inr hok =>
        cases hok with
        | inl howed => exact System.Owed.other howed hi fun ho => ho.elim
        | inr hsame =>
          refine (h e).kept hi (fun hm he x hx stream hstream => ?_) (fun ho => ho.elim) fun _ ho => ho
          obtain ⟨x', hx', rfl⟩ := modifyEngine_self x hx
          rw [hsame x' hx'] at hstream
          exact hm he x' hx' stream hstream
    · refine (h e).kept hi (fun hm he x hx => ?_) (fun ho => ho.elim) fun _ ho => ho
      rw [modifyEngine_ne heq] at hx
      exact hm he x hx
  · exact .inl fun he => absurd he hrunning

theorem clearing_act (h : Clearing w) (hduties : w.Heeds duties) {i : Nat} (hok : Aligned w (.run i))
    (hl : w.act Access.perform i = some w') : Clearing w' := by
  obtain ⟨a, k, hi, rfl⟩ := System.act_some hl
  have hlt := (List.getElem?_eq_some_iff.mp hi).1
  have hrule := (hduties.act hi (a.perform w.shared).1 (a.perform w.shared).2).1
  cases a with
  | currentEngine =>
    intro e
    apply (h e).act hi
    · exact fun hm => .inl hm
    · intro ho
      obtain ⟨k', hk⟩ := ho
      by_cases he : w.shared.engine = some e
      · refine .inr ?_
        simp only [Access.perform, he, hk]
        rfl
      · exact .inl fun he' => absurd he' he
    · exact fun t ho => .inl ho
  | clearSpeakers e' =>
    intro e
    apply (h e).act hi
    · exact fun hm => .inl (hm.modify fun x stream hs => by cases hs)
    · intro ho
      cases ho
      refine .inl fun he x hx stream hstream => ?_
      obtain ⟨x', -, rfl⟩ := modifyEngine_self x hx
      cases hstream
    · exact fun t ho => .inl ho
  | accept e' sender session decoder => exact clearing_accept h hi hok
  | setVoice session => exact fun e => .inr ⟨_, List.mem_set hlt _, hrule e⟩
  | clearVoice =>
    simp only [Aligned, System.next_act hi] at hok
    refine clearing_kept h hi (fun e hm he x hx stream hstream => ?_) fun _ ho => ho.elim
    cases hok.symm.trans (hm he x hx stream hstream)
  | clearVoiceIf session =>
    by_cases hv : w.shared.voice = some session
    · have hclear : ∀ e, OwesClear e (k true) := by
        simp only [Access.perform, hv] at hrule
        exact hrule
      refine fun e => .inr ⟨_, List.mem_set hlt _, ?_⟩
      simpa [Access.perform, hv] using hclear e
    · refine clearing_kept h hi (fun e hm => ?_) fun _ ho => ho.elim
      simpa [Access.perform, hv] using hm
  | replaceEngine carried =>
    cases carried with
    | none => exact clearing_kept h hi (fun e hm he => (by cases he)) fun _ ho => ho.elim
    | some carried =>
      refine clearing_kept h hi (fun e hm he x hx stream hstream => ?_) fun _ ho => ho.elim
      -- the new engine has no streams
      obtain rfl := Option.some.inj he
      simp [Access.perform] at hx
      subst hx
      cases hstream
  | setEngineMuted e' muted => exact clearing_kept h hi (fun e hm => hm.modify fun _ _ hs => hs) fun _ ho => ho.elim
  | setEngineDeafened e' deafened => exact clearing_kept h hi (fun e hm => hm.modify fun _ _ hs => hs) fun _ ho =>
      ho.elim
  | _ => exact clearing_kept h hi (fun e hm => hm) fun _ ho => ho.elim

theorem clearing_exec {l : DesktopStep} (h : Clearing w) (hduties : w.Heeds duties) (hok : Aligned w l)
    (hl : w.exec l = some w') : Clearing w' := by
  cases l with
  | call c =>
    obtain rfl := Option.some.inj hl
    exact fun e => (h e).start _ (fun hm => .inl hm) fun _ ho => ho
  | event session ev =>
    simp only [Desktop.exec] at hl
    split at hl
    · obtain rfl := Option.some.inj hl
      exact fun e => (h e).start _ (fun hm => .inl hm) fun _ ho => ho
    · cases hl
  | run i => exact clearing_act h hduties hok hl
  | idle e' sender =>
    obtain rfl := Option.some.inj hl
    refine fun e => (h e).outside (fun hm => hm.modify fun x stream hs => ?_) fun _ ho => ho
    exact List.mem_of_mem_filter hs

end

/-- Unless a packet is handed over after voice has left its session and the mixer has been
cleared, no two servers are mixed whenever nobody is just about to clear. -/
theorem streams_match {w : Desktop} (h : Run (fun w l w' => Desktop.exec w l = some w') Aligned .initial w)
    (hsettled : ∀ t ∈ w.threads, ∀ e, ¬ OwesClear e t) : ∀ e x, w.shared.engine = some e →
    w.shared.engines[e]? = some x → ∀ stream ∈ x.streams, w.shared.voice = some stream.2 := by
  have hinv : Clearing w ∧ w.Heeds duties := by
    apply h.invariant fun w => Clearing w ∧ w.Heeds duties
    · exact ⟨fun e => .inl fun he => (by cases he), fun t ht => (by cases ht)⟩
    · intro w l w' hw hok hl
      exact ⟨clearing_exec hw.1 hw.2 hok hl, dutiful_exec hw.2 hl⟩
  intro e x he hx
  exact (hinv.1 e).met (fun t ht => hsettled t ht e) he x hx

def routeAligned (w : Desktop) : DesktopStep → Bool
  | .run i =>
    match w.next i with
    | some (.accept _ _ session _) => w.shared.voice = some session
    | some .clearVoice => w.shared.voice = none
    | _ => true
  | _ => true

theorem routeAligned_aligned (w : Desktop) (l : DesktopStep) (h : routeAligned w l = true) : Aligned w l := by
  cases l with
  | run i =>
    simp only [Aligned, routeAligned] at h ⊢
    split at h
    · exact fun _ => .inl (by simpa using h)
    · simpa using h
    · trivial
  | _ => trivial

theorem Quiet.settled {w : Desktop} (hq : w.Quiet) : ∀ t ∈ w.threads, ∀ e, ¬ OwesClear e t := by
  intro t ht e ho
  have hdone := hq t ht
  cases t with
  | pure u => cases ho
  | act a k => cases hdone

/-- Two connections, whose servers use one speaker id. -/
def twoConnected : List DesktopStep :=
  .call (.connect true) :: List.replicate 12 (.run 0) ++ .call (.connect true) :: List.replicate 5 (.run 1)

def alternatingSteps : List DesktopStep :=
  twoConnected ++ .event 1 (.voice 7 true) :: List.replicate 4 (.run 2) ++
    .call (.setVoiceSession 2) :: List.replicate 5 (.run 3) ++ .event 2 (.voice 7 true) :: List.replicate 4 (.run 4)

theorem streams_match_alternating : ∃ w : Desktop, (w.shared.engines[0]?.map AudioEngine.streams) = some [(7, 2)] ∧
    ∀ e x, w.shared.engine = some e → w.shared.engines[e]? = some x → ∀ stream ∈ x.streams,
      w.shared.voice = some stream.2 := by
  have hrun : (replay (fun w l => if routeAligned w l then w.exec l else none) .initial alternatingSteps).any (fun w =>
      decide (w.Quiet ∧ w.shared.engines[0]?.map AudioEngine.streams = some [(7, 2)])) = true := by decide
  obtain ⟨w, hw, hend⟩ := (Option.any_eq_true _ _).mp hrun
  obtain ⟨hq, hstreams⟩ := of_decide_eq_true hend
  exact ⟨w, hstreams, streams_match (Run.of_checked Desktop.exec routeAligned routeAligned_aligned alternatingSteps hw)
    (Quiet.settled hq)⟩

/-- Voice moves while the first session's pump is between its check and the mixer. -/
def strayingSteps : List DesktopStep :=
  twoConnected ++ [.event 1 (.voice 7 true), .run 2] ++ .call (.setVoiceSession 2) :: List.replicate 5 (.run 3) ++
    List.replicate 3 (.run 2)

theorem streams_match_straying : ¬ ∀ w : Desktop, Run (fun w l w' => Desktop.exec w l = some w')
    (fun _ _ => True) .initial w →
    w.Quiet → ∀ e x, w.shared.engine = some e → w.shared.engines[e]? = some x → ∀ stream ∈ x.streams,
      w.shared.voice = some stream.2 := by
  intro h
  have hrun : (replay Desktop.exec .initial strayingSteps).any (fun w => decide (w.Quiet ∧ w.shared.engine = some 0 ∧
      w.shared.engines[0]? = some ⟨false, false, [(7, 1)]⟩ ∧ w.shared.voice = some 2)) = true := by decide
  obtain ⟨w, hw, hend⟩ := (Option.any_eq_true _ _).mp hrun
  obtain ⟨hq, he, hx, hv⟩ := of_decide_eq_true hend
  have hmatch := h w (Run.of_replay Desktop.exec strayingSteps hw) hq 0 _ he hx (7, 1) (by simp)
  cases hv.symm.trans hmatch

end PickleChat
