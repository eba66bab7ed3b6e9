import PickleChat.Notices

/-!
# Every administrative command is answered once

A client tells how its command went by the reply that names its nonce. A
command's handler queues it last, so the replies a client has are those of its
finished commands.
-/

namespace PickleChat

open Async (Run Pool Event Course Account)

def Shared.replies (s : Shared) (k : ClientId) : List ServerControl := (s.queue k).filter ServerControl.reply

/-- Nobody is answered. -/
def Speech (s t : Shared) : Prop := ∀ k, t.connected k = true → t.replies k = s.replies k

def speaking : Course Shared Await :=
  ⟨fun _ => True, fun s t => s.NextFree → Speech s t, fun s t => s.NextFree → Speech s t⟩

def Input.course : Input → Course Shared Await
  | .control client frame => if frame.commandNonce.isSome then answering client frame.Answer else speaking
  | _ => speaking

section
variable {s t : Shared} {k : ClientId}

theorem replies_of_noted (h : t.noted k = s.noted k) : t.replies k = s.replies k := by
  have hreply : ∀ m : ServerControl, (m.reply && m.counted) = m.reply := by
    intro m
    cases m <;> rfl
  have hfilter := congrArg (List.filter ServerControl.reply) h
  unfold Shared.noted at hfilter
  rw [List.filter_filter, List.filter_filter] at hfilter
  simpa only [hreply, Shared.replies] using hfilter

theorem Quiet.speech (h : Quiet s t) : Speech s t := fun k hk => replies_of_noted (h.noted k hk)

theorem speech_postMessage (s : Shared) (client : ClientId) (m : ChatMessage) (nonce : UInt64) :
    Speech s (postMessage s client m nonce) := by
  intro k _
  obtain ⟨f, hf, hframes⟩ := postMessage_eq s client m nonce
  have hnone : (((s.client? k).map fun e => f e.info).getD []).filter ServerControl.reply = [] := by
    refine List.filter_eq_nil_iff.mpr fun x hx => ?_
    cases he : s.client? k with
    | none =>
      rw [he] at hx
      cases hx
    | some e =>
      rw [he] at hx
      obtain ⟨n, rfl⟩ := hframes e.info x hx
      exact Bool.false_ne_true
  unfold Shared.replies
  rw [hf, Shared.queue_deliver, List.filter_append, hnone, List.append_nil]

theorem speaking_sendMessage (client : ClientId) (channel : ChannelId) (content : String) (replyTo : Option MessageId)
    (nonce : UInt64) : speaking.Holds (sendMessage client channel content replyTo nonce) := by
  intro s
  have hbump : Speech s s.nextMessageIdBump.2 := fun _ _ => rfl
  rcases sendMessage_posts s client channel content replyTo nonce with
    ⟨t, ht, he⟩ | ⟨m, -, -, ⟨-, he⟩ | he⟩ <;> rw [he]
  · exact Course.ends (C := speaking) fun _ => ht.quiet.speech
  · exact Course.ends (C := speaking) fun _ => speech_postMessage s.nextMessageIdBump.2 client m nonce
  · refine section_onSaved (C := speaking) trivial (fun _ => hbump)
      (fun u _ => ((Hush.refl u).send client rfl).quiet.speech) fun u => ?_
    exact Course.ends (C := speaking) fun _ => speech_postMessage u client m nonce

end

theorem mute_speaking {h : Handler} (hh : mute.Holds h) : speaking.Holds h :=
  hh.mono (fun _ _ => trivial) (fun _ _ h hs => (h hs).speech) fun _ _ h hs => (h hs).speech

theorem Input.follows_course (i : Input) : i.course.Holds i.handler := by
  cases i with
  | control client frame =>
    simp only [Input.course, Input.handler]
    cases hf : frame.commandNonce with
    | some nonce => exact frame.answers_command client hf
    | none =>
      by_cases hm : ∃ channel content replyTo nonce, frame = .sendMessage channel content replyTo nonce
      · obtain ⟨channel, content, replyTo, nonce, rfl⟩ := hm
        exact speaking_sendMessage client channel content replyTo nonce
      · exact mute_speaking (mute_control client hf fun _ _ _ _ he => hm ⟨_, _, _, _, he⟩)
  | connect auth => exact mute_speaking (Input.mute_handler (.connect auth) fun _ _ h => by cases h)
  | voice client packet => exact mute_speaking (Input.mute_handler (.voice client packet) fun _ _ h => by cases h)
  | disconnect client => exact mute_speaking (Input.mute_handler (.disconnect client) fun _ _ h => by cases h)
  | tick now => exact mute_speaking (Input.mute_handler (.tick now) fun _ _ h => by cases h)

/-! ## Counting -/

section
variable {ι : Type} (calls : ι → Input) (k : ClientId)

def Input.command : Input → Option UInt64
  | .control client frame => if client = k then frame.commandNonce else none
  | _ => none

def repliesAccount (kind : ServerControl → Bool) (due : ι → Nat) : Account Shared ι :=
  ⟨fun s => (s.replies k).countP kind, fun s => s.connected k = true, Shared.Sane, due⟩

variable {k} {kind : ServerControl → Bool} {due : ι → Nat}

theorem repliesAccount_gone (s : Shared) (h : ¬ (repliesAccount k kind due).live s) :
    (repliesAccount k kind due).paid s = 0 := by
  have hnone : s.client? k = none := by
    change ¬ (s.client? k).isSome = true at h
    simpa using h
  simp [repliesAccount, Shared.replies, Shared.queue, hnone]

theorem replies_send (s : Shared) (client : ClientId) {m : ServerControl} (hm : m.reply = true)
    (hk : (s.send client m).connected k = true) :
    (s.send client m).replies k = s.replies k ++ if client = k then [m] else [] := by
  unfold Shared.connected at hk
  unfold Shared.replies
  rw [Shared.send_eq, Shared.deliver_client?, Option.isSome_map] at hk
  obtain ⟨e, he⟩ := Option.isSome_iff_exists.mp hk
  rw [Shared.send_eq, Shared.queue_deliver, List.filter_append, he]
  have hid : e.info.clientId = k := Shared.client?_id he
  by_cases h : client = k
  · simp [hid, h, hm]
  · have hne : ¬ k = client := fun e => h e.symm
    simp [hid, h, hne]

theorem covers_speaking : (repliesAccount k kind due).Covers speaking 0 := by
  have hspeech : ∀ s t, Speech s t → t.connected k = true → (t.replies k).countP kind = (s.replies k).countP kind := by
    intro s t h hk
    rw [h k hk]
  exact ⟨fun s t hs h => hspeech s t (h hs.free), fun s t hs h => hspeech s t (h hs.free)⟩

theorem covers_answering {client : ClientId} {R : ServerControl → Prop} {n : Nat} (hR : ∀ m, R m → m.reply = true)
    (hself : client = k → ∀ m, R m → (if kind m then 1 else 0) = n) (hother : client ≠ k → n = 0) :
    (repliesAccount k kind due).Covers (answering client R) n := by
  refine ⟨fun s t _ h hk => ?_, ?_⟩
  · change (t.replies k).countP kind = (s.replies k).countP kind
    rw [h.quiet.speech k hk]
  · intro s t hs h hk
    obtain ⟨u, hu, ⟨rfl, hgone⟩ | ⟨m, hm, rfl⟩⟩ := h.resolve_right fun hstuck => hstuck.2 hs.walks
    · have hk : t.connected k = true := hk
      have hne : client ≠ k := by
        rintro rfl
        rw [hk] at hgone
        cases hgone
      change (t.replies k).countP kind = (s.replies k).countP kind + n
      rw [hu.quiet.speech k hk, hother hne, Nat.add_zero]
    · have hk : (u.send client m).connected k = true := hk
      have hu' : u.connected k = true := by
        unfold Shared.connected at hk ⊢
        rwa [Shared.send_eq, Shared.deliver_client?, Option.isSome_map] at hk
      change ((u.send client m).replies k).countP kind = (s.replies k).countP kind + n
      rw [replies_send u client (hR m hm) hk, List.countP_append, hu.quiet.speech k hu']
      by_cases h : client = k
      · rw [if_pos h, List.countP_singleton, hself h m hm]
      · rw [if_neg h, List.countP_nil, hother h]

/-- What a handler adds to the replies of a kind: one, where every answer to its command is of the kind. -/
theorem Input.covers (i : Input) {counts : Option UInt64 → Bool} (hnone : counts none = false)
    (hkind : ∀ frame nonce, i = .control k frame → frame.commandNonce = some nonce → ∀ m, frame.Answer m →
      kind m = counts (some nonce)) :
    (repliesAccount k kind due).Covers i.course (if counts (i.command k) then 1 else 0) := by
  cases i with
  | control client frame =>
    simp only [Input.course, Input.command]
    rcases Option.eq_none_or_eq_some frame.commandNonce with hf | ⟨nonce, hf⟩
    · simp only [hf, Option.isSome_none, ite_self, hnone]
      exact covers_speaking
    · rw [if_pos (by rw [hf]; rfl)]
      refine covers_answering (fun m hm => hm.reply) ?_ ?_
      · rintro rfl m hm
        simp [hkind frame nonce rfl hf m hm, hf]
      · intro hne
        simp [hne, hnone]
  | _ =>
    simp only [Input.course, Input.command, hnone]
    exact covers_speaking

end

/-! ## Runs -/

section
variable {ι δ : Type} [DecidableEq ι] (calls : ι → Input) (k : ClientId)

/-- From its first administrative command on, the client is connected. -/
def Stays (p : Pool Shared Await Await.Reply δ ι) : Prop :=
  ∀ i, p.jobs i ≠ none → ((calls i).command k).isSome = true → p.state.connected k = true

/-- The handlers are those of the inputs, on states that are sane, for a client that stays. -/
structure Attended (p : Pool Shared Await Await.Reply δ ι) (e : Event Shared Await Await.Reply ι) : Prop where
  sane : p.state.Sane
  stays : Stays calls k p
  handler : ∀ i h, e = .spawn i h → h = (calls i).handler
  inside : ∀ f, e ≠ .outside f

variable {calls k} {performs : (op : Await) → δ → op.Reply → δ → Prop} {p₀ p : Pool Shared Await Await.Reply δ ι}

omit [DecidableEq ι] in
theorem sum_due (P : ι → Bool) (done : List ι) :
    (done.map fun i => if P i then 1 else 0).sum = done.countP P := by
  induction done with
  | nil => rfl
  | cons i done ih =>
    rw [List.map_cons, List.sum_cons, List.countP_cons, ih, Nat.add_comm]

/-- The replies of a kind are as many as the finished commands that such replies answer. -/
theorem replies_balanced (kind : ServerControl → Bool) (counts : Option UInt64 → Bool) (hnone : counts none = false)
    (hkind : ∀ i frame nonce, calls i = .control k frame → frame.commandNonce = some nonce →
      ∀ m, frame.Answer m → kind m = counts (some nonce))
    (hjobs : ∀ i, p₀.jobs i = none) (hstart : p₀.state.replies k = [])
    (hr : Run (Pool.Step performs) (Attended calls k) p₀ p) (hlast : Stays calls k p) :
    ∃ done, p.Closed done ∧ (p.state.replies k).countP kind = done.countP fun i => counts ((calls i).command k) := by
  have hkept : ∀ q : Pool Shared Await Await.Reply δ ι, Stays calls k q →
      (repliesAccount k kind fun i => if counts ((calls i).command k) then 1 else 0).Kept q := by
    intro q hq i j hi hdue
    refine hq i (by rw [hi]; simp) ?_
    cases hc : (calls i).command k with
    | none => simp [repliesAccount, hc, hnone] at hdue
    | some nonce => rfl
  have hspawn : ∀ (q : Pool Shared Await Await.Reply δ ι) i f, Attended calls k q (.spawn i f) →
      (calls i).course.Holds f :=
    fun q i f he => he.handler i f rfl ▸ (calls i).follows_course
  have hbalanced := Account.balanced (fun i => (calls i).covers hnone (hkind i)) repliesAccount_gone hjobs
    (by simp [repliesAccount, hstart]) (fun q e he => he.sane) hspawn (fun q f he => he.inside f rfl)
    (fun q e he => hkept q he.stays) hr
    (hkept p hlast)
  obtain ⟨⟨done, hdone, hpaid⟩, -⟩ := hbalanced
  exact ⟨done, hdone, hpaid.trans (sum_due _ done)⟩

/-- Every administrative command of a client that stays is answered once, when
its handler ends: with its nonce, but for a ban list, and with none before.
Whatever else is in flight, and whether or not the store fails. -/
theorem commands_answered_once (hjobs : ∀ i, p₀.jobs i = none) (hstart : p₀.state.replies k = [])
    (hr : Run (Pool.Step performs) (Attended calls k) p₀ p) (hlast : Stays calls k p) :
    (∃ done, p.Closed done ∧
      (p.state.replies k).length = done.countP fun i => ((calls i).command k).isSome) ∧
    ∀ nonce, (∀ i, calls i ≠ .control k (.listBans nonce)) →
      (∃ done, p.Closed done ∧
        (p.state.replies k).countP (·.answers nonce) = done.countP fun i => (calls i).command k = some nonce) ∧
      ∀ i, (calls i).command k = some nonce → (∀ j, (calls j).command k = some nonce → j = i) →
        (p.Finished i → (p.state.replies k).countP (·.answers nonce) = 1) ∧
        (¬ p.Finished i → (p.state.replies k).countP (·.answers nonce) = 0) := by
  constructor
  · obtain ⟨done, hdone, hcount⟩ := replies_balanced (fun _ => true) Option.isSome rfl
      (fun _ _ _ _ _ _ _ => rfl) hjobs hstart hr hlast
    rw [List.countP_true] at hcount
    exact ⟨done, hdone, hcount⟩
  intro nonce hlist
  have hkind : ∀ i frame n, calls i = .control k frame → frame.commandNonce = some n → ∀ m, frame.Answer m →
      m.answers nonce = decide (some n = some nonce) := by
    intro i frame n hi hf m hm
    by_cases hbans : ∃ n', frame = .listBans n'
    · obtain ⟨n', rfl⟩ := hbans
      obtain rfl : n' = n := Option.some.inj hf
      have hne : n' ≠ nonce := fun he => hlist i (he ▸ hi)
      rcases hm with ⟨_, _, rfl⟩ | ⟨_, rfl⟩ <;> simp [ServerControl.answers, hne]
    · have hm : ∃ n', frame.commandNonce = some n' ∧ m.answers n' = true := by
        cases frame <;> first | exact absurd ⟨_, rfl⟩ hbans | exact hm
      obtain ⟨n', hn', hm⟩ := hm
      obtain rfl : n = n' := Option.some.inj (hf.symm.trans hn')
      cases m <;> try cases hm
      all_goals
        have hm := of_decide_eq_true hm
        simp [ServerControl.answers, hm]
  obtain ⟨done, hdone, hcount⟩ := replies_balanced (·.answers nonce) (fun o => decide (o = some nonce))
    (by simp) hkind hjobs hstart hr hlast
  refine ⟨⟨done, hdone, hcount⟩, fun i hi honly => ?_⟩
  have hsame : (done.countP fun j => decide ((calls j).command k = some nonce)) = done.countP (· == i) := by
    refine List.countP_congr fun j _ => ?_
    simp only [decide_eq_true_eq, beq_iff_eq]
    exact ⟨honly j, fun h => h ▸ hi⟩
  rw [hcount, hsame]
  refine ⟨fun hf => ?_, fun hf => ?_⟩
  · exact List.count_eq_one_of_mem hdone.1 ((hdone.2 i).mpr hf)
  · exact List.count_eq_zero_of_not_mem (mt (hdone.2 i).mp hf)

end

def unbanServer : Shared := exampleServer [exampleRole 0 0 .banMembers] [] [exampleClient 1 1 [] none]

/-- One unban of client 1, saved. -/
theorem unban_answered_once :
    ∃ p : Pool Shared Await Await.Reply Unit Unit,
      Run (Pool.Step fun _ _ _ d => d = ()) (Attended (fun _ => .control 1 (.unban 7 (.rep 2))) 1)
        ⟨unbanServer, (), fun _ => none⟩ p ∧
      p.Finished () ∧ (p.state.replies 1).countP (·.answers 7) = 1 := by
  have hpasses : unban 1 7 (.rep 2) unbanServer =
      (unbanServer, onSaved (.deleteBan (.rep 2)) (refuse · 1 7 .internal "the unban was not saved") fun s =>
        (ack s 1 7, .done)) := by
    unfold unban
    rw [if_neg (by decide), if_neg (by decide)]
  have hsane : unbanServer.Sane := sane_of_roots (by decide) fun c hc => nomatch hc
  have hattended : ∀ (jobs : Unit → Option (Async.Job Shared Await Await.Reply))
      (e : Event Shared Await Await.Reply Unit),
      (∀ i h, e = .spawn i h → h = unban 1 7 (.rep 2)) → (∀ f, e ≠ .outside f) →
      Attended (fun _ => .control 1 (.unban 7 (.rep 2))) 1 (⟨unbanServer, (), jobs⟩ : Pool _ _ _ Unit Unit) e :=
    fun _ _ hh hf => ⟨hsane, fun _ _ _ => (by decide : unbanServer.connected 1 = true), hh, hf⟩
  have hspawn : Pool.Step (fun _ _ _ d => d = ()) (⟨unbanServer, (), fun _ => none⟩ : Pool _ _ _ Unit Unit)
      (.spawn () (unban 1 7 (.rep 2))) _ := .spawn () (unban 1 7 (.rep 2)) rfl
  rw [hpasses] at hspawn
  have htaken := Run.step _ .refl (hattended _ _ (fun _ _ he => by cases he; rfl) fun _ he => by cases he) hspawn
  have hsaved := Run.step (.perform ()) htaken (hattended _ _ (fun _ _ he => by cases he) fun _ he => by cases he)
    (.perform () (r := true) rfl rfl rfl)
  have hrun := Run.step (.resume ()) hsaved (hattended _ _ (fun _ _ he => by cases he) fun _ he => by cases he)
    (.resume () rfl rfl)
  have hlast : ∀ jobs : Unit → Option (Async.Job Shared Await Await.Reply),
      Stays (fun _ => .control 1 (.unban 7 (.rep 2))) 1 (⟨ack unbanServer 1 7, (), jobs⟩ : Pool _ _ _ Unit Unit) :=
    fun _ _ _ _ => (by decide : (ack unbanServer 1 7).connected 1 = true)
  refine ⟨_, hrun, ⟨_, rfl, rfl⟩, ?_⟩
  refine (((commands_answered_once (fun _ => rfl) (by decide) hrun (hlast _)).2 7 ?_).2 () rfl fun _ _ => rfl).1
    ⟨_, rfl, rfl⟩
  intro _ h
  cases h

end PickleChat
