import PickleChat.Notices

/-!
# One order of messages

A message gets its id when it is accepted and is posted once it is saved, so
messages may be posted in another order than their ids. Whatever the order is,
it is the same for everyone: the messages posted form one log without a
repetition, and what a client is sent of others' messages is a part of it.
-/

namespace PickleChat

open Async (Run Pool Event Task Course Protocol moved)

/-- The message of another client that a frame posts. -/
def ServerControl.posts : ServerControl → Option ChatMessage
  | .messagePosted m none => some m
  | _ => none

/-- The message that a frame gives back to its author. -/
def ServerControl.returns : ServerControl → Option ChatMessage
  | .messagePosted m (some _) => some m
  | _ => none

def Shared.heard (s : Shared) (k : ClientId) : List ChatMessage := (s.queue k).filterMap ServerControl.posts

def Shared.echoed (s : Shared) (k : ClientId) : List ChatMessage := (s.queue k).filterMap ServerControl.returns

/-- No message gets an id and none is posted. -/
structure Wordless (s t : Shared) : Prop where
  counter : t.nextMessageId = s.nextMessageId
  heard : ∀ k, t.heard k = s.heard k ∨ t.heard k = []
  echoed : ∀ k, t.connected k = true → t.echoed k = s.echoed k

/-- The message is posted to some, and goes back to its author if that is there. -/
structure Uttered (m : ChatMessage) (s t : Shared) : Prop where
  counter : t.nextMessageId = s.nextMessageId
  heard : ∀ k, t.heard k = s.heard k ∨ (m.author ≠ some k ∧ t.heard k = s.heard k ++ [m])
  echoed : ∀ k, t.connected k = true → t.echoed k = s.echoed k ++ if m.author = some k then [m] else []

section
variable {s t : Shared} {k : ClientId}

theorem heard_of_gone (h : ¬ s.connected k = true) : s.heard k = [] := by
  unfold Shared.connected at h
  unfold Shared.heard Shared.queue
  rw [Option.not_isSome_iff_eq_none.mp h]
  rfl

/-- What a client has been sent of counted frames decides what it has been sent of messages. -/
theorem messages_of_noted {f : ServerControl → Option ChatMessage} (hf : ∀ m, m.counted = false → f m = none)
    (h : t.noted k = s.noted k) : (t.queue k).filterMap f = (s.queue k).filterMap f := by
  have hnoted : ∀ s : Shared, (s.queue k).filterMap f = (s.noted k).filterMap f := by
    intro s
    unfold Shared.noted
    rw [List.filterMap_filter]
    refine List.filterMap_congr fun m _ => ?_
    cases hm : m.counted with
    | true => simp
    | false => simp [hf m hm]
  rw [hnoted, hnoted, h]

theorem Quiet.wordless (h : Quiet s t) : Wordless s t := by
  refine ⟨h.counter, fun k => ?_, fun k hk => ?_⟩
  · by_cases hk : t.connected k = true
    · exact .inl (messages_of_noted (fun m hm => by cases m <;> first | rfl | cases hm) (h.noted k hk))
    · exact .inr (heard_of_gone hk)
  · exact messages_of_noted (fun m hm => by cases m <;> first | rfl | cases hm) (h.noted k hk)

theorem messages_send {f : ServerControl → Option ChatMessage} (s : Shared) (client : ClientId) {m : ServerControl}
    (hm : f m = none) (k : ClientId) : ((s.send client m).queue k).filterMap f = (s.queue k).filterMap f := by
  rw [Shared.send_eq, Shared.queue_deliver, List.filterMap_append]
  cases s.client? k with
  | none => simp
  | some e => by_cases he : e.info.clientId = client <;> simp [he, hm]

theorem connected_deliver (s : Shared) (f : UserInfo → List ServerControl) (k : ClientId) :
    (s.deliver f).connected k = s.connected k := by
  unfold Shared.connected
  rw [Shared.deliver_client?, Option.isSome_map]

theorem Replied.wordless {client : ClientId} {R : ServerControl → Prop} (hR : ∀ m, R m → m.reply = true)
    (h : Replied client R s t) : Wordless s t := by
  obtain ⟨u, hu, ⟨rfl, -⟩ | ⟨m, hm, rfl⟩⟩ := h
  · exact hu.quiet.wordless
  · have hreply := hR m hm
    have hposts : m.posts = none := by cases m <;> first | rfl | cases hreply
    have hreturns : m.returns = none := by cases m <;> first | rfl | cases hreply
    obtain ⟨hcounter, hheard, hechoed⟩ := hu.quiet.wordless
    refine ⟨hcounter, fun k => ?_, fun k hk => ?_⟩
    · have hsent : (u.send client m).heard k = u.heard k := messages_send u client hposts k
      rw [hsent]
      exact hheard k
    · have hsent : (u.send client m).echoed k = u.echoed k := messages_send u client hreturns k
      rw [Shared.send_eq, connected_deliver] at hk
      rw [hsent]
      exact hechoed k hk

theorem uttered_postMessage (s : Shared) {client : ClientId} {m : ChatMessage} (hm : m.author = some client)
    (nonce : UInt64) : Uttered m s (postMessage s client m nonce) := by
  unfold postMessage
  rw [Shared.broadcastFiltered_eq, Shared.send_eq, Shared.deliver_deliver]
  refine ⟨rfl, fun k => ?_, fun k hk => ?_⟩
  · unfold Shared.heard
    rw [Shared.queue_deliver, List.filterMap_append]
    cases he : s.client? k with
    | none => exact .inl (by simp)
    | some e =>
      have hid : e.info.clientId = k := Shared.client?_id he
      have hecho : List.filterMap ServerControl.posts
          (if e.info.clientId = client then [.messagePosted m (some nonce)] else []) = [] := by
        split <;> rfl
      simp only [Option.map_some, Option.getD_some, List.filterMap_append, hecho, List.nil_append]
      split
      · rename_i hh
        refine .inr ⟨?_, rfl⟩
        unfold Shared.hears at hh
        simp only [decide_eq_true_eq] at hh
        rw [hm, ← hid]
        exact fun he => hh.1 he.symm
      · exact .inl (by simp)
  · rw [connected_deliver] at hk
    obtain ⟨e, he⟩ := Option.isSome_iff_exists.mp hk
    have hid : e.info.clientId = k := Shared.client?_id he
    have hothers : ∀ b : Bool,
        List.filterMap ServerControl.returns (if b then [.messagePosted m none] else []) = [] := by
      intro b
      cases b <;> rfl
    unfold Shared.echoed
    rw [Shared.queue_deliver, List.filterMap_append, he, hm]
    simp only [Option.map_some, Option.getD_some, List.filterMap_append, hothers, List.append_nil, hid,
      Option.some.injEq]
    by_cases hk : k = client
    · simp [hk, ServerControl.returns]
    · simp [hk, Ne.symm hk]

end

/-! ## Handlers -/

def Await.granted : (op : Await) → op.Reply → Bool
  | .save _, ok => ok
  | _, _ => false

/-- The message that a handler still has to store and to post. -/
def sender : Protocol Shared Await Await.Reply (Option ChatMessage) where
  offers q op := op.stores = q
  moves q op r s t q' := q' = none ∧ match q with
    | none => s.NextFree → Wordless s t
    | some m => if op.granted r then Uttered m s t else Wordless s t
  final q := q = none
  answers _ _ := True

theorem follows_of_proceeds {C : Course Shared Await} {todo : Todo} (h : todo.Proceeds C)
    (hoffers : ∀ op, C.offers op → op.stores = none) (halong : ∀ s t, C.along s t → s.NextFree → Wordless s t)
    (hlast : ∀ s t, C.last s t → s.NextFree → Wordless s t) :
    todo.Follows sender none := by
  induction todo with
  | done => rfl
  | await op effect next ih =>
    refine ⟨hoffers op h.1, fun r s _ => ?_⟩
    obtain ⟨ha, hl, hn⟩ := h.2 r s
    refine ⟨none, ⟨rfl, ?_⟩, ih r s hn⟩
    by_cases hd : next r s = .done
    · exact hlast _ _ (hl hd)
    · exact halong _ _ (ha hd)

theorem follows_saveMessage {client : ClientId} {m : ChatMessage} (hm : m.author = some client) (nonce : UInt64) :
    (saveMessage client m nonce).Follows sender (some m) := by
  refine ⟨rfl, fun (ok : Bool) s _ => ?_⟩
  cases ok with
  | true => exact ⟨none, ⟨rfl, uttered_postMessage s hm nonce⟩, rfl⟩
  | false => exact ⟨none, ⟨rfl, ((Hush.refl s).send client rfl).quiet.wordless⟩, rfl⟩

def Unheard (h : Handler) : Prop :=
  ∀ s, (s.NextFree → Wordless s (h s).1) ∧ (h s).2.Follows sender none

theorem unheard_of_course {C : Course Shared Await} {h : Handler} (hh : C.Holds h)
    (hoffers : ∀ op, C.offers op → op.stores = none) (halong : ∀ s t, C.along s t → s.NextFree → Wordless s t)
    (hlast : ∀ s t, C.last s t → s.NextFree → Wordless s t) :
    Unheard h := by
  intro s
  obtain ⟨ha, hl, hp⟩ := hh s
  refine ⟨?_, follows_of_proceeds hp hoffers halong hlast⟩
  by_cases hd : (h s).2 = .done
  · exact hlast _ _ (hl hd)
  · exact halong _ _ (ha hd)

theorem unheard_mute {h : Handler} (hh : mute.Holds h) : Unheard h :=
  unheard_of_course hh (fun _ h => h) (fun _ _ hq hs => (hq hs).wordless) fun _ _ hq hs => (hq hs).wordless

/-- A handler sends no message up to its first await and after it, or it gives
one the next id, and posts it at once or when it is saved. -/
theorem Input.begins (i : Input) (s : Shared) :
    ((s.NextFree → Wordless s (i.handler s).1) ∧ (i.handler s).2.Follows sender none) ∨
    ∃ client m nonce, m.id = s.nextMessageId ∧ m.author = some client ∧
      ((s.store = false ∧ i.handler s = (postMessage s.nextMessageIdBump.2 client m nonce, .done)) ∨
        i.handler s = (s.nextMessageIdBump.2, saveMessage client m nonce)) := by
  cases i with
  | control client frame =>
    simp only [Input.handler]
    cases hf : frame.commandNonce with
    | some nonce =>
      refine .inl (unheard_of_course (frame.answers_command client hf) (fun _ h => h)
        (fun _ _ h _ => h.quiet.wordless) ?_ s)
      rintro s t (hreplied | ⟨rfl, -⟩) -
      · exact hreplied.wordless fun _ hm => ClientControl.Answer.reply hm
      · exact (Hush.refl t).quiet.wordless
    | none =>
      by_cases hm : ∃ channel content replyTo nonce, frame = .sendMessage channel content replyTo nonce
      · obtain ⟨channel, content, replyTo, nonce, rfl⟩ := hm
        rcases sendMessage_posts s client channel content replyTo nonce with ⟨t, ht, he⟩ | ⟨m, hid, ha, he⟩
        · refine .inl ?_
          simp only [handleControl, he]
          exact ⟨fun _ => ht.quiet.wordless, rfl⟩
        · exact .inr ⟨client, m, nonce, hid, ha, he⟩
      · exact .inl (unheard_mute (mute_control client hf fun _ _ _ _ he => hm ⟨_, _, _, _, he⟩) s)
  | connect auth => exact .inl (unheard_mute (Input.mute_handler (.connect auth) fun _ _ h => by cases h) s)
  | voice client packet =>
    exact .inl (unheard_mute (Input.mute_handler (.voice client packet) fun _ _ h => by cases h) s)
  | disconnect client => exact .inl (unheard_mute (Input.mute_handler (.disconnect client) fun _ _ h => by cases h) s)
  | tick now => exact .inl (unheard_mute (Input.mute_handler (.tick now) fun _ _ h => by cases h) s)

/-! ## The log -/

section
variable {ι δ : Type}

/-- The log so far, and the messages that handlers still have to post. -/
structure Announcing (log : List ChatMessage) (q : ι → Option ChatMessage) (p : Pool Shared Await Await.Reply δ ι) :
    Prop where
  follows : p.Follows sender q
  distinct : (log.map ChatMessage.id).Nodup
  heard : ∀ k, (p.state.heard k).Sublist log
  others : ∀ k, ∀ m ∈ p.state.heard k, m.author ≠ some k
  logged : ∀ m ∈ log, m.id < p.state.nextMessageId
  held : ∀ i j m, p.jobs i = some j → q i = some m →
    m.id < p.state.nextMessageId ∧ m.id ∉ log.map ChatMessage.id
  apart : ∀ i i' j j' m m', p.jobs i = some j → p.jobs i' = some j' → q i = some m → q i' = some m' → m.id = m'.id →
    i = i'

variable [DecidableEq ι] {log : List ChatMessage} {q : ι → Option ChatMessage} {p : Pool Shared Await Await.Reply δ ι}

/-- Handler `i` has run a section that posts nothing, and has nothing left to post. -/
theorem Announcing.silent (h : Announcing log q p) {i : ι} {j : Async.Job Shared Await Await.Reply} {s : Shared} {d : δ}
    (hw : Wordless p.state s) (hf : Pool.Follows sender (⟨s, d, p.set i j⟩ : Pool Shared Await Await.Reply δ ι)
      (moved q i none)) : Announcing log (moved q i none) ⟨s, d, p.set i j⟩ := by
  have hold : ∀ i' j' m, p.set i j i' = some j' → moved q i none i' = some m → p.jobs i' = some j' ∧ q i' = some m := by
    intro i' j' m hj' hm
    rcases Async.set_eq hj' with ⟨rfl, -⟩ | ⟨hne, hj'⟩
    · rw [Async.moved_self] at hm
      cases hm
    · rw [Async.moved_ne q none hne] at hm
      exact ⟨hj', hm⟩
  refine ⟨hf, h.distinct, fun k => ?_, fun k m hm => ?_, ?_, ?_, ?_⟩
  · rcases hw.heard k with he | he <;> rw [he]
    · exact h.heard k
    · exact List.nil_sublist log
  · rcases hw.heard k with he | he
    · exact h.others k m (he ▸ hm)
    · rw [show s.heard k = [] from he] at hm
      cases hm
  · rw [show s.nextMessageId = _ from hw.counter]
    exact h.logged
  · intro i' j' m hj' hm
    obtain ⟨hj', hm⟩ := hold i' j' m hj' hm
    rw [show s.nextMessageId = _ from hw.counter]
    exact h.held i' j' m hj' hm
  · intro i₁ i₂ j₁ j₂ m₁ m₂ hj₁ hj₂ hm₁ hm₂ he
    obtain ⟨hj₁, hm₁⟩ := hold i₁ j₁ m₁ hj₁ hm₁
    obtain ⟨hj₂, hm₂⟩ := hold i₂ j₂ m₂ hj₂ hm₂
    exact h.apart i₁ i₂ j₁ j₂ m₁ m₂ hj₁ hj₂ hm₁ hm₂ he

/-- Handler `i` has posted a message of its own, with an id no other has. -/
theorem Announcing.posts (h : Announcing log q p) {i : ι} {j : Async.Job Shared Await Await.Reply} {s : Shared} {d : δ}
    {m : ChatMessage} (hu : Uttered m p.state s) (hid : m.id < p.state.nextMessageId)
    (hnew : m.id ∉ log.map ChatMessage.id)
    (hown : ∀ i' j' m', i' ≠ i → p.jobs i' = some j' → q i' = some m' → m'.id ≠ m.id)
    (hf : Pool.Follows sender (⟨s, d, p.set i j⟩ : Pool Shared Await Await.Reply δ ι) (moved q i none)) :
    Announcing (log ++ [m]) (moved q i none) ⟨s, d, p.set i j⟩ := by
  have hold : ∀ i' j' m', p.set i j i' = some j' → moved q i none i' = some m' →
      i' ≠ i ∧ p.jobs i' = some j' ∧ q i' = some m' := by
    intro i' j' m' hj' hm'
    rcases Async.set_eq hj' with ⟨rfl, -⟩ | ⟨hne, hj'⟩
    · rw [Async.moved_self] at hm'
      cases hm'
    · rw [Async.moved_ne q none hne] at hm'
      exact ⟨hne, hj', hm'⟩
  have hlog : ∀ n, n ∈ (log ++ [m]).map ChatMessage.id ↔ n ∈ log.map ChatMessage.id ∨ n = m.id := by simp
  refine ⟨hf, ?_, fun k => ?_, fun k m' hm' => ?_, ?_, ?_, ?_⟩
  · rw [List.map_append, List.nodup_append]
    refine ⟨h.distinct, by simp, fun n hn n' hn' => ?_⟩
    rw [List.mem_singleton.mp hn']
    exact fun he => hnew (he ▸ hn)
  · rcases hu.heard k with he | ⟨-, he⟩ <;> rw [he]
    · exact (h.heard k).trans (List.sublist_append_left log [m])
    · exact (h.heard k).append (List.Sublist.refl [m])
  · rcases hu.heard k with he | ⟨hne, he⟩
    · exact h.others k m' (he ▸ hm')
    · rw [show s.heard k = _ from he] at hm'
      rcases List.mem_append.mp hm' with hm' | hm'
      · exact h.others k m' hm'
      · exact List.mem_singleton.mp hm' ▸ hne
  · intro m' hm'
    rw [show s.nextMessageId = _ from hu.counter]
    rcases List.mem_append.mp hm' with hm' | hm'
    · exact h.logged m' hm'
    · exact List.mem_singleton.mp hm' ▸ hid
  · intro i' j' m' hj' hm'
    obtain ⟨hne, hj', hm'⟩ := hold i' j' m' hj' hm'
    rw [show s.nextMessageId = _ from hu.counter, hlog]
    obtain ⟨hlt, hnot⟩ := h.held i' j' m' hj' hm'
    exact ⟨hlt, not_or.mpr ⟨hnot, hown i' j' m' hne hj' hm'⟩⟩
  · intro i₁ i₂ j₁ j₂ m₁ m₂ hj₁ hj₂ hm₁ hm₂ he
    obtain ⟨-, hj₁, hm₁⟩ := hold i₁ j₁ m₁ hj₁ hm₁
    obtain ⟨-, hj₂, hm₂⟩ := hold i₂ j₂ m₂ hj₂ hm₂
    exact h.apart i₁ i₂ j₁ j₂ m₁ m₂ hj₁ hj₂ hm₁ hm₂ he

theorem lt_next {n : UInt64} (h : n ≠ 0xffffffffffffffff) : n < n + 1 := by
  have hne : n.toNat ≠ 2 ^ 64 - 1 := fun he => h (UInt64.toNat_inj.mp he)
  have hlt := n.toNat_lt
  rw [UInt64.lt_iff_toNat_lt, UInt64.toNat_add]
  simp only [UInt64.toNat_one]
  omega

omit [DecidableEq ι] in
/-- One message gets an id. -/
theorem Announcing.numbered (h : Announcing log q p) (hroom : p.state.nextMessageId ≠ 0xffffffffffffffff) :
    Announcing log q { p with state := p.state.nextMessageIdBump.2 } := by
  have hnext : p.state.nextMessageId < p.state.nextMessageId + 1 := lt_next hroom
  refine ⟨h.follows, h.distinct, h.heard, h.others, fun m hm => ?_, fun i j m hj hm => ?_, h.apart⟩
  · exact UInt64.lt_trans (h.logged m hm) hnext
  · obtain ⟨hlt, hnot⟩ := h.held i j m hj hm
    exact ⟨UInt64.lt_trans hlt hnext, hnot⟩

/-- Handler `i` has a message to post. -/
theorem Announcing.accepts (h : Announcing log q p) {i : ι} {j : Async.Job Shared Await Await.Reply} {m : ChatMessage}
    (hj : j.Follows sender (some m)) (hid : m.id < p.state.nextMessageId) (hnew : m.id ∉ log.map ChatMessage.id)
    (hown : ∀ i' j' m', p.jobs i' = some j' → q i' = some m' → m'.id ≠ m.id) :
    Announcing log (moved q i (some m)) { p with jobs := p.set i j } := by
  have hold : ∀ i' j' m', p.set i j i' = some j' → moved q i (some m) i' = some m' →
      (i' = i ∧ m' = m) ∨ (p.jobs i' = some j' ∧ q i' = some m') := by
    intro i' j' m' hj' hm'
    rcases Async.set_eq hj' with ⟨rfl, -⟩ | ⟨hne, hj'⟩
    · rw [Async.moved_self] at hm'
      exact .inl ⟨rfl, (Option.some.inj hm').symm⟩
    · rw [Async.moved_ne q (some m) hne] at hm'
      exact .inr ⟨hj', hm'⟩
  refine ⟨h.follows.set hj _ _, h.distinct, h.heard, h.others, h.logged, fun i' j' m' hj' hm' => ?_, ?_⟩
  · rcases hold i' j' m' hj' hm' with ⟨-, rfl⟩ | ⟨hj', hm'⟩
    · exact ⟨hid, hnew⟩
    · exact h.held i' j' m' hj' hm'
  · intro i₁ i₂ j₁ j₂ m₁ m₂ hj₁ hj₂ hm₁ hm₂ he
    rcases hold i₁ j₁ m₁ hj₁ hm₁ with ⟨h₁, hm₁⟩ | ⟨hj₁, hq₁⟩ <;>
      rcases hold i₂ j₂ m₂ hj₂ hm₂ with ⟨h₂, hm₂⟩ | ⟨hj₂, hq₂⟩
    · exact h₁.trans h₂.symm
    · exact absurd (he.symm.trans (congrArg ChatMessage.id hm₁)) (hown i₂ j₂ m₂ hj₂ hq₂)
    · exact absurd (he.trans (congrArg ChatMessage.id hm₂)) (hown i₁ j₁ m₁ hj₁ hq₁)
    · exact h.apart i₁ i₂ j₁ j₂ m₁ m₂ hj₁ hj₂ hq₁ hq₂ he

/-- The handlers are those of inputs, on states that have a client id and a message id left. -/
structure Handled (p : Pool Shared Await Await.Reply δ ι) (e : Event Shared Await Await.Reply ι) : Prop where
  free : p.state.NextFree
  room : p.state.nextMessageId ≠ 0xffffffffffffffff
  handler : ∀ i h, e = .spawn i h → ∃ input : Input, h = input.handler
  inside : ∀ f, e ≠ .outside f

def Returned (new : List ChatMessage) (s t : Shared) : Prop :=
  ∀ k, t.connected k = true → t.echoed k = s.echoed k ++ new.filter fun m => m.author = some k

omit [DecidableEq ι] in
theorem Uttered.returned {m : ChatMessage} {s t : Shared} (h : Uttered m s t) : Returned [m] s t := by
  intro k hk
  rw [h.echoed k hk]
  by_cases hm : m.author = some k <;> simp [hm]

omit [DecidableEq ι] in
theorem Wordless.returned {s t : Shared} (h : Wordless s t) : Returned [] s t := by
  intro k hk
  rw [h.echoed k hk, List.filter_nil, List.append_nil]

/-- A handler posts nothing up to its first await, if a store is there. -/
theorem Announcing.spawned (h : Announcing log q p) {i : ι} (hfree : p.state.NextFree)
    (hroom : p.state.nextMessageId ≠ 0xffffffffffffffff) (input : Input) :
    ∃ new x, Announcing (log ++ new) (moved q i x)
        ⟨(input.handler p.state).1, p.world, p.set i ⟨p.state, false, .waiting (input.handler p.state).2⟩⟩ ∧
      Returned new p.state (input.handler p.state).1 ∧ (p.state.store = true → new = []) := by
  have hfresh : p.state.nextMessageId ∉ log.map ChatMessage.id := by
    intro hm
    obtain ⟨m, hm, he⟩ := List.mem_map.mp hm
    exact absurd (h.logged m hm) (he ▸ UInt64.lt_irrefl _)
  have hunused : ∀ i' j' m', p.jobs i' = some j' → q i' = some m' → m'.id ≠ p.state.nextMessageId :=
    fun i' j' m' hj' hm' he => absurd (h.held i' j' m' hj' hm').1 (he ▸ UInt64.lt_irrefl _)
  rcases input.begins p.state with ⟨hw, hf⟩ | ⟨client, m, nonce, hid, ha, ⟨hstore, hpost⟩ | hsave⟩
  · refine ⟨[], none, ?_, (hw hfree).returned, fun _ => rfl⟩
    rw [List.append_nil]
    refine h.silent (hw hfree) (h.follows.set ?_ _ _)
    exact hf
  · have hu := uttered_postMessage p.state.nextMessageIdBump.2 ha nonce
    rw [hpost]
    refine ⟨[m], none, ?_, hu.returned, fun he => by rw [hstore] at he; cases he⟩
    refine (h.numbered hroom).posts hu ?_ (hid ▸ hfresh) ?_
      (h.follows.set (j := ⟨p.state, false, .waiting .done⟩) (x := none) rfl _ _)
    · rw [hid]
      exact lt_next hroom
    · exact fun i' j' m' _ hj' hm' => hid ▸ hunused i' j' m' hj' hm'
  · rw [hsave]
    refine ⟨[], some m, ?_, fun k _ => (List.append_nil _).symm, fun _ => rfl⟩
    rw [List.append_nil]
    refine (h.numbered hroom).accepts (follows_saveMessage ha nonce) ?_ (hid ▸ hfresh) ?_
    · rw [hid]
      exact lt_next hroom
    · exact fun i' j' m' hj' hm' => hid ▸ hunused i' j' m' hj' hm'

/-- The message a handler has is the one it stores. -/
theorem Announcing.performed (h : Announcing log q p) {i : ι} {j : Async.Job Shared Await Await.Reply} {op effect next}
    (hi : p.jobs i = some j) (hph : j.phase = .waiting (.await op effect next)) (r : op.Reply) (d : δ) :
    op.stores = q i ∧ Announcing log q ⟨p.state, d, p.set i ⟨j.seen, true, .answered op r effect next⟩⟩ := by
  obtain ⟨ho, hf⟩ := h.follows.perform hi hph (r := r) trivial d
  have hold : ∀ i' j', p.set i ⟨j.seen, true, .answered op r effect next⟩ i' = some j' → ∃ j₀, p.jobs i' = some j₀ := by
    intro i' j' hj'
    rcases Async.set_eq hj' with ⟨rfl, -⟩ | ⟨-, hj'⟩
    · exact ⟨j, hi⟩
    · exact ⟨j', hj'⟩
  refine ⟨ho, hf, h.distinct, h.heard, h.others, h.logged, fun i' j' m hj' hm => ?_, ?_⟩
  · obtain ⟨j₀, hj₀⟩ := hold i' j' hj'
    exact h.held i' j₀ m hj₀ hm
  · intro i₁ i₂ j₁ j₂ m₁ m₂ hj₁ hj₂ hm₁ hm₂ he
    obtain ⟨k₁, hk₁⟩ := hold i₁ j₁ hj₁
    obtain ⟨k₂, hk₂⟩ := hold i₂ j₂ hj₂
    exact h.apart i₁ i₂ k₁ k₂ m₁ m₂ hk₁ hk₂ hm₁ hm₂ he

/-- A handler that resumes posts its message if that is stored, and else nothing. -/
theorem Announcing.resumed (h : Announcing log q p) {i : ι} {j : Async.Job Shared Await Await.Reply} {op effect next}
    {r : op.Reply} (hi : p.jobs i = some j) (hph : j.phase = .answered op r effect next) (hfree : p.state.NextFree) :
    ∃ new, new = (if op.granted r then (q i).toList else []) ∧ Announcing (log ++ new) (moved q i none)
        ⟨effect r p.state, p.world, p.set i ⟨j.seen, j.begun, .waiting (next r p.state)⟩⟩ ∧
      Returned new p.state (effect r p.state) := by
  obtain ⟨-, q', ⟨rfl, hmove⟩, -, hf⟩ := h.follows.resume hi hph p.world
  have hsilent : Wordless p.state (effect r p.state) → (if op.granted r then (q i).toList else []) = [] →
      ∃ new, new = (if op.granted r then (q i).toList else []) ∧ Announcing (log ++ new) (moved q i none)
          ⟨effect r p.state, p.world, p.set i ⟨j.seen, j.begun, .waiting (next r p.state)⟩⟩ ∧
        Returned new p.state (effect r p.state) := by
    intro hw hnew
    refine ⟨[], hnew.symm, ?_, hw.returned⟩
    rw [List.append_nil]
    exact h.silent hw hf
  cases hq : q i with
  | none =>
    rw [hq] at hmove hsilent
    refine hsilent (hmove hfree) ?_
    split <;> rfl
  | some m =>
    rw [hq] at hmove hsilent
    dsimp only at hmove
    by_cases hr : op.granted r = true
    · rw [if_pos hr] at hmove ⊢
      obtain ⟨hlt, hnot⟩ := h.held i j m hi hq
      refine ⟨[m], rfl, h.posts hmove hlt hnot (fun i' j' m' hne hj' hm' he => ?_) hf, hmove.returned⟩
      exact hne (h.apart i' i j' j m' m hj' hi hm' hq he)
    · rw [if_neg hr] at hmove
      exact hsilent hmove (if_neg hr)

theorem Announcing.step {performs : (op : Await) → δ → op.Reply → δ → Prop} {p' : Pool Shared Await Await.Reply δ ι}
    {e : Event Shared Await Await.Reply ι} (h : Announcing log q p) (hok : Handled p e)
    (hst : Pool.Step performs p e p') :
    ∃ log' q', Announcing log' q' p' := by
  cases hst with
  | spawn i handler hi =>
    obtain ⟨input, rfl⟩ := hok.handler i handler rfl
    obtain ⟨new, x, hnext, -, -⟩ := h.spawned (i := i) hok.free hok.room input
    exact ⟨_, _, hnext⟩
  | @perform i j op effect next r d hi hph hp => exact ⟨log, q, (h.performed hi hph r d).2⟩
  | @resume i j op effect next r hi hph =>
    obtain ⟨new, -, hnext, -⟩ := h.resumed hi hph hok.free
    exact ⟨_, _, hnext⟩
  | outside f => exact absurd rfl (hok.inside f)

/-! ## Runs -/

omit [DecidableEq ι] in
theorem Announcing.start (hjobs : ∀ i, p.jobs i = none) (hstart : ∀ k, p.state.heard k = []) :
    Announcing [] (fun _ => none) p := by
  refine ⟨fun i j hi => ?_, List.nodup_nil, fun k => ?_, fun k m hm => ?_, fun m hm => (nomatch hm),
    fun i j m hi => ?_, fun i i' j j' m m' hi => ?_⟩
  · rw [hjobs i] at hi
    cases hi
  · rw [hstart k]
  · rw [hstart k] at hm
    cases hm
  · rw [hjobs i] at hi
    cases hi
  · rw [hjobs i] at hi
    cases hi

end

/-- Two who write and one who listens, in a text channel. -/
def hall : Shared :=
  exampleServer [exampleRole 0 0 .defaultEveryone]
    [{ id := 5, parent := none, name := "five", topic := "", kind := .text, maxUsers := none, order := 0,
       overwrites := [] }]
    [exampleClient 1 1 [] none, exampleClient 2 2 [] none, exampleClient 3 3 [] none]

theorem hall_queue (k : ClientId) : hall.queue k = [] := by
  unfold Shared.queue
  cases hk : hall.client? k with
  | none => rfl
  | some e =>
    have hm : e ∈ hall.clients := Keyed.get_mem hk
    have hnew : ∀ e ∈ hall.clients, e.control = [] := by decide
    exact hnew e hm

theorem spawns_frame {client : ClientId} {frame : ClientControl} (n : Nat) (i : Nat) (h : Handler)
    (he : (.spawn n (handleControl client frame) : Event Shared Await Await.Reply Nat) = .spawn i h) :
    ∃ input : Input, h = input.handler := by
  cases he
  exact ⟨.control client frame, rfl⟩

end PickleChat
