import PickleChat.MessageIds

/-!
# Sending a message, from end to end

A message that may be sent is stored first and then queued, once for everyone
who may view its channel, the author's copy with the nonce. Any other message
leaves no trace but an error for its author.
-/

namespace PickleChat

open Async (exec Task)

/-- The author is connected, and the message and the channel pass the checks. -/
structure MaySend (s : Shared) (client : ClientId) (channel : ChannelId) (content : String) (author : UserInfo) :
    Prop where
  author : s.user client = some author
  notBlank : Text.trim content ≠ ""
  short : content.utf8ByteSize ≤ s.limits.maxMessageLen.toNat
  text : ∃ c, s.channel channel = some c ∧ c.kind.hasText = true
  view : s.can client channel .viewChannel = true
  send : s.can client channel .sendMessages = true

/-- Queues before and after a message went out. -/
structure Delivered (s t : Shared) (client : ClientId) (nonce : UInt64) (m : ChatMessage) : Prop where
  author : t.queue client = s.queue client ++ [.messagePosted m (some nonce)]
  viewers : ∀ k, k ≠ client → s.can k m.channel .viewChannel = true → t.queue k = s.queue k ++ [.messagePosted m none]
  others : ∀ k, k ≠ client → ¬ s.can k m.channel .viewChannel = true → t.queue k = s.queue k

/-- The one row that is new, under an id no row had. -/
structure StoredOnce (w w' : World) (m : ChatMessage) : Prop where
  rows : w'.db.messages.rows = w.db.messages.rows ++ [messageRow m]
  fresh : ∀ row ∈ w.db.messages.rows, row.id ≠ bigint m.id
  others : w' = { w with db := { w.db with messages := w'.db.messages } }

def Saves (perform : (op : Await) → World → op.Reply × World) (s : Shared) (w : World) (m : ChatMessage) : Prop :=
  s.store = true → (perform (.save (.insertMessage m)) w).1 = true

/-- The message goes out under a fresh id; where there is a store, what the handler does
first is to save it, with nothing queued. -/
structure SentOnce (s : Shared) (w : World) (client : ClientId) (nonce : UInt64) (m : ChatMessage)
    (first : Shared × Todo) (last : Shared × World) : Prop where
  id : m.id = s.nextMessageId
  counter : last.1.nextMessageId = s.nextMessageId + 1
  unqueued : s.store = true → first.2 = saveMessage client m nonce ∧ ∀ k, first.1.queue k = s.queue k
  stored : s.store = true → StoredOnce w last.2 m
  unstored : s.store = false → last.2 = w
  delivered : Delivered s last.1 client nonce m

section
variable {s : Shared} {client : ClientId} {channel : ChannelId} {content : String} {author : UserInfo}
  {replyTo : Option MessageId} {nonce : UInt64} {m : ChatMessage}

variable (nonce) in
theorem postMessage_delivered {e : ConnectedClient} (he : s.client? client = some e) :
    Delivered s (postMessage s client m nonce) client nonce m := by
  have hid := Shared.client?_id he
  have heq : postMessage s client m nonce = s.deliver fun i =>
      (if i.clientId = client then [.messagePosted m (some nonce)] else []) ++
        if s.hears m.channel (some client) i then [.messagePosted m none] else [] := by
    unfold postMessage
    rw [Shared.send_eq, Shared.broadcastFiltered_eq, Shared.deliver_deliver]
    rfl
  have hears : ∀ {k e'}, s.client? k = some e' → k ≠ client →
      s.hears m.channel (some client) e'.info = s.can k m.channel .viewChannel := by
    intro k e' hk hne
    have hk' := Shared.client?_id hk
    unfold Shared.hears Shared.can
    rw [hk]
    cases hc : s.channel m.channel <;> simp [hk', hne, Shared.views]
  rw [heq]
  constructor
  · simp [he, hid, Shared.hears]
  · intro k hne hcan
    obtain ⟨e', hk⟩ : ∃ e', s.client? k = some e' := by
      cases hk : s.client? k with
      | none => simp [Shared.can, hk] at hcan
      | some e' => exact ⟨e', rfl⟩
    have hk' := Shared.client?_id hk
    simp [hk, hk', hne, hears hk hne, hcan]
  · intro k hne hcan
    cases hk : s.client? k with
    | none => simp [hk]
    | some e' =>
      have hk' := Shared.client?_id hk
      simp [hk, hk', hne, hears hk hne, hcan]

theorem sendMessage_of_sendable (h : MaySend s client channel content author) :
    sendMessage client channel content replyTo nonce s =
      if s.store = true then
        (s.nextMessageIdBump.2, saveMessage client (s.buildMessage author channel content replyTo).1 nonce)
      else (postMessage s.nextMessageIdBump.2 client (s.buildMessage author channel content replyTo).1 nonce,
        .done) := by
  obtain ⟨c, hc, htext⟩ := h.text
  have hlen : ¬ content.utf8ByteSize > s.limits.maxMessageLen.toNat := Nat.not_lt.mpr h.short
  have hbump : s.nextMessageIdBump.2.store = s.store := rfl
  simp only [sendMessage, h.author, h.notBlank, hlen, hc, h.view, htext, h.send, Bool.not_true, Bool.false_eq_true,
    if_false, Shared.buildMessage, hbump]
  cases s.store <;> rfl

variable (replyTo nonce) in
theorem sendMessage_refused (h : ¬ ∃ author, MaySend s client channel content author) :
    (sendMessage client channel content replyTo nonce s).2 = .done ∧
      ∀ m, ¬ Posted s (sendMessage client channel content replyTo nonce s).1 m := by
  unfold sendMessage
  split; · exact ⟨rfl, not_posted_refl s⟩
  rename_i author hauthor
  split; · exact ⟨rfl, not_posted_refl s⟩
  rename_i hblank
  split; · exact ⟨rfl, not_posted_error s client _ _⟩
  rename_i hlen
  split; · exact ⟨rfl, not_posted_error s client _ _⟩
  rename_i c hc
  split; · exact ⟨rfl, not_posted_error s client _ _⟩
  rename_i hview
  split; · exact ⟨rfl, not_posted_error s client _ _⟩
  rename_i htext
  split; · exact ⟨rfl, not_posted_error s client _ _⟩
  rename_i hsend
  refine absurd ⟨author, hauthor, hblank, Nat.not_lt.mp hlen, ⟨c, hc, ?_⟩, ?_, ?_⟩ h
  · simpa using htext
  · simpa using hview
  · simpa using hsend

variable {perform : (op : Await) → World → op.Reply × World} (hf : Faulty perform) {w : World}
include hf

/-- A message is saved as one row under a new id, or not at all. -/
theorem save_cases (m : ChatMessage) :
    (∃ w', perform (.save (.insertMessage m)) w = (true, w') ∧ StoredOnce w w' m) ∨
      perform (.save (.insertMessage m)) w = (false, w) := by
  rcases hf.save (.insertMessage m) w with ⟨db, hdb, he⟩ | he
  · obtain ⟨t, ht, rfl⟩ := Option.map_eq_some_iff.mp hdb
    obtain ⟨hrows, hfresh⟩ := Keyed.Table.insert_rows ht
    exact .inl ⟨_, he, hrows, hfresh, rfl⟩
  · exact .inr he

theorem sendMessage_sent (h : MaySend s client channel content author)
    (hsaves : Saves perform s w (s.buildMessage author channel content replyTo).1) :
    SentOnce s w client nonce (s.buildMessage author channel content replyTo).1
      (sendMessage client channel content replyTo nonce s)
      (exec perform (sendMessage client channel content replyTo nonce) s w) := by
  obtain ⟨e, he, -⟩ := Option.map_eq_some_iff.mp h.author
  have hpost := postMessage_delivered (s := s.nextMessageIdBump.2) nonce
    (m := (s.buildMessage author channel content replyTo).1) he
  obtain ⟨f, hcounter, -⟩ := postMessage_eq s.nextMessageIdBump.2 client
      (s.buildMessage author channel content replyTo).1
    nonce
  unfold exec
  rw [sendMessage_of_sendable h]
  by_cases hstore : s.store = true
  · rw [if_pos hstore]
    have hok := hsaves hstore
    rcases save_cases hf (w := w) (s.buildMessage author channel content replyTo).1 with ⟨w', hw, hstored⟩ | hw
    · have hrun : (saveMessage client (s.buildMessage author channel content replyTo).1 nonce).run perform
          s.nextMessageIdBump.2 w = (postMessage s.nextMessageIdBump.2 client
            (s.buildMessage author channel content replyTo).1 nonce, w') := by
        rw [saveMessage, onSaved, Task.run_wait, hw]
        rfl
      dsimp only
      rw [hrun]
      refine ⟨rfl, ?_, fun _ => ⟨rfl, fun _ => rfl⟩, fun _ => hstored, fun h => absurd hstore (by simp [h]), ?_⟩
      · rw [hcounter]
        rfl
      · exact ⟨hpost.author, hpost.viewers, hpost.others⟩
    · rw [hw] at hok
      cases hok
  · rw [if_neg hstore]
    refine ⟨rfl, ?_, fun h => absurd h hstore, fun h => absurd h hstore, fun _ => rfl, ?_⟩
    · rw [Task.run_done, hcounter]
      rfl
    · exact ⟨hpost.author, hpost.viewers, hpost.others⟩

/-- A message that may be sent and is saved, where there is a store, is stored once
under a fresh id before anything is queued, and goes to its author and to everyone
else who may view the channel, once each; in any other case nothing is stored and
no message is queued. -/
theorem sendMessage_exact (s : Shared) (w : World) (client : ClientId) (channel : ChannelId) (content : String)
    (replyTo : Option MessageId) (nonce : UInt64) :
    (∀ author, MaySend s client channel content author →
      Saves perform s w (s.buildMessage author channel content replyTo).1 →
      SentOnce s w client nonce (s.buildMessage author channel content replyTo).1
        (sendMessage client channel content replyTo nonce s)
        (exec perform (sendMessage client channel content replyTo nonce) s w)) ∧
    ((¬ ∃ author, MaySend s client channel content author ∧
        Saves perform s w (s.buildMessage author channel content replyTo).1) →
      (exec perform (sendMessage client channel content replyTo nonce) s w).2 = w ∧
        ∀ m, ¬ Posted s (exec perform (sendMessage client channel content replyTo nonce) s w).1 m) := by
  refine ⟨fun author => sendMessage_sent hf, fun hnot => ?_⟩
  by_cases hsendable : ∃ author, MaySend s client channel content author
  · obtain ⟨author, hsendable⟩ := hsendable
    -- It could be sent, so it is the store that did not take it.
    have hfails : s.store = true ∧
        perform (.save (.insertMessage (s.buildMessage author channel content replyTo).1)) w = (false, w) := by
      by_contra hn
      refine hnot ⟨author, hsendable, fun hstore => ?_⟩
      rcases save_cases hf (w := w) (s.buildMessage author channel content replyTo).1 with ⟨w', hw, -⟩ | hw
      · rw [hw]
      · exact absurd ⟨hstore, hw⟩ hn
    have hrun : (saveMessage client (s.buildMessage author channel content replyTo).1 nonce).run perform
        s.nextMessageIdBump.2 w = (s.nextMessageIdBump.2.send client
          (.error .internal "the server could not save that message, so it was not sent"), w) := by
      rw [saveMessage, onSaved, Task.run_wait, hfails.2]
      rfl
    unfold exec
    rw [sendMessage_of_sendable hsendable, if_pos hfails.1, hrun]
    exact ⟨rfl, not_posted_error s.nextMessageIdBump.2 client _ _⟩
  · obtain ⟨hdone, hposted⟩ := sendMessage_refused replyTo nonce hsendable
    unfold exec
    rw [hdone, Task.run_done]
    exact ⟨rfl, hposted⟩

end

def postingServer : Shared :=
  exampleServer [exampleRole 0 0 .defaultEveryone]
    [{ id := 5, parent := none, name := "five", topic := "", kind := .text, maxUsers := none, order := 0,
       overwrites := [] }]
    [exampleClient 1 1 [] none, exampleClient 2 2 [] none]

theorem sendMessage_exact_hello :
    ∃ m, m.content = "hello" ∧ SentOnce postingServer .empty 1 9 m (sendMessage 1 5 "hello" none 9 postingServer)
      (exec Await.perform (sendMessage 1 5 "hello" none 9) postingServer .empty) :=
  ⟨_, rfl, (sendMessage_exact Await.faulty postingServer .empty 1 5 "hello" none 9).1 (exampleClient 1 1 [] none).info
    ⟨rfl, by decide +kernel, by decide +kernel, ⟨_, rfl, rfl⟩, by decide +kernel, by decide +kernel⟩ fun _ => rfl⟩

end PickleChat
