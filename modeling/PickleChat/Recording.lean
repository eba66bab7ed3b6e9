import PickleChat.PostOrder

/-!
# What is said is stored

Where a store is attached, a message is stored before anyone is sent it, its
author included. What is stored and not sent yet belongs to a handler that has
its answer and has not resumed.
-/

namespace PickleChat

open Async (Run Pool Event Bound moved)

/-! ## The store stays attached -/

theorem Shared.operate_store (s : Shared) (op : Operation) : (s.operate op).store = s.store := by
  cases hedit : op.edits with
  | some client =>
    rcases operate_edits s hedit with he | ⟨f, he, -⟩
    · rw [he]
    · rw [he]
      rfl
  | none =>
    cases op with
    | joinChannel | forceMove | leaveChannel | setVoiceState | setNickname | setServerMuted => cases hedit
    | send client m => simp only [operate, send_eq, deliver_store]
    | broadcast m except => simp only [operate, broadcast_eq, deliver_store]
    | broadcastFiltered m channel except => simp only [operate, broadcastFiltered_eq, deliver_store]
    | resyncVisibility before touched => simp only [operate, resyncVisibility_eq, deliver_store]
    | relayVoice sender packet =>
      simp only [operate]
      rcases s.relayVoice_cases sender packet with he | ⟨channel, -, he⟩ <;> rw [he]
    | admitUser identity nickname =>
      simp only [operate]
      cases ha : s.admitUser identity nickname with
      | error e => rfl
      | ok r =>
        obtain ⟨-, -, -, -, -, -, ht⟩ := admitUser_ok (t := r.2) ha
        simp only [Except.toOption, Option.map_some, Option.getD_some, ht]
    | removeChannelMem id =>
      simp only [operate, removeChannelMem]
      split <;> rfl
    | _ => rfl

theorem Operates.store {seen s t : Shared} (h : Operates seen s t) : t.store = s.store := by
  unfold Operates at h
  refine h.invariant (fun t => t.store = s.store) rfl fun t op u ht _ (he : u = t.operate op) => ?_
  rw [he, Shared.operate_store, ht]

/-- What a handler does with the store it finds attached. -/
def storeBound : Bound Shared Await Await.Reply :=
  ⟨fun s t => t.store = s.store, fun _ => True, fun _ => True, fun _ _ => True⟩

theorem Input.keeps_store (i : Input) : storeBound.Holds i.handler := by
  intro s
  obtain ⟨hs, htodo⟩ := i.called s
  have hcalled : (i.handler s).2.Bounded (opBound s) := htodo trivial
  refine ⟨hs.store, fun _ => ?_⟩
  exact hcalled.mono storeBound (fun _ _ => Operates.store) (fun _ => id) (fun _ => id) fun _ _ => id

/-! ## The table -/

/-- An operation that stores no message leaves the table alone. -/
theorem messages_of_silent {op : Await} {w w' : World} {r : op.Reply} (h : MayFail op w r w') (hop : op.stores = none) :
    w'.db.messages = w.db.messages := by
  rcases h with h | ⟨-, rfl⟩
  · cases h with
    | @save call w db hdb =>
      cases call with
      | insertMessage m => cases hop
      | insertRole | replaceMemberRoles | insertChannel =>
        obtain ⟨t, -, rfl⟩ := Option.map_eq_some_iff.mp hdb
        rfl
      | _ =>
        obtain rfl := Option.some.inj hdb
        rfl
    | _ => rfl
  · rfl

/-- A message is stored as one more row, or the answer is that it is not. -/
theorem messages_of_stores {op : Await} {w w' : World} {r : op.Reply} {m : ChatMessage} (h : MayFail op w r w')
    (hop : op.stores = some m) :
    (op.granted r = true ∧ w'.db.messages.rows = w.db.messages.rows ++ [messageRow m]) ∨
      (op.granted r = false ∧ w' = w) := by
  have hcall : op = .save (.insertMessage m) := by
    unfold Await.stores at hop
    split at hop
    · cases hop
      rfl
    · cases hop
  subst hcall
  rcases h with h | ⟨rfl, rfl⟩
  · cases h with
    | save hdb =>
      obtain ⟨t, ht, rfl⟩ := Option.map_eq_some_iff.mp hdb
      exact .inl ⟨rfl, (Keyed.Table.insert_rows ht).1⟩
  · exact .inr ⟨rfl, rfl⟩

/-! ## Stored, posted and in flight -/

/-- The handler has been told that the message is stored, and has not resumed. -/
def Granted (j : Async.Job Shared Await Await.Reply) (m : ChatMessage) : Prop :=
  ∃ op r effect next, j.phase = .answered op r effect next ∧ op.stores = some m ∧ op.granted r = true

theorem granted_iff {j : Async.Job Shared Await Await.Reply} {m : ChatMessage} {op : Await} {r : op.Reply} {effect next}
    (h : j.phase = .answered op r effect next) : Granted j m ↔ op.stores = some m ∧ op.granted r = true := by
  constructor
  · rintro ⟨op', r', effect', next', hph, hstores, hgranted⟩
    rw [h] at hph
    cases hph
    exact ⟨hstores, hgranted⟩
  · rintro ⟨hstores, hgranted⟩
    exact ⟨op, r, effect, next, h, hstores, hgranted⟩

theorem not_granted {j : Async.Job Shared Await Await.Reply} {todo : Todo} (h : j.phase = .waiting todo)
    (m : ChatMessage) : ¬ Granted j m := by
  rintro ⟨op, r, effect, next, hph, -⟩
  rw [h] at hph
  cases hph

section
variable {ι : Type}

/-- A message that some handler has stored and not posted yet. -/
def Unposted (p : Pool Shared Await Await.Reply World ι) (m : ChatMessage) : Prop :=
  ∃ i j, p.jobs i = some j ∧ Granted j m

structure Recorded (rows : List MessageRow) (present : ClientId → Prop) (stored log : List ChatMessage)
    (q : ι → Option ChatMessage) (p : Pool Shared Await Await.Reply World ι) : Prop where
  announcing : Announcing log q p
  attached : p.state.store = true
  bounded : ∀ i j, p.jobs i = some j → j.Bounded storeBound
  rows : p.world.db.messages.rows = rows ++ stored.map messageRow
  distinct : (stored.map ChatMessage.id).Nodup
  balance : ∀ m, m ∈ stored ↔ m ∈ log ∨ Unposted p m
  echoed : ∀ k, present k → p.state.echoed k = log.filter fun m => m.author = some k

/-- The handlers are those of inputs, and these clients are there all along. -/
structure Listening (present : ClientId → Prop) (p : Pool Shared Await Await.Reply World ι)
    (e : Event Shared Await Await.Reply ι) : Prop extends Handled p e where
  present : ∀ k, present k → p.state.connected k = true

variable [DecidableEq ι] {rows : List MessageRow} {present : ClientId → Prop} {stored log : List ChatMessage}
  {q : ι → Option ChatMessage} {p p' : Pool Shared Await Await.Reply World ι}

/-- What is in flight but for handler `i`, and what handler `i` has. -/
def UnpostedElsewhere (p : Pool Shared Await Await.Reply World ι) (i : ι) (m : ChatMessage) : Prop :=
  ∃ i' j', i' ≠ i ∧ p.jobs i' = some j' ∧ Granted j' m

theorem unposted_set {s : Shared} {w : World} {i : ι} {j : Async.Job Shared Await Await.Reply} {m : ChatMessage} :
    Unposted (⟨s, w, p.set i j⟩ : Pool Shared Await Await.Reply World ι) m ↔ Granted j m ∨ UnpostedElsewhere p i m := by
  constructor
  · rintro ⟨i', j', hj', hm⟩
    rcases Async.set_eq hj' with ⟨rfl, rfl⟩ | ⟨hne, hj'⟩
    · exact .inl hm
    · exact .inr ⟨i', j', hne, hj', hm⟩
  · rintro (hm | ⟨i', j', hne, hj', hm⟩)
    · exact ⟨i, j, Async.set_self i j, hm⟩
    · exact ⟨i', j', by simp [Pool.set, hne, hj'], hm⟩

theorem unposted_iff {i : ι} {m : ChatMessage} :
    Unposted p m ↔ (∃ j, p.jobs i = some j ∧ Granted j m) ∨ UnpostedElsewhere p i m := by
  constructor
  · rintro ⟨i', j', hj', hm⟩
    by_cases hi : i' = i
    · exact .inl ⟨j', hi ▸ hj', hm⟩
    · exact .inr ⟨i', j', hi, hj', hm⟩
  · rintro (⟨j, hj, hm⟩ | ⟨i', j', -, hj', hm⟩)
    · exact ⟨i, j, hj, hm⟩
    · exact ⟨i', j', hj', hm⟩

/-- Handler `i` goes from where it was to `j'`. -/
theorem Recorded.balance_set (h : Recorded rows present stored log q p) {s : Shared} {w : World} {i : ι}
    {j' : Async.Job Shared Await Await.Reply} {stored' log' : List ChatMessage}
    (hlog : ∀ m, m ∈ log → m ∈ log') (hold : ∀ m j, p.jobs i = some j → Granted j m → m ∈ log')
    (hstored : ∀ m, m ∈ stored' ↔ m ∈ stored ∨ Granted j' m)
    (hnew : ∀ m, m ∈ log' → m ∈ log ∨ ∃ j, p.jobs i = some j ∧ Granted j m) (m : ChatMessage) :
    m ∈ stored' ↔ m ∈ log' ∨ Unposted (⟨s, w, p.set i j'⟩ : Pool Shared Await Await.Reply World ι) m := by
  rw [hstored, h.balance, unposted_set, unposted_iff (i := i)]
  constructor
  · rintro ((hm | ⟨j, hj, hm⟩ | hm) | hm)
    · exact .inl (hlog m hm)
    · exact .inl (hold m j hj hm)
    · exact .inr (.inr hm)
    · exact .inr (.inl hm)
  · rintro (hm | hm | hm)
    · exact .inl ((hnew m hm).imp_right .inl)
    · exact .inr hm
    · exact .inl (.inr (.inr hm))

/-- A message that handler `i` has still to store is not stored. -/
theorem Recorded.unstored (h : Recorded rows present stored log q p) {i : ι} {j : Async.Job Shared Await Await.Reply}
    {m : ChatMessage} (hi : p.jobs i = some j) (hj : ∀ m, ¬ Granted j m) (hq : q i = some m) :
    m.id ∉ stored.map ChatMessage.id := by
  intro hm
  obtain ⟨m', hm', he⟩ := List.mem_map.mp hm
  obtain ⟨-, hlog⟩ := h.announcing.held i j m hi hq
  rcases (h.balance m').mp hm' with hm' | ⟨i', j', hj', hgranted⟩
  · exact hlog (he ▸ List.mem_map_of_mem hm')
  · have hanswered := hgranted
    obtain ⟨op, r, effect, next, hph, hstores, -⟩ := hanswered
    have hq' : q i' = some m' := (h.announcing.follows.resume hj' hph p.world).1.symm.trans hstores
    obtain rfl : i' = i := h.announcing.apart i' i j' j m' m hj' hi hq' hq he
    rw [hi] at hj'
    cases hj'
    exact hj m' hgranted

theorem Recorded.step {e : Event Shared Await Await.Reply ι} (h : Recorded rows present stored log q p)
    (hok : Listening present p e) (hst : Pool.Step MayFail p e p')
    (hpresent : ∀ k, present k → p'.state.connected k = true) :
    ∃ stored' log' q', Recorded rows present stored' log' q' p' := by
  obtain ⟨hattached, -, hbounded⟩ := hst.bounded (B := storeBound) (I := fun s => s.store = true) (V := fun _ => True)
    (fun _ _ hs ht _ => ht.trans hs) (fun _ _ _ _ _ _ _ => trivial)
    (fun i f he => by obtain ⟨input, rfl⟩ := hok.handler i f he; exact input.keeps_store)
    (fun f he => absurd he (hok.inside f)) (fun _ _ _ _ _ _ _ _ _ _ _ => trivial) h.attached trivial h.bounded trivial
  cases hst with
  | spawn i handler hi =>
    obtain ⟨input, rfl⟩ := hok.handler i handler rfl
    obtain ⟨new, x, hann, hret, hnew⟩ := h.announcing.spawned (i := i) hok.free hok.room input
    obtain rfl := hnew h.attached
    rw [List.append_nil] at hann
    refine ⟨stored, log, moved q i x, hann, hattached, hbounded, h.rows, h.distinct, ?_, fun k hk => ?_⟩
    · refine h.balance_set (fun _ hm => hm) (fun m j hj => ?_) (fun m => ?_) fun _ hm => .inl hm
      · rw [hi] at hj
        cases hj
      · have hnone : ¬ Granted ⟨p.state, false, .waiting (input.handler p.state).2⟩ m := not_granted rfl m
        simp only [hnone, or_false]
    · rw [show Shared.echoed _ k = _ from hret k (hpresent k hk), List.filter_nil, List.append_nil]
      exact h.echoed k hk
  | @perform i j op effect next r d hi hph hp =>
    obtain ⟨hstores, hann⟩ := h.announcing.performed hi hph r d
    have hj : ∀ m, ¬ Granted j m := not_granted hph
    have hgrant := fun m => granted_iff (j := ⟨j.seen, true, .answered op r effect next⟩) (m := m) rfl
    have hold : ∀ m j', p.jobs i = some j' → Granted j' m → m ∈ log := by
      intro m j' hj' hm
      rw [hi] at hj'
      cases hj'
      exact absurd hm (hj m)
    cases hq : q i with
    | none =>
      rw [hq] at hstores
      refine ⟨stored, log, q, hann, hattached, hbounded, ?_, h.distinct, ?_, h.echoed⟩
      · rw [show d.db.messages = _ from messages_of_silent hp hstores]
        exact h.rows
      · refine h.balance_set (fun _ hm => hm) hold (fun m => ?_) fun _ hm => .inl hm
        rw [hgrant, hstores]
        simp
    | some m =>
      rw [hq] at hstores
      rcases messages_of_stores hp hstores with ⟨hyes, hrows⟩ | ⟨hno, rfl⟩
      · refine ⟨stored ++ [m], log, q, hann, hattached, hbounded, ?_, ?_, ?_, h.echoed⟩
        · rw [hrows, h.rows, List.map_append, List.append_assoc]
          rfl
        · rw [List.map_append, List.nodup_append]
          refine ⟨h.distinct, by simp, fun n hn n' hn' => ?_⟩
          rw [List.map_singleton, List.mem_singleton] at hn'
          rw [hn']
          exact fun he => h.unstored hi hj hq (he ▸ hn)
        · refine h.balance_set (fun _ hm => hm) hold (fun m' => ?_) fun _ hm => .inl hm
          rw [hgrant, hstores, List.mem_append, List.mem_singleton, Option.some.injEq]
          simp [hyes, eq_comm]
      · refine ⟨stored, log, q, hann, hattached, hbounded, h.rows, h.distinct, ?_, h.echoed⟩
        refine h.balance_set (fun _ hm => hm) hold (fun m' => ?_) fun _ hm => .inl hm
        rw [hgrant, hno]
        simp
  | @resume i j op effect next r hi hph =>
    obtain ⟨new, hnew, hann, hret⟩ := h.announcing.resumed hi hph hok.free
    have hstores : op.stores = q i := (h.announcing.follows.resume hi hph p.world).1
    have hgrant : ∀ m, Granted j m ↔ m ∈ new := by
      intro m
      rw [granted_iff hph, hstores, hnew]
      by_cases hr : op.granted r = true <;> simp [hr]
    refine ⟨stored, log ++ new, moved q i none, hann, hattached, hbounded, h.rows, h.distinct, ?_, fun k hk => ?_⟩
    · refine h.balance_set (fun _ hm => List.mem_append_left new hm) (fun m j' hj' hm => ?_) (fun m => ?_)
        fun m hm => ?_
      · rw [hi] at hj'
        cases hj'
        exact List.mem_append_right log ((hgrant m).mp hm)
      · have hnone : ¬ Granted ⟨j.seen, j.begun, .waiting (next r p.state)⟩ m := not_granted rfl m
        simp only [hnone, or_false]
      · rcases List.mem_append.mp hm with hm | hm
        · exact .inl hm
        · exact .inr ⟨j, hi, (hgrant m).mpr hm⟩
    · rw [show Shared.echoed _ k = _ from hret k (hpresent k hk), List.filter_append, h.echoed k hk]
  | outside f => exact absurd rfl (hok.inside f)

/-- With a store attached, whichever operations fail, everyone hears of stored
messages only, and each accepted message is stored once. Each client that is
there throughout has got back exactly those of its own that are stored, but for
those whose handler has been answered and has not resumed. -/
theorem said_is_stored {p₀ : Pool Shared Await Await.Reply World ι} (present : ClientId → Prop)
    (hjobs : ∀ i, p₀.jobs i = none) (hstart : ∀ k, p₀.state.heard k = [] ∧ p₀.state.echoed k = [])
    (hattached : p₀.state.store = true) (hr : Run (Pool.Step MayFail) (Listening present) p₀ p)
    (hlast : ∀ k, present k → p.state.connected k = true) :
    ∃ stored : List ChatMessage, p.world.db.messages.rows = p₀.world.db.messages.rows ++ stored.map messageRow ∧
      (stored.map ChatMessage.id).Nodup ∧ (∀ k, ∀ m ∈ p.state.heard k, m ∈ stored) ∧
      (∀ m, Unposted p m → m ∈ stored) ∧
      ∀ k, present k → (p.state.echoed k).Nodup ∧
        ∀ m, m ∈ p.state.echoed k ↔ m ∈ stored ∧ m.author = some k ∧ ¬ Unposted p m := by
  have hrecorded : (∀ k, present k → p.state.connected k = true) →
      ∃ stored log q, Recorded p₀.world.db.messages.rows present stored log q p := by
    refine hr.invariant (fun p => (∀ k, present k → p.state.connected k = true) →
      ∃ stored log q, Recorded p₀.world.db.messages.rows present stored log q p) ?_ ?_
    · intro _
      refine ⟨[], [], fun _ => none, .start hjobs fun k => (hstart k).1, hattached, fun i j hi => ?_, ?_,
        List.nodup_nil,
        fun m => ⟨fun hm => (nomatch hm), ?_⟩, fun k _ => (hstart k).2⟩
      · rw [hjobs i] at hi
        cases hi
      · rw [List.map_nil, List.append_nil]
      · rintro (hm | ⟨i, j, hi, -⟩)
        · cases hm
        · rw [hjobs i] at hi
          cases hi
    · intro p e p' ih hok hst hpresent
      obtain ⟨stored, log, q, h⟩ := ih hok.present
      exact h.step hok hst hpresent
  obtain ⟨stored, log, q, h⟩ := hrecorded hlast
  have hlog : ∀ m ∈ log, m ∈ stored := fun m hm => (h.balance m).mpr (.inl hm)
  have hposted : ∀ m ∈ log, ¬ Unposted p m := by
    rintro m hm ⟨i, j, hi, op, r, effect, next, hph, hstores, -⟩
    have hq : q i = some m := (h.announcing.follows.resume hi hph p.world).1.symm.trans hstores
    exact (h.announcing.held i j m hi hq).2 (List.mem_map_of_mem hm)
  refine ⟨stored, h.rows, h.distinct, fun k m hm => hlog m ((h.announcing.heard k).subset hm),
    fun m hm => (h.balance m).mpr (.inr hm), fun k hk => ?_⟩
  rw [h.echoed k hk]
  refine ⟨(List.Nodup.of_map _ h.announcing.distinct).filter _, fun m => ?_⟩
  rw [List.mem_filter, decide_eq_true_eq]
  constructor
  · rintro ⟨hm, ha⟩
    exact ⟨hlog m hm, ha, hposted m hm⟩
  · rintro ⟨hm, ha, hnot⟩
    exact ⟨((h.balance m).mp hm).resolve_right hnot, ha⟩

end

/-- Two messages, of which the second is not saved. -/
theorem said_is_stored_once :
    ∃ p : Pool Shared Await Await.Reply World Nat, ∃ stored : List ChatMessage,
      p.world.db.messages.rows = stored.map messageRow ∧ stored.map ChatMessage.content = ["a"] ∧
      (p.state.heard 3).map ChatMessage.content = ["a"] ∧ (p.state.echoed 1).map ChatMessage.content = ["a"] ∧
      p.state.echoed 2 = [] := by
  have hrun : ∃ p : Pool Shared Await Await.Reply World Nat,
      Run (Pool.Step MayFail) (Listening fun k => k = 1 ∨ k = 2) ⟨hall, .empty, fun _ => none⟩ p ∧
      (∀ k, k = 1 ∨ k = 2 → p.state.connected k = true) ∧ p.world.db.messages.rows.map MessageRow.content = ["a"] ∧
      (p.state.heard 3).map ChatMessage.content = ["a"] ∧ (p.state.echoed 1).map ChatMessage.content = ["a"] ∧
      p.state.echoed 2 = [] := by
    have hboth : ∀ {s : Shared}, s.connected 1 = true → s.connected 2 = true →
        ∀ k, k = 1 ∨ k = 2 → s.connected k = true := by
      rintro s h₁ h₂ k (rfl | rfl)
      · exact h₁
      · exact h₂
    exact ⟨_, .step (.resume 0) (.step (.resume 1) (.step (.perform 1) (.step (.perform 0)
      (.step (.spawn 1 (handleControl 2 (.sendMessage 5 "b" none 8)))
      (.step (.spawn 0 (handleControl 1 (.sendMessage 5 "a" none 7))) .refl
      ⟨⟨by decide +kernel, by decide +kernel, spawns_frame 0, fun _ h => by cases h⟩,
        hboth (by decide +kernel) (by decide +kernel)⟩ (.spawn 0 _ rfl))
      ⟨⟨by decide +kernel, by decide +kernel, spawns_frame 1, fun _ h => by cases h⟩,
        hboth (by decide +kernel) (by decide +kernel)⟩ (.spawn 1 _ rfl))
      ⟨⟨by decide +kernel, by decide +kernel, (fun _ _ h => by cases h), fun _ h => by cases h⟩,
        hboth (by decide +kernel) (by decide +kernel)⟩ (.perform 0 rfl rfl (.inl (.save rfl))))
      ⟨⟨by decide +kernel, by decide +kernel, (fun _ _ h => by cases h), fun _ h => by cases h⟩,
        hboth (by decide +kernel) (by decide +kernel)⟩ (.perform 1 rfl rfl (.inr ⟨rfl, rfl⟩)))
      ⟨⟨by decide +kernel, by decide +kernel, (fun _ _ h => by cases h), fun _ h => by cases h⟩,
        hboth (by decide +kernel) (by decide +kernel)⟩ (.resume 1 rfl rfl))
      ⟨⟨by decide +kernel, by decide +kernel, (fun _ _ h => by cases h), fun _ h => by cases h⟩,
        hboth (by decide +kernel) (by decide +kernel)⟩ (.resume 0 rfl rfl),
      hboth (by decide +kernel) (by decide +kernel), by decide +kernel, by decide +kernel, by decide +kernel,
      by decide +kernel⟩
  obtain ⟨p, hr, hlast, hrows, hheard, hone, htwo⟩ := hrun
  obtain ⟨stored, hstored, -⟩ := said_is_stored (fun k => k = 1 ∨ k = 2) (fun _ => rfl)
    (fun k => by unfold Shared.heard Shared.echoed; rw [hall_queue k]; exact ⟨rfl, rfl⟩) rfl hr hlast
  refine ⟨p, stored, hstored, ?_, hheard, hone, htwo⟩
  rw [hstored] at hrows
  change (stored.map messageRow).map MessageRow.content = ["a"] at hrows
  rwa [List.map_map] at hrows

end PickleChat
