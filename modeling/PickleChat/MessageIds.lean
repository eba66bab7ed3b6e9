import PickleChat.ChannelIds
import PickleChat.Seeding
import PickleChat.Lib.Protocol

/-!
# Message ids over a run

The counter is in memory, and a start sets it behind the highest id in the
table. A message is sent to clients only after it is stored; so ids go up in
the order they are assigned, over restarts too, as long as no restart finds
the table without a row as high as every one it has held.
-/

namespace PickleChat

open Async (Run Pool Event)

inductive Pruning where
  | before (cutoff : UInt64)
  | limit (keep : UInt32)

def Pruning.perform (db : Db) : Pruning → Db
  | .before cutoff => (db.pruneBefore cutoff).2
  | .limit keep => (db.pruneToLimit keep).2

inductive Incident where
  | event (e : Event Shared Await Await.Reply Nat)
  | prune (p : Pruning)
  | restart (config : ServerConfig) (now : UInt64)

/-- A run so far. Handlers are numbered in the order they start, which is when
a message gets its id; `shown` are the messages sent to some client, `held` the
ids the table has had. -/
structure MessageLog where
  pool : Pool Shared Await Await.Reply World Nat
  clock : Nat
  number : Nat → Nat
  shown : Nat → ChatMessage → Prop
  held : Int64 → Prop

def Posted (s s' : Shared) (m : ChatMessage) : Prop :=
  ∃ k nonce, .messagePosted m nonce ∈ (s'.queue k).drop (s.queue k).length

/-- Handlers send messages; whatever else happens meanwhile posts none and leaves the counter alone. -/
def MessageTraffic : Incident → Prop
  | .event (.spawn _ h) => ∃ client channel content replyTo nonce, h = sendMessage client channel content replyTo nonce
  | .event (.outside f) => ∀ s, (f s).nextMessageId = s.nextMessageId ∧ (f s).store = s.store ∧ ∀ m, ¬ Posted s (f s) m
  | _ => True

def Incident.Runs (e : Incident) (i : Nat) : Prop := (∃ h, e = .event (.spawn i h)) ∨ e = .event (.resume i)

/-- What happens to the server. -/
def Incident.Moves (p : Pool Shared Await Await.Reply World Nat) :
    Incident → Pool Shared Await Await.Reply World Nat → Prop
  | .event e, p' => Pool.Step MayFail p e p'
  | .prune q, p' => p' = { p with world := { p.world with db := q.perform p.world.db } }
  | .restart config now, p' =>
    Server.bind config now p.world.db = some (p'.state, p'.world.db) ∧ ∀ i, p'.jobs i = none

structure LogStep (t : MessageLog) (e : Incident) (t' : MessageLog) : Prop where
  moves : e.Moves t.pool t'.pool
  clock : t'.clock = t.clock + 1
  number : ∀ k, ((∃ h, e = .event (.spawn k h)) → t'.number k = t'.clock) ∧
    ((¬ ∃ h, e = .event (.spawn k h)) → t'.number k = t.number k)
  shown : ∀ n m, t'.shown n m ↔
    t.shown n m ∨ ∃ i, e.Runs i ∧ n = t'.number i ∧ Posted t.pool.state t'.pool.state m
  held : ∀ n, t'.held n ↔ t.held n ∨ n ∈ t'.pool.world.db.messages.rows.map MessageRow.id

/-- Ids fit the column, and a restart finds a row as high as every one there was. -/
def HighestKept (t : MessageLog) : Incident → Prop
  | .event (.spawn _ _) => t.pool.state.nextMessageId.toNat < 2 ^ 63
  | .restart _ _ => ∀ n, t.held n → ∃ row ∈ t.pool.world.db.messages.rows, n ≤ row.id
  | _ => True

/-- Messages shown have ids that go up in the order they were assigned, and so no id has two messages. -/
structure IdsIncrease (t : MessageLog) : Prop where
  increasing : ∀ n m n' m', t.shown n m → t.shown n' m' → n < n' → m.id < m'.id
  one : ∀ n m n' m', t.shown n m → t.shown n' m' → m.id = m'.id → n = n' ∧ m = m'

/-! ## Sending -/

theorem posted_deliver {s : Shared} {f : UserInfo → List ServerControl} {m : ChatMessage}
    (h : Posted s (s.deliver f) m) : ∃ i nonce, .messagePosted m nonce ∈ f i := by
  obtain ⟨k, nonce, hm⟩ := h
  rw [Shared.queue_deliver, List.drop_left] at hm
  cases hc : s.client? k with
  | none =>
    rw [hc] at hm
    cases hm
  | some e =>
    rw [hc] at hm
    exact ⟨e.info, nonce, hm⟩

theorem not_posted_refl (s : Shared) (m : ChatMessage) : ¬ Posted s s m := by
  rintro ⟨k, nonce, hm⟩
  rw [List.drop_length] at hm
  cases hm

theorem not_posted_error (s : Shared) (k : ClientId) (code : ErrorCode) (detail : String) (m : ChatMessage) :
    ¬ Posted s (s.send k (.error code detail)) m := by
  intro h
  rw [Shared.send_eq] at h
  obtain ⟨i, nonce, hm⟩ := posted_deliver h
  split at hm
  · cases List.mem_singleton.mp hm
  · cases hm

theorem postMessage_eq (s : Shared) (client : ClientId) (m : ChatMessage) (nonce : UInt64) :
    ∃ f, postMessage s client m nonce = s.deliver f ∧ ∀ i, ∀ x ∈ f i, ∃ nonce', x = .messagePosted m nonce' := by
  unfold postMessage
  rw [Shared.broadcastFiltered_eq, Shared.send_eq, Shared.deliver_deliver]
  refine ⟨_, rfl, fun i x hx => ?_⟩
  rcases List.mem_append.mp hx with hx | hx
  · split at hx
    · exact ⟨_, List.mem_singleton.mp hx⟩
    · cases hx
  · split at hx
    · exact ⟨_, List.mem_singleton.mp hx⟩
    · cases hx

theorem posted_postMessage {s : Shared} {client : ClientId} {m m' : ChatMessage} {nonce : UInt64}
    (h : Posted s (postMessage s client m nonce) m') : m' = m := by
  obtain ⟨f, hf, hframes⟩ := postMessage_eq s client m nonce
  rw [hf] at h
  obtain ⟨i, nonce', hm⟩ := posted_deliver h
  obtain ⟨_, he⟩ := hframes i _ hm
  cases he
  rfl

/-- What is left of `send_message` once the id is assigned. -/
def saveMessage (client : ClientId) (m : ChatMessage) (nonce : UInt64) : Todo :=
  onSaved (.insertMessage m)
    (fun s => s.send client (.error .internal "the server could not save that message, so it was not sent"))
    fun s => (postMessage s client m nonce, .done)

theorem sendMessage_cases {s : Shared} (hstore : s.store = true) (client : ClientId) (channel : ChannelId)
    (content : String) (replyTo : Option MessageId) (nonce : UInt64) :
    ((sendMessage client channel content replyTo nonce s).2 = .done ∧
      (sendMessage client channel content replyTo nonce s).1.nextMessageId = s.nextMessageId ∧
      (sendMessage client channel content replyTo nonce s).1.store = true ∧
      ∀ m, ¬ Posted s (sendMessage client channel content replyTo nonce s).1 m) ∨
    ∃ m, m.id = s.nextMessageId ∧
      sendMessage client channel content replyTo nonce s = (s.nextMessageIdBump.2, saveMessage client m nonce) := by
  unfold sendMessage
  split; · exact .inl ⟨rfl, rfl, hstore, not_posted_refl s⟩
  split; · exact .inl ⟨rfl, rfl, hstore, not_posted_refl s⟩
  split; · exact .inl ⟨rfl, rfl, hstore, not_posted_error s client _ _⟩
  split; · exact .inl ⟨rfl, rfl, hstore, not_posted_error s client _ _⟩
  split; · exact .inl ⟨rfl, rfl, hstore, not_posted_error s client _ _⟩
  split; · exact .inl ⟨rfl, rfl, hstore, not_posted_error s client _ _⟩
  split; · exact .inl ⟨rfl, rfl, hstore, not_posted_error s client _ _⟩
  have hbump : s.nextMessageIdBump.2.store = true := hstore
  dsimp only [Shared.buildMessage]
  rw [hbump]
  exact .inr ⟨_, rfl, rfl⟩

/-! ## The column -/

/-- An id that fits the column is at most the highest of the rows when one of them is as high. -/
theorem le_highest {n : UInt64} {c : Int64} (hn : n.toNat < 2 ^ 63) (h : bigint n ≤ c) :
    n ≤ c.toUInt64 ∧ c.toUInt64.toNat < 2 ^ 63 := by
  have hle : (bigint n).toInt ≤ c.toInt := Int64.le_iff_toInt_le.mp h
  have hcol : (bigint n).toInt = n.toNat := (Word.toInt64_toInt n).trans (if_pos hn)
  have hc := Word.toInt64_toInt c.toUInt64
  rw [Int64.toInt64_toUInt64] at hc
  have hlt := c.toUInt64.toNat_lt
  rw [UInt64.le_iff_toNat_le]
  split at hc <;> omega

theorem max_int64 (a b : Int64) : max a b = if a ≤ b then b else a := rfl

instance lawfulMax : Std.LawfulOrderMax Int64 := by
  refine .of_le_max (fun a b => ?_) (fun a b => ?_) (fun a b => ?_)
  all_goals
    rw [max_int64]
    split
  · assumption
  · exact Int64.le_refl a
  · exact Int64.le_refl b
  · exact (Int64.le_total a b).resolve_left ‹_›
  · exact .inr rfl
  · exact .inl rfl

theorem highestMessageId_ge {db : Db} {row : MessageRow} (hrow : row ∈ db.messages.rows) :
    ∃ c : Int64, db.highestMessageId = some c.toUInt64 ∧ row.id ≤ c := by
  have hid : row.id ∈ db.messages.rows.map MessageRow.id := List.mem_map_of_mem hrow
  unfold Db.highestMessageId
  cases hmax : (db.messages.rows.map MessageRow.id).max? with
  | none =>
    rw [List.max?_eq_none_iff] at hmax
    rw [hmax] at hid
    cases hid
  | some c => exact ⟨c, rfl, (List.max?_eq_some_iff.mp hmax).2 row.id hid⟩

theorem bind_counter {config : ServerConfig} {now : UInt64} {db db' : Db} {s : Shared}
    (h : Server.bind config now db = some (s, db')) :
    s.store = true ∧ ∀ highest, db.highestMessageId = some highest → highest + 1 ≤ s.nextMessageId := by
  unfold Server.bind at h
  split at h; · cases h
  split at h; · cases h
  dsimp only at h
  split at h
  · rename_i highest hhighest
    cases h
    refine ⟨rfl, fun highest' h' => ?_⟩
    obtain rfl := Option.some.inj (hhighest.symm.trans h')
    unfold Shared.resumeMessageIdsAfter
    dsimp only
    split
    · exact UInt64.le_refl _
    · exact UInt64.not_lt.mp ‹_›
  · rename_i hnone
    cases h
    refine ⟨rfl, fun highest' h' => ?_⟩
    rw [hnone] at h'
    cases h'

/-! ## Where handlers stand -/

/-- A handler is through, waits for its message to be stored, or has been answered. -/
inductive Sending (j : Async.Job Shared Await Await.Reply) : Prop
  | ended : j.phase = .waiting .done → Sending j
  | saving (client : ClientId) (m : ChatMessage) (nonce : UInt64) : j.phase = .waiting (saveMessage client m nonce) →
      Sending j
  | saved (client : ClientId) (m : ChatMessage) (nonce : UInt64) (ok : Bool) {effect next} :
      j.phase = .answered (.save (.insertMessage m)) ok effect next →
      (∀ t, next ok t = .done ∧ effect ok t = if ok then postMessage t client m nonce else
        t.send client (.error .internal "the server could not save that message, so it was not sent")) → Sending j

def Pending (j : Async.Job Shared Await Await.Reply) (m : ChatMessage) : Prop :=
  j.awaiting = some (.save (.insertMessage m)) ∨ ∃ ok : Bool, j.answer = some ⟨.save (.insertMessage m), ok⟩

/-- Messages that are shown, or may yet be, with their number. -/
def Known (t : MessageLog) (n : Nat) (m : ChatMessage) : Prop :=
  t.shown n m ∨ ∃ i j, t.pool.jobs i = some j ∧ t.number i = n ∧ Pending j m

structure Ordered (t : MessageLog) : Prop where
  store : t.pool.state.store = true
  jobs : ∀ i j, t.pool.jobs i = some j → Sending j
  below : ∀ n m, Known t n m → n ≤ t.clock ∧ m.id < t.pool.state.nextMessageId ∧ m.id.toNat < 2 ^ 63
  increasing : ∀ n m n' m', Known t n m → Known t n' m' → n < n' → m.id < m'.id
  one : ∀ n m m', Known t n m → Known t n m' → m = m'
  kept : ∀ n m, t.shown n m → t.held (bigint m.id)
  saved : ∀ i j m, t.pool.jobs i = some j → j.answer = some ⟨.save (.insertMessage m), true⟩ → t.held (bigint m.id)

theorem Ordered.idsIncrease {t : MessageLog} (h : Ordered t) : IdsIncrease t := by
  refine ⟨fun n m n' m' hm hm' => h.increasing n m n' m' (.inl hm) (.inl hm'), fun n m n' m' hm hm' he => ?_⟩
  have hn : n = n' := by
    rcases Nat.lt_trichotomy n n' with hlt | hn | hlt
    · have hlt := h.increasing n m n' m' (.inl hm) (.inl hm') hlt
      rw [he] at hlt
      exact absurd hlt (UInt64.lt_irrefl _)
    · exact hn
    · have hlt := h.increasing n' m' n m (.inl hm') (.inl hm) hlt
      rw [he] at hlt
      exact absurd hlt (UInt64.lt_irrefl _)
  subst hn
  exact ⟨rfl, h.one n m m' (.inl hm) (.inl hm')⟩

section
variable {t t' : MessageLog} {e : Incident} (h : Ordered t) (hst : LogStep t e t')
include h hst

theorem Ordered.of_known (hstore : t'.pool.state.store = true)
    (hcounter : ∀ n m, Known t' n m → m.id < t'.pool.state.nextMessageId)
    (hjobs : ∀ i j, t'.pool.jobs i = some j → Sending j) (hknown : ∀ n m, Known t' n m → Known t n m)
    (hkept : ∀ n m, t'.shown n m → t'.held (bigint m.id))
    (hsaved : ∀ i j m, t'.pool.jobs i = some j → j.answer = some ⟨.save (.insertMessage m), true⟩ →
      t'.held (bigint m.id)) : Ordered t' where
  store := hstore
  jobs := hjobs
  below n m hm := by
    obtain ⟨hn, -, hfit⟩ := h.below n m (hknown n m hm)
    exact ⟨by rw [hst.clock]; omega, hcounter n m hm, hfit⟩
  increasing n m n' m' hm hm' := h.increasing n m n' m' (hknown n m hm) (hknown n' m' hm')
  one n m m' hm hm' := h.one n m m' (hknown n m hm) (hknown n m' hm')
  kept := hkept
  saved := hsaved

omit h in
theorem LogStep.held_mono {n : Int64} (hn : t.held n) : t'.held n := (hst.held n).mpr (.inl hn)

theorem Ordered.of_quiet (hruns : ∀ i, ¬ e.Runs i) (hstore : t'.pool.state.store = true)
    (hcounter : ∀ n m, t.shown n m ∨ (∃ i j, t'.pool.jobs i = some j ∧ t.number i = n ∧ Pending j m) →
      m.id < t'.pool.state.nextMessageId)
    (hjobs : ∀ i j, t'.pool.jobs i = some j → Sending j)
    (hpending : ∀ i j m, t'.pool.jobs i = some j → Pending j m → ∃ j', t.pool.jobs i = some j' ∧ Pending j' m)
    (hsaved : ∀ i j m, t'.pool.jobs i = some j → j.answer = some ⟨.save (.insertMessage m), true⟩ →
      t'.held (bigint m.id)) : Ordered t' := by
  have hnumber : ∀ i, t'.number i = t.number i := fun i => (hst.number i).2 fun hs => hruns i (.inl hs)
  have hshown : ∀ n m, t'.shown n m ↔ t.shown n m := by
    intro n m
    rw [hst.shown]
    refine ⟨fun hm => hm.resolve_right ?_, .inl⟩
    rintro ⟨i, hi, -⟩
    exact hruns i hi
  refine h.of_known hst hstore ?_ hjobs ?_ ?_ hsaved
  · rintro n m (hm | ⟨i, j, hj, hn, hm⟩)
    · exact hcounter n m (.inl ((hshown n m).mp hm))
    · exact hcounter n m (.inr ⟨i, j, hj, (hnumber i).symm.trans hn, hm⟩)
  · rintro n m (hm | ⟨i, j, hj, hn, hm⟩)
    · exact .inl ((hshown n m).mp hm)
    · obtain ⟨j', hj', hm'⟩ := hpending i j m hj hm
      exact .inr ⟨i, j', hj', (hnumber i).symm.trans hn, hm'⟩
  · intro n m hm
    exact hst.held_mono (h.kept n m ((hshown n m).mp hm))

end

/-! ## One step -/

theorem not_runs_perform (k i : Nat) : ¬ Incident.Runs (.event (.perform k)) i := by
  rintro (⟨h, he⟩ | he) <;> cases he

theorem not_runs_outside (f : Shared → Shared) (i : Nat) : ¬ Incident.Runs (.event (.outside f)) i := by
  rintro (⟨h, he⟩ | he) <;> cases he

theorem not_runs_prune (p : Pruning) (i : Nat) : ¬ Incident.Runs (.prune p) i := by
  rintro (⟨h, he⟩ | he) <;> cases he

theorem not_runs_restart (config : ServerConfig) (now : UInt64) (i : Nat) :
    ¬ Incident.Runs (.restart config now) i := by
  rintro (⟨h, he⟩ | he) <;> cases he

section
variable {t t' : MessageLog} (h : Ordered t)
include h

theorem Ordered.counter {n : Nat} {m : ChatMessage}
    (hm : t.shown n m ∨ ∃ i j, t.pool.jobs i = some j ∧ t.number i = n ∧ Pending j m) :
    m.id < t.pool.state.nextMessageId := (h.below n m hm).2.1

theorem Ordered.perform {k : Nat} (hst : LogStep t (.event (.perform k)) t') : Ordered t' := by
  have hmoves := hst.moves
  generalize hp : t'.pool = p' at hmoves
  cases hmoves with
  | @perform _ j op effect next r w' hj hph hans =>
  have hset : ∀ i j', t'.pool.jobs i = some j' →
      (i = k ∧ j' = ⟨j.seen, true, .answered op r effect next⟩) ∨ (i ≠ k ∧ t.pool.jobs i = some j') := by
    intro i j' hj'
    rw [hp] at hj'
    exact Async.set_eq hj'
  -- The handler waits for a message to be stored.
  have hwait : ∃ client m nonce, Async.Task.await op effect next = saveMessage client m nonce := by
    cases h.jobs k j hj with
    | ended hdone =>
      rw [hph] at hdone
      cases hdone
    | saving client m nonce hsave =>
      rw [hph] at hsave
      exact ⟨client, m, nonce, Async.Phase.waiting.inj hsave⟩
    | saved client m nonce ok hsaved =>
      rw [hph] at hsaved
      cases hsaved
  obtain ⟨client, m, nonce, hsave⟩ := hwait
  cases hsave
  have hpending : ∀ i j' m', t'.pool.jobs i = some j' → Pending j' m' →
      ∃ j'', t.pool.jobs i = some j'' ∧ Pending j'' m' := by
    intro i j' m' hj' hm'
    rcases hset i j' hj' with ⟨rfl, rfl⟩ | ⟨-, hj'⟩
    · refine ⟨j, hj, .inl ?_⟩
      rcases hm' with hm' | ⟨ok, hm'⟩
      · cases hm'
      · cases hm'
        exact Async.Job.awaiting_eq hph
    · exact ⟨j', hj', hm'⟩
  refine h.of_quiet hst (not_runs_perform k) ?_ ?_ ?_ hpending ?_
  · rw [hp]
    exact h.store
  · rintro n m' hm'
    rw [hp]
    refine h.counter (hm'.imp id ?_)
    rintro ⟨i, j', hj', hn, hm'⟩
    obtain ⟨j'', hj'', hm''⟩ := hpending i j' m' hj' hm'
    exact ⟨i, j'', hj'', hn, hm''⟩
  · intro i j' hj'
    rcases hset i j' hj' with ⟨-, rfl⟩ | ⟨-, hj'⟩
    · refine .saved client m nonce r rfl fun t => ?_
      cases r <;> exact ⟨rfl, rfl⟩
    · exact h.jobs i j' hj'
  · intro i j' m' hj' hans'
    rcases hset i j' hj' with ⟨-, rfl⟩ | ⟨-, hj'⟩
    · cases hans'
      -- The call went through, so its row is in the table now.
      rcases hans with hans | ⟨hfail, -⟩
      · cases hans with
        | save hdb =>
          obtain ⟨tbl, ht, rfl⟩ := Option.map_eq_some_iff.mp hdb
          refine (hst.held _).mpr (.inr ?_)
          rw [hp]
          refine List.mem_map.mpr ⟨messageRow m, ?_, rfl⟩
          change messageRow m ∈ tbl.rows
          rw [(Keyed.Table.insert_rows ht).1]
          exact List.mem_append_right _ (List.mem_singleton_self _)
      · cases hfail
    · exact hst.held_mono (h.saved i j' m' hj' hans')

theorem Ordered.resume {k : Nat} (hst : LogStep t (.event (.resume k)) t') : Ordered t' := by
  have hmoves := hst.moves
  generalize hp : t'.pool = p' at hmoves
  cases hmoves with
  | @resume _ j op effect next r hj hph =>
  have hdone : ∃ client m nonce, ∃ ok : Bool, j.answer = some ⟨.save (.insertMessage m), ok⟩ ∧
      next r t.pool.state = .done ∧ effect r t.pool.state = if ok then postMessage t.pool.state client m nonce else
        t.pool.state.send client (.error .internal "the server could not save that message, so it was not sent") := by
    cases h.jobs k j hj with
    | ended hover =>
      rw [hph] at hover
      cases hover
    | saving client m nonce hsave =>
      rw [hph] at hsave
      cases hsave
    | saved client m nonce ok hsaved htaken =>
      rw [hph] at hsaved
      cases hsaved
      exact ⟨client, m, nonce, ok, Async.Job.answer_eq hph, htaken t.pool.state⟩
  obtain ⟨client, m, nonce, ok, hans, hnext, heffect⟩ := hdone
  have hnumber : ∀ i, t'.number i = t.number i := fun i => (hst.number i).2 fun ⟨_, he⟩ => (nomatch he)
  have hset : ∀ i j', t'.pool.jobs i = some j' →
      (i = k ∧ j' = ⟨j.seen, j.begun, .waiting .done⟩) ∨ (i ≠ k ∧ t.pool.jobs i = some j') := by
    intro i j' hj'
    rw [hp, hnext] at hj'
    exact Async.set_eq hj'
  have hstate : t'.pool.state.store = t.pool.state.store ∧
      t'.pool.state.nextMessageId = t.pool.state.nextMessageId := by
    rw [hp]
    change (effect r t.pool.state).store = _ ∧ (effect r t.pool.state).nextMessageId = _
    rw [heffect]
    split
    · obtain ⟨f, hf, -⟩ := postMessage_eq t.pool.state client m nonce
      rw [hf]
      exact ⟨rfl, rfl⟩
    · exact ⟨rfl, rfl⟩
  have hpending : Pending j m := .inr ⟨ok, hans⟩
  -- What is shown now was shown before, or is the message of this handler, which was stored.
  have hshown : ∀ n m', t'.shown n m' → t.shown n m' ∨ (n = t.number k ∧ m' = m ∧ ok = true) := by
    intro n m' hm'
    rcases (hst.shown n m').mp hm' with hm' | ⟨i, hi, hn, hposted⟩
    · exact .inl hm'
    · obtain rfl : k = i := by
        rcases hi with ⟨_, he⟩ | he
        · cases he
        · cases he
          rfl
      rw [hp] at hposted
      have hposted : Posted t.pool.state (effect r t.pool.state) m' := hposted
      rw [heffect] at hposted
      cases ok with
      | true => exact .inr ⟨hn.trans (hnumber k), posted_postMessage hposted, rfl⟩
      | false => exact absurd hposted (not_posted_error _ _ _ _ _)
  have hknown : ∀ n m', Known t' n m' → Known t n m' := by
    rintro n m' (hm' | ⟨i, j', hj', hn, hm'⟩)
    · rcases hshown n m' hm' with hm' | ⟨rfl, rfl, -⟩
      · exact .inl hm'
      · exact .inr ⟨k, j, hj, rfl, hpending⟩
    · rcases hset i j' hj' with ⟨-, rfl⟩ | ⟨-, hj'⟩
      · rcases hm' with hm' | ⟨_, hm'⟩ <;> cases hm'
      · exact .inr ⟨i, j', hj', (hnumber i).symm.trans hn, hm'⟩
  refine h.of_known hst ?_ ?_ ?_ hknown ?_ ?_
  · rw [hstate.1]
    exact h.store
  · intro n m' hm'
    rw [hstate.2]
    exact h.counter (hknown n m' hm')
  · intro i j' hj'
    rcases hset i j' hj' with ⟨-, rfl⟩ | ⟨-, hj'⟩
    · exact .ended rfl
    · exact h.jobs i j' hj'
  · intro n m' hm'
    rcases hshown n m' hm' with hm' | ⟨-, rfl, rfl⟩
    · exact hst.held_mono (h.kept n m' hm')
    · exact hst.held_mono (h.saved k j m' hj hans)
  · intro i j' m' hj' hans'
    rcases hset i j' hj' with ⟨-, rfl⟩ | ⟨-, hj'⟩
    · cases hans'
    · exact hst.held_mono (h.saved i j' m' hj' hans')

theorem Ordered.outside {f : Shared → Shared} (hf : MessageTraffic (.event (.outside f)))
    (hst : LogStep t (.event (.outside f)) t') : Ordered t' := by
  have hmoves := hst.moves
  generalize hp : t'.pool = p' at hmoves
  cases hmoves
  obtain ⟨hcounter, hstore, -⟩ := hf t.pool.state
  refine h.of_quiet hst (not_runs_outside f) ?_ ?_ ?_ ?_ ?_ <;> rw [hp]
  · exact hstore.trans h.store
  · intro n m hm
    rw [hcounter]
    exact h.counter hm
  · exact h.jobs
  · exact fun i j m hj hm => ⟨j, hj, hm⟩
  · exact fun i j m hj hans => hst.held_mono (h.saved i j m hj hans)

theorem Ordered.prune {p : Pruning} (hst : LogStep t (.prune p) t') : Ordered t' := by
  have hp : t'.pool = _ := hst.moves
  refine h.of_quiet hst (not_runs_prune p) ?_ ?_ ?_ ?_ ?_ <;> rw [hp]
  · exact h.store
  · exact fun n m hm => h.counter hm
  · exact h.jobs
  · exact fun i j m hj hm => ⟨j, hj, hm⟩
  · exact fun i j m hj hans => hst.held_mono (h.saved i j m hj hans)

theorem Ordered.restart {config : ServerConfig} {now : UInt64} (hok : HighestKept t (.restart config now))
    (hst : LogStep t (.restart config now) t') : Ordered t' := by
  obtain ⟨hbind, hjobs⟩ := hst.moves
  obtain ⟨hstore, hresume⟩ := bind_counter hbind
  have nojob : ∀ {i j}, t'.pool.jobs i ≠ some j := fun {i j} hj => by
    rw [hjobs i] at hj
    cases hj
  refine h.of_quiet hst (not_runs_restart config now) hstore ?_ (fun i j hj => absurd hj nojob)
    (fun i j m hj => absurd hj nojob) (fun i j m hj => absurd hj nojob)
  intro n m hm
  have hm : t.shown n m := hm.resolve_right fun ⟨i, j, hj, _⟩ => nojob hj
  -- The message was stored, a row as high is there, and the counter goes on behind it.
  obtain ⟨row, hrow, hle⟩ := hok _ (h.kept n m hm)
  obtain ⟨c, hhighest, hc⟩ := highestMessageId_ge hrow
  obtain ⟨hid, hfit⟩ := le_highest (h.below n m (.inl hm)).2.2 (Int64.le_trans hle hc)
  have hnext := hresume _ hhighest
  rw [UInt64.le_iff_toNat_le] at hid hnext
  rw [UInt64.toNat_add] at hnext
  rw [UInt64.lt_iff_toNat_lt]
  simp at hnext
  omega

theorem Ordered.spawn {k : Nat} {handler : Handler} (ht : MessageTraffic (.event (.spawn k handler)))
    (hok : HighestKept t (.event (.spawn k handler))) (hst : LogStep t (.event (.spawn k handler)) t') :
    Ordered t' := by
  obtain ⟨client, channel, content, replyTo, nonce, rfl⟩ := ht
  have hmoves := hst.moves
  generalize hp : t'.pool = p' at hmoves
  cases hmoves with
  | spawn _ _ hfree =>
  have hnumber : ∀ i, i ≠ k → t'.number i = t.number i := by
    intro i hi
    refine (hst.number i).2 ?_
    rintro ⟨_, he⟩
    cases he
    exact hi rfl
  have hclock : t'.number k = t.clock + 1 := ((hst.number k).1 ⟨_, rfl⟩).trans hst.clock
  have hset : ∀ i j, t'.pool.jobs i = some j →
      (i = k ∧ j = ⟨t.pool.state, false, .waiting (sendMessage client channel content replyTo nonce t.pool.state).2⟩) ∨
        (i ≠ k ∧ t.pool.jobs i = some j) := by
    intro i j hj
    rw [hp] at hj
    exact Async.set_eq hj
  have hposts : ∀ m, ¬ Posted t.pool.state t'.pool.state m := by
    rw [hp]
    rcases sendMessage_cases h.store client channel content replyTo nonce with ⟨-, -, -, hposts⟩ | ⟨m, -, hsave⟩
    · exact hposts
    · change ∀ m, ¬ Posted _ (sendMessage client channel content replyTo nonce t.pool.state).1 m
      rw [hsave]
      exact not_posted_refl t.pool.state
  have hshown : ∀ n m, t'.shown n m → t.shown n m := by
    intro n m hm
    exact ((hst.shown n m).mp hm).resolve_right fun ⟨_, _, _, hposted⟩ => hposts m hposted
  -- What is known now was known before, or is the message of the new handler.
  have hknown : ∀ n m, Known t' n m → Known t n m ∨ (n = t.clock + 1 ∧
      Pending ⟨t.pool.state, false, .waiting (sendMessage client channel content replyTo nonce t.pool.state).2⟩ m) := by
    rintro n m (hm | ⟨i, j, hj, hn, hm⟩)
    · exact .inl (.inl (hshown n m hm))
    · rcases hset i j hj with ⟨rfl, rfl⟩ | ⟨hi, hj⟩
      · exact .inr ⟨hn.symm.trans hclock, hm⟩
      · exact .inl (.inr ⟨i, j, hj, (hnumber i hi).symm.trans hn, hm⟩)
  have hkept : ∀ n m, t'.shown n m → t'.held (bigint m.id) := fun n m hm =>
    hst.held_mono (h.kept n m (hshown n m hm))
  have hsaved : ∀ i j m, t'.pool.jobs i = some j → j.answer = some ⟨.save (.insertMessage m), true⟩ →
      t'.held (bigint m.id) := by
    intro i j m hj hans
    rcases hset i j hj with ⟨-, rfl⟩ | ⟨-, hj⟩
    · cases hans
    · exact hst.held_mono (h.saved i j m hj hans)
  rcases sendMessage_cases h.store client channel content replyTo nonce with
    ⟨hdone, hcounter, hstore, -⟩ | ⟨m, hid, hsave⟩
  · have hknown : ∀ n m, Known t' n m → Known t n m := by
      intro n m hm
      refine (hknown n m hm).resolve_right ?_
      rw [hdone]
      rintro ⟨-, hm | ⟨_, hm⟩⟩ <;> cases hm
    refine h.of_known hst ?_ ?_ ?_ hknown hkept hsaved
    · rw [hp]
      exact hstore
    · intro n m hm
      rw [hp]
      change m.id < (sendMessage client channel content replyTo nonce t.pool.state).1.nextMessageId
      rw [hcounter]
      exact h.counter (hknown n m hm)
    · intro i j hj
      rcases hset i j hj with ⟨-, rfl⟩ | ⟨-, hj⟩
      · exact .ended (by rw [hdone])
      · exact h.jobs i j hj
  · have hstate : t'.pool.state = t.pool.state.nextMessageIdBump.2 := by
      rw [hp]
      exact congrArg Prod.fst hsave
    have hnext : t'.pool.state.nextMessageId.toNat = t.pool.state.nextMessageId.toNat + 1 := by
      have hok : t.pool.state.nextMessageId.toNat < 2 ^ 63 := hok
      rw [hstate]
      change (t.pool.state.nextMessageId + 1).toNat = _
      rw [UInt64.toNat_add]
      simp
      omega
    have hknown : ∀ n m', Known t' n m' → Known t n m' ∨ (n = t.clock + 1 ∧ m' = m) := by
      intro n m' hm'
      refine (hknown n m' hm').imp id fun ⟨hn, hm'⟩ => ⟨hn, ?_⟩
      rw [hsave] at hm'
      rcases hm' with hm' | ⟨_, hm'⟩
      · cases hm'
        rfl
      · cases hm'
    refine ⟨?_, ?_, ?_, ?_, ?_, hkept, hsaved⟩
    · rw [hstate]
      exact h.store
    · intro i j hj
      rcases hset i j hj with ⟨-, rfl⟩ | ⟨-, hj⟩
      · exact .saving client m nonce (by rw [hsave])
      · exact h.jobs i j hj
    · intro n m' hm'
      rw [hst.clock, UInt64.lt_iff_toNat_lt, hnext]
      rcases hknown n m' hm' with hm' | ⟨rfl, rfl⟩
      · obtain ⟨hn, hlt, hfit⟩ := h.below n m' hm'
        rw [UInt64.lt_iff_toNat_lt] at hlt
        omega
      · have hok : t.pool.state.nextMessageId.toNat < 2 ^ 63 := hok
        rw [hid]
        omega
    · intro n m₁ n' m₂ hm₁ hm₂ hlt
      rcases hknown n m₁ hm₁ with hm₁ | ⟨rfl, rfl⟩
      · rcases hknown n' m₂ hm₂ with hm₂ | ⟨rfl, rfl⟩
        · exact h.increasing n m₁ n' m₂ hm₁ hm₂ hlt
        · rw [hid]
          exact h.counter hm₁
      · rcases hknown n' m₂ hm₂ with hm₂ | ⟨rfl, rfl⟩
        · have := (h.below n' m₂ hm₂).1
          omega
        · omega
    · intro n m₁ m₂ hm₁ hm₂
      rcases hknown n m₁ hm₁ with hm₁ | ⟨rfl, rfl⟩
      · rcases hknown n m₂ hm₂ with hm₂ | ⟨rfl, rfl⟩
        · exact h.one n m₁ m₂ hm₁ hm₂
        · have := (h.below _ m₁ hm₁).1
          omega
      · rcases hknown _ m₂ hm₂ with hm₂ | ⟨-, rfl⟩
        · have := (h.below _ m₂ hm₂).1
          omega
        · rfl

end

/-! ## Runs -/

theorem Ordered.step {t t' : MessageLog} {e : Incident} (h : Ordered t) (ht : MessageTraffic e) (hok : HighestKept t e)
    (hst : LogStep t e t') : Ordered t' := by
  cases e with
  | event e =>
    cases e with
    | spawn k handler => exact h.spawn ht hok hst
    | perform k => exact h.perform hst
    | resume k => exact h.resume hst
    | outside f => exact h.outside ht hst
  | prune p => exact h.prune hst
  | restart config now => exact h.restart hok hst

def MessageLog.start (s : Shared) (db : Db) : MessageLog :=
  ⟨⟨s, ⟨db, []⟩, fun _ => none⟩, 0, fun _ => 0, fun _ _ => False, fun n => n ∈ db.messages.rows.map MessageRow.id⟩

theorem Ordered.start {config : ServerConfig} {now : UInt64} {db db₀ : Db} {s₀ : Shared}
    (hb : Server.bind config now db = some (s₀, db₀)) : Ordered (.start s₀ db₀) := by
  have hknown : ∀ n m, ¬ Known (.start s₀ db₀) n m := by
    rintro n m (hm | ⟨i, j, hj, -⟩)
    · exact hm
    · cases hj
  refine ⟨(bind_counter hb).1, ?_, ?_, ?_, ?_, ?_, ?_⟩
  · intro i j hj
    cases hj
  · exact fun n m hm => absurd hm (hknown n m)
  · exact fun n m n' m' hm => absurd hm (hknown n m)
  · exact fun n m m' hm => absurd hm (hknown n m)
  · exact fun n m hm => absurd hm id
  · intro i j m hj
    cases hj

/-- In every run from a start on, of messages that are sent, stored or not,
prunes and restarts, in which ids fit the column and no restart finds the table
without a row as high as it has had: ids go up in the order they are assigned,
and no id is shown with two messages. -/
theorem messageIds_increase {config : ServerConfig} {now : UInt64} {db db₀ : Db} {s₀ : Shared} {t : MessageLog}
    (hb : Server.bind config now db = some (s₀, db₀))
    (hrun : Run LogStep (fun t e => MessageTraffic e ∧ HighestKept t e) (.start s₀ db₀) t) : IdsIncrease t :=
  (hrun.invariant Ordered (.start hb) fun _ _ _ hi hok hst => hi.step hok.1 hok.2 hst).idsIncrease

/-! ## Prunes that keep the newest -/

theorem pruneChannel_highest {keep : UInt32} (hkeep : keep ≠ 0) (acc : Nat × Db) (channel : Int64) {row : MessageRow}
    (hrow : row ∈ acc.2.messages.rows) :
    ∃ row' ∈ (Db.pruneChannel keep acc channel).2.messages.rows, row.id ≤ row'.id := by
  unfold Db.pruneChannel
  generalize hnewest : (acc.2.messages.rows.filter fun r => r.channel = channel).insertionSort
    (fun a b => b.id ≤ a.id) = newest
  have hmem : ∀ {r}, r ∈ newest ↔ r ∈ acc.2.messages.rows ∧ r.channel = channel := by
    intro r
    rw [← hnewest, List.mem_insertionSort, List.mem_filter, decide_eq_true_iff]
  have hsorted : newest.Pairwise fun a b => b.id ≤ a.id := by
    rw [← hnewest]
    exact List.pairwise_insertionSort _ _
  have hunique : (newest.map MessageRow.id).Nodup := by
    rw [← hnewest]
    exact ((List.perm_insertionSort _ _).map _).nodup_iff.mpr (Keyed.Unique.filter acc.2.messages.unique _)
  dsimp only
  cases hcut : newest[keep.toNat]? with
  | none => exact ⟨row, hrow, Int64.le_refl _⟩
  | some cutoff =>
    change ∃ row' ∈ List.filter _ acc.2.messages.rows, _
    have hpos : 0 < keep.toNat := by
      have := UInt32.toNat_inj.not.mpr hkeep
      simp at this
      omega
    cases newest with
    | nil => simp at hcut
    | cons top rest =>
      -- The newest row of the channel is above the cutoff.
      have hcutoff : cutoff ∈ rest := by
        rw [List.getElem?_cons, if_neg (by omega)] at hcut
        exact List.mem_of_getElem? hcut
      have hne : top.id ≠ cutoff.id := fun he =>
        (List.nodup_cons.mp hunique).1 (he ▸ List.mem_map_of_mem hcutoff)
      have htop : ¬ top.id ≤ cutoff.id := fun hle =>
        hne (Int64.le_antisymm hle ((List.pairwise_cons.mp hsorted).1 cutoff hcutoff))
      by_cases hc : row.channel = channel
      · refine ⟨top, List.mem_filter.mpr ⟨(hmem.mp List.mem_cons_self).1, by simp [htop]⟩, ?_⟩
        rcases List.mem_cons.mp (hmem.mpr ⟨hrow, hc⟩) with rfl | hr
        · exact Int64.le_refl _
        · exact (List.pairwise_cons.mp hsorted).1 row hr
      · exact ⟨row, List.mem_filter.mpr ⟨hrow, by simp [hc]⟩, Int64.le_refl _⟩

theorem pruneToLimit_highest {keep : UInt32} (hkeep : keep ≠ 0) {db : Db} {row : MessageRow}
    (hrow : row ∈ db.messages.rows) : ∃ row' ∈ (db.pruneToLimit keep).2.messages.rows, row.id ≤ row'.id := by
  unfold Db.pruneToLimit
  generalize (db.messages.rows.map MessageRow.channel).dedup = channels
  generalize hacc : (0, db) = acc
  replace hrow : row ∈ acc.2.messages.rows := hacc ▸ hrow
  clear hacc
  induction channels generalizing acc row with
  | nil => exact ⟨row, hrow, Int64.le_refl _⟩
  | cons channel channels ih =>
    obtain ⟨row', hrow', hle⟩ := pruneChannel_highest hkeep acc channel hrow
    obtain ⟨row'', hrow'', hle'⟩ := ih _ hrow'
    exact ⟨row'', hrow'', Int64.le_trans hle hle'⟩
theorem bind_messages {config : ServerConfig} {now : UInt64} {db db' : Db} {s : Shared}
    (h : Server.bind config now db = some (s, db')) : db'.messages = db.messages := by
  obtain ⟨channels, db₁, roles, hc, hr, -⟩ := bind_some h
  have hchannels : db₁.messages = db.messages := by
    unfold loadOrSeedChannels at hc
    split at hc
    · obtain ⟨db₂, h₂, he⟩ := Option.map_eq_some_iff.mp hc
      cases he
      rw [insertChannels_tables h₂]
    · cases hc
      rfl
  rw [(loadOrSeedRoles_tables hr).2, hchannels]

/-- Ids fit the column, and a prune leaves a row as high as every one it finds. -/
def PrunesKeep (t : MessageLog) : Incident → Prop
  | .event (.spawn _ _) => t.pool.state.nextMessageId.toNat < 2 ^ 63
  | .prune p => ∀ row ∈ t.pool.world.db.messages.rows, ∃ row' ∈ (p.perform t.pool.world.db).messages.rows,
      row.id ≤ row'.id
  | _ => True

theorem prunesKeep_limit {keep : UInt32} (hkeep : keep ≠ 0) (t : MessageLog) : PrunesKeep t (.prune (.limit keep)) :=
  fun _ hrow => pruneToLimit_highest hkeep hrow

/-- A row as high as every one there was. -/
def Topped (t : MessageLog) : Prop := ∀ n, t.held n → ∃ row ∈ t.pool.world.db.messages.rows, n ≤ row.id

theorem Topped.of_rows {t t' : MessageLog} {e : Incident} (h : Topped t) (hst : LogStep t e t')
    (hrows : ∀ row ∈ t.pool.world.db.messages.rows, ∃ row' ∈ t'.pool.world.db.messages.rows, row.id ≤ row'.id) :
    Topped t' := by
  intro n hn
  rcases (hst.held n).mp hn with hn | hn
  · obtain ⟨row, hrow, hle⟩ := h n hn
    obtain ⟨row', hrow', hle'⟩ := hrows row hrow
    exact ⟨row', hrow', Int64.le_trans hle hle'⟩
  · obtain ⟨row, hrow, rfl⟩ := List.mem_map.mp hn
    exact ⟨row, hrow, Int64.le_refl _⟩

theorem Topped.step {t t' : MessageLog} {e : Incident} (h : Topped t) (ho : Ordered t) (hok : PrunesKeep t e)
    (hst : LogStep t e t') : Topped t' := by
  have hmoves := hst.moves
  have same : t'.pool.world.db.messages = t.pool.world.db.messages → Topped t' := fun he =>
    h.of_rows hst fun row hrow => ⟨row, he ▸ hrow, Int64.le_refl _⟩
  cases e with
  | prune p =>
    refine h.of_rows hst ?_
    rw [show t'.pool = _ from hmoves]
    exact hok
  | restart config now => exact same (bind_messages hmoves.1)
  | event e =>
    generalize hp : t'.pool = p' at hmoves
    cases hmoves with
    | spawn i handler hfree => exact same (by rw [hp])
    | resume i hj hph => exact same (by rw [hp])
    | outside f => exact same (by rw [hp])
    | @perform i j op effect next r w' hj hph hans =>
      rcases hans with hans | ⟨-, rfl⟩
      · cases ho.jobs i j hj with
        | ended hdone =>
          rw [hph] at hdone
          cases hdone
        | saved client m nonce ok hsaved =>
          rw [hph] at hsaved
          cases hsaved
        | saving client m nonce hsave =>
          rw [hph] at hsave
          cases hsave
          cases hans with
          | save hdb =>
            obtain ⟨tbl, ht, rfl⟩ := Option.map_eq_some_iff.mp hdb
            refine h.of_rows hst fun row hrow => ⟨row, ?_, Int64.le_refl _⟩
            rw [hp]
            change row ∈ tbl.rows
            rw [(Keyed.Table.insert_rows ht).1]
            exact List.mem_append_left _ hrow
      · exact same (by rw [hp])

/-- With prunes that leave a row as high as any, such as all that keep a
message of each channel, ids go up. -/
theorem messageIds_increase_of_prunes {config : ServerConfig} {now : UInt64} {db db₀ : Db} {s₀ : Shared}
    {t : MessageLog}
    (hb : Server.bind config now db = some (s₀, db₀))
    (hrun : Run LogStep (fun t e => MessageTraffic e ∧ PrunesKeep t e) (.start s₀ db₀) t) : IdsIncrease t := by
  have htop : Topped (.start s₀ db₀) := by
    intro n hn
    obtain ⟨row, hrow, rfl⟩ := List.mem_map.mp hn
    exact ⟨row, hrow, Int64.le_refl _⟩
  refine (hrun.invariant (fun t => Ordered t ∧ Topped t) ⟨.start hb, htop⟩ ?_).1.idsIncrease
  rintro t e t' ⟨ho, ht⟩ ⟨htraffic, hok⟩ hst
  refine ⟨ho.step htraffic ?_ hst, ht.step ho hok hst⟩
  cases e with
  | event e =>
    cases e with
    | spawn i handler => exact hok
    | perform i => trivial
    | resume i => trivial
    | outside f => trivial
  | prune p => trivial
  | restart config now => exact ht

/-! ## Runs written down -/

def MessageLog.numbers (t : MessageLog) : Incident → Nat → Nat
  | .event (.spawn i _), k => if k = i then t.clock + 1 else t.number k
  | _, k => t.number k

def MessageLog.next (t : MessageLog) (e : Incident) (p : Pool Shared Await Await.Reply World Nat) : MessageLog where
  pool := p
  clock := t.clock + 1
  number := t.numbers e
  shown n m := t.shown n m ∨ ∃ i, e.Runs i ∧ n = t.numbers e i ∧ Posted t.pool.state p.state m
  held n := t.held n ∨ n ∈ p.world.db.messages.rows.map MessageRow.id

theorem LogStep.next {t : MessageLog} {e : Incident} {p : Pool Shared Await Await.Reply World Nat}
    (h : e.Moves t.pool p) : LogStep t e (t.next e p) := by
  refine ⟨h, rfl, fun k => ⟨?_, fun hno => ?_⟩, fun n m => Iff.rfl, fun n => Iff.rfl⟩
  · rintro ⟨handler, rfl⟩
    exact if_pos rfl
  · cases e with
    | event e =>
      cases e with
      | spawn i handler =>
        refine if_neg ?_
        rintro rfl
        exact hno ⟨handler, rfl⟩
      | perform i => rfl
      | resume i => rfl
      | outside f => rfl
    | prune p => rfl
    | restart config now => rfl

def ownerArrives (s : Shared) : Shared :=
  match s.admitUser ⟨.rep 1, 8⟩ "n" with
  | .ok (_, t) => t
  | .error _ => s

theorem ownerArrives_quiet : MessageTraffic (.event (.outside ownerArrives)) := by
  intro s
  unfold ownerArrives
  cases ht : s.admitUser ⟨.rep 1, 8⟩ "n" with
  | error failure => exact ⟨rfl, rfl, not_posted_refl s⟩
  | ok r =>
    obtain ⟨info, t⟩ := r
    obtain ⟨-, -, -, -, -, -, rfl⟩ := Shared.admitUser_ok ht
    refine ⟨rfl, rfl, ?_⟩
    -- The queue of the one that comes is empty.
    rintro m ⟨k, nonce, hm⟩
    unfold Shared.queue Shared.client? at hm
    rw [Keyed.get_put] at hm
    split at hm
    · simp at hm
    · rw [List.drop_length] at hm
      cases hm

def ownersMessage (id : MessageId) (sentAt : UInt64) (content : String) : ChatMessage :=
  ⟨id, 2, some 1, .rep 1, "n", sentAt, none, content, none⟩

/-- The owner posts, the table is pruned to nothing, the server restarts, and
the owner posts again: one id for two messages. -/
theorem messageId_reused :
    Server.bind ownedConfig 5 twoChannelsDb = some (twoChannelsStart.now.1, twoChannelsDb) ∧
      ∃ t, Run LogStep (fun _ e => MessageTraffic e) (.start twoChannelsStart.now.1 twoChannelsDb) t ∧
        ¬ IdsIncrease t := by
  refine ⟨twoChannelsStart_bind, _,
    .step (.event (.resume 2)) (.step (.event (.perform 2))
    (.step (.event (.spawn 2 (sendMessage 1 2 "b" none 8))) (.step (.event (.outside ownerArrives))
    (.step (.restart ownedConfig 6) (.step (.prune (.limit 0))
    (.step (.event (.resume 1)) (.step (.event (.perform 1))
    (.step (.event (.spawn 1 (sendMessage 1 2 "a" none 7))) (.step (.event (.outside ownerArrives)) .refl
    ownerArrives_quiet (.next (.outside _)))
    ⟨_, _, _, _, _, rfl⟩ (.next (.spawn 1 _ rfl)))
    trivial (.next (.perform 1 rfl rfl (.inl (.save rfl)))))
    trivial (.next (.resume 1 rfl rfl)))
    trivial (.next rfl))
    trivial (.next (p := ⟨_, ⟨_, []⟩, fun _ => none⟩) ⟨rfl, fun _ => rfl⟩))
    ownerArrives_quiet (.next (.outside _)))
    ⟨_, _, _, _, _, rfl⟩ (.next (.spawn 2 _ rfl)))
    trivial (.next (.perform 2 rfl rfl (.inl (.save rfl)))))
    trivial (.next (.resume 2 rfl rfl)), fun h => ?_⟩
  have hne := (h.one 2 (ownersMessage 1 5 "a") 8 (ownersMessage 1 6 "b") ?_ ?_ rfl).1
  · cases hne
  · exact .inl (.inl (.inl (.inl (.inl (.inl (.inr ⟨1, .inr rfl, rfl, 1, some 7, by decide +kernel⟩))))))
  · exact .inr ⟨2, .inr rfl, rfl, 1, some 8, by decide +kernel⟩

/-- The owner posts, all but the newest message goes, the server restarts, and the owner posts again. -/
theorem messageIds_increase_restart :
    ∃ t, Run LogStep (fun t e => MessageTraffic e ∧ HighestKept t e) (.start twoChannelsStart.now.1 twoChannelsDb) t ∧
      (∃ n m, t.shown n m ∧ m.id = 1) ∧ (∃ n m, t.shown n m ∧ m.id = 2) ∧ IdsIncrease t := by
  have hrun : ∃ t, Run LogStep (fun t e => MessageTraffic e ∧ HighestKept t e)
      (.start twoChannelsStart.now.1 twoChannelsDb) t ∧ 
      (∃ n m, t.shown n m ∧ m.id = 1) ∧ (∃ n m, t.shown n m ∧ m.id = 2) := by
    refine ⟨_,
      .step (.event (.resume 2)) (.step (.event (.perform 2))
      (.step (.event (.spawn 2 (sendMessage 1 2 "b" none 8))) (.step (.event (.outside ownerArrives))
      (.step (.restart ownedConfig 6) (.step (.prune (.limit 1))
      (.step (.event (.resume 1)) (.step (.event (.perform 1))
      (.step (.event (.spawn 1 (sendMessage 1 2 "a" none 7))) (.step (.event (.outside ownerArrives)) .refl
      ⟨ownerArrives_quiet, trivial⟩ (.next (.outside _)))
      ⟨⟨_, _, _, _, _, rfl⟩, by unfold HighestKept; decide +kernel⟩ (.next (.spawn 1 _ rfl)))
      ⟨trivial, trivial⟩ (.next (.perform 1 rfl rfl (.inl (.save rfl)))))
      ⟨trivial, trivial⟩ (.next (.resume 1 rfl rfl)))
      ⟨trivial, trivial⟩ (.next rfl))
      ⟨trivial, fun n hn => ?_⟩ (.next (p := ⟨_, ⟨_, []⟩, fun _ => none⟩) ⟨rfl, fun _ => rfl⟩))
      ⟨ownerArrives_quiet, trivial⟩ (.next (.outside _)))
      ⟨⟨_, _, _, _, _, rfl⟩, by unfold HighestKept; decide +kernel⟩ (.next (.spawn 2 _ rfl)))
      ⟨trivial, trivial⟩ (.next (.perform 2 rfl rfl (.inl (.save rfl)))))
      ⟨trivial, trivial⟩ (.next (.resume 2 rfl rfl)),
      ⟨2, ownersMessage 1 5 "a", ?_, rfl⟩, 8, ownersMessage 2 6 "b", ?_, rfl⟩
    · refine ⟨messageRow (ownersMessage 1 5 "a"), List.mem_cons_self, ?_⟩
      rcases hn with (((((hn | hn) | hn) | hn) | hn) | hn)
      · cases hn
      · cases hn
      · cases hn
      all_goals
        have hn : n ∈ [(1 : Int64)] := hn
        cases List.mem_singleton.mp hn
        decide +kernel
    · exact .inl (.inl (.inl (.inl (.inl (.inl (.inr ⟨1, .inr rfl, rfl, 1, some 7, by decide +kernel⟩))))))
    · exact .inr ⟨2, .inr rfl, rfl, 1, some 8, by decide +kernel⟩
  obtain ⟨t, hrun, hfirst, hsecond⟩ := hrun
  exact ⟨t, hrun, hfirst, hsecond, messageIds_increase twoChannelsStart_bind hrun⟩

end PickleChat
