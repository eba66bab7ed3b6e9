import PickleChat.Lib.Protocol
import PickleChat.RoleCommands
import PickleChat.Roster

/-!
# Bans and handshakes that overlap

A handshake asks for a ban and is then let in; a ban writes its row, looks who
is there and ejects them. Both await in between. A handshake that was told
"no ban" before the row was written and is let in after the roster was read
escapes the ban.
-/

namespace PickleChat

open Async (Run Pool Protocol Job)

inductive BanCommand where
  | handshake (auth : ClientAuth)
  | ban (actor : ClientId) (nonce : UInt64) (f : Fingerprint) (reason : String) (til : Option UInt64)
  | unban (actor : ClientId) (nonce : UInt64) (f : Fingerprint)

def BanCommand.handle : BanCommand → Handler
  | handshake auth => PickleChat.handshake auth
  | ban actor nonce f reason til => PickleChat.ban actor nonce f reason til
  | unban actor nonce f => PickleChat.unban actor nonce f

abbrev BanJob := Job Shared Await Await.Reply

abbrev BanPool := Pool Shared Await Await.Reply World Nat

/-- The pool, what each job is running, the ban whose row it has written, and
for each fingerprint the expiries of the bans acknowledged since an unban was
last issued. -/
structure BanRun where
  pool : BanPool
  command : Nat → Option BanCommand
  wrote : Nat → Option BanEntry
  inForce : Fingerprint → List (Option UInt64)

inductive BanEvent where
  | issue (i : Nat) (cmd : BanCommand)
  | perform (i : Nat)
  | resume (i : Nat)
  | disconnect (client : ClientId)
  | tick (now : UInt64)

/-- A ban that is acknowledged from `s` to `s'` comes into force. -/
def credit (s s' : Shared) (inForce : Fingerprint → List (Option UInt64)) :
    Option BanCommand → Fingerprint → List (Option UInt64)
  | some (.ban actor nonce f _ til) => fun g =>
    if g = f ∧ Acked s s' actor nonce then til :: inForce g else inForce g
  | _ => inForce

/-- From when an unban is issued nothing is promised any more. -/
def lift (inForce : Fingerprint → List (Option UInt64)) : BanCommand → Fingerprint → List (Option UInt64)
  | .unban _ _ f => fun g => if g = f then [] else inForce g
  | _ => inForce

def Await.ban? : Await → Option BanEntry
  | .save (.insertBan b) => some b
  | _ => none

def BanRun.issued (st : BanRun) (i : Nat) (cmd : BanCommand) (p : BanPool) :
    BanRun where
  pool := p
  command k := if k = i then some cmd else st.command k
  wrote k := if k = i then none else st.wrote k
  inForce := credit st.pool.state p.state (lift st.inForce cmd) (some cmd)

def BanRun.performed (st : BanRun) (i : Nat) (p : BanPool) : BanRun where
  pool := p
  command := st.command
  wrote k := if k = i then (((st.pool.jobs i).bind Job.awaiting).bind Await.ban?).or (st.wrote i) else st.wrote k
  inForce := st.inForce

def BanRun.resumed (st : BanRun) (i : Nat) (p : BanPool) : BanRun where
  pool := p
  command := st.command
  wrote := st.wrote
  inForce := credit st.pool.state p.state st.inForce (st.command i)

inductive BanStep (st : BanRun) : BanEvent → BanRun → Prop
  | issue {i : Nat} {cmd : BanCommand} {p : BanPool} :
      Pool.Step Performs st.pool (.spawn i cmd.handle) p → BanStep st (.issue i cmd) (st.issued i cmd p)
  | perform {i : Nat} {p : BanPool} :
      Pool.Step Performs st.pool (.perform i) p → BanStep st (.perform i) (st.performed i p)
  | resume {i : Nat} {p : BanPool} :
      Pool.Step Performs st.pool (.resume i) p → BanStep st (.resume i) (st.resumed i p)
  | disconnect {client : ClientId} {p : BanPool} :
      Pool.Step Performs st.pool (.outside (PickleChat.disconnect · client)) p →
      BanStep st (.disconnect client) { st with pool := p }
  | tick {now : UInt64} {p : BanPool} : st.pool.state.nowUnixMs ≤ now →
      Pool.Step Performs st.pool (.outside fun s => { s with nowUnixMs := now }) p →
      BanStep st (.tick now) { st with pool := p }

/-! ## When bans hold -/

def lapsed : Option UInt64 → UInt64 → Prop
  | none, _ => False
  | some til, now => til ≤ now

/-- `til` lapses no later than `cover`. -/
def covers : (cover til : Option UInt64) → Prop
  | none, _ => True
  | some a, some b => b ≤ a
  | some _, none => False

theorem covers_refl (til : Option UInt64) : covers til til := by
  cases til with
  | none => trivial
  | some t => exact UInt64.le_refl t

theorem lapsed_of_covers {cover til : Option UInt64} {n now : UInt64} (h : covers cover til) (hl : lapsed cover n)
    (hn : n ≤ now) : lapsed til now := by
  cases cover with
  | none => exact absurd hl id
  | some a =>
    cases til with
    | none => exact absurd h id
    | some b => exact UInt64.le_trans (UInt64.le_trans h hl) hn

/-- A ban of `f` that is to last: acknowledged, or on its way and written. -/
def BanRun.Stands (st : BanRun) (f : Fingerprint) (til : Option UInt64) : Prop :=
  ¬ lapsed til st.pool.state.nowUnixMs ∧ (til ∈ st.inForce f ∨
    ∃ i b j, st.wrote i = some b ∧ b.fingerprint = f ∧ b.untilUnixMs = til ∧ st.pool.jobs i = some j ∧ ¬ j.finished)

/-- A handshake of `f` that has been told "no ban" and is about to be let in. -/
def Cleared (f : Fingerprint) (j : BanJob) : Prop :=
  ∃ now, j.answer = some ⟨.load (.activeBan f now), some none⟩

/-- No row is written that shortens a ban, none is deleted under a ban, and no
handshake is about to be let in when a ban reads the roster. -/
def Orderly (st : BanRun) : BanEvent → Prop
  | .perform i => ∀ j, st.pool.jobs i = some j →
      (∀ b, j.awaiting = some (.save (.insertBan b)) → ∀ til, st.Stands b.fingerprint til → covers b.untilUnixMs til) ∧
      ∀ f, j.awaiting = some (.save (.deleteBan f)) → ∀ til, ¬ st.Stands f til
  | .resume i => ∀ j b r, st.pool.jobs i = some j → j.answer = some ⟨.save (.insertBan b), r⟩ →
      ∀ k j', st.pool.jobs k = some j' → ¬ Cleared b.fingerprint j'
  | _ => True

/-! ## What each command does, as a protocol -/

inductive Progress where
  | ended
  | checking (f : Fingerprint) (now : UInt64)
  | vetting (f : Fingerprint) (til : Option UInt64)
  | writing (f : Fingerprint) (til : Option UInt64)
  | ejecting (f : Fingerprint) (til : Option UInt64) (victims : List ClientId)
  | lifting (f : Fingerprint)

/-- Nobody has come; clock and store are as they were. -/
structure Calm (s s' : Shared) : Prop where
  now : s'.nowUnixMs = s.nowUnixMs
  store : s'.store = s.store
  sessions : ∀ f, sessionsOf s' f ⊆ sessionsOf s f

def Silent (s s' : Shared) : Prop := ∀ client nonce, ¬ Acked s s' client nonce

def Progress.Offers : Progress → Await → Prop
  | ended, op => op = .sleep ∨ ∃ frame, op = .write frame
  | checking f now, op => op = .load (.activeBan f now)
  | vetting _ _, op => op = .yield
  | writing f til, op => op = .yield ∨ ∃ b, op = .save (.insertBan b) ∧ b.fingerprint = f ∧ b.untilUnixMs = til
  | ejecting _ _ _, op => op = .yield ∨ op = .sleep
  | lifting f, op => op = .save (.deleteBan f)

inductive Progress.Moves : Progress → (op : Await) → op.Reply → Shared → Shared → Progress → Prop
  | idle {op r s s'} : Calm s s' → Silent s s' → Moves .ended op r s s' .ended
  | turnedAway {f now op r s s'} : Calm s s' → Silent s s' → Moves (.checking f now) op r s s' .ended
  | admits {f now s s'} : s'.nowUnixMs = s.nowUnixMs → s'.store = s.store →
      (∀ g, g ≠ f → sessionsOf s' g ⊆ sessionsOf s g) → Silent s s' →
      Moves (.checking f now) (.load (.activeBan f now)) (some none) s s' .ended
  | refused {f til op r s s'} : Calm s s' → Silent s s' → Moves (.vetting f til) op r s s' .ended
  | vets {f til op r s} : Moves (.vetting f til) op r s s (.vetting f til)
  | passes {f til op r s} : s.store = true → Moves (.vetting f til) op r s s (.writing f til)
  | waits {f til s} : Moves (.writing f til) .yield () s s (.writing f til)
  | scans {b s} : Moves (.writing b.fingerprint b.untilUnixMs) (.save (.insertBan b)) true s s
      (.ejecting b.fingerprint b.untilUnixMs (sessionsOf s b.fingerprint))
  | scansNone {b s s'} : sessionsOf s b.fingerprint = [] → Calm s s' →
      Moves (.writing b.fingerprint b.untilUnixMs) (.save (.insertBan b)) true s s' .ended
  | ejects {f til victims victims' op r s s'} : Calm s s' → Silent s s' →
      (∀ id ∈ sessionsOf s' f, id ∈ victims → id ∈ victims') →
      Moves (.ejecting f til victims) op r s s' (.ejecting f til victims')
  | ends {f til victims op r s s'} : Calm s s' → (∀ id ∈ sessionsOf s' f, id ∉ victims) →
      Moves (.ejecting f til victims) op r s s' .ended
  | lifts {f op r s s'} : Calm s s' → Moves (.lifting f) op r s s' .ended

/-- Store calls do not fail. -/
def Answered : (op : Await) → op.Reply → Prop
  | .save _, r => r = true
  | .load _, r => r.isSome = true
  | _, _ => True

def banProtocol : Protocol Shared Await Await.Reply Progress where
  offers := Progress.Offers
  moves := Progress.Moves
  final q := q = .ended
  answers := Answered

section
variable {s s' : Shared}

theorem Calm.refl (s : Shared) : Calm s s := ⟨rfl, rfl, fun _ => List.Subset.refl _⟩

theorem Calm.deliver (s : Shared) (f : UserInfo → List ServerControl) : Calm s (s.deliver f) :=
  ⟨rfl, rfl, fun g => by unfold sessionsOf; rw [s.deliver_users]; exact List.Subset.refl _⟩

theorem Silent.refl (s : Shared) : Silent s s := by
  intro client nonce h
  unfold Acked at h
  rw [List.drop_length] at h
  cases h

theorem Silent.deliver {f : UserInfo → List ServerControl} (hf : ∀ i nonce, .ack nonce ∉ f i) :
    Silent s (s.deliver f) := by
  intro client nonce h
  unfold Acked at h
  rw [Shared.queue_deliver, List.drop_left] at h
  cases he : s.client? client with
  | none => rw [he] at h; cases h
  | some e => rw [he] at h; exact hf _ _ h

theorem Calm.refuse (s : Shared) (k : ClientId) (nonce : UInt64) (code : ErrorCode) (detail : String) :
    Calm s (refuse s k nonce code detail) := by rw [refuse_eq]; exact Calm.deliver ..

theorem Silent.refuse {k : ClientId} {nonce : UInt64} {code : ErrorCode} {detail : String} :
    Silent s (refuse s k nonce code detail) := by
  rw [refuse_eq]
  refine Silent.deliver fun i n h => ?_
  split at h
  · cases List.mem_singleton.mp h
  · cases h

theorem mem_sessionsOf {f : Fingerprint} {id : ClientId} :
    id ∈ sessionsOf s f ↔ ∃ e ∈ s.clients, e.info.fingerprint = f ∧ e.info.clientId = id := by
  simp only [sessionsOf, Shared.users, List.mem_map, List.mem_filter, decide_eq_true_eq]
  constructor
  · rintro ⟨i, ⟨⟨e, he, rfl⟩, hf⟩, rfl⟩
    exact ⟨e, he, hf, rfl⟩
  · rintro ⟨e, he, hf, rfl⟩
    exact ⟨e.info, ⟨⟨e, he, rfl⟩, hf⟩, rfl⟩

theorem Calm.remove (s : Shared) (k : ClientId) : Calm s (s.remove k).2 := by
  refine ⟨rfl, rfl, fun f id hid => ?_⟩
  obtain ⟨e, he, hf, rfl⟩ := mem_sessionsOf.mp hid
  exact mem_sessionsOf.mpr ⟨e, (Keyed.mem_erase.mp he).1, hf, rfl⟩

theorem not_mem_remove (s : Shared) (k : ClientId) (f : Fingerprint) : k ∉ sessionsOf (s.remove k).2 f := by
  intro h
  obtain ⟨e, he, -, hk⟩ := mem_sessionsOf.mp h
  exact (Keyed.mem_erase.mp he).2 hk

theorem remove_client? (s : Shared) (k client : ClientId) :
    (s.remove k).2.client? client = if client = k then none else s.client? client := Keyed.get_erase ..

/-- Whoever goes takes no acknowledgement along, and the others are told of no ban. -/
theorem Silent.remove (s : Shared) (k : ClientId) {f : UserInfo → List ServerControl}
    (hf : ∀ i nonce, .ack nonce ∉ f i) : Silent s ((s.remove k).2.deliver f) := by
  intro client nonce h
  unfold Acked at h
  rw [Shared.queue_deliver] at h
  unfold Shared.queue at h
  rw [remove_client?] at h
  by_cases hk : client = k
  · simp [hk] at h
  · rw [if_neg hk, List.drop_left] at h
    cases he : s.client? client with
    | none => rw [he] at h; cases h
    | some e => rw [he] at h; exact hf _ _ h

theorem Calm.trans {t : Shared} (h : Calm s s') (h' : Calm s' t) : Calm s t :=
  ⟨h'.now.trans h.now, h'.store.trans h.store, fun f => List.Subset.trans (h'.sessions f) (h.sessions f)⟩

theorem eject_none {k : ClientId} {reason : DisconnectReason} (h : (s.eject k reason).1 = none) (f : Fingerprint) :
    k ∉ sessionsOf s f := by
  intro hm
  obtain ⟨e, he, -, hk⟩ := mem_sessionsOf.mp hm
  unfold Shared.eject at h
  split at h
  · rename_i hnone
    exact Keyed.get_eq_none.mp hnone e he hk
  · cases h

theorem eject_some {k : ClientId} {reason : DisconnectReason} {e : ConnectedClient}
    (h : s.eject k reason = (some e, s')) :
    Calm s s' ∧ Silent s s' ∧ ∀ f, k ∉ sessionsOf s' f := by
  unfold Shared.eject at h
  split at h
  · cases h
  · cases h
    rw [Shared.broadcast_none]
    refine ⟨(Calm.remove s k).trans (Calm.deliver ..), Silent.remove s k fun i nonce h => ?_, fun f hm => ?_⟩
    · cases List.mem_singleton.mp h
    · exact not_mem_remove s k f ((Calm.deliver ..).sessions f hm)

end

/-! ## Every command follows it -/

section
variable {f : Fingerprint} {til : Option UInt64}

theorem follows_onYield {q : Progress} {k : Handler} (hq : q.Offers .yield)
    (hk : ∀ s, ∃ q', q.Moves .yield () s (k s).1 q' ∧ (k s).2.Follows banProtocol q') :
    (onYield k).Follows banProtocol q := ⟨hq, fun _ s _ => hk s⟩

theorem follows_onSleep {q : Progress} {k : Handler} (hq : q.Offers .sleep)
    (hk : ∀ s, ∃ q', q.Moves .sleep () s (k s).1 q' ∧ (k s).2.Follows banProtocol q') :
    (onSleep k).Follows banProtocol q := ⟨hq, fun _ s _ => hk s⟩

theorem follows_done : (Async.Task.done : Todo).Follows banProtocol .ended := rfl

theorem reject_follows (failure : AuthFailure) : (reject failure).Follows banProtocol .ended := by
  refine ⟨.inr ⟨_, rfl⟩, fun ok s _ => ⟨.ended, ?_⟩⟩
  cases ok with
  | false => exact ⟨.idle (Calm.refl s) (Silent.refl s), follows_done⟩
  | true =>
    refine ⟨.idle (Calm.refl s) (Silent.refl s), follows_onSleep (.inl rfl) fun s => ?_⟩
    exact ⟨.ended, .idle (Calm.refl s) (Silent.refl s), follows_done⟩

theorem admitClient_follows (auth : ClientAuth) (s : Shared) :
    (admitClient auth s).1.nowUnixMs = s.nowUnixMs ∧ (admitClient auth s).1.store = s.store ∧
      (∀ g, g ≠ auth.identity.fingerprint → sessionsOf (admitClient auth s).1 g ⊆ sessionsOf s g) ∧
      Silent s (admitClient auth s).1 ∧ (admitClient auth s).2.Follows banProtocol .ended := by
  unfold admitClient
  split
  · exact ⟨rfl, rfl, fun g _ => List.Subset.refl _, Silent.refl s, reject_follows _⟩
  · rename_i info t ht
    obtain ⟨hid, hident, -, -, -, -, rfl⟩ := Shared.admitUser_ok ht
    refine ⟨rfl, rfl, fun g hg id hm => ?_, fun client nonce h => ?_, .inr ⟨_, rfl⟩, fun ok s _ => ?_⟩
    · obtain ⟨e, he, hf, rfl⟩ := mem_sessionsOf.mp hm
      rcases Keyed.mem_put.mp he with rfl | ⟨he, -⟩
      · exact absurd (hf.symm.trans (by unfold UserInfo.fingerprint; rw [hident])) hg
      · exact mem_sessionsOf.mpr ⟨e, he, hf, rfl⟩
    · -- A new entry has an empty queue; the others keep theirs.
      unfold Acked Shared.queue Shared.client? at h
      rw [Keyed.get_put] at h
      split at h
      · simp at h
      · rw [List.drop_length] at h
        cases h
    · cases ok with
      | true =>
        simp only [if_true, Shared.broadcast_eq]
        refine ⟨.ended, .idle (Calm.deliver ..) (Silent.deliver fun i nonce h => ?_), follows_done⟩
        split at h
        · cases h
        · cases List.mem_singleton.mp h
      | false =>
        have hsilent : Silent s ((s.remove info.clientId).2.deliver fun _ => []) :=
          Silent.remove s _ fun _ _ => List.not_mem_nil
        rw [Shared.deliver_nil] at hsilent
        exact ⟨.ended, .idle (Calm.remove ..) hsilent, follows_done⟩

/-- The rest of a ban, `victims` still to go, once none but `left` can be there. -/
def EjectsRest (f : Fingerprint) (til : Option UInt64) (victims : List ClientId) (k : Handler) : Prop :=
  ∀ (left : List ClientId) (op : Await) (r : op.Reply) (s : Shared),
    (∀ id ∈ sessionsOf s f, id ∈ left → id ∈ victims) →
    ∃ q, (Progress.ejecting f til left).Moves op r s (k s).1 q ∧ (k s).2.Follows banProtocol q

theorem eject_follows {victim : ClientId} {victims : List ClientId} {k : Handler}
    (hk : EjectsRest f til victims k) :
    (onYield (ejectAndClose victim .banned k)).Follows banProtocol (.ejecting f til (victim :: victims)) := by
  refine follows_onYield (.inl rfl) fun s => ?_
  unfold ejectAndClose
  split
  · rename_i hnone
    refine hk (victim :: victims) _ _ s fun id hid hm => ?_
    rcases List.mem_cons.mp hm with rfl | hm
    · exact absurd hid (eject_none (by rw [hnone]) f)
    · exact hm
  · rename_i t he
    obtain ⟨hcalm, hsilent, hgone⟩ := eject_some he
    refine ⟨.ejecting f til victims, .ejects hcalm hsilent fun id hid hm => ?_, ?_⟩
    · rcases List.mem_cons.mp hm with rfl | hm
      · exact absurd hid (hgone f)
      · exact hm
    · exact follows_onSleep (.inr rfl) fun s => hk victims _ _ s fun _ _ hm => hm

/-- Victims are ejected one by one; the ban is acknowledged when none is left. -/
theorem ejectVictims_follows (actor : ClientId) (nonce : UInt64) (victims : List ClientId) :
    EjectsRest f til victims (ejectVictims actor nonce victims) := by
  induction victims with
  | nil =>
    intro left op r s hleft
    have hcalm : Calm s (ack s actor nonce) := by rw [ack_eq]; exact Calm.deliver ..
    refine ⟨.ended, .ends hcalm fun id hid hm => ?_, follows_done⟩
    exact absurd (hleft id (hcalm.sessions f hid) hm) List.not_mem_nil
  | cons victim victims ih =>
    intro left op r s hleft
    exact ⟨.ejecting f til (victim :: victims), .ejects (Calm.refl s) (Silent.refl s) hleft, eject_follows ih⟩

theorem banSave_follows (actor : ClientId) (nonce : UInt64) (b : BanEntry) :
    (banSave actor nonce b).Follows banProtocol (.writing b.fingerprint b.untilUnixMs) := by
  refine ⟨.inr ⟨b, rfl, rfl, rfl⟩, fun r s hr => ?_⟩
  obtain rfl : r = true := hr
  simp only [if_true]
  cases hv : sessionsOf s b.fingerprint with
  | nil =>
    have hcalm : Calm s (ack s actor nonce) := by rw [ack_eq]; exact Calm.deliver ..
    exact ⟨.ended, .scansNone hv hcalm, follows_done⟩
  | cons victim victims =>
    have hscan := Progress.Moves.scans (b := b) (s := s)
    rw [hv] at hscan
    exact ⟨_, hscan, eject_follows (ejectVictims_follows actor nonce victims)⟩

/-- Where a job stands after its first steps. -/
structure Starts (cmd : BanCommand) (s : Shared) (q : Progress) : Prop where
  follows : (cmd.handle s).2.Follows banProtocol q
  silent : Silent s (cmd.handle s).1
  now : (cmd.handle s).1.nowUnixMs = s.nowUnixMs
  store : (cmd.handle s).1.store = s.store
  sessions : s.store = true → ∀ f, sessionsOf (cmd.handle s).1 f ⊆ sessionsOf s f

theorem Starts.calm {cmd : BanCommand} {s s' : Shared} {t : Todo} {q : Progress} (hr : cmd.handle s = (s', t))
    (hcalm : Calm s s') (hsilent : Silent s s') (ht : t.Follows banProtocol q) : Starts cmd s q := by
  constructor <;> rw [hr]
  · exact ht
  · exact hsilent
  · exact hcalm.now
  · exact hcalm.store
  · exact fun _ => hcalm.sessions

/-- What a command of this kind is at, if not over. -/
def BanCommand.Serves : BanCommand → Progress → Prop
  | _, .ended => True
  | .handshake auth, .checking f _ => f = auth.identity.fingerprint
  | .ban _ _ f _ til, .vetting g u | .ban _ _ f _ til, .writing g u | .ban _ _ f _ til, .ejecting g u _ =>
    g = f ∧ u = til
  | .unban _ _ f, .lifting g => g = f
  | _, _ => False

theorem handshake_starts (auth : ClientAuth) (s : Shared) :
    Starts (.handshake auth) s .ended ∨
      (s.store = true ∧ Starts (.handshake auth) s (.checking auth.identity.fingerprint s.nowUnixMs)) := by
  have hh : (BanCommand.handshake auth).handle s = handshake auth s := rfl
  unfold handshake at hh
  split at hh
  · exact .inl (.calm hh (Calm.refl s) (Silent.refl s) (reject_follows _))
  · split at hh
    · rename_i hstore
      obtain ⟨hnow, hst, -, hsilent, hf⟩ := admitClient_follows auth s
      refine .inl ⟨by rwa [hh], by rwa [hh], by rwa [hh], by rwa [hh], fun h => ?_⟩
      rw [h] at hstore
      cases hstore
    · rename_i hstore
      refine .inr ⟨by simpa using hstore, .calm hh (Calm.refl s) (Silent.refl s) ⟨rfl, fun r t hr => ?_⟩⟩
      cases r with
      | none => cases hr
      | some answer =>
      cases answer with
      | some ban => exact ⟨.ended, .turnedAway (Calm.refl t) (Silent.refl t), reject_follows _⟩
      | none =>
        obtain ⟨hnow, hst, hother, hsilent, hf⟩ := admitClient_follows auth t
        exact ⟨.ended, .admits hnow hst hother hsilent, hf⟩

theorem ban_starts (actor : ClientId) (nonce : UInt64) (f : Fingerprint) (reason : String) (til : Option UInt64)
    (s : Shared) :
    Starts (.ban actor nonce f reason til) s .ended ∨ Starts (.ban actor nonce f reason til) s (.vetting f til) := by
  have hh : (BanCommand.ban actor nonce f reason til).handle s = ban actor nonce f reason til s := rfl
  unfold ban at hh
  split at hh
  · exact .inl (.calm hh (Calm.refuse ..) Silent.refuse follows_done)
  · refine .inr (.calm hh (Calm.refl s) (Silent.refl s) (follows_onYield rfl fun s => ?_))
    split
    · exact ⟨.ended, .refused (Calm.refuse ..) Silent.refuse, follows_done⟩
    refine ⟨.vetting f til, .vets, follows_onYield rfl fun s => ?_⟩
    split
    · exact ⟨.ended, .refused (Calm.refuse ..) Silent.refuse, follows_done⟩
    split
    · exact ⟨.ended, .refused (Calm.refuse ..) Silent.refuse, follows_done⟩
    rename_i hstore
    refine ⟨.writing f til, .passes (by simpa using hstore), follows_onYield (.inl rfl) fun s => ?_⟩
    exact ⟨.writing f til, .waits, banSave_follows actor nonce _⟩

theorem unban_starts (actor : ClientId) (nonce : UInt64) (f : Fingerprint) (s : Shared) :
    Starts (.unban actor nonce f) s .ended ∨ Starts (.unban actor nonce f) s (.lifting f) := by
  have hh : (BanCommand.unban actor nonce f).handle s = unban actor nonce f s := rfl
  unfold unban at hh
  split at hh
  · exact .inl (.calm hh (Calm.refuse ..) Silent.refuse follows_done)
  split at hh
  · exact .inl (.calm hh (Calm.refuse ..) Silent.refuse follows_done)
  refine .inr (.calm hh (Calm.refl s) (Silent.refl s) ⟨rfl, fun r s hr => ⟨.ended, .lifts ?_, ?_⟩⟩)
  · obtain rfl : r = true := hr
    simp only [if_true, ack_eq]
    exact Calm.deliver ..
  · obtain rfl : r = true := hr
    exact follows_done

end

/-! ## The row of a ban -/

def BanStored (db : Db) (f : Fingerprint) (til : Option UInt64) : Prop :=
  ∃ row ∈ db.bans.rows, row.fingerprint = f.toText ∧ covers (row.untilUnixMs.map Int64.toUInt64) til

section
variable {db : Db} {f : Fingerprint} {til : Option UInt64}

theorem BanStored.lapsed {n now : UInt64} (h : BanStored db f til) (hc : db.activeBan f n = some none) (hn : n ≤ now) :
    lapsed til now := by
  obtain ⟨row, hrow, hf, hcov⟩ := h
  unfold Db.activeBan at hc
  rw [← hf, Keyed.get_of_mem db.bans.unique hrow] at hc
  obtain ⟨ban, hban, hnone⟩ := Option.map_eq_some_iff.mp hc
  have htil : ban.untilUnixMs = row.untilUnixMs.map Int64.toUInt64 := by
    unfold rowToBan at hban
    split at hban
    · cases hban; rfl
    · cases hban
  rw [← htil] at hcov
  refine lapsed_of_covers hcov ?_ hn
  cases hu : ban.untilUnixMs with
  | none => rw [hu] at hnone; cases hnone
  | some t =>
    rw [hu] at hnone
    dsimp only at hnone
    split at hnone
    · assumption
    · cases hnone

theorem mem_insertBan {db : Db} {b : BanEntry} {row : BanRow} :
    row ∈ (db.insertBan b).bans.rows ↔
      row = banRow b ∨ (row ∈ db.bans.rows ∧ row.fingerprint ≠ b.fingerprint.toText) := by
  refine Keyed.Table.mem_upsert fun old hk => ?_
  rw [hk]

theorem stored_insertBan (db : Db) (b : BanEntry) {til : Option UInt64} (h : covers b.untilUnixMs til) :
    BanStored (db.insertBan b) b.fingerprint til := by
  refine ⟨banRow b, mem_insertBan.mpr (.inl rfl), rfl, ?_⟩
  have hround : (banRow b).untilUnixMs.map Int64.toUInt64 = b.untilUnixMs := by
    simp [banRow, bigint, Function.comp_def]
  rwa [hround]

theorem BanStored.insertBan (h : BanStored db f til) {b : BanEntry} (hne : f ≠ b.fingerprint) :
    BanStored (db.insertBan b) f til := by
  obtain ⟨row, hrow, hf, hcov⟩ := h
  refine ⟨row, mem_insertBan.mpr (.inr ⟨hrow, ?_⟩), hf, hcov⟩
  rw [hf]
  exact fun e => hne (Fingerprint.toText_inj e)

theorem BanStored.deleteBan (h : BanStored db f til) {g : Fingerprint} (hne : f ≠ g) :
    BanStored (db.deleteBan g) f til := by
  obtain ⟨row, hrow, hf, hcov⟩ := h
  refine ⟨row, Keyed.Table.mem_delete.mpr ⟨hrow, ?_⟩, hf, hcov⟩
  rw [hf]
  simpa using fun e => hne (Fingerprint.toText_inj e)

end

/-! ## What holds in every orderly run -/

def NoneCleared (p : BanPool) (f : Fingerprint) : Prop :=
  ∀ k j, p.jobs k = some j → ¬ Cleared f j

structure Guarded (st : BanRun) (q : Nat → Progress) : Prop where
  follows : st.pool.Follows banProtocol q
  serves : ∀ i j, st.pool.jobs i = some j → ∃ cmd, st.command i = some cmd ∧ cmd.Serves (q i)
  clock : ∀ i f n, q i = .checking f n → n ≤ st.pool.state.nowUnixMs
  backed : ∀ i f til, q i = .writing f til ∨ (∃ victims, q i = .ejecting f til victims) → st.pool.state.store = true
  answered : ∀ i j b r, st.pool.jobs i = some j → j.answer = some ⟨.save (.insertBan b), r⟩ → st.wrote i = some b
  ejecting : ∀ i j f til victims, st.pool.jobs i = some j → q i = .ejecting f til victims →
    (∃ b, st.wrote i = some b ∧ b.fingerprint = f ∧ b.untilUnixMs = til) ∧
      (¬ lapsed til st.pool.state.nowUnixMs →
        sessionsOf st.pool.state f ⊆ victims ∧ NoneCleared st.pool f)
  stored : ∀ f til, st.Stands f til → BanStored st.pool.world.db f til
  acked : ∀ f, ∀ til ∈ st.inForce f, st.pool.state.store = true ∧
    (¬ lapsed til st.pool.state.nowUnixMs → sessionsOf st.pool.state f = [] ∧ NoneCleared st.pool f)

theorem lapsed_mono {til : Option UInt64} {n now : UInt64} (h : lapsed til n) (hn : n ≤ now) : lapsed til now :=
  lapsed_of_covers (covers_refl til) h hn

section
variable {st : BanRun} {q : Nat → Progress}

theorem Guarded.outside (h : Guarded st q) {s : Shared} (hnow : st.pool.state.nowUnixMs ≤ s.nowUnixMs)
    (hstore : s.store = st.pool.state.store) (hs : ∀ f, sessionsOf s f ⊆ sessionsOf st.pool.state f) :
    Guarded { st with pool := ⟨s, st.pool.world, st.pool.jobs⟩ } q where
  follows := h.follows
  serves := h.serves
  clock i f n hq := UInt64.le_trans (h.clock i f n hq) hnow
  backed i f til hq := hstore.trans (h.backed i f til hq)
  answered := h.answered
  ejecting i j f til victims hj hq := by
    obtain ⟨hb, hsess⟩ := h.ejecting i j f til victims hj hq
    refine ⟨hb, fun hl => ?_⟩
    obtain ⟨hsub, hnone⟩ := hsess fun h => hl (lapsed_mono h hnow)
    exact ⟨List.Subset.trans (hs f) hsub, hnone⟩
  stored f til hst := h.stored f til ⟨fun h => hst.1 (lapsed_mono h hnow), hst.2⟩
  acked f til hf := by
    obtain ⟨hst, hsess⟩ := h.acked f til hf
    refine ⟨hstore.trans hst, fun hl => ?_⟩
    obtain ⟨hnil, hnone⟩ := hsess fun h => hl (lapsed_mono h hnow)
    exact ⟨List.subset_nil.mp (hnil ▸ hs f), hnone⟩

theorem NoneCleared.set {p : BanPool} {f : Fingerprint} (h : NoneCleared p f) {i : Nat}
    {j : BanJob} (hj : ¬ Cleared f j) (s : Shared) (w : World) :
    NoneCleared ⟨s, w, p.set i j⟩ f := by
  intro k j' hk
  rcases Async.set_eq hk with ⟨-, rfl⟩ | ⟨-, hk⟩
  · exact hj
  · exact h k j' hk

theorem Guarded.unfinished (h : Guarded st q) {i : Nat} {j : BanJob}
    (hj : st.pool.jobs i = some j) (hq : q i ≠ .ended) : ¬ j.finished := by
  intro hfin
  have hf := h.follows i j hj
  unfold Job.Follows at hf
  rw [show j.phase = .waiting .done from hfin] at hf
  exact hq hf

theorem Guarded.stands_ejecting (h : Guarded st q) {i : Nat} {j : BanJob} {f : Fingerprint}
    {til : Option UInt64} {victims : List ClientId} (hj : st.pool.jobs i = some j)
    (hq : q i = .ejecting f til victims) (hl : ¬ lapsed til st.pool.state.nowUnixMs) : st.Stands f til := by
  obtain ⟨⟨b, hb, hf, ht⟩, -⟩ := h.ejecting i j f til victims hj hq
  exact ⟨hl, .inr ⟨i, b, j, hb, hf, ht, hj, h.unfinished hj (by rw [hq]; exact Progress.noConfusion)⟩⟩

theorem answered_of_performs {op : Await} {w w' : World} {r : op.Reply} (h : Performs op w r w') : Answered op r := by
  cases h with
  | save => rfl
  | load => rfl
  | _ => trivial

/-- What a performed operation does to the bans that stand: only the row of a
ban or an unban is written. -/
theorem stored_perform {op : Await} {w w' : World} {r : op.Reply} {x : Progress} (ho : x.Offers op)
    (hp : Performs op w r w') :
    (∃ b, op = .save (.insertBan b) ∧ w'.db = w.db.insertBan b) ∨
      (∃ f, op = .save (.deleteBan f) ∧ w'.db = w.db.deleteBan f) ∨
      (w'.db = w.db ∧ ∀ call, op ≠ .save call) := by
  have hidle : (∀ call, op ≠ .save call) → w'.db = w.db := by
    intro hn
    cases hp with
    | save => exact absurd rfl (hn _)
    | _ => rfl
  cases x with
  | ended =>
    have hn : ∀ call, op ≠ .save call := by
      rintro call rfl
      rcases ho with h | ⟨_, h⟩ <;> cases h
    exact .inr (.inr ⟨hidle hn, hn⟩)
  | checking f now =>
    have hn : ∀ call, op ≠ .save call := by rintro call rfl; cases ho
    exact .inr (.inr ⟨hidle hn, hn⟩)
  | vetting f til =>
    have hn : ∀ call, op ≠ .save call := by rintro call rfl; cases ho
    exact .inr (.inr ⟨hidle hn, hn⟩)
  | writing f til =>
    rcases ho with rfl | ⟨b, rfl, -, -⟩
    · exact .inr (.inr ⟨hidle (by rintro call h; cases h), by rintro call h; cases h⟩)
    · cases hp with
      | save hdb => exact .inl ⟨b, rfl, (Option.some.inj hdb).symm⟩
  | ejecting f til victims =>
    have hn : ∀ call, op ≠ .save call := by
      rintro call rfl
      rcases ho with h | h <;> cases h
    exact .inr (.inr ⟨hidle hn, hn⟩)
  | lifting f =>
    obtain rfl : op = _ := ho
    cases hp with
    | save hdb => exact .inr (.inl ⟨f, rfl, (Option.some.inj hdb).symm⟩)

theorem performed_wrote {st : BanRun} {i : Nat} {j : BanJob} {op : Await} (hj : st.pool.jobs i = some j)
    (hop : j.awaiting = some op) (p : BanPool) (k : Nat) :
    (st.performed i p).wrote k = if k = i then op.ban?.or (st.wrote i) else st.wrote k := by
  unfold BanRun.performed
  rw [hj, Option.bind_some, hop]
  rfl

theorem ban?_eq_none {op : Await} (h : ∀ b, op ≠ .save (.insertBan b)) : op.ban? = none := by
  unfold Await.ban?
  split
  · exact absurd rfl (h _)
  · rfl

theorem Guarded.perform (h : Guarded st q) {i : Nat} {p' : BanPool}
    (hok : Orderly st (.perform i)) (hst : Pool.Step Performs st.pool (.perform i) p') :
    Guarded (st.performed i p') q := by
  cases hst with
  | @perform _ j op effect next r w' hj hph hp =>
  obtain ⟨ho, hfollows⟩ := h.follows.perform hj hph (answered_of_performs hp) w'
  have haw : j.awaiting = some op := Job.awaiting_eq hph
  have hwrote := performed_wrote hj haw
    ⟨st.pool.state, w', st.pool.set i ⟨j.seen, true, .answered op r effect next⟩⟩
  obtain ⟨hshorten, hdelete⟩ := hok j hj
  have hunfin : ¬ j.finished := by unfold Job.finished; rw [hph]; exact fun e => by cases e
  -- A ban that stood before, or the one that is written now.
  have hstands : ∀ f til, (st.performed i
        ⟨st.pool.state, w', st.pool.set i ⟨j.seen, true, .answered op r effect next⟩⟩).Stands f til →
      st.Stands f til ∨ ∃ b, op = .save (.insertBan b) ∧ b.fingerprint = f ∧ b.untilUnixMs = til := by
    rintro f til ⟨hl, hin | ⟨k, b, j', hb, hf, ht, hj', hfin⟩⟩
    · exact .inl ⟨hl, .inl hin⟩
    · rw [hwrote] at hb
      rcases Async.set_eq hj' with ⟨rfl, rfl⟩ | ⟨hne, hj'⟩
      · rw [if_pos rfl] at hb
        by_cases hop : ∃ b, op = .save (.insertBan b)
        · obtain ⟨b', rfl⟩ := hop
          cases hb
          exact .inr ⟨b, rfl, hf, ht⟩
        · rw [ban?_eq_none fun b e => hop ⟨b, e⟩, Option.none_or] at hb
          exact .inl ⟨hl, .inr ⟨k, b, j, hb, hf, ht, hj, hunfin⟩⟩
      · rw [if_neg hne] at hb
        exact .inl ⟨hl, .inr ⟨k, b, j', hb, hf, ht, hj', hfin⟩⟩
  -- A check meets the row of a ban that stands.
  have hclear : ∀ f til, st.Stands f til → ¬ Cleared f ⟨j.seen, true, .answered op r effect next⟩ := by
    rintro f til hstand ⟨n, hans⟩
    cases hans
    have hn : n ≤ st.pool.state.nowUnixMs := by
      cases hq : q i with
      | checking g m =>
        have ho : Progress.Offers (q i) _ := ho
        rw [hq] at ho
        cases ho
        exact h.clock i f n hq
      | _ =>
        have ho : Progress.Offers (q i) _ := ho
        rw [hq] at ho
        simp [Progress.Offers] at ho
    cases hp with
    | load hload => exact hstand.1 ((h.stored f til hstand).lapsed hload hn)
  refine ⟨hfollows, ?_, h.clock, h.backed, ?_, ?_, ?_, ?_⟩
  · intro k j' hk
    rcases Async.set_eq hk with ⟨rfl, rfl⟩ | ⟨-, hk⟩
    · exact h.serves k j hj
    · exact h.serves k j' hk
  · intro k j' b r' hk hans
    rw [hwrote]
    rcases Async.set_eq hk with ⟨rfl, rfl⟩ | ⟨hne, hk⟩
    · cases hans
      rw [if_pos rfl]
      rfl
    · rw [if_neg hne]
      exact h.answered k j' b r' hk hans
  · intro k j' f til victims hk hq
    rcases Async.set_eq hk with ⟨rfl, rfl⟩ | ⟨hne, hk⟩
    · obtain ⟨⟨b, hb, hf⟩, hs⟩ := h.ejecting k j f til victims hj hq
      have hban : op.ban? = none := by
        have ho : Progress.Offers (q k) op := ho
        rw [hq] at ho
        rcases ho with rfl | rfl <;> rfl
      refine ⟨⟨b, by rw [hwrote, if_pos rfl, hban, hb]; rfl, hf⟩, fun hl => ⟨(hs hl).1, (hs hl).2.set ?_ _ _⟩⟩
      exact hclear f til (h.stands_ejecting hj hq hl)
    · obtain ⟨⟨b, hb, hf⟩, hs⟩ := h.ejecting k j' f til victims hk hq
      refine ⟨⟨b, by rw [hwrote, if_neg hne, hb], hf⟩, fun hl => ⟨(hs hl).1, (hs hl).2.set ?_ _ _⟩⟩
      exact hclear f til (h.stands_ejecting hk hq hl)
  · intro f til hstand
    change BanStored w'.db f til
    rcases stored_perform ho hp with ⟨b, rfl, hdb⟩ | ⟨g, rfl, hdb⟩ | ⟨hdb, hn⟩
    · rw [hdb]
      rcases hstands f til hstand with hold | ⟨b', hb', hf, ht⟩
      · by_cases hf : f = b.fingerprint
        · subst hf
          exact stored_insertBan _ b (hshorten b haw til hold)
        · exact (h.stored f til hold).insertBan hf
      · cases hb'
        subst hf ht
        exact stored_insertBan _ b (covers_refl _)
    · rw [hdb]
      rcases hstands f til hstand with hold | ⟨_, hb, -, -⟩
      · refine (h.stored f til hold).deleteBan ?_
        rintro rfl
        exact hdelete f haw til hold
      · cases hb
    · rw [hdb]
      rcases hstands f til hstand with hold | ⟨_, hb, -, -⟩
      · exact h.stored f til hold
      · exact absurd hb (hn _)
  · intro f til hin
    obtain ⟨hstore, hs⟩ := h.acked f til hin
    refine ⟨hstore, fun hl => ?_⟩
    obtain ⟨hnil, hnone⟩ := hs hl
    exact ⟨hnil, hnone.set (hclear f til ⟨hl, .inl hin⟩) _ _⟩

theorem Progress.Moves.now {x y : Progress} {op : Await} {r : op.Reply} {s s' : Shared} (h : x.Moves op r s s' y) :
    s'.nowUnixMs = s.nowUnixMs ∧ s'.store = s.store := by
  cases h with
  | admits hnow hstore => exact ⟨hnow, hstore⟩
  | vets | passes | waits | scans => exact ⟨rfl, rfl⟩
  | scansNone _ hc => exact ⟨hc.now, hc.store⟩
  | idle hc | turnedAway hc | refused hc | ejects hc | ends hc | lifts hc => exact ⟨hc.now, hc.store⟩

theorem Progress.Moves.sessions {x y : Progress} {op : Await} {r : op.Reply} {s s' : Shared} (h : x.Moves op r s s' y)
    (f : Fingerprint) :
    sessionsOf s' f ⊆ sessionsOf s f ∨
      ∃ now, (⟨op, r⟩ : (op : Await) × op.Reply) = ⟨.load (.activeBan f now), some none⟩ := by
  cases h with
  | @admits g now _ _ _ _ hother =>
    by_cases hf : f = g
    · subst hf
      exact .inr ⟨now, rfl⟩
    · exact .inl (hother f hf)
  | vets | passes | waits | scans => exact .inl (List.Subset.refl _)
  | scansNone _ hc => exact .inl (hc.sessions f)
  | idle hc | turnedAway hc | refused hc | ejects hc | ends hc | lifts hc => exact .inl (hc.sessions f)

theorem Progress.Moves.serves {x y : Progress} {op : Await} {r : op.Reply} {s s' : Shared} (h : x.Moves op r s s' y)
    {cmd : BanCommand} (hc : cmd.Serves x) : cmd.Serves y := by
  cases h with
  | vets | waits => exact hc
  | passes | scans | ejects => cases cmd <;> exact hc
  | _ => cases cmd <;> trivial

theorem Progress.Moves.acked {x y : Progress} {op : Await} {r : op.Reply} {s s' : Shared} (h : x.Moves op r s s' y)
    {actor : ClientId} {nonce : UInt64} (ha : Acked s s' actor nonce) :
    (∃ f, x = .lifting f) ∨
      (∃ b, x = .writing b.fingerprint b.untilUnixMs ∧
        (⟨op, r⟩ : (op : Await) × op.Reply) = ⟨.save (.insertBan b), true⟩ ∧ sessionsOf s' b.fingerprint = []) ∨
      ∃ f til victims, x = .ejecting f til victims ∧ sessionsOf s' f ⊆ sessionsOf s f ∧
        ∀ id ∈ sessionsOf s' f, id ∉ victims := by
  cases h with
  | lifts => exact .inl ⟨_, rfl⟩
  | @scansNone b _ _ hnil hc =>
    exact .inr (.inl ⟨b, rfl, rfl, List.subset_nil.mp (hnil ▸ hc.sessions b.fingerprint)⟩)
  | ends hc hgone => exact .inr (.inr ⟨_, _, _, rfl, hc.sessions _, hgone⟩)
  | vets | passes | waits | scans => exact absurd ha (Silent.refl s _ _)
  | admits _ _ _ hs => exact absurd ha (hs _ _)
  | idle _ hs | turnedAway _ hs | refused _ hs | ejects _ hs => exact absurd ha (hs _ _)

theorem Progress.Moves.not_checking {x : Progress} {op : Await} {r : op.Reply} {s s' : Shared} {f : Fingerprint}
    {n : UInt64} : ¬ x.Moves op r s s' (.checking f n) := by
  intro h
  cases h

theorem Progress.Moves.writing {x : Progress} {op : Await} {r : op.Reply} {s s' : Shared} {f : Fingerprint}
    {til : Option UInt64} (h : x.Moves op r s s' (.writing f til)) : s.store = true ∨ x = .writing f til := by
  cases h with
  | passes hs => exact .inl hs
  | waits => exact .inr rfl

/-- Ejecting starts from the roster as it is read, and goes on with whoever is left. -/
theorem Progress.Moves.ejecting {x : Progress} {op : Await} {r : op.Reply} {s s' : Shared} {f : Fingerprint}
    {til : Option UInt64} {victims : List ClientId} (h : x.Moves op r s s' (.ejecting f til victims)) :
    (∃ b, b.fingerprint = f ∧ b.untilUnixMs = til ∧ x = .writing f til ∧
        (⟨op, r⟩ : (op : Await) × op.Reply) = ⟨.save (.insertBan b), true⟩ ∧ sessionsOf s' f = victims) ∨
      ∃ before, x = .ejecting f til before ∧ sessionsOf s' f ⊆ sessionsOf s f ∧
        ∀ id ∈ sessionsOf s' f, id ∈ before → id ∈ victims := by
  cases h with
  | scans => exact .inl ⟨_, rfl, rfl, rfl, rfl, rfl⟩
  | ejects hc _ hsub => exact .inr ⟨_, rfl, hc.sessions f, hsub⟩

theorem mem_credit {s s' : Shared} {inForce : Fingerprint → List (Option UInt64)} {cmd : Option BanCommand}
    {f : Fingerprint} {til : Option UInt64} (h : til ∈ credit s s' inForce cmd f) :
    til ∈ inForce f ∨ ∃ actor nonce reason, cmd = some (.ban actor nonce f reason til) ∧ Acked s s' actor nonce := by
  unfold credit at h
  split at h
  · rename_i actor nonce g reason u
    split at h
    · rename_i hc
      rcases List.mem_cons.mp h with rfl | h
      · obtain ⟨rfl, ha⟩ := hc
        exact .inr ⟨actor, nonce, reason, rfl, ha⟩
      · exact .inl h
    · exact .inl h
  · exact .inl h

theorem Guarded.resume (h : Guarded st q) {i : Nat} {p' : BanPool} (hok : Orderly st (.resume i))
    (hst : Pool.Step Performs st.pool (.resume i) p') : ∃ q', Guarded (st.resumed i p') q' := by
  cases hst with
  | @resume _ j op effect next r hj hph =>
  obtain ⟨ho, x, hm, ht, hfollows⟩ := h.follows.resume hj hph st.pool.world
  have hm : (q i).Moves op r st.pool.state (effect r st.pool.state) x := hm
  have hans : j.answer = some ⟨op, r⟩ := Job.answer_eq hph
  have hunfin : ¬ j.finished := by unfold Job.finished; rw [hph]; exact fun e => by cases e
  obtain ⟨hnow, hstore⟩ := hm.now
  have hwait : ∀ f, ¬ Cleared f (⟨j.seen, j.begun, .waiting (next r st.pool.state)⟩ : BanJob) := by
    rintro f ⟨n, hn⟩
    cases hn
  -- Nobody comes in under a ban that leaves no handshake cleared.
  have hsess : ∀ f, NoneCleared st.pool f →
      sessionsOf (effect r st.pool.state) f ⊆ sessionsOf st.pool.state f := by
    intro f hnone
    rcases hm.sessions f with hs | ⟨n, he⟩
    · exact hs
    · exact absurd ⟨n, he ▸ hans⟩ (hnone i j hj)
  -- The ban that is acknowledged now.
  have hnew : ∀ f til actor nonce reason, st.command i = some (.ban actor nonce f reason til) →
      Acked st.pool.state (effect r st.pool.state) actor nonce →
      st.pool.state.store = true ∧ (¬ lapsed til st.pool.state.nowUnixMs → st.Stands f til ∧
        sessionsOf (effect r st.pool.state) f = [] ∧ NoneCleared st.pool f) := by
    intro f til actor nonce reason hcmd hack
    obtain ⟨cmd, hc, hserves⟩ := h.serves i j hj
    obtain rfl : cmd = _ := Option.some.inj (hc.symm.trans hcmd)
    rcases hm.acked hack with ⟨g, hx⟩ | ⟨b, hx, he, hnil⟩ | ⟨g, u, victims, hx, hsub, hgone⟩
    · rw [hx] at hserves; exact absurd hserves id
    · rw [hx] at hserves
      obtain ⟨rfl, rfl⟩ := hserves
      rw [he] at hans
      refine ⟨h.backed i _ _ (.inl hx), fun hl => ⟨⟨hl, .inr ⟨i, b, j, ?_, rfl, rfl, hj, hunfin⟩⟩, hnil, ?_⟩⟩
      · exact h.answered i j b _ hj hans
      · exact hok j b _ hj hans
    · rw [hx] at hserves
      obtain ⟨rfl, rfl⟩ := hserves
      refine ⟨h.backed i _ _ (.inr ⟨_, hx⟩), fun hl => ⟨h.stands_ejecting hj hx hl, ?_⟩⟩
      obtain ⟨-, hs⟩ := h.ejecting i j _ _ victims hj hx
      refine ⟨List.eq_nil_iff_forall_not_mem.mpr fun id hid => ?_, (hs hl).2⟩
      exact hgone id hid ((hs hl).1 (hsub hid))
  refine ⟨Async.moved q i x, hfollows, ?_, ?_, ?_, ?_, ?_, ?_, ?_⟩
  · intro k j' hk
    rcases Async.set_eq hk with ⟨rfl, rfl⟩ | ⟨hne, hk⟩
    · obtain ⟨cmd, hc, hserves⟩ := h.serves k j hj
      exact ⟨cmd, hc, by rw [Async.moved_self]; exact hm.serves hserves⟩
    · obtain ⟨cmd, hc, hserves⟩ := h.serves k j' hk
      exact ⟨cmd, hc, by rwa [Async.moved_ne q x hne]⟩
  · intro k f n hk
    change n ≤ (effect r st.pool.state).nowUnixMs
    rw [hnow]
    by_cases hki : k = i
    · subst hki
      rw [Async.moved_self] at hk
      exact absurd (hk ▸ hm) Progress.Moves.not_checking
    · rw [Async.moved_ne q x hki] at hk
      exact h.clock k f n hk
  · intro k f til hk
    change (effect r st.pool.state).store = true
    rw [hstore]
    by_cases hki : k = i
    · subst hki
      rw [Async.moved_self] at hk
      rcases hk with rfl | ⟨victims, rfl⟩
      · exact hm.writing.elim id fun hx => h.backed k f til (.inl hx)
      · rcases hm.ejecting with ⟨b, -, -, hx, -, -⟩ | ⟨before, hx, -, -⟩
        · exact h.backed k f til (.inl hx)
        · exact h.backed k f til (.inr ⟨before, hx⟩)
    · rw [Async.moved_ne q x hki] at hk
      exact h.backed k f til hk
  · intro k j' b r' hk hans'
    rcases Async.set_eq hk with ⟨rfl, rfl⟩ | ⟨-, hk⟩
    · cases hans'
    · exact h.answered k j' b r' hk hans'
  · intro k j' f til victims hk hq
    rcases Async.set_eq hk with ⟨rfl, rfl⟩ | ⟨hne, hk⟩
    · rw [Async.moved_self] at hq
      subst hq
      rcases hm.ejecting with ⟨b, hf, ht, hx, he, hv⟩ | ⟨before, hx, hsub, hleft⟩
      · rw [he] at hans
        refine ⟨⟨b, h.answered k j b _ hj hans, hf, ht⟩, fun _ => ⟨hv ▸ List.Subset.refl _, ?_⟩⟩
        subst hf
        exact NoneCleared.set (hok j b _ hj hans) (hwait _) _ _
      · obtain ⟨hb, hs⟩ := h.ejecting k j f til before hj hx
        refine ⟨hb, fun hl => ?_⟩
        obtain ⟨hbefore, hnone⟩ := hs (hnow ▸ hl)
        exact ⟨fun id hid => hleft id hid (hbefore (hsub hid)), hnone.set (hwait f) _ _⟩
    · rw [Async.moved_ne q x hne] at hq
      obtain ⟨hb, hs⟩ := h.ejecting k j' f til victims hk hq
      refine ⟨hb, fun hl => ?_⟩
      obtain ⟨hsub, hnone⟩ := hs (hnow ▸ hl)
      exact ⟨List.Subset.trans (hsess f hnone) hsub, hnone.set (hwait f) _ _⟩
  · rintro f til ⟨hl, hin | ⟨k, b, j', hb, hf, ht, hj', hfin⟩⟩
    · have hl : ¬ lapsed til st.pool.state.nowUnixMs := by rw [← hnow]; exact hl
      rcases mem_credit hin with hin | ⟨actor, nonce, reason, hcmd, hack⟩
      · exact h.stored f til ⟨hl, .inl hin⟩
      · exact h.stored f til ((hnew f til actor nonce reason hcmd hack).2 hl).1
    · have hlast : ¬ lapsed til st.pool.state.nowUnixMs := by rw [← hnow]; exact hl
      rcases Async.set_eq hj' with ⟨rfl, -⟩ | ⟨-, hj'⟩
      · exact h.stored f til ⟨hlast, .inr ⟨k, b, j, hb, hf, ht, hj, hunfin⟩⟩
      · exact h.stored f til ⟨hlast, .inr ⟨k, b, j', hb, hf, ht, hj', hfin⟩⟩
  · intro f til hin
    rcases mem_credit hin with hin | ⟨actor, nonce, reason, hcmd, hack⟩
    · obtain ⟨hst, hs⟩ := h.acked f til hin
      refine ⟨hstore.trans hst, fun hl => ?_⟩
      obtain ⟨hnil, hnone⟩ := hs (hnow ▸ hl)
      exact ⟨List.subset_nil.mp (hnil ▸ hsess f hnone), hnone.set (hwait f) _ _⟩
    · obtain ⟨hst, hs⟩ := hnew f til actor nonce reason hcmd hack
      refine ⟨hstore.trans hst, fun hl => ?_⟩
      obtain ⟨-, hnil, hnone⟩ := hs (hnow ▸ hl)
      exact ⟨hnil, hnone.set (hwait f) _ _⟩

theorem BanCommand.starts (cmd : BanCommand) (s : Shared) :
    ∃ x, Starts cmd s x ∧ cmd.Serves x ∧ (∀ f n, x = .checking f n → n ≤ s.nowUnixMs) ∧
      ∀ f til, ¬ (x = .writing f til ∨ ∃ victims, x = .ejecting f til victims) := by
  have hover : cmd.Serves .ended := by cases cmd <;> trivial
  have ended : Starts cmd s .ended → ∃ x, Starts cmd s x ∧ cmd.Serves x ∧
      (∀ f n, x = .checking f n → n ≤ s.nowUnixMs) ∧
      ∀ f til, ¬ (x = .writing f til ∨ ∃ victims, x = .ejecting f til victims) :=
    fun hs => ⟨.ended, hs, hover, by simp, by simp⟩
  cases cmd with
  | handshake auth =>
    rcases handshake_starts auth s with hs | ⟨-, hs⟩
    · exact ended hs
    · refine ⟨_, hs, rfl, ?_, by simp⟩
      intro f n e
      cases e
      exact UInt64.le_refl _
  | ban actor nonce f reason til =>
    rcases ban_starts actor nonce f reason til s with hs | hs
    · exact ended hs
    · exact ⟨_, hs, ⟨rfl, rfl⟩, by simp, by simp⟩
  | unban actor nonce f =>
    rcases unban_starts actor nonce f s with hs | hs
    · exact ended hs
    · exact ⟨_, hs, rfl, by simp, by simp⟩

theorem lift_subset (inForce : Fingerprint → List (Option UInt64)) (cmd : BanCommand) (f : Fingerprint) :
    lift inForce cmd f ⊆ inForce f := by
  cases cmd with
  | unban actor nonce g =>
    dsimp only [lift]
    split
    · exact List.nil_subset _
    · exact List.Subset.refl _
  | _ => exact List.Subset.refl _

theorem Guarded.issue (h : Guarded st q) {i : Nat} {cmd : BanCommand} {p' : BanPool}
    (hst : Pool.Step Performs st.pool (.spawn i cmd.handle) p') : ∃ q', Guarded (st.issued i cmd p') q' := by
  cases hst with
  | spawn _ _ hi =>
  obtain ⟨x, hstart, hserves, hclock, hnone⟩ := cmd.starts st.pool.state
  have hfresh : ∀ f, ¬ Cleared f (⟨st.pool.state, false, .waiting (cmd.handle st.pool.state).2⟩ : BanJob) := by
    rintro f ⟨n, hn⟩
    cases hn
  have hin : ∀ f til, til ∈ (st.issued i cmd ⟨(cmd.handle st.pool.state).1, st.pool.world, st.pool.set i
      ⟨st.pool.state, false, .waiting (cmd.handle st.pool.state).2⟩⟩).inForce f → til ∈ st.inForce f := by
    intro f til hf
    rcases mem_credit hf with hf | ⟨actor, nonce, -, -, hack⟩
    · exact lift_subset _ cmd f hf
    · exact absurd hack (hstart.silent actor nonce)
  refine ⟨Async.moved q i x, h.follows.set (j := ⟨_, _, .waiting _⟩) hstart.follows _ _, ?_, ?_, ?_, ?_, ?_, ?_, ?_⟩
  · intro k j hk
    rcases Async.set_eq hk with ⟨rfl, rfl⟩ | ⟨hne, hk⟩
    · exact ⟨cmd, if_pos rfl, by rwa [Async.moved_self]⟩
    · obtain ⟨c, hc, hs⟩ := h.serves k j hk
      exact ⟨c, (if_neg hne).trans hc, by rwa [Async.moved_ne q x hne]⟩
  · intro k f n hk
    change n ≤ (cmd.handle st.pool.state).1.nowUnixMs
    rw [hstart.now]
    by_cases hki : k = i
    · rw [hki, Async.moved_self] at hk
      exact hclock f n hk
    · rw [Async.moved_ne q x hki] at hk
      exact h.clock k f n hk
  · intro k f til hk
    by_cases hki : k = i
    · rw [hki, Async.moved_self] at hk
      exact absurd hk (hnone f til)
    · rw [Async.moved_ne q x hki] at hk
      exact hstart.store.trans (h.backed k f til hk)
  · intro k j b r hk hans
    rcases Async.set_eq hk with ⟨rfl, rfl⟩ | ⟨hne, hk⟩
    · cases hans
    · exact (if_neg hne).trans (h.answered k j b r hk hans)
  · intro k j f til victims hk hq
    rcases Async.set_eq hk with ⟨rfl, rfl⟩ | ⟨hne, hk⟩
    · rw [Async.moved_self] at hq
      exact absurd (.inr ⟨victims, hq⟩) (hnone f til)
    · rw [Async.moved_ne q x hne] at hq
      obtain ⟨⟨b, hb, hf⟩, hs⟩ := h.ejecting k j f til victims hk hq
      refine ⟨⟨b, (if_neg hne).trans hb, hf⟩, fun hl => ?_⟩
      obtain ⟨hsub, hclear⟩ := hs (hstart.now ▸ hl)
      have hstore := h.backed k f til (.inr ⟨victims, hq⟩)
      exact ⟨List.Subset.trans (hstart.sessions hstore f) hsub, hclear.set (hfresh f) _ _⟩
  · rintro f til ⟨hl, hf | ⟨k, b, j, hb, hf, ht, hj, hfin⟩⟩
    · exact h.stored f til ⟨hstart.now ▸ hl, .inl (hin f til hf)⟩
    · rcases Async.set_eq hj with ⟨rfl, -⟩ | ⟨hne, hj⟩
      · exact absurd (hb.symm.trans (if_pos rfl)) (Option.some_ne_none b)
      · exact h.stored f til ⟨hstart.now ▸ hl, .inr ⟨k, b, j, (if_neg hne).symm.trans hb, hf, ht, hj, hfin⟩⟩
  · intro f til hf
    obtain ⟨hst, hs⟩ := h.acked f til (hin f til hf)
    refine ⟨hstart.store.trans hst, fun hl => ?_⟩
    obtain ⟨hnil, hclear⟩ := hs (hstart.now ▸ hl)
    exact ⟨List.subset_nil.mp (hnil ▸ hstart.sessions hst f), hclear.set (hfresh f) _ _⟩

theorem disconnect_calm (s : Shared) (client : ClientId) : Calm s (disconnect s client) := by
  unfold disconnect
  split
  · exact Calm.refl s
  · rename_i info t hr
    obtain rfl : (s.remove client).2 = t := congrArg Prod.snd hr
    rw [Shared.broadcast_eq]
    exact (Calm.remove s client).trans (Calm.deliver ..)

theorem Guarded.step (h : Guarded st q) {e : BanEvent} {st' : BanRun} (hok : Orderly st e) (hst : BanStep st e st') :
    ∃ q', Guarded st' q' := by
  cases hst with
  | issue hp => exact h.issue hp
  | perform hp => exact ⟨q, h.perform hok hp⟩
  | resume hp => exact h.resume hok hp
  | disconnect hp =>
    cases hp
    have hc := disconnect_calm st.pool.state ‹_›
    exact ⟨q, h.outside (hc.now ▸ UInt64.le_refl _) hc.store hc.sessions⟩
  | tick hnow hp =>
    cases hp
    exact ⟨q, h.outside hnow rfl fun f => List.Subset.refl _⟩

end

def BanRun.start (s : Shared) (w : World) : BanRun := ⟨⟨s, w, fun _ => none⟩, fun _ => none, fun _ => none, fun _ => []⟩

theorem BanRun.start_guarded (s : Shared) (w : World) : Guarded (.start s w) fun _ => .ended where
  follows i j hj := by cases hj
  serves i j hj := by cases hj
  clock i f n hq := by cases hq
  backed i f til hq := by rcases hq with hq | ⟨_, hq⟩ <;> cases hq
  answered i j b r hj := by cases hj
  ejecting i j f til victims hj := by cases hj
  stored f til hst := by
    rcases hst.2 with hin | ⟨_, _, _, hb, _⟩
    · cases hin
    · cases hb
  acked f til hin := by cases hin

/-- In every orderly run a ban that has been acknowledged keeps its fingerprint
out of the roster until it lapses or an unban is issued. -/
theorem ban_excludes {s : Shared} {w : World} {st : BanRun} (h : Run BanStep Orderly (.start s w) st)
    {f : Fingerprint} {til : Option UInt64} (hin : til ∈ st.inForce f)
    (hl : ¬ lapsed til st.pool.state.nowUnixMs) : ∀ e ∈ st.pool.state.clients, e.info.fingerprint ≠ f := by
  obtain ⟨q, hg⟩ := h.invariant (fun st => ∃ q, Guarded st q) ⟨_, BanRun.start_guarded s w⟩
    fun st e st' ⟨q, hg⟩ hok hst => hg.step hok hst
  intro e he hf
  have hnil := ((hg.acked f til hin).2 hl).1
  have hmem := mem_sessionsOf.mpr ⟨e, he, hf, rfl⟩
  rw [hnil] at hmem
  cases hmem

/-! ## A ban escaped -/

def banServer : Shared :=
  exampleServer [exampleRole 0 0 .defaultEveryone, exampleRole 1 1 .banMembers] [] [exampleClient 1 1 [1] none]

def knock : ClientAuth :=
  { protocolVersion := protocolVersion, identity := ⟨.rep 9, 8⟩, nickname := "n", password := none,
    signatureOk := true }

theorem orderly_perform {st : BanRun} {i : Nat} {j : BanJob} (hj : st.pool.jobs i = some j)
    (hins : ∀ b, j.awaiting = some (.save (.insertBan b)) → b.untilUnixMs = none)
    (hdel : ∀ f, j.awaiting ≠ some (.save (.deleteBan f))) : Orderly st (.perform i) := by
  intro j' hj'
  obtain rfl : j = j' := Option.some.inj (hj.symm.trans hj')
  refine ⟨fun b hb til _ => ?_, fun f hf => absurd hf (hdel f)⟩
  rw [hins b hb]
  trivial

theorem orderly_resume {st : BanRun} {i : Nat} {j : BanJob} (hj : st.pool.jobs i = some j)
    (hans : ∀ b r, j.answer ≠ some ⟨.save (.insertBan b), r⟩) : Orderly st (.resume i) := by
  intro j' b r hj' hb
  obtain rfl : j = j' := Option.some.inj (hj.symm.trans hj')
  exact absurd hb (hans b r)

def raidServer : Shared :=
  exampleServer [exampleRole 0 0 .defaultEveryone, exampleRole 1 1 .banMembers] []
    [exampleClient 1 1 [1] none, exampleClient 2 9 [] none]

def raidBan : BanEntry :=
  { fingerprint := .rep 9, reason := "", untilUnixMs := none, issuedBy := .rep 1,
    issuedAtUnixMs := raidServer.nowUnixMs }

/-- The row is written; a handshake of the fingerprint asked after that and was told of the ban. -/
theorem raid :
    ∃ st, Run BanStep Orderly (.start raidServer .empty) st ∧ st.command 2 = some (.ban 1 7 (.rep 9) "" none) ∧
      sessionsOf st.pool.state (.rep 9) = [2] ∧ ((st.pool.state.eject 2 .banned).2.client? 1).isSome ∧
      (∀ k j, st.pool.jobs k = some j → ¬ Cleared (.rep 9) j) ∧
      ∃ b seen effect next, banSave 1 7 b = .await (.save (.insertBan b)) effect next ∧ b.fingerprint = .rep 9 ∧
        st.pool.jobs 2 = some ⟨seen, true, .answered (.save (.insertBan b)) true effect next⟩ := by
  refine ⟨_, .step (.perform 3) (.step (.perform 2) (.step (.issue 3 (.handshake knock)) (.step (.resume 2)
    (.step (.perform 2) (.step (.resume 2) (.step (.perform 2) (.step (.resume 2) (.step (.perform 2)
    (.step (.issue 2 (.ban 1 7 (.rep 9) "" none)) .refl
    trivial (.issue (.spawn 2 _ rfl)))
    (orderly_perform rfl (fun _ h => by cases h) fun _ h => by cases h) (.perform (.perform 2 rfl rfl .yield)))
    (orderly_resume rfl fun _ _ h => by cases h) (.resume (.resume 2 rfl rfl)))
    (orderly_perform rfl (fun _ h => by cases h) fun _ h => by cases h) (.perform (.perform 2 rfl rfl .yield)))
    (orderly_resume rfl fun _ _ h => by cases h) (.resume (.resume 2 rfl rfl)))
    (orderly_perform rfl (fun _ h => by cases h) fun _ h => by cases h) (.perform (.perform 2 rfl rfl .yield)))
    (orderly_resume rfl fun _ _ h => by cases h) (.resume (.resume 2 rfl rfl)))
    trivial (.issue (.spawn 3 _ rfl)))
    (orderly_perform rfl (fun _ h => by cases h; rfl) fun _ h => by cases h)
      (.perform (.perform 2 rfl rfl (.save rfl))))
    (orderly_perform rfl (fun _ h => by cases h) fun _ h => by cases h)
      (.perform (.perform 3 rfl rfl (.load (r := some raidBan) (by decide +kernel)))),
    rfl, by decide +kernel, by decide +kernel, ?_, _, _, _, _, rfl, rfl, rfl⟩
  intro k j hk
  rintro ⟨n, hn⟩
  -- The third job was told of the ban, and the second writes it.
  simp only [BanRun.issued, BanRun.resumed, BanRun.performed, Async.set_set] at hk
  rcases Async.set_eq hk with ⟨-, rfl⟩ | ⟨h₃, hk⟩
  · cases hn
  rcases Async.set_eq hk with ⟨-, rfl⟩ | ⟨h₂, hk⟩
  · cases hn
  rcases Async.set_eq hk with ⟨h, -⟩ | ⟨-, hk⟩
  · exact absurd h h₃
  rcases Async.set_eq hk with ⟨h, -⟩ | ⟨-, hk⟩
  · exact absurd h h₂
  cases hk

/-- A job resumes, what its continuation does there worked out. -/
theorem BanStep.resumes {st : BanRun} {i : Nat} {j : BanJob} {op : Await} {r : op.Reply}
    {effect : op.Reply → Shared → Shared} {next : op.Reply → Shared → Todo} {s' : Shared} {t : Todo}
    (hj : st.pool.jobs i = some j) (hp : j.phase = .answered op r effect next) (hs : effect r st.pool.state = s')
    (ht : next r st.pool.state = t) :
    BanStep st (.resume i) (st.resumed i ⟨s', st.pool.world, st.pool.set i ⟨j.seen, j.begun, .waiting t⟩⟩) := by
  subst hs ht
  exact .resume (.resume i hj hp)

/-- A session of the fingerprint is there when it is banned, and a handshake of it
asks while the ban is on its way. -/
theorem ban_excludes_session :
    ∃ st, Run BanStep Orderly (.start raidServer .empty) st ∧ none ∈ st.inForce (.rep 9) ∧
      ∀ e ∈ st.pool.state.clients, e.info.fingerprint ≠ .rep 9 := by
  have hrun : ∃ st, Run BanStep Orderly (.start raidServer .empty) st ∧ none ∈ st.inForce (.rep 9) := by
    obtain ⟨⟨⟨s, w, jobs⟩, command, wrote, inForce⟩, hrun, hcmd, hv, hc, hcl, b, seen, effect, next, hb, hf, hjob⟩ :=
      raid
    dsimp only at hcmd hv hc hcl hjob
    have hread : effect true s = s ∧ next true s = onYield (ejectAndClose 2 .banned (ejectVictims 1 7 [])) := by
      cases hb
      simp [hf, hv, ejectVictims]
    -- The ban finds the session.
    have hthere : ejectAndClose 2 .banned (ejectVictims 1 7 []) s =
        ((s.eject 2 .banned).2, onSleep (ejectVictims 1 7 [])) := by
      obtain ⟨e, he⟩ : ∃ e, (s.eject 2 .banned).1 = some e := by
        cases he : (s.eject 2 .banned).1 with
        | none => exact absurd (hv ▸ List.mem_singleton_self 2) (eject_none he (.rep 9))
        | some e => exact ⟨e, rfl⟩
      unfold ejectAndClose
      split
      · rename_i h
        rw [h] at he
        cases he
      · rename_i h
        rw [h]
    obtain ⟨e, he⟩ := Option.isSome_iff_exists.mp hc
    refine ⟨_, .step (.resume 2) (.step (.perform 2) (.step (.resume 2) (.step (.perform 2) (.step (.resume 2) hrun
      ?_ (.resumes hjob rfl hread.1 hread.2))
      (orderly_perform rfl (fun _ h => by cases h) fun _ h => by cases h) (.perform (.perform 2 rfl rfl .yield)))
      (orderly_resume rfl fun _ _ h => by cases h)
        (.resumes rfl rfl (congrArg Prod.fst hthere) (congrArg Prod.snd hthere)))
      (orderly_perform rfl (fun _ h => by cases h) fun _ h => by cases h) (.perform (.perform 2 rfl rfl .sleep)))
      (orderly_resume rfl fun _ _ h => by cases h) (.resume (.resume 2 rfl rfl)), ?_⟩
    · intro j b' r hj hb' k j' hk
      obtain rfl := Option.some.inj (hjob.symm.trans hj)
      cases hb'
      rw [hf]
      exact hcl k j' hk
    · have hack : Acked (s.eject 2 .banned).2 (ack (s.eject 2 .banned).2 1 7) 1 7 := by
        unfold Acked
        rw [ack_eq, Shared.queue_deliver, List.drop_left, he]
        simp [acks, Shared.client?_id he]
      change none ∈ credit _ _ _ (command 2) _
      rw [hcmd]
      change none ∈ if _ then _ else _
      rw [if_pos ⟨rfl, hack⟩]
      exact List.mem_cons_self
  obtain ⟨st, hrun, hin⟩ := hrun
  exact ⟨st, hrun, hin, ban_excludes hrun hin id⟩

/-- A handshake is told "no ban"; the ban is written, finds nobody and is
acknowledged; the handshake is let in. -/
theorem handshake_escapes_ban :
    ∃ st, Run BanStep (fun _ _ => True) (.start banServer .empty) st ∧ none ∈ st.inForce (.rep 9) ∧
      ¬ lapsed none st.pool.state.nowUnixMs ∧ ¬ ∀ e ∈ st.pool.state.clients, e.info.fingerprint ≠ .rep 9 := by
  refine ⟨_, .step (.resume 1) (.step (.resume 2) (.step (.perform 2) (.step (.resume 2) (.step (.perform 2)
    (.step (.resume 2) (.step (.perform 2) (.step (.resume 2) (.step (.perform 2)
    (.step (.issue 2 (.ban 1 7 (.rep 9) "" none)) (.step (.perform 1) (.step (.issue 1 (.handshake knock)) .refl
    trivial (.issue (.spawn 1 _ rfl)))
    trivial (.perform (.perform 1 rfl rfl (.load rfl))))
    trivial (.issue (.spawn 2 _ rfl)))
    trivial (.perform (.perform 2 rfl rfl .yield)))
    trivial (.resume (.resume 2 rfl rfl)))
    trivial (.perform (.perform 2 rfl rfl .yield)))
    trivial (.resume (.resume 2 rfl rfl)))
    trivial (.perform (.perform 2 rfl rfl .yield)))
    trivial (.resume (.resume 2 rfl rfl)))
    trivial (.perform (.perform 2 rfl rfl (.save rfl))))
    trivial (.resume (.resume 2 rfl rfl)))
    trivial (.resume (.resume 1 rfl rfl)), by decide +kernel, id, by decide +kernel⟩

end PickleChat
