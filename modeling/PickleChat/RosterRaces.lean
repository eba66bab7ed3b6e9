import Mathlib.Data.Finset.Dedup
import Mathlib.Data.Finset.Insert
import Mathlib.Data.Finset.Basic
import PickleChat.Teardown

/-!
# The rosters clients keep

A client starts from the `users` of its `AuthOk`, inserts whom `UserJoined`
names and removes whom `UserLeft` names. An arrival is announced some time after
the entry is made, a departure some time after it is removed, and neither always:
the guard of a failed handshake announces nothing.
-/

namespace PickleChat

open Async (Run)

/-! ## What a client makes of its stream -/

def rosterStep (r : Finset ClientId) : ServerControl → Finset ClientId
  | .userJoined info => insert info.clientId r
  | .userLeft client _ => r.erase client
  | _ => r

def userIds (users : List UserInfo) : List ClientId := users.map UserInfo.clientId

def roster (users : List UserInfo) (control : List ServerControl) : Finset ClientId :=
  control.foldl rosterStep (userIds users).toFinset

def wordAbout (i : ClientId) (word : Option Bool) : ServerControl → Option Bool
  | .userJoined info => if info.clientId = i then some true else word
  | .userLeft client _ => if client = i then some false else word
  | _ => word

def lastWord (i : ClientId) (control : List ServerControl) : Option Bool := control.foldl (wordAbout i) none

theorem lastWord_push (i : ClientId) (e : ConnectedClient) (m : ServerControl) :
    lastWord i (e.push [m]).control = wordAbout i (lastWord i e.control) m := List.foldl_append

theorem heard_other {m : ServerControl} (hm : m.aboutRoster = false) (i : ClientId) (word : Option Bool) :
    wordAbout i word m = word := by
  cases m <;> first | rfl | cases hm

/-! ## What is under way -/

def Phase.unannounced : Phase → Bool
  | admitted | greeting | greeted | failed => true
  | _ => false

def Chore.tells (i : ClientId) : Chore → Prop
  | tellDropped client | tellEjected client _ _ => client = i
  | _ => False

namespace Hall

def Present (h : Hall) (i : ClientId) : Prop := ∃ e ∈ h.shared.clients, e.id = i

def Arriving (h : Hall) (i : ClientId) : Prop := ∃ d ∈ h.connections, d.id = i ∧ d.phase.unannounced = true

def Departing (h : Hall) (i : ClientId) : Prop :=
  (∃ c ∈ h.chores, c.tells i) ∨ ∃ d ∈ h.connections, d.id = i ∧ d.phase = .parting

/-- The client reads its stream and is not about to be dropped. -/
def Follows (h : Hall) (e : ConnectedClient) : Prop := h.listens e = true ∧ .drop e.id ∉ h.chores

/-- What the entry's `AuthOk` says about a client. -/
def listed (h : Hall) (e : ConnectedClient) (i : ClientId) : Option Bool :=
  (h.connection e).bind fun d => if d.phase = .admitted then none else some (decide (i ∈ userIds d.users))

/-- What the entry's client has been told about another. -/
def said (h : Hall) (e : ConnectedClient) (i : ClientId) : Option Bool := (lastWord i e.control).or (h.listed e i)

/-- `e` knows of `i`, or will be told. -/
structure Right (h : Hall) (e : ConnectedClient) (i : ClientId) : Prop where
  joined : h.said e i = some true → h.Present i ∨ h.Departing i
  left : h.said e i = some false → ¬h.Present i ∨ (h.Arriving i ∧ i ≠ e.id)
  unheard : h.Arriving i → lastWord i e.control ≠ some true

structure Informed (h : Hall) : Prop extends h.Sound where
  right : ∀ e ∈ h.shared.clients, h.Follows e → ∀ i, h.Right e i
  departing : ∀ i, h.Departing i → ¬h.Present i

/-- Nobody is given up silently after others have listed it, announced after
being seen off, or dropped unnoticed; and no id in use is handed out again. -/
def Punctual (h : Hall) : Move → Prop
  | .admission _ _ _ => h.Fresh
  | .announce k => ∀ d, h.connections[k]? = some d → h.Present d.id ∨ h.Departing d.id
  | .release k => ∀ d, h.connections[k]? = some d → h.Present d.id →
    ∀ e ∈ h.shared.clients, e.id ≠ d.id → ∀ d', h.connection e = some d' → d.id ∉ userIds d'.users
  | .chore (.tellDropped _) => ∀ e ∈ h.shared.clients, h.full e = true → .drop e.id ∈ h.chores
  | _ => True

section
variable {h h' : Hall} {e e' : ConnectedClient} {i : ClientId}

theorem Right.of_left (hw : lastWord i e.control = some false) (hp : ¬h.Present i) : h.Right e i where
  joined hs := by
    rw [said, hw] at hs
    cases hs
  left _ := .inl hp
  unheard _ hc := by
    rw [hw] at hc
    cases hc

theorem Right.of_joined (hw : lastWord i e.control = some true) (hp : h.Present i ∨ h.Departing i)
    (ha : ¬h.Arriving i) : h.Right e i where
  joined _ := hp
  left hs := by
    rw [said, hw] at hs
    cases hs
  unheard hc := absurd hc ha

/-- Nothing new is said about `i`. -/
theorem Right.keep (hr : h.Right e i) (hw : lastWord i e'.control = lastWord i e.control)
    (hl : lastWord i e.control = none → h'.listed e' i = h.listed e i) (hid : e'.id = e.id)
    (hin : h.said e i = some true → h.Present i ∨ h.Departing i → h'.Present i ∨ h'.Departing i)
    (hout : ¬h.Present i → ¬h'.Present i)
    (harr : h.said e i = some false → i ≠ e.id → h.Arriving i → ¬h'.Present i ∨ h'.Arriving i)
    (hnew : h'.Arriving i → h.Arriving i) : h'.Right e' i := by
  have hsaid : h'.said e' i = h.said e i := by
    rw [said, said, hw]
    cases hc : lastWord i e.control with
    | none => exact hl hc
    | some b => rfl
  refine ⟨fun hs => ?_, fun hs => ?_, fun ha => ?_⟩
  · rw [hsaid] at hs
    exact hin hs (hr.joined hs)
  · rw [hsaid] at hs
    rw [hid]
    rcases hr.left hs with hp | ⟨ha, hne⟩
    · exact .inl (hout hp)
    · exact (harr hs hne ha).imp id fun ha => ⟨ha, hne⟩
  · rw [hw]
    exact hr.unheard (hnew ha)

/-! ## Connections after a change -/

theorem exists_edit {P : Connection → Prop} {k : Nat} {d : Connection} {f : Connection → Connection}
    (hd : h.connections[k]? = some d) (hf : P d → P (f d)) (hx : ∃ d ∈ h.connections, P d) :
    ∃ d ∈ (h.edit k f).connections, P d := by
  obtain ⟨d', hd', hp⟩ := hx
  obtain ⟨j, hj⟩ := List.mem_iff_getElem?.mp hd'
  by_cases hk : k = j
  · subst hk
    cases hd.symm.trans hj
    exact ⟨f d, List.mem_of_getElem? (getElem?_edit_self hd f), hf hp⟩
  · refine ⟨d', List.mem_of_getElem? (i := j) ?_, hp⟩
    rw [getElem?_edit, if_neg hk]
    exact hj

theorem of_exists_edit {P : Connection → Prop} {k : Nat} {d : Connection} {f : Connection → Connection}
    (hd : h.connections[k]? = some d) (hf : P (f d) → P d) (hx : ∃ d ∈ (h.edit k f).connections, P d) :
    ∃ d ∈ h.connections, P d := by
  obtain ⟨d', hd', hp⟩ := hx
  rcases mem_edit hd' with hd' | ⟨d₀, hd₀, rfl⟩
  · exact ⟨d', hd', hp⟩
  · cases hd.symm.trans hd₀
    exact ⟨d, List.mem_of_getElem? hd, hf hp⟩

theorem arriving_edit {k : Nat} {d : Connection} {f : Connection → Connection} (hd : h.connections[k]? = some d)
    (hid : (f d).id = d.id) (hu : (f d).phase.unannounced = d.phase.unannounced) (j : ClientId) :
    (h.edit k f).Arriving j ↔ h.Arriving j where
  mp := of_exists_edit hd fun hx => ⟨hid.symm.trans hx.1, hu.symm.trans hx.2⟩
  mpr := exists_edit hd fun hx => ⟨hid.trans hx.1, hu.trans hx.2⟩

theorem departing_edit {k : Nat} {d : Connection} {f : Connection → Connection} (hd : h.connections[k]? = some d)
    (hid : (f d).id = d.id) (hpart : (f d).phase = .parting ↔ d.phase = .parting) (j : ClientId) :
    (h.edit k f).Departing j ↔ h.Departing j :=
  or_congr Iff.rfl ⟨of_exists_edit hd fun hx => ⟨hid.symm.trans hx.1, hpart.mp hx.2⟩,
    exists_edit hd fun hx => ⟨hid.trans hx.1, hpart.mpr hx.2⟩⟩

theorem listed_edit {k : Nat} {d : Connection} {f : Connection → Connection} (hd : h.connections[k]? = some d)
    (husers : (f d).users = d.users) (hadm : (f d).phase = .admitted ↔ d.phase = .admitted) (e : ConnectedClient)
    (i : ClientId) : (h.edit k f).listed e i = h.listed e i := by
  unfold listed
  rw [connection_edit]
  split
  · rename_i hk
    rw [connection, ← hk, hd]
    simp [husers, hadm]
  · rfl

theorem listens_edit {k : Nat} {d : Connection} {f : Connection → Connection} (hd : h.connections[k]? = some d)
    (hhung : (f d).hung = false → d.hung = false) {e : ConnectedClient} (hl : (h.edit k f).listens e = true) :
    h.listens e = true := by
  unfold listens at hl ⊢
  rw [connection_edit] at hl
  split at hl
  · rename_i hk
    rw [connection, ← hk, hd] at hl ⊢
    simp only [Option.map_some, Option.any_some, Bool.not_eq_true'] at hl ⊢
    exact hhung hl
  · exact hl

/-- A change of one connection in which no arrival or departure begins or ends. -/
theorem Informed.edit {k : Nat} {d : Connection} {f : Connection → Connection} (hi : h.Informed)
    (hs' : (h.edit k f).Sound) (hd : h.connections[k]? = some d) (hid : (f d).id = d.id)
    (husers : (f d).users = d.users) (hhung : (f d).hung = false → d.hung = false)
    (hadm : (f d).phase = .admitted ↔ d.phase = .admitted)
    (harr : (f d).phase.unannounced = d.phase.unannounced) (hpart : (f d).phase = .parting ↔ d.phase = .parting) :
    (h.edit k f).Informed where
  toSound := hs'
  right := by
    intro e he hfol i
    have hfol' : h.Follows e := ⟨listens_edit hd hhung hfol.1, hfol.2⟩
    exact (hi.right e he hfol' i).keep rfl (fun _ => listed_edit hd husers hadm e i) rfl
      (fun _ hx => hx.imp id (departing_edit hd hid hpart i).mpr) id
      (fun _ _ hx => .inr ((arriving_edit hd hid harr i).mpr hx)) (arriving_edit hd hid harr i).mp
  departing i hx := hi.departing i ((departing_edit hd hid hpart i).mp hx)

theorem Informed.removed {i : ClientId} (hi : h.Informed) (hs' : h'.Sound)
    (hclients : ∀ e, e ∈ h'.shared.clients ↔ e ∈ h.shared.clients ∧ e.id ≠ i)
    (hfollows : ∀ e ∈ h'.shared.clients, h'.Follows e → h.Follows e)
    (hlisted : ∀ e j, h'.listed e j = h.listed e j) (hdep : ∀ j, h.Departing j → h'.Departing j)
    (hdep' : ∀ j, h'.Departing j → h.Departing j ∨ j = i) (harr : ∀ j, h.Arriving j → h'.Arriving j ∨ j = i)
    (harr' : ∀ j, h'.Arriving j → h.Arriving j)
    (hgone : ∀ e ∈ h'.shared.clients, h'.Follows e → h.said e i = some true → h'.Departing i) : h'.Informed := by
  have hpres : ∀ j, h'.Present j → h.Present j ∧ j ≠ i := by
    rintro j ⟨e, he, rfl⟩
    obtain ⟨he, hne⟩ := (hclients e).mp he
    exact ⟨⟨e, he, rfl⟩, hne⟩
  refine ⟨hs', fun e he hfol j => ?_, fun j hd hp => ?_⟩
  · refine (hi.right e ((hclients e).mp he).1 (hfollows e he hfol) j).keep rfl (fun _ => hlisted e j) rfl ?_
      (fun hout hp => hout (hpres j hp).1) (fun _ _ ha => ?_) (harr' j)
    · rintro hs (⟨e', he', rfl⟩ | hd)
      · by_cases hj : e'.id = i
        · rw [hj] at hs ⊢
          exact .inr (hgone e he hfol hs)
        · exact .inl ⟨e', (hclients e').mpr ⟨he', hj⟩, rfl⟩
      · exact .inr (hdep j hd)
    · rcases harr j ha with ha | hj
      · exact .inr ha
      · exact .inl fun hp => (hpres j hp).2 hj
  · rcases hdep' j hd with hd | hj
    · exact hi.departing j hd (hpres j hp).1
    · exact (hpres j hp).2 hj

theorem Informed.sent {p : ConnectedClient → Bool} {m : ServerControl} (hi : h.Informed) (hs' : h'.Sound)
    (hback : ∀ e' ∈ h'.shared.clients, h'.Follows e' →
      ∃ e ∈ h.shared.clients, h.Follows e ∧ e' = if p e then e.push [m] else e)
    (hpres : ∀ j, h'.Present j ↔ h.Present j) (hlisted : ∀ e j, h'.listed e j = h.listed e j)
    (hdep' : ∀ j, h'.Departing j → h.Departing j) (harr' : ∀ j, h'.Arriving j → h.Arriving j)
    (hword : ∀ e ∈ h.shared.clients, ∀ j,
      (lastWord j (if p e then e.push [m] else e).control = lastWord j e.control ∧
        (h.said e j = some true → h.Departing j → h'.Departing j) ∧
        (h.said e j = some false → j ≠ e.id → h.Arriving j → h'.Arriving j)) ∨
      (lastWord j (if p e then e.push [m] else e).control = some false ∧ ¬h.Present j) ∨
      (lastWord j (if p e then e.push [m] else e).control = some true ∧ (h.Present j ∨ h'.Departing j) ∧
        ¬h'.Arriving j)) : h'.Informed where
  toSound := hs'
  right := by
    intro e' he' hfol j
    obtain ⟨e, he, hfol₀, rfl⟩ := hback e' he' hfol
    have hid : (if p e then e.push [m] else e).id = e.id := by split <;> rfl
    have hl : h'.listed (if p e then e.push [m] else e) j = h.listed e j := by
      rw [hlisted]
      split <;> rfl
    rcases hword e he j with ⟨hw, hd, ha⟩ | ⟨hw, hp⟩ | ⟨hw, hp, ha⟩
    · refine (hi.right e he hfol₀ j).keep hw (fun _ => hl) hid ?_ (fun hn hp => hn ((hpres j).mp hp))
        (fun hs hne hx => .inr (ha hs hne hx)) (harr' j)
      exact fun hs hx => hx.imp (hpres j).mpr (hd hs)
    · exact .of_left hw fun hp' => hp ((hpres j).mp hp')
    · exact .of_joined hw (hp.imp (hpres j).mpr id) ha
  departing j hd hp := hi.departing j (hdep' j hd) ((hpres j).mp hp)

theorem mem_trySend_follows {p : ConnectedClient → Bool} {m : ServerControl} {cs : List Chore}
    (hsub : ∀ c ∈ h.chores, c ∈ cs) (hfull : ∀ e ∈ h.shared.clients, p e = true → h.full e = true → .drop e.id ∈ cs)
    {e' : ConnectedClient} (he' : e' ∈ (h.trySend p m).shared.clients)
    (hf : Follows { h.trySend p m with chores := cs } e') :
    ∃ e ∈ h.shared.clients, h.Follows e ∧ e' = if p e then e.push [m] else e := by
  obtain ⟨e, he, rfl⟩ := (h.mem_trySend p m).mp he'
  have hl : h.listens e = true := by
    have hl' := hf.1
    rw [listens, connection, offer_id] at hl'
    exact hl'
  have hdrop : .drop e.id ∉ cs := by
    have hd := hf.2
    rw [offer_id] at hd
    exact hd
  refine ⟨e, he, ⟨hl, fun hc => hdrop (hsub _ hc)⟩, ?_⟩
  unfold offer
  by_cases hp : p e = true
  · have hroom : h.full e = false := by
      rw [Bool.eq_false_iff]
      exact fun hc => hdrop (hfull e he hp hc)
    simp [hp, hl, hroom]
  · simp [hp]

theorem mem_queue_follows {p : ConnectedClient → Bool} {m : ServerControl} {e' : ConnectedClient}
    (he' : e' ∈ (h.queue p m).shared.clients) (hf : (h.queue p m).Follows e') :
    ∃ e ∈ h.shared.clients, h.Follows e ∧ e' = if p e then e.push [m] else e := by
  refine mem_trySend_follows (fun _ hc => List.mem_append_left _ hc) (fun e he hp hfull => ?_) he' hf
  exact List.mem_append_right _ (List.mem_map.mpr ⟨e, List.mem_filter.mpr ⟨he, by simp [hp, hfull]⟩, rfl⟩)

theorem present_trySend (p : ConnectedClient → Bool) (m : ServerControl) (j : ClientId) :
    (h.trySend p m).Present j ↔ h.Present j := by
  constructor
  · rintro ⟨e', he', rfl⟩
    obtain ⟨e, he, rfl⟩ := (h.mem_trySend p m).mp he'
    exact ⟨e, he, (h.offer_id p m e).symm⟩
  · rintro ⟨e, he, rfl⟩
    exact ⟨_, (h.mem_trySend p m).mpr ⟨e, he, rfl⟩, h.offer_id p m e⟩

theorem departing_drops {cs : List Chore} (hcs : ∀ c ∈ cs, ∃ client, c = .drop client) (i : ClientId) :
    Departing { h with chores := h.chores ++ cs } i ↔ h.Departing i := by
  constructor
  · rintro (⟨c, hc, ht⟩ | hx)
    · rcases List.mem_append.mp hc with hc | hc
      · exact .inl ⟨c, hc, ht⟩
      · obtain ⟨client, rfl⟩ := hcs c hc
        cases ht
    · exact .inr hx
  · rintro (⟨c, hc, ht⟩ | hx)
    · exact .inl ⟨c, List.mem_append_left _ hc, ht⟩
    · exact .inr hx

theorem departing_queue (p : ConnectedClient → Bool) (m : ServerControl) (i : ClientId) :
    (h.queue p m).Departing i ↔ h.Departing i :=
  departing_drops (h := h.trySend p m) (fun c hc => by
    obtain ⟨e, -, rfl⟩ := List.mem_map.mp hc
    exact ⟨e.id, rfl⟩) i

theorem Informed.queue_other (hi : h.Informed) (p : ConnectedClient → Bool) {m : ServerControl}
    (hm : m.aboutRoster = false) : (h.queue p m).Informed := by
  refine hi.sent (p := p) (m := m) (hi.toSound.queue p m) (fun e' he' hf => mem_queue_follows he' hf)
    (present_trySend p m) (fun _ _ => rfl) (fun j => (departing_queue p m j).mp) (fun _ hx => hx) fun e he j => .inl ?_
  refine ⟨?_, fun _ => (departing_queue p m j).mpr, fun _ _ hx => hx⟩
  split
  · rw [lastWord_push, heard_other hm]
  · rfl

/-! ## Arrivals -/

theorem mem_userIds_users (j : ClientId) : j ∈ userIds h.shared.users ↔ h.Present j := by
  unfold userIds Shared.users
  rw [List.map_map, List.mem_map]
  rfl

theorem Fresh.absent (hs : h.Sound) (hf : h.Fresh) :
    ¬h.Present h.shared.nextClientId ∧ ¬h.Departing h.shared.nextClientId := by
  refine ⟨?_, ?_⟩
  · rintro ⟨e, he, hid⟩
    exact hs.fresh_ne hf he hid
  · rintro (⟨c, hc, ht⟩ | ⟨d, hd, hid, hp⟩)
    · refine hf.2 c hc ?_
      cases c <;> first | exact congrArg some ht | cases ht
    · have hclosed := hf.1 d hd hid
      rw [hp] at hclosed
      cases hclosed

theorem Informed.welcome (hi : h.Informed) (hf : h.Fresh) {info : UserInfo}
    (hn : info.clientId = h.shared.nextClientId) : (h.welcome info).Informed := by
  obtain ⟨habsent, hgone⟩ := hf.absent hi.toSound
  rw [← hn] at habsent hgone
  have hdep : ∀ j, (h.welcome info).Departing j → h.Departing j := by
    rintro j (hc | ⟨d, hd, hid, hp⟩)
    · exact .inl hc
    · rcases List.mem_append.mp hd with hd | hd
      · exact .inr ⟨d, hd, hid, hp⟩
      · rw [List.mem_singleton.mp hd] at hp
        cases hp
  have hdep' : ∀ j, h.Departing j → (h.welcome info).Departing j := by
    rintro j (hc | ⟨d, hd, hx⟩)
    · exact .inl hc
    · exact .inr ⟨d, List.mem_append_left _ hd, hx⟩
  have hpres : ∀ j, (h.welcome info).Present j → h.Present j ∨ j = info.clientId := by
    rintro j ⟨e, he, rfl⟩
    rcases Keyed.mem_put.mp he with rfl | ⟨he, -⟩
    · exact .inr rfl
    · exact .inl ⟨e, he, rfl⟩
  have hpres' : ∀ j, h.Present j → (h.welcome info).Present j := by
    rintro j ⟨e, he, rfl⟩
    exact ⟨e, Keyed.mem_put.mpr (.inr ⟨he, fun hc => habsent ⟨e, he, hc⟩⟩), rfl⟩
  refine ⟨hi.toSound.welcome hf hn, fun e he hfol j => ?_, fun j hd hp => ?_⟩
  · rcases Keyed.mem_put.mp he with rfl | ⟨he, hne⟩
    · have hl : (h.welcome info).listed ⟨info, [], []⟩ j = none := by
        simp [listed, connection, Hall.welcome, ConnectedClient.id]
      refine ⟨fun hs => ?_, fun hs => ?_, fun _ hc => by cases hc⟩ <;> cases hl.symm.trans hs
    · have hne' : e.id ≠ info.clientId := hne
      have hsame : (h.welcome info).connection e = h.connection e := h.connection_welcome hi.toSound info he hne'
      have hfol₀ : h.Follows e := by
        refine ⟨?_, hfol.2⟩
        have hl := hfol.1
        rw [listens, hsame] at hl
        exact hl
      have hright := hi.right e he hfol₀ j
      have hsaid : (h.welcome info).said e j = h.said e j := by
        rw [said, said, listed, listed, hsame]
      refine ⟨fun hs => ?_, fun hs => ?_, fun ha hw => ?_⟩
      · rw [hsaid] at hs
        exact (hright.joined hs).imp (hpres' j) (hdep' j)
      · rw [hsaid] at hs
        by_cases hj : j = info.clientId
        · subst hj
          exact .inr ⟨⟨_, List.mem_append_right _ (List.mem_singleton_self _), rfl, rfl⟩, hne'.symm⟩
        · rcases hright.left hs with hp | ⟨⟨d, hd, ha⟩, hje⟩
          · exact .inl fun hp' => (hpres j hp').elim hp hj
          · exact .inr ⟨⟨d, List.mem_append_left _ hd, ha⟩, hje⟩
      · obtain ⟨d, hd, hid, hu⟩ := ha
        rcases List.mem_append.mp hd with hd | hd
        · exact hright.unheard ⟨d, hd, hid, hu⟩ hw
        · rw [List.mem_singleton.mp hd] at hid
          obtain rfl : j = info.clientId := hid.symm
          have hs : h.said e info.clientId = some true := by
            rw [said, hw]
            rfl
          exact (hright.joined hs).elim habsent hgone
  · rcases hpres j hp with hp | rfl
    · exact hi.departing j (hdep j hd) hp
    · exact hgone (hdep _ hd)

theorem Informed.assemble (hi : h.Informed) {k : Nat} {d : Connection}
    (hs' : (h.edit k fun d => { d with users := h.shared.users, phase := .greeting }).Sound)
    (hd : h.connections[k]? = some d) (hp : d.phase = .admitted) :
    (h.edit k fun d => { d with users := h.shared.users, phase := .greeting }).Informed := by
  have harr := arriving_edit (f := fun d => { d with users := h.shared.users, phase := .greeting }) hd rfl
      (by rw [hp]; rfl)
  have hdep := departing_edit (f := fun d => { d with users := h.shared.users, phase := .greeting }) hd rfl
      (by simp [hp])
  refine ⟨hs', fun e he hfol j => ?_, fun j hx => hi.departing j ((hdep j).mp hx)⟩
  have hright := hi.right e he ⟨listens_edit hd id hfol.1, hfol.2⟩ j
  cases hw : lastWord j e.control with
  | some b =>
    refine hright.keep rfl (fun hc => by rw [hw] at hc; cases hc) rfl (fun _ hx => ?_) id (fun _ _ hx => ?_) (harr j).mp
    · exact hx.imp id (hdep j).mpr
    · exact .inr ((harr j).mpr hx)
  | none =>
    by_cases hk : k = h.line e.id
    · -- Whom the list names is in the roster as it is assembled.
      have hsaid : said (h.edit k fun d => { d with users := h.shared.users, phase := .greeting }) e j =
          some (decide (j ∈ userIds h.shared.users)) := by
        rw [said, hw, listed, connection_edit, if_pos hk, connection, ← hk, hd]
        rfl
      refine ⟨fun hs => .inl ?_, fun hs => .inl ?_, fun _ hc => by rw [hw] at hc; cases hc⟩
      · rw [hsaid] at hs
        exact (mem_userIds_users (h := h) j).mp (by simpa using hs)
      · rw [hsaid] at hs
        exact mt (mem_userIds_users (h := h) j).mpr (by simpa using hs)
    · refine hright.keep rfl (fun _ => ?_) rfl (fun _ hx => hx.imp id (hdep j).mpr) id
        (fun _ _ hx => .inr ((harr j).mpr hx)) (harr j).mp
      rw [listed, connection_edit, if_neg hk]
      rfl

theorem Informed.announce (hi : h.Informed) {k : Nat} {d : Connection}
    (hs' : ((h.broadcast (.userJoined d.info) (some d.id)).edit k fun d => { d with phase := .running }).Sound)
    (hd : h.connections[k]? = some d) (hp : d.phase = .greeted) (hin : h.Present d.id ∨ h.Departing d.id) :
    ((h.broadcast (.userJoined d.info) (some d.id)).edit k fun d => { d with phase := .running }).Informed := by
  have hd' : (h.broadcast (.userJoined d.info) (some d.id)).connections[k]? = some d := hd
  have hdep : ∀ j, ((h.broadcast (.userJoined d.info) (some d.id)).edit k fun d =>
      { d with phase := .running }).Departing j ↔
      h.Departing j := fun j => (departing_edit hd' rfl (by simp [hp]) j).trans (departing_queue _ _ j)
  refine hi.sent (p := fun e => some e.id ≠ some d.id) (m := .userJoined d.info) hs' ?_ (present_trySend _ _) ?_
    (fun j => (hdep j).mp) (fun j => of_exists_edit hd' fun hx => nomatch hx.2) ?_
  · intro e' he' hf
    exact mem_queue_follows he' ⟨listens_edit hd' id hf.1, hf.2⟩
  · exact fun e j => listed_edit hd' rfl (by simp [hp]) e j
  · intro e he j
    by_cases hj : j = d.id
    · subst hj
      by_cases he' : e.id = d.id
      · refine .inl ⟨by simp [he'], fun _ => (hdep _).mpr, fun _ hne => absurd he'.symm hne⟩
      · refine .inr (.inr ⟨?_, hin.imp id (hdep _).mpr, ?_⟩)
        · simp only [ne_eq, Option.some.injEq, he', not_false_eq_true, decide_true, if_true, lastWord_push]
          exact if_pos rfl
        · rintro ⟨d₁, hd₁, hid₁, hu⟩
          obtain ⟨j, hj⟩ := List.mem_iff_getElem?.mp hd₁
          have hjk := hs'.distinct j k d₁ _ hj (getElem?_edit_self hd' _) (by rintro hc; rw [hc] at hu; cases hu)
            (by simp) hid₁
          subst hjk
          cases hj.symm.trans (getElem?_edit_self hd' _)
          cases hu
    · refine .inl ⟨?_, fun _ => (hdep j).mpr, fun _ _ hx => exists_edit hd' (fun hx => absurd hx.1.symm hj) hx⟩
      split
      · rw [lastWord_push]
        exact if_neg (Ne.symm hj)
      · rfl

/-! ## Departures -/

/-- Everyone is told that `i`, who is out of the roster, has left. -/
theorem Informed.told (hi : h.Informed) (hs' : h'.Sound) {p : ConnectedClient → Bool} {i : ClientId}
    {r : DisconnectReason} (hout : ¬h.Present i) (hp : ∀ e ∈ h.shared.clients, p e = true)
    (hback : ∀ e' ∈ h'.shared.clients, h'.Follows e' →
      ∃ e ∈ h.shared.clients, h.Follows e ∧ e' = if p e then e.push [.userLeft i r] else e)
    (hpres : ∀ j, h'.Present j ↔ h.Present j) (hlisted : ∀ e j, h'.listed e j = h.listed e j)
    (hdep : ∀ j, j ≠ i → h.Departing j → h'.Departing j) (hdep' : ∀ j, h'.Departing j → h.Departing j)
    (harr : ∀ j, h'.Arriving j ↔ h.Arriving j) : h'.Informed := by
  refine hi.sent hs' hback hpres hlisted hdep' (fun j => (harr j).mp) fun e he j => ?_
  rw [if_pos (hp e he), lastWord_push]
  by_cases hj : i = j
  · subst hj
    exact .inr (.inl ⟨if_pos rfl, hout⟩)
  · exact .inl ⟨if_neg hj, fun _ => hdep j (Ne.symm hj), fun _ _ => (harr j).mpr⟩

theorem Informed.farewell (hi : h.Informed) {k : Nat} {d : Connection}
    (hs' : ((h.broadcast (.userLeft d.id .quit) (some d.id)).edit k fun d => { d with phase := .closing }).Sound)
    (hd : h.connections[k]? = some d) (hp : d.phase = .parting) :
    ((h.broadcast (.userLeft d.id .quit) (some d.id)).edit k fun d => { d with phase := .closing }).Informed := by
  have hd' : (h.broadcast (.userLeft d.id .quit) (some d.id)).connections[k]? = some d := hd
  have hout : ¬h.Present d.id := hi.departing d.id (.inr ⟨d, List.mem_of_getElem? hd, rfl, hp⟩)
  refine hi.told (p := fun e => some e.id ≠ some d.id) (r := .quit) hs' hout ?_ ?_ (present_trySend _ _) ?_ ?_ ?_
    (arriving_edit hd' rfl (by rw [hp]; rfl))
  · intro e he
    simpa using fun hc => hout ⟨e, he, hc⟩
  · exact fun e' he' hf => mem_queue_follows he' ⟨listens_edit hd' id hf.1, hf.2⟩
  · exact fun e j => listed_edit hd' rfl (by simp [hp]) e j
  · rintro j hj (⟨c, hc, ht⟩ | hx)
    · exact .inl ⟨c, List.mem_append_left _ hc, ht⟩
    · exact .inr (exists_edit hd' (fun hx => absurd hx.1.symm hj) hx)
  · intro j hx
    have hx' : (h.broadcast (.userLeft d.id .quit) (some d.id)).Departing j := by
      rcases hx with hc | hx
      · exact .inl hc
      · obtain ⟨d', hmem, hx⟩ := hx
        rcases mem_edit hmem with hmem | ⟨d₀, -, rfl⟩
        · exact .inr ⟨d', hmem, hx⟩
        · cases hx.2
    exact (departing_queue _ _ j).mp hx'

theorem mem_removed {client : ClientId} {k : Nat} {f : Connection → Connection} (e : ConnectedClient) :
    e ∈ ((h.remove client).edit k f).shared.clients ↔ e ∈ h.shared.clients ∧ e.id ≠ client := h.mem_remove

theorem Informed.release (hi : h.Informed) {k : Nat} {d : Connection}
    (hs' : ((h.remove d.id).edit k fun d => { d with phase := .closing }).Sound) (hd : h.connections[k]? = some d)
    (hp : d.phase = .failed) (hpunctual : h.Punctual (.release k)) :
    ((h.remove d.id).edit k fun d => { d with phase := .closing }).Informed := by
  have hd' : (h.remove d.id).connections[k]? = some d := hd
  have hdep := departing_edit (f := fun d => { d with phase := .closing }) hd' rfl (by simp [hp])
  have hfollows : ∀ e, ((h.remove d.id).edit k fun d => { d with phase := .closing }).Follows e → h.Follows e :=
    fun e hf => ⟨listens_edit hd' id hf.1, hf.2⟩
  refine hi.removed hs' mem_removed (fun e _ => hfollows e) (fun e j => listed_edit hd' rfl (by simp [hp]) e j)
    (fun j => (hdep j).mpr) (fun j hx => .inl ((hdep j).mp hx)) ?_
    (fun j => of_exists_edit hd' fun hx => nomatch hx.2) ?_
  · intro j hx
    by_cases hj : j = d.id
    · exact .inr hj
    · exact .inl (exists_edit hd' (fun hx => absurd hx.1.symm hj) hx)
  · intro e he hf hs
    obtain ⟨he, hne⟩ := (mem_removed e).mp he
    have hright := hi.right e he (hfollows e hf) d.id
    rcases hright.joined hs with hin | hgone
    · -- Whoever has it in its roster was given it in its `AuthOk`, and nobody was.
      have hquiet := hright.unheard ⟨d, List.mem_of_getElem? hd, rfl, by rw [hp]; rfl⟩
      cases hw : lastWord d.id e.control with
      | some b =>
        rw [said, hw] at hs
        exact absurd (hw.trans hs) hquiet
      | none =>
        rw [said, hw, Option.none_or, listed] at hs
        obtain ⟨d', hd₁, hlisted⟩ := Option.bind_eq_some_iff.mp hs
        split at hlisted
        · cases hlisted
        · exact absurd (by simpa using hlisted) (hpunctual d hd hin e he hne d' hd₁)
    · exact (hdep d.id).mpr hgone

theorem Informed.depart (hi : h.Informed) {k : Nat} {d : Connection}
    (hs' : ((h.remove d.id).edit k fun d => { d with phase := .parting }).Sound) (hd : h.connections[k]? = some d)
    (hp : d.phase = .ended) : ((h.remove d.id).edit k fun d => { d with phase := .parting }).Informed := by
  have hd' : (h.remove d.id).connections[k]? = some d := hd
  have harr := arriving_edit (f := fun d => { d with phase := .parting }) hd' rfl (by rw [hp]; rfl)
  have hself : ((h.remove d.id).edit k fun d => { d with phase := .parting }).Departing d.id :=
    .inr ⟨_, List.mem_of_getElem? (getElem?_edit_self hd' _), rfl, rfl⟩
  refine hi.removed hs' mem_removed (fun e _ hf => ⟨listens_edit hd' id hf.1, hf.2⟩)
    (fun e j => listed_edit hd' rfl (by simp [hp]) e j) ?_ ?_ (fun j hx => .inl ((harr j).mpr hx))
    (fun j => (harr j).mp)
    fun _ _ _ _ => hself
  · rintro j (hc | hx)
    · exact .inl hc
    · exact .inr (exists_edit hd' (fun hx => ⟨hx.1, rfl⟩) hx)
  · rintro j (hc | ⟨d', hmem, hid, hx⟩)
    · exact .inl (.inl hc)
    · rcases mem_edit hmem with hmem | ⟨d₀, hd₀, rfl⟩
      · exact .inl (.inr ⟨d', hmem, hid, hx⟩)
      · cases hd'.symm.trans hd₀
        exact .inr hid.symm

theorem Informed.expelled (hi : h.Informed) {client : ClientId} {cs : List Chore} {c : Chore} (hc : c ∈ cs)
    (ht : c.tells client) (hdrop : ∀ i, i ≠ client → .drop i ∈ h.chores → .drop i ∈ cs)
    (hsub : ∀ c i, c ∈ h.chores → c.tells i → c ∈ cs) (hnew : ∀ c i, c ∈ cs → c.tells i → c ∈ h.chores ∨ i = client) :
    Informed { h.remove client with chores := cs } := by
  refine hi.removed ((hi.toSound.remove client).chores cs) (fun e => h.mem_remove)
    (fun e he hf => ⟨hf.1, fun hd => hf.2 (hdrop e.id (h.mem_remove.mp he).2 hd)⟩) (fun _ _ => rfl) ?_ ?_
    (fun _ hx => .inl hx) (fun _ hx => hx) fun _ _ _ _ => .inl ⟨c, hc, ht⟩
  · rintro j (⟨c', hc', ht'⟩ | hx)
    · exact .inl ⟨c', hsub c' j hc' ht', ht'⟩
    · exact .inr hx
  · rintro j (⟨c', hc', ht'⟩ | hx)
    · exact (hnew c' j hc' ht').imp (fun hm => .inl ⟨c', hm, ht'⟩) id
    · exact .inl (.inr hx)

/-! ## Chores -/

theorem tells_inj {c : Chore} {i j : ClientId} (hi : c.tells i) (hj : c.tells j) : i = j := by
  cases c <;> first | exact hi.symm.trans hj | cases hi

theorem Informed.strike (hi : h.Informed) {c : Chore} (hquiet : ∀ i, ¬c.tells i)
    (hdrop : ∀ e ∈ h.shared.clients, c ≠ .drop e.id) : Informed { h with chores := h.chores.erase c } := by
  have hdep : ∀ j, Departing { h with chores := h.chores.erase c } j ↔ h.Departing j := by
    intro j
    refine or_congr ⟨fun ⟨c', hc', ht⟩ => ⟨c', List.mem_of_mem_erase hc', ht⟩, fun ⟨c', hc', ht⟩ => ?_⟩ Iff.rfl
    refine ⟨c', (List.mem_erase_of_ne ?_).mpr hc', ht⟩
    rintro rfl
    exact hquiet j ht
  refine ⟨hi.toSound.chores _, fun e he hf j => ?_, fun j hx => hi.departing j ((hdep j).mp hx)⟩
  have hf' : h.Follows e := ⟨hf.1, fun hd => hf.2 ((List.mem_erase_of_ne (hdrop e he).symm).mpr hd)⟩
  exact (hi.right e he hf' j).keep rfl (fun _ => rfl) rfl (fun _ hx => hx.imp id (hdep j).mpr) id
    (fun _ _ hx => .inr hx) id

theorem Informed.struck_told (hi : h.Informed) {c : Chore} {i : ClientId} {reason : DisconnectReason} {cs : List Chore}
    (hc : c ∈ h.chores) (ht : c.tells i) (hsub : ∀ c' ∈ h.chores.erase c, c' ∈ cs)
    (hnew : ∀ c' j, c' ∈ cs → c'.tells j → c' ∈ h.chores)
    (hfull : ∀ e ∈ h.shared.clients, h.full e = true → .drop e.id ∈ cs) :
    Informed { h.trySend (fun _ => true) (.userLeft i reason) with chores := cs } := by
  refine hi.told (p := fun _ => true) (r := reason) ((hi.toSound.trySend _ _).chores cs)
    (hi.departing i (.inl ⟨c, hc, ht⟩)) (fun _ _ => rfl) ?_ (present_trySend _ _) (fun _ _ => rfl) ?_ ?_ fun _ =>
    Iff.rfl
  · intro e' he' hf
    obtain ⟨e, he, hfol, heq⟩ := mem_trySend_follows (h := { h with chores := h.chores.erase c }) hsub
      (fun e he _ => hfull e he) he' hf
    refine ⟨e, he, ⟨hfol.1, fun hd => hfol.2 ?_⟩, heq⟩
    refine (List.mem_erase_of_ne ?_).mpr hd
    rintro rfl
    cases ht
  · rintro j hj (⟨c', hc', ht'⟩ | hx)
    · refine .inl ⟨c', hsub c' ((List.mem_erase_of_ne ?_).mpr hc'), ht'⟩
      rintro rfl
      exact hj (tells_inj ht' ht)
    · exact .inr hx
  · rintro j (⟨c', hc', ht'⟩ | hx)
    · exact .inl ⟨c', hnew c' j hc' ht', ht'⟩
    · exact .inr hx

theorem Informed.doChore (hi : h.Informed) {c : Chore} (hc : c ∈ h.chores) (hp : h.Punctual (.chore c)) :
    (doChore { h with chores := h.chores.erase c } c).Informed := by
  cases c with
  | drop client =>
    simp only [Hall.doChore]
    split
    · refine hi.expelled (c := .tellDropped client) (List.mem_append_right _ (List.mem_singleton_self _)) rfl ?_ ?_ ?_
      · intro i hi hd
        exact List.mem_append_left _ ((List.mem_erase_of_ne (by simpa using hi)).mpr hd)
      · intro c' i hc' ht
        refine List.mem_append_left _ ((List.mem_erase_of_ne ?_).mpr hc')
        rintro rfl
        cases ht
      · intro c' i hc' ht
        rcases List.mem_append.mp hc' with hc' | hc'
        · exact .inl (List.mem_of_mem_erase hc')
        · rw [List.mem_singleton.mp hc'] at ht
          exact .inr ht.symm
    · rename_i hu
      refine hi.strike (fun _ => id) fun e he heq => hu ?_
      cases heq
      exact h.isSome_user.mpr ⟨e, he, rfl⟩
  | tellDropped client =>
    refine hi.struck_told hc rfl (fun _ => id) (fun _ _ hc' _ => List.mem_of_mem_erase hc') fun e he hf => ?_
    exact (List.mem_erase_of_ne (by simp)).mpr (hp e he hf)
  | tellEjected client reason k =>
    refine hi.struck_told hc rfl (fun _ hc' => List.mem_append_left _ (List.mem_append_left _ hc')) ?_ ?_
    · intro c' j hc' ht
      rcases List.mem_append.mp hc' with hc' | hc'
      · rcases List.mem_append.mp hc' with hc' | hc'
        · exact List.mem_of_mem_erase hc'
        · obtain ⟨e, -, rfl⟩ := List.mem_map.mp hc'
          cases ht
      · rw [List.mem_singleton.mp hc'] at ht
        cases ht
    · intro e he hf
      exact List.mem_append_left _ (List.mem_append_right _ (List.mem_map.mpr ⟨e, List.mem_filter.mpr ⟨he, hf⟩, rfl⟩))
  | shut k =>
    have hi' := hi.strike (c := .shut k) (fun _ => id) (by simp)
    have hs' := hi'.toSound.doChore (.shut k)
    simp only [Hall.doChore] at hs' ⊢
    cases hd : h.connections[k]? with
    | none =>
      rw [edit_of_none { h with chores := h.chores.erase (.shut k) } hd]
      exact hi'
    | some d => exact hi'.edit hs' hd rfl rfl id Iff.rfl rfl Iff.rfl

theorem Informed.elsewhere (hi : h.Informed) {s : Shared} (hsame : SameRoster h.shared s) :
    Informed { h with shared := s } := by
  have hpres : ∀ j, Present { h with shared := s } j ↔ h.Present j := by
    intro j
    have hmem : ∀ t : Hall, t.Present j ↔ j ∈ t.shared.clients.map ConnectedClient.id := fun t => List.mem_map.symm
    rw [hmem, hmem, hsame.ids]
  refine ⟨hi.toSound.elsewhere hsame, fun e he hf j => ?_, fun j hx hp => hi.departing j hx ((hpres j).mp hp)⟩
  obtain ⟨e₀, he₀, hid, hcontrol⟩ := hsame.back he
  have hconn : Hall.connection { h with shared := s } e = h.connection e₀ := by
    rw [connection, connection, hid]
  have hf₀ : h.Follows e₀ := by
    refine ⟨?_, ?_⟩
    · rw [listens, ← hconn]
      exact hf.1
    · rw [hid]
      exact hf.2
  refine (hi.right e₀ he₀ hf₀ j).keep (congrArg _ hcontrol.symm) (fun _ => ?_) hid.symm (fun _ hx => ?_)
    (fun hn hp => hn ((hpres j).mp hp)) (fun _ _ hx => .inr hx) id
  · rw [listed, listed, hconn]
  · exact hx.imp (hpres j).mpr id

theorem Informed.step {l : Move} (hi : h.Informed) (hp : h.Punctual l) (hst : Stepped h l h') : h'.Informed := by
  have hs' := hi.toSound.step hst fun _ _ _ he => by subst he; exact hp
  cases hst with
  | admission identity nickname roles hroom => exact hi.welcome hp rfl
  | assemble hd hph => exact hi.assemble hs' hd hph
  | write ok hd hph => cases ok <;> exact hi.edit hs' hd rfl rfl id (by simp [hph]) (by rw [hph]; rfl) (by simp [hph])
  | announce hd hph => exact hi.announce hs' hd hph (hp _ hd)
  | release hd hph => exact hi.release hs' hd hph hp
  | hangUp hd hph => exact hi.edit hs' hd rfl rfl id (by simp [hph]) (by rw [hph]; rfl) (by simp [hph])
  | depart hd hph hu => exact hi.depart hs' hd hph
  | gone hd hph hu => exact hi.edit hs' hd rfl rfl id (by simp [hph]) (by rw [hph]; rfl) (by simp [hph])
  | farewell hd hph => exact hi.farewell hs' hd hph
  | close hd hph => exact hi.edit hs' hd rfl rfl id (by simp [hph]) (by rw [hph]; rfl) (by simp [hph])
  | @eject victim e reason he =>
    refine hi.expelled (c := .tellEjected victim reason (h.line victim))
      (List.mem_append_right _ (List.mem_singleton_self _))
      rfl (fun i _ hd => List.mem_append_left _ hd) (fun c i hc _ => List.mem_append_left _ hc) ?_
    intro c i hc ht
    rcases List.mem_append.mp hc with hc | hc
    · exact .inl hc
    · rw [List.mem_singleton.mp hc] at ht
      exact .inr ht.symm
  | chore hc => exact hi.doChore hc hp
  | send client hm | broadcast except hm | broadcastFiltered except hm => exact hi.queue_other _ hm
  | unheard => exact hi
  | drain _ hd hph => exact hi.edit hs' hd rfl rfl id Iff.rfl rfl Iff.rfl
  | stopWriting hd hph => exact hi.edit hs' hd rfl rfl (fun hc => by cases hc) Iff.rfl rfl Iff.rfl
  | elsewhere hsame => exact hi.elsewhere hsame

end

def Still (h : Hall) : Prop := h.chores = [] ∧ ∀ d ∈ h.connections, d.phase = .running ∨ d.phase = .closed

end Hall

end PickleChat
