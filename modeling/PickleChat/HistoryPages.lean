import PickleChat.MessageIds
import PickleChat.Scrollback
import PickleChat.StoredSizes
import PickleChat.Traffic

/-!
# Pages of history

Only `send_message` stores messages. It bounds their content, and their authors
have names that `sanitize_nickname` has cut; so a page of them fits in a frame.
-/

namespace PickleChat

open Async (Run Pool Event Bound bounded_wait)
open Postcard

/-! ## The size of a page -/

theorem u32_le (n : UInt32) : u32 n ≤ 5 := varint_le (by omega) (by have := n.toNat_lt; omega)

theorem u64_le (n : UInt64) : u64 n ≤ 10 := varint_le (by omega) (by have := n.toNat_lt; omega)

/-- Without attachments and reactions, whose two lists are empty. -/
def ChatMessage.len (m : ChatMessage) : Nat :=
  u64 m.id + u32 m.channel + opt u32 m.author + 32 + str m.authorNickname + u64 m.sentAtUnixMs +
    opt u64 m.editedAtUnixMs + str m.content + opt u64 m.replyTo + 2

/-- The frame that `fetch_history` answers with. -/
def historyLen (channel : ChannelId) (messages : List ChatMessage) : Nat :=
  1 + u32 channel + seq ChatMessage.len messages + 1

def defaultLimits : ServerLimits := {}

/-- A name that `sanitize_nickname` may produce. -/
def ShortName (name : String) : Prop := name.toList.length ≤ defaultLimits.maxNicknameLen.toNat

def ShortContent (content : String) : Prop := content.utf8ByteSize ≤ defaultLimits.maxMessageLen.toNat

def ChatMessage.Short (m : ChatMessage) : Prop := ShortContent m.content ∧ ShortName m.authorNickname

def MessageRow.Short (r : MessageRow) : Prop := ShortContent r.content ∧ ShortName r.authorNickname

theorem MessageRow.Short.message {r : MessageRow} {m : ChatMessage} (h : r.Short) (hm : rowToMessage r = some m) :
    m.Short := by
  obtain ⟨f, -, rfl⟩ := Option.map_eq_some_iff.mp hm
  exact h

theorem ShortName.str_le {name : String} (h : ShortName name) : str name ≤ 2 + 128 := by
  have hbytes := Text.utf8ByteSize_le name
  have hlen : name.toList.length ≤ 32 := h
  apply Postcard.str_le (by omega) _ (by omega)
  omega

theorem ShortContent.str_le {content : String} (h : ShortContent content) : str content ≤ 2 + 4000 :=
  Postcard.str_le (by omega) h (by decide)

/-- Ten bytes a 64-bit number, five a 32-bit one, one more where it may be absent. -/
theorem ChatMessage.Short.len_le {m : ChatMessage} (h : m.Short) : m.len ≤ 4223 := by
  have hid := u64_le m.id
  have hchannel := u32_le m.channel
  have hauthor := opt_le (o := m.author) fun n _ => u32_le n
  have hname := h.2.str_le
  have hsent := u64_le m.sentAtUnixMs
  have hedited := opt_le (o := m.editedAtUnixMs) fun n _ => u64_le n
  have hcontent := h.1.str_le
  have hreply := opt_le (o := m.replyTo) fun n _ => u64_le n
  unfold ChatMessage.len
  omega

/-- At most `MAX_HISTORY_LIMIT` messages, each within its own bound. -/
theorem historyLen_le {channel : ChannelId} {messages : List ChatMessage} (hlen : messages.length ≤ 200)
    (h : ∀ m ∈ messages, m.Short) : historyLen channel messages ≤ maxFrameLen := by
  have hchannel := u32_le channel
  have hseq := seq_le fun m hm => (h m hm).len_le
  have hcount : varint messages.length ≤ 2 := varint_le (by omega) (by omega)
  have htotal : messages.length * 4223 ≤ 200 * 4223 := Nat.mul_le_mul_right 4223 hlen
  have hmax : maxFrameLen = 1048576 := rfl
  unfold historyLen
  omega

/-! ## A page -/

theorem length_of_mapM {α β : Type} {f : α → Option β} {l : List α} {ys : List β} (h : l.mapM f = some ys) :
    ys.length = l.length := by
  induction l generalizing ys with
  | nil => cases h; rfl
  | cons a l ih =>
    rw [List.mapM_cons] at h
    obtain ⟨b, -, h⟩ := Option.bind_eq_some_iff.mp h
    obtain ⟨bs, hbs, h⟩ := Option.bind_eq_some_iff.mp h
    cases h
    simp [ih hbs]

/-- A page holds at most `MAX_HISTORY_LIMIT` messages, each from a row of the table. -/
theorem history_page {db : Db} {channel : ChannelId} {before : Option MessageId} {limit : UInt16}
    {messages : List ChatMessage} {reachedStart : Bool}
    (h : db.history channel before limit = some (messages, reachedStart)) :
    messages.length ≤ 200 ∧ ∀ m ∈ messages, ∃ r ∈ db.messages.rows, rowToMessage r = some m := by
  obtain ⟨found, hfound, he⟩ := Option.map_eq_some_iff.mp h
  obtain rfl : found.reverse = messages := congrArg Prod.fst he
  have hlimit : (if limit < 1 then 1 else if maxHistoryLimit < limit then maxHistoryLimit.toNat
      else limit.toNat) ≤ 200 := by
    split
    · omega
    · split
      · decide
      · exact UInt16.le_iff_toNat_le.mp (UInt16.not_lt.mp ‹_›)
  constructor
  · have hlen := length_of_mapM hfound
    rw [List.length_take] at hlen
    rw [List.length_reverse]
    omega
  · intro m hm
    obtain ⟨r, hr, hrm⟩ := mem_of_mapM hfound (List.mem_reverse.mp hm)
    have hsorted := List.mem_of_mem_take (List.mem_of_mem_take hr)
    have hrow := (List.mem_insertionSort _).mp hsorted
    exact ⟨r, (List.mem_filter.mp hrow).1, hrm⟩

/-! ## Names -/

/-- The server runs under the default limits, and everyone's name is one that `sanitize_nickname` may produce. -/
structure Named (s : Shared) : Prop where
  content : s.limits.maxMessageLen = defaultLimits.maxMessageLen
  nickname : s.limits.maxNicknameLen = defaultLimits.maxNicknameLen
  names : ∀ e ∈ s.clients, ShortName e.info.nickname

theorem sanitizeNickname_short {raw name : String} {s : Shared} (hs : Named s)
    (h : Shared.sanitizeNickname raw s.limits.maxNicknameLen.toNat = some name) : ShortName name := by
  rw [hs.nickname] at h
  unfold Shared.sanitizeNickname at h
  dsimp only at h
  split at h
  · cases h
  · obtain rfl := Option.some.inj h
    unfold ShortName
    rw [String.toList_ofList, List.length_take]
    omega

section
variable {s t : Shared}

theorem Named.of_clients (h : Named s) (hl : t.limits = s.limits)
    (hc : ∀ e ∈ t.clients, ∃ e₀ ∈ s.clients, e.info.nickname = e₀.info.nickname) : Named t where
  content := hl ▸ h.content
  nickname := hl ▸ h.nickname
  names e he := by
    obtain ⟨e₀, he₀, hn⟩ := hc e he
    rw [hn]
    exact h.names e₀ he₀

theorem Named.of_map (h : Named s) (hl : t.limits = s.limits) {f : ConnectedClient → ConnectedClient}
    (hc : t.clients = s.clients.map f) (hf : ∀ e, (f e).info.nickname = e.info.nickname) : Named t := by
  apply h.of_clients hl
  intro e he
  rw [hc] at he
  obtain ⟨e₀, he₀, rfl⟩ := List.mem_map.mp he
  exact ⟨e₀, he₀, hf e₀⟩

theorem Named.same (h : Named s) (hl : t.limits = s.limits) (hc : t.clients = s.clients) : Named t :=
  h.of_clients hl fun e he => ⟨e, hc ▸ he, rfl⟩

theorem Named.deliver (h : Named s) {f : UserInfo → List ServerControl} (ht : t = s.deliver f) : Named t := by
  subst ht
  exact h.of_map rfl rfl fun _ => rfl

theorem Named.modifyInfo (h : Named s) (client : ClientId) {f : UserInfo → UserInfo}
    (hf : ∀ i, ShortName i.nickname → ShortName (f i).nickname) : Named (s.modifyInfo client f) where
  content := h.content
  nickname := h.nickname
  names e he := by
    obtain ⟨e₀, he₀, rfl⟩ := List.mem_map.mp he
    split
    · exact hf _ (h.names e₀ he₀)
    · exact h.names e₀ he₀

theorem Named.admitUser (h : Named s) {identity : PublicIdentity} {nickname : String} {info : UserInfo}
    (ht : s.admitUser identity nickname = .ok (info, t)) : Named t := by
  have hshort : ShortName info.nickname := by
    unfold Shared.admitUser at ht
    split at ht; · cases ht
    split at ht; · cases ht
    rename_i name hname
    split at ht; · cases ht
    cases ht
    exact sanitizeNickname_short h hname
  obtain ⟨-, -, -, -, -, -, rfl⟩ := Shared.admitUser_ok ht
  refine ⟨h.content, h.nickname, fun e he => ?_⟩
  rcases Keyed.mem_put.mp he with rfl | ⟨he, -⟩
  · exact hshort
  · exact h.names e he

/-- Whatever a handler does to the state: names come from `sanitize_nickname` only. -/
theorem Named.operate (h : Named s) (op : Operation) : Named (s.operate op) := by
  cases op with
  | send client m => exact h.deliver (Shared.send_eq ..)
  | broadcast m except => exact h.deliver (Shared.broadcast_eq ..)
  | broadcastFiltered m channel except => exact h.deliver (Shared.broadcastFiltered_eq ..)
  | resyncVisibility before touched => exact h.deliver (Shared.resyncVisibility_eq ..)
  | relayVoice sender packet =>
    change Named (s.relayVoice sender packet)
    rcases s.relayVoice_cases sender packet with he | ⟨channel, -, he⟩ <;> rw [he]
    · exact h
    · exact h.of_map rfl rfl fun e => by rw [ConnectedClient.hear_info]
  | admitUser identity nickname =>
    change Named (((s.admitUser identity nickname).toOption.map Prod.snd).getD s)
    rcases landed (s.admitUser identity nickname) s with ⟨he, -⟩ | ⟨info, t, ht, he⟩ <;> rw [he]
    · exact h
    · exact h.admitUser ht
  | remove client => exact h.of_clients rfl fun e he => ⟨e, (Keyed.mem_erase.mp he).1, rfl⟩
  | joinChannel client channel =>
    change Named (((s.joinChannel client channel).toOption.map Prod.snd).getD s)
    rcases landed (s.joinChannel client channel) s with ⟨he, -⟩ | ⟨source, t, ht, he⟩ <;> rw [he]
    · exact h
    · obtain ⟨_, _, -, -, -, -, -, rfl⟩ := Shared.joinChannel_ok ht
      exact h.modifyInfo client fun _ => id
  | leaveChannel client =>
    change Named (s.modifyInfo client fun i => { i with channel := none })
    exact h.modifyInfo client fun _ => id
  | forceMove client dest =>
    change Named (((s.forceMove client dest).toOption.map Prod.snd).getD s)
    rcases landed (s.forceMove client dest) s with ⟨he, -⟩ | ⟨source, t, ht, he⟩ <;> rw [he]
    · exact h
    · obtain ⟨_, -, -, -, rfl⟩ := Shared.forceMove_ok ht
      exact h.modifyInfo client fun _ => id
  | setVoiceState client selfMuted selfDeafened =>
    change Named (((s.setVoiceState client selfMuted selfDeafened).map Prod.snd).getD s)
    cases hu : s.user client with
    | none => simpa [Shared.setVoiceState, hu] using h
    | some i =>
      simp only [Shared.setVoiceState, hu, Option.map_some, Option.getD_some]
      exact h.modifyInfo client fun _ => id
  | setNickname client nickname =>
    change Named (((s.setNickname client nickname).map Prod.snd).getD s)
    unfold Shared.setNickname
    split
    · exact h
    · rename_i name hname
      cases hu : s.user client with
      | none => simpa using h
      | some i =>
        simp only [Option.map_some, Option.getD_some]
        exact h.modifyInfo client fun _ _ => sanitizeNickname_short h hname
  | setServerMuted client muted =>
    change Named (((s.setServerMuted client muted).map Prod.snd).getD s)
    cases hu : s.user client with
    | none => simpa [Shared.setServerMuted, hu] using h
    | some i =>
      simp only [Shared.setServerMuted, hu, Option.map_some, Option.getD_some]
      exact h.modifyInfo client fun _ => id
  | updateLiveMemberRoles f roles => exact h.of_map rfl rfl fun e => by split <;> rfl
  | stripLiveRole role => exact h.of_map rfl rfl fun e => by split <;> rfl
  | removeChannelMem id =>
    change Named (s.removeChannelMem id).2
    unfold Shared.removeChannelMem
    split
    · exact h
    · exact h.of_map rfl rfl fun e => by split <;> rfl
  | _ => exact h.same rfl rfl

end

/-! ## Who stores messages -/

def Storable : Await → Prop
  | .save (.insertMessage m) => m.Short
  | _ => True

/-- What a handler stores while names are as they should be. -/
def postBound : Bound Shared Await Await.Reply := ⟨fun _ _ => True, Named, Storable, fun _ _ => True⟩

def Posting (h : Handler) : Prop := postBound.Holds h

def PostingTodo (t : Todo) : Prop := t.Bounded postBound

section
variable {client : ClientId} {nonce : UInt64}

theorem PostingTodo.next {s : Shared} {t : Todo} (h : PostingTodo t) : True ∧ (Named s → PostingTodo t) :=
  ⟨trivial, fun _ => h⟩

theorem posting_end (s : Shared) : True ∧ (Named s → PostingTodo (.done : Todo)) := ⟨trivial, fun _ => trivial⟩

theorem posting_done (f : Shared → Shared) : Posting fun s => (f s, .done) := fun _ => ⟨trivial, fun _ => trivial⟩

theorem posting_onYield {k : Handler} (hk : Posting k) : PostingTodo (onYield k) := bounded_wait trivial fun _ _ => hk

theorem posting_onSleep {k : Handler} (hk : Posting k) : PostingTodo (onSleep k) := bounded_wait trivial fun _ _ => hk

theorem posting_onLoad {call : StoreRead} {k : Option call.Answer → Handler} (hk : ∀ r, Posting (k r)) :
    PostingTodo (onLoad call k) := bounded_wait trivial fun r _ => hk r

theorem posting_onWritten {call : StoreWrite} {k : Handler} (hcall : Storable (.save call)) (hk : Posting k) :
    PostingTodo (onWritten call k) := bounded_wait hcall fun _ _ => hk

theorem posting_onSaved {call : StoreWrite} {failed : Shared → Shared} {saved : Handler} (hcall : Storable (.save call))
    (hk : Posting saved) : PostingTodo (onSaved call failed saved) := by
  apply bounded_wait hcall
  intro ok _ s
  cases ok with
  | true => exact hk s
  | false => exact posting_done failed s

theorem Passes.posting {s : Shared} {a : Actor} {cmd : RoleCommand} {next : PermState} {save : Todo}
    (h : Passes s client nonce a cmd next save) : PostingTodo save := by
  cases h with
  | create =>
    refine posting_onSaved trivial fun _ => PostingTodo.next ?_
    exact posting_onSaved trivial (posting_done _)
  | update => exact posting_onSaved trivial (posting_done _)
  | delete =>
    refine posting_onSaved trivial fun _ => PostingTodo.next ?_
    exact posting_onWritten trivial (posting_done _)
  | reorder => exact posting_onSaved trivial (posting_done _)
  | grant => exact posting_onSaved trivial (posting_done _)

theorem RoleCommand.posting (cmd : RoleCommand) : Posting (cmd.handle client nonce) := by
  intro s
  rcases RoleCommand.handle_cases (rfl : cmd.handle client nonce s = _) with ⟨hd, -⟩ | ⟨a, next, save, -, -, hp, he⟩
  · rw [hd]
    exact ⟨trivial, fun _ => trivial⟩
  · rw [he]
    exact hp.posting.next

theorem ChannelCommand.posting (cmd : ChannelCommand) : Posting (cmd.handle client nonce) := by
  intro s
  rcases ChannelCommand.handle_cases (rfl : cmd.handle client nonce s = _) with ⟨hd, -⟩ | ⟨c, detail, -, hp, he⟩
  · rw [hd]
    exact ⟨trivial, fun _ => trivial⟩
  · rw [he]
    have hcall : Storable (.save c.call) := by cases hp <;> trivial
    exact (posting_onSaved hcall (posting_done _)).next

theorem posting_reject (failure : AuthFailure) : PostingTodo (reject failure) := by
  apply bounded_wait trivial
  intro ok _ s
  cases ok with
  | true => exact (posting_onSleep (posting_done id)).next
  | false => exact posting_done id s

theorem posting_admitClient (auth : ClientAuth) : Posting (admitClient auth) := by
  intro s
  unfold admitClient
  split
  · exact (posting_reject _).next
  · refine ⟨trivial, fun _ => bounded_wait trivial fun (ok : Bool) _ u => ?_⟩
    split
    · exact posting_done (Shared.broadcast · _ _) u
    · exact posting_done (fun u => (u.remove _).2) u

theorem posting_handshake (auth : ClientAuth) : Posting (handshake auth) := by
  intro s
  unfold handshake
  split
  · exact (posting_reject _).next
  · split
    · exact posting_admitClient auth s
    · refine (posting_onLoad fun r s => ?_).next
      split
      · exact (posting_reject _).next
      · exact posting_admitClient auth s

theorem posting_ejectAndClose (victim : ClientId) (reason : DisconnectReason) {k : Handler} (hk : Posting k) :
    Posting (ejectAndClose victim reason k) := by
  intro s
  unfold ejectAndClose
  split
  · exact hk s
  · exact (posting_onSleep hk).next

theorem posting_ejectVictims (victims : List ClientId) : Posting (ejectVictims client nonce victims) := by
  induction victims with
  | nil => exact posting_done _
  | cons victim victims ih =>
    intro s
    exact (posting_onYield (posting_ejectAndClose victim .banned ih)).next

theorem posting_ban (f : Fingerprint) (reason : String) (til : Option UInt64) :
    Posting (ban client nonce f reason til) := by
  intro s
  unfold ban
  split; · exact posting_end _
  refine (posting_onYield fun s => ?_).next
  split; · exact posting_end _
  refine (posting_onYield fun s => ?_).next
  split; · exact posting_end _
  split; · exact posting_end _
  refine (posting_onYield fun s => ?_).next
  refine PostingTodo.next ?_
  exact posting_onSaved trivial fun s => posting_ejectVictims _ s

theorem posting_sendMessage (channel : ChannelId) (content : String) (replyTo : Option MessageId) :
    Posting (sendMessage client channel content replyTo nonce) := by
  intro s
  unfold sendMessage
  split; · exact posting_end _
  rename_i author hauthor
  split; · exact posting_end _
  split; · exact posting_end _
  rename_i hcontent
  split; · exact posting_end _
  split; · exact posting_end _
  split; · exact posting_end _
  split; · exact posting_end _
  dsimp only [Shared.buildMessage]
  split
  · exact ⟨trivial, fun _ => trivial⟩
  · refine ⟨trivial, fun hs => posting_onSaved ?_ (posting_done _)⟩
    have hs : Named s := hs.same rfl rfl
    constructor
    · rw [hs.content] at hcontent
      exact Nat.le_of_not_lt hcontent
    · obtain ⟨e, he, rfl⟩ := Option.map_eq_some_iff.mp hauthor
      exact hs.names e (Keyed.get_mem he)

theorem posting_plain (s : Shared) {frame : ClientControl} (hp : frame.plain = true) :
    True ∧ (Named (handleControl client frame s).1 → PostingTodo (handleControl client frame s).2) := by
  cases frame <;> simp only [handleControl]
  case kick nonce target reason =>
    unfold kick
    split
    · exact posting_end _
    · exact posting_ejectAndClose target .kicked (posting_done _) s
  case ban nonce f reason til => exact posting_ban f reason til s
  case unban nonce f =>
    unfold unban
    split; · exact posting_end _
    split; · exact posting_end _
    exact PostingTodo.next (posting_onSaved trivial (posting_done _))
  case listBans nonce =>
    unfold listBans
    split; · exact posting_end _
    split; · exact posting_end _
    refine PostingTodo.next (posting_onLoad fun (r : Option (List BanEntry)) s => ?_)
    split <;> exact posting_end _
  case setServerMute nonce target muted =>
    unfold setServerMute
    split; · exact posting_end _
    split <;> exact posting_end _
  case moveMember nonce target dest =>
    unfold moveMember
    split; · exact posting_end _
    split; · exact posting_end _
    split; · exact posting_end _
    split <;> exact posting_end _
  case joinChannel channel => split <;> exact posting_end _
  case setVoiceState selfMuted selfDeafened => split <;> exact posting_end _
  case setNickname nickname => split <;> exact posting_end _
  case fetchHistory channel before limit =>
    unfold fetchHistory
    dsimp only
    split; · exact posting_end _
    split; · exact posting_end _
    split; · exact posting_end _
    split; · exact posting_end _
    refine PostingTodo.next (posting_onLoad fun (r : Option (List ChatMessage × Bool)) s => ?_)
    split <;> exact posting_end _
  all_goals first | exact posting_end _ | cases hp

theorem Input.posting (i : Input) : Posting i.handler := by
  cases i with
  | connect auth => exact posting_handshake auth
  | control client frame =>
    rcases frame.kinds with ⟨nonce, cmd, rfl⟩ | ⟨nonce, cmd, rfl⟩ | ⟨channel, content, replyTo, nonce, rfl⟩ | hp
    · change Posting (handleControl client _)
      rw [cmd.handle_eq]
      exact cmd.posting
    · change Posting (handleControl client _)
      rw [cmd.handle_eq]
      exact cmd.posting
    · exact posting_sendMessage channel content replyTo
    · exact fun s => posting_plain s hp
  | voice client packet => exact posting_done _
  | disconnect client => exact posting_done _
  | tick now => exact posting_done _

end

/-! ## The table -/

theorem perform_messages {call : StoreWrite} {db db' : Db} (h : call.perform db = some db') {r : MessageRow}
    (hr : r ∈ db'.messages.rows) : r ∈ db.messages.rows ∨ ∃ m, call = .insertMessage m ∧ r = messageRow m := by
  cases call with
  | insertMessage m =>
    obtain ⟨t, ht, rfl⟩ := Option.map_eq_some_iff.mp h
    change r ∈ t.rows at hr
    rw [(Keyed.Table.insert_rows ht).1] at hr
    rcases List.mem_append.mp hr with hr | hr
    · exact .inl hr
    · exact .inr ⟨m, rfl, List.mem_singleton.mp hr⟩
  | insertRole | replaceMemberRoles | insertChannel =>
    obtain ⟨t, -, rfl⟩ := Option.map_eq_some_iff.mp h
    exact .inl hr
  | _ =>
    obtain rfl := Option.some.inj h
    exact .inl hr

theorem pruneChannel_rows {keep : UInt32} {acc : Nat × Db} {channel : Int64} {r : MessageRow}
    (hr : r ∈ (Db.pruneChannel keep acc channel).2.messages.rows) : r ∈ acc.2.messages.rows := by
  unfold Db.pruneChannel at hr
  dsimp only at hr
  split at hr
  · exact hr
  · exact (Keyed.Table.mem_delete.mp hr).1

theorem Pruning.rows {p : Pruning} {db : Db} {r : MessageRow} (hr : r ∈ (p.perform db).messages.rows) :
    r ∈ db.messages.rows := by
  cases p with
  | before cutoff => exact (Keyed.Table.mem_delete.mp hr).1
  | limit keep =>
    have hfold : ∀ (channels : List Int64) (acc : Nat × Db),
        r ∈ (channels.foldl (Db.pruneChannel keep) acc).2.messages.rows → r ∈ acc.2.messages.rows := by
      intro channels
      induction channels with
      | nil => exact fun _ => id
      | cons channel channels ih => exact fun acc h => pruneChannel_rows (ih _ h)
    exact hfold _ (0, db) hr

theorem bind_named {config : ServerConfig} {now : UInt64} {db db' : Db} {s : Shared}
    (h : Server.bind config now db = some (s, db')) : Named s := by
  have hstart : s.limits = { maxUsers := config.maxUsers } ∧ s.clients = [] := by
    unfold Server.bind at h
    split at h; · cases h
    split at h; · cases h
    dsimp only at h
    split at h <;> cases h <;> exact ⟨rfl, rfl⟩
  obtain ⟨hlimits, hclients⟩ := hstart
  refine ⟨hlimits ▸ rfl, hlimits ▸ rfl, fun e he => ?_⟩
  rw [hclients] at he
  cases he

/-! ## Runs -/

/-- What a handler does with names as they should be. -/
def namedBound : Bound Shared Await Await.Reply :=
  ⟨fun s t => Named s → Named t, fun _ => True, fun _ => True, fun _ _ => True⟩

theorem Operates.named {seen s t : Shared} (h : Operates seen s t) (hs : Named s) : Named t := by
  unfold Operates at h
  refine h.invariant Named hs fun s op t hn _ (he : t = s.operate op) => ?_
  subst he
  exact hn.operate op

theorem Input.named (i : Input) : namedBound.Holds i.handler := by
  intro s
  obtain ⟨hs, htodo⟩ := i.called s
  refine ⟨hs.named, fun _ => ?_⟩
  have hcalled : (i.handler s).2.Bounded (opBound s) := htodo trivial
  exact hcalled.mono namedBound (fun _ _ => Operates.named) (fun _ => id) (fun _ => id) fun _ _ => id

/-- Only what reaches the server starts a handler, and only handlers change the state. -/
def Incident.FromInput : Incident → Prop
  | .event e => PickleChat.FromInput e
  | _ => True

def ShortRows (w : World) : Prop := ∀ r ∈ w.db.messages.rows, r.Short

structure Archived (p : ServerPool) : Prop where
  named : Named p.state
  rows : ShortRows p.world
  naming : ∀ i j, p.jobs i = some j → j.Bounded namedBound
  posting : ∀ i j, p.jobs i = some j → j.Bounded postBound

theorem ShortRows.performs {op : Await} {w w' : World} {r : op.Reply} (hop : Storable op) (h : MayFail op w r w')
    (hw : ShortRows w) : ShortRows w' := by
  rcases h with h | ⟨-, rfl⟩
  · cases h with
    | save hcall =>
      intro row hrow
      rcases perform_messages hcall hrow with hrow | ⟨m, rfl, rfl⟩
      · exact hw row hrow
      · exact hop
    | load => exact hw
    | sleep => exact hw
    | yield => exact hw
    | write => exact hw
    | vanished => exact hw
  · exact hw

theorem Archived.step {p p' : ServerPool} {e : Incident} (h : Archived p) (hok : e.FromInput) (hst : e.Moves p p') :
    Archived p' := by
  cases e with
  | event e =>
    have hspawn : ∀ i hd, e = .spawn i hd → ∃ inp : Input, hd = inp.handler := by
      rintro i hd rfl
      exact hok
    have houtside : ∀ f, e ≠ .outside f := by
      rintro f rfl
      exact hok
    have hnamed := hst.bounded (B := namedBound) (I := Named) (V := fun _ => True)
      (fun s t hs hm _ => hm hs) (fun _ _ _ _ _ _ => id) (fun i hd he => by
        obtain ⟨inp, rfl⟩ := hspawn i hd he
        exact inp.named) (fun f he => absurd he (houtside f)) (fun _ _ _ _ _ _ _ _ _ _ _ => trivial)
      h.named trivial h.naming trivial
    have hrows := hst.bounded (B := postBound) (I := fun _ => True) (V := ShortRows)
      (fun _ _ _ _ _ => trivial) (fun op w r w' => ShortRows.performs) (fun i hd he => by
        obtain ⟨inp, rfl⟩ := hspawn i hd he
        exact inp.posting) (fun f he => absurd he (houtside f)) (fun _ _ _ _ _ _ _ _ _ _ _ => trivial)
      trivial h.rows h.posting hnamed.1
    exact ⟨hnamed.1, hrows.2.1, hnamed.2.2, hrows.2.2⟩
  | prune q =>
    obtain rfl : p' = _ := hst
    exact ⟨h.named, fun r hr => h.rows r (Pruning.rows hr), h.naming, h.posting⟩
  | restart config now =>
    obtain ⟨hb, hjobs⟩ := hst
    have hnone : ∀ i j, p'.jobs i ≠ some j := by
      intro i j hj
      rw [hjobs i] at hj
      cases hj
    refine ⟨bind_named hb, fun r hr => h.rows r ?_, fun i j hj => absurd hj (hnone i j),
      fun i j hj => absurd hj (hnone i j)⟩
    rwa [bind_messages hb] at hr

/-- In every run of handlers, interleaved at their awaits and with any store failures, of prunes and of
restarts: every page of history that the store may be asked for fits in a frame. -/
theorem history_fits {config : ServerConfig} {now : UInt64} {db db₀ : Db} {s₀ : Shared}
    (hb : Server.bind config now db = some (s₀, db₀)) (hrows : ∀ r ∈ db.messages.rows, r.Short) {p : ServerPool}
    (hrun : Run (fun p e p' => Incident.Moves p e p') (fun _ e => e.FromInput) ⟨s₀, ⟨db₀, []⟩, fun _ => none⟩ p)
    (channel : ChannelId) (before : Option MessageId) (limit : UInt16) (messages : List ChatMessage)
    (reachedStart : Bool)
    (h : p.world.db.history channel before limit = some (messages, reachedStart)) :
    historyLen channel messages ≤ maxFrameLen := by
  have harchived : Archived p := by
    refine hrun.invariant Archived ⟨bind_named hb, ?_, ?_, ?_⟩ fun _ _ _ ha hok hst => ha.step hok hst
    · intro r hr
      change r ∈ db₀.messages.rows at hr
      rw [bind_messages hb] at hr
      exact hrows r hr
    · intro i j hj
      cases hj
    · intro i j hj
      cases hj
  obtain ⟨hlen, hmem⟩ := history_page h
  apply historyLen_le hlen
  intro m hm
  obtain ⟨r, hr, hrm⟩ := hmem m hm
  exact (harchived.rows r hr).message hrm

def longest : String := String.ofList (List.replicate 4000 'x')

theorem longest_size : longest.utf8ByteSize = 4000 := Text.utf8ByteSize_replicate 4000

def archived (id : MessageId) (channel : ChannelId) (content : String) : ChatMessage :=
  ⟨id, channel, none, .rep 1, "n", 5, none, content, none⟩

def archive : List ChatMessage := [archived 1 2 longest, archived 2 1 "b", archived 3 2 "c"]

def archiveDb : Db :=
  { twoChannelsDb with
    messages := ⟨archive.map messageRow, by
      have hids : [bigint 1, bigint 2, bigint 3].Nodup := by decide
      exact hids⟩ }

def addition : ChatMessage := { archived 4 2 "a" with author := some 1 }

def archivedDb : Db :=
  { twoChannelsDb with
    messages := ⟨(archive ++ [addition]).map messageRow, by
      have hids : [bigint 1, bigint 2, bigint 3, bigint 4].Nodup := by decide
      exact hids⟩ }

theorem archiveDb_insert : StoreWrite.perform (.insertMessage addition) archiveDb = some archivedDb := by
  have hids : ∀ m ∈ archive, bigint m.id ≠ bigint addition.id := by decide
  have hnew : ∀ row ∈ archiveDb.messages.rows, row.id ≠ (messageRow addition).id := by
    intro row hrow
    obtain ⟨m, hm, rfl⟩ := List.mem_map.mp hrow
    exact hids m hm
  have hinsert : archiveDb.messages.insert (messageRow addition) = some archivedDb.messages := dif_pos hnew
  simp only [StoreWrite.perform, Db.insertMessage, hinsert, Option.map_some]
  rfl

def archiveServer : Shared := { twoChannelsStart.now.1 with nextMessageId := 4 }

theorem archive_bind : Server.bind ownedConfig 5 archiveDb = some (archiveServer, archiveDb) := rfl

/-- The owner posts in a channel that has a message of the greatest length. -/
theorem history_fits_posted : ∃ p : ServerPool,
    p.world.db.history 2 none 50 = some ([archived 1 2 longest, archived 3 2 "c", archived 4 2 "a"], true) ∧
      historyLen 2 [archived 1 2 longest, archived 3 2 "c", archived 4 2 "a"] ≤ maxFrameLen := by
  have hrun : ∃ p : ServerPool, Run (fun p e p' => Incident.Moves p e p') (fun _ e => e.FromInput)
      ⟨archiveServer, ⟨archiveDb, []⟩, fun _ => none⟩ p ∧ p.world.db = archivedDb :=
    ⟨_, .step (.event (.resume 1)) (.step (.event (.perform 1))
      (.step (.event (.spawn 1 (Input.control 1 (.sendMessage 2 "a" none 7)).handler))
      (.step (.event (.resume 0)) (.step (.event (.perform 0)) (.step (.event (.resume 0)) (.step (.event (.perform 0))
      (.step (.event (.spawn 0 ownerConnects.handler)) .refl
      ⟨_, rfl⟩ (.spawn 0 _ rfl))
      trivial (.perform 0 rfl rfl (.inl (.load rfl))))
      trivial (.resume 0 rfl rfl))
      trivial (.perform 0 rfl rfl (.inl .write)))
      trivial (.resume 0 rfl rfl))
      ⟨_, rfl⟩ (.spawn 1 _ rfl))
      trivial (.perform 1 rfl rfl (.inl (.save archiveDb_insert))))
      trivial (.resume 1 rfl rfl), rfl⟩
  obtain ⟨p, hrun, hdb⟩ := hrun
  have hrows : p.world.db.messages.rows = (archive ++ [addition]).map messageRow := by
    rw [hdb]
    rfl
  have hids : ∀ m ∈ archive ++ [addition], m.id.toNat < 2 ^ 63 := by decide
  have hpage : p.world.db.history 2 none 50 =
      some ([archived 1 2 longest, archived 3 2 "c", archived 4 2 "a"], true) := by
    have hdrop := @history_drop (archive ++ [addition]) 2 p.world.db none 50
      [archived 1 2 longest, archived 3 2 "c", archived 4 2 "a"] hrows hids (by rintro _ ⟨⟩)
    refine hdrop ?_ ?_
    · have hascending : ([1, 3, 4] : List MessageId).Pairwise (· < ·) := by decide
      exact List.pairwise_map.mp hascending
    · exact .refl _
  refine ⟨p, hpage, history_fits archive_bind ?_ hrun 2 none 50 _ true hpage⟩
  intro r hr
  obtain ⟨m, hm, rfl⟩ := List.mem_map.mp hr
  rcases List.mem_cons.mp hm with rfl | hm
  · exact ⟨Std.le_of_eq longest_size, show ("n".toList.length ≤ 32) by decide⟩
  · have hshort : ∀ m ∈ [archived 2 1 "b", archived 3 2 "c"],
        m.content.utf8ByteSize ≤ 4000 ∧ m.authorNickname.toList.length ≤ 32 := by decide
    exact hshort m hm

end PickleChat
