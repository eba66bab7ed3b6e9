import PickleChat.Store
import PickleChat.Lib.Newest

/-!
# What a page of history is

`history` against its purpose: the newest messages of a channel below a cursor,
and whether there are older ones. The cursor is cast to a signed column, so from
`2 ^ 63` on it lies below every message.
-/

namespace PickleChat

open Newest (Highest below mem_below walk)

/-! ## Ids in the column -/

theorem bigint_lt {m n : UInt64} (hm : m.toNat < 2 ^ 63) (hn : n.toNat < 2 ^ 63) : bigint m < bigint n ↔ m < n := by
  unfold bigint
  rw [Int64.lt_iff_toInt_lt, Word.toInt64_toInt, Word.toInt64_toInt, if_pos hm, if_pos hn, UInt64.lt_iff_toNat_lt]
  omega

/-- A cursor that does not fit the column is below every id that does. -/
theorem not_bigint_lt {m n : UInt64} (hm : m.toNat < 2 ^ 63) (hn : ¬ n.toNat < 2 ^ 63) : ¬ bigint m < bigint n := by
  have := n.toNat_lt
  unfold bigint
  rw [Int64.lt_iff_toInt_lt, Word.toInt64_toInt, Word.toInt64_toInt, if_pos hm, if_neg hn]
  omega

/-! ## Pages by what they are -/

def ChatMessage.recalled (m : ChatMessage) : ChatMessage := { m with author := none }

@[simp] theorem ChatMessage.recalled_id (m : ChatMessage) : m.recalled.id = m.id := rfl

@[simp] theorem rowToMessage_messageRow (m : ChatMessage) : rowToMessage (messageRow m) = some m.recalled := by
  simp [rowToMessage, messageRow, ChatMessage.recalled, bigint, Fingerprint.parse_toText, Function.comp_def]

def inChannel (channel : ChannelId) (messages : List ChatMessage) : List ChatMessage :=
  messages.filter fun m => m.channel = channel

def earlier (channel : ChannelId) (before : Option MessageId) (messages : List ChatMessage) : List ChatMessage :=
  below ChatMessage.id before (inChannel channel messages)

/-- `clamp(limit, 1, 200)`. -/
def pageSize (limit : UInt16) : Nat := min (max 1 limit.toNat) maxHistoryLimit.toNat

/-- What a page of a channel below a cursor should be, and what should be said of its start. -/
structure IsPage (stored : List ChatMessage) (channel : ChannelId) (before : Option MessageId) (limit : UInt16)
    (page : List ChatMessage) (reachedStart : Bool) : Prop where
  ascending : page.Pairwise fun a b => a.id < b.id
  newest : Highest ChatMessage.id (pageSize limit) ((earlier channel before stored).map ChatMessage.recalled) page
  start : reachedStart = true ↔ ¬ ∃ m ∈ earlier channel before stored, ∀ p ∈ page, m.id < p.id

section
variable {db : Db} {stored : List ChatMessage} {channel : ChannelId} {before : Option MessageId} {limit : UInt16}

theorem mem_inChannel {m : ChatMessage} : m ∈ inChannel channel stored ↔ m ∈ stored ∧ m.channel = channel := by
  simp [inChannel]

theorem mem_earlier {m : ChatMessage} :
    m ∈ earlier channel before stored ↔ (m ∈ stored ∧ m.channel = channel) ∧ ∀ b ∈ before, m.id < b := by
  rw [earlier, mem_below, mem_inChannel]

/-- The limit as `history` computes it. -/
theorem pageSize_eq (limit : UInt16) :
    (if limit < 1 then 1 else if maxHistoryLimit < limit then maxHistoryLimit.toNat else limit.toNat) =
      pageSize limit := by
  unfold pageSize
  simp only [UInt16.lt_iff_toNat_lt]
  change (if limit.toNat < 1 then 1 else if 200 < limit.toNat then 200 else limit.toNat) = min (max 1 limit.toNat) 200
  split
  · omega
  · split <;> omega

theorem one_le_pageSize (limit : UInt16) : 1 ≤ pageSize limit := by
  unfold pageSize
  change 1 ≤ min (max 1 limit.toNat) 200
  omega

theorem mapM_rowToMessage (messages : List ChatMessage) :
    (messages.map messageRow).mapM rowToMessage = some (messages.map ChatMessage.recalled) := by
  induction messages with
  | nil => rfl
  | cons m messages ih =>
    rw [List.map_cons, List.mapM_cons, rowToMessage_messageRow, ih]
    rfl

variable (limit) in
/-- The rows that `history` finds are those of some messages, whose ids differ. -/
theorem history_found (hrows : db.messages.rows = stored.map messageRow) {found : List ChatMessage}
    (hfound : (stored.filter fun m => m.channel = channel ∧ before.all fun b => bigint m.id < bigint b) = found) :
    ∃ sorted : List ChatMessage, sorted.Perm found ∧ sorted.Pairwise (fun a b => bigint b.id < bigint a.id) ∧
      db.history channel before limit =
        some (((sorted.take (pageSize limit)).map ChatMessage.recalled).reverse,
          decide (sorted.length ≤ pageSize limit)) := by
  have hperm := List.perm_insertionSort (fun a b : ChatMessage => bigint b.id ≤ bigint a.id) found
  refine ⟨_, hperm, ?_, ?_⟩
  · -- No two rows share an id.
    have hids : (found.map fun m => bigint m.id).Nodup := by
      have hall : (stored.map fun m => bigint m.id).Nodup := by
        have := db.messages.unique
        rwa [hrows, List.map_map] at this
      rw [← hfound]
      exact hall.sublist (List.filter_sublist.map _)
    have hnodup := (hperm.map fun m => bigint m.id).nodup_iff.mpr hids
    rw [List.Nodup, List.pairwise_map] at hnodup
    have hsorted := List.pairwise_insertionSort (fun a b : ChatMessage => bigint b.id ≤ bigint a.id) found
    exact (hsorted.and hnodup).imp fun h => Std.lt_of_le_of_ne h.1 h.2.symm
  · unfold Db.history
    rw [pageSize_eq]
    dsimp only
    generalize hrow : List.filter _ db.messages.rows = rows
    have hrows' : rows = found.map messageRow := by
      rw [← hrow, hrows, List.filter_map, ← hfound]
      congr 1
      apply List.filter_congr
      intro m _
      have hchannel : (messageRow m).channel = Word.toColumn channel ↔ m.channel = channel :=
        ⟨Word.toColumn_inj, fun h => h ▸ rfl⟩
      cases before with
      | none => simp [hchannel]
      | some b =>
        simp only [Function.comp_apply, hchannel, Option.all_some, decide_eq_true_eq]
        rfl
    have hsort := List.map_insertionSort (fun a b : ChatMessage => bigint b.id ≤ bigint a.id)
      (fun a b : MessageRow => b.id ≤ a.id) messageRow found fun _ _ _ _ => Iff.rfl
    rw [hrows', ← hsort, List.take_take, ← List.map_take, ← List.map_take, mapM_rowToMessage, List.length_map,
      List.length_take, Nat.min_eq_left (Nat.le_succ _), Option.map_some]
    generalize List.insertionSort (fun a b : ChatMessage => bigint b.id ≤ bigint a.id) found = sorted
    have hprobe : min (pageSize limit + 1) sorted.length ≤ pageSize limit ↔ sorted.length ≤ pageSize limit := by omega
    simp only [hprobe]

variable (channel) in
theorem earlier_found (hid : ∀ m ∈ stored, m.id.toNat < 2 ^ 63) (hbefore : ∀ b ∈ before, b.toNat < 2 ^ 63) :
    (stored.filter fun m => m.channel = channel ∧ before.all fun b => bigint m.id < bigint b) =
      earlier channel before stored := by
  unfold earlier below inChannel
  rw [List.filter_filter]
  apply List.filter_congr
  intro m hm
  cases before with
  | none => simp
  | some b =>
    have hlt := bigint_lt (hid m hm) (hbefore b rfl)
    simp [hlt, Bool.and_comm]

variable (channel limit) in
/-- The page below a cursor that fits the column. -/
theorem history_below (hrows : db.messages.rows = stored.map messageRow) (hid : ∀ m ∈ stored, m.id.toNat < 2 ^ 63)
    (hbefore : ∀ b ∈ before, b.toNat < 2 ^ 63) :
    ∃ page : List ChatMessage, page.Pairwise (fun a b => a.id < b.id) ∧
      Highest ChatMessage.id (pageSize limit) ((earlier channel before stored).map ChatMessage.recalled) page ∧
      ((earlier channel before stored).map ChatMessage.recalled).Nodup ∧
      db.history channel before limit =
        some (page, decide ((earlier channel before stored).length ≤ pageSize limit)) := by
  have hearlier := earlier_found channel hid hbefore
  obtain ⟨sorted, hperm, hsorted, he⟩ := history_found limit hrows hearlier
  have hmem : ∀ {m}, m ∈ sorted → m ∈ stored := fun hm => (mem_earlier.mp (hperm.mem_iff.mp hm)).1.1
  have hdesc : sorted.Pairwise fun a b => b.id < a.id := by
    apply hsorted.imp_of_mem
    intro a b ha hb hlt
    exact (bigint_lt (hid b (hmem hb)) (hid a (hmem ha))).mp hlt
  have hdesc' : (sorted.map ChatMessage.recalled).Pairwise fun a b => b.id < a.id := List.pairwise_map.mpr hdesc
  have hpage := Newest.highest_take (n := pageSize limit) (hperm.map ChatMessage.recalled) hdesc'
  rw [← List.map_take] at hpage
  refine ⟨_, ?_, hpage.congr (.refl _) (List.reverse_perm _), ?_, hperm.length_eq ▸ he⟩
  · rw [List.pairwise_reverse, List.map_take]
    exact hdesc'.sublist (List.take_sublist _ _)
  · have hirr : ∀ k : MessageId, ¬ k < k := UInt64.lt_irrefl
    exact (hperm.map _).nodup_iff.mp (Newest.nodup_of_pairwise (r := fun a b => b < a) hirr hdesc')

/-- Something older is left exactly when the page could not take everything. -/
theorem history_isPage (hrows : db.messages.rows = stored.map messageRow) (hid : ∀ m ∈ stored, m.id.toNat < 2 ^ 63)
    (hbefore : ∀ b ∈ before, b.toNat < 2 ^ 63) :
    ∃ page reachedStart, db.history channel before limit = some (page, reachedStart) ∧
      IsPage stored channel before limit page reachedStart := by
  obtain ⟨page, hascending, hnewest, hnodup, he⟩ :=
    history_below channel limit hrows hid hbefore
  refine ⟨page, _, he, hascending, hnewest, ?_⟩
  have hall := hnewest.all_iff hnodup
  rw [List.length_map] at hall
  rw [decide_eq_true_iff, ← hall]
  constructor
  · rintro hin ⟨m, hm, hold⟩
    have := hold m.recalled (hin _ (List.mem_map_of_mem hm))
    exact UInt64.lt_irrefl _ this
  · intro hnone a ha
    by_contra hout
    have hold := hnewest.newer a ha hout
    obtain ⟨m, hm, rfl⟩ := List.mem_map.mp ha
    exact hnone ⟨m, hm, hold⟩

variable (channel limit) in
/-- From `2 ^ 63` on a cursor finds nothing. -/
theorem history_of_large {cursor : MessageId} (hrows : db.messages.rows = stored.map messageRow)
    (hid : ∀ m ∈ stored, m.id.toNat < 2 ^ 63) (hcursor : ¬ cursor.toNat < 2 ^ 63) :
    db.history channel (some cursor) limit = some ([], true) := by
  have hfound : (stored.filter fun m => m.channel = channel ∧
      (some cursor).all fun b => bigint m.id < bigint b) = [] := by
    apply List.filter_eq_nil_iff.mpr
    intro m hm
    simp [not_bigint_lt (hid m hm) hcursor]
  obtain ⟨sorted, hperm, -, he⟩ := history_found limit hrows hfound
  obtain rfl := hperm.eq_nil
  simpa using he

/-- `history` gives the page it should exactly when the cursor fits the column or
the channel is empty. -/
theorem history_exact (hrows : db.messages.rows = stored.map messageRow) (hid : ∀ m ∈ stored, m.id.toNat < 2 ^ 63) :
    (∃ page reachedStart, db.history channel before limit = some (page, reachedStart) ∧
      IsPage stored channel before limit page reachedStart) ↔
    (∀ b ∈ before, b.toNat < 2 ^ 63) ∨ ∀ m ∈ stored, m.channel ≠ channel := by
  by_cases hbefore : ∀ b ∈ before, b.toNat < 2 ^ 63
  · exact iff_of_true (history_isPage hrows hid hbefore) (.inl hbefore)
  · rw [or_iff_right hbefore]
    obtain ⟨cursor, rfl⟩ : ∃ cursor, before = some cursor := by
      cases before with
      | none => simp at hbefore
      | some cursor => exact ⟨cursor, rfl⟩
    have hcursor : ¬ cursor.toNat < 2 ^ 63 := by simpa using hbefore
    have he := history_of_large channel limit hrows hid hcursor
    have hall : ∀ {m}, m ∈ earlier channel (some cursor) stored ↔ m ∈ stored ∧ m.channel = channel := by
      intro m
      rw [mem_earlier]
      refine and_iff_left_of_imp fun hm => ?_
      have := hid m hm.1
      simp only [Option.mem_some_iff, forall_eq', UInt64.lt_iff_toNat_lt]
      omega
    constructor
    · rintro ⟨page, reachedStart, he', hpage⟩ m hm hc
      rw [he] at he'
      obtain ⟨rfl, rfl⟩ : [] = page ∧ true = reachedStart := by simpa using he'
      exact hpage.start.mp rfl ⟨m, hall.mpr ⟨hm, hc⟩, by simp⟩
    · intro hempty
      have hnone : earlier channel (some cursor) stored = [] := by
        apply List.eq_nil_iff_forall_not_mem.mpr
        intro m hm
        exact hempty m (hall.mp hm).1 (hall.mp hm).2
      exact ⟨_, _, he, .nil, by simpa [hnone] using Newest.highest_self .nil (Nat.zero_le _), by simp [hnone]⟩

end

def onePost : ChatMessage :=
  { id := 1, channel := 7, author := none, authorFingerprint := .rep 1, authorNickname := "ann", sentAtUnixMs := 5,
    editedAtUnixMs := none, content := "hello", replyTo := none }

def onePostDb : Db := { Db.empty with messages := ⟨[messageRow onePost], by simp⟩ }

def post (id : MessageId) (channel : ChannelId) : ChatMessage := { onePost with id, channel }

def roomPosts : List ChatMessage := [post 1 7, post 2 7, post 3 9, post 4 7]

def roomDb : Db := { Db.empty with messages := ⟨roomPosts.map messageRow, by decide⟩ }

/-- One message below a cursor, of the two that are. -/
theorem history_exact_newest : roomDb.history 7 (some 4) 1 = some ([(post 2 7).recalled], false) ∧
    IsPage roomPosts 7 (some 4) 1 [(post 2 7).recalled] false := by
  have hids : ∀ m ∈ roomPosts, m.id.toNat < 2 ^ 63 := by decide +kernel
  have hpage : roomDb.history 7 (some 4) 1 = some ([(post 2 7).recalled], false) := by decide +kernel
  obtain ⟨page, reachedStart, he, h⟩ :=
    (@history_exact roomDb roomPosts 7 (some 4) 1 rfl hids).mpr (.inl fun b hb => by cases hb; decide)
  obtain ⟨rfl, rfl⟩ := Prod.mk.inj (Option.some.inj (he.symm.trans hpage))
  exact ⟨hpage, h⟩

/-- The page below `2 ^ 63` is empty and said to reach the start, with the message left out. -/
theorem history_loses_the_newest : ¬ ∃ page reachedStart,
    onePostDb.history 7 (some 9223372036854775808) 50 = some (page, reachedStart) ∧
      IsPage [onePost] 7 (some 9223372036854775808) 50 page reachedStart := by
  rintro ⟨page, reachedStart, he, hpage⟩
  have hid : ∀ m ∈ [onePost], m.id.toNat < 2 ^ 63 := by simp [onePost]
  rw [history_of_large 7 50 rfl hid (by decide)] at he
  obtain ⟨rfl, rfl⟩ : [] = page ∧ true = reachedStart := by simpa using he
  exact hpage.start.mp rfl ⟨onePost, mem_earlier.mpr (by simp [onePost]), by simp⟩

/-! ## Paging backwards -/

/-- Messages are stored whose ids are above those of `stored`. -/
def Grows (stored : List ChatMessage) (db db' : Db) : Prop :=
  ∃ later : List ChatMessage, later.foldlM Db.insertMessage db = some db' ∧
    ∀ m ∈ later, m.id.toNat < 2 ^ 63 ∧ ∀ old ∈ stored, old.id < m.id

theorem insertMessages_rows {messages : List ChatMessage} {db db' : Db}
    (h : messages.foldlM Db.insertMessage db = some db') :
    db'.messages.rows = db.messages.rows ++ messages.map messageRow := by
  induction messages generalizing db with
  | nil =>
    cases h
    simp
  | cons m messages ih =>
    rw [List.foldlM_cons] at h
    obtain ⟨db₁, h₁, h⟩ := Option.bind_eq_some_iff.mp h
    obtain ⟨t, ht, rfl⟩ := Option.map_eq_some_iff.mp h₁
    rw [ih h, (Keyed.Table.insert_rows ht).1, List.append_assoc]
    rfl

section
variable {stored : List ChatMessage} {channel : ChannelId}

/-- At every request the store holds what it held at the start, and newer messages. -/
theorem grown_rows {dbs : Nat → Db} (hrows : (dbs 0).messages.rows = stored.map messageRow)
    (hgrows : ∀ i, Grows stored (dbs i) (dbs (i + 1))) (i : Nat) :
    ∃ later : List ChatMessage, (dbs i).messages.rows = (stored ++ later).map messageRow ∧
      ∀ m ∈ later, m.id.toNat < 2 ^ 63 ∧ ∀ old ∈ stored, old.id < m.id := by
  induction i with
  | zero => exact ⟨[], by simpa using hrows, by simp⟩
  | succ i ih =>
    obtain ⟨later, hi, hlater⟩ := ih
    obtain ⟨new, hnew, hnewer⟩ := hgrows i
    refine ⟨later ++ new, ?_, ?_⟩
    · rw [insertMessages_rows hnew, hi]
      simp
    · intro m hm
      rcases List.mem_append.mp hm with hm | hm
      · exact hlater m hm
      · exact hnewer m hm

/-- Newer messages are not below a cursor among the old ones. -/
theorem earlier_append {later : List ChatMessage} {old : ChatMessage} (hold : old ∈ stored)
    (hlater : ∀ m ∈ later, ∀ old ∈ stored, old.id < m.id) :
    earlier channel (some old.id) (stored ++ later) = earlier channel (some old.id) stored := by
  have hnone : earlier channel (some old.id) later = [] := by
    apply List.eq_nil_iff_forall_not_mem.mpr
    intro m hm
    obtain ⟨⟨hm, -⟩, hlt⟩ := mem_earlier.mp hm
    exact UInt64.lt_irrefl _ (Std.lt_trans (hlt _ rfl) (hlater m hm old hold))
  have happend : earlier channel (some old.id) (stored ++ later) =
      earlier channel (some old.id) stored ++ earlier channel (some old.id) later := by
    simp [earlier, below, inChannel]
  rw [happend, hnone, List.append_nil]

/-- The messages of a channel as the store gives them back, oldest first. -/
def chronicle (channel : ChannelId) (stored : List ChatMessage) : List ChatMessage :=
  ((inChannel channel stored).insertionSort fun a b => a.id ≤ b.id).map ChatMessage.recalled

variable (channel) in
theorem chronicle_ascending {db : Db} (hrows : db.messages.rows = stored.map messageRow) :
    (chronicle channel stored).Pairwise fun a b => a.id < b.id := by
  have hids : (stored.map ChatMessage.id).Nodup := by
    have hcolumn : ((stored.map ChatMessage.id).map bigint).Nodup := by
      have := db.messages.unique
      rw [hrows, List.map_map] at this
      rwa [List.map_map]
    exact hcolumn.of_map
  have hperm := List.perm_insertionSort (fun a b : ChatMessage => a.id ≤ b.id) (inChannel channel stored)
  have hne : ((inChannel channel stored).insertionSort fun a b => a.id ≤ b.id).Pairwise fun a b => a.id ≠ b.id := by
    rw [← List.pairwise_map (R := (· ≠ ·))]
    exact (hperm.map _).nodup_iff.mpr (hids.sublist (List.filter_sublist.map _))
  have hle := List.pairwise_insertionSort (fun a b : ChatMessage => a.id ≤ b.id) (inChannel channel stored)
  apply List.pairwise_map.mpr
  exact (hle.and hne).imp fun h => Std.lt_of_le_of_ne h.1 h.2

theorem chronicle_below (before : Option MessageId) :
    (below ChatMessage.id before (chronicle channel stored)).Perm
      ((earlier channel before stored).map ChatMessage.recalled) := by
  unfold chronicle below earlier
  rw [List.filter_map]
  exact ((List.perm_insertionSort _ _).filter _).map _

/-- A page is the end of what is below the cursor. -/
theorem history_drop {db : Db} {before : Option MessageId} {limit : UInt16} {rest : List ChatMessage}
    (hrows : db.messages.rows = stored.map messageRow) (hid : ∀ m ∈ stored, m.id.toNat < 2 ^ 63)
    (hbefore : ∀ b ∈ before, b.toNat < 2 ^ 63) (hrest : rest.Pairwise fun a b => a.id < b.id)
    (hperm : rest.Perm ((earlier channel before stored).map ChatMessage.recalled)) :
    db.history channel before limit =
      some (rest.drop (rest.length - pageSize limit), decide (rest.length ≤ pageSize limit)) := by
  obtain ⟨page, hascending, hnewest, -, he⟩ := history_below channel limit hrows hid hbefore
  have hpage := (hnewest.congr hperm (.refl _)).eq_drop hrest hascending
  rw [he, ← hpage, hperm.length_eq, List.length_map]

/-- Going back from the newest page by the oldest id of each page, while newer
messages are stored between the requests, lists the messages that the channel had
at the start, each once and in order, in no more requests than messages and one. -/
theorem paging_enumerates {dbs : Nat → Db} (limits : Nat → UInt16)
    (hrows : (dbs 0).messages.rows = stored.map messageRow) (hid : ∀ m ∈ stored, m.id.toNat < 2 ^ 63)
    (hgrows : ∀ i, Grows stored (dbs i) (dbs (i + 1))) :
    ∃ pages : List (List ChatMessage),
      walk ChatMessage.id (fun i before => (dbs i).history channel before (limits i))
        ((inChannel channel stored).length + 1) 0 none = some pages ∧
      pages.reverse.flatten.Perm ((inChannel channel stored).map ChatMessage.recalled) ∧
      pages.reverse.flatten.Pairwise fun a b => a.id < b.id := by
  have hascending := chronicle_ascending channel hrows
  have hpage : ∀ i before, (i = 0 ∧ before = none ∨ ∃ a ∈ chronicle channel stored, before = some a.id) →
      (dbs i).history channel before (limits i) =
        some ((below ChatMessage.id before (chronicle channel stored)).drop
          ((below ChatMessage.id before (chronicle channel stored)).length - pageSize (limits i)),
          decide ((below ChatMessage.id before (chronicle channel stored)).length ≤ pageSize (limits i))) := by
    rintro i before (⟨rfl, rfl⟩ | ⟨a, ha, rfl⟩)
    · exact history_drop hrows hid (by simp) (hascending.sublist List.filter_sublist) (chronicle_below none)
    · -- The cursor is an id of the start, and fits the column.
      obtain ⟨old, hsorted, rfl⟩ := List.mem_map.mp ha
      have hold : old ∈ stored := (mem_inChannel.mp ((List.mem_insertionSort _).mp hsorted)).1
      obtain ⟨later, hi, hlater⟩ := grown_rows hrows hgrows i
      apply history_drop hi _ _ (hascending.sublist List.filter_sublist)
      · rw [ChatMessage.recalled_id, earlier_append hold fun m hm => (hlater m hm).2]
        exact chronicle_below _
      · intro m hm
        rcases List.mem_append.mp hm with hm | hm
        · exact hid m hm
        · exact (hlater m hm).1
      · simpa using hid old hold
  have hlength : (chronicle channel stored).length = (inChannel channel stored).length := by simp [chronicle]
  obtain ⟨pages, hwalk, hflat⟩ := Newest.walk_below hascending (fun i => one_le_pageSize (limits i)) hpage
    ((inChannel channel stored).length + 1) 0 none (.inl ⟨rfl, rfl⟩) (by rw [Newest.below_none]; omega)
  rw [Newest.below_none] at hflat
  refine ⟨pages, hwalk, ?_, hflat ▸ hascending⟩
  rw [hflat]
  exact (List.perm_insertionSort _ _).map _

/-- Two more messages are stored after the first request, one of them in the channel. -/
theorem paging_enumerates_room :
    let dbs : Nat → Db := fun i => if i = 0 then roomDb else
      { roomDb with messages := ⟨(roomPosts ++ [post 5 7, post 6 9]).map messageRow, by decide⟩ }
    let pages := [[(post 4 7).recalled], [(post 2 7).recalled], [(post 1 7).recalled]]
    walk ChatMessage.id (fun i before => (dbs i).history 7 before 1) ((inChannel 7 roomPosts).length + 1) 0 none =
        some pages ∧
      pages.reverse.flatten.Perm ((inChannel 7 roomPosts).map ChatMessage.recalled) ∧
        pages.reverse.flatten.Pairwise fun a b => a.id < b.id := by
  intro dbs pages
  have hwalk : walk ChatMessage.id (fun i before => (dbs i).history 7 before 1)
      ((inChannel 7 roomPosts).length + 1) 0 none = some pages := by decide +kernel
  have hids : ∀ m ∈ roomPosts, m.id.toNat < 2 ^ 63 := by decide +kernel
  obtain ⟨pages', he, h⟩ := @paging_enumerates roomPosts 7 dbs (fun _ => 1) rfl hids fun i => by
    by_cases hi : i = 0
    · subst hi
      exact ⟨[post 5 7, post 6 9], rfl, by decide +kernel⟩
    · refine ⟨[], ?_, fun m hm => (List.not_mem_nil hm).elim⟩
      simp only [dbs, if_neg hi, if_neg (Nat.succ_ne_zero i)]
      rfl
  obtain rfl := Option.some.inj (he.symm.trans hwalk)
  exact ⟨hwalk, h⟩

end

end PickleChat
