import PickleChat.RoleMirror
import PickleChat.ChannelCommands

/-!
# Channels and overwrites in the database

The channel map and the tables agree when the rows are the channels, and the
rows of each channel's overwrites are its overwrites. Rows that name a channel
there is not may be left over; they do no harm until a channel gets their id.
-/

namespace PickleChat

/-- A channel but for its overwrites: what its row holds. -/
def Channel.bare (c : Channel) : Channel := { c with overwrites := [] }

theorem Channel.id_of_bare {c c' : Channel} (h : c.bare = c'.bare) : c.id = c'.id := by
  have : c.bare.id = c'.bare.id := by rw [h]
  exact this

theorem channelRow_of_bare {c c' : Channel} (h : c.bare = c'.bare) : channelRow c = channelRow c' := by
  have : channelRow c.bare = channelRow c'.bare := by rw [h]
  exact this

def ChannelRows (channels : List Channel) (db : Db) : Prop :=
  ∀ row, row ∈ db.channels.rows ↔ ∃ c ∈ channels, channelRow c = row

def OverwriteRows (id : ChannelId) (overwrites : List Overwrite) (db : Db) : Prop :=
  ∀ o, overwriteRow id o ∈ db.channelOverwrites.rows ↔ o ∈ overwrites

def OverwritesWritten (db : Db) : Prop := ∀ row ∈ db.channelOverwrites.rows, ∃ id o, overwriteRow id o = row

structure ChannelsMirror (channels : List Channel) (db : Db) : Prop where
  sorted : channels.Pairwise fun a b => a.id < b.id
  rows : ChannelRows channels db
  targets : ∀ c ∈ channels, Keyed.Unique Overwrite.target c.overwrites
  overwrites : ∀ c ∈ channels, OverwriteRows c.id c.overwrites db
  written : OverwritesWritten db

/-! ## Reading back -/

@[simp] theorem rowToChannel_channelRow (c : Channel) : rowToChannel (channelRow c) = c.bare := by
  have hkind : kindFromStr (kindStr c.kind) = c.kind := by cases c.kind <;> decide
  have hmax : (c.maxUsers.map u16Column).map u16OfColumn = c.maxUsers := by
    cases c.maxUsers <;> simp [u16Column, u16OfColumn]
  have hparent : (c.parent.map Word.toColumn).map Word.ofColumn = c.parent := by cases c.parent <;> simp
  simp [rowToChannel, channelRow, Channel.bare, hkind, hmax, hparent, -Option.map_map]

theorem targetOfKey_overwriteKey (t : OverwriteTarget) :
    targetOfKey (overwriteKey t).1 (overwriteKey t).2 = some t := by
  cases t with
  | role id => simp [overwriteKey, targetOfKey, Text.parseU32_decimal]
  | member f => simp [overwriteKey, targetOfKey, Fingerprint.parse_toText]

theorem overwriteKey_inj {t t' : OverwriteTarget} (h : overwriteKey t = overwriteKey t') : t = t' := by
  have := targetOfKey_overwriteKey t
  rw [h, targetOfKey_overwriteKey] at this
  exact (Option.some.inj this).symm

@[simp] theorem rowToOverwrite_overwriteRow (id : ChannelId) (o : Overwrite) :
    rowToOverwrite (overwriteRow id o) = some (id, o) := by
  simp [rowToOverwrite, overwriteRow, targetOfKey_overwriteKey]

theorem overwriteRow_inj {id id' : ChannelId} {o o' : Overwrite} (h : overwriteRow id o = overwriteRow id' o') :
    id = id' ∧ o = o' := by
  have := congrArg rowToOverwrite h
  simpa using this

theorem overwriteRow_key {id id' : ChannelId} {o o' : Overwrite} :
    (overwriteRow id o).key = (overwriteRow id' o').key ↔ id = id' ∧ o.target = o'.target := by
  constructor
  · intro h
    simp only [OverwriteRow.key, overwriteRow, Prod.mk.injEq] at h
    exact ⟨Word.toColumn_inj h.1, overwriteKey_inj (Prod.ext h.2.1 h.2.2)⟩
  · rintro ⟨rfl, h⟩
    simp [OverwriteRow.key, overwriteRow, h]

theorem ChannelsMirror.ids {channels : List Channel} {db : Db} (h : ChannelsMirror channels db) :
    Keyed.Unique Channel.id channels := .of_sorted h.sorted

/-! ## Overwrite statements -/

section
variable {db : Db} {id id' : ChannelId} {o o' : Overwrite} {target : OverwriteTarget}

theorem mem_upsertOverwrite {row : OverwriteRow} :
    row ∈ (db.upsertOverwrite id o).channelOverwrites.rows ↔
      row = overwriteRow id o ∨ (row ∈ db.channelOverwrites.rows ∧ row.key ≠ (overwriteRow id o).key) := by
  unfold Db.upsertOverwrite
  apply Keyed.Table.mem_upsert
  intro c hc
  cases c
  simp only [OverwriteRow.key, overwriteRow, Prod.mk.injEq] at hc
  simp [overwriteRow, hc.1, hc.2.1, hc.2.2]

theorem overwriteRow_mem_upsert :
    overwriteRow id' o' ∈ (db.upsertOverwrite id o).channelOverwrites.rows ↔
      (id' = id ∧ o' = o) ∨
        (overwriteRow id' o' ∈ db.channelOverwrites.rows ∧ ¬ (id' = id ∧ o'.target = o.target)) := by
  rw [mem_upsertOverwrite, Ne, overwriteRow_key]
  constructor
  · rintro (h | h)
    · exact .inl (overwriteRow_inj h)
    · exact .inr h
  · rintro (⟨rfl, rfl⟩ | h)
    · exact .inl rfl
    · exact .inr h

theorem overwriteRow_mem_delete :
    overwriteRow id' o' ∈ (db.deleteOverwrite id target).channelOverwrites.rows ↔
      overwriteRow id' o' ∈ db.channelOverwrites.rows ∧ ¬ (id' = id ∧ o'.target = target) := by
  simp only [Db.deleteOverwrite, Keyed.Table.mem_delete, decide_eq_false_iff_not]
  refine and_congr_right fun _ => not_congr ?_
  constructor
  · rintro ⟨h, hk, ht⟩
    exact ⟨Word.toColumn_inj h, overwriteKey_inj (Prod.ext hk ht)⟩
  · rintro ⟨rfl, rfl⟩
    exact ⟨rfl, rfl, rfl⟩

theorem overwriteRow_mem_deleteRole {role : RoleId} :
    overwriteRow id o ∈ (db.deleteRole role).channelOverwrites.rows ↔
      overwriteRow id o ∈ db.channelOverwrites.rows ∧ o.target ≠ .role role := by
  simp only [Db.deleteRole, Keyed.Table.mem_delete, decide_eq_false_iff_not]
  refine and_congr_right fun _ => not_congr ?_
  constructor
  · rintro ⟨hk, ht⟩
    exact overwriteKey_inj (Prod.ext hk ht)
  · intro ht
    simp [overwriteRow, ht, overwriteKey]

theorem overwriteRow_mem_deleteChannel :
    overwriteRow id' o ∈ (db.deleteChannel id).channelOverwrites.rows ↔
      overwriteRow id' o ∈ db.channelOverwrites.rows ∧ id' ≠ id := by
  simp only [Db.deleteChannel, Keyed.Table.mem_delete, decide_eq_false_iff_not]
  exact and_congr_right fun _ => not_congr ⟨Word.toColumn_inj, congrArg Word.toColumn⟩

theorem OverwritesWritten.of_subset {db' : Db} (h : OverwritesWritten db)
    (hsub : ∀ row ∈ db'.channelOverwrites.rows, row ∈ db.channelOverwrites.rows ∨ ∃ id o, overwriteRow id o = row) :
    OverwritesWritten db' := by
  intro row hrow
  rcases hsub row hrow with hold | hnew
  · exact h row hold
  · exact hnew

end

/-! ## Rows of channels -/

section
variable {channels : List Channel} {db db' : Db} (h : ChannelRows channels db)
include h

theorem ChannelRows.of_bare {channels' : List Channel} (hbare : channels'.map Channel.bare = channels.map Channel.bare)
    (hrows : db'.channels = db.channels) : ChannelRows channels' db' := by
  have hmap : ∀ l : List Channel, l.map channelRow = (l.map Channel.bare).map channelRow := by
    intro l
    rw [List.map_map]
    rfl
  intro row
  rw [hrows, h row, ← List.mem_map, ← List.mem_map, hmap channels', hbare, ← hmap]

theorem ChannelRows.fresh {c : Channel} (hdb : db.insertChannel c = some db') : ∀ d ∈ channels, d.id ≠ c.id := by
  obtain ⟨t, ht, rfl⟩ := Option.map_eq_some_iff.mp hdb
  intro d hd he
  exact (Keyed.Table.insert_rows ht).2 _ ((h _).mpr ⟨d, hd, rfl⟩) (congrArg Word.toColumn he)

omit h in
theorem mem_putSorted_new {c : Channel} (hnew : ∀ d ∈ channels, d.id ≠ c.id) (d : Channel) :
    d ∈ Keyed.putSorted Channel.id c channels ↔ d = c ∨ d ∈ channels := by
  rw [Keyed.mem_putSorted]
  exact or_congr_right ⟨And.left, fun hd => ⟨hd, hnew d hd⟩⟩

theorem ChannelRows.created {c : Channel} (hdb : db.insertChannel c = some db') :
    ChannelRows (Keyed.putSorted Channel.id c channels) db' := by
  have hmem := mem_putSorted_new (h.fresh hdb)
  obtain ⟨t, ht, rfl⟩ := Option.map_eq_some_iff.mp hdb
  intro row
  simp only [(Keyed.Table.insert_rows ht).1, List.mem_append, List.mem_singleton, h row, hmem]
  constructor
  · rintro (⟨d, hd, rfl⟩ | rfl)
    · exact ⟨d, .inr hd, rfl⟩
    · exact ⟨c, .inl rfl, rfl⟩
  · rintro ⟨d, rfl | hd, rfl⟩
    · exact .inr rfl
    · exact .inl ⟨d, hd, rfl⟩

theorem ChannelRows.updated (c : Channel) :
    ChannelRows (Keyed.modify Channel.id c.id (fun old => { c with overwrites := old.overwrites }) channels)
      (db.updateChannel c) := by
  intro row
  have hset : ∀ d : Channel,
      (if (channelRow d).id = Word.toColumn c.id then { channelRow c with id := (channelRow d).id } else channelRow d) =
        channelRow (if d.id = c.id then { c with overwrites := d.overwrites } else d) := by
    intro d
    by_cases hd : d.id = c.id
    · rw [if_pos hd, if_pos (show (channelRow d).id = _ from congrArg Word.toColumn hd)]
      simp [channelRow, hd]
    · rw [if_neg hd, if_neg (show ¬ (channelRow d).id = _ from fun e => hd (Word.toColumn_inj e))]
  simp only [Db.updateChannel, Keyed.Table.mem_update, Keyed.modify, List.mem_map]
  constructor
  · rintro ⟨row, hrow, rfl⟩
    obtain ⟨d, hd, rfl⟩ := (h row).mp hrow
    exact ⟨_, ⟨d, hd, rfl⟩, (hset d).symm⟩
  · rintro ⟨_, ⟨d, hd, rfl⟩, rfl⟩
    exact ⟨channelRow d, (h _).mpr ⟨d, hd, rfl⟩, hset d⟩

theorem ChannelRows.deleted (id : ChannelId) :
    ChannelRows (Keyed.erase Channel.id id channels) (db.deleteChannel id) := by
  intro row
  simp only [Db.deleteChannel, Keyed.Table.mem_delete, decide_eq_false_iff_not, h row, Keyed.mem_erase]
  constructor
  · rintro ⟨⟨c, hc, rfl⟩, hid⟩
    exact ⟨c, ⟨hc, fun e => hid (congrArg Word.toColumn e)⟩, rfl⟩
  · rintro ⟨c, ⟨hc, hid⟩, rfl⟩
    exact ⟨⟨c, hc, rfl⟩, fun e => hid (Word.toColumn_inj e)⟩

end

theorem ChannelRows.bare_eq {channels channels' : List Channel} {db : Db} (h : ChannelRows channels db)
    (h' : ChannelRows channels' db) (hsorted : channels.Pairwise fun a b => a.id < b.id)
    (hsorted' : channels'.Pairwise fun a b => a.id < b.id) :
    channels'.map Channel.bare = channels.map Channel.bare := by
  have hmem : ∀ {l l' : List Channel}, ChannelRows l db → ChannelRows l' db →
      ∀ c, c ∈ l.map Channel.bare → c ∈ l'.map Channel.bare := by
    intro l l' hl hl' c hc
    obtain ⟨d, hd, rfl⟩ := List.mem_map.mp hc
    obtain ⟨e, he, hrow⟩ := (hl' _).mp ((hl _).mpr ⟨d, hd, rfl⟩)
    have hback := congrArg rowToChannel hrow
    rw [rowToChannel_channelRow, rowToChannel_channelRow] at hback
    rw [← hback]
    exact List.mem_map_of_mem he
  have hbare : ∀ {l : List Channel}, l.Pairwise (fun a b => a.id < b.id) →
      (l.map Channel.bare).Pairwise fun a b => a.id < b.id := fun hl => List.pairwise_map.mpr hl
  exact Keyed.eq_of_sorted (hbare hsorted') (hbare hsorted) fun c => ⟨hmem h' h c, hmem h h' c⟩

/-! ## The writes of each command -/

section
variable {channels : List Channel} {db db' : Db} (h : ChannelsMirror channels db)
include h

theorem ChannelsMirror.rewritten {f : Channel → Channel} (hf : ∀ c, (f c).bare = c.bare)
    (hrows : db'.channels = db.channels) (htargets : ∀ c ∈ channels, Keyed.Unique Overwrite.target (f c).overwrites)
    (hover : ∀ c ∈ channels, OverwriteRows c.id (f c).overwrites db') (hw : OverwritesWritten db') :
    ChannelsMirror (channels.map f) db' := by
  have hid : ∀ c, (f c).id = c.id := fun c => Channel.id_of_bare (hf c)
  have hrow : ∀ c, channelRow (f c) = channelRow c := fun c => channelRow_of_bare (hf c)
  refine ⟨?_, ?_, ?_, ?_, hw⟩
  · apply List.pairwise_map.mpr
    simpa only [hid] using h.sorted
  · intro row
    rw [hrows, h.rows row]
    simp [hrow]
  · intro c hc
    obtain ⟨d, hd, rfl⟩ := List.mem_map.mp hc
    exact htargets d hd
  · intro c hc
    obtain ⟨d, hd, rfl⟩ := List.mem_map.mp hc
    rw [hid]
    exact hover d hd

theorem ChannelsMirror.setOverwrite (id : ChannelId) (o : Overwrite) :
    ChannelsMirror
      (Keyed.modify Channel.id id (fun c => { c with overwrites := Keyed.put Overwrite.target o c.overwrites }) channels)
      (db.upsertOverwrite id o) := by
  apply h.rewritten
  · intro c; split <;> rfl
  · rfl
  · intro c hc
    split
    · exact (h.targets c hc).put o
    · exact h.targets c hc
  · intro c hc o'
    rw [overwriteRow_mem_upsert, h.overwrites c hc o']
    by_cases hid : c.id = id
    · simp [hid, Keyed.mem_put]
    · simp [hid]
  · apply h.written.of_subset
    intro row hrow
    rcases mem_upsertOverwrite.mp hrow with rfl | hold
    · exact .inr ⟨id, o, rfl⟩
    · exact .inl hold.1

theorem ChannelsMirror.deleteOverwrite (id : ChannelId) (target : OverwriteTarget) :
    ChannelsMirror
      (Keyed.modify Channel.id id (fun c => { c with overwrites := Keyed.erase Overwrite.target target c.overwrites })
        channels)
      (db.deleteOverwrite id target) := by
  apply h.rewritten
  · intro c; split <;> rfl
  · rfl
  · intro c hc
    split
    · exact (h.targets c hc).erase target
    · exact h.targets c hc
  · intro c hc o'
    rw [overwriteRow_mem_delete, h.overwrites c hc o']
    by_cases hid : c.id = id
    · simp [hid, Keyed.mem_erase]
    · simp [hid]
  · apply h.written.of_subset
    intro row hrow
    exact .inl (Keyed.Table.mem_delete.mp hrow).1

theorem ChannelsMirror.stripped (role : RoleId) :
    ChannelsMirror
      (channels.map fun c => if c.overwrites.any (fun o => o.target = .role role) then
        { c with overwrites := Keyed.erase Overwrite.target (.role role) c.overwrites } else c)
      (db.deleteRole role) := by
  apply h.rewritten
  · intro c; split <;> rfl
  · rfl
  · intro c hc
    split
    · exact (h.targets c hc).erase _
    · exact h.targets c hc
  · intro c hc o
    rw [overwriteRow_mem_deleteRole, h.overwrites c hc o]
    by_cases hany : c.overwrites.any fun o => o.target = .role role
    · simp [hany, Keyed.mem_erase]
    · simp only [hany, Bool.false_eq_true, if_false]
      refine ⟨And.left, fun ho => ⟨ho, fun ht => hany ?_⟩⟩
      exact List.any_eq_true.mpr ⟨o, ho, by simpa using ht⟩
  · apply h.written.of_subset
    intro row hrow
    exact .inl (Keyed.Table.mem_delete.mp hrow).1

/-- A new channel starts without overwrites, so its id must not have rows left over. -/
theorem ChannelsMirror.created {c : Channel} (hbare : c.overwrites = [])
    (hfresh : ∀ row ∈ db.channelOverwrites.rows, row.channel ≠ Word.toColumn c.id)
    (hdb : db.insertChannel c = some db') : ChannelsMirror (Keyed.putSorted Channel.id c channels) db' := by
  have hmem := mem_putSorted_new (h.rows.fresh hdb)
  have hrows := h.rows.created hdb
  obtain ⟨t, -, rfl⟩ := Option.map_eq_some_iff.mp hdb
  refine ⟨Keyed.putSorted_sorted h.sorted c, hrows, ?_, ?_, h.written⟩
  · intro d hd
    rcases (hmem d).mp hd with rfl | hd
    · rw [hbare]; exact Keyed.Unique.nil
    · exact h.targets d hd
  · intro d hd
    rcases (hmem d).mp hd with rfl | hd
    · intro o
      rw [hbare]
      exact ⟨fun hrow => absurd rfl (hfresh _ hrow), fun ho => nomatch ho⟩
    · exact h.overwrites d hd

theorem ChannelsMirror.updated (c : Channel) :
    ChannelsMirror (Keyed.modify Channel.id c.id (fun old => { c with overwrites := old.overwrites }) channels)
      (db.updateChannel c) := by
  have hid : ∀ d : Channel, (if d.id = c.id then { c with overwrites := d.overwrites } else d).id = d.id := by
    intro d; split <;> simp_all
  refine ⟨?_, h.rows.updated c, ?_, ?_, h.written⟩
  · apply List.pairwise_map.mpr
    simpa only [hid] using h.sorted
  · intro d hd
    obtain ⟨e, he, rfl⟩ := List.mem_map.mp hd
    have := h.targets e he
    split <;> exact this
  · intro d hd
    obtain ⟨e, he, rfl⟩ := List.mem_map.mp hd
    rw [hid]
    have := h.overwrites e he
    split <;> exact this

theorem ChannelsMirror.deleted (id : ChannelId) :
    ChannelsMirror (Keyed.erase Channel.id id channels) (db.deleteChannel id) := by
  refine ⟨h.sorted.filter _, h.rows.deleted id, ?_, ?_, ?_⟩
  · intro c hc
    exact h.targets c (Keyed.mem_erase.mp hc).1
  · intro c hc o
    obtain ⟨hc, hid⟩ := Keyed.mem_erase.mp hc
    rw [overwriteRow_mem_deleteChannel, h.overwrites c hc o]
    exact ⟨And.left, fun ho => ⟨ho, hid⟩⟩
  · apply h.written.of_subset
    intro row hrow
    exact .inl (Keyed.Table.mem_delete.mp hrow).1

end

end PickleChat
