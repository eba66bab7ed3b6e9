import PickleChat.ChannelIds
import PickleChat.ChannelTree
import PickleChat.Lib.Protocol

/-!
# Channel commands that overlap

A command is checked against loops, awaits its store call, and changes the map
when it resumes. What it was checked against may be gone by then: two moves,
each fine alone, can close a loop together. As long as the check still holds
of the rows and of the map where a parent is written, both stay forests.
-/

namespace PickleChat

open Async (Run Pool Event)
open Forest

abbrev ChannelPool := Pool Shared Await Await.Reply World Nat

abbrev ChannelEvent := Event Shared Await Await.Reply Nat

/-- Every handler is that of a channel command; whatever else happens meanwhile leaves the map alone. -/
def ChannelTraffic : ChannelEvent → Prop
  | .spawn _ h => ∃ (cmd : ChannelCommand) (client : ClientId) (nonce : UInt64), h = cmd.handle client nonce
  | .outside f => ∀ s, (f s).channels = s.channels
  | _ => True

def Db.parentOf (db : Db) : Int64 → Option Int64 := above ChannelRow.id ChannelRow.parent db.channels.rows

/-- The check against loops, made on the rows. -/
def Db.parentWouldCycle (db : Db) (child : ChannelId) (parent : Option ChannelId) : Option Bool :=
  climb db.parentOf (Word.toColumn child) (db.channels.rows.length + 1) (parent.map Word.toColumn)

/-- Where a parent is written to the table, the check still holds. -/
def Db.Fits (db : Db) : StoreWrite → Prop
  | .insertChannel c => (∀ row ∈ db.channels.rows, row.id ≠ Word.toColumn c.id) →
      db.parentWouldCycle c.id c.parent = some false
  | .updateChannel c => (∃ row ∈ db.channels.rows, row.id = Word.toColumn c.id) →
      db.parentWouldCycle c.id c.parent = some false
  | _ => True

/-- Where a parent is written to the map, the check still holds. -/
def Shared.Fits (s : Shared) : StoreWrite → Prop
  | .insertChannel c => s.parentWouldCycle c.id c.parent = some false
  | .updateChannel c => (∃ d ∈ s.channels, d.id = c.id) → s.parentWouldCycle c.id c.parent = some false
  | _ => True

/-- The check of a command still holds of the table when its store call is
made, and of the map when it resumes. -/
def StillFits (p : ChannelPool) : ChannelEvent → Prop
  | .perform i => ∀ j call, p.jobs i = some j → j.awaiting = some (.save call) → p.world.db.Fits call
  | .resume i => ∀ j call, p.jobs i = some j → j.answer = some ⟨.save call, true⟩ → p.state.Fits call
  | _ => True

/-! ## Writes -/

section
variable {s : Shared} {client : ClientId} {nonce : UInt64} {cmd : ChannelCommand} {c : Change}
  (hp : ChannelPasses s client nonce cmd c)
include hp

theorem ChannelPasses.table_forest {db db' : Db} (hf : IsForest db.parentOf) (hfit : db.Fits c.call)
    (hdb : c.call.perform db = some db') : IsForest db'.parentOf := by
  cases hp with
  | setOverwrite | deleteOverwrite =>
    obtain rfl := Option.some.inj hdb
    exact hf
  | create =>
    obtain ⟨t, ht, rfl⟩ := Option.map_eq_some_iff.mp hdb
    obtain ⟨hrows, hnew⟩ := Keyed.Table.insert_rows ht
    refine IsForest.put hf (a := channelRow _) (hfit hnew) fun k => ?_
    change Keyed.get ChannelRow.id k t.rows = _
    rw [hrows, Keyed.get_append, Keyed.get_cons]
    split
    · rename_i hk
      rw [if_pos hk.symm, Keyed.get_eq_none.mpr (hk ▸ hnew)]
      rfl
    · rename_i hk
      rw [if_neg (Ne.symm hk), Keyed.get_nil, Option.or_none]
  | update =>
    obtain rfl := Option.some.inj hdb
    exact hf.modify (fun _ h => h) (fun _ => rfl) hfit
  | @delete id =>
    obtain rfl := Option.some.inj hdb
    have herase : (db.deleteChannel id).channels.rows = Keyed.erase ChannelRow.id (Word.toColumn id) db.channels.rows :=
      List.filter_congr fun row _ => decide_not.symm
    unfold Db.parentOf
    rw [herase]
    exact IsForest.erase hf _

theorem ChannelPasses.map_acyclic {t : Shared} (hf : Acyclic t.channels) (hfit : t.Fits c.call) :
    Acyclic (c.mem t).channels := by
  have climbs : ∀ {child parent}, t.parentWouldCycle child parent = some false →
      climb (above Channel.id Channel.parent t.channels) child (t.channels.length + 1) parent = some false := by
    intro child parent h
    unfold Shared.parentWouldCycle at h
    rwa [walkParents_eq] at h
  have same : ∀ (id : ChannelId) (f : Channel → Channel), (∀ c, (f c).id = c.id) → (∀ c, (f c).parent = c.parent) →
      Acyclic (Keyed.modify Channel.id id f t.channels) := by
    intro id f hid hparent
    unfold Acyclic
    rw [show parentOf (Keyed.modify Channel.id id f t.channels) = parentOf t.channels from above_modify hid hparent id]
    exact hf
  cases hp with
  | setOverwrite | deleteOverwrite =>
    refine same _ _ ?_ ?_
    · exact fun _ => rfl
    · exact fun _ => rfl
  | create => exact IsForest.put hf (climbs hfit) fun k => Keyed.get_putSorted ..
  | update => exact IsForest.modify hf (fun _ _ => rfl) (fun _ => rfl) fun h => climbs (hfit h)
  | @delete id =>
    rw [show (Change.delete id).mem t = (t.removeChannelMem id).2 from rfl, Shared.removeChannelMem_channels]
    exact IsForest.erase hf id

end

/-! ## Runs -/

/-- What a command does with the answer of its store call. -/
def Change.taken (c : Change) (client : ClientId) (nonce : UInt64) (detail : String) (saved : Bool) (t : Shared) :
    Shared :=
  if saved then (c.mem t).deliver fun i => c.frames t i ++ acks client nonce i
  else refuse t client nonce .internal detail

/-- A job is through, waits for its store call, or has been answered. -/
inductive Underway (j : Async.Job Shared Await Await.Reply) : Prop
  | ended : j.phase = .waiting .done → Underway j
  | saving {s : Shared} {client : ClientId} {nonce : UInt64} {cmd : ChannelCommand} {c : Change} (detail : String) :
      ChannelPasses s client nonce cmd c → j.phase = .waiting (c.save client nonce detail) → Underway j
  | saved {s : Shared} {client : ClientId} {nonce : UInt64} {cmd : ChannelCommand} {c : Change} (detail : String)
      (ok : Bool) {effect next} : ChannelPasses s client nonce cmd c →
      j.phase = .answered (.save c.call) ok effect next →
      (∀ t, effect ok t = c.taken client nonce detail ok t ∧ next ok t = .done) → Underway j

structure Forests (p : ChannelPool) : Prop where
  map : Acyclic p.state.channels
  table : IsForest p.world.db.parentOf
  jobs : ∀ i j, p.jobs i = some j → Underway j

theorem Forests.jobs_set {p : ChannelPool} (h : Forests p) {i : Nat} {j : Async.Job Shared Await Await.Reply}
    (hj : Underway j) : ∀ k j', p.set i j k = some j' → Underway j' := by
  intro k j' hk
  rcases Async.set_eq hk with ⟨-, rfl⟩ | ⟨-, hk⟩
  · exact hj
  · exact h.jobs k j' hk

theorem Forests.step {p p' : ChannelPool} {e : ChannelEvent} (h : Forests p) (ht : ChannelTraffic e)
    (hok : StillFits p e)
    (hst : Pool.Step MayFail p e p') : Forests p' := by
  cases hst with
  | spawn i hd hi =>
    obtain ⟨cmd, client, nonce, rfl⟩ := ht
    rcases ChannelCommand.handle_cases (rfl : cmd.handle client nonce p.state = _) with
      ⟨hdone, hr⟩ | ⟨c, detail, -, hp, he⟩
    · refine ⟨?_, h.table, h.jobs_set (.ended (by rw [hdone]))⟩
      rw [hr.rooms.channels]
      exact h.map
    · rw [he]
      exact ⟨h.map, h.table, h.jobs_set (.saving detail hp rfl)⟩
  | @perform i j op effect next r w' hj hph hp =>
    have hwait : ∃ (s : Shared) (client : ClientId) (nonce : UInt64) (cmd : ChannelCommand) (c : Change)
        (detail : String), ChannelPasses s client nonce cmd c ∧
          Async.Task.await op effect next = c.save client nonce detail := by
      cases h.jobs i j hj with
      | ended hdone =>
        rw [hph] at hdone
        cases hdone
      | saving detail hpass hsave =>
        rw [hph] at hsave
        exact ⟨_, _, _, _, _, detail, hpass, Async.Phase.waiting.inj hsave⟩
      | saved detail ok _ hans =>
        rw [hph] at hans
        cases hans
    obtain ⟨s, client, nonce, cmd, c, detail, hpass, hsave⟩ := hwait
    have hfit : p.world.db.Fits c.call := by
      refine hok j c.call hj ?_
      rw [hsave] at hph
      exact Async.Job.awaiting_eq hph
    cases hsave
    refine ⟨h.map, ?_, h.jobs_set (.saved detail r hpass rfl fun t => ?_)⟩
    · rcases hp with hp | ⟨-, rfl⟩
      · cases hp with
        | save hdb => exact hpass.table_forest h.table hfit hdb
      · exact h.table
    · cases r <;> exact ⟨rfl, rfl⟩
  | @resume i j op effect next r hj hph =>
    cases h.jobs i j hj with
    | ended hdone =>
      rw [hph] at hdone
      cases hdone
    | saving detail hpass hsave =>
      rw [hph] at hsave
      cases hsave
    | @saved s client nonce cmd c detail ok _ _ hpass hans htaken =>
      rw [hph] at hans
      cases hans
      obtain ⟨he, hn⟩ := htaken p.state
      refine ⟨?_, h.table, h.jobs_set (.ended (by rw [hn]))⟩
      rw [he]
      cases ok with
      | true => exact hpass.map_acyclic h.map (hok j c.call hj (Async.Job.answer_eq hph))
      | false => exact h.map
  | outside f =>
    refine ⟨?_, h.table, h.jobs⟩
    rw [ht p.state]
    exact h.map

/-- In every run in which the check against loops still holds where a parent is
written, map and table stay forests, and so every check returns. -/
theorem trees_stay_acyclic {p₀ p : ChannelPool} (hjobs : ∀ i, p₀.jobs i = none) (hmap : Acyclic p₀.state.channels)
    (htable : IsForest p₀.world.db.parentOf)
    (hrun : Run (Pool.Step MayFail) (fun p e => ChannelTraffic e ∧ StillFits p e) p₀ p) :
    Acyclic p.state.channels ∧ IsForest p.world.db.parentOf ∧
      ∀ child parent, ∃ r, p.state.parentWouldCycle child parent = some r := by
  have h₀ : Forests p₀ := ⟨hmap, htable, fun i j hj => by rw [hjobs i] at hj; cases hj⟩
  have h : Forests p := hrun.invariant Forests h₀ fun _ _ _ hi hok hst => hi.step hok.1 hok.2 hst
  exact ⟨h.map, h.table, h.map.returns⟩

/-! ## Two moves at a time -/

/-- The owner has connected twice, as clients 1 and 2, to a server with two top-level channels. -/
def twoOwners : ChannelPool :=
  let t := (twoChannelsStart.serve ownerConnects).serve ownerConnects
  ⟨t.now.1, t.now.2, fun _ => none⟩

theorem twoOwners_acyclic : Acyclic twoOwners.state.channels ∧ IsForest twoOwners.world.db.parentOf := by
  have htop : ∀ c ∈ twoOwners.state.channels, c.parent = none := by decide +kernel
  have hrows : ∀ row ∈ twoOwners.world.db.channels.rows, row.parent = none := by decide +kernel
  exact ⟨isForest_of_top htop, isForest_of_top hrows⟩

def moveTo (id parent : ChannelId) : ChannelCommand := .update id (some parent) "c" "" .voiceAndText none 0

/-- Client 1 moves channel 1 below channel 2 while client 2 moves 2 below 1:
both are on a loop, in map and table, and a check that meets it never returns. -/
theorem moves_close_a_loop : Acyclic twoOwners.state.channels ∧ IsForest twoOwners.world.db.parentOf ∧
    ∃ p, Run (Pool.Step MayFail) (fun _ e => ChannelTraffic e) twoOwners p ∧ ¬ Acyclic p.state.channels ∧
      ¬ IsForest p.world.db.parentOf ∧ p.state.parentWouldCycle 3 (some 1) = none := by
  refine ⟨twoOwners_acyclic.1, twoOwners_acyclic.2, _, .step (.resume 2) (.step (.resume 1) (.step (.perform 2)
    (.step (.perform 1) (.step (.spawn 2 _) (.step (.spawn 1 _) .refl
    ⟨moveTo 1 2, 1, 7, rfl⟩ (.spawn 1 _ rfl))
    ⟨moveTo 2 1, 2, 8, rfl⟩ (.spawn 2 _ rfl))
    trivial (.perform 1 rfl rfl (.inl (.save rfl))))
    trivial (.perform 2 rfl rfl (.inl (.save rfl))))
    trivial (.resume 1 rfl rfl))
    trivial (.resume 2 rfl rfl), ?_, fun h => ?_, by decide +kernel⟩
  · refine not_acyclic (show Shared.parentWouldCycle _ 3 (some 1) = none from ?_)
    decide +kernel
  · refine (h (Word.toColumn 1)).irrefl (.tail (b := Word.toColumn 2)
      (.single ?_) ?_) <;> unfold Link <;> decide +kernel

/-- Client 1 moves channel 2 below channel 1 while client 2 creates a channel below 2. -/
theorem trees_stay_acyclic_twoCommands : ∃ p, Run (Pool.Step MayFail)
    (fun p e => ChannelTraffic e ∧ StillFits p e) twoOwners p ∧
    parentOf p.state.channels 3 = some 2 ∧ parentOf p.state.channels 2 = some 1 ∧ Acyclic p.state.channels ∧
    IsForest p.world.db.parentOf := by
  have hrun : ∃ p, Run (Pool.Step MayFail) (fun p e => ChannelTraffic e ∧ StillFits p e) twoOwners p ∧
      parentOf p.state.channels 3 = some 2 ∧ parentOf p.state.channels 2 = some 1 := by
    refine ⟨_, .step (.resume 1) (.step (.resume 2) (.step (.perform 2) (.step (.perform 1) (.step (.spawn 2 _)
      (.step (.spawn 1 _) .refl
      ⟨⟨moveTo 2 1, 1, 7, rfl⟩, trivial⟩ (.spawn 1 _ rfl))
      ⟨⟨.create "n" (some 2) "" .voiceAndText none 0, 2, 8, rfl⟩, trivial⟩ (.spawn 2 _ rfl))
      ⟨trivial, fun j call hj hcall => ?_⟩ (.perform 1 rfl rfl (.inl (.save rfl))))
      ⟨trivial, fun j call hj hcall => ?_⟩ (.perform 2 rfl rfl (.inl (.save rfl))))
      ⟨trivial, fun j call hj hcall => ?_⟩ (.resume 2 rfl rfl))
      ⟨trivial, fun j call hj hcall => ?_⟩ (.resume 1 rfl rfl), by decide +kernel, by decide +kernel⟩
    all_goals
      cases hj
      cases hcall
    · intro _
      decide +kernel
    · intro _
      decide +kernel
    · change Shared.parentWouldCycle _ _ _ = some false
      decide +kernel
    · intro _
      decide +kernel
  obtain ⟨p, hrun, hnew, hparent⟩ := hrun
  obtain ⟨hmap, htable, -⟩ := trees_stay_acyclic (fun _ => rfl) twoOwners_acyclic.1 twoOwners_acyclic.2 hrun
  exact ⟨p, hrun, hnew, hparent, hmap, htable⟩

end PickleChat
