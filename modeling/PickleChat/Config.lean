import Mathlib.Data.Fintype.EquivFin
import Mathlib.Data.Fintype.OfMap
import PickleChat.ChannelTree
import PickleChat.Lib.Text

/-!
# What a config file may say about channels

`validate` looks at the channels one by one: names, and parents by name. The
seed gives each channel the number of its place and resolves parents to these.
-/

namespace PickleChat

open Forest

inductive ConfigError where
  | invalid (detail : String)
  deriving DecidableEq

namespace ServerConfig

/-- Every name is printable and new; `seen` are the names before. -/
def checkNames : List String → List ChannelConfig → Except ConfigError Unit
  | _, [] => .ok ()
  | seen, c :: cs =>
    if Text.trim c.name = "" then .error (.invalid "channel names cannot be empty") else
    if c.name ∈ seen then
      .error (.invalid ("duplicate channel name " ++ Text.debug c.name ++ "; names are how parents are referenced")) else
    checkNames (c.name :: seen) cs

/-- Every parent is one of the names, and not the channel's own. -/
def checkParents (seen : List String) : List ChannelConfig → Except ConfigError Unit
  | [] => .ok ()
  | c :: cs =>
    match c.parent with
    | none => checkParents seen cs
    | some parent =>
      if parent ∉ seen then
        .error (.invalid ("channel " ++ Text.debug c.name ++ " names a parent " ++ Text.debug parent ++
          " that does not exist")) else
      if parent = c.name then .error (.invalid ("channel " ++ Text.debug c.name ++ " is its own parent")) else
      checkParents seen cs

def validate (config : ServerConfig) : Except ConfigError Unit :=
  if config.channels = [] then
    .error (.invalid "at least one channel is required — clients need somewhere to land") else
  match checkNames [] config.channels with
  | .error e => .error e
  | .ok () =>
    match checkParents (config.channels.map ChannelConfig.name) config.channels with
    | .error e => .error e
    | .ok () =>
      if !config.channels.any fun c => c.parent.isNone then
        .error (.invalid "at least one channel must be top-level") else
      .ok ()

structure Valid (config : ServerConfig) : Prop where
  names : (config.channels.map ChannelConfig.name).Nodup
  parents : ∀ c ∈ config.channels, ∀ parent, c.parent = some parent →
    parent ∈ config.channels.map ChannelConfig.name ∧ parent ≠ c.name
  top : ∃ c ∈ config.channels, c.parent = none

theorem checkNames_ok {seen : List String} {cs : List ChannelConfig} (h : checkNames seen cs = .ok ()) :
    (cs.map ChannelConfig.name).Nodup ∧ ∀ c ∈ cs, c.name ∉ seen := by
  induction cs generalizing seen with
  | nil => exact ⟨List.nodup_nil, fun c hc => (nomatch hc)⟩
  | cons c cs ih =>
    unfold checkNames at h
    split at h; · cases h
    split at h; · cases h
    rename_i hnew
    obtain ⟨hnodup, hfresh⟩ := ih h
    refine ⟨List.nodup_cons.mpr ⟨fun hm => ?_, hnodup⟩, fun d hd => ?_⟩
    · obtain ⟨d, hd, he⟩ := List.mem_map.mp hm
      exact hfresh d hd (he ▸ List.mem_cons_self)
    · rcases List.mem_cons.mp hd with rfl | hd
      · exact hnew
      · exact fun hm => hfresh d hd (List.mem_cons_of_mem _ hm)

theorem checkParents_ok {seen : List String} {cs : List ChannelConfig} (h : checkParents seen cs = .ok ()) :
    ∀ c ∈ cs, ∀ parent, c.parent = some parent → parent ∈ seen ∧ parent ≠ c.name := by
  induction cs with
  | nil => exact fun c hc => (nomatch hc)
  | cons c cs ih =>
    intro d hd parent hparent
    unfold checkParents at h
    cases hc : c.parent with
    | none =>
      rw [hc] at h
      rcases List.mem_cons.mp hd with rfl | hd
      · rw [hc] at hparent
        cases hparent
      · exact ih h d hd parent hparent
    | some p =>
      rw [hc] at h
      dsimp only at h
      split at h; · cases h
      split at h; · cases h
      rename_i hseen hself
      rcases List.mem_cons.mp hd with rfl | hd
      · obtain rfl := Option.some.inj (hc.symm.trans hparent)
        exact ⟨Decidable.not_not.mp hseen, hself⟩
      · exact ih h d hd parent hparent

theorem validate_ok {config : ServerConfig} (h : config.validate = .ok ()) : config.Valid := by
  unfold validate at h
  split at h; · cases h
  split at h; · cases h
  split at h; · cases h
  split at h; · cases h
  rename_i hnames _ hparents htop
  refine ⟨(checkNames_ok hnames).1, checkParents_ok hparents, ?_⟩
  simpa using htop

end ServerConfig

/-! ## The seed -/

def seedId (i : Nat) : ChannelId := UInt32.ofNat i + 1

def nameId (config : ServerConfig) (name : String) : Option ChannelId :=
  ((config.channels.zipIdx.map fun (c, i) => (c.name, seedId i)).reverse.find? fun p => p.1 = name).map (·.2)

def seeded (config : ServerConfig) (c : ChannelConfig) (i : Nat) : Channel :=
  { id := seedId i, parent := c.parent.bind (nameId config), name := c.name, topic := c.topic, kind := c.kind,
    maxUsers := c.maxUsers, order := c.order, overwrites := [] }

theorem buildChannels_eq (config : ServerConfig) :
    buildChannels config = config.channels.zipIdx.map fun (c, i) => seeded config c i := rfl

theorem seedId_inj {i j : Nat} (hi : i < 2 ^ 32) (hj : j < 2 ^ 32) (h : seedId i = seedId j) : i = j := by
  have h' : UInt32.ofNat i = UInt32.ofNat j := by simpa [seedId] using h
  have h'' := congrArg UInt32.toNat h'
  rwa [UInt32.toNat_ofNat_of_lt' hi, UInt32.toNat_ofNat_of_lt' hj] at h''

section
variable {config : ServerConfig}

theorem mem_buildChannels {d : Channel} :
    d ∈ buildChannels config ↔ ∃ c i, config.channels[i]? = some c ∧ d = seeded config c i := by
  rw [buildChannels_eq]
  simp only [List.mem_map, Prod.exists, List.mem_zipIdx_iff_getElem?]
  constructor
  · rintro ⟨c, i, hc, rfl⟩
    exact ⟨c, i, hc, rfl⟩
  · rintro ⟨c, i, hc, rfl⟩
    exact ⟨c, i, hc, rfl⟩

variable (hnames : (config.channels.map ChannelConfig.name).Nodup)
include hnames

theorem nameId_eq {c : ChannelConfig} {i : Nat} (hc : config.channels[i]? = some c) :
    nameId config c.name = some (seedId i) := by
  unfold nameId
  cases hfind : (config.channels.zipIdx.map fun (c, i) => (c.name, seedId i)).reverse.find? fun p => p.1 = c.name with
  | none =>
    have hall := List.find?_eq_none.mp hfind (c.name, seedId i)
    refine absurd (hall (List.mem_reverse.mpr (List.mem_map.mpr ⟨(c, i), ?_, rfl⟩))) (by simp)
    exact List.mem_zipIdx_iff_getElem?.mpr hc
  | some q =>
    have hname : q.1 = c.name := by simpa using List.find?_some hfind
    obtain ⟨⟨d, j⟩, hd, rfl⟩ := List.mem_map.mp (List.mem_reverse.mp (List.mem_of_find?_eq_some hfind))
    have hd : config.channels[j]? = some d := List.mem_zipIdx_iff_getElem?.mp hd
    have hlen : j < (config.channels.map ChannelConfig.name).length := by
      rw [List.length_map]
      exact (List.getElem?_eq_some_iff.mp hd).1
    have hij : j = i := by
      refine (List.getElem?_inj hlen hnames).mp ?_
      rw [List.getElem?_map, List.getElem?_map, hd, hc]
      exact congrArg some hname
    rw [hij]
    rfl

omit hnames in
theorem getElem?_of_mem_names {name : String} (h : name ∈ config.channels.map ChannelConfig.name) :
    ∃ (c : ChannelConfig) (i : Nat), config.channels[i]? = some c ∧ c.name = name := by
  obtain ⟨c, hc, rfl⟩ := List.mem_map.mp h
  obtain ⟨i, hi⟩ := List.mem_iff_getElem?.mp hc
  exact ⟨c, i, hi, rfl⟩

variable (hlen : config.channels.length ≤ 2 ^ 32)
include hlen

omit hnames in
theorem unique_buildChannels : Keyed.Unique Channel.id (buildChannels config) := by
  have hids : (buildChannels config).map Channel.id = (config.channels.zipIdx.map Prod.snd).map seedId := by
    rw [buildChannels_eq, List.map_map, List.map_map]
    rfl
  unfold Keyed.Unique
  rw [hids]
  refine List.Nodup.map_on (fun i hi j hj h => ?_) (by rw [List.zipIdx_map_snd]; exact List.nodup_range')
  have hlt : ∀ i ∈ config.channels.zipIdx.map Prod.snd, i < 2 ^ 32 := by
    intro i hi
    obtain ⟨⟨c, i⟩, hc, rfl⟩ := List.mem_map.mp hi
    exact Nat.lt_of_lt_of_le (List.getElem?_eq_some_iff.mp (List.mem_zipIdx_iff_getElem?.mp hc)).1 hlen
  exact seedId_inj (hlt i hi) (hlt j hj) h

omit hnames in
theorem parentOf_seeded {c : ChannelConfig} {i : Nat} (hc : config.channels[i]? = some c) :
    parentOf (buildChannels config) (seedId i) = c.parent.bind (nameId config) := by
  have hmem : seeded config c i ∈ buildChannels config := mem_buildChannels.mpr ⟨c, i, hc, rfl⟩
  have hget : Keyed.get Channel.id (seedId i) (buildChannels config) = some (seeded config c i) :=
    Keyed.get_of_mem (unique_buildChannels hlen) hmem
  unfold parentOf
  rw [hget]
  rfl

end

/-! ## Trees -/

/-- Following parents from the channel leads to a top-level channel. -/
inductive ReachesTop (channels : List Channel) : Channel → Prop
  | top {c : Channel} : c.parent = none → ReachesTop channels c
  | up {c d : Channel} {parent : ChannelId} : c.parent = some parent → Keyed.get Channel.id parent channels = some d →
      ReachesTop channels d → ReachesTop channels c

section
variable {channels : List Channel} (hids : Keyed.Unique Channel.id channels)
include hids

theorem parentOf_id {c : Channel} (hc : c ∈ channels) : parentOf channels c.id = c.parent := by
  unfold parentOf
  rw [Keyed.get_of_mem hids hc]
  rfl

theorem ReachesTop.ends {c : Channel} (hc : c ∈ channels) (h : ReachesTop channels c) :
    Ends (parentOf channels) (some c.id) := by
  induction h with
  | top htop =>
    refine .up ?_
    rw [parentOf_id hids hc, htop]
    exact .top
  | up hparent hget _ ih =>
    refine .up ?_
    have hd := ih (Keyed.get_mem hget)
    rw [Keyed.get_key hget] at hd
    rwa [parentOf_id hids hc, hparent]

theorem acyclic_of_reachesTop (h : ∀ c ∈ channels, ReachesTop channels c) : Acyclic channels := by
  intro id
  cases hget : Keyed.get Channel.id id channels with
  | some c =>
    have hends := (h c (Keyed.get_mem hget)).ends hids (Keyed.get_mem hget)
    rwa [Keyed.get_key hget] at hends
  | none =>
    refine .up ?_
    unfold parentOf
    rw [hget]
    exact .top

theorem Acyclic.reachesTop (h : Acyclic channels)
    (hparents : ∀ c ∈ channels, ∀ parent, c.parent = some parent → ∃ d ∈ channels, d.id = parent)
    {c : Channel} (hc : c ∈ channels) : ReachesTop channels c := by
  have hends := h c.id
  generalize hcur : some c.id = cur at hends
  induction hends generalizing c with
  | top => cases hcur
  | @up id _ ih =>
    obtain rfl := Option.some.inj hcur
    cases hp : c.parent with
    | none => exact .top hp
    | some parent =>
      obtain ⟨d, hd, rfl⟩ := hparents c hc parent hp
      exact .up hp (Keyed.get_of_mem hids hd) (ih hd (by rw [parentOf_id hids hc, hp]))

end

/-! ## When the seed is a forest -/

def NameLink (config : ServerConfig) (name parent : String) : Prop :=
  ∃ c ∈ config.channels, c.name = name ∧ c.parent = some parent

def NoLoop (config : ServerConfig) : Prop := ∀ name, ¬ Relation.TransGen (NameLink config) name name

/-- Every seeded channel has a top-level ancestor, and the check against loops
returns on the seeded map. -/
def SeedsForest (config : ServerConfig) : Prop :=
  (∀ c ∈ buildChannels config, ReachesTop (buildChannels config) c) ∧
    ∀ perms store now child parent,
      ∃ r, (Shared.new config (buildChannels config) perms store now).parentWouldCycle child parent = some r

section
variable {config : ServerConfig} (hvalid : config.Valid) (hlen : config.channels.length ≤ 2 ^ 32)
include hvalid hlen

theorem link_of_nameLink {name parent : String} (h : NameLink config name parent) :
    Link (parentOf (buildChannels config)) ((nameId config name).getD 0) ((nameId config parent).getD 0) := by
  obtain ⟨c, hc, rfl, hparent⟩ := h
  obtain ⟨i, hi⟩ := List.mem_iff_getElem?.mp hc
  obtain ⟨d, j, hj, rfl⟩ := getElem?_of_mem_names (hvalid.parents c hc parent hparent).1
  rw [nameId_eq hvalid.names hi, nameId_eq hvalid.names hj]
  unfold Link
  rw [Option.getD_some, parentOf_seeded hlen hi, hparent]
  exact nameId_eq hvalid.names hj

theorem noLoop_of_acyclic (h : Acyclic (buildChannels config)) : NoLoop config := by
  intro name hloop
  have hids := Relation.TransGen.lift (fun name => (nameId config name).getD 0)
    (fun a b hab => link_of_nameLink hvalid hlen hab) name name hloop
  exact (h _).irrefl hids

theorem ends_of_noLoop (h : NoLoop config) (name : {name // name ∈ config.channels.map ChannelConfig.name}) :
    Ends (parentOf (buildChannels config)) (nameId config name) := by
  have hfinite : Finite {name // name ∈ config.channels.map ChannelConfig.name} :=
    Fintype.finite (Fintype.ofList (config.channels.map ChannelConfig.name).attach (List.mem_attach _))
  let r : {name // name ∈ config.channels.map ChannelConfig.name} →
      {name // name ∈ config.channels.map ChannelConfig.name} → Prop :=
    fun b a => Relation.TransGen (NameLink config) a.1 b.1
  have htrans : IsTrans _ r := ⟨fun a b c hab hbc => hbc.trans hab⟩
  have hirrefl : Std.Irrefl r := ⟨fun a => h a.1⟩
  have hwf : WellFounded r := Finite.wellFounded_of_trans_of_irrefl r
  induction name using hwf.induction with
  | _ name ih =>
    obtain ⟨c, i, hi, hname⟩ := getElem?_of_mem_names name.2
    rw [← hname, nameId_eq hvalid.names hi]
    refine .up ?_
    rw [parentOf_seeded hlen hi]
    cases hparent : c.parent with
    | none => exact .top
    | some parent =>
      have hc : c ∈ config.channels := List.mem_of_getElem? hi
      exact ih ⟨parent, (hvalid.parents c hc parent hparent).1⟩ (.single ⟨c, hc, hname, hparent⟩)

theorem acyclic_of_noLoop (h : NoLoop config) : Acyclic (buildChannels config) := by
  intro id
  by_cases hid : id ∈ (buildChannels config).map Channel.id
  · obtain ⟨d, hd, rfl⟩ := List.mem_map.mp hid
    obtain ⟨c, i, hi, rfl⟩ := mem_buildChannels.mp hd
    have hc : c ∈ config.channels := List.mem_of_getElem? hi
    have hends := ends_of_noLoop hvalid hlen h ⟨c.name, List.mem_map_of_mem hc⟩
    rwa [nameId_eq hvalid.names hi] at hends
  · refine .up ?_
    have hnone : parentOf (buildChannels config) id = none :=
      Classical.byContradiction fun hn => hid (mem_ids_of_parentOf hn)
    rw [hnone]
    exact .top

omit hlen in
theorem seeded_parents : ∀ d ∈ buildChannels config, ∀ parent, d.parent = some parent →
    ∃ e ∈ buildChannels config, e.id = parent := by
  intro d hd parent hparent
  obtain ⟨c, i, hi, rfl⟩ := mem_buildChannels.mp hd
  obtain ⟨name, hname, hid⟩ := Option.bind_eq_some_iff.mp hparent
  obtain ⟨e, j, hj, rfl⟩ := getElem?_of_mem_names (hvalid.parents c (List.mem_of_getElem? hi) name hname).1
  rw [nameId_eq hvalid.names hj] at hid
  exact ⟨seeded config e j, mem_buildChannels.mpr ⟨e, j, hj, rfl⟩, Option.some.inj hid⟩

end

theorem parentOf_new {config : ServerConfig} {channels : List Channel} (hids : Keyed.Unique Channel.id channels)
    (perms : PermState) (store : Bool) (now : UInt64) :
    parentOf (Shared.new config channels perms store now).channels = parentOf channels := by
  obtain ⟨hsorted, hmem⟩ := Keyed.foldl_putSorted hids List.Pairwise.nil (by simp)
  refine parentOf_congr fun id => Keyed.get_congr (.of_sorted hsorted) hids (fun c => ?_) id
  rw [hmem]
  simp

/-- The channels of an accepted file are seeded as a forest just when no chain
of parents, by name, closes. -/
theorem seedsForest_iff {config : ServerConfig} (hvalid : config.validate = .ok ())
    (hlen : config.channels.length ≤ 2 ^ 32) : SeedsForest config ↔ NoLoop config := by
  have hvalid := ServerConfig.validate_ok hvalid
  have hids := unique_buildChannels hlen
  constructor
  · rintro ⟨htop, -⟩
    exact noLoop_of_acyclic hvalid hlen (acyclic_of_reachesTop hids htop)
  · intro h
    have hacyclic := acyclic_of_noLoop hvalid hlen h
    refine ⟨fun c hc => hacyclic.reachesTop hids (seeded_parents hvalid) hc, fun perms store now child parent => ?_⟩
    refine Acyclic.returns ?_ child parent
    unfold Acyclic
    rw [parentOf_new hids]
    exact hacyclic

def channelFile (channels : List ChannelConfig) : ServerConfig :=
  { minSecurityLevel := 0, password := none, owner := none, maxUsers := 8, historyEnabled := true, channels }

def lobbyFile : ServerConfig :=
  channelFile [⟨"lobby", "", .text, none, none, 0⟩, ⟨"corner", "", .voice, some "lobby", none, 0⟩]

theorem seedsForest_iff_lobby : SeedsForest lobbyFile := by
  refine (@seedsForest_iff lobbyFile (by decide +kernel) (by decide)).mpr fun name hloop => ?_
  have hlink : ∀ {a b}, NameLink lobbyFile a b → a = "corner" ∧ b = "lobby" := by
    rintro a b ⟨c, hc, rfl, hparent⟩
    rcases List.mem_cons.mp hc with rfl | hc
    · cases hparent
    · obtain rfl := List.mem_singleton.mp hc
      exact ⟨rfl, (Option.some.inj hparent).symm⟩
  obtain ⟨b, hfirst, -⟩ := Relation.TransGen.head'_iff.mp hloop
  obtain ⟨a, -, hlast⟩ := Relation.TransGen.tail'_iff.mp hloop
  exact absurd ((hlink hfirst).1.symm.trans (hlink hlast).2) (by decide)

def loopFile : ServerConfig :=
  channelFile [⟨"lobby", "", .text, none, none, 0⟩, ⟨"left", "", .text, some "right", none, 0⟩,
    ⟨"right", "", .text, some "left", none, 0⟩]

/-- The file is accepted, and the check against loops never returns on its channels. -/
theorem loopFile_accepted : loopFile.validate = .ok () ∧ ¬ SeedsForest loopFile := by
  refine ⟨by decide +kernel, ?_⟩
  rintro ⟨-, hreturns⟩
  obtain ⟨r, hr⟩ := hreturns ⟨[], fun _ => none⟩ true 0 1 (some 2)
  have hnone : (Shared.new loopFile (buildChannels loopFile) ⟨[], fun _ => none⟩ true 0).parentWouldCycle 1 (some 2) =
      none := by decide +kernel
  rw [hnone] at hr
  cases hr

end PickleChat
