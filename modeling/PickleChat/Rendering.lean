import PickleChat.Authority
import PickleChat.ChannelViews
import PickleChat.PermMirror

/-!
# A mirror that is kept up to date

What the permission mirror makes of the frames it reads, part by part: roles,
own grants, channels and users. News about the role list comes first in what a
command sends; whatever follows tells each part what is so by then.
-/

namespace PickleChat

def ServerControl.aboutRoles : ServerControl → Bool
  | .roleCreated _ | .roleUpdated _ | .roleDeleted _ | .rolesReordered _ => true
  | _ => false

/-- What a frame says about who is there. -/
def ServerControl.standing? : ServerControl → Option (ClientId × Option MemberStanding)
  | .userJoined u | .userUpdated u => some (u.clientId, some (PermMirror.standing u).2)
  | .userLeft k _ => some (k, none)
  | _ => none

namespace PermMirror

def read (p : PermMirror) (frames : List ServerControl) : PermMirror :=
  (frames.filterMap translate).foldl (fun p event => (p.apply event).2) p

def knows (p : PermMirror) (k : ClientId) : Option MemberStanding := (Keyed.get Prod.fst k p.users).map Prod.snd

/-- A user who joined or was updated, oneself included. -/
def note (p : PermMirror) (u : UserInfo) : PermMirror :=
  { p with
    users := Keyed.put Prod.fst (standing u) p.users
    myRoles := if u.fingerprint = p.fingerprint then u.roles else p.myRoles
    owner := if u.fingerprint = p.fingerprint then u.owner else p.owner }

variable {p : PermMirror}

theorem read_append (frames more : List ServerControl) : p.read (frames ++ more) = (p.read frames).read more := by
  unfold read
  rw [List.filterMap_append, List.foldl_append]

theorem read_cons (m : ServerControl) (frames : List ServerControl) : p.read (m :: frames) = (p.read [m]).read frames :=
  read_append [m] frames

theorem read_joined (u : UserInfo) : p.read [.userJoined u] = p.note u := by
  unfold note
  simp only [read, List.filterMap, translate, List.foldl, apply]
  split <;> rfl

theorem read_updated (u : UserInfo) : p.read [.userUpdated u] = p.note u := read_joined u

/-! ## One frame -/

theorem read_one_fingerprint (m : ServerControl) : (p.read [m]).fingerprint = p.fingerprint := by
  cases m with
  | userJoined u => rw [read_joined]; rfl
  | userUpdated u => rw [read_updated]; rfl
  | _ => rfl

theorem read_one_roles {m : ServerControl} (h : m.aboutRoles = false) : (p.read [m]).roles = p.roles := by
  cases m with
  | userJoined u => rw [read_joined]; rfl
  | userUpdated u => rw [read_updated]; rfl
  | roleCreated | roleUpdated | roleDeleted | rolesReordered => cases h
  | _ => rfl

theorem note_knows (u : UserInfo) : (p.note u).knows = Feed.set p.knows (u.clientId, some (standing u).2) := by
  funext k
  unfold knows note Feed.set
  rw [Keyed.get_put]
  split
  · rw [if_pos ‹_›]; rfl
  · rw [if_neg ‹_›]

theorem read_one_knows (m : ServerControl) : (p.read [m]).knows = Feed.apply m.standing?.toList p.knows := by
  cases m with
  | userJoined u => rw [read_joined]; exact note_knows u
  | userUpdated u => rw [read_updated]; exact note_knows u
  | userLeft left reason =>
    funext k
    refine (congrArg (Option.map Prod.snd) (Keyed.get_erase k left p.users)).trans ?_
    simp only [ServerControl.standing?, Option.toList, Feed.apply, List.foldl, Feed.set]
    split <;> rfl
  | _ => rfl

theorem read_one_channels (hs : p.channels.Pairwise fun a b => a.id < b.id) (m : ServerControl) :
    (p.read [m]).channels.Pairwise (fun a b => a.id < b.id) ∧
      listed (p.read [m]).channels = held (listed p.channels) [m] := by
  have put : ∀ c, (Keyed.putSorted Channel.id c p.channels).Pairwise (fun a b => a.id < b.id) ∧
      listed (Keyed.putSorted Channel.id c p.channels) = held (listed p.channels) [.channelCreated c] := by
    intro c
    refine ⟨Keyed.putSorted_sorted hs c, funext fun id => ?_⟩
    exact Keyed.get_putSorted id c p.channels
  cases m with
  | channelCreated c => exact put c
  | channelUpdated c => exact put c
  | channelRemoved id => exact ⟨hs.filter _, funext fun id' => Keyed.get_erase id' id p.channels⟩
  | userJoined u => rw [read_joined]; exact ⟨hs, rfl⟩
  | userUpdated u => rw [read_updated]; exact ⟨hs, rfl⟩
  | _ => exact ⟨hs, rfl⟩

/-! ## All of them -/

theorem read_fingerprint (frames : List ServerControl) : (p.read frames).fingerprint = p.fingerprint := by
  induction frames generalizing p with
  | nil => rfl
  | cons m frames ih => rw [read_cons, ih, read_one_fingerprint]

theorem read_roles {frames : List ServerControl} (h : ∀ m ∈ frames, m.aboutRoles = false) :
    (p.read frames).roles = p.roles := by
  induction frames generalizing p with
  | nil => rfl
  | cons m frames ih =>
    rw [read_cons, ih fun m' hm => h m' (List.mem_cons_of_mem _ hm), read_one_roles (h m (List.mem_cons_self ..))]

theorem read_knows (frames : List ServerControl) :
    (p.read frames).knows = Feed.apply (frames.filterMap ServerControl.standing?) p.knows := by
  induction frames generalizing p with
  | nil => rfl
  | cons m frames ih =>
    rw [read_cons, ih, read_one_knows, ← Feed.apply_append]
    cases h : m.standing? <;> simp [h]

theorem read_channels (hs : p.channels.Pairwise fun a b => a.id < b.id) (frames : List ServerControl) :
    (p.read frames).channels.Pairwise (fun a b => a.id < b.id) ∧
      listed (p.read frames).channels = held (listed p.channels) frames := by
  induction frames generalizing p with
  | nil => exact ⟨hs, rfl⟩
  | cons m frames ih =>
    obtain ⟨hs', he⟩ := read_one_channels hs m
    obtain ⟨hs'', he'⟩ := ih hs'
    rw [read_cons]
    exact ⟨hs'', he'.trans (by rw [he]; exact (held_append _ [m] frames).symm)⟩

/-- News about roles. -/
theorem read_news {news : List ServerControl} (h : ∀ m ∈ news, m.aboutRoles = true) :
    (p.read news).owner = p.owner ∧ (p.read news).channels = p.channels ∧ (p.read news).users = p.users := by
  induction news generalizing p with
  | nil => exact ⟨rfl, rfl, rfl⟩
  | cons m news ih =>
    have hone : (p.read [m]).owner = p.owner ∧ (p.read [m]).channels = p.channels ∧ (p.read [m]).users = p.users := by
      have hm := h m (List.mem_cons_self ..)
      cases m with
      | roleCreated | roleUpdated | roleDeleted | rolesReordered => exact ⟨rfl, rfl, rfl⟩
      | _ => cases hm
    obtain ⟨ho, hc, hu⟩ := ih fun m' hm => h m' (List.mem_cons_of_mem _ hm)
    rw [read_cons]
    exact ⟨ho.trans hone.1, hc.trans hone.2.1, hu.trans hone.2.2⟩

end PermMirror

/-! ## Frames that tell the truth -/

/-- What the frame tells the client with this entry of users and channels is so, and of roles it tells nothing. -/
def Shared.Tells (t : Shared) (j : UserInfo) : ServerControl → Prop
  | .userJoined u | .userUpdated u => t.user u.clientId = some u
  | .userLeft k _ => t.user k = none
  | .channelCreated c | .channelUpdated c => t.view j c.id = some c
  | .channelRemoved id => t.view j id = none
  | .roleCreated _ | .roleUpdated _ | .roleDeleted _ | .rolesReordered _ => False
  | _ => True

section
variable {t : Shared} {j : UserInfo} {m : ServerControl} (h : t.Tells j m)
include h

theorem Shared.Tells.roles : m.aboutRoles = false := by
  cases m with
  | roleCreated | roleUpdated | roleDeleted | rolesReordered => cases h
  | _ => rfl

theorem Shared.Tells.channels {u : ChannelId × Option Channel} (hu : m.update? = some u) : u.2 = t.view j u.1 := by
  cases m with
  | channelCreated c | channelUpdated c => cases hu; exact h.symm
  | channelRemoved id => cases hu; exact h.symm
  | _ => cases hu

theorem Shared.Tells.users {u : ClientId × Option MemberStanding} (hu : m.standing? = some u) :
    u.2 = (t.user u.1).map fun v => (PermMirror.standing v).2 := by
  cases m with
  | userJoined v | userUpdated v =>
    cases hu
    rw [show t.user v.clientId = some v from h]
    rfl
  | userLeft k reason =>
    cases hu
    rw [show t.user k = none from h]
    rfl
  | _ => cases hu

end

theorem Coherent.same_grants {t : Shared} (hc : Coherent t) {k k' : ClientId} {u v : UserInfo} (hu : t.user k = some u)
    (hv : t.user k' = some v) (hf : u.fingerprint = v.fingerprint) : u.roles = v.roles ∧ u.owner = v.owner := by
  obtain ⟨e, he, rfl⟩ := Option.map_eq_some_iff.mp hu
  obtain ⟨e', he', rfl⟩ := Option.map_eq_some_iff.mp hv
  have he := Keyed.get_mem he
  have he' := Keyed.get_mem he'
  rw [hc.roles e he, hc.roles e' he', hc.owner e he, hc.owner e' he', hf]
  exact ⟨rfl, rfl⟩

section
variable {t : Shared} {j : UserInfo} {p : PermMirror} (hc : Coherent t) (hj : t.user j.clientId = some j)
  (hf : p.fingerprint = j.fingerprint)
include hc hj hf

theorem PermMirror.read_one_mine {m : ServerControl} (h : t.Tells j m) :
    ((p.read [m]).myRoles = j.roles ∧ (p.read [m]).owner = j.owner) ∨
      (m ≠ .userUpdated j ∧ (p.read [m]).myRoles = p.myRoles ∧ (p.read [m]).owner = p.owner) := by
  have noted : ∀ u, t.user u.clientId = some u → (u.fingerprint = p.fingerprint ∧
      (p.note u).myRoles = j.roles ∧ (p.note u).owner = j.owner) ∨ (u ≠ j ∧
      (p.note u).myRoles = p.myRoles ∧ (p.note u).owner = p.owner) := by
    intro u hu
    by_cases hown : u.fingerprint = p.fingerprint
    · obtain ⟨hr, ho⟩ := hc.same_grants hu hj (hown.trans hf)
      exact .inl ⟨hown, (if_pos hown).trans hr, (if_pos hown).trans ho⟩
    · exact .inr ⟨fun he => hown (he ▸ hf.symm), if_neg hown, if_neg hown⟩
  cases m with
  | userJoined u =>
    rw [read_joined]
    exact (noted u h).imp And.right fun hn => ⟨nofun, hn.2⟩
  | userUpdated u =>
    rw [read_updated]
    exact (noted u h).imp And.right fun hn => ⟨fun he => hn.1 (ServerControl.userUpdated.inj he), hn.2⟩
  | roleDeleted => cases h
  | _ => exact .inr ⟨nofun, rfl, rfl⟩

theorem PermMirror.read_mine {frames : List ServerControl} (h : ∀ m ∈ frames, t.Tells j m) :
    ((p.read frames).myRoles = j.roles ∧ (p.read frames).owner = j.owner) ∨
      (.userUpdated j ∉ frames ∧ (p.read frames).myRoles = p.myRoles ∧ (p.read frames).owner = p.owner) := by
  induction frames generalizing p with
  | nil => exact .inr ⟨List.not_mem_nil, rfl, rfl⟩
  | cons m frames ih =>
    have hrest := ih ((read_one_fingerprint m).trans hf) fun m' hm => h m' (List.mem_cons_of_mem _ hm)
    rw [read_cons]
    rcases hrest with hmine | ⟨hnot, hr, ho⟩
    · exact .inl hmine
    · rw [hr, ho]
      refine (read_one_mine hc hj hf (h m (List.mem_cons_self ..))).imp_right fun ⟨hne, hsame⟩ => ⟨?_, hsame⟩
      intro hmem
      rcases List.mem_cons.mp hmem with he | hmem
      · exact hne he.symm
      · exact hnot hmem

end

/-! ## Up to date -/

/-- What the mirror of the client with this entry holds once it has read all it was sent. -/
structure InTouch (s : Shared) (i : UserInfo) (p : PermMirror) : Prop where
  fingerprint : p.fingerprint = i.fingerprint
  owner : p.owner = i.owner
  mine : p.myRoles = i.roles
  ids : Keyed.Unique Role.id p.roles
  roles : ∀ r, r ∈ p.roles ↔ r ∈ s.perms.roles
  sorted : p.channels.Pairwise fun a b => a.id < b.id
  channels : listed p.channels = s.view i
  users : ∀ k u, s.user k = some u → p.knows k = some (PermMirror.standing u).2

section
variable {s t : Shared} {i j : UserInfo} {p : PermMirror}

/-- A mirror stays up to date when the news brings the role list up to date and
the rest tells the truth, and names all that changed. -/
theorem InTouch.step (h : InTouch s i p) (hc : Coherent t) (hj : t.user j.clientId = some j)
    (hf : j.fingerprint = i.fingerprint) (ho : j.owner = i.owner) (news : List ServerControl)
    {rest : List ServerControl} (hnews : ∀ m ∈ news, m.aboutRoles = true)
    (hids : Keyed.Unique Role.id (p.read news).roles)
    (hroles : ∀ r, r ∈ (p.read news).roles ↔ r ∈ t.perms.roles) (hrest : ∀ m ∈ rest, t.Tells j m)
    (hmine : (p.read news).myRoles = j.roles ∨ .userUpdated j ∈ rest)
    (hchannels : ∀ id, s.view i id = t.view j id ∨ ∃ m ∈ rest, ∃ a, m.update? = some (id, a))
    (husers : ∀ k u, t.user k = some u → (∃ v, s.user k = some v ∧ SameStanding v u) ∨
      ∃ m ∈ rest, ∃ a, m.standing? = some (k, a)) :
    InTouch t j (p.read (news ++ rest)) := by
  obtain ⟨howner, hlist, hknown⟩ := p.read_news hnews
  rw [PermMirror.read_append]
  have hfp : (p.read news).fingerprint = j.fingerprint := by rw [p.read_fingerprint, h.fingerprint, hf]
  have hown := PermMirror.read_mine hc hj hfp hrest
  have hsilent := (p.read news).read_roles fun m hm => (hrest m hm).roles
  have hchans := (p.read news).read_channels (by rw [hlist]; exact h.sorted) rest
  refine ⟨?_, ?_, ?_, ?_, ?_, hchans.1, ?_, ?_⟩
  · rw [PermMirror.read_fingerprint, hfp]
  · rcases hown with ⟨-, he⟩ | ⟨-, -, he⟩
    · exact he
    · rw [he, howner, h.owner, ho]
  · rcases hown with ⟨he, -⟩ | ⟨hnot, he, -⟩
    · exact he
    · exact he.trans (hmine.resolve_right hnot)
  · rw [hsilent]; exact hids
  · rw [hsilent]; exact hroles
  · funext id
    rw [hchans.2, hlist, h.channels]
    refine Feed.apply_unnamed (fun u hu => ?_) fun hne => ?_
    · obtain ⟨m, hm, he⟩ := List.mem_filterMap.mp hu
      exact (hrest m hm).channels he
    · refine (hchannels id).resolve_right ?_
      rintro ⟨m, hm, a, he⟩
      exact hne _ (List.mem_filterMap.mpr ⟨m, hm, he⟩) rfl
  · intro k u hu
    have htruth : (t.user k).map (fun v => (PermMirror.standing v).2) = some (PermMirror.standing u).2 := by
      rw [hu]
      rfl
    rw [PermMirror.read_knows, ← htruth]
    refine Feed.apply_unnamed (v := fun k => (t.user k).map fun v => (PermMirror.standing v).2) (fun w hw => ?_)
      fun hne => ?_
    · obtain ⟨m, hm, he⟩ := List.mem_filterMap.mp hw
      exact (hrest m hm).users he
    · obtain ⟨v, hv, hsame⟩ := (husers k u hu).resolve_right fun ⟨m, hm, a, he⟩ =>
        hne _ (List.mem_filterMap.mpr ⟨m, hm, he⟩) rfl
      have hkept : (p.read news).knows k = p.knows k := by
        unfold PermMirror.knows
        rw [hknown]
      rw [hkept, h.users k v hv]
      simp only [hu, Option.map_some, PermMirror.standing, UserInfo.fingerprint, hsame.identity, hsame.roles,
        hsame.owner]

end

/-! ## What it renders -/

/-- What the server lets a client do, as a snapshot that the client would render. -/
def Shared.permissionsOf (s : Shared) (i : UserInfo) : MyPermissionsDto :=
  let base := s.bits i none
  let standing := [Permissions.manageServer, .manageRoles, .manageChannels, .kickMembers, .banMembers, .muteMembers,
    .moveMembers].any base.contains
  { isOwner := i.owner, isAdmin := base.contains .administrator, canOpenAdmin := i.owner || standing,
    channels := (s.visibleChannels i).map fun channel =>
      let bits := s.bits i (some channel.overwrites)
      (channel.id,
        { send := bits.contains .sendMessages, readHistory := bits.contains .readHistory,
          connect := bits.contains .connect, speak := bits.contains .speak }) }

/-- Each action is offered exactly if `may` holds of its bit. -/
structure ModerationOptionsDto.Offers (options : ModerationOptionsDto) (may : Permissions → Bool) : Prop where
  kick : options.canKick = may .kickMembers
  ban : options.canBan = may .banMembers
  mute : options.canMute = may .muteMembers
  move : options.canMove = may .moveMembers

theorem ModerationOptionsDto.Offers.congr {options : ModerationOptionsDto} {may may' : Permissions → Bool}
    (h : options.Offers may) (hmay : ∀ bit, may' bit = may bit) : options.Offers may' :=
  ⟨h.kick.trans (hmay _).symm, h.ban.trans (hmay _).symm, h.mute.trans (hmay _).symm, h.move.trans (hmay _).symm⟩

theorem PermMirror.moderationOptions_offers {p : PermMirror} {target k : ClientId} {them : MemberStanding}
    (hget : Keyed.get Prod.fst target p.users = some (k, them)) (hne : them.fingerprint ≠ p.fingerprint) :
    (p.moderationOptions target).Offers fun bit =>
      (resolve p.roles p.myRoles p.fingerprint p.owner none).contains bit &&
        canActOn p.roles p.myRoles p.owner them.roles them.owner := by
  unfold moderationOptions
  simp only [hget, if_neg hne]
  cases canActOn p.roles p.myRoles p.owner them.roles them.owner with
  | false => constructor <;> simp [ModerationOptionsDto.none]
  | true =>
    simp only [Bool.not_true, Bool.false_eq_true, if_false, Bool.and_true]
    split
    · constructor <;> simp_all [ModerationOptionsDto.none]
    · constructor <;> rfl

/-- The mirror of the client with this entry shows what the server enforces. -/
structure Renders (s : Shared) (i : UserInfo) (p : PermMirror) : Prop where
  channels : p.channels = s.visibleChannels i
  roles : p.roles.Perm s.perms.roles
  permissions : p.myPermissions = s.permissionsOf i
  moderation : ∀ target u, s.user target = some u → u.fingerprint ≠ i.fingerprint →
    (p.moderationOptions target).Offers fun bit =>
      s.canGlobally i.clientId bit && s.actorOutranks i.clientId u.fingerprint

section
variable {s : Shared} {i : UserInfo} {p : PermMirror} (h : InTouch s i p) (hu : Keyed.Unique Role.id s.perms.roles)
include h hu

theorem InTouch.resolve_eq (overwrites : Option (List Overwrite)) :
    resolve p.roles p.myRoles p.fingerprint p.owner overwrites = s.bits i overwrites := by
  have hr := rolePermissions_congr h.ids hu h.roles
  unfold Shared.bits
  rw [h.mine, h.fingerprint, h.owner]
  cases overwrites with
  | none => exact resolve_none_congr hr (fun _ => .rfl) _ _
  | some ows => exact resolve_some_congr hr (fun _ => .rfl) (fun _ => rfl) _ _

omit hu in
theorem InTouch.channels_eq (hs : s.channels.Pairwise fun a b => a.id < b.id) : p.channels = s.visibleChannels i := by
  have hsorted : (s.visibleChannels i).Pairwise fun a b => a.id < b.id := hs.filter _
  have hget : listed p.channels = listed (s.visibleChannels i) :=
    h.channels.trans (Shared.listed_visibleChannels (.of_sorted hs)).symm
  exact Keyed.eq_of_get h.sorted hsorted (congrFun hget)

theorem InTouch.permissions_eq (hs : s.channels.Pairwise fun a b => a.id < b.id) :
    p.myPermissions = s.permissionsOf i := by
  unfold PermMirror.myPermissions Shared.permissionsOf
  simp only [h.resolve_eq hu, h.channels_eq hs]
  simp only [h.owner]

theorem InTouch.moderation_eq (hc : Coherent s) (hi : s.user i.clientId = some i) {target : ClientId} {u : UserInfo}
    (ht : s.user target = some u) (hne : u.fingerprint ≠ i.fingerprint) :
    (p.moderationOptions target).Offers fun bit =>
      s.canGlobally i.clientId bit && s.actorOutranks i.clientId u.fingerprint := by
  obtain ⟨e, he, hei⟩ := Option.map_eq_some_iff.mp hi
  obtain ⟨e', he', rfl⟩ := Option.map_eq_some_iff.mp ht
  obtain ⟨⟨k, them⟩, hget, hthem⟩ := Option.map_eq_some_iff.mp (h.users target _ ht)
  obtain rfl : them = (PermMirror.standing e'.info).2 := hthem
  have hgrants := hc.roles e' (Keyed.get_mem he')
  have howner := hc.owner e' (Keyed.get_mem he')
  have hoffers := PermMirror.moderationOptions_offers hget (by rw [h.fingerprint]; exact hne)
  refine hoffers.congr fun bit => ?_
  have hglobal : s.canGlobally i.clientId bit = (s.bits i none).contains bit := by
    unfold Shared.canGlobally
    simp only [he, hei]
  have hrank : s.actorOutranks i.clientId e'.info.fingerprint =
      canActOn p.roles p.myRoles p.owner e'.info.roles e'.info.owner := by
    unfold Shared.actorOutranks canActOn
    simp only [he, hei, hgrants, howner, h.mine, h.owner, topRolePosition_congr h.ids hu h.roles fun _ => .rfl]
  rw [hglobal, hrank, h.resolve_eq hu]
  rfl

theorem InTouch.renders (hc : Coherent s) (hs : s.channels.Pairwise fun a b => a.id < b.id)
    (hi : s.user i.clientId = some i) : Renders s i p where
  channels := h.channels_eq hs
  roles := (List.perm_ext_iff_of_nodup h.ids.of_map hu.of_map).mpr h.roles
  permissions := h.permissions_eq hu hs
  moderation _ _ ht hne := h.moderation_eq hu hc hi ht hne

end

end PickleChat
