import PickleChat.Lib.Postcard
import PickleChat.Session

/-!
# The size of frames

The encoded lengths of the frames that carry stored content, and of the commands
that store it. The witness counter of an identity is not part of the model's
identities, so the lengths take it from outside.
-/

namespace PickleChat

open Postcard

def maxFrameLen : Nat := 2 ^ 20

def u32 (n : UInt32) : Nat := varint n.toNat

def u64 (n : UInt64) : Nat := varint n.toNat

def Permissions.len (p : Permissions) : Nat := varint p.bits.toNat

/-- A variant's index and its 32 bytes, or the index and the role. -/
def OverwriteTarget.len : OverwriteTarget → Nat
  | role id => 1 + u32 id
  | member _ => 1 + 32

def Overwrite.len (o : Overwrite) : Nat := o.target.len + o.allow.len + o.deny.len

def Channel.len (c : Channel) : Nat :=
  u32 c.id + opt u32 c.parent + str c.name + str c.topic + 1 + opt (fun n => varint n.toNat) c.maxUsers +
    varint (zigzag c.order.toInt) + seq Overwrite.len c.overwrites

def Role.len (r : Role) : Nat := u32 r.id + str r.name + opt u32 r.color + u32 r.position + r.permissions.len

def BanEntry.len (b : BanEntry) : Nat := 32 + str b.reason + opt u64 b.untilUnixMs + 32 + u64 b.issuedAtUnixMs

def ServerLimits.len (l : ServerLimits) : Nat := u32 l.maxMessageLen + u32 l.maxNicknameLen + u32 l.maxUsers + 1

section
variable (counter : PublicIdentity → UInt64)

def UserInfo.len (u : UserInfo) : Nat :=
  u32 u.clientId + (32 + u64 (counter u.identity)) + str u.nickname + opt u32 u.channel + 4 + u64 u.connectedAtUnixMs +
    seq u32 u.roles + 1

def AuthOk.len (ok : AuthOk) : Nat :=
  u32 ok.clientId + seq Channel.len ok.channels + seq (UserInfo.len counter) ok.users + seq Role.len ok.roles +
    opt u32 ok.defaultChannel + ok.limits.len

/-- The length of a frame that carries stored content. -/
def ServerControl.storedLen : ServerControl → Option Nat
  | .authOk ok => some (1 + ok.len counter)
  | .channelCreated c | .channelUpdated c => some (1 + c.len)
  | .roleCreated r | .roleUpdated r => some (1 + r.len)
  | .userUpdated u => some (1 + u.len counter)
  | .banList bans => some (1 + seq BanEntry.len bans)
  | _ => none

/-- `write_frame` takes the frame. -/
def ServerControl.Fits (m : ServerControl) : Prop := ∀ n, m.storedLen counter = some n → n ≤ maxFrameLen

end

def ClientControl.storingLen : ClientControl → Option Nat
  | .createRole nonce name permissions => some (1 + u64 nonce + str name + permissions.len)
  | .updateRole nonce id name color permissions =>
    some (1 + u64 nonce + u32 id + opt str name + opt (opt u32) color + opt Permissions.len permissions)
  | .createChannel nonce name parent topic _ maxUsers order =>
    some (1 + u64 nonce + str name + opt u32 parent + str topic + 1 + opt (fun n => varint n.toNat) maxUsers +
      varint (zigzag order.toInt))
  | .updateChannel nonce id parent name topic _ maxUsers order =>
    some (1 + u64 nonce + u32 id + opt u32 parent + str name + str topic + 1 + opt (fun n => varint n.toNat) maxUsers +
      varint (zigzag order.toInt))
  | .setChannelOverwrite nonce channel target allow deny =>
    some (1 + u64 nonce + u32 channel + target.len + allow.len + deny.len)
  | .setMemberRoles nonce _ roles => some (1 + u64 nonce + 32 + seq u32 roles)
  | .ban nonce _ reason til => some (1 + u64 nonce + 32 + str reason + opt u64 til)
  | _ => none

/-- `read_frame` takes the command. -/
def ClientControl.Fits (m : ClientControl) : Prop := ∀ n, m.storingLen = some n → n ≤ maxFrameLen

end PickleChat
