import PickleChat.Lib.Files
import PickleChat.Lib.Keyed
import PickleChat.Lib.Run

/-!
# Bookmarks

`bookmarks.rs`: the saved servers of the desktop client, and the commands that
each read the file, change it and write it back. A file is given by what
`serde_json` reads from its text.
-/

namespace PickleChat

open Async Files

def bookmarksVersion : UInt32 := 1

inductive BookmarkError where
  | io (path : String)
  | malformed (path : String)
  | unsupportedVersion (path : String) (found expected : UInt32)
  | permissionsTooOpen (path : String) (mode : UInt32)
  | notFound (id : UInt64)
  deriving DecidableEq

structure Bookmark where
  id : UInt64
  label : String
  address : String
  password : Option String
  identity : Option String
  deriving DecidableEq

structure BookmarkInput where
  label : String
  address : String
  password : Option String
  identity : Option String

/-- What is stored of an input: a blank password is none. -/
def BookmarkInput.bookmark (input : BookmarkInput) (id : UInt64) : Bookmark where
  id
  label := input.label
  address := input.address
  password := input.password.filter fun p => !p.isEmpty
  identity := input.identity

structure StoredBookmarks where
  version : UInt32
  nextId : UInt64
  entries : List Bookmark
  deriving DecidableEq

structure BookmarkFile where
  /-- Missing where the text is none that a `StoredBookmarks` is read from. -/
  document : Option StoredBookmarks
  mode : UInt32
  deriving DecidableEq

structure Bookmarks where
  path : String
  nextId : UInt64
  entries : List Bookmark
  deriving DecidableEq

namespace Bookmarks

/-- `check_permissions` of the bookmarks, of a file that is there. -/
def checkPermissions (path : String) (mode : UInt32) (fault : Option ReadFault) : Except BookmarkError Unit :=
  if fault = some .metadata then .error (.io path)
  else
    let mode := mode &&& 0o777
    if mode &&& 0o077 ≠ 0 then .error (.permissionsTooOpen path mode) else .ok ()

def openFile (path : String) (file : Option BookmarkFile) (fault : Option ReadFault) :
    Except BookmarkError Bookmarks :=
  if fault = some .reading then .error (.io path)
  else
    match file with
    | none => .ok ⟨path, 1, []⟩
    | some file => do
      checkPermissions path file.mode fault
      match file.document with
      | none => .error (.malformed path)
      | some stored =>
        if stored.version ≠ bookmarksVersion then
          .error (.unsupportedVersion path stored.version bookmarksVersion)
        else
          -- the counter is never below what the entries use
          let highest := (stored.entries.map Bookmark.id).foldl max 0
          .ok ⟨path, max stored.nextId (highest + 1), stored.entries⟩

def add (store : Bookmarks) (input : BookmarkInput) : Bookmarks :=
  { store with nextId := store.nextId + 1, entries := store.entries ++ [input.bookmark store.nextId] }

def update (store : Bookmarks) (id : UInt64) (input : BookmarkInput) : Except BookmarkError Bookmarks :=
  if store.entries.any fun b => b.id = id then
    .ok { store with entries := Keyed.modifyFirst Bookmark.id id (fun _ => input.bookmark id) store.entries }
  else .error (.notFound id)

def remove (store : Bookmarks) (id : UInt64) : Bookmarks :=
  { store with entries := Keyed.erase Bookmark.id id store.entries }

/-- `save`, where the sibling that is renamed has this mode; none where a step before or the renaming fails. -/
def save (store : Bookmarks) (mode : Option UInt32) (file : Option BookmarkFile) :
    Except BookmarkError Unit × Option BookmarkFile :=
  match mode with
  | none => (.error (.io store.path), file)
  | some mode => (.ok (), some ⟨some ⟨bookmarksVersion, store.nextId, store.entries⟩, mode⟩)

end Bookmarks

/-! ## Commands -/

inductive BookmarkCommand where
  | bookmarks
  | addBookmark (bookmark : BookmarkInput)
  | updateBookmark (id : UInt64) (bookmark : BookmarkInput)
  | removeBookmark (id : UInt64)

/-- A command, and what becomes of its reading and its writing. -/
structure BookmarkCall where
  command : BookmarkCommand
  fault : Option ReadFault
  saved : Option UInt32

/-- What a command does to the store it has opened. -/
def BookmarkCommand.apply (store : Bookmarks) : BookmarkCommand → Except BookmarkError Bookmarks
  | .bookmarks => .ok store
  | .addBookmark bookmark => .ok (store.add bookmark)
  | .updateBookmark id bookmark => store.update id bookmark
  | .removeBookmark id => .ok (store.remove id)

/-- The commands of the desktop client, each on the store that it opens. -/
def BookmarkCall.exec (path : String) (call : BookmarkCall) (file : Option BookmarkFile) :
    Except BookmarkError (List Bookmark) × Option BookmarkFile :=
  match Bookmarks.openFile path file call.fault with
  | .error e => (.error e, file)
  | .ok store =>
    match call.command with
    | .bookmarks => (.ok store.entries, file)
    | command =>
      match command.apply store with
      | .error e => (.error e, file)
      | .ok store =>
        match store.save call.saved file with
        | (.error e, file) => (.error e, file)
        | (.ok (), file) => (.ok store.entries, file)

def bookmarksIn : Option BookmarkFile → List Bookmark
  | some ⟨some stored, _⟩ => stored.entries
  | _ => []

def bookmarkCounter : Option BookmarkFile → UInt64
  | some ⟨some stored, _⟩ => stored.nextId
  | _ => 1

def BookmarkStep (path : String) (file : Option BookmarkFile) (call : BookmarkCall) (file' : Option BookmarkFile) :
    Prop :=
  (call.exec path file).2 = file'

/-- The counter does not run over. -/
def CounterSpare (file : Option BookmarkFile) (_ : BookmarkCall) : Prop := (bookmarkCounter file).toNat + 1 < UInt64.size

instance (file : Option BookmarkFile) (call : BookmarkCall) : Decidable (CounterSpare file call) :=
  inferInstanceAs (Decidable (_ < _))

/-- No two bookmarks share a number, and all are below the counter. -/
structure Numbered (file : Option BookmarkFile) : Prop where
  unique : Keyed.Unique Bookmark.id (bookmarksIn file)
  below : ∀ b ∈ bookmarksIn file, b.id.toNat < (bookmarkCounter file).toNat
  positive : 0 < (bookmarkCounter file).toNat

/-- No number that has been given out is given out again. -/
structure Advances (file file' : Option BookmarkFile) : Prop where
  counter : (bookmarkCounter file).toNat ≤ (bookmarkCounter file').toNat
  old : ∀ b ∈ bookmarksIn file', b.id.toNat < (bookmarkCounter file).toNat → ∃ a ∈ bookmarksIn file, a.id = b.id

theorem Numbered.absent : Numbered none where
  unique := .nil
  below := nofun
  positive := Nat.zero_lt_one

theorem Advances.refl (file : Option BookmarkFile) : Advances file file :=
  ⟨Nat.le_refl _, fun b hb _ => ⟨b, hb, rfl⟩⟩

theorem Advances.trans {file file' file'' : Option BookmarkFile} (h : Advances file file')
    (h' : Advances file' file'') : Advances file file'' where
  counter := h.counter.trans h'.counter
  old b hb hlt := by
    obtain ⟨a, ha, hid⟩ := h'.old b hb (Nat.lt_of_lt_of_le hlt h.counter)
    obtain ⟨a', ha', hid'⟩ := h.old a ha (hid ▸ hlt)
    exact ⟨a', ha', hid'.trans hid⟩

theorem foldl_max_lt {n : UInt64} {ids : List UInt64} {m : UInt64} (hm : m < n) (h : ∀ id ∈ ids, id < n) :
    ids.foldl max m < n := by
  induction ids generalizing m with
  | nil => exact hm
  | cons id ids ih =>
    rw [List.foldl_cons]
    apply ih
    · have hid := h id List.mem_cons_self
      rw [show max m id = if m ≤ id then id else m from rfl]
      split
      · exact hid
      · exact hm
    · exact fun id' hid' => h id' (List.mem_cons_of_mem _ hid')

/-- Opening a numbered file leaves its counter as it is. -/
theorem Numbered.openFile {path : String} {file : Option BookmarkFile} (h : Numbered file) {fault : Option ReadFault}
    {store : Bookmarks} (hopen : Bookmarks.openFile path file fault = .ok store) :
    store = ⟨path, bookmarkCounter file, bookmarksIn file⟩ := by
  unfold Bookmarks.openFile at hopen
  by_cases hfault : fault = some .reading
  · rw [if_pos hfault] at hopen
    cases hopen
  · rw [if_neg hfault] at hopen
    rcases file with _ | ⟨_ | stored, mode⟩
    · exact (Except.ok.inj hopen).symm
    · cases hcheck : Bookmarks.checkPermissions path mode fault <;>
        simp only [hcheck] at hopen <;> cases hopen
    · cases hcheck : Bookmarks.checkPermissions path mode fault with
      | error e => simp only [hcheck] at hopen; cases hopen
      | ok _ =>
        simp only [hcheck] at hopen
        by_cases hversion : stored.version ≠ bookmarksVersion
        · exact absurd (hopen : (if _ then _ else _) = _) (by rw [if_pos hversion]; nofun)
        · have hopen : (if stored.version ≠ bookmarksVersion then _ else _) = Except.ok store := hopen
          rw [if_neg hversion] at hopen
          have hlt : (stored.entries.map Bookmark.id).foldl max 0 < stored.nextId := by
            apply foldl_max_lt h.positive
            intro id hid
            obtain ⟨b, hb, rfl⟩ := List.mem_map.mp hid
            exact h.below b hb
          have hle : (stored.entries.map Bookmark.id).foldl max 0 + 1 ≤ stored.nextId := by
            generalize (stored.entries.map Bookmark.id).foldl max 0 = highest at hlt
            rw [UInt64.lt_iff_toNat_lt] at hlt
            rw [UInt64.le_iff_toNat_le, UInt64.toNat_add]
            have := stored.nextId.toNat_lt
            have : (1 : UInt64).toNat = 1 := rfl
            omega
          have hmax : max stored.nextId ((stored.entries.map Bookmark.id).foldl max 0 + 1) = stored.nextId := by
            generalize (stored.entries.map Bookmark.id).foldl max 0 + 1 = above at hle
            rw [show max stored.nextId above = if stored.nextId ≤ above then above else stored.nextId from rfl]
            split
            · rename_i hge
              exact UInt64.le_antisymm hle hge
            · rfl
          rw [hmax] at hopen
          exact (Except.ok.inj hopen).symm

/-- What a command that is not refused does. -/
inductive BookmarkEffect (file : Option BookmarkFile) : BookmarkCommand → List Bookmark → UInt64 → Prop where
  | bookmarks : BookmarkEffect file .bookmarks (bookmarksIn file) (bookmarkCounter file)
  | added (input : BookmarkInput) : BookmarkEffect file (.addBookmark input)
      (bookmarksIn file ++ [input.bookmark (bookmarkCounter file)]) (bookmarkCounter file + 1)
  | updated {id : UInt64} (input : BookmarkInput) (h : ∃ b ∈ bookmarksIn file, b.id = id) :
      BookmarkEffect file (.updateBookmark id input)
        (Keyed.modify Bookmark.id id (fun _ => input.bookmark id) (bookmarksIn file)) (bookmarkCounter file)
  | removed (id : UInt64) : BookmarkEffect file (.removeBookmark id)
      (Keyed.erase Bookmark.id id (bookmarksIn file)) (bookmarkCounter file)

theorem BookmarkCommand.apply_ok {path : String} {file : Option BookmarkFile} (h : Numbered file)
    {command : BookmarkCommand} {store : Bookmarks}
    (happly : command.apply ⟨path, bookmarkCounter file, bookmarksIn file⟩ = .ok store) :
    BookmarkEffect file command store.entries store.nextId := by
  cases command with
  | bookmarks => exact Except.ok.inj happly ▸ .bookmarks
  | addBookmark input => exact Except.ok.inj happly ▸ .added input
  | removeBookmark id => exact Except.ok.inj happly ▸ .removed id
  | updateBookmark id input =>
    have happly : Bookmarks.update ⟨path, bookmarkCounter file, bookmarksIn file⟩ id input = .ok store := happly
    unfold Bookmarks.update at happly
    split at happly
    · rename_i hany
      obtain rfl := Except.ok.inj happly
      simp only [List.any_eq_true, decide_eq_true_eq] at hany
      simp only [Keyed.modifyFirst_eq id h.unique]
      exact .updated input hany
    · cases happly

/-- A call is refused and leaves the file, or answers what the file then holds. -/
theorem BookmarkCall.exec_cases {path : String} {call : BookmarkCall} {file : Option BookmarkFile} (h : Numbered file) :
    ((∃ e, (call.exec path file).1 = .error e) ∧ (call.exec path file).2 = file) ∨
    ((call.exec path file).1 = .ok (bookmarksIn (call.exec path file).2) ∧
      BookmarkEffect file call.command (bookmarksIn (call.exec path file).2)
        (bookmarkCounter (call.exec path file).2)) := by
  obtain ⟨command, fault, saved⟩ := call
  unfold exec
  cases hopen : Bookmarks.openFile path file fault with
  | error e => exact .inl ⟨⟨e, rfl⟩, rfl⟩
  | ok store =>
    obtain rfl := h.openFile hopen
    cases command with
    | bookmarks => exact .inr ⟨rfl, .bookmarks⟩
    | _ =>
      dsimp only
      split
      · rename_i e _
        exact .inl ⟨⟨e, rfl⟩, rfl⟩
      · rename_i store happly
        have heffect := BookmarkCommand.apply_ok h happly
        cases saved with
        | none => exact .inl ⟨⟨_, rfl⟩, rfl⟩
        | some mode => exact .inr ⟨rfl, heffect⟩

theorem BookmarkEffect.numbered {file file' : Option BookmarkFile} {command : BookmarkCommand} (h : Numbered file)
    (hspare : (bookmarkCounter file).toNat + 1 < UInt64.size)
    (heffect : BookmarkEffect file command (bookmarksIn file') (bookmarkCounter file')) :
    Numbered file' ∧ Advances file file' := by
  generalize hl : bookmarksIn file' = l at heffect
  generalize hn : bookmarkCounter file' = n at heffect
  cases heffect with
  | bookmarks =>
    exact ⟨⟨hl ▸ h.unique, hl ▸ hn ▸ h.below, hn ▸ h.positive⟩, hn ▸ Nat.le_refl _, hl ▸ fun b hb _ => ⟨b, hb, rfl⟩⟩
  | added input =>
    have hnext : (bookmarkCounter file + 1).toNat = (bookmarkCounter file).toNat + 1 := by
      rw [UInt64.toNat_add]
      exact Nat.mod_eq_of_lt hspare
    have hnew : ∀ b ∈ bookmarksIn file, b.id ≠ bookmarkCounter file := by
      intro b hb heq
      exact absurd (heq ▸ h.below b hb) (Nat.lt_irrefl _)
    have hmem : ∀ b ∈ bookmarksIn file ++ [input.bookmark (bookmarkCounter file)],
        b ∈ bookmarksIn file ∨ b.id = bookmarkCounter file := by
      intro b hb
      rcases List.mem_append.mp hb with hb | hb
      · exact .inl hb
      · exact .inr (List.mem_singleton.mp hb ▸ rfl)
    refine ⟨⟨hl ▸ h.unique.append_new hnew, hl ▸ hn ▸ fun b hb => ?_, ?_⟩, ?_, hl ▸ fun b hb hlt => ?_⟩
    · rcases hmem b hb with hb | hid
      · rw [hnext]
        exact Nat.lt_succ_of_lt (h.below b hb)
      · rw [hnext, hid]
        exact Nat.lt_succ_self _
    · rw [hn, hnext]
      exact Nat.succ_pos _
    · rw [hn, hnext]
      exact Nat.le_succ _
    · rcases hmem b hb with hb | hid
      · exact ⟨b, hb, rfl⟩
      · exact absurd (hid ▸ hlt) (Nat.lt_irrefl _)
  | @updated id input hid =>
    have hmem : ∀ b ∈ Keyed.modify Bookmark.id id (fun _ => input.bookmark id) (bookmarksIn file),
        ∃ a ∈ bookmarksIn file, a.id = b.id := by
      intro b hb
      obtain ⟨a, ha, rfl⟩ := List.mem_map.mp hb
      refine ⟨a, ha, ?_⟩
      split
      · assumption
      · rfl
    refine ⟨⟨hl ▸ h.unique.modify_at fun _ _ => rfl, hl ▸ hn ▸ fun b hb => ?_, hn ▸ h.positive⟩, hn ▸ Nat.le_refl _,
      hl ▸ fun b hb _ => hmem b hb⟩
    obtain ⟨a, ha, hab⟩ := hmem b hb
    exact hab ▸ h.below a ha
  | removed id =>
    exact ⟨⟨hl ▸ h.unique.erase id, hl ▸ hn ▸ fun b hb => h.below b (Keyed.mem_erase.mp hb).1, hn ▸ h.positive⟩,
      hn ▸ Nat.le_refl _, hl ▸ fun b hb _ => ⟨b, (Keyed.mem_erase.mp hb).1, rfl⟩⟩

theorem numbered_step {path : String} {file file' : Option BookmarkFile} {call : BookmarkCall} (h : Numbered file)
    (hspare : CounterSpare file call) (hst : BookmarkStep path file call file') :
    Numbered file' ∧ Advances file file' := by
  obtain rfl := hst
  rcases BookmarkCall.exec_cases h with ⟨-, heq⟩ | ⟨-, heffect⟩
  · rw [heq]
    exact ⟨h, .refl file⟩
  · exact heffect.numbered h hspare

theorem numbered_run {path : String} {file file' : Option BookmarkFile} (h : Numbered file)
    (hrun : Run (BookmarkStep path) CounterSpare file file') : Numbered file' ∧ Advances file file' := by
  apply hrun.invariant (fun f => Numbered f ∧ Advances file f) ⟨h, .refl file⟩
  intro f l f' hf hspare hst
  obtain ⟨hf', hadv⟩ := numbered_step hf.1 hspare hst
  exact ⟨hf', hf.2.trans hadv⟩

/-- The bookmarks that a command answers are those in its file, which are as they were but for its own edit; a command
that is refused changes nothing; and a bookmark that is added has a number that none before it has had. -/
theorem bookmark_commands_edit {path : String} {a b : Option BookmarkFile}
    (ha : Run (BookmarkStep path) CounterSpare none a) (hb : Run (BookmarkStep path) CounterSpare a b)
    (call : BookmarkCall) :
    (∀ e, (call.exec path b).1 = .error e → (call.exec path b).2 = b) ∧
    ∀ list, (call.exec path b).1 = .ok list → list = bookmarksIn (call.exec path b).2 ∧
      match call.command with
      | .bookmarks => list = bookmarksIn b
      | .addBookmark input => ∃ id, list = bookmarksIn b ++ [input.bookmark id] ∧ ∀ old ∈ bookmarksIn a, old.id ≠ id
      | .updateBookmark id input => (∃ old ∈ bookmarksIn b, old.id = id) ∧
          list = (bookmarksIn b).map fun old => if old.id = id then input.bookmark id else old
      | .removeBookmark id => list = (bookmarksIn b).filter fun old => old.id ≠ id := by
  have hna := (numbered_run .absent ha).1
  obtain ⟨hnb, hadv⟩ := numbered_run hna hb
  rcases BookmarkCall.exec_cases hnb with ⟨⟨e, he⟩, heq⟩ | ⟨hok, heffect⟩
  · exact ⟨fun _ _ => heq, fun list hlist => nomatch he.symm.trans hlist⟩
  · refine ⟨fun e he => (nomatch hok.symm.trans he), fun list hlist => ?_⟩
    obtain rfl := Except.ok.inj (hok.symm.trans hlist)
    refine ⟨rfl, ?_⟩
    generalize bookmarksIn (call.exec path b).2 = list at heffect
    generalize bookmarkCounter (call.exec path b).2 = n at heffect
    generalize call.command = command at heffect
    cases heffect with
    | bookmarks => rfl
    | added input =>
      refine ⟨bookmarkCounter b, rfl, fun old hold heq => ?_⟩
      have hlt := Nat.lt_of_lt_of_le (hna.below old hold) hadv.counter
      exact absurd (heq ▸ hlt) (Nat.lt_irrefl _)
    | updated input hid => exact ⟨hid, rfl⟩
    | removed id => rfl

def friends : BookmarkInput := ⟨"Friends", "example.com:42071", some "", none⟩

/-- A removed bookmark's number goes to none that is added later. -/
theorem bookmark_commands_edit_friends : ∃ a b list, Run (BookmarkStep "bookmarks.json") CounterSpare none a ∧
    Run (BookmarkStep "bookmarks.json") CounterSpare a b ∧
    (BookmarkCall.exec "bookmarks.json" ⟨.addBookmark friends, none, some 0o600⟩ b).1 = .ok list ∧
    (∃ old ∈ bookmarksIn a, old.id = 2) ∧ (∀ old ∈ bookmarksIn b, old.id ≠ 2) ∧
    ∃ id, list = bookmarksIn b ++ [friends.bookmark id] ∧ ∀ old ∈ bookmarksIn a, old.id ≠ id := by
  have ha : Run (BookmarkStep "bookmarks.json") CounterSpare none
      (some ⟨some ⟨1, 3, [friends.bookmark 1, friends.bookmark 2]⟩, 0o600⟩) :=
    .step ⟨.addBookmark friends, none, some 0o600⟩
      (.step ⟨.addBookmark friends, none, some 0o600⟩ .refl (by decide) rfl) (by decide) rfl
  have hb : Run (BookmarkStep "bookmarks.json") CounterSpare
      (some ⟨some ⟨1, 3, [friends.bookmark 1, friends.bookmark 2]⟩, 0o600⟩)
      (some ⟨some ⟨1, 3, [friends.bookmark 1]⟩, 0o600⟩) :=
    .step ⟨.addBookmark friends, none, none⟩
      (.step ⟨.removeBookmark 2, none, some 0o600⟩ .refl (by decide) rfl) (by decide) rfl
  refine ⟨_, _, _, ha, hb, rfl, by decide, by decide, ?_⟩
  exact ((bookmark_commands_edit ha hb ⟨.addBookmark friends, none, some 0o600⟩).2 _ rfl).2

end PickleChat
