import Mathlib.Data.List.Sort
import Mathlib.Data.List.Nodup
import Mathlib.Order.Monotone.Basic

/-!
# Keyed lists and tables

A map is kept as the list of its entries, each carrying its own key. The
operations are those of a hash map or an ordered map, and of a table with a
primary key; every one has a lemma for what `get` reads afterwards.
-/

namespace Keyed

section
variable {α κ : Type} [DecidableEq κ] (key : α → κ)

def get (k : κ) (l : List α) : Option α := l.find? fun a => key a = k

def erase (k : κ) (l : List α) : List α := l.filter fun a => key a ≠ k

/-- Replace the entry with the key of `a`, or add it. -/
def put (a : α) (l : List α) : List α := erase key (key a) l ++ [a]

/-- `put` that keeps a list sorted by key sorted. -/
def putSorted [LE κ] [DecidableLE κ] (a : α) (l : List α) : List α :=
  (erase key (key a) l).orderedInsert (fun x y => key x ≤ key y) a

def modify (k : κ) (f : α → α) (l : List α) : List α := l.map fun a => if key a = k then f a else a

def modifyFirst (k : κ) (f : α → α) : List α → List α
  | [] => []
  | a :: l => if key a = k then f a :: l else a :: modifyFirst k f l

def Unique (l : List α) : Prop := (l.map key).Nodup

variable {key}

@[simp] theorem get_nil (k : κ) : get key k [] = none := rfl

theorem get_cons (k : κ) (a : α) (l : List α) :
    get key k (a :: l) = if key a = k then some a else get key k l := by
  unfold get
  rw [List.find?_cons]
  by_cases h : key a = k <;> simp [h]

theorem get_mem {k : κ} {l : List α} {a : α} (h : get key k l = some a) : a ∈ l :=
  List.mem_of_find?_eq_some h

theorem get_key {k : κ} {l : List α} {a : α} (h : get key k l = some a) : key a = k := by
  simpa using List.find?_some h

theorem get_eq_none {k : κ} {l : List α} : get key k l = none ↔ ∀ a ∈ l, key a ≠ k := by
  simp [get, List.find?_eq_none]

theorem get_isSome {k : κ} {l : List α} : (get key k l).isSome ↔ ∃ a ∈ l, key a = k := by
  simp [get, List.find?_isSome]

theorem get_of_mem {l : List α} (hu : Unique key l) {a : α} (ha : a ∈ l) : get key (key a) l = some a := by
  induction l with
  | nil => cases ha
  | cons b l ih =>
    rw [get_cons]
    obtain ⟨hb, hl⟩ := List.nodup_cons.mp hu
    rcases List.mem_cons.mp ha with rfl | ha
    · simp
    · have hne : key b ≠ key a := fun e => hb (e ▸ List.mem_map_of_mem ha)
      simp [hne, ih hl ha]

theorem get_eq_some {l : List α} (hu : Unique key l) {k : κ} {a : α} :
    get key k l = some a ↔ a ∈ l ∧ key a = k :=
  ⟨fun h => ⟨get_mem h, get_key h⟩, fun ⟨ha, hk⟩ => hk ▸ get_of_mem hu ha⟩

theorem eq_of_key {l : List α} (hu : Unique key l) {a b : α} (ha : a ∈ l) (hb : b ∈ l)
    (h : key a = key b) : a = b := by
  have := get_of_mem hu ha
  rw [h, get_of_mem hu hb] at this
  exact (Option.some.inj this).symm

/-- Where only the entry of one key yields anything. -/
theorem flatMap_of_get {β : Type} {l : List α} (hu : Unique key l) {k : κ} {a : α} (h : get key k l = some a)
    {f : α → List β} (hf : ∀ b ∈ l, key b ≠ k → f b = []) : l.flatMap f = f a := by
  induction l with
  | nil => cases h
  | cons b l ih =>
    obtain ⟨hb, hu⟩ := List.nodup_cons.mp hu
    rw [get_cons] at h
    rw [List.flatMap_cons]
    split at h
    · rename_i hk
      cases h
      have hnil : l.flatMap f = [] := by
        refine List.flatMap_eq_nil_iff.mpr fun c hc => hf c (List.mem_cons_of_mem _ hc) fun he => hb ?_
        exact List.mem_map.mpr ⟨c, hc, he.trans hk.symm⟩
      rw [hnil, List.append_nil]
    · rename_i hk
      rw [hf b (List.mem_cons_self ..) hk, List.nil_append]
      exact ih hu h fun c hc => hf c (List.mem_cons_of_mem _ hc)

/-- `get` reads a keyed list as a set of entries. -/
theorem get_congr {l l' : List α} (hu : Unique key l) (hu' : Unique key l') (h : ∀ a, a ∈ l ↔ a ∈ l')
    (k : κ) : get key k l = get key k l' := by
  ext a
  rw [get_eq_some hu, get_eq_some hu', h]

theorem get_append (k : κ) (l l' : List α) :
    get key k (l ++ l') = (get key k l).or (get key k l') := by
  simp [get, List.find?_append]

theorem get_map {β : Type} {key' : β → κ} {f : α → β} (hf : ∀ a, key' (f a) = key a) (k : κ) (l : List α) :
    get key' k (l.map f) = (get key k l).map f := by
  simp only [get, List.find?_map, Function.comp_def, hf]

theorem get_modify_at {f : α → α} {k : κ} (hf : ∀ a, key a = k → key (f a) = k) (j : κ) (l : List α) :
    get key j (modify key k f l) = if j = k then (get key j l).map f else get key j l := by
  have hk : ∀ a, key (if key a = k then f a else a) = key a := fun a => by
    split
    · rename_i ha
      rw [hf a ha, ha]
    · rfl
  unfold modify
  rw [get_map hk]
  by_cases h : j = k
  · subst h
    cases hg : get key j l with
    | none => simp
    | some a => simp [get_key hg]
  · cases hg : get key j l with
    | none => simp
    | some a => simp [get_key hg, h]

theorem get_modify {f : α → α} (hf : ∀ a, key (f a) = key a) (j k : κ) (l : List α) :
    get key j (modify key k f l) = if j = k then (get key j l).map f else get key j l :=
  get_modify_at (fun a ha => (hf a).trans ha) j l

theorem modifyFirst_eq {f : α → α} (k : κ) :
    ∀ {l : List α}, Unique key l → modifyFirst key k f l = modify key k f l
  | [], _ => rfl
  | a :: l, hu => by
    obtain ⟨ha, hl⟩ := List.nodup_cons.mp hu
    by_cases hk : key a = k
    · have hn : ∀ b ∈ l, key b ≠ k := fun b hb e => ha (hk ▸ e ▸ List.mem_map_of_mem hb)
      have hm : modify key k f l = l := by
        unfold modify
        exact (List.map_congr_left fun b hb => if_neg (hn b hb)).trans (List.map_id l)
      simp only [modifyFirst, hk, if_pos, modify, List.map_cons]
      exact congrArg _ hm.symm
    · simp only [modifyFirst, hk, if_false, modify, List.map_cons]
      exact congrArg _ (modifyFirst_eq k hl)

theorem map_modifyFirst {β : Type} {g : α → β} {f : α → α} {k : κ} (hf : ∀ a, key a = k → g (f a) = g a)
    (l : List α) : (modifyFirst key k f l).map g = l.map g := by
  induction l with
  | nil => rfl
  | cons a l ih =>
    unfold modifyFirst
    by_cases hk : key a = k
    · simp [hk, hf a hk]
    · simp [hk, ih]

theorem map_key_modifyFirst {f : α → α} {k : κ} (hf : ∀ a, key a = k → key (f a) = k) (l : List α) :
    (modifyFirst key k f l).map key = l.map key :=
  map_modifyFirst (fun a ha => (hf a ha).trans ha.symm) l

theorem get_modifyFirst {f : α → α} {k : κ} (hf : ∀ a, key a = k → key (f a) = k) (j : κ) (l : List α) :
    get key j (modifyFirst key k f l) = if j = k then (get key j l).map f else get key j l := by
  induction l with
  | nil => simp [modifyFirst]
  | cons a l ih =>
    unfold modifyFirst
    by_cases ha : key a = k
    · rw [if_pos ha, get_cons, get_cons, hf a ha, ha]
      by_cases hj : j = k
      · simp [hj]
      · simp [hj, Ne.symm hj]
    · rw [if_neg ha, get_cons, get_cons, ih]
      by_cases hj : key a = j
      · simp [hj, show j ≠ k from hj ▸ ha]
      · simp [hj]

theorem mem_erase {k : κ} {l : List α} {a : α} : a ∈ erase key k l ↔ a ∈ l ∧ key a ≠ k := by
  simp [erase]

theorem get_erase (j k : κ) (l : List α) :
    get key j (erase key k l) = if j = k then none else get key j l := by
  by_cases h : j = k
  · subst h
    rw [if_pos rfl, get_eq_none]
    exact fun a ha => (mem_erase.mp ha).2
  · rw [if_neg h]
    unfold get erase
    rw [List.find?_filter]
    congr 1
    funext a
    by_cases ha : key a = j
    · simp [ha, h]
    · simp [ha]

theorem mem_put {a b : α} {l : List α} : b ∈ put key a l ↔ b = a ∨ (b ∈ l ∧ key b ≠ key a) := by
  simp [put, mem_erase, or_comm]

theorem get_put (k : κ) (a : α) (l : List α) :
    get key k (put key a l) = if k = key a then some a else get key k l := by
  unfold put
  rw [get_append, get_erase]
  by_cases h : k = key a
  · subst h; simp [get_cons]
  · simp [h, get_cons, Ne.symm h]

theorem find?_orderedInsert (r : α → α → Prop) [DecidableRel r] (p : α → Bool) (a : α) :
    ∀ l : List α, (∀ b ∈ l, p a = true → p b = false) →
      (l.orderedInsert r a).find? p = if p a then some a else l.find? p
  | [], _ => by cases h : p a <;> simp [h]
  | b :: l, h => by
    rw [List.orderedInsert_cons]
    split
    · rw [List.find?_cons]; cases p a <;> simp
    · have ih := find?_orderedInsert r p a l fun c hc => h c (by simp [hc])
      rw [List.find?_cons, List.find?_cons, ih]
      cases hb : p b with
      | false => simp
      | true =>
        have : p a = false := by
          by_contra hp
          have := h b (by simp) (by simpa using hp)
          simp [hb] at this
        simp [this]

section
variable [LE κ] [DecidableLE κ]

theorem mem_putSorted {a b : α} {l : List α} :
    b ∈ putSorted key a l ↔ b = a ∨ (b ∈ l ∧ key b ≠ key a) := by
  simp [putSorted, List.mem_orderedInsert, mem_erase]

theorem get_putSorted (k : κ) (a : α) (l : List α) :
    get key k (putSorted key a l) = if k = key a then some a else get key k l := by
  have h : get key k (putSorted key a l) = if key a = k then some a else get key k (erase key (key a) l) := by
    unfold get putSorted
    rw [find?_orderedInsert]
    · simp
    · intro b hb ha
      have := (mem_erase.mp hb).2
      simp only [decide_eq_true_eq] at ha
      simpa [← ha] using this
  rw [h, get_erase]
  by_cases hk : key a = k
  · simp [hk]
  · simp [hk, Ne.symm hk]

end

/-! ## Keys stay unique -/

omit [DecidableEq κ] in
theorem Unique.nil : Unique key ([] : List α) := List.nodup_nil

omit [DecidableEq κ] in
theorem Unique.filter {l : List α} (hu : Unique key l) (p : α → Bool) : Unique key (l.filter p) :=
  List.Nodup.sublist (List.Sublist.map key List.filter_sublist) hu

theorem Unique.erase {l : List α} (hu : Unique key l) (k : κ) : Unique key (erase key k l) :=
  hu.filter _

omit [DecidableEq κ] in
theorem Unique.map {l : List α} (hu : Unique key l) {f : α → α} (hf : ∀ a, key (f a) = key a) :
    Unique key (l.map f) := by
  unfold Unique
  rw [List.map_map, show key ∘ f = key from funext hf]
  exact hu

theorem Unique.modify {l : List α} (hu : Unique key l) {f : α → α} (hf : ∀ a, key (f a) = key a) (k : κ) :
    Unique key (modify key k f l) :=
  hu.map fun a => by split <;> simp [hf]

theorem Unique.modify_at {l : List α} (hu : Unique key l) {f : α → α} {k : κ} (hf : ∀ a, key a = k → key (f a) = k) :
    Unique key (Keyed.modify key k f l) := by
  have hkeys : (Keyed.modify key k f l).map key = l.map key := by
    unfold Keyed.modify
    rw [List.map_map]
    apply List.map_congr_left
    intro a _
    rw [Function.comp_apply]
    split
    · rename_i ha
      rw [hf a ha, ha]
    · rfl
  unfold Unique
  rw [hkeys]
  exact hu

/-- Keyed lists that read the same hold the same entries. -/
theorem perm_of_get {l l' : List α} (hu : Unique key l) (hu' : Unique key l') (h : ∀ k, get key k l = get key k l') :
    l.Perm l' := by
  apply (List.perm_ext_iff_of_nodup (List.Nodup.of_map key hu) (List.Nodup.of_map key hu')).mpr
  intro a
  have hiff : get key (key a) l = some a ↔ get key (key a) l' = some a := by rw [h]
  rw [get_eq_some hu, get_eq_some hu'] at hiff
  simpa using hiff

omit [DecidableEq κ] in
theorem Unique.perm {l l' : List α} (hu : Unique key l) (h : l.Perm l') : Unique key l' :=
  ((h.map key).nodup_iff).mp hu

omit [DecidableEq κ] in
theorem Unique.append_new {l : List α} (hu : Unique key l) {a : α} (ha : ∀ b ∈ l, key b ≠ key a) :
    Unique key (l ++ [a]) := by
  unfold Unique
  rw [List.map_append, List.nodup_append]
  refine ⟨hu, by simp, ?_⟩
  intro x hx y hy
  obtain ⟨b, hb, rfl⟩ := List.mem_map.mp hx
  rw [List.map_singleton, List.mem_singleton] at hy
  exact hy ▸ ha b hb

theorem Unique.put {l : List α} (hu : Unique key l) (a : α) : Unique key (put key a l) :=
  (hu.erase _).append_new fun _ hb => (mem_erase.mp hb).2

theorem put_of_new {l : List α} {a : α} (ha : ∀ b ∈ l, key b ≠ key a) : put key a l = l ++ [a] := by
  unfold put
  rw [erase, List.filter_eq_self.mpr fun b hb => by simpa using ha b hb]

/-- Putting entries one by one. -/
theorem foldl_put {l m : List α} (hu : Unique key (m ++ l)) : l.foldl (fun m a => put key a m) m = m ++ l := by
  induction l generalizing m with
  | nil => simp
  | cons a l ih =>
    have hsplit : m ++ a :: l = m ++ [a] ++ l := by simp
    rw [hsplit] at hu
    have hnew : ∀ b ∈ m, key b ≠ key a := by
      intro b hb he
      unfold Unique at hu
      rw [List.map_append, List.map_append] at hu
      have hdisj := (List.nodup_append.mp (List.nodup_append.mp hu).1).2.2
      exact hdisj (key b) (List.mem_map_of_mem hb) (key a) (by simp) he
    rw [List.foldl_cons, put_of_new hnew, ih hu, hsplit]

theorem Unique.putSorted [LE κ] [DecidableLE κ] {l : List α} (hu : Unique key l) (a : α) :
    Unique key (putSorted key a l) :=
  (hu.put a).perm (List.perm_append_singleton a _ |>.trans (List.perm_orderedInsert _ a _).symm)

/-! ## Ordered maps -/

section
variable [LE κ] [LT κ] [DecidableLE κ] [Std.IsLinearOrder κ] [Std.LawfulOrderLT κ]

omit [DecidableEq κ] [DecidableLE κ] [Std.IsLinearOrder κ] in
theorem Unique.of_sorted {l : List α} (h : l.Pairwise fun a b => key a < key b) : Unique key l := by
  apply List.pairwise_map.mpr
  apply h.imp
  intro a b hlt he
  rw [he] at hlt
  exact Std.lt_irrefl hlt

omit [DecidableEq κ] [DecidableLE κ] in
theorem sorted_of_le {l : List α} (hu : Unique key l) (h : l.Pairwise fun a b => key a ≤ key b) :
    l.Pairwise fun a b => key a < key b :=
  (h.and (List.pairwise_map.mp hu)).imp fun ⟨hle, hne⟩ => Std.lt_of_le_of_ne hle hne

theorem putSorted_sorted {l : List α} (h : l.Pairwise fun a b => key a < key b) (a : α) :
    (putSorted key a l).Pairwise fun a b => key a < key b := by
  apply sorted_of_le ((Unique.of_sorted h).putSorted a)
  apply List.Pairwise.orderedInsert
  exact (h.imp Std.le_of_lt).filter _

theorem foldl_putSorted {l : List α} (hu : Unique key l) {m : List α} (hm : m.Pairwise fun a b => key a < key b)
    (hnew : ∀ a ∈ l, ∀ b ∈ m, key b ≠ key a) :
    ((l.foldl (fun m a => putSorted key a m) m).Pairwise fun a b => key a < key b) ∧
      ∀ a, a ∈ l.foldl (fun m a => putSorted key a m) m ↔ a ∈ m ∨ a ∈ l := by
  induction l generalizing m with
  | nil => simp [hm]
  | cons a l ih =>
    obtain ⟨ha, hu⟩ := List.nodup_cons.mp hu
    have hmem : ∀ b, b ∈ putSorted key a m ↔ b = a ∨ b ∈ m := by
      intro b
      rw [mem_putSorted]
      exact or_congr_right ⟨And.left, fun hb => ⟨hb, hnew a (by simp) b hb⟩⟩
    have hnew' : ∀ c ∈ l, ∀ b ∈ putSorted key a m, key b ≠ key c := by
      intro c hc b hb
      rcases (hmem b).mp hb with rfl | hb
      · exact fun e => ha (e ▸ List.mem_map_of_mem hc)
      · exact hnew c (by simp [hc]) b hb
    obtain ⟨hs, hiff⟩ := ih hu (putSorted_sorted hm a) hnew'
    refine ⟨hs, fun b => ?_⟩
    rw [List.foldl_cons, hiff, hmem, List.mem_cons]
    tauto

omit [DecidableEq κ] [DecidableLE κ] [Std.IsLinearOrder κ] in
/-- A sorted list is its set of entries. -/
theorem eq_of_sorted {l l' : List α} (hs : l.Pairwise fun a b => key a < key b)
    (hs' : l'.Pairwise fun a b => key a < key b) (h : ∀ a, a ∈ l ↔ a ∈ l') : l = l' := by
  have hnodup := List.Nodup.of_map key (Unique.of_sorted hs)
  have hnodup' := List.Nodup.of_map key (Unique.of_sorted hs')
  refine List.Perm.eq_of_pairwise ?_ hs hs' ((List.perm_ext_iff_of_nodup hnodup hnodup').mpr h)
  intro a b _ _ hab hba
  exact absurd hba (Std.not_lt_of_ge (Std.le_of_lt hab))

omit [DecidableLE κ] [Std.IsLinearOrder κ] in
theorem eq_of_get {l l' : List α} (hs : l.Pairwise fun a b => key a < key b)
    (hs' : l'.Pairwise fun a b => key a < key b) (h : ∀ k, get key k l = get key k l') : l = l' := by
  refine eq_of_sorted hs hs' fun a => ?_
  have hiff : get key (key a) l = some a ↔ get key (key a) l' = some a := by rw [h]
  rw [get_eq_some (.of_sorted hs), get_eq_some (.of_sorted hs')] at hiff
  simpa using hiff

theorem foldl_putSorted_perm {l l' : List α} (hp : l.Perm l') (hu : Unique key l) :
    l.foldl (fun m a => putSorted key a m) [] = l'.foldl (fun m a => putSorted key a m) [] := by
  obtain ⟨hs, hmem⟩ := foldl_putSorted hu List.Pairwise.nil (by simp)
  obtain ⟨hs', hmem'⟩ := foldl_putSorted (hu.perm hp) List.Pairwise.nil (by simp)
  refine eq_of_sorted hs hs' fun a => ?_
  rw [hmem, hmem', hp.mem_iff]

end

end

/-- An ordered map, as its entries in ascending order of their keys. -/
structure OrdMap (κ α : Type) [LT κ] where
  entries : List (κ × α)
  sorted : entries.Pairwise fun a b => a.1 < b.1

namespace OrdMap
variable {κ α : Type} [LinearOrder κ]

@[ext] theorem ext {m m' : OrdMap κ α} (h : m.entries = m'.entries) : m = m' := by
  cases m; cases m'; cases h; rfl

def empty : OrdMap κ α := ⟨[], .nil⟩

def size (m : OrdMap κ α) : Nat := m.entries.length

def get (m : OrdMap κ α) (k : κ) : Option α := (Keyed.get Prod.fst k m.entries).map Prod.snd

def insert (m : OrdMap κ α) (k : κ) (a : α) : OrdMap κ α :=
  ⟨putSorted Prod.fst (k, a) m.entries, putSorted_sorted m.sorted (k, a)⟩

def remove (m : OrdMap κ α) (k : κ) : OrdMap κ α := ⟨erase Prod.fst k m.entries, m.sorted.filter _⟩

def firstKey (m : OrdMap κ α) : Option κ := m.entries.head?.map Prod.fst

theorem mem_insert {m : OrdMap κ α} {k : κ} {a : α} {e : κ × α} :
    e ∈ (m.insert k a).entries ↔ e = (k, a) ∨ (e ∈ m.entries ∧ e.1 ≠ k) :=
  mem_putSorted

theorem mem_remove {m : OrdMap κ α} {k : κ} {e : κ × α} :
    e ∈ (m.remove k).entries ↔ e ∈ m.entries ∧ e.1 ≠ k :=
  mem_erase

theorem mem_of_get {m : OrdMap κ α} {k : κ} {a : α} (h : m.get k = some a) : (k, a) ∈ m.entries := by
  obtain ⟨e, he, rfl⟩ := Option.map_eq_some_iff.mp h
  rw [← get_key he]
  exact get_mem he

theorem mem_of_firstKey {m : OrdMap κ α} {k : κ} (h : m.firstKey = some k) : ∃ a, (k, a) ∈ m.entries := by
  obtain ⟨e, he, rfl⟩ := Option.map_eq_some_iff.mp h
  exact ⟨e.2, List.mem_of_head? he⟩

/-! At either end. -/

theorem get_first {m : OrdMap κ α} {k : κ} {a : α} {l : List (κ × α)} (h : m.entries = (k, a) :: l) :
    m.get k = some a := by
  simp [get, h, get_cons]

theorem entries_remove_first {m : OrdMap κ α} {k : κ} {a : α} {l : List (κ × α)} (h : m.entries = (k, a) :: l) :
    (m.remove k).entries = l := by
  have hlt := (List.pairwise_cons.mp (h ▸ m.sorted)).1
  have hne : ∀ e ∈ l, e.1 ≠ k := fun e he => ne_of_gt (hlt e he)
  simpa [remove, erase, h] using hne

theorem entries_insert_last {m : OrdMap κ α} {k : κ} (h : ∀ e ∈ m.entries, e.1 < k) (a : α) :
    (m.insert k a).entries = m.entries ++ [(k, a)] := by
  refine eq_of_sorted (m.insert k a).sorted ?_ fun e => ?_
  · apply List.pairwise_append.mpr
    refine ⟨m.sorted, List.pairwise_singleton _ _, fun e he e' he' => ?_⟩
    rw [List.mem_singleton.mp he']
    exact h e he
  · rw [mem_insert, List.mem_append, List.mem_singleton, or_comm]
    exact or_congr_left ⟨And.left, fun he => ⟨he, ne_of_lt (h e he)⟩⟩

/-! What goes in and what comes out. -/

theorem remove_of_get_none {m : OrdMap κ α} {k : κ} (h : m.get k = none) : m.remove k = m := by
  apply ext
  apply List.filter_eq_self.mpr
  intro e he
  simpa using Keyed.get_eq_none.mp (Option.map_eq_none_iff.mp h) e he

theorem perm_of_mem {m : OrdMap κ α} {k : κ} {a : α} (h : (k, a) ∈ m.entries) :
    m.entries.Perm ((k, a) :: (m.remove k).entries) := by
  have hunique : Unique Prod.fst m.entries := .of_sorted m.sorted
  have hnodup := hunique.of_map
  have hout : (k, a) ∉ (m.remove k).entries := fun hmem => (mem_remove.mp hmem).2 rfl
  apply (List.perm_ext_iff_of_nodup hnodup (List.nodup_cons.mpr ⟨hout, hnodup.filter _⟩)).mpr
  intro e
  rw [List.mem_cons, mem_remove]
  constructor
  · intro he
    by_cases hk : e.1 = k
    · exact .inl (eq_of_key hunique he h hk)
    · exact .inr ⟨he, hk⟩
  · rintro (rfl | ⟨he, -⟩)
    · exact h
    · exact he

theorem insert_perm (m : OrdMap κ α) (k : κ) (a : α) :
    (m.insert k a).entries.Perm ((k, a) :: (m.remove k).entries) :=
  List.perm_orderedInsert _ _ _

theorem size_of_mem {m : OrdMap κ α} {k : κ} {a : α} (h : (k, a) ∈ m.entries) : m.size = (m.remove k).size + 1 :=
  (perm_of_mem h).length_eq

theorem size_insert (m : OrdMap κ α) (k : κ) (a : α) : (m.insert k a).size = (m.remove k).size + 1 :=
  (insert_perm m k a).length_eq

/-! Mapping the values. -/

section
variable {β : Type} (g : α → β)

def map (m : OrdMap κ α) : OrdMap κ β := ⟨m.entries.map fun e => (e.1, g e.2), List.pairwise_map.mpr m.sorted⟩

@[simp] theorem size_map (m : OrdMap κ α) : (m.map g).size = m.size := by
  simp [size, map]

theorem firstKey_map (m : OrdMap κ α) : (m.map g).firstKey = m.firstKey := by
  simp [firstKey, map, List.head?_map, Function.comp_def]

theorem get_map (m : OrdMap κ α) (k : κ) : (m.map g).get k = (m.get k).map g := by
  simp only [get, map, Keyed.get, List.find?_map, Function.comp_def, Option.map_map]

theorem remove_map (m : OrdMap κ α) (k : κ) : (m.map g).remove k = (m.remove k).map g := by
  apply ext
  simp only [remove, map, erase, List.filter_map, Function.comp_def]

theorem insert_map (m : OrdMap κ α) (k : κ) (a : α) : (m.map g).insert k (g a) = (m.insert k a).map g := by
  have he : erase Prod.fst k (m.map g).entries = (m.remove k).entries.map fun e => (e.1, g e.2) :=
    congrArg entries (remove_map g m k)
  apply ext
  simp only [insert, putSorted, he]
  exact (List.map_orderedInsert (fun x y : κ × α => x.1 ≤ y.1) (fun x y : κ × β => x.1 ≤ y.1)
    (fun e => (e.1, g e.2)) _ (k, a) (fun _ _ => Iff.rfl) (fun _ _ => Iff.rfl)).symm

end

/-! Renaming the keys by a monotone map. -/

section
variable {κ' : Type} [LinearOrder κ'] {f : κ → κ'} (hf : StrictMono f)

def mapKeys (m : OrdMap κ α) : OrdMap κ' α :=
  ⟨m.entries.map fun e => (f e.1, e.2), List.pairwise_map.mpr (m.sorted.imp fun h => hf h)⟩

@[simp] theorem size_mapKeys (m : OrdMap κ α) : (m.mapKeys hf).size = m.size := by
  simp [size, mapKeys]

@[simp] theorem mapKeys_empty : (empty : OrdMap κ α).mapKeys hf = empty := rfl

theorem firstKey_mapKeys (m : OrdMap κ α) : (m.mapKeys hf).firstKey = m.firstKey.map f := by
  simp [firstKey, mapKeys, List.head?_map, Function.comp_def]

theorem get_mapKeys (m : OrdMap κ α) (k : κ) : (m.mapKeys hf).get (f k) = m.get k := by
  simp only [get, mapKeys, Keyed.get, List.find?_map, Function.comp_def, hf.injective.eq_iff, Option.map_map]

theorem remove_mapKeys (m : OrdMap κ α) (k : κ) : (m.mapKeys hf).remove (f k) = (m.remove k).mapKeys hf := by
  apply ext
  simp only [remove, mapKeys, erase, List.filter_map, Function.comp_def, ne_eq, hf.injective.eq_iff]

theorem insert_mapKeys (m : OrdMap κ α) (k : κ) (a : α) :
    (m.mapKeys hf).insert (f k) a = (m.insert k a).mapKeys hf := by
  have he : erase Prod.fst (f k) (m.mapKeys hf).entries = (m.remove k).entries.map fun e => (f e.1, e.2) :=
    congrArg entries (remove_mapKeys hf m k)
  apply ext
  simp only [insert, putSorted, he]
  exact (List.map_orderedInsert (fun x y : κ × α => x.1 ≤ y.1) (fun x y : κ' × α => x.1 ≤ y.1)
    (fun e => (f e.1, e.2)) _ (k, a) (fun e _ => hf.le_iff_le.symm) (fun e _ => hf.le_iff_le.symm)).symm

end

end OrdMap

/-! ## Tables with a primary key -/

/-- The rows of a table in insertion order; no two share the primary key. -/
structure Table (α κ : Type) (key : α → κ) where
  rows : List α
  unique : (rows.map key).Nodup

namespace Table
variable {α κ : Type} [DecidableEq κ] {key : α → κ}

def empty : Table α κ key := ⟨[], List.nodup_nil⟩

/-- `INSERT`: refused when the key is taken. -/
def insert (t : Table α κ key) (a : α) : Option (Table α κ key) :=
  if h : ∀ b ∈ t.rows, key b ≠ key a then some ⟨t.rows ++ [a], Unique.append_new t.unique h⟩ else none

/-- `DELETE … WHERE p`. -/
def delete (t : Table α κ key) (p : α → Bool) : Table α κ key :=
  ⟨t.rows.filter fun a => !p a, Unique.filter t.unique _⟩

/-- `UPDATE … SET f WHERE key = k`, for an `f` that leaves the key alone. -/
def update (t : Table α κ key) (k : κ) (f : α → α) (hf : ∀ a, key (f a) = key a) : Table α κ key :=
  ⟨modify key k f t.rows, Unique.modify t.unique hf k⟩

/-- `INSERT … ON CONFLICT (key) DO UPDATE SET f`. -/
def upsert (t : Table α κ key) (a : α) (f : α → α) (hf : ∀ a, key (f a) = key a) : Table α κ key :=
  match t.insert a with
  | some t' => t'
  | none => t.update (key a) f hf

theorem insert_rows {t t' : Table α κ key} {a : α} (h : t.insert a = some t') :
    t'.rows = t.rows ++ [a] ∧ ∀ b ∈ t.rows, key b ≠ key a := by
  unfold insert at h
  split at h
  · rename_i hn; cases h; exact ⟨rfl, hn⟩
  · cases h

theorem insert_eq_none {t : Table α κ key} {a : α} (h : t.insert a = none) : ∃ b ∈ t.rows, key b = key a := by
  unfold insert at h
  split at h
  · cases h
  · rename_i hn; simpa using hn

theorem foldlM_insert {t : Table α κ key} {l : List α} (h : ((t.rows ++ l).map key).Nodup) :
    ∃ t', l.foldlM insert t = some t' := by
  induction l generalizing t with
  | nil => exact ⟨t, rfl⟩
  | cons a l ih =>
    cases hins : t.insert a with
    | none =>
      obtain ⟨b, hb, hk⟩ := insert_eq_none hins
      rw [List.map_append, List.nodup_append] at h
      exact absurd hk (h.2.2 _ (List.mem_map_of_mem hb) _ (by simp))
    | some t₁ =>
      obtain ⟨t', ht'⟩ := ih (t := t₁) (by rwa [(insert_rows hins).1, List.append_assoc])
      exact ⟨t', by rw [List.foldlM_cons, hins]; exact ht'⟩

omit [DecidableEq κ] in
theorem mem_delete {t : Table α κ key} {p : α → Bool} {a : α} :
    a ∈ (t.delete p).rows ↔ a ∈ t.rows ∧ p a = false := by
  simp [delete]

theorem mem_update {t : Table α κ key} {k : κ} {f : α → α} {hf} {b : α} :
    b ∈ (t.update k f hf).rows ↔ ∃ a ∈ t.rows, (if key a = k then f a else a) = b := by
  simp [update, modify]

theorem update_keys (t : Table α κ key) (k : κ) (f : α → α) (hf : ∀ a, key (f a) = key a) :
    (t.update k f hf).rows.map key = t.rows.map key := by
  simp only [update, modify, List.map_map]
  refine List.map_congr_left fun a _ => ?_
  rw [Function.comp_apply]
  split <;> simp [hf]

theorem mem_upsert {t : Table α κ key} {a b : α} {f : α → α} {hf} (hover : ∀ c, key c = key a → f c = a) :
    b ∈ (t.upsert a f hf).rows ↔ b = a ∨ (b ∈ t.rows ∧ key b ≠ key a) := by
  unfold upsert
  cases h : t.insert a with
  | some t' =>
    obtain ⟨hr, hn⟩ := insert_rows h
    simp only [hr, List.mem_append, List.mem_singleton]
    constructor
    · rintro (hb | hb)
      · exact .inr ⟨hb, hn b hb⟩
      · exact .inl hb
    · rintro (hb | ⟨hb, -⟩)
      · exact .inr hb
      · exact .inl hb
  | none =>
    obtain ⟨c, hc, hk⟩ := insert_eq_none h
    simp only [mem_update]
    constructor
    · rintro ⟨d, hd, rfl⟩
      by_cases hd' : key d = key a
      · exact .inl (by simp [hd', hover d hd'])
      · exact .inr (by simpa [hd'] using hd)
    · rintro (rfl | ⟨hb, hne⟩)
      · exact ⟨c, hc, by simp [hk, hover c hk]⟩
      · exact ⟨b, hb, by simp [hne]⟩

end Table

end Keyed
