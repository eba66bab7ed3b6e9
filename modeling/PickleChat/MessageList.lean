import PickleChat.Lib.Merge
import PickleChat.Tabs

/-!
# The messages of a tab

Live messages are appended, a page of history is merged. The server stores a
message before it sends it, so a page may hold a message that has yet to come
live, or be newer than one.
-/

namespace PickleChat

def EventDto.received : EventDto → List MessageDto
  | .message m => [m]
  | .history _ messages _ => messages
  | _ => []

/-- A live message is newer than all that was received before it. -/
def EventDto.Newest (seen : List MessageDto) : EventDto → Prop
  | .message m => ∀ n ∈ seen, n.id < m.id
  | _ => True

instance EventDto.instDecidableNewest (seen : List MessageDto) (e : EventDto) : Decidable (e.Newest seen) := by
  unfold EventDto.Newest
  split <;> infer_instance

/-- The events of a session in order, each with the tab that is looked at as it comes. -/
abbrev Events := List (EventDto × Option SessionId)

def ConnectionState.after (c : ConnectionState) (events : Events) : ConnectionState :=
  events.foldl (fun c e => applyEvent c e.1 e.2) c

def Events.received (events : Events) : List MessageDto := events.flatMap fun e => e.1.received

def ConnectionState.Lists (c : ConnectionState) (received : List MessageDto) : Prop :=
  Merge.Shows MessageDto.id c.messages received

variable {c : ConnectionState} {events : Events} {seen : List MessageDto}

theorem after_concat (e : EventDto × Option SessionId) :
    c.after (events ++ [e]) = applyEvent (c.after events) e.1 e.2 := by
  unfold ConnectionState.after
  rw [List.foldl_append, List.foldl_cons, List.foldl_nil]

theorem received_concat (e : EventDto × Option SessionId) :
    Events.received (events ++ [e]) = Events.received events ++ e.1.received := by
  unfold Events.received
  rw [List.flatMap_append, List.flatMap_singleton]

/-- One event keeps a tab's list right exactly if it is no live message that comes late. -/
theorem applyEvent_lists_iff (h : c.Lists seen) (e : EventDto) (active : Option SessionId)
    (hone : Merge.Denotes MessageDto.id (seen ++ e.received)) :
    (applyEvent c e active).Lists (seen ++ e.received) ↔ e.Newest seen := by
  cases e with
  | message message => exact Merge.Shows.append_iff h
  | history channel messages reachedStart => exact iff_of_true (Merge.Shows.merge h hone) trivial
  | _ => exact iff_of_true (Merge.Shows.unchanged h) trivial

theorem lists_step {connection : ConnectionDto} (hone : Merge.Denotes MessageDto.id events.received) {n : Nat}
    (hn : n < events.length)
    (h : ((ConnectionState.opened connection).after (events.take n)).Lists (Events.received (events.take n))) :
    ((ConnectionState.opened connection).after (events.take (n + 1))).Lists (Events.received (events.take (n + 1))) ↔
      (events[n]).1.Newest (Events.received (events.take n)) := by
  have hsub : ∀ m ∈ Events.received (events.take (n + 1)), m ∈ events.received := by
    intro m hm
    obtain ⟨e, he, hm⟩ := List.mem_flatMap.mp hm
    exact List.mem_flatMap.mpr ⟨e, List.mem_of_mem_take he, hm⟩
  have hone := hone.mono hsub
  rw [List.take_succ_eq_append_getElem hn, received_concat] at hone
  rw [List.take_succ_eq_append_getElem hn, received_concat, after_concat]
  exact applyEvent_lists_iff h _ _ hone

/-- A tab lists exactly what it has received, in order and once, after every event of a session, exactly if every
live message is newer than all that came before it. -/
theorem messages_listed_iff (connection : ConnectionDto) (events : Events)
    (hone : Merge.Denotes MessageDto.id events.received) :
    (∀ n, ((ConnectionState.opened connection).after (events.take n)).Lists (Events.received (events.take n))) ↔
      ∀ n, ∀ hn : n < events.length, (events[n]).1.Newest (Events.received (events.take n)) := by
  constructor
  · intro h n hn
    exact (lists_step hone hn (h n)).mp (h (n + 1))
  · intro h n
    induction n with
    | zero => exact Merge.Shows.nil
    | succ n ih =>
      by_cases hn : n < events.length
      · exact (lists_step hone hn ih).mpr (h n hn)
      · have hall : events.take (n + 1) = events.take n := by
          rw [List.take_of_length_le (by omega), List.take_of_length_le (by omega)]
        rw [hall]
        exact ih

def exampleMessage (id : MessageId) : MessageDto :=
  { id, channel := 5, authorNickname := "bob", authorFingerprint := "QCAA", content := "hi", sentAtUnixMs := id }

def exampleTab : ConnectionDto :=
  { session := 1, identity := "ada", roles := [], permissions := ⟨false, false, false, []⟩
    info := ⟨7, "Lobby", "QCAA", some 5, [], []⟩ }

def exampleEvents : Events :=
  [(.history 5 [exampleMessage 2, exampleMessage 3] false, none), (.message (exampleMessage 4), none),
    (.history 5 [exampleMessage 1, exampleMessage 2] true, none)]

instance (l : List MessageDto) : Decidable (Merge.Denotes MessageDto.id l) :=
  inferInstanceAs (Decidable (∀ a ∈ l, ∀ b ∈ l, a.id = b.id → a = b))

theorem messages_listed_pages :
    ((ConnectionState.opened exampleTab).after exampleEvents).messages = [1, 2, 3, 4].map exampleMessage ∧
      ((ConnectionState.opened exampleTab).after exampleEvents).Lists (Events.received exampleEvents) :=
  ⟨by decide +kernel, (messages_listed_iff exampleTab exampleEvents (by decide +kernel)).mpr (by decide +kernel) 3⟩

/-- The server has stored a message, a page with it is read, and then it comes live. -/
theorem stored_message_listed_twice :
    ¬ ∀ (connection : ConnectionDto) (events : Events), Merge.Denotes MessageDto.id events.received →
      ∀ n, ((ConnectionState.opened connection).after (events.take n)).Lists (Events.received (events.take n)) := by
  intro h
  have htwice := h exampleTab [(.history 5 [exampleMessage 1] true, none), (.message (exampleMessage 1), none)]
    (by decide +kernel) 2
  have hids : List.Nodup [(1 : MessageId), 1] := htwice.distinct
  exact absurd hids (by decide)

end PickleChat
