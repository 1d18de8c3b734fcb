import DurableFlow.Event

/-!
# Buses

A bus knows handlers, each registered for one topic under a number of its own. Publishing a notice
means to call the handlers that are registered for its topic at that moment, in the order in which
they were registered; what a handler does to the bus shows at the next notice only.
-/

namespace DurableFlow

/-- A handler as it is registered. -/
structure Registration (η : Type) where
  number : Nat
  topic : Topic
  handler : η

/-- The registrations in their order, and the number of the next one. -/
structure Bus (η : Type) where
  registrations : List (Registration η) := []
  next : Nat := 0

namespace Bus

variable {η : Type}

/-- Registers a handler and tells its number. -/
def subscribe (b : Bus η) (topic : Topic) (handler : η) : Bus η × Nat :=
  ({ registrations := b.registrations ++ [⟨b.next, topic, handler⟩], next := b.next + 1 }, b.next)

/-- Removes the handler of that number. -/
def unsubscribe (b : Bus η) (number : Nat) : Bus η :=
  { b with registrations := b.registrations.filter fun r => r.number ≠ number }

/-- The registrations for a topic, in their order. -/
def listeners (b : Bus η) (topic : Topic) : List (Registration η) :=
  b.registrations.filter fun r => r.topic = topic

/-- How many handlers are registered for a topic. -/
def count (b : Bus η) (topic : Topic) : Nat := (b.listeners topic).length

/-- Calls the handlers for the topic of a notice. -/
def publish {σ : Type} (b : Bus η) (call : Registration η → Notice → σ → σ) (notice : Notice)
    (s : σ) : σ :=
  (b.listeners notice.topic).foldl (fun s r => call r notice s) s

/-- The numbers are distinct and below the next one. -/
structure IsNumbered (b : Bus η) : Prop where
  lt_next : ∀ r ∈ b.registrations, r.number < b.next
  nodup : (b.registrations.map Registration.number).Nodup

theorem isNumbered_empty : ({} : Bus η).IsNumbered := ⟨by simp, by simp⟩

theorem IsNumbered.subscribe {b : Bus η} (h : b.IsNumbered) (topic : Topic) (handler : η) :
    (b.subscribe topic handler).1.IsNumbered := by
  constructor
  · intro r hr
    simp only [Bus.subscribe, List.mem_append, List.mem_singleton] at hr ⊢
    rcases hr with hr | rfl
    · exact Nat.lt_succ_of_lt (h.lt_next r hr)
    · exact Nat.lt_succ_self _
  · simp only [Bus.subscribe, List.map_append, List.map_cons, List.map_nil]
    rw [List.nodup_append]
    refine ⟨h.nodup, by simp, ?_⟩
    intro n hn m hm
    obtain ⟨r, hr, rfl⟩ := List.mem_map.1 hn
    obtain rfl := List.mem_singleton.1 hm
    exact Nat.ne_of_lt (h.lt_next r hr)

theorem IsNumbered.unsubscribe {b : Bus η} (h : b.IsNumbered) (number : Nat) :
    (b.unsubscribe number).IsNumbered :=
  ⟨fun r hr => h.lt_next r (List.mem_filter.1 hr).1,
    h.nodup.sublist (List.filter_sublist.map Registration.number)⟩

theorem listeners_subscribe (b : Bus η) (topic other : Topic) (handler : η) :
    (b.subscribe topic handler).1.listeners other
      = b.listeners other ++ (if topic = other then [⟨b.next, topic, handler⟩] else []) := by
  by_cases h : topic = other <;> simp [Bus.subscribe, listeners, h]

theorem listeners_unsubscribe (b : Bus η) (number : Nat) (topic : Topic) :
    (b.unsubscribe number).listeners topic
      = (b.listeners topic).filter fun r => r.number ≠ number := by
  simp only [Bus.unsubscribe, listeners, List.filter_filter]
  congr 1
  funext r
  exact Bool.and_comm _ _

end Bus

end DurableFlow
