import DurableFlow.Proofs.Histories.History
import DurableFlow.Proofs.Steps.Returns
import Mathlib.Data.List.Nodup

/-!
# Sound engines

What holds of an engine at all times: its tasks have numbers of their own, all frames of a task but
the innermost one wait for the one above them, what is left of a step is left of the step at the
index that the frame tells, and all definitions and requests are up to a standard.

That it is kept by every act is shown along with `DurableFlow.Proofs.Soundness.Simulation`; here is
what keeps it when tasks come, change and go.
-/

namespace DurableFlow

/-- The definitions of a registry are up to a standard. -/
def Registry.Meets (S : Standard) (r : Registry) : Prop :=
  ∀ name d, r.find? name = some d → S.definition d

/-- Requests and registries that come from outside are up to a standard. -/
def Act.Meets (S : Standard) : Act → Prop
  | .run _ _ request => S.request request
  | .addRunner registry _ => registry.Meets S
  | _ => True

theorem Act.meets_any (a : Act) : a.Meets .any := by
  cases a with
  | addRunner registry services => exact fun _ _ _ => trivial
  | _ => trivial

namespace Registry

theorem meets_empty {S : Standard} : (⟨.empty⟩ : Registry).Meets S := by
  intro name d hd
  cases hd

theorem Meets.put {S : Standard} {t : Table String Definition} (h : (⟨t⟩ : Registry).Meets S)
    (name : String) {d : Definition} (hd : S.definition d) :
    (⟨t.put name d⟩ : Registry).Meets S := by
  intro name' d' hd'
  rw [find?, Table.get?_put] at hd'
  split at hd'
  · cases hd'
    exact hd
  · exact h name' d' hd'

end Registry

namespace Act

/-- Whether neither definitions nor the seed of a context come in with the act. -/
def isPlain : Act → Bool
  | .run _ _ request => request.init.isNone
  | .addRunner _ _ => false
  | _ => true

theorem meets_of_isPlain {S : Standard} {a : Act} (h : a.isPlain = true) : a.Meets S := by
  cases a with
  | run id τ q => exact S.plain (Option.isNone_iff_eq_none.1 h)
  | addRunner registry services => cases h
  | _ => trivial

/-- A history that begins with a runner. -/
theorem forall_meets {S : Standard} {registry : Registry} {services : Services} {rest : List Act}
    (h : registry.Meets S) (hrest : rest.all isPlain = true) :
    ∀ a ∈ .addRunner registry services :: rest, a.Meets S :=
  List.forall_mem_cons.2 ⟨h, fun a ha => meets_of_isPlain (List.all_eq_true.1 hrest a ha)⟩

end Act

/-- What is left of a step is left of the step at the index. -/
def Stage.Sound (c : Chain) : Stage → Prop
  | .inside index rest => c.definition.Within index c.context rest
  | .calling index next => ∀ reply, c.definition.Within index c.context (next reply)
  | _ => True

/-- A frame is sound; nobody but calls waits for completions. -/
def Frame.Sound (S : Standard) : Frame → Prop
  | .opening _ request _ => S.request request
  | .driving _ chain stage => S.definition chain.definition ∧ stage.Sound chain
  | .receiving _ _ => True
  | .listening _ => False

/-- Whether a frame waits for the one above it. -/
def Frame.isCalling : Frame → Bool
  | .driving _ _ (.calling _ _) => true
  | _ => false

/-- The frames of a task are sound, and all but the innermost wait for the one above them. -/
structure Task.Sound (S : Standard) (t : Task) : Prop where
  frames : ∀ f ∈ t.frames, f.Sound S
  calling : ∀ f ∈ t.frames.tail, f.isCalling = true

/-- What holds of an engine at all times. -/
structure Engine.Sound (S : Standard) (e : Engine) : Prop where
  numbers : (e.tasks.map Task.number).Nodup
  lt_next : ∀ t ∈ e.tasks, t.number < e.next
  tasks : ∀ t ∈ e.tasks, t.Sound S
  armed : ∀ timer ∈ e.scheduler.timers.armed, S.definition timer.work.chain.definition
  runners : ∀ id r, e.runners.get? id = some r → r.registry.Meets S

variable {S : Standard}

namespace Task.Sound

variable {t : Task} {f : Frame} {below : List Frame}

theorem single (ht : t.frames = [f]) (hf : f.Sound S) : t.Sound S where
  frames := by
    intro g hg
    rw [ht] at hg
    rw [List.mem_singleton.1 hg]
    exact hf
  calling := by
    intro g hg
    rw [ht] at hg
    cases hg

/-- The frames below the innermost one, with another one above them. -/
theorem replace (h : (t.doing (f :: below)).Sound S) {g : Frame} (hg : g.Sound S) :
    (t.doing (g :: below)).Sound S where
  frames := by
    intro f' hf'
    rcases List.mem_cons.1 hf' with rfl | hf'
    · exact hg
    · exact h.frames f' (List.mem_cons_of_mem _ hf')
  calling := h.calling

/-- A frame may be put above one that waits for it. -/
theorem push (h : (t.doing (f :: below)).Sound S) (hf : f.isCalling = true) {g : Frame}
    (hg : g.Sound S) : (t.doing (g :: f :: below)).Sound S where
  frames := by
    intro f' hf'
    rcases List.mem_cons.1 hf' with rfl | hf'
    · exact hg
    · exact h.frames f' hf'
  calling := by
    intro f' hf'
    rcases List.mem_cons.1 hf' with rfl | hf'
    · exact hf
    · exact h.calling f' hf'

end Task.Sound

namespace Engine

/-- The task of that number is one of the tasks. -/
theorem task?_eq_some {e : Engine} {n : Nat} {t : Task} (h : e.task? n = some t) :
    t ∈ e.tasks ∧ t.number = n := by
  refine ⟨List.mem_of_find?_eq_some h, ?_⟩
  simpa using List.find?_some h

namespace Sound

variable {e e' : Engine}

/-- Soundness depends on the tasks, the timers and the runners only. -/
theorem congr (h : e.Sound S) (htasks : e'.tasks = e.tasks) (hnext : e.next ≤ e'.next)
    (harmed : e'.scheduler.timers.armed = e.scheduler.timers.armed)
    (hrunners : e'.runners = e.runners) : e'.Sound S where
  numbers := by rw [htasks]; exact h.numbers
  lt_next := by
    intro t ht
    rw [htasks] at ht
    exact Nat.lt_of_lt_of_le (h.lt_next t ht) hnext
  tasks := by rw [htasks]; exact h.tasks
  armed := by rw [harmed]; exact h.armed
  runners := by rw [hrunners]; exact h.runners

theorem putTask (h : e.Sound S) {t : Task} (ht : t.Sound S) : (e.putTask t).Sound S := by
  have hnumber : ∀ t' : Task, (if t'.number == t.number then t else t').number = t'.number := by
    intro t'
    split
    · rename_i heq
      exact (beq_iff_eq.1 heq).symm
    · rfl
  have hnumbers : (e.putTask t).tasks.map Task.number = e.tasks.map Task.number := by
    simp only [Engine.putTask, List.map_map]
    exact List.map_congr_left fun t' _ => hnumber t'
  refine ⟨hnumbers ▸ h.numbers, ?_, ?_, h.armed, h.runners⟩
  · intro t' ht'
    obtain ⟨t₀, ht₀, rfl⟩ := List.mem_map.1 ht'
    rw [hnumber]
    exact h.lt_next t₀ ht₀
  · intro t' ht'
    obtain ⟨t₀, ht₀, rfl⟩ := List.mem_map.1 ht'
    split
    · exact ht
    · exact h.tasks t₀ ht₀

/-- Tasks may go. -/
theorem filterTasks (h : e.Sound S) (p : Task → Bool) (htasks : e'.tasks = e.tasks.filter p)
    (hnext : e'.next = e.next)
    (harmed : e'.scheduler.timers.armed = e.scheduler.timers.armed)
    (hrunners : e'.runners = e.runners) : e'.Sound S where
  numbers := by
    rw [htasks]
    exact h.numbers.sublist (List.filter_sublist.map _)
  lt_next := by
    intro t ht
    rw [htasks] at ht
    rw [hnext]
    exact h.lt_next t (List.mem_of_mem_filter ht)
  tasks := by
    intro t ht
    rw [htasks] at ht
    exact h.tasks t (List.mem_of_mem_filter ht)
  armed := by rw [harmed]; exact h.armed
  runners := by rw [hrunners]; exact h.runners

theorem spawn (h : e.Sound S) (token : Token) {f : Frame} (hf : f.Sound S) :
    (e.spawn token [f]).2.Sound S where
  numbers := by
    simp only [Engine.spawn, List.map_append, List.map_cons, List.map_nil]
    refine List.nodup_append.2 ⟨h.numbers, List.nodup_singleton _, ?_⟩
    rintro n hn m hm rfl
    obtain ⟨t, ht, rfl⟩ := List.mem_map.1 hn
    have hlt := h.lt_next t ht
    have heq := List.mem_singleton.1 hm
    omega
  lt_next := by
    intro t ht
    simp only [Engine.spawn, List.mem_append, List.mem_singleton] at ht
    show t.number < e.next + 1
    rcases ht with ht | rfl
    · exact Nat.lt_succ_of_lt (h.lt_next t ht)
    · exact Nat.lt_succ_self _
  tasks := by
    intro t ht
    simp only [Engine.spawn, List.mem_append, List.mem_singleton] at ht
    rcases ht with ht | rfl
    · exact h.tasks t ht
    · exact Task.Sound.single rfl hf
  armed := h.armed
  runners := h.runners

theorem withTimers (h : e.Sound S) {timers : Timers Continuation}
    (ht : ∀ timer ∈ timers.armed, S.definition timer.work.chain.definition) :
    (e.withTimers timers).Sound S :=
  ⟨h.numbers, h.lt_next, h.tasks, ht, h.runners⟩

end Sound

end Engine

end DurableFlow
