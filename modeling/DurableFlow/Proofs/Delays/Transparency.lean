import DurableFlow.Proofs.Delays.Surroundings
import Mathlib.Tactic.IntervalCases

/-!
# Transparency of delays

A delay only takes time. While it passes, the chain of the instance is with the scheduler, and then
it goes on in another task and under another token; however often that happens, nothing is lost of
it and nothing is done again.

Main statement: two runs of an instance that meet with the same surroundings, except that steps of
one of them ask for delays where those of the other go on at once, are seen to do the same and come
to the same end, and the same is told to who waits for them (`Engine.Rides.transparent`).
-/

namespace DurableFlow

/-! ## What is told where delays are left out -/

namespace Deed

theorem map_snd_sights (l : List (Chain × Deed)) :
    (sights l).map Prod.snd = (l.map Prod.snd).filterMap hastened := by
  rw [sights, List.map_filterMap, List.filterMap_map]
  congr 1
  funext s
  cases h : s.2.hastened <;> simp [h]

/-- Only the step that asks for a delay is seen to do something else. -/
theorem mem_hastened {T : List Deed} {d : Deed} (hd : d.hastened = some d)
    (hproceed : ∀ i, d ≠ .returned i .proceed) : d ∈ T.filterMap hastened ↔ d ∈ T := by
  rw [List.mem_filterMap]
  constructor
  · rintro ⟨d', hd', heq⟩
    suffices h : d' = d from h ▸ hd'
    cases d' with
    | returned i o =>
      obtain rfl := Option.some.inj heq
      cases o with
      | delay duration => exact absurd rfl (hproceed i)
      | _ => rfl
    | published notice =>
      simp only [hastened] at heq
      split at heq
      · cases heq
      · exact Option.some.inj heq
    | suspended next => cases heq
    | _ => exact Option.some.inj heq
  · exact fun h => ⟨d, h, hd⟩

/-- The verdict does not depend on delays. -/
theorem Verdict.of_hastened {T T' : List Deed} {s : Settlement} (h : Verdict T s)
    (hT : T'.filterMap hastened = T.filterMap hastened) : Verdict T' s := by
  refine h.congr fun d hd => ?_
  have hself : d.hastened = some d := by
    cases d with
    | returned i o => cases o <;> first | rfl | cases hd
    | published notice => exact if_neg (of_decide_eq_true hd)
    | suspended next => cases hd
    | _ => rfl
  have hproceed : ∀ i, d ≠ .returned i .proceed := by
    rintro i rfl
    cases hd
  rw [← mem_hastened hself hproceed, hT, mem_hastened hself hproceed]

/-- Delays do not matter to the position. -/
theorem position_hastened (p : Nat) (T : List Deed) :
    Deed.position p (T.filterMap hastened) = Deed.position p T := by
  induction T generalizing p with
  | nil => rfl
  | cons d T ih =>
    cases d with
    | published notice =>
      rw [List.filterMap_cons, hastened]
      split
      · rename_i hnone
        exact ih p
      · rename_i hsome
        split at hsome
        · cases hsome
        · cases hsome
          exact ih p
    | _ => exact ih _

/-- What is owed is owed up to the same settlement. -/
theorem owed_hastened (T : List Deed) :
    (owed T).filterMap hastened = owed (T.filterMap hastened) := by
  induction T with
  | nil => rfl
  | cons d T ih =>
    cases hd : d.hastened with
    | none =>
      have hsettled : d.isSettled = false := by
        cases d with
        | settled s => cases hd
        | _ => rfl
      simp [owed, hd, hsettled, ih]
    | some d' =>
      have hsettled : d'.isSettled = d.isSettled := by
        cases d with
        | published notice =>
          simp only [hastened] at hd
          split at hd
          · cases hd
          · obtain rfl := Option.some.inj hd
            rfl
        | suspended next => cases hd
        | _ =>
          cases hd
          rfl
      cases hs : d.isSettled with
      | true => simp [owed, hd, hs, hsettled]
      | false => simp [owed, hd, hs, hsettled, ih]

end Deed

/-! ## Rides -/

namespace Engine

/-- What is seen of an instance in the course of a history where delays are left out. -/
def sights (e : Engine) (x : String) (as : List Act) : List Sight := Deed.sights (e.saga x as)

/-- A history with a single run of an instance that meets with the surroundings: what its steps, the
store and the bus do is what the surroundings answer, delays are announced and scheduled, and
nothing is cancelled or cut off. -/
structure Rides (e : Engine) (W : Surroundings) (D : Definition) (x : String) (c : Chain) (p : Nat)
    (as : List Act) : Prop where
  course : e.Course D x as
  single : ∃ rest, e.saga x as = (c, .started p) :: rest ∧ ∀ s ∈ rest, s.2.isStart = false
  allows : ∀ before a, before ++ [a] <+: as → ∀ s ∈ (e.after before).deeds a, s.1.inst = x →
    W.Allows (e.sights x before) s.2
  /-- What a step says is what the surroundings answer, and so is the context that it leaves. -/
  step : ∀ before a, before ++ [a] <+: as → ∀ s ∈ (e.after before).deeds a, s.1.inst = x →
    ∀ i o, s.2 = .returned i o → ∀ c' ∈ (e.after (before ++ [a])).chains, c'.inst = x →
      W.step (e.sights x before) = some (c'.context, o.hastened)

variable {e e' : Engine} {W : Surroundings} {D D' : Definition} {x : String} {c c' : Chain}
  {p : Nat} {as as' : List Act}

namespace Rides

/-- A run of the instance does one deed at a time. -/
theorem length_about_le (h : e.Rides W D x c p as) {before : List Act} {a : Act}
    (has : before ++ [a] <+: as) :
    (Deed.about x ((e.after before).deeds a)).length ≤ 1 := by
  refine Engine.length_about_le fun s hs hlost => ?_
  obtain ⟨hmem, hx⟩ := List.mem_filter.1 hs
  have hallowed := h.allows before a has s hmem (beq_iff_eq.1 hx)
  rw [hlost] at hallowed
  exact hallowed

/-- **A run with delays is seen to be where the run is that never pauses.** -/
theorem tracks (h : e.Rides W D x c p as) {before : List Act} (hbefore : before <+: as) :
    ∃ st, (e.after before).Bears x st ∧ W.Tracks D c.context p (e.saga x before) st := by
  induction before using List.reverseRecOn with
  | nil => exact ⟨none, by rw [after_nil, Bears, h.course.new.pairs_eq]; rfl, .inl ⟨rfl, rfl⟩⟩
  | append_singleton before a ih =>
    obtain ⟨after, rfl⟩ := hbefore
    obtain ⟨st, hst, htracks⟩ := ih ((List.prefix_append _ _).trans (List.prefix_append _ _))
    have hcourse := h.course.left
    obtain ⟨st', hshifts, hst'⟩ := hcourse.shifts_act hst
    refine ⟨st', hst', ?_⟩
    rw [saga_concat]
    refine htracks.shifts hshifts ?_ (h.length_about_le (List.prefix_append _ _)) ?_ ?_ ?_
    · rintro c₁ φ rfl
      obtain ⟨hmem, hx⟩ := hst.mem_chains
      exact (hcourse.left.hosts before (List.prefix_refl _)).definition c₁ hmem hx
    · intro s hs hstart
      obtain ⟨hnil, rfl⟩ := start_of_single h.single (List.prefix_append _ _) hs hstart
      exact ⟨hnil, rfl, rfl⟩
    · intro s hs
      obtain ⟨hmem, hx⟩ := List.mem_filter.1 hs
      exact h.allows before a (List.prefix_append _ _) s hmem (beq_iff_eq.1 hx)
    · rintro s hs i o ho c' φ' rfl
      obtain ⟨hmem, hx⟩ := List.mem_filter.1 hs
      obtain ⟨hc', hx'⟩ := hst'.mem_chains
      exact h.step before a (List.prefix_append _ _) s hmem (beq_iff_eq.1 hx) i o ho c' hc' hx'

/-- What is seen of a run is a stretch of the run that never pauses: all of it if no chain is there
any more. -/
theorem express (h : e.Rides W D x c p as) :
    ∃ n st, W.express D c.context p n = (e.sights x as, st) ∧
      ((e.after as).IsThrough x → st = none) := by
  obtain ⟨st, hst, ⟨hnil, -⟩ | ⟨n, st', hn, hmeets⟩⟩ := h.tracks (List.prefix_refl as)
  · obtain ⟨rest, hsaga, -⟩ := h.single
    rw [hsaga] at hnil
    cases hnil
  · refine ⟨n, st', hn, fun hthrough => ?_⟩
    cases hmeets with
    | on =>
      obtain ⟨hmem, hx⟩ := hst.mem_chains
      exact absurd hx (hthrough _ hmem)
    | ended => rfl

/-- What is seen of a run tells the position. -/
theorem position_eq (h : e.Rides W D x c p as) :
    (e.after as).position x = Deed.position p ((e.sights x as).map Prod.snd) := by
  rw [h.course.position_of_single h.single, sights, Deed.map_snd_sights, map_snd_saga,
    Deed.position_hastened]

/-- **Delays are transparent.** Let two runs of an instance start at the same position and with the
same context, and let them meet with the same surroundings: what a step says may differ in that one
asks for a delay where the other goes on at once. Then the same is seen of both, one of them being
ahead of the other: the same steps are executed and return, each with the same context, the same
positions are saved and the same news published, except those of delays, and the same is decided
for who waits. None of them does more than the other one does to its end. And if both come to their
end, all of it is the same, they leave the same position, and their callers are told the same. -/
theorem transparent (h : e.Rides W D x c p as) (h' : e'.Rides W D' x c' p as')
    (hname : D'.name = D.name) (hlabels : D'.steps.map Step.label = D.steps.map Step.label)
    (hcontext : c'.context = c.context) :
    (e.sights x as <+: e'.sights x as' ∨ e'.sights x as' <+: e.sights x as) ∧
    ((e.after as).IsThrough x → e'.sights x as' <+: e.sights x as) ∧
    ((e'.after as').IsThrough x → e.sights x as <+: e'.sights x as') ∧
    ((e.after as).IsDone x → (e'.after as').IsDone x →
      e'.sights x as' = e.sights x as ∧
      (e'.after as').position x = (e.after as).position x ∧
      ∀ k k', c.completion = some k → c'.completion = some k' →
        .panicked ∉ e.story x as → none ∉ e.answers k as → none ∉ e'.answers k' as' →
        ∃ s, e.answers k as = [some (.settled s)] ∧ e'.answers k' as' = [some (.settled s)]) := by
  obtain ⟨n, st, hn, hover⟩ := h.express
  obtain ⟨n', st', hn', hover'⟩ := h'.express
  rw [hcontext, Surroundings.express_congr hname hlabels] at hn'
  -- Both runs are stretches of one.
  have hahead : ∀ {m m' l l' s s'}, W.express D c.context p m = (l, s) →
      W.express D c.context p m' = (l', s') → m ≤ m' → l <+: l' := by
    intro m m' l l' s s' hm hm' hle
    have hprefix := W.express_prefix D c.context p hle
    rwa [hm, hm'] at hprefix
  have hlast : ∀ {m m' l l' s'}, W.express D c.context p m = (l, none) →
      W.express D c.context p m' = (l', s') → l' <+: l := by
    intro m m' l l' s' hm hm'
    rcases Nat.le_total m' m with hle | hle
    · exact hahead hm' hm hle
    · rw [Surroundings.express_of_over hm hle] at hm'
      cases hm'
      exact List.prefix_refl l
  have hthrough : (e.after as).IsThrough x → e'.sights x as' <+: e.sights x as := by
    intro hx
    obtain rfl := hover hx
    exact hlast hn hn'
  have hthrough' : (e'.after as').IsThrough x → e.sights x as <+: e'.sights x as' := by
    intro hx
    obtain rfl := hover' hx
    exact hlast hn' hn
  refine ⟨?_, hthrough, hthrough', fun hdone hdone' => ?_⟩
  · rcases Nat.le_total n n' with hle | hle
    · exact .inl (hahead hn hn' hle)
    · exact .inr (hahead hn' hn hle)
  have hsame : e'.sights x as' = e.sights x as := by
    have hle := hthrough (h.course.new.isThrough_of_isDone hdone)
    have hge := hthrough' (h'.course.new.isThrough_of_isDone hdone')
    exact hle.eq_of_length (Nat.le_antisymm hle.length_le hge.length_le)
  refine ⟨hsame, by rw [h.position_eq, h'.position_eq, hsame], ?_⟩
  intro k k' hk hk' hpanic hcut hcut'
  have hstories : (e'.story x as').filterMap Deed.hastened =
      (e.story x as).filterMap Deed.hastened := by
    rw [← map_snd_saga, ← map_snd_saga, ← Deed.map_snd_sights, ← Deed.map_snd_sights]
    exact congrArg _ hsame
  have hpanic' : .panicked ∉ e'.story x as' := by
    rw [← Deed.mem_hastened rfl (by simp)] at hpanic ⊢
    rwa [hstories]
  obtain ⟨s, hs, hverdict⟩ := h.course.told h.single hdone hk hpanic hcut
  obtain ⟨s', hs', hverdict'⟩ := h'.course.told h'.single hdone' hk' hpanic' hcut'
  have howed : (Deed.owed (e'.story x as')).filterMap Deed.hastened =
      (Deed.owed (e.story x as)).filterMap Deed.hastened := by
    rw [Deed.owed_hastened, Deed.owed_hastened, hstories]
  obtain rfl := hverdict'.unique (hverdict.of_hastened howed)
  exact ⟨s', hs, hs'⟩

end Rides

end Engine

/-! ## The greeting without its delay -/

namespace Greeting

/-- The workflow that goes on at once where the greeting waits for a while. -/
def prompt : Definition :=
  ⟨"greeting", [.deciding fun _ => .proceed, .deciding fun _ => .proceed]⟩

def promptRegistry : Registry := ⟨.put .empty "greeting" prompt⟩

/-- A run to the end, and what the caller is told. -/
def promptActs : List Act :=
  [.addRunner promptRegistry .empty, .run ⟨0⟩ (.root 0) request] ++ .replicate 14 (.advance 2)

/-- The context of the instance, which no step changes. -/
def context : Context :=
  { inst := "x", workflow := "greeting", services := Services.empty.insert .runner ⟨0⟩ }

/-- The chain of the instance as it starts. -/
def chain (D : Definition) : Chain :=
  { definition := D, context, dispatcher := ⟨1⟩, completion := some ⟨3⟩, number := 3 }

/-- Every step goes on at once, and nothing fails. -/
def calm : Surroundings where
  step _ := some (context, .proceed)
  store _ := none
  bus _ := true

theorem course_prompt : engine.Course prompt "x" promptActs := by
  have hmeets : ∀ {S : Standard}, S.definition prompt → ∀ a ∈ promptActs, a.Meets S :=
    fun hS => Act.forall_meets (Registry.meets_empty.put _ hS) rfl
  have hloyal : prompt.IsLoyal := by
    intro s hs
    rcases List.mem_cons.1 hs with rfl | hs
    · exact Step.isLoyal_deciding _
    · rw [List.mem_singleton.1 hs]
      exact Step.isLoyal_deciding _
  refine .of_only ⟨rfl, rfl, rfl, rfl⟩ (hmeets hloyal) (hmeets rfl) ?_
  decide +kernel

/-- A run that nothing happens to rides in these surroundings. -/
theorem rides_calm {D : Definition} {as : List Act} (hcourse : engine.Course D "x" as)
    (hsingle : ∃ rest, engine.saga "x" as = (chain D, .started 0) :: rest ∧
      ∀ s ∈ rest, s.2.isStart = false)
    (hallows : ∀ d ∈ engine.story "x" as, calm.Allows [] d)
    (hcontext : ∀ n < as.length + 1, ∀ c ∈ (engine.after (as.take n)).chains,
      c.context = context) :
    engine.Rides calm D "x" (chain D) 0 as := by
  have hallowed : ∀ before a, before ++ [a] <+: as →
      ∀ s ∈ (engine.after before).deeds a, s.1.inst = "x" →
      ∀ l, calm.Allows l s.2 := by
    intro before a has s hs hx l
    have hnil := hallows s.2 (List.mem_map_of_mem (Engine.mem_saga has hs hx))
    cases hd : s.2 with
    | halted fault => rw [hd] at hnil; cases fault <;> exact hnil
    | _ => rw [hd] at hnil; exact hnil
  refine ⟨hcourse, hsingle, fun before a has s hs hx => hallowed before a has s hs hx _, ?_⟩
  intro before a has s hs hx i o ho c hc _
  have hreturned := hallowed before a has s hs hx []
  rw [ho] at hreturned
  obtain ⟨c', hc'⟩ := hreturned
  have htake : before ++ [a] = as.take (before ++ [a]).length := List.prefix_iff_eq_take.1 has
  rw [htake] at hc
  rw [hcontext _ (Nat.lt_succ_of_le has.length_le) c hc, ← (Prod.mk.inj (Option.some.inj hc')).2]
  rfl

/-- The chains of an engine, if there is one at most, have the context if the last of them has. -/
theorem context_of_map {e : Engine} {n : Nat} (h : e.chains.map Chain.context = .replicate n context) :
    ∀ c ∈ e.chains, c.context = context := by
  intro c hc
  have hmem : c.context ∈ List.replicate n context := by
    rw [← h]
    exact List.mem_map_of_mem hc
  exact List.eq_of_mem_replicate hmem

theorem rides_acts : engine.Rides calm definition "x" (chain definition) 0 acts := by
  refine rides_calm course ⟨_, rfl, by decide +kernel⟩ (by decide +kernel) fun n hn => ?_
  have hn : n < 21 := hn
  interval_cases n
  case «0» | «1» | «2» | «18» | «19» | «20» => exact context_of_map (n := 0) rfl
  all_goals exact context_of_map (n := 1) rfl

theorem rides_prompt : engine.Rides calm prompt "x" (chain prompt) 0 promptActs := by
  refine rides_calm course_prompt ⟨_, rfl, by decide +kernel⟩ (by decide +kernel) fun n hn => ?_
  have hn : n < 17 := hn
  interval_cases n
  case «0» | «1» | «2» | «15» | «16» => exact context_of_map (n := 0) rfl
  all_goals exact context_of_map (n := 1) rfl

/-- With its delay and without it, the greeting is seen to do the same, and its caller is told the
same. -/
theorem seen_alike :
    engine.sights "x" promptActs = engine.sights "x" acts ∧
      (engine.after promptActs).position "x" = (engine.after acts).position "x" ∧
      ∃ s, engine.answers ⟨3⟩ acts = [some (.settled s)] ∧
        engine.answers ⟨3⟩ promptActs = [some (.settled s)] := by
  obtain ⟨-, -, -, hdone⟩ := rides_acts.transparent rides_prompt rfl rfl rfl
  obtain ⟨hsights, hposition, htold⟩ := hdone (Engine.isDone_of_isEmpty rfl rfl)
    (Engine.isDone_of_isEmpty rfl rfl)
  refine ⟨hsights, hposition, htold ⟨3⟩ ⟨3⟩ rfl rfl ?_
    (Engine.none_notMem_answers (by decide +kernel))
    (Engine.none_notMem_answers (by decide +kernel))⟩
  intro hmem
  have hpanic : ∀ d ∈ engine.story "x" acts, d.isPanic = false := by decide +kernel
  cases hpanic _ hmem

/-- An engine whose bus refuses the news of delays. -/
def strict : Engine := { engine with refuses := fun _ topic => topic == .delayed }

/-- A workflow whose second step panics, and whose first step asks for a delay or does not. -/
def brittle (first : Outcome) : Registry :=
  ⟨.put .empty "greeting" ⟨"greeting",
    [.deciding fun _ => first, { execute := fun c => .panic c (.text "broken") }]⟩⟩

/-- A run up to the delay, the continuation after it if there is one, and what the caller is told. -/
def brittleActs (first : Outcome) : List Act :=
  [.addRunner (brittle first) .empty, .run ⟨0⟩ (.root 0) request] ++ .replicate 7 (.advance 2) ++
    .wake 0 :: .replicate 2 (.advance 5) ++ .replicate 2 (.advance 2)

/-- Whoever waits notices a delay of which the bus does not accept the news, and after a delay nobody
passes a panic on. -/
theorem noticed :
    ((∃ fault, strict.answers ⟨3⟩ acts = [some (.settled (.error (.fault fault)))]) ∧
      Deed.executions (strict.story "x" acts) = [0] ∧
      (∃ result, strict.answers ⟨3⟩ promptActs = [some (.settled (.ok result))]) ∧
      Deed.executions (strict.story "x" promptActs) = [0, 1]) ∧
    (∃ s, engine.answers ⟨3⟩ (brittleActs (.delay ⟨1000, by decide⟩)) = [some (.settled s)]) ∧
      ∃ p, engine.answers ⟨3⟩ (brittleActs .proceed) = [some (.panicked p)] := by
  refine ⟨⟨⟨.busClosed, ?_⟩, by decide +kernel, ⟨_, rfl⟩, by decide +kernel⟩, ⟨_, rfl⟩, ⟨_, rfl⟩⟩
  rfl

end Greeting

end DurableFlow
