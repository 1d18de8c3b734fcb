import DurableFlow.Proofs.NestedRuns.Circumstances

/-!
# Nested runs that nobody waits for

A workflow that starts another one and does not wait for it takes no notice of what becomes of that.
What the nested run does to the parent is at most to be met with by it, in the store, on the bus, at
the scheduler, by its token, or by other steps of it that look at more than their context.

Main statement: two runs of a workflow that meet with the same circumstances are seen to do the same
whatever the nested runs do that they do not wait for, and the same is told to who waits for them
(`Engine.Sojourns.unswayed`).
-/

namespace DurableFlow

/-! ## What is told whatever the instants are -/

namespace Deed

theorem map_snd_views (l : List (Chain × Deed)) :
    (views l).map Prod.snd = (l.map Prod.snd).map undated := by
  rw [views, List.map_map, List.map_map]
  rfl

/-- What matters to a verdict has no instant in it. -/
theorem mem_undated {T : List Deed} {d : Deed} (hd : d.isDecisive = true) :
    d ∈ T.map undated ↔ d ∈ T := by
  have hself : d.undated = d := by
    cases d with
    | published notice =>
      obtain ⟨inst, workflow, news⟩ := notice
      cases news with
      | delayed next due => cases hd
      | _ => rfl
    | refused notice => cases hd
    | _ => rfl
  rw [List.mem_map]
  constructor
  · rintro ⟨d', hd', heq⟩
    suffices h : d' = d from h ▸ hd'
    rw [← heq] at hd
    cases d' with
    | published notice =>
      obtain ⟨inst, workflow, news⟩ := notice
      cases news with
      | delayed next due => cases hd
      | _ => exact heq
    | refused notice => cases hd
    | _ => exact heq
  · exact fun h => ⟨d, h, hself⟩

/-- The verdict does not depend on instants. -/
theorem Verdict.of_undated {T T' : List Deed} {s : Settlement} (h : Verdict T s)
    (hT : T'.map undated = T.map undated) : Verdict T' s := by
  refine h.congr fun d hd => ?_
  rw [← mem_undated hd, hT, mem_undated hd]

/-- Instants do not matter to the position. -/
theorem position_undated (p : Nat) (T : List Deed) :
    Deed.position p (T.map undated) = Deed.position p T := by
  induction T generalizing p with
  | nil => rfl
  | cons d T ih => cases d <;> exact ih _

/-- What is owed is owed up to the same settlement. -/
theorem owed_undated (T : List Deed) : (owed T).map undated = owed (T.map undated) := by
  induction T with
  | nil => rfl
  | cons d T ih =>
    have hsettled : d.undated.isSettled = d.isSettled := by cases d <;> rfl
    cases hd : d.isSettled <;> simp [owed, hd, hsettled, ih]

end Deed

/-! ## Runs -/

/-- Of the steps of a definition it is known what they make of a context at least if they do not wait
for the nested runs that they start. -/
structure Circumstances.Knows (W : Circumstances) (D : Definition) : Prop where
  follows : D.Follows W.habits
  aloof : ∀ i s outcome, D.step? i = some s → s.IsAloof outcome → (W.habits i).isSome = true

namespace Engine

/-- What is seen of an instance in the course of a history. -/
def views (e : Engine) (x : String) (as : List Act) : List Sight := Deed.views (e.saga x as)

/-- A history with a single run of an instance that meets with the circumstances: what its other
steps, the store, the bus and the scheduler do, and when it is found to be cancelled, is what they
answer, and it is not cut off. -/
structure Sojourns (e : Engine) (W : Circumstances) (D : Definition) (x : String) (c : Chain) (p : Nat)
    (as : List Act) : Prop where
  course : e.Course D x as
  single : ∃ rest, e.saga x as = (c, .started p) :: rest ∧ ∀ s ∈ rest, s.2.isStart = false
  /-- A runner is there when it is looked for, and the calls of nested runs return results. -/
  obliges : ∀ before n, before ++ [.advance n] <+: as → ∀ t, (e.after before).task? n = some t →
    (e.after before).Obliges W.habits x t
  allows : ∀ before a, before ++ [a] <+: as → ∀ s ∈ (e.after before).deeds a, s.1.inst = x →
    W.Allows (e.views x before) s.2
  /-- What a step without a habit says is what is answered, and so is the context that it leaves. -/
  step : ∀ before a, before ++ [a] <+: as → ∀ c i o, (c, .returned i o) ∈ (e.after before).deeds a →
    c.inst = x → W.habits i = none → ∀ c' ∈ (e.after (before ++ [a])).chains, c'.inst = x →
      W.step (e.views x before) = some (c'.context, o)

/-- The step at an index takes no notice of what becomes of its nested run. -/
structure Ignores (e : Engine) (x : String) (as : List Act) (i : Nat) (outcome : Context → Outcome) :
    Prop where
  /-- Once the call of the nested run is over, the step returns when its task is next taken on: it
  goes on with the context that it was executed with. -/
  goes_on : ∀ before n, before ++ [.advance n] <+: as → ∀ t, (e.after before).task? n = some t →
    t.parked = false → ∀ g o c next below, t.frames = g :: .driving o c (.calling i next) :: below →
      c.inst = x → ∀ reply, (e.after before).handed? t = some reply →
        (e.after (before ++ [.advance n])).deeds (.advance n) = [(c, .returned i .proceed)] ∧
          ∃ u ∈ (e.after (before ++ [.advance n, .advance n])).tasks, u.frames =
            .driving o c (.acting ⟨[.save (i + 1)], .arrive (i + 1)⟩) :: below
  /-- Whatever it returns, it leaves the context as it is. -/
  returns : ∀ before a, before ++ [a] <+: as → ∀ c o, (c, .returned i o) ∈ (e.after before).deeds a →
    c.inst = x → o = outcome c.context ∧ c ∈ (e.after (before ++ [a])).chains

variable {e e' : Engine} {W : Circumstances} {D : Definition} {x : String} {c c' : Chain} {p : Nat}
  {as as' : List Act}

namespace Sojourns

theorem length_about_le (h : e.Sojourns W D x c p as) {before : List Act} {a : Act}
    (has : before ++ [a] <+: as) :
    (Deed.about x ((e.after before).deeds a)).length ≤ 1 := by
  refine Engine.length_about_le fun s hs hlost => ?_
  obtain ⟨hmem, hx⟩ := List.mem_filter.1 hs
  have hgrants := (h.allows before a has s hmem (beq_iff_eq.1 hx)).grants
  rw [hlost] at hgrants
  exact hgrants

theorem follows (h : e.Sojourns W D x c p as) (hW : W.Knows D) {before : List Act}
    (hbefore : before <+: as) : (e.after before).Follows W.habits x := by
  obtain ⟨after, rfl⟩ := hbefore
  refine h.course.left.keeps_habits hW.follows fun before' n hle => ?_
  exact h.obliges before' n (hle.trans (List.prefix_append _ _))

/-- What a step says is what is answered, and so is the context that it leaves. -/
theorem answer_eq (h : e.Sojourns W D x c p as) (hW : W.Knows D) {before : List Act} {a : Act}
    (has : before ++ [a] <+: as) {P P' : Chain} {φ : Phase} {i : Nat} {o : Outcome}
    (hd : (P, .returned i o) ∈ (e.after before).deeds a) (hx : P.inst = x)
    (hst : (e.after (before ++ [a])).Bears x (some (P', φ))) :
    W.answer (e.views x before) P.context i = some (P'.context, o) := by
  obtain ⟨hmem, hx'⟩ := hst.mem_chains
  unfold Circumstances.answer
  cases hhabit : W.habits i with
  | none => exact h.step before a has P i o hd hx hhabit P' hmem hx'
  | some f =>
    obtain ⟨after, rfl⟩ := (List.prefix_append before [a]).trans has
    have hsound : (e.after before).Sound .loyal :=
      (h.course.new.sound .loyal).after h.course.left.loyal
    obtain ⟨rfl, hinst, hchain⟩ :=
      (h.follows hW (List.prefix_append _ _)).returned hsound hd hx hhabit
    rw [← after_concat] at hchain
    obtain ⟨φ', heq⟩ := hst.eq_of_mem hchain hinst
    cases heq
    rfl

/-- A step that panics is one that is answered so. -/
theorem answer_eq_none (h : e.Sojourns W D x c p as) (hW : W.Knows D) {before : List Act} {a : Act}
    (has : before ++ [a] <+: as) {P : Chain} (hd : (P, .panicked) ∈ (e.after before).deeds a)
    (hx : P.inst = x) {st : Option (Chain × Phase)} (hst : (e.after before).Bears x st) :
    ∃ i, st = some (P, .within i) ∧ W.answer (e.views x before) P.context i = none := by
  obtain ⟨t, ht, o, i, context, payload, below, hframes, hhabit⟩ :=
    (h.follows hW ((List.prefix_append _ _).trans has)).habit_of_panicked hd hx
  have hframe : .driving o P (.inside i (.panic context payload)) ∈ t.frames :=
    hframes ▸ List.mem_cons_self
  refine ⟨i, hst.eq_of_frame ht hframe hx, ?_⟩
  rw [Circumstances.answer, hhabit]
  exact (h.allows before a has _ hd hx).grants

/-- **A run is seen to be where the run is in its circumstances.** -/
theorem tracks (h : e.Sojourns W D x c p as) (hW : W.Knows D) {before : List Act}
    (hbefore : before <+: as) :
    ∃ st, (e.after before).Bears x st ∧ W.Tracks D c.context p (e.saga x before) st := by
  induction before using List.reverseRecOn with
  | nil => exact ⟨none, by rw [after_nil, Bears, h.course.new.pairs_eq]; rfl, .inl ⟨rfl, rfl⟩⟩
  | append_singleton before a ih =>
    obtain ⟨st, hst, htracks⟩ := ih ((List.prefix_append _ _).trans hbefore)
    have hcourse : e.Course D x (before ++ [a]) := by
      obtain ⟨after, rfl⟩ := hbefore
      exact h.course.left
    obtain ⟨st', hshifts, hst'⟩ := hcourse.shifts_act hst
    refine ⟨st', hst', ?_⟩
    rw [saga_concat]
    refine htracks.shifts hshifts ?_ (h.length_about_le hbefore) ?_ ?_ ?_ ?_
    · rintro P φ rfl
      obtain ⟨hmem, hx⟩ := hst.mem_chains
      exact (hcourse.left.hosts before (List.prefix_refl _)).definition P hmem hx
    · intro s hs hstart
      obtain ⟨hnil, rfl⟩ := start_of_single h.single hbefore hs hstart
      exact ⟨hnil, rfl, rfl⟩
    · intro s hs
      obtain ⟨hmem, hx⟩ := List.mem_filter.1 hs
      exact h.allows before a hbefore s hmem (beq_iff_eq.1 hx)
    · rintro ⟨P, d⟩ hs i o rfl P' φ rfl
      obtain ⟨hmem, hx⟩ := List.mem_filter.1 hs
      exact h.answer_eq hW hbefore hmem (beq_iff_eq.1 hx) hst'
    · rintro ⟨P, d⟩ hs rfl
      obtain ⟨hmem, hx⟩ := List.mem_filter.1 hs
      exact h.answer_eq_none hW hbefore hmem (beq_iff_eq.1 hx) hst

/-- What is seen of a run is a stretch of the run in its circumstances: all of it if no chain is
there any more. -/
theorem course_eq (h : e.Sojourns W D x c p as) (hW : W.Knows D) :
    ∃ n r, W.course D c.context p n = (e.views x as, r) ∧
      ((e.after as).IsThrough x → r.2 = .over) := by
  obtain ⟨st, hst, ⟨hnil, -⟩ | ⟨n, r, hn, hmeets⟩⟩ := h.tracks hW (List.prefix_refl as)
  · obtain ⟨rest, hsaga, -⟩ := h.single
    rw [hsaga] at hnil
    cases hnil
  · refine ⟨n, r, hn, fun hthrough => ?_⟩
    cases hmeets with
    | on =>
      obtain ⟨hmem, hx⟩ := hst.mem_chains
      exact absurd hx (hthrough _ hmem)
    | withdrawn =>
      obtain ⟨hmem, hx⟩ := hst.mem_chains
      exact absurd hx (hthrough _ hmem)
    | ended => rfl

/-- **A step that does not wait for its nested run takes no notice of it.** -/
theorem ignores (h : e.Sojourns W D x c p as) (hW : W.Knows D) {i : Nat} {s : Step}
    {outcome : Context → Outcome} (hs : D.step? i = some s) (haloof : s.IsAloof outcome) :
    e.Ignores x as i outcome := by
  obtain ⟨f, hhabit⟩ := Option.isSome_iff_exists.1 (hW.aloof i s outcome hs haloof)
  have hf := haloof.habit_eq hW.follows hs hhabit
  refine ⟨fun before n hle t ht hp g o P next below hframes hx reply hreply => ?_,
    fun before a hle P o hd hx => ?_⟩
  · have hsound : (e.after before).Sound .any := (h.course.new.sound .any).after_any before
    have hfollows := h.follows hW ((List.prefix_append _ _).trans hle)
    have hhands := (h.obliges before n hle t ht).hands
    obtain ⟨hmem, rfl⟩ := task?_eq_some ht
    obtain ⟨hdeeds, u, hu, hdoing⟩ :=
      hsound.proceeds hfollows hmem hp hframes hx hhabit hhands hreply
    rw [hf] at hdoing
    rw [after_append, after_append]
    exact ⟨hdeeds, u, hu, hdoing⟩
  · obtain ⟨after, rfl⟩ := hle
    have hsound : (e.after before).Sound .loyal :=
      (h.course.new.sound .loyal).after h.course.left.left.loyal
    have hfollows := h.follows hW ((List.prefix_append before [a]).trans (List.prefix_append _ after))
    obtain ⟨ho, -, hchain⟩ := hfollows.returned hsound hd hx hhabit
    rw [hf] at ho hchain
    rw [after_concat]
    exact ⟨ho, hchain⟩

/-- **A nested run that is not waited for does not sway its parent.** Let two runs of a workflow
start at the same position and with the same context, in whatever engines, with whatever other
workflows and in the midst of whatever else happens there, and let them meet with the same
circumstances: what the store, the bus and the scheduler answer, what those steps do that look at
more than their context, and where the run is found to be cancelled. Then the steps that do not wait
for their nested runs go on with their contexts once these have come to any result, and the same is
seen of both runs, one of them being ahead of the other: the same steps are executed and return,
each with the same context, the same positions are saved, the same news published and the same
delays begun, and the same is decided for who waits. None of them does more than the other one does
to its end. And if both come to their end, all of it is the same, they leave the same position, and
their callers are told the same. -/
theorem unswayed (h : e.Sojourns W D x c p as) (h' : e'.Sojourns W D x c' p as') (hW : W.Knows D)
    (hcontext : c'.context = c.context) :
    (∀ i s outcome, D.step? i = some s → s.IsAloof outcome →
      e.Ignores x as i outcome ∧ e'.Ignores x as' i outcome) ∧
    (e.views x as <+: e'.views x as' ∨ e'.views x as' <+: e.views x as) ∧
    ((e.after as).IsThrough x → e'.views x as' <+: e.views x as) ∧
    ((e'.after as').IsThrough x → e.views x as <+: e'.views x as') ∧
    ((e.after as).IsDone x → (e'.after as').IsDone x →
      e'.views x as' = e.views x as ∧
      (e'.after as').position x = (e.after as).position x ∧
      ∀ k k', c.completion = some k → c'.completion = some k' →
        .panicked ∉ e.story x as → none ∉ e.answers k as → none ∉ e'.answers k' as' →
        ∃ s, e.answers k as = [some (.settled s)] ∧ e'.answers k' as' = [some (.settled s)]) := by
  obtain ⟨n, ⟨c₁, σ⟩, hn, hover⟩ := h.course_eq hW
  obtain ⟨n', ⟨c₁', σ'⟩, hn', hover'⟩ := h'.course_eq hW
  rw [hcontext] at hn'
  have hthrough : (e.after as).IsThrough x → e'.views x as' <+: e.views x as := by
    intro hx
    obtain rfl : σ = .over := hover hx
    exact Circumstances.course_prefix_of_over hn hn'
  have hthrough' : (e'.after as').IsThrough x → e.views x as <+: e'.views x as' := by
    intro hx
    obtain rfl : σ' = .over := hover' hx
    exact Circumstances.course_prefix_of_over hn' hn
  refine ⟨fun i s outcome hs haloof => ⟨h.ignores hW hs haloof, h'.ignores hW hs haloof⟩, ?_,
    hthrough, hthrough', fun hdone hdone' => ?_⟩
  · rcases Nat.le_total n n' with hle | hle
    · exact .inl (Circumstances.course_prefix hn hn' hle)
    · exact .inr (Circumstances.course_prefix hn' hn hle)
  have hsame : e'.views x as' = e.views x as := by
    have hle := hthrough (h.course.new.isThrough_of_isDone hdone)
    have hge := hthrough' (h'.course.new.isThrough_of_isDone hdone')
    exact hle.eq_of_length (Nat.le_antisymm hle.length_le hge.length_le)
  have hstories : (e'.story x as').map Deed.undated = (e.story x as).map Deed.undated := by
    rw [← map_snd_saga, ← map_snd_saga, ← Deed.map_snd_views, ← Deed.map_snd_views]
    exact congrArg _ hsame
  refine ⟨hsame, ?_, fun k k' hk hk' hpanic hcut hcut' => ?_⟩
  · rw [h.course.position_of_single h.single, h'.course.position_of_single h'.single,
      ← Deed.position_undated, hstories, Deed.position_undated]
  have hpanic' : .panicked ∉ e'.story x as' := by
    intro hmem
    have hin : .panicked ∈ (e.story x as).map Deed.undated := by
      rw [← hstories]
      exact List.mem_map.2 ⟨_, hmem, rfl⟩
    obtain ⟨d, hd, heq⟩ := List.mem_map.1 hin
    cases d <;> cases heq
    exact hpanic hd
  obtain ⟨s, hs, hverdict⟩ := h.course.told h.single hdone hk hpanic hcut
  obtain ⟨s', hs', hverdict'⟩ := h'.course.told h'.single hdone' hk' hpanic' hcut'
  have howed : (Deed.owed (e'.story x as')).map Deed.undated =
      (Deed.owed (e.story x as)).map Deed.undated := by
    rw [Deed.owed_undated, Deed.owed_undated, hstories]
  obtain rfl := hverdict'.unique (hverdict.of_undated howed)
  exact ⟨s', hs, hs'⟩

end Sojourns

end Engine

/-! ## A host and guests -/

namespace HostAndGuest

/-- The run of the guest is started and not waited for. -/
def nested : Nested := { workflow := "guest", inst := some fun _ => .ok "c", wait := false }

/-- Dinner is waited for. -/
def dinner : Nested := { workflow := "kitchen", inst := some fun _ => .ok "z" }

/-- Dinner is served once. -/
def kitchen : Definition :=
  ⟨"kitchen", [.code fun c => .finish (c.setOutput (.text "dinner")) .proceed]⟩

def host (steps : List Step) : Definition := ⟨"host", nested.step :: steps⟩

def guest (steps : List Step) : Definition := ⟨"guest", steps⟩

/-- A guest who is done at once. -/
def quiet : Definition := guest [.deciding fun _ => .proceed]

/-- A guest who stays, and fails in the end. -/
def loud : Definition :=
  guest [.delay .microsecond, .deciding fun _ => .failure (.plain "noise")]

/-- A guest who has dinner. -/
def hungry : Definition := guest [dinner.step]

def registry (h g : Definition) : Registry :=
  ⟨((Table.empty.put "host" h).put "guest" g).put "kitchen" kitchen⟩

def engine : Engine := { scheduler := { timers := { start := ⟨0⟩ } }, identity := fun _ => "" }

/-- Somebody waits for the host. -/
def call (h g : Definition) : List Act :=
  [.addRunner (registry h g) .empty,
    .run ⟨0⟩ (.root 0) { workflow := "host", inst := some "x", wait := true }]

/-- The host whose run is looked at. -/
def calm : Definition := host [.deciding fun _ => .proceed]

/-- The quiet guest is done before the host goes on. -/
def actsQuiet : List Act := call calm quiet ++ .replicate 26 (.advance 2)

/-- The loud guest goes on and fails while the host is under way. -/
def actsLoud : List Act :=
  call calm loud ++ .replicate 13 (.advance 2) ++ .wake 0 :: .replicate 6 (.advance 6) ++
    .replicate 16 (.advance 2)

/-- The chain of the host as it starts. -/
def chain : Chain where
  definition := calm
  context := { inst := "x", workflow := "host", services := Services.empty.insert .runner ⟨0⟩ }
  dispatcher := ⟨1⟩
  completion := some ⟨3⟩
  number := 3

/-- All goes well; the steps of the host leave every context as it is. -/
def circumstances : Circumstances where
  habits
    | 0 => some fun c => (c, nested.outcome c)
    | 1 => some fun c => (c, .proceed)
    | _ => none
  step _ := none
  store _ := none
  bus _ := true
  scheduler _ := none
  withdraws _ := false

theorem follows : calm.Follows circumstances.habits := by
  intro i f hf
  match i with
  | 0 =>
    cases hf
    exact ⟨_, rfl, fun c => Nested.endsWith_start rfl c⟩
  | 1 =>
    cases hf
    exact ⟨_, rfl, fun c => rfl⟩
  | i + 2 => cases hf

theorem knows : circumstances.Knows calm := by
  refine ⟨follows, fun i s outcome hs _ => ?_⟩
  match i with
  | 0 => rfl
  | 1 => rfl
  | i + 2 => cases hs

theorem meets_registry {S : Standard} {g : Definition}
    (h : ∀ d ∈ [calm, g, kitchen], S.definition d) : (registry calm g).Meets S :=
  ((Registry.meets_empty.put _ (h calm (by simp))).put _ (h g (by simp))).put _
    (h kitchen (by simp))

/-- Nothing fails of the deed, and the step is one of the host. -/
def isSmooth : Deed → Bool
  | .unsaved _ | .refused _ | .unscheduled _ | .halted _ | .panicked | .dropped | .lost => false
  | .returned i _ => decide (i < 2)
  | _ => true

theorem allows_of_isSmooth {d : Deed} (h : isSmooth d = true) (l : List Sight) :
    circumstances.Allows l d := by
  cases d <;> first | exact ⟨rfl, trivial⟩ | exact ⟨rfl, rfl⟩ | exact absurd h Bool.false_ne_true

/-- A host whose steps find the runner and are handed results, and of whose deeds none fails. -/
theorem sojourns {g : Definition} {as rest : List Act} (hloyal : g.IsLoyal)
    (hname : g.name ≠ "host") (has : as = .addRunner (registry calm g) .empty :: rest)
    (hplain : rest.all Act.isPlain = true)
    (hchains : ∀ n < as.length + 1,
      (((engine.after (as.take n)).chains.filter fun c => c.inst == "x").map fun c =>
        c.definition.name) ∈ [[], ["host"]])
    (hsingle : ∃ rest, engine.saga "x" as = (chain, .started 0) :: rest ∧
      ∀ s ∈ rest, s.2.isStart = false)
    (hobliges : ∀ n < as.length + 1, ∀ t ∈ (engine.after (as.take n)).tasks,
      (engine.after (as.take n)).Finds circumstances.habits "x" t ∧
        (engine.after (as.take n)).Hands circumstances.habits "x" t)
    (hsmooth : ∀ d ∈ engine.story "x" as, isSmooth d = true) :
    engine.Sojourns circumstances calm "x" chain 0 as where
  course := by
    have hmeets : ∀ {S : Standard}, (∀ d ∈ [calm, g, kitchen], S.definition d) →
        ∀ a ∈ as, a.Meets S :=
      fun h => has ▸ Act.forall_meets (meets_registry h) hplain
    refine .of_among ⟨rfl, rfl, rfl, rfl⟩ (hmeets fun d hd => ?_) (hmeets fun d hd => hd) ?_ hchains
    · simp only [List.mem_cons, List.not_mem_nil, or_false] at hd
      obtain rfl | rfl | rfl := hd
      · intro s hs
        simp only [calm, host, List.mem_cons, List.not_mem_nil, or_false] at hs
        obtain rfl | rfl := hs
        exacts [Nested.isLoyal_nested _, Step.isLoyal_deciding _]
      · exact hloyal
      · intro s hs
        obtain rfl := List.mem_singleton.1 hs
        exact fun _ => rfl
    · simp only [List.mem_cons, List.not_mem_nil, or_false]
      rintro d (rfl | rfl | rfl) heq
      exacts [rfl, absurd heq hname, absurd heq (by decide)]
  single := hsingle
  obliges before n hle t ht := by
    have hbefore : before <+: as := (List.prefix_append _ _).trans hle
    rw [List.prefix_iff_eq_take.1 hbefore] at ht ⊢
    obtain ⟨hfinds, hhands⟩ := hobliges before.length (Nat.lt_succ_of_le hbefore.length_le) t
      (Engine.task?_eq_some ht).1
    exact ⟨hfinds, hhands⟩
  allows before a hle s hs hx :=
    allows_of_isSmooth (hsmooth _ (List.mem_map_of_mem (Engine.mem_saga hle hs hx))) _
  step before a hle c i o hd hx hhabit := by
    have hsmooth := hsmooth _ (List.mem_map_of_mem (Engine.mem_saga hle hd hx))
    have hlt : i < 2 := of_decide_eq_true hsmooth
    obtain rfl | rfl : i = 0 ∨ i = 1 := by omega
    all_goals cases hhabit

theorem sojourns_quiet : engine.Sojourns circumstances calm "x" chain 0 actsQuiet := by
  refine sojourns (g := quiet) ?_ (by decide) rfl rfl (by decide +kernel)
    ⟨_, rfl, by decide +kernel⟩ (by decide +kernel) (by decide +kernel)
  exact List.forall_mem_singleton.2 (Step.isLoyal_deciding _)

theorem sojourns_loud : engine.Sojourns circumstances calm "x" chain 0 actsLoud := by
  refine sojourns (g := loud) ?_ (by decide) rfl rfl (by decide +kernel)
    ⟨_, rfl, by decide +kernel⟩ (by decide +kernel) (by decide +kernel)
  exact List.forall_mem_cons.2
    ⟨Step.isLoyal_deciding _, List.forall_mem_singleton.2 (Step.isLoyal_deciding _)⟩

/-- The host does the same, and its caller is told the same, whether the guest is done at once or
stays and fails in the midst of it. -/
theorem hosted_alike :
    .stopped ⟨"c", .completed, none⟩ ∈ engine.story "c" actsQuiet ∧
      .settled (.error (.stepFailed (.plain "noise"))) ∈ engine.story "c" actsLoud ∧
      engine.views "x" actsLoud = engine.views "x" actsQuiet ∧
      ∃ s, engine.answers ⟨3⟩ actsQuiet = [some (.settled s)] ∧
        engine.answers ⟨3⟩ actsLoud = [some (.settled s)] := by
  obtain ⟨-, -, -, -, hdone⟩ := sojourns_quiet.unswayed sojourns_loud knows rfl
  obtain ⟨hviews, -, htold⟩ := hdone
    (Engine.isDone_of_isEmpty (by decide +kernel) (by decide +kernel))
    (Engine.isDone_of_isEmpty (by decide +kernel) (by decide +kernel))
  refine ⟨List.mem_of_getElem? (i := 7) rfl, List.mem_of_getElem? (i := 8) rfl, hviews,
    htold ⟨3⟩ ⟨3⟩ rfl rfl ?_ (Engine.none_notMem_answers (by decide +kernel))
      (Engine.none_notMem_answers (by decide +kernel))⟩
  intro hpanicked
  have hsmooth : ∀ d ∈ engine.story "x" actsQuiet, isSmooth d = true := by decide +kernel
  cases hsmooth _ hpanicked

/-- The whole evening. -/
def visit (h g : Definition) : List Act := call h g ++ .replicate 60 (.advance 2)

/-- An evening in the midst of which something happens. -/
def eventful (g : Definition) (a : Act) : List Act :=
  call (host [.delay .microsecond]) g ++ .replicate 15 (.advance 2) ++ a ::
    .replicate 60 (.advance 2)

/-- Nobody waits for the host, and the runner is gone when the host comes to look for it. -/
def lateVisit : List Act :=
  [.addRunner (registry ⟨"host", [.delay .microsecond, nested.step]⟩ quiet) .empty,
    .run ⟨0⟩ (.root 0) { workflow := "host", inst := some "x" }] ++
    .replicate 10 (.advance 2) ++ [.releaseRunner ⟨0⟩, .wake 0] ++ .replicate 10 (.advance 5)

/-- The second position is not saved. -/
def lossy : Engine := { engine with store := { failsSaveAt := (· == 2) } }

/-- The third notice is refused. -/
def mute : Engine := { engine with refuses := fun before _ => before == 2 }

/-- The second continuation is not armed. -/
def busy : Engine :=
  { engine with scheduler := { engine.scheduler with refuses := fun calls _ => calls == 1 } }

/-- What guests share with the host may tell of them: the kitchen, the store, the bus, the scheduler,
the clock, and how far the host has come when it is cancelled. And the host goes on only if the
runner is there. -/
theorem swayed :
    (engine.answers ⟨3⟩ (visit (host [dinner.step]) quiet) =
        [some (.settled (.ok ⟨"x", .completed, some (.text "dinner")⟩))] ∧
      engine.answers ⟨3⟩ (visit (host [dinner.step]) hungry) =
        [some (.settled (.ok ⟨"x", .completed, none⟩))]) ∧
    ((lossy.story "x" (visit (host []) (guest []))).getLast? =
        some (.stopped ⟨"x", .completed, none⟩) ∧
      (lossy.story "x" (visit (host []) quiet)).getLast? =
        some (.halted (.store (.corrupt "x" "injected save failure 2")))) ∧
    ((mute.story "x" (visit (host []) quiet)).getLast? = some (.stopped ⟨"x", .completed, none⟩) ∧
      (mute.story "x" (visit (host []) hungry)).getLast? = some (.halted .busClosed)) ∧
    ((busy.story "x" (visit (host [.delay .microsecond]) quiet)).getLast? =
        some (.suspended 2) ∧
      (busy.story "x" (visit (host [.delay .microsecond]) loud)).getLast? =
        some (.halted (.scheduler .noRuntime))) ∧
    (.published ⟨"x", "host", .delayed 2 ⟨1000⟩⟩ ∈
        engine.story "x" (eventful (guest []) (.pass 1)) ∧
      .published ⟨"x", "host", .delayed 2 ⟨1001000⟩⟩ ∈
        engine.story "x" (eventful quiet (.pass 1))) ∧
    ((engine.story "x" (eventful (guest []) (.cancel (.root 0)))).getLast? =
        some (.halted (.scheduler .cancelled)) ∧
      (engine.story "x" (eventful quiet (.cancel (.root 0)))).getLast? = some (.halted .cancelled)) ∧
    .returned 1 (.failure (.plain "no workflow runner available to start 'guest'")) ∈
      engine.story "x" lateVisit :=
  ⟨⟨rfl, rfl⟩, ⟨rfl, rfl⟩, ⟨rfl, rfl⟩, ⟨rfl, rfl⟩,
    ⟨List.mem_of_getElem? (i := 7) rfl, List.mem_of_getElem? (i := 7) rfl⟩, ⟨rfl, rfl⟩,
    List.mem_of_getElem? (i := 7) rfl⟩

end HostAndGuest

end DurableFlow
